import MeshBus.Forward.Handle

/-!
# Forward.Enqueues

An event other than credit and write permits touches the link queues only by calls of `enqueue`,
each on a link that a route names and that has not failed. `Enqueues P f sent f'` is such a
sequence of calls, for packets that satisfy `P`; whatever one `enqueue` keeps, an event keeps
(`handle_enqueues`).
-/

namespace MeshBus
namespace Forward

open Wire
open Control (RouteTable)

variable {P : ForwardPacket → Prop} {f f' : Forwarder} {now : MonoTime} {event : ForwardEvent}
  {acts : List ForwardAction} {link : LinkId} {packet : ForwardPacket} {incoming : Option LinkId}

/-- The packets an action list sends, with their links. -/
def sentOn (actions : List ForwardAction) : List (LinkId × ForwardPacket) :=
  actions.filterMap fun
    | .send link packet => some (link, packet)
    | _ => none

section Actions

variable (a b : List ForwardAction) (link : LinkId) (p : ForwardPacket) (reason : DropReason)
  (timer : ForwardTimer) (due : MonoTime)

@[simp] theorem sentOn_nil : sentOn [] = [] := rfl
@[simp] theorem sentOn_append : sentOn (a ++ b) = sentOn a ++ sentOn b := List.filterMap_append
@[simp] theorem sentOn_cons_send : sentOn (.send link p :: a) = (link, p) :: sentOn a := rfl
@[simp] theorem sentOn_cons_deliverLocal : sentOn (.deliverLocal p :: a) = sentOn a := rfl
@[simp] theorem sentOn_cons_drop : sentOn (.drop reason p :: a) = sentOn a := rfl
@[simp] theorem sentOn_cons_backpressure : sentOn (.backpressure link p :: a) = sentOn a := rfl
@[simp] theorem sentOn_cons_setTimer : sentOn (.setTimer timer due :: a) = sentOn a := rfl

@[simp] theorem sentOn_dropQueuedPackets (packets : List QueuedPacket) :
    sentOn (Forwarder.dropQueuedPackets packets reason) = [] := by
  simp [Forwarder.dropQueuedPackets, sentOn, List.filterMap_map]

end Actions

theorem mem_sentOn : (link, packet) ∈ sentOn acts ↔ .send link packet ∈ acts := by
  rw [sentOn, List.mem_filterMap]
  constructor
  · rintro ⟨action, haction, heq⟩
    cases action <;> simp at heq
    obtain ⟨rfl, rfl⟩ := heq
    exact haction
  · intro h
    exact ⟨_, h, rfl⟩

theorem sentOn_eq_nil (h : sent acts = []) : sentOn acts = [] := by
  rw [sent, List.filterMap_eq_nil_iff] at h
  rw [sentOn, List.filterMap_eq_nil_iff]
  intro a ha
  have hnone := h a ha
  cases a <;> simp_all

namespace Forwarder

/-- `try_send_one`, on the state of its link. -/
theorem trySendOne_link (state : LinkQueues) (hstate : f.links[link]? = some state)
    (h : f.trySendOne link = some (f', acts)) :
    ∃ state' sent, state.trySendOne = some (state', sent) ∧
      f' = { f with links := f.links.insert link state' } ∧
      sentOn acts = (sent.map fun q => (link, q.packet)).toList := by
  simp only [trySendOne, hstate] at h
  split at h
  · cases h
  · rename_i state' sent hsent
    cases h
    refine ⟨state', sent, hsent, rfl, ?_⟩
    cases sent <;> rfl

/-- `try_send_one` sends a packet that waits for its link. -/
theorem trySendOne_sentOn (h : f.trySendOne link = some (f', acts)) :
    ∀ x ∈ sentOn acts, x.1 = link ∧ ∃ priority, ∃ q ∈ f.queue link priority, q.packet = x.2 := by
  simp only [trySendOne] at h
  split at h
  · cases h
    simp
  · rename_i state hstate
    split at h
    · cases h
    · rename_i state' sent hsent
      cases h
      cases LinkQueues.trySendOne_spec hsent with
      | nothing same => simp
      | head priority queued rest front popped =>
        intro x hx
        rw [List.mem_singleton.mp hx]
        refine ⟨rfl, priority, queued, ?_, rfl⟩
        rw [queue, linkState, hstate, Option.getD_some, front]
        exact List.mem_cons_self

theorem setLink_sentOn {state : LinkQueues}
    (h : trySendOne { f with links := f.links.insert link state } link = some (f', acts))
    (hqueues : state.queues = (f.linkState link).queues) :
    ∀ x ∈ sentOn acts, x.1 = link ∧ ∃ priority, ∃ q ∈ f.queue link priority, q.packet = x.2 := by
  intro x hx
  obtain ⟨hlink, priority, q, hq, hpacket⟩ := trySendOne_sentOn h x hx
  rw [queue_setLink hqueues] at hq
  exact ⟨hlink, priority, q, hq, hpacket⟩

theorem enqueue_sentOn (h : f.enqueue link packet incoming = some (f', acts)) :
    ∀ x ∈ sentOn acts, x.1 = link ∧
      (x.2 = packet ∨ ∃ priority, ∃ q ∈ f.queue link priority, q.packet = x.2) := by
  -- whatever waits after the packet is stored waited before, or is the packet
  have stored : ∀ {state : LinkQueues} {g : Forwarder}, g.links = f.links.insert link state →
      (∀ priority q, q ∈ state.queues priority →
        q.packet = packet ∨ q ∈ (f.linkState link).queues priority) →
      g.trySendOne link = some (f', acts) → ∀ x ∈ sentOn acts, x.1 = link ∧
        (x.2 = packet ∨ ∃ priority, ∃ q ∈ f.queue link priority, q.packet = x.2) := by
    intro state g hlinks hqueues htry x hx
    obtain ⟨hlink, priority, q, hq, hpacket⟩ := trySendOne_sentOn htry x hx
    refine ⟨hlink, ?_⟩
    have hstate : g.linkState link = state := by
      rw [linkState, hlinks, OrdMap.get_insert, if_pos rfl]
      rfl
    rw [queue, hstate] at hq
    rcases hqueues priority q hq with hnew | hold
    · exact .inl (hpacket ▸ hnew)
    · exact .inr ⟨priority, q, hold, hpacket⟩
  simp only [enqueue] at h
  split at h
  · cases h
    simp
  · split at h
    · rename_i state' old hconf
      refine stored rfl (fun priority q hq => ?_) h
      obtain ⟨-, pre, post, hqueue, hqueues⟩ := LinkQueues.conflate_some hconf
      rw [hqueues] at hq
      by_cases hpr : priority = packet.header.priority
      · subst hpr
        rw [Function.update_self] at hq
        rw [hqueue]
        simp only [List.mem_append, List.mem_cons] at hq ⊢
        rcases hq with hq | rfl | hq
        · exact .inr (.inl hq)
        · exact .inl rfl
        · exact .inr (.inr (.inr hq))
      · rw [Function.update_of_ne hpr] at hq
        exact .inr hq
    · split at h
      · cases h
        split <;> simp
      · refine stored rfl (fun priority q hq => ?_) h
        rw [LinkQueues.pushBack] at hq
        by_cases hpr : priority = packet.header.priority
        · subst hpr
          simp only [Function.update_self, List.mem_append, List.mem_singleton] at hq
          rcases hq with hq | rfl
          · exact .inr hq
          · exact .inl rfl
        · simp only [Function.update_of_ne hpr] at hq
          exact .inr hq

/-- A route goes over `link`, and `link` has not failed. -/
def Offers (f : Forwarder) (link : LinkId) : Prop :=
  link ∉ f.downLinks ∧ ∃ d r, f.routes.get d = some r ∧ r.nextHop = link

/-- The copies of a packet have the property if the packet has it. -/
def Inherited (P : ForwardPacket → Prop) : Prop :=
  ∀ packet ds g ttl, P packet → accepted packet = some ds → g.Sublist ds → g ≠ [] →
    P (copyFor packet g ttl)

/-- Every copy an accepted packet is forwarded with has the property. -/
def Copied (P : ForwardPacket → Prop) (packet : ForwardPacket) : Prop :=
  ∀ ds g ttl, accepted packet = some ds → g.Sublist ds → g ≠ [] → P (copyFor packet g ttl)

theorem Inherited.copied (hP : Inherited P) (hpacket : P packet) : Copied P packet :=
  fun ds g ttl => hP packet ds g ttl hpacket

/-- Every parked packet satisfies `P`. -/
def Parks (P : ForwardPacket → Prop) (f : Forwarder) : Prop :=
  ∀ (g : Nat) batch, f.pendingP0[g]? = some batch → ∀ q ∈ batch.packets, P q.packet

/-- Every packet the forwarder holds satisfies `P`. -/
structure Holds (P : ForwardPacket → Prop) (f : Forwarder) : Prop where
  queues : ∀ l priority q, q ∈ f.queue l priority → P q.packet
  parked : Parks P f

/-- Calls of `enqueue`, with changes of the parked packets in between. -/
inductive Enqueues (P : ForwardPacket → Prop) :
    Forwarder → List (LinkId × ForwardPacket) → Forwarder → Prop
  | refl {f : Forwarder} : Enqueues P f [] f
  | park {f f1 f2 : Forwarder} {sent : List (LinkId × ForwardPacket)} (links : f1.links = f.links)
      (routes : f1.routes = f.routes) (downLinks : f1.downLinks = f.downLinks)
      (parks : Parks P f → Parks P f1) (rest : Enqueues P f1 sent f2) : Enqueues P f sent f2
  | enqueue {f f1 f2 : Forwarder} {link : LinkId} {packet : ForwardPacket}
      {incoming : Option LinkId} {acts : List ForwardAction} {sent : List (LinkId × ForwardPacket)}
      (offered : f.Offers link) (ok : P packet)
      (h : f.enqueue link packet incoming = some (f1, acts)) (rest : Enqueues P f1 sent f2) :
      Enqueues P f (sentOn acts ++ sent) f2

namespace Enqueues

theorem trans {f f1 f2 : Forwarder} {a b : List (LinkId × ForwardPacket)} (h1 : Enqueues P f a f1)
    (h2 : Enqueues P f1 b f2) : Enqueues P f (a ++ b) f2 := by
  induction h1 with
  | refl => exact h2
  | park links routes downLinks parks _ ih => exact .park links routes downLinks parks (ih h2)
  | enqueue offered ok h _ ih =>
    rw [List.append_assoc]
    exact .enqueue offered ok h (ih h2)

/-- Only the parked packets differ. -/
theorem of_parks (links : f'.links = f.links) (routes : f'.routes = f.routes)
    (downLinks : f'.downLinks = f.downLinks) (parks : Parks P f → Parks P f') :
    Enqueues P f [] f' :=
  .park links routes downLinks parks .refl

theorem routes {sent : List (LinkId × ForwardPacket)} (h : Enqueues P f sent f') :
    f'.routes = f.routes := by
  induction h with
  | refl => rfl
  | park _ routes _ _ _ ih => exact ih.trans routes
  | enqueue _ _ h _ ih => exact ih.trans (enqueue_spec h).keeps.routes

theorem downLinks {sent : List (LinkId × ForwardPacket)} (h : Enqueues P f sent f') :
    f'.downLinks = f.downLinks := by
  induction h with
  | refl => rfl
  | park _ _ downLinks _ _ ih => exact ih.trans downLinks
  | enqueue _ _ h _ ih => exact ih.trans (enqueue_spec h).keeps.downLinks

theorem holds {sent : List (LinkId × ForwardPacket)} (h : Enqueues P f sent f') (hf : Holds P f) :
    Holds P f' ∧ ∀ x ∈ sent, P x.2 := by
  induction h with
  | refl => exact ⟨hf, by simp⟩
  | @park f f1 _ _ links _ _ parks _ ih =>
    refine ih ⟨?_, parks hf.parked⟩
    intro l priority q hq
    refine hf.queues l priority q ?_
    rwa [queue, linkState, links] at hq
  | @enqueue f f1 _ link packet _ _ _ _ ok h _ ih =>
    have henq := enqueue_spec h
    have hf1 : Holds P f1 := by
      refine ⟨?_, ?_⟩
      · intro l priority q hq
        by_cases hl : l = link
        · subst hl
          rcases henq.sub priority q hq with hq | ⟨-, rfl⟩
          · exact hf.queues _ _ q hq
          · exact ok
        · rw [henq.others l hl] at hq
          exact hf.queues l priority q hq
      · intro g batch hbatch
        rw [henq.keeps.pendingP0] at hbatch
        exact hf.parked g batch hbatch
    obtain ⟨hf2, hsent⟩ := ih hf1
    refine ⟨hf2, fun x hx => ?_⟩
    rcases List.mem_append.mp hx with hx | hx
    · obtain ⟨-, hnew | ⟨priority, q, hq, hpacket⟩⟩ := enqueue_sentOn h x hx
      · rw [hnew]
        exact ok
      · rw [← hpacket]
        exact hf.queues link priority q hq
    · exact hsent x hx

end Enqueues

/-! ## One packet -/

theorem fate_offers {f : Forwarder} {d : NodeId} (h : f.fate incoming d = .via link) :
    f.Offers link := by
  refine ⟨fate_via h, ?_⟩
  simp only [fate] at h
  split at h
  · cases h
  · split at h
    · cases h
    · rename_i route hroute
      split at h
      · cases h
      · split at h
        · cases h
        · cases h
          exact ⟨d, route, hroute, rfl⟩

theorem rerouteFate_offers {f : Forwarder} {d : NodeId} (h : f.rerouteFate incoming d = .via link) :
    f.Offers link := by
  simp only [rerouteFate] at h
  split at h
  · cases h
  · split at h
    · rename_i l hl
      cases h
      simp only [rerouteLink] at hl
      split at hl
      · cases hl
      · rename_i route hroute
        split at hl
        · rename_i hup
          cases hl
          exact ⟨hup.1, d, route, hroute, rfl⟩
        · cases hl
    · cases h

theorem branches_offered {f : Forwarder} {fates : NodeId → Fate} {ds : List NodeId} {ttl : UInt8}
    (hfates : ∀ d link, fates d = .via link → f.Offers link) (hpacket : Copied P packet)
    (hds : accepted packet = some ds) :
    ∀ b ∈ branches fates packet ds ttl, f.Offers b.1 ∧ P b.2 := by
  rintro ⟨link, copy⟩ hb
  obtain ⟨hne, rfl⟩ := mem_branches.mp hb
  refine ⟨?_, hpacket ds _ ttl hds (Split.group_sublist ds _) hne⟩
  obtain ⟨d, hd⟩ := List.exists_mem_of_ne_nil _ hne
  exact hfates d link (Split.mem_group.mp hd).2

theorem enqueueAll_enqueues : ∀ {bs : List (LinkId × ForwardPacket)}
    {f f' : Forwarder} {acts : List ForwardAction}, (∀ b ∈ bs, f.Offers b.1 ∧ P b.2) →
    f.enqueueAll incoming bs = some (f', acts) → Enqueues P f (sentOn acts) f' := by
  intro bs
  induction bs with
  | nil =>
    intro f f' acts _ h
    cases h
    exact .refl
  | cons b bs ih =>
    intro f f' acts hbs h
    obtain ⟨f1, out, rest, h1, h2, rfl⟩ := emitAll_cons_inv h
    obtain ⟨hoffered, hok⟩ := hbs b List.mem_cons_self
    have hkeeps := (enqueue_spec h1).keeps
    rw [sentOn_append]
    refine .enqueue hoffered hok h1 (ih (fun c hc => ?_) h2)
    obtain ⟨⟨hup, hroute⟩, hc⟩ := hbs c (List.mem_cons_of_mem _ hc)
    rw [Offers, hkeeps.downLinks, hkeeps.routes]
    exact ⟨⟨hup, hroute⟩, hc⟩

theorem sentOn_localActs (f : Forwarder) (fates : NodeId → Fate) (packet : ForwardPacket)
    (ds : List NodeId) : sentOn (f.localActs fates packet ds) = [] := by
  rw [localActs]
  split <;> rfl

theorem sentOn_dropActs (reason : DropReason) (packet : ForwardPacket) (ds : List NodeId) :
    sentOn (dropActs reason packet ds) = [] := by
  rw [dropActs]
  split <;> rfl

theorem processPacket_enqueues (hpacket : Copied P packet)
    (h : f.processPacket incoming packet = some (f', acts)) : Enqueues P f (sentOn acts) f' := by
  rcases processPacket_cases h with ⟨reason, -, -, rfl, rfl⟩ | ⟨ds, out, -, hds, hout, rfl⟩
  · exact .refl
  · simp only [sentOn_append, sentOn_localActs, sentOn_dropActs, List.nil_append]
    exact enqueueAll_enqueues
      (branches_offered (fun _ _ => fate_offers) hpacket hds) hout

theorem rerouteQueued_enqueues (hP : Inherited P) {queued : QueuedPacket} {left : List QueuedPacket}
    (hpacket : P queued.packet) (h : f.rerouteQueued queued = some (f', acts, left)) :
    Enqueues P f (sentOn acts) f' ∧ ∀ q ∈ left, P q.packet := by
  rcases rerouteQueued_cases h with ⟨reason, -, -, rfl, rfl, rfl⟩ | ⟨ds, out, hds, hout, rfl, rfl⟩
  · exact ⟨.refl, by simp⟩
  · refine ⟨?_, ?_⟩
    · simp only [sentOn_append, sentOn_localActs, List.nil_append]
      exact enqueueAll_enqueues
        (branches_offered (fun _ _ => rerouteFate_offers) (hP.copied hpacket) hds) hout
    · intro q hq
      rw [leftOver] at hq
      split at hq
      · simp at hq
      · rename_i hne
        rw [List.mem_singleton] at hq
        subst hq
        rw [Split.of_noRoute] at hne ⊢
        exact hP _ ds _ _ hpacket hds (Split.group_sublist ds _) (by simpa using hne)

/-! ## Many packets -/

theorem rerouteBatch_enqueues (hP : Inherited P) : ∀ {packets : List QueuedPacket}
    {f f' : Forwarder} {acts : List ForwardAction} {left : List QueuedPacket},
    (∀ q ∈ packets, P q.packet) → f.rerouteBatch packets = some (f', acts, left) →
    Enqueues P f (sentOn acts) f' ∧ ∀ q ∈ left, P q.packet := by
  intro packets
  induction packets with
  | nil =>
    intro f f' acts left _ h
    cases h
    exact ⟨.refl, by simp⟩
  | cons queued packets ih =>
    intro f f' acts left hpackets h
    simp only [rerouteBatch, bind, Option.bind_eq_some_iff] at h
    obtain ⟨⟨f1, routed, unresolved⟩, h1, ⟨f2, rest, remaining⟩, h2, heq⟩ := h
    cases heq
    obtain ⟨he1, hl1⟩ := rerouteQueued_enqueues hP (hpackets _ List.mem_cons_self) h1
    obtain ⟨he2, hl2⟩ := ih (fun q hq => hpackets q (List.mem_cons_of_mem _ hq)) h2
    rw [sentOn_append]
    refine ⟨he1.trans he2, ?_⟩
    intro q hq
    rcases List.mem_append.mp hq with hq | hq
    · exact hl1 q hq
    · exact hl2 q hq

theorem rerouteOrDrop_enqueues (hP : Inherited P) : ∀ {packets : List QueuedPacket}
    {f f' : Forwarder} {acts : List ForwardAction}, (∀ q ∈ packets, P q.packet) →
    emitAll rerouteOrDrop f packets = some (f', acts) → Enqueues P f (sentOn acts) f' := by
  intro packets
  induction packets with
  | nil =>
    intro f f' acts _ h
    cases h
    exact .refl
  | cons queued packets ih =>
    intro f f' acts hpackets h
    obtain ⟨f1, out, rest, h1, h2, rfl⟩ := emitAll_cons_inv h
    simp only [rerouteOrDrop, bind, Option.bind_eq_some_iff] at h1
    obtain ⟨⟨f1', routed, unresolved⟩, hr, heq⟩ := h1
    cases heq
    have he1 := (rerouteQueued_enqueues hP (hpackets _ List.mem_cons_self) hr).1
    have he2 := ih (fun q hq => hpackets q (List.mem_cons_of_mem _ hq)) h2
    rw [sentOn_append, sentOn_append, sentOn_dropQueuedPackets, List.append_nil]
    exact he1.trans he2

theorem retryBatch_enqueues (hP : Inherited P) {entry : Nat × PendingP0Batch}
    (hentry : ∀ q ∈ entry.2.packets, P q.packet) (h : f.retryBatch now entry = some (f', acts)) :
    Enqueues P f (sentOn acts) f' := by
  simp only [retryBatch] at h
  split at h
  · cases h
    rw [sentOn_dropQueuedPackets]
    exact .refl
  · simp only [bind, Option.bind_eq_some_iff] at h
    obtain ⟨⟨f1, routed, remaining⟩, hr, h⟩ := h
    obtain ⟨he, hleft⟩ := rerouteBatch_enqueues hP hentry hr
    split at h
    · cases h
      exact he
    · cases h
      rw [← List.append_nil (sentOn _)]
      refine he.trans (.of_parks rfl rfl rfl ?_)
      intro hparks g batch hbatch
      rw [OrdMap.get_insert] at hbatch
      split at hbatch
      · cases hbatch
        exact hleft
      · exact hparks g batch hbatch

theorem retryAll_enqueues (hP : Inherited P) :
    ∀ {entries : List (Nat × PendingP0Batch)} {f f' : Forwarder} {acts : List ForwardAction},
    (∀ e ∈ entries, ∀ q ∈ e.2.packets, P q.packet) →
    emitAll (retryBatch now) f entries = some (f', acts) → Enqueues P f (sentOn acts) f' := by
  intro entries
  induction entries with
  | nil =>
    intro f f' acts _ h
    cases h
    exact .refl
  | cons e entries ih =>
    intro f f' acts hentries h
    obtain ⟨f1, out, rest, h1, h2, rfl⟩ := emitAll_cons_inv h
    rw [sentOn_append]
    exact (retryBatch_enqueues hP (hentries e List.mem_cons_self) h1).trans
      (ih (fun x hx => hentries x (List.mem_cons_of_mem _ hx)) h2)

/-! ## Events -/

/-- The forwarder at the first `enqueue` of an event: a failed link is gone, new routes are in
place. -/
def prepared (f : Forwarder) : ForwardEvent → Forwarder
  | .routesUpdated routes =>
    { f with
      routes := routes
      downLinks := f.downLinks ∩ (routes.routes.toList.map fun e => e.2.nextHop).toFinset }
  | .linkDown link =>
    { f with downLinks := insert link f.downLinks, links := f.links.erase link }
  | _ => f

/-- The events that let a link send. -/
def grants : ForwardEvent → Bool
  | .linkCredit _ _ => true
  | .linkWritable _ => true
  | _ => false

theorem handleLinkDown_enqueues (hP : Inherited P) (hf : Holds P f)
    (h : f.handleLinkDown now link = some (f', acts)) :
    Enqueues P (f.prepared (.linkDown link)) (sentOn acts) f' := by
  simp only [handleLinkDown] at h
  split at h
  · rename_i hnone
    cases h
    have hsame : f.prepared (.linkDown link) =
        { f with downLinks := insert link f.downLinks } := by
      rw [prepared, OrdMap.erase_eq_self hnone]
    rw [hsame]
    exact .refl
  · rename_i state hstate
    simp only [bind, Option.bind_eq_some_iff] at h
    obtain ⟨⟨f1, parked⟩, hpark, ⟨f2, rerouted⟩, hreroute, heq⟩ := h
    cases heq
    have hqueue : ∀ priority q, q ∈ state.queues priority → P q.packet := by
      intro priority q hq
      refine hf.queues link priority q ?_
      rw [queue, linkState, hstate]
      exact hq
    have hrest := rerouteOrDrop_enqueues hP (hqueue .p2) hreroute
    have hparked : sentOn parked = [] := by
      rcases parkP0_spec hpark with ⟨-, -, rfl⟩ | ⟨g, timer, -, rfl, -⟩ <;> rfl
    simp only [sentOn_append, sentOn_dropQueuedPackets, hparked, List.append_nil, List.nil_append]
    rcases parkP0_spec hpark with ⟨-, rfl, -⟩ | ⟨g, timer, -, -, rfl⟩
    · exact hrest
    · refine .park ?_ ?_ ?_ ?_ hrest
      · simp only [prepared]
      · simp only [prepared]
      · simp only [prepared]
      intro hparks g' batch hbatch
      rw [OrdMap.get_insert] at hbatch
      split at hbatch
      · rw [← Option.some.inj hbatch]
        exact hqueue .p0
      · exact hparks g' batch hbatch

theorem handle_enqueues (hP : Inherited P) (hf : Holds P f)
    (hevent : ∀ incoming packet, processed event = some (incoming, packet) → Copied P packet)
    (hgrants : grants event = false) (h : f.handle now event = some (f', acts)) :
    Enqueues P (f.prepared event) (sentOn acts) f' := by
  have hpacket : ∀ {incoming packet}, arrival event = some (incoming, packet) →
      f.prepared event = f → Enqueues P (f.prepared event) (sentOn acts) f' := by
    intro incoming packet harr hsame
    rw [hsame]
    cases hp : processed event with
    | none =>
      obtain ⟨rfl, reason, rfl⟩ := handle_rejected harr hp h
      exact .refl
    | some p =>
      exact processPacket_enqueues (hevent p.1 p.2 hp) (handle_processed hp h)
  cases event with
  | outbound packet => exact hpacket rfl rfl
  | outboundMulticast destinations packet => exact hpacket rfl rfl
  | inbound link packet => exact hpacket rfl rfl
  | linkCredit link bytes => cases hgrants
  | linkWritable link => cases hgrants
  | linkDown link => exact handleLinkDown_enqueues hP hf h
  | routesUpdated routes =>
    simp only [handle, handleRoutesUpdated, retryPendingP0] at h
    have hall : ∀ e ∈ f.pendingP0.toList, ∀ q ∈ e.2.packets, P q.packet := by
      rintro ⟨g, batch⟩ hmem
      exact hf.parked g batch (OrdMap.mem_toList.mp hmem)
    have hrest := retryAll_enqueues hP hall h
    refine .park ?_ ?_ ?_ ?_ hrest
    · rfl
    · rfl
    · rfl
    · intro _ g batch hbatch
      simp at hbatch
  | timer timer =>
    obtain ⟨generation⟩ := timer
    simp only [handle, Option.some.injEq] at h
    rcases f.handleTimer_cases now generation with ⟨out, heq, hsent, -⟩ | ⟨batch, -, -, heq⟩
    · rw [heq] at h
      cases h
      rw [sentOn_eq_nil hsent]
      exact .refl
    · rw [heq] at h
      cases h
      rw [sentOn_dropQueuedPackets]
      refine .of_parks rfl rfl rfl ?_
      intro hparks g batch' hbatch'
      rw [OrdMap.get_erase] at hbatch'
      split at hbatch'
      · cases hbatch'
      · exact hparks g batch' hbatch'

theorem Holds.prepared {f : Forwarder} (hf : Holds P f) (event : ForwardEvent) :
    Holds P (f.prepared event) := by
  cases event with
  | linkDown link =>
    refine ⟨?_, hf.parked⟩
    intro l priority q hq
    refine hf.queues l priority q ?_
    simp only [queue, linkState, Forwarder.prepared, OrdMap.get_erase] at hq ⊢
    split at hq
    · cases hq
    · exact hq
  | routesUpdated routes => exact ⟨hf.queues, hf.parked⟩
  | outbound _ | outboundMulticast _ _ | inbound _ _ | linkCredit _ _ | linkWritable _
  | timer _ => exact hf

theorem Holds.tried (hf : Holds P f) (h : Tried f link f' acts) : Holds P f' := by
  refine ⟨?_, ?_⟩
  · intro l priority q hq
    refine hf.queues l priority q ?_
    by_cases hl : l = link
    · subst hl
      exact h.sub priority q hq
    · rwa [h.others l hl] at hq
  · intro g batch hbatch
    rw [h.keeps.pendingP0] at hbatch
    exact hf.parked g batch hbatch

theorem prepared_of_grants {f : Forwarder} (h : grants event = true) : f.prepared event = f := by
  cases event with
  | linkCredit _ _ | linkWritable _ => rfl
  | outbound _ | outboundMulticast _ _ | inbound _ _ | routesUpdated _ | linkDown _ | timer _ =>
    cases h

theorem handle_granted (hgrants : grants event = true) (h : f.handle now event = some (f', acts)) :
    ∃ link, Granted f link f' acts := by
  cases event with
  | linkCredit link bytes => exact ⟨link, grantCredit_granted h⟩
  | linkWritable link => exact ⟨link, markWritable_granted h⟩
  | outbound _ | outboundMulticast _ _ | inbound _ _ | routesUpdated _ | linkDown _ | timer _ =>
    cases hgrants

/-- A credit or a write permit sends from the queues of its link. -/
theorem handle_grant (hgrants : grants event = true) (h : f.handle now event = some (f', acts)) :
    ∃ link, Tried f link f' acts ∧ ∀ x ∈ sentOn acts, x.1 = link ∧
      ∃ priority, ∃ q ∈ f.queue link priority, q.packet = x.2 := by
  obtain ⟨link, hgranted⟩ := handle_granted hgrants h
  refine ⟨link, hgranted.tried, ?_⟩
  cases hgranted with
  | down => simp
  | up _ htry hqueues => exact setLink_sentOn htry hqueues

/-- Whatever the copies of a packet inherit, every packet held and every packet sent has, if the
copies of the packets that come in have it. -/
theorem handle_holds (hP : Inherited P) (hf : Holds P f)
    (hevent : ∀ incoming packet, processed event = some (incoming, packet) → Copied P packet)
    (h : f.handle now event = some (f', acts)) : Holds P f' ∧ ∀ x ∈ sentOn acts, P x.2 := by
  cases hgrants : grants event with
  | false => exact (handle_enqueues hP hf hevent hgrants h).holds (hf.prepared event)
  | true =>
    obtain ⟨link, htried, hsent⟩ := handle_grant hgrants h
    refine ⟨hf.tried htried, fun x hx => ?_⟩
    obtain ⟨-, priority, q, hq, hpacket⟩ := hsent x hx
    exact hpacket ▸ hf.queues link priority q hq

end Forwarder
end Forward
end MeshBus
