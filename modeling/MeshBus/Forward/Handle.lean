import MeshBus.Forward.Passing

/-!
# Forward.Handle

What one event does to a forwarder: it is balanced, packets enter the queue of their own class
only, only the node's own copies are delivered, and parked packets shrink to what has no link.
-/

namespace MeshBus
namespace Forward

open Wire
open Control (RouteTable)

namespace Forwarder

variable {f f' : Forwarder} {now : MonoTime} {event : ForwardEvent} {acts : List ForwardAction}
  {link : LinkId} {incoming : Option LinkId} {packet : ForwardPacket}

/-! ## Parking -/

theorem freeGeneration_spec {pending : OrdMap Nat PendingP0Batch} : ∀ {fuel generation g : Nat},
    freeGeneration pending fuel generation = some g → g ∉ pending := by
  intro fuel
  induction fuel with
  | zero =>
    intro generation g h
    cases h
  | succ fuel ih =>
    intro generation g h
    simp only [freeGeneration] at h
    split at h
    · exact ih h
    · rename_i hfree
      cases h
      rwa [Bool.not_eq_true, OrdMap.contains_eq_false] at hfree

theorem parkP0_spec {p0 : List QueuedPacket} (h : f.parkP0 now p0 = some (f', acts)) :
    (p0 = [] ∧ f' = f ∧ acts = []) ∨
    ∃ g timer, g ∉ f.pendingP0 ∧ acts = [.setTimer timer (satAdd now p0RouteWaitMs)] ∧
      f' = { f with
        nextPendingGeneration := (g + 1) % 2 ^ 64
        pendingP0 := f.pendingP0.insert g ⟨satAdd now p0RouteWaitMs, p0⟩ } := by
  simp only [parkP0] at h
  split at h
  · rename_i hempty
    cases h
    exact .inl ⟨List.isEmpty_iff.mp hempty, rfl, rfl⟩
  · simp only [bind, Option.bind_eq_some_iff] at h
    obtain ⟨g, hg, heq⟩ := h
    cases heq
    exact .inr ⟨g, _, freeGeneration_spec hg, rfl, rfl⟩

theorem parkP0_balanced {p0 : List QueuedPacket} (h : f.parkP0 now p0 = some (f', acts)) :
    Balanced f (queueLives p0) f' acts := by
  rcases parkP0_spec h with ⟨rfl, rfl, rfl⟩ | ⟨g, timer, hg, rfl, rfl⟩
  · exact .refl f'
  · refine .keep ?_ rfl rfl rfl rfl
    have hnone : f.pendingP0[g]? = none := Std.ExtTreeMap.getElem?_eq_none hg
    simp only [heldLives]
    rw [OrdMap.total_insert_new _ hnone]
    abel

/-! ## Link failure -/

/-- What a `LinkDown` leaves: the queues of the link are empty, its P0 packets may be parked. -/
structure LinkFailed (f : Forwarder) (now : MonoTime) (link : LinkId) (f' : Forwarder)
    (acts : List ForwardAction) : Prop where
  me : f'.me = f.me
  routes : f'.routes = f.routes
  downLinks : f'.downLinks = insert link f.downLinks
  pending : f'.pendingP0 = f.pendingP0 ∨ ∃ g, g ∉ f.pendingP0 ∧
    f'.pendingP0 = f.pendingP0.insert g ⟨satAdd now p0RouteWaitMs, f.queue link .p0⟩
  classed : ∀ l priority q, q ∈ f'.queue l priority → q ∈ f.queue l priority ∨
    q.packet.header.priority = priority
  own : ∀ p ∈ delivered acts, p.header.destination = f.me
  balanced : Balanced f 0 f' acts
  conflated : (∀ q ∈ f.queue link .p2, ConflationKey.fromPacket q.packet = none) →
    f'.conflated = f.conflated

theorem heldLives_erase (f : Forwarder) {state : LinkQueues} (h : f.links[link]? = some state)
    (down : Finset LinkId) :
    heldLives f = heldLives { f with downLinks := down, links := f.links.erase link } +
      state.lives := by
  simp only [heldLives]
  rw [OrdMap.total_split _ h]
  abel

theorem queue_erase (f : Forwarder) (link : LinkId) (down : Finset LinkId) {l : LinkId}
    {priority : Priority} {q : QueuedPacket}
    (h : q ∈ queue { f with downLinks := down, links := f.links.erase link } l priority) :
    q ∈ f.queue l priority := by
  simp only [queue, linkState, OrdMap.get_erase] at h
  split at h
  · cases h
  · exact h

theorem handleLinkDown_spec (h : f.handleLinkDown now link = some (f', acts)) :
    LinkFailed f now link f' acts := by
  simp only [handleLinkDown] at h
  split at h
  · cases h
    exact ⟨rfl, rfl, rfl, .inl rfl, fun _ _ _ hq => .inl hq, by simp, .of_same rfl rfl,
      fun _ => rfl⟩
  · rename_i state hstate
    simp only [bind, Option.bind_eq_some_iff] at h
    obtain ⟨⟨f1, parked⟩, hpark, ⟨f2, rerouted⟩, hreroute, heq⟩ := h
    cases heq
    have hqueues : f.queue link = state.queues := by
      funext priority
      rw [queue, linkState, hstate]
      rfl
    have hr := rerouteOrDrop_all hreroute
    obtain ⟨x, hx, hrb⟩ := hr.balanced
    -- The state before the reroutes differs from `f` in the failed link and in what is parked.
    obtain ⟨hme, hroutes, hdown, hlinks, hconf, hdel, hpending⟩ :
        f1.me = f.me ∧ f1.routes = f.routes ∧ f1.downLinks = insert link f.downLinks ∧
        f1.links = f.links.erase link ∧ f1.conflated = f.conflated ∧ delivered parked = [] ∧
        (f1.pendingP0 = f.pendingP0 ∨ ∃ g, g ∉ f.pendingP0 ∧
          f1.pendingP0 = f.pendingP0.insert g
            ⟨satAdd now p0RouteWaitMs, f.queue link .p0⟩) := by
      rw [hqueues]
      rcases parkP0_spec hpark with ⟨-, rfl, rfl⟩ | ⟨g, timer, hg, rfl, rfl⟩
      · exact ⟨rfl, rfl, rfl, rfl, rfl, rfl, .inl rfl⟩
      · exact ⟨rfl, rfl, rfl, rfl, rfl, rfl, .inr ⟨g, hg, rfl⟩⟩
    refine ⟨hr.moves.keeps.me.trans hme, hr.moves.keeps.routes.trans hroutes,
      hr.moves.keeps.downLinks.trans hdown, ?_, ?_, ?_, ?_, ?_⟩
    · rw [hr.moves.keeps.pendingP0]
      exact hpending
    · intro l priority q hq
      refine (hr.moves.classed l priority q hq).imp_left fun hq => ?_
      refine queue_erase f link (insert link f.downLinks) ?_
      simpa only [queue, linkState, hlinks] using hq
    · intro p hp
      simp only [delivered_append, delivered_dropQueuedPackets, hdel, List.nil_append,
        List.append_nil] at hp
      rw [hr.moves.own p hp, hme]
    · have hall := (((parkP0_balanced hpark).seq
        (dropQueuedPackets_balanced f1 .linkDown (state.queues .p1))).seq hrb).seq
        (dropQueuedPackets_balanced f2 .linkDown (state.queues .p3))
      rw [queueLives_nil, add_zero] at hx
      rw [hx] at hall
      exact hall.release (heldLives_erase f hstate (insert link f.downLinks)) rfl
    · intro hkey
      rw [hqueues] at hkey
      rw [hr.conflated hkey, hconf]

/-! ## New routes -/

/-- `batch` is what a retry left of `old`: packets for recipients that still have no link. -/
def Shrunk (f : Forwarder) (old batch : PendingP0Batch) : Prop :=
  batch.expiresAt = old.expiresAt ∧ ∀ q ∈ batch.packets, ∃ p ∈ old.packets,
    q.incoming = p.incoming ∧ q.packet.header.priority = p.packet.header.priority ∧
    ∀ r ∈ recipients q.packet, r ∈ recipients p.packet ∧ f.rerouteLink r q.incoming = none

/-- The retry of some batches, all taken out of `pending_p0` before. -/
structure Retried (f : Forwarder) (entries : List (Nat × PendingP0Batch)) (f' : Forwarder)
    (acts : List ForwardAction) : Prop where
  me : f'.me = f.me
  routes : f'.routes = f.routes
  downLinks : f'.downLinks = f.downLinks
  pending : ∀ (g : Nat) batch, f'.pendingP0[g]? = some batch → f.pendingP0[g]? = some batch ∨
    ∃ old, (g, old) ∈ entries ∧ Shrunk f old batch
  classed : ∀ l priority q, q ∈ f'.queue l priority → q ∈ f.queue l priority ∨
    q.packet.header.priority = priority
  own : ∀ p ∈ delivered acts, p.header.destination = f.me
  balanced : Balanced f (entries.map fun e => queueLives e.2.packets).sum f' acts
  conflated : (∀ e ∈ entries, ∀ q ∈ e.2.packets, ConflationKey.fromPacket q.packet = none) →
    f'.conflated = f.conflated

theorem Retried.rerouteLink {entries : List (Nat × PendingP0Batch)} (h : Retried f entries f' acts)
    (d : NodeId) (incoming : Option LinkId) :
    f'.rerouteLink d incoming = f.rerouteLink d incoming := by
  simp only [Forwarder.rerouteLink, h.routes, h.downLinks]

theorem retryBatch_spec {entry : Nat × PendingP0Batch} (hnew : entry.1 ∉ f.pendingP0)
    (h : retryBatch now f entry = some (f', acts)) :
    Retried f [entry] f' acts ∧ ∀ g, g ∈ f'.pendingP0 → g ∈ f.pendingP0 ∨ g = entry.1 := by
  simp only [retryBatch] at h
  split at h
  · cases h
    refine ⟨⟨rfl, rfl, rfl, fun g batch hg => .inl hg, fun _ _ _ hq => .inl hq, ?_, ?_,
      fun _ => rfl⟩, fun g hg => .inl hg⟩
    · simp [delivered_dropQueuedPackets]
    · rw [List.map_singleton, List.sum_singleton]
      exact dropQueuedPackets_balanced f _ _
  · simp only [bind, Option.bind_eq_some_iff] at h
    obtain ⟨⟨f1, actions, remaining⟩, hbatch, h⟩ := h
    have hr := rerouteBatch_spec hbatch
    obtain ⟨x, hx, hb⟩ := hr.balanced
    have hkeeps := hr.moves.keeps
    split at h
    · rename_i hempty
      cases h
      have hnil : remaining = [] := List.isEmpty_iff.mp hempty
      rw [hnil, queueLives_nil, add_zero] at hx
      refine ⟨⟨hkeeps.me, hkeeps.routes, hkeeps.downLinks, fun g batch hg => .inl ?_,
        hr.moves.classed, hr.moves.own, ?_, fun hkey => ?_⟩, fun g hg => .inl ?_⟩
      · rwa [hkeeps.pendingP0] at hg
      · rw [List.map_singleton, List.sum_singleton, ← hx]
        exact hb
      · exact hr.conflated (hkey entry List.mem_cons_self)
      · rwa [hkeeps.pendingP0] at hg
    · cases h
      have hnone : f1.pendingP0[entry.1]? = none := by
        rw [hkeeps.pendingP0]
        exact Std.ExtTreeMap.getElem?_eq_none hnew
      refine ⟨⟨hkeeps.me, hkeeps.routes, hkeeps.downLinks, fun g batch hg => ?_,
        hr.moves.classed, hr.moves.own, ?_, fun hkey => ?_⟩, fun g hg => ?_⟩
      · rw [OrdMap.get_insert] at hg
        split at hg
        · rename_i heq
          cases hg
          subst heq
          exact .inr ⟨entry.2, List.mem_cons_self, rfl, hr.left⟩
        · rw [hkeeps.pendingP0] at hg
          exact .inl hg
      · have hkeep : Balanced f1 (queueLives remaining) { f1 with
            pendingP0 := f1.pendingP0.insert entry.1 ⟨entry.2.expiresAt, remaining⟩ } [] := by
          refine .keep ?_ rfl rfl rfl rfl
          simp only [heldLives]
          rw [OrdMap.total_insert_new _ hnone]
          abel
        have hall := hb.seq hkeep
        rw [hx, List.append_nil] at hall
        rw [List.map_singleton, List.sum_singleton]
        exact hall
      · exact hr.conflated (hkey entry List.mem_cons_self)
      · rw [OrdMap.mem_insert, hkeeps.pendingP0] at hg
        exact hg.symm.imp_right Eq.symm

theorem retryAll_spec : ∀ {entries : List (Nat × PendingP0Batch)}
    {f f' : Forwarder} {acts : List ForwardAction}, (entries.map Prod.fst).Nodup →
    (∀ e ∈ entries, e.1 ∉ f.pendingP0) →
    emitAll (retryBatch now) f entries = some (f', acts) → Retried f entries f' acts := by
  intro entries
  induction entries with
  | nil =>
    intro f f' acts _ _ h
    cases h
    exact ⟨rfl, rfl, rfl, fun _ _ hg => .inl hg, fun _ _ _ hq => .inl hq, by simp, .refl f,
      fun _ => rfl⟩
  | cons e entries ih =>
    intro f f' acts hnodup hnew h
    obtain ⟨f1, out, rest, h1, h2, rfl⟩ := emitAll_cons_inv h
    rw [List.map_cons, List.nodup_cons] at hnodup
    obtain ⟨hr1, honly⟩ := retryBatch_spec (hnew e List.mem_cons_self) h1
    have hr2 := ih hnodup.2 (fun e' he' hmem => by
      rcases honly e'.1 hmem with hold | heq
      · exact hnew e' (List.mem_cons_of_mem _ he') hold
      · exact hnodup.1 (heq ▸ List.mem_map_of_mem he')) h2
    refine ⟨hr2.me.trans hr1.me, hr2.routes.trans hr1.routes, hr2.downLinks.trans hr1.downLinks,
      ?_, ?_, ?_, ?_, ?_⟩
    · intro g batch hg
      rcases hr2.pending g batch hg with hg | ⟨old, hold, hexp, hleft⟩
      · rcases hr1.pending g batch hg with hg | ⟨old, hold, hshrunk⟩
        · exact .inl hg
        · rw [List.mem_singleton] at hold
          exact .inr ⟨old, by simp [← hold], hshrunk⟩
      · refine .inr ⟨old, List.mem_cons_of_mem _ hold, hexp, ?_⟩
        simpa only [hr1.rerouteLink] using hleft
    · intro l priority q hq
      rcases hr2.classed l priority q hq with hq | hq
      · exact hr1.classed l priority q hq
      · exact .inr hq
    · intro p hp
      rw [delivered_append, List.mem_append] at hp
      rcases hp with hp | hp
      · exact hr1.own p hp
      · rw [hr2.own p hp, hr1.me]
    · have hb1 := hr1.balanced
      rw [List.map_singleton, List.sum_singleton] at hb1
      rw [List.map_cons, List.sum_cons]
      exact hb1.seq hr2.balanced
    · intro hkey
      rw [hr2.conflated fun e' he' => hkey e' (List.mem_cons_of_mem _ he'),
        hr1.conflated fun e' he' => hkey e' (by simp [List.mem_singleton.mp he'])]

theorem handleRoutesUpdated_spec {routes : RouteTable}
    (h : f.handleRoutesUpdated now routes = some (f', acts)) :
    ∃ f1, Retried f1 f.pendingP0.toList f' acts ∧ f1.me = f.me ∧ f1.links = f.links ∧
      f1.pendingP0 = ∅ ∧ f1.conflated = f.conflated ∧ Balanced f 0 f' acts := by
  simp only [handleRoutesUpdated, retryPendingP0] at h
  have hkeys := OrdMap.nodup_fst_toList f.pendingP0
  have hr := retryAll_spec hkeys (fun e _ => Std.ExtTreeMap.not_mem_empty) h
  refine ⟨_, hr, rfl, rfl, rfl, rfl, ?_⟩
  refine hr.balanced.release ?_ rfl
  simp only [heldLives, OrdMap.total_empty, add_zero]
  rfl

/-! ## Credit, permits and timers -/

theorem setLink_tried {state : LinkQueues}
    (h : trySendOne { f with links := f.links.insert link state } link = some (f', acts))
    (hqueues : state.queues = (f.linkState link).queues) : Tried f link f' acts := by
  have ht := trySendOne_tried h
  have hsame : Balanced f 0 { f with links := f.links.insert link state } [] := by
    refine .of_same ?_ rfl
    have hheld := heldLives_insert f link state
    rw [LinkQueues.lives_congr hqueues] at hheld
    exact add_right_cancel hheld
  refine ⟨⟨ht.keeps.me, ht.keeps.routes, ht.keeps.downLinks, ht.keeps.pendingP0,
    ht.keeps.nextPendingGeneration⟩, ht.conflated, ?_, ?_, ?_, ht.onlySends⟩
  · intro l hl priority
    rw [ht.others l hl, queue_setLink hqueues]
  · intro priority q hq
    rw [← queue_setLink hqueues]
    exact ht.sub priority q hq
  · have hall := hsame.seq ht.balanced
    rw [zero_add, List.nil_append] at hall
    exact hall

theorem Tried.refl (f : Forwarder) (link : LinkId) : Tried f link f [] :=
  ⟨.refl f, rfl, fun _ _ _ => rfl, fun _ _ hq => hq, .refl f, rfl, rfl⟩

/-- A credit or a write permit: nothing happens on a failed link, and the queues of any other may
send. -/
inductive Granted (f : Forwarder) (link : LinkId) : Forwarder → List ForwardAction → Prop
  | down (hdown : link ∈ f.downLinks) : Granted f link f []
  | up {f' : Forwarder} {acts : List ForwardAction} {state : LinkQueues}
      (hup : link ∉ f.downLinks)
      (htry : trySendOne { f with links := f.links.insert link state } link = some (f', acts))
      (hqueues : state.queues = (f.linkState link).queues) : Granted f link f' acts

theorem grantCredit_granted {bytes : Nat} (h : f.grantCredit link bytes = some (f', acts)) :
    Granted f link f' acts := by
  simp only [grantCredit] at h
  split at h
  · rename_i hdown
    cases h
    exact .down hdown
  · rename_i hup
    exact .up hup h rfl

theorem markWritable_granted (h : f.markWritable link = some (f', acts)) :
    Granted f link f' acts := by
  simp only [markWritable] at h
  split at h
  · rename_i hdown
    cases h
    exact .down hdown
  · rename_i hup
    exact .up hup h rfl

theorem Granted.tried (h : Granted f link f' acts) : Tried f link f' acts := by
  cases h with
  | down => exact .refl f link
  | up _ htry hqueues => exact setLink_tried htry hqueues

theorem Tried.moves (h : Tried f link f' acts) : Moves f f' acts := by
  refine ⟨h.keeps, ?_, by simp [h.onlySends.1]⟩
  intro l priority q hq
  by_cases hl : l = link
  · subst hl
    exact .inl (h.sub priority q hq)
  · rw [h.others l hl] at hq
    exact .inl hq

/-- A timer changes nothing but the batch it is for. -/
theorem handleTimer_cases (f : Forwarder) (now : MonoTime) (g : Nat) :
    (∃ acts, f.handleTimer now (.pendingP0 g) = (f, acts) ∧ sent acts = [] ∧ delivered acts = [] ∧
      refused acts = []) ∨
    ∃ batch, f.pendingP0[g]? = some batch ∧ batch.expiresAt ≤ now ∧
      f.handleTimer now (.pendingP0 g) = ({ f with pendingP0 := f.pendingP0.erase g },
        dropQueuedPackets batch.packets .routeWaitExpired) := by
  cases hbatch : f.pendingP0[g]? with
  | none => exact .inl ⟨[], by simp [handleTimer, hbatch], rfl, rfl, rfl⟩
  | some batch =>
    by_cases hnow : now < batch.expiresAt
    · exact .inl ⟨[.setTimer (.pendingP0 g) batch.expiresAt],
        by simp [handleTimer, hbatch, hnow], rfl, rfl, rfl⟩
    · exact .inr ⟨batch, rfl, Nat.le_of_not_lt hnow, by simp [handleTimer, hbatch, hnow]⟩

theorem handleTimer_balanced (f : Forwarder) (now : MonoTime) (timer : ForwardTimer) :
    Balanced f 0 (f.handleTimer now timer).1 (f.handleTimer now timer).2 := by
  obtain ⟨g⟩ := timer
  rcases f.handleTimer_cases now g with ⟨acts, heq, hs, hd, hr⟩ | ⟨batch, hbatch, -, heq⟩
  · rw [heq]
    exact .keep (add_zero _).symm rfl hs hd hr
  · rw [heq]
    refine (dropQueuedPackets_balanced _ _ batch.packets).release ?_ rfl
    simp only [heldLives]
    rw [OrdMap.total_split _ hbatch]
    abel

/-! ## Events -/

/-- The packet `process_outbound_multicast` makes of its argument. -/
def outboundPacket (destinations : List NodeId) (packet : ForwardPacket) : ForwardPacket :=
  let packet := { packet with
    header := { packet.header with packetType := .multicast, destination := default } }
  match MulticastPayload.new destinations packet.payload with
  | .error _ => packet
  | .ok multicast =>
    { packet with
      multicastDestinations := multicast.destinations
      payload := multicast.body }

/-- The packet an event brings, with the link it comes from. -/
def arrival : ForwardEvent → Option (Option LinkId × ForwardPacket)
  | .outbound packet => some (none, packet)
  | .outboundMulticast destinations packet => some (none, outboundPacket destinations packet)
  | .inbound link packet => some (some link, packet)
  | _ => none

/-- The packet an event has processed; a rejected destination list is dropped before. -/
def processed : ForwardEvent → Option (Option LinkId × ForwardPacket)
  | .outboundMulticast destinations packet =>
    match MulticastPayload.new destinations packet.payload with
    | .error _ => none
    | .ok _ => some (none, outboundPacket destinations packet)
  | event => arrival event

/-- The lives an event brings. -/
def input (event : ForwardEvent) : Multiset (Token × ℕ) :=
  ((arrival event).map fun a => arrivingOf a.2).getD 0

theorem processOutboundMulticast_cases (f : Forwarder) (destinations : List NodeId)
    (packet : ForwardPacket) :
    (∃ error, MulticastPayload.new destinations packet.payload = .error error ∧
      f.processOutboundMulticast destinations packet =
        some (f, [.drop (.invalidMulticast error) (outboundPacket destinations packet)])) ∨
    ∃ m, MulticastPayload.new destinations packet.payload = .ok m ∧
      f.processOutboundMulticast destinations packet =
        f.processPacket none (outboundPacket destinations packet) := by
  simp only [processOutboundMulticast, outboundPacket]
  cases hnew : MulticastPayload.new destinations packet.payload with
  | error error => exact .inl ⟨error, rfl, rfl⟩
  | ok m => exact .inr ⟨m, rfl, rfl⟩

/-- A packet that arrives is refused by the multicast check, or processed. -/
theorem handle_arrival (harr : arrival event = some (incoming, packet))
    (h : f.handle now event = some (f', acts)) :
    (∃ reason ≠ .routeWaitExpired, f' = f ∧ acts = [.drop reason packet]) ∨
      f.processPacket incoming packet = some (f', acts) := by
  cases event with
  | outbound p =>
    cases harr
    exact .inr h
  | inbound link p =>
    cases harr
    exact .inr h
  | outboundMulticast ds p =>
    cases harr
    rcases f.processOutboundMulticast_cases ds p with ⟨error, -, heq⟩ | ⟨m, -, heq⟩
    · rw [handle, heq] at h
      cases h
      exact .inl ⟨.invalidMulticast error, by simp, rfl, rfl⟩
    · rw [handle, heq] at h
      exact .inr h
  | routesUpdated _ | linkCredit _ _ | linkWritable _ | linkDown _ | timer _ => cases harr

theorem handle_processed (hp : processed event = some (incoming, packet))
    (h : f.handle now event = some (f', acts)) :
    f.processPacket incoming packet = some (f', acts) := by
  cases event with
  | outbound p =>
    cases hp
    exact h
  | inbound link p =>
    cases hp
    exact h
  | outboundMulticast ds p =>
    simp only [processed] at hp
    split at hp
    · cases hp
    · rename_i m hm
      cases hp
      rcases f.processOutboundMulticast_cases ds p with ⟨error, herr, -⟩ | ⟨m', -, heq⟩
      · rw [hm] at herr
        cases herr
      · rw [handle, heq] at h
        exact h
  | routesUpdated _ | linkCredit _ _ | linkWritable _ | linkDown _ | timer _ => cases hp

/-- A packet that is not processed is dropped at once. -/
theorem handle_rejected (harr : arrival event = some (incoming, packet))
    (hp : processed event = none) (h : f.handle now event = some (f', acts)) :
    f' = f ∧ ∃ reason, acts = [.drop reason packet] := by
  cases event with
  | outbound p => cases hp
  | inbound link p => cases hp
  | outboundMulticast ds p =>
    cases harr
    rcases f.processOutboundMulticast_cases ds p with ⟨error, -, heq⟩ | ⟨m, hm, -⟩
    · rw [handle, heq] at h
      cases h
      exact ⟨rfl, _, rfl⟩
    · simp [processed, hm] at hp
  | routesUpdated _ | linkCredit _ _ | linkWritable _ | linkDown _ | timer _ => cases harr

/-- Every queued packet is in the queue of its class, every parked packet is P0. -/
structure Classed (f : Forwarder) : Prop where
  queues : ∀ l priority q, q ∈ f.queue l priority → q.packet.header.priority = priority
  pending : ∀ (g : Nat) batch, f.pendingP0[g]? = some batch → ∀ q ∈ batch.packets,
    q.packet.header.priority = .p0

theorem key_none_of_priority (h : packet.header.priority ≠ .p1) :
    ConflationKey.fromPacket packet = none := by
  simp [ConflationKey.fromPacket, h]

/-- What every event does. -/
structure Handled (f : Forwarder) (event : ForwardEvent) (f' : Forwarder)
    (acts : List ForwardAction) : Prop where
  me : f'.me = f.me
  classed : Classed f → Classed f'
  own : ∀ p ∈ delivered acts, p.header.destination = f.me
  balanced : Balanced f (input event) f' acts
  conflated : Classed f →
    (∀ incoming packet, arrival event = some (incoming, packet) →
      ConflationKey.fromPacket packet = none) → f'.conflated = f.conflated

theorem Classed.of_moves (hf : Classed f) (h : Moves f f' acts) : Classed f' := by
  refine ⟨fun l priority q hq => ?_, ?_⟩
  · exact (h.classed l priority q hq).elim (hf.queues l priority q) id
  · rw [h.keeps.pendingP0]
    exact hf.pending

theorem Moves.handled (h : Moves f f' acts) (hb : Balanced f (input event) f' acts)
    (hc : (∀ incoming packet, arrival event = some (incoming, packet) →
      ConflationKey.fromPacket packet = none) → f'.conflated = f.conflated) :
    Handled f event f' acts :=
  ⟨h.keeps.me, fun hf => hf.of_moves h, h.own, hb, fun _ => hc⟩

theorem handled_arrival (harr : arrival event = some (incoming, packet))
    (h : f.handle now event = some (f', acts)) : Handled f event f' acts := by
  have hinput : input event = arrivingOf packet := by
    rw [input, harr]
    rfl
  rcases handle_arrival harr h with ⟨reason, -, rfl, rfl⟩ | h
  · refine (Moves.refl f' rfl).handled ?_ fun _ => rfl
    rw [hinput]
    exact .refuse rfl rfl rfl rfl
  · refine (processPacket_moves h).handled ?_ fun hkey => ?_
    · rw [hinput]
      exact processPacket_balanced h
    · exact processPacket_conflated h (hkey incoming packet harr)

theorem handled_tried (hinput : input event = 0) (h : Tried f link f' acts) :
    Handled f event f' acts := by
  refine h.moves.handled ?_ fun _ => h.conflated
  rw [hinput]
  exact h.balanced

theorem handled_linkDown (h : f.handleLinkDown now link = some (f', acts)) :
    Handled f (.linkDown link) f' acts := by
  have hf := handleLinkDown_spec h
  refine ⟨hf.me, fun hc => ⟨fun l priority q hq => ?_, ?_⟩, hf.own, hf.balanced, fun hc _ => ?_⟩
  · exact (hf.classed l priority q hq).elim (hc.queues l priority q) id
  · intro g batch hg
    rcases hf.pending with hsame | ⟨g', -, hins⟩
    · rw [hsame] at hg
      exact hc.pending g batch hg
    · rw [hins, OrdMap.get_insert] at hg
      split at hg
      · rw [← Option.some.inj hg]
        exact hc.queues link .p0
      · exact hc.pending g batch hg
  · refine hf.conflated fun q hq => key_none_of_priority ?_
    rw [hc.queues link .p2 q hq]
    simp

theorem handled_routesUpdated {routes : RouteTable}
    (h : f.handleRoutesUpdated now routes = some (f', acts)) :
    Handled f (.routesUpdated routes) f' acts := by
  obtain ⟨f1, hr, hme, hlinks, hempty, hconf, hb⟩ := handleRoutesUpdated_spec h
  have hqueue : ∀ l priority, f1.queue l priority = f.queue l priority := fun l priority => by
    simp only [queue, linkState, hlinks]
  refine ⟨hr.me.trans hme, fun hc => ⟨fun l priority q hq => ?_, ?_⟩, ?_, hb, fun hc _ => ?_⟩
  · rcases hr.classed l priority q hq with hq | hq
    · rw [hqueue] at hq
      exact hc.queues l priority q hq
    · exact hq
  · intro g batch hg q hq
    rcases hr.pending g batch hg with hg | ⟨old, hold, -, hleft⟩
    · rw [hempty] at hg
      simp at hg
    · obtain ⟨p, hp, -, hpr, -⟩ := hleft q hq
      rw [hpr]
      exact hc.pending g old (OrdMap.mem_toList.mp hold) p hp
  · intro p hp
    rw [hr.own p hp, hme]
  · rw [hr.conflated, hconf]
    intro e he q hq
    refine key_none_of_priority ?_
    rw [hc.pending e.1 e.2 (OrdMap.mem_toList.mp he) q hq]
    simp

theorem handled_timer (f : Forwarder) (now : MonoTime) (timer : ForwardTimer) :
    Handled f (.timer timer) (f.handleTimer now timer).1 (f.handleTimer now timer).2 := by
  have hb := f.handleTimer_balanced now timer
  obtain ⟨g⟩ := timer
  rcases f.handleTimer_cases now g with ⟨acts, heq, -, hd, -⟩ | ⟨batch, hbatch, -, heq⟩
  · rw [heq] at hb ⊢
    exact ⟨rfl, id, by simp [hd], hb, fun _ _ => rfl⟩
  · rw [heq] at hb ⊢
    refine ⟨rfl, fun hc => ⟨hc.queues, fun g' b hg => ?_⟩,
      by simp [delivered_dropQueuedPackets], hb, fun _ _ => rfl⟩
    rw [OrdMap.get_erase] at hg
    split at hg
    · cases hg
    · exact hc.pending g' b hg

theorem handle_handled (h : f.handle now event = some (f', acts)) : Handled f event f' acts := by
  cases event with
  | outbound p => exact handled_arrival rfl h
  | outboundMulticast ds p => exact handled_arrival rfl h
  | inbound link p => exact handled_arrival rfl h
  | routesUpdated routes => exact handled_routesUpdated h
  | linkCredit link bytes => exact handled_tried rfl (grantCredit_granted h).tried
  | linkWritable link => exact handled_tried rfl (markWritable_granted h).tried
  | linkDown link => exact handled_linkDown h
  | timer t =>
    have heq : f.handleTimer now t = (f', acts) := Option.some_inj.mp h
    have ht := f.handled_timer now t
    rw [heq] at ht
    exact ht

end Forwarder
end Forward
end MeshBus
