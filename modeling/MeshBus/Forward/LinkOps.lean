import MeshBus.Forward.Parking
import MeshBus.Forward.LinkMachine

/-!
# Forward.LinkOps

What a forwarder does to one of its links, as a run of the machine of that link.

* `ops f now l event`: the operations an event asks of link `l`. They are known before the event is
  handled: routing reads no queue.
* `handle_link`: what an event does to link `l` is a run of the machine over these operations.
* `run_link`: the same for a run in which the link does not fail.
-/

namespace MeshBus
namespace Forward

open Wire
open Control (RouteTable)

namespace Forwarder

variable {f f' : Forwarder} {now : MonoTime} {l : LinkId} {acts : List ForwardAction}

/-! ## The operations of an event -/

/-- The `enqueue` calls for a packet that arrives. -/
def arrivalCalls (f : Forwarder) (incoming : Option LinkId) (packet : ForwardPacket) :
    List (LinkId × QueuedPacket) :=
  if packet.header.ttl = 0 then []
  else
    match accepted packet with
    | none => []
    | some ds => (branches (f.fate incoming) packet ds (packet.header.ttl - 1)).map fun b =>
        (b.1, ⟨incoming, b.2⟩)

/-- The `enqueue` calls for a packet taken out of a queue. -/
def rerouteCalls (f : Forwarder) (queued : QueuedPacket) : List (LinkId × QueuedPacket) :=
  match accepted queued.packet with
  | none => []
  | some ds =>
    (branches (f.rerouteFate queued.incoming) queued.packet ds queued.packet.header.ttl).map
      fun b => (b.1, ⟨queued.incoming, b.2⟩)

/-- The parked packets that a route update tries again, batch by batch. -/
def retried (f : Forwarder) (now : MonoTime) : List QueuedPacket :=
  (f.pendingP0.toList.filter fun e => now < e.2.expiresAt).flatMap fun e => e.2.packets

/-- The `enqueue` calls of an event, in order. -/
def calls (f : Forwarder) (now : MonoTime) : ForwardEvent → List (LinkId × QueuedPacket)
  | .linkDown link =>
    (f.queue link .p2).flatMap (f.prepared (.linkDown link)).rerouteCalls
  | .routesUpdated routes =>
    (f.retried now).flatMap (f.prepared (.routesUpdated routes)).rerouteCalls
  | event =>
    match processed event with
    | none => []
    | some (incoming, packet) => f.arrivalCalls incoming packet

/-- The calls for one link. -/
def callsOn (l : LinkId) (calls : List (LinkId × QueuedPacket)) : List LinkOp :=
  (calls.filter fun c => c.1 = l).map fun c => .enqueue c.2

/-- The operations an event asks of link `l`. A failed link is asked nothing. -/
def ops (f : Forwarder) (now : MonoTime) (l : LinkId) : ForwardEvent → List LinkOp
  | .linkCredit link bytes => if link = l ∧ l ∉ f.downLinks then [.credit bytes] else []
  | .linkWritable link => if link = l ∧ l ∉ f.downLinks then [.writable] else []
  | event => callsOn l (f.calls now event)

theorem mem_ops {f : Forwarder} {event : ForwardEvent} {op : LinkOp} (h : op ∈ f.ops now l event) :
    (∃ c ∈ f.calls now event, op = .enqueue c.2) ∨
    (∃ bytes, event = .linkCredit l bytes ∧ op = .credit bytes) ∨
    (event = .linkWritable l ∧ op = .writable) := by
  have hcalls : op ∈ callsOn l (f.calls now event) →
      ∃ c ∈ f.calls now event, op = .enqueue c.2 := by
    intro hop
    obtain ⟨c, hc, rfl⟩ := List.mem_map.mp hop
    exact ⟨c, (List.mem_filter.mp hc).1, rfl⟩
  cases event with
  | linkCredit link bytes =>
    rw [ops] at h
    split at h
    · rename_i hlink
      exact .inr (.inl ⟨bytes, by rw [hlink.1], List.mem_singleton.mp h⟩)
    · cases h
  | linkWritable link =>
    rw [ops] at h
    split at h
    · rename_i hlink
      exact .inr (.inr ⟨by rw [hlink.1], List.mem_singleton.mp h⟩)
    · cases h
  | outbound _ | outboundMulticast _ _ | inbound _ _ | routesUpdated _ | linkDown _ | timer _ =>
    exact .inl (hcalls h)

/-- What a list of actions sends on link `l`. -/
def sentTo (l : LinkId) (acts : List ForwardAction) : List ForwardPacket :=
  ((sentOn acts).filter fun x => x.1 = l).map Prod.snd

@[simp] theorem sentTo_append (l : LinkId) (a b : List ForwardAction) :
    sentTo l (a ++ b) = sentTo l a ++ sentTo l b := by
  simp [sentTo]

theorem sentTo_eq_nil (h : sentOn acts = []) : sentTo l acts = [] := by
  rw [sentTo, h]
  rfl

@[simp] theorem callsOn_nil (l : LinkId) : callsOn l [] = [] := rfl

@[simp] theorem callsOn_append (l : LinkId) (a b : List (LinkId × QueuedPacket)) :
    callsOn l (a ++ b) = callsOn l a ++ callsOn l b := by
  simp [callsOn]

/-- What happens to link `l` from `f` to `f'` is a run of its machine over `ops`. -/
def LinkRun (l : LinkId) (f : Forwarder) (ops : List LinkOp) (f' : Forwarder)
    (acts : List ForwardAction) : Prop :=
  ∃ log, emitAll LinkQueues.apply (f.linkState l) ops = some (f'.linkState l, log) ∧
    sentTo l acts = (sends log).map QueuedPacket.packet

namespace LinkRun

variable {f1 f2 : Forwarder} {ops ops' : List LinkOp} {a b : List ForwardAction}

/-- The link is left alone. -/
theorem same (hlink : f1.linkState l = f.linkState l) (hsent : sentTo l a = []) :
    LinkRun l f [] f1 a :=
  ⟨[], by rw [hlink]; rfl, by rw [hsent]; rfl⟩

theorem trans (h1 : LinkRun l f ops f1 a) (h2 : LinkRun l f1 ops' f2 b) :
    LinkRun l f (ops ++ ops') f2 (a ++ b) := by
  obtain ⟨log1, hrun1, hsent1⟩ := h1
  obtain ⟨log2, hrun2, hsent2⟩ := h2
  refine ⟨log1 ++ log2, emitAll_append_some hrun1 hrun2, ?_⟩
  rw [sentTo_append, hsent1, hsent2, sends_append, List.map_append]

/-- What is not seen on the link may differ. -/
theorem congr {g g' : Forwarder} (h : LinkRun l f ops f1 a) (hg : g.linkState l = f.linkState l)
    (hg' : g'.linkState l = f1.linkState l) (hsent : sentTo l acts = sentTo l a) :
    LinkRun l g ops g' acts := by
  obtain ⟨log, hrun, hlog⟩ := h
  exact ⟨log, by rw [hg, hg', hrun], hsent.trans hlog⟩

end LinkRun

theorem linkState_eq {f : Forwarder} {state : LinkQueues} (h : f.links[l]? = some state) :
    f.linkState l = state := by
  rw [linkState, h]
  rfl

theorem linkState_insert (f : Forwarder) (link l : LinkId) (state : LinkQueues) :
    linkState { f with links := f.links.insert link state } l =
      if link = l then state else f.linkState l := by
  simp only [linkState, OrdMap.get_insert]
  split <;> rfl

/-- A new state of the link, then `try_send_one`. -/
theorem linkRun_of_try {f g f' : Forwarder} {link : LinkId} {op : LinkOp}
    (hrefuses : (f.linkState link).refuses op = false)
    (hlinks : g.links = f.links.insert link ((f.linkState link).store op).1)
    (h : g.trySendOne link = some (f', acts)) (l : LinkId) :
    LinkRun l f (if link = l then [op] else []) f' acts := by
  have hstate : g.links[link]? = some ((f.linkState link).store op).1 := by
    rw [hlinks, OrdMap.get_insert, if_pos rfl]
  obtain ⟨state', sent, htry, rfl, hsent⟩ := trySendOne_link _ hstate h
  have hothers : ∀ l', linkState { g with links := g.links.insert link state' } l' =
      if link = l' then state' else f.linkState l' := by
    intro l'
    rw [linkState_insert]
    split
    · rfl
    · rename_i hne
      rw [linkState, hlinks, OrdMap.get_insert, if_neg hne, linkState]
  by_cases hl : link = l
  · subst hl
    rw [if_pos rfl]
    refine ⟨((f.linkState link).store op).2 ++ (sent.map LinkAct.send).toList, ?_, ?_⟩
    · have happly : (f.linkState link).apply op =
          some (state', ((f.linkState link).store op).2 ++ (sent.map LinkAct.send).toList) := by
        rw [LinkQueues.apply, hrefuses, htry]
        rfl
      rw [hothers, if_pos rfl, emitAll_cons_some happly rfl, List.append_nil]
    · rw [sentTo, hsent, sends_append, LinkQueues.sends_store, sends_map_send]
      cases sent <;> simp
  · rw [if_neg hl]
    refine .same (by rw [hothers, if_neg hl]) ?_
    rw [sentTo, hsent]
    cases sent <;> simp [hl]

/-! ## One call -/

theorem enqueue_link {link : LinkId} {packet : ForwardPacket} {incoming : Option LinkId}
    (hup : link ∉ f.downLinks) (h : f.enqueue link packet incoming = some (f', acts)) (l : LinkId) :
    LinkRun l f (callsOn l [(link, ⟨incoming, packet⟩)]) f' acts := by
  have hops : callsOn l [(link, ⟨incoming, packet⟩)] =
      if link = l then [LinkOp.enqueue ⟨incoming, packet⟩] else [] := by
    by_cases hl : link = l <;> simp [callsOn, hl]
  rw [hops]
  simp only [enqueue, if_neg hup] at h
  cases hconf : (f.linkState link).conflate ⟨incoming, packet⟩ with
  | some r =>
    obtain ⟨state', old⟩ := r
    simp only [hconf] at h
    refine linkRun_of_try ?_ ?_ h l
    · simp [LinkQueues.refuses, hconf]
    · simp only [LinkQueues.store, hconf]
  | none =>
    simp only [hconf] at h
    split at h
    · rename_i hfull
      cases h
      have hsent : sentTo l (if packet.header.priority = .p0 then [.backpressure link packet]
          else [.drop (.queueFull packet.header.priority) packet]) = [] := by
        split <;> rfl
      have hrefuses : (f.linkState link).refuses (.enqueue ⟨incoming, packet⟩) = true := by
        simp [LinkQueues.refuses, hconf, hfull]
      have hlink : linkState { f with links := f.links.insert link (f.linkState link) } l =
          f.linkState l := by
        rw [linkState_insert]
        split
        · rename_i heq
          rw [heq]
        · rfl
      by_cases hl : link = l
      · subst hl
        rw [if_pos rfl]
        refine ⟨[], ?_, hsent⟩
        have happly : (f.linkState link).apply (.enqueue ⟨incoming, packet⟩) =
            some (f.linkState link, []) := by
          rw [LinkQueues.apply, hrefuses]
          rfl
        rw [hlink, emitAll_cons_some happly rfl]
        rfl
      · rw [if_neg hl]
        exact .same hlink hsent
    · rename_i hroom
      refine linkRun_of_try ?_ ?_ h l
      · simp [LinkQueues.refuses, hconf]
        omega
      · simp only [LinkQueues.store, hconf]

theorem enqueueAll_link {incoming : Option LinkId} :
    ∀ {bs : List (LinkId × ForwardPacket)} {f f' : Forwarder} {acts : List ForwardAction},
    (∀ b ∈ bs, b.1 ∉ f.downLinks) → f.enqueueAll incoming bs = some (f', acts) →
    LinkRun l f (callsOn l (bs.map fun b => (b.1, ⟨incoming, b.2⟩))) f' acts := by
  intro bs
  induction bs with
  | nil =>
    intro f f' acts _ h
    cases h
    exact .same rfl rfl
  | cons b bs ih =>
    intro f f' acts hup h
    obtain ⟨f1, out, rest, h1, h2, rfl⟩ := emitAll_cons_inv h
    have hkeeps := (enqueue_spec h1).keeps
    have hrest := ih (fun c hc => hkeeps.downLinks ▸ hup c (List.mem_cons_of_mem _ hc)) h2
    have hall := (enqueue_link (hup b List.mem_cons_self) h1 l).trans hrest
    rwa [← callsOn_append] at hall

theorem branches_up {f : Forwarder} {fates : NodeId → Fate} {packet : ForwardPacket}
    {ds : List NodeId} {ttl : UInt8} (hfates : ∀ d link, fates d = .via link → f.Offers link) :
    ∀ b ∈ branches fates packet ds ttl, b.1 ∉ f.downLinks := by
  rintro ⟨link, copy⟩ hb
  obtain ⟨d, hd⟩ := List.exists_mem_of_ne_nil _ (mem_branches.mp hb).1
  exact (hfates d link (Split.mem_group.mp hd).2).1

/-! ## One packet -/

theorem processPacket_link {incoming : Option LinkId} {packet : ForwardPacket}
    (h : f.processPacket incoming packet = some (f', acts)) (l : LinkId) :
    LinkRun l f (callsOn l (f.arrivalCalls incoming packet)) f' acts := by
  rcases processPacket_cases h with
    ⟨reason, -, hrefused, rfl, rfl⟩ | ⟨ds, out, httl, hds, hout, rfl⟩
  · have hnone : f'.arrivalCalls incoming packet = [] := by
      rw [arrivalCalls]
      split
      · rfl
      · rename_i httl
        rw [hrefused.resolve_left httl]
    rw [hnone]
    exact .same rfl rfl
  · have hrun := enqueueAll_link (l := l) (branches_up fun _ _ => fate_offers) hout
    have hcalls : f.arrivalCalls incoming packet = (branches (f.fate incoming) packet ds
        (packet.header.ttl - 1)).map fun b => (b.1, ⟨incoming, b.2⟩) := by
      rw [arrivalCalls, if_neg httl, hds]
    rw [hcalls]
    refine hrun.congr rfl rfl ?_
    simp only [sentTo, sentOn_append, sentOn_localActs, sentOn_dropActs, List.nil_append]

theorem rerouteCalls_some {f : Forwarder} {queued : QueuedPacket} {ds : List NodeId}
    (h : accepted queued.packet = some ds) :
    f.rerouteCalls queued = (branches (f.rerouteFate queued.incoming) queued.packet ds
      queued.packet.header.ttl).map fun b => (b.1, ⟨queued.incoming, b.2⟩) := by
  rw [rerouteCalls, h]

theorem rerouteCalls_congr (hme : f'.me = f.me) (hroutes : f'.routes = f.routes)
    (hdown : f'.downLinks = f.downLinks) : f'.rerouteCalls = f.rerouteCalls := by
  funext queued
  simp only [rerouteCalls, rerouteFate_congr hme hroutes hdown]

theorem Keeps.rerouteCalls (h : Keeps f f') :
    f'.rerouteCalls = f.rerouteCalls := rerouteCalls_congr h.me h.routes h.downLinks

theorem rerouteQueued_link {queued : QueuedPacket} {left : List QueuedPacket}
    (h : f.rerouteQueued queued = some (f', acts, left)) (l : LinkId) :
    LinkRun l f (callsOn l (f.rerouteCalls queued)) f' acts := by
  rcases rerouteQueued_cases h with ⟨reason, -, hds, rfl, rfl, -⟩ | ⟨ds, out, hds, hout, rfl, -⟩
  · rw [rerouteCalls, hds]
    exact .same rfl rfl
  · rw [rerouteCalls_some hds]
    refine (enqueueAll_link (branches_up fun _ _ => rerouteFate_offers) hout).congr rfl rfl ?_
    simp only [sentTo, sentOn_append, sentOn_localActs, List.nil_append]

/-! ## Many packets -/

theorem rerouteBatch_link : ∀ {packets : List QueuedPacket} {f f' : Forwarder}
    {acts : List ForwardAction} {left : List QueuedPacket},
    f.rerouteBatch packets = some (f', acts, left) →
    LinkRun l f (callsOn l (packets.flatMap f.rerouteCalls)) f' acts := by
  intro packets
  induction packets with
  | nil =>
    intro f f' acts left h
    cases h
    exact .same rfl rfl
  | cons queued packets ih =>
    intro f f' acts left h
    simp only [rerouteBatch, bind, Option.bind_eq_some_iff] at h
    obtain ⟨⟨f1, routed, unresolved⟩, h1, ⟨f2, rest, remaining⟩, h2, heq⟩ := h
    cases heq
    have hrest := ih h2
    rw [(rerouteQueued_spec h1).moves.keeps.rerouteCalls] at hrest
    rw [List.flatMap_cons, callsOn_append]
    exact (rerouteQueued_link h1 l).trans hrest

theorem rerouteOrDrop_link : ∀ {packets : List QueuedPacket} {f f' : Forwarder}
    {acts : List ForwardAction}, emitAll rerouteOrDrop f packets = some (f', acts) →
    LinkRun l f (callsOn l (packets.flatMap f.rerouteCalls)) f' acts := by
  intro packets
  induction packets with
  | nil =>
    intro f f' acts h
    cases h
    exact .same rfl rfl
  | cons queued packets ih =>
    intro f f' acts h
    obtain ⟨f1, out, rest, h1, h2, rfl⟩ := emitAll_cons_inv h
    simp only [rerouteOrDrop, bind, Option.bind_eq_some_iff] at h1
    obtain ⟨⟨f1', routed, unresolved⟩, hr, heq⟩ := h1
    cases heq
    have hrest := ih h2
    rw [(rerouteQueued_spec hr).moves.keeps.rerouteCalls] at hrest
    rw [List.flatMap_cons, callsOn_append]
    refine ((rerouteQueued_link hr l).congr rfl rfl ?_).trans hrest
    simp [sentTo]

theorem retryBatch_link {entry : Nat × PendingP0Batch}
    (h : f.retryBatch now entry = some (f', acts)) (l : LinkId) :
    LinkRun l f (callsOn l (if now < entry.2.expiresAt then
      entry.2.packets.flatMap f.rerouteCalls else [])) f' acts := by
  simp only [retryBatch] at h
  split at h
  · rename_i hlate
    cases h
    rw [if_neg (Nat.not_lt.mpr hlate)]
    exact .same rfl (sentTo_eq_nil (sentOn_dropQueuedPackets _ _))
  · rename_i hearly
    rw [if_pos (Nat.lt_of_not_le hearly)]
    simp only [bind, Option.bind_eq_some_iff] at h
    obtain ⟨⟨f1, routed, remaining⟩, hr, h⟩ := h
    have hrun := rerouteBatch_link (l := l) hr
    split at h
    · cases h
      exact hrun
    · cases h
      exact hrun.congr rfl rfl rfl

theorem retryAll_link : ∀ {entries : List (Nat × PendingP0Batch)}
    {f f' : Forwarder} {acts : List ForwardAction},
    emitAll (retryBatch now) f entries = some (f', acts) →
    LinkRun l f (callsOn l (((entries.filter fun e => now < e.2.expiresAt).flatMap fun e =>
      e.2.packets).flatMap f.rerouteCalls)) f' acts := by
  intro entries
  induction entries with
  | nil =>
    intro f f' acts h
    cases h
    exact .same rfl rfl
  | cons e entries ih =>
    intro f f' acts h
    obtain ⟨f1, out, rest, h1, h2, rfl⟩ := emitAll_cons_inv h
    have hone := retryBatch_retried h1
    have hrest := ih h2
    rw [rerouteCalls_congr hone.me hone.routes hone.downLinks] at hrest
    have hall := (retryBatch_link h1 l).trans hrest
    rw [← callsOn_append] at hall
    rw [List.filter_cons]
    split at hall
    · rename_i hlive
      rw [if_pos (by simpa using hlive), List.flatMap_cons, List.flatMap_append]
      exact hall
    · rename_i hlate
      rw [if_neg (by simpa using hlate)]
      exact hall

/-! ## Events -/

theorem handleLinkDown_link {link : LinkId} (h : f.handleLinkDown now link = some (f', acts))
    (l : LinkId) :
    LinkRun l (f.prepared (.linkDown link)) (callsOn l (f.calls now (.linkDown link))) f' acts := by
  simp only [handleLinkDown] at h
  split at h
  · rename_i hnone
    cases h
    have hempty : f.queue link .p2 = [] := by
      rw [queue, linkState, hnone]
      rfl
    rw [calls, hempty]
    refine .same ?_ rfl
    simp only [prepared, OrdMap.erase_eq_self hnone]
  · rename_i state hstate
    simp only [bind, Option.bind_eq_some_iff] at h
    obtain ⟨⟨f1, parked⟩, hpark, ⟨f2, rerouted⟩, hreroute, heq⟩ := h
    cases heq
    have hqueue : f.queue link .p2 = state.queues .p2 := by rw [queue, linkState_eq hstate]
    have hrun := rerouteOrDrop_link (l := l) hreroute
    -- parking changes neither the links nor the routes
    have hparked : f1.links = f.links.erase link ∧
        f1.rerouteCalls = (f.prepared (.linkDown link)).rerouteCalls ∧ sentOn parked = [] := by
      rcases parkP0_spec hpark with ⟨-, rfl, rfl⟩ | ⟨g, timer, -, rfl, rfl⟩
      · exact ⟨rfl, rfl, rfl⟩
      · exact ⟨rfl, rerouteCalls_congr rfl rfl rfl, rfl⟩
    rw [hparked.2.1] at hrun
    rw [calls, hqueue]
    refine hrun.congr ?_ rfl ?_
    · simp only [linkState, prepared, hparked.1]
    · simp [sentTo, hparked.2.2]

/-- A credit or a write permit is one operation of its link, unless the link has failed. -/
theorem grant_link {link : LinkId} (op : LinkOp) (hrefuses : (f.linkState link).refuses op = false)
    (h : (if link ∈ f.downLinks then some (f, [])
      else trySendOne { f with links := f.links.insert link ((f.linkState link).store op).1 }
        link) = some (f', acts)) (l : LinkId) :
    LinkRun l f (if link = l ∧ l ∉ f.downLinks then [op] else []) f' acts := by
  by_cases hdown : link ∈ f.downLinks
  · rw [if_pos hdown] at h
    cases h
    have hnot : ¬ (link = l ∧ l ∉ f.downLinks) := by
      rintro ⟨rfl, hup⟩
      exact hup hdown
    rw [if_neg hnot]
    exact .same rfl rfl
  · rw [if_neg hdown] at h
    have hrun := linkRun_of_try hrefuses rfl h l
    by_cases hl : link = l
    · rw [if_pos hl] at hrun
      rw [if_pos ⟨hl, hl ▸ hdown⟩]
      exact hrun
    · rw [if_neg hl] at hrun
      rw [if_neg fun hboth => hl hboth.1]
      exact hrun

/-- What an event does to link `l`: a failed link starts anew, then come the operations. -/
theorem handle_link {event : ForwardEvent} (h : f.handle now event = some (f', acts)) (l : LinkId) :
    LinkRun l (f.prepared event) (f.ops now l event) f' acts := by
  have hpacket : ∀ {incoming packet}, arrival event = some (incoming, packet) →
      LinkRun l f (callsOn l (match processed event with
        | none => []
        | some (incoming, packet) => f.arrivalCalls incoming packet)) f' acts := by
    intro incoming packet harr
    cases hp : processed event with
    | none =>
      obtain ⟨rfl, reason, rfl⟩ := handle_rejected harr hp h
      exact .same rfl rfl
    | some p => exact processPacket_link (handle_processed hp h) l
  cases event with
  | outbound packet => exact hpacket rfl
  | outboundMulticast destinations packet => exact hpacket rfl
  | inbound link packet => exact hpacket rfl
  | linkDown link => exact handleLinkDown_link h l
  | routesUpdated routes =>
    simp only [handle, handleRoutesUpdated, retryPendingP0] at h
    have hrun := retryAll_link (l := l) h
    exact hrun.congr rfl rfl rfl
  | linkCredit link bytes => exact grant_link (.credit bytes) rfl h l
  | linkWritable link => exact grant_link .writable rfl h l
  | timer timer =>
    obtain ⟨generation⟩ := timer
    simp only [handle, Option.some.injEq] at h
    rcases f.handleTimer_cases now generation with ⟨out, heq, hsent, -⟩ | ⟨batch, -, -, heq⟩
    · rw [heq] at h
      cases h
      exact .same rfl (sentTo_eq_nil (sentOn_eq_nil hsent))
    · rw [heq] at h
      cases h
      exact .same rfl (sentTo_eq_nil (sentOn_dropQueuedPackets _ _))

/-! ## Runs -/

/-- A link that does not fail is the same before and after the preparation of an event. -/
theorem prepared_linkState {f : Forwarder} {event : ForwardEvent} (h : event ≠ .linkDown l) :
    (f.prepared event).linkState l = f.linkState l := by
  cases event with
  | linkDown link =>
    have hne : link ≠ l := fun heq => h (heq ▸ rfl)
    simp only [prepared, linkState, OrdMap.get_erase, if_neg hne]
  | routesUpdated _ | outbound _ | outboundMulticast _ _ | inbound _ _ | linkCredit _ _
  | linkWritable _ | timer _ => rfl

/-- The operations a run asks of link `l`. -/
def opsAlong (l : LinkId) (f : Forwarder) : List (MonoTime × ForwardEvent) → List LinkOp
  | [] => []
  | e :: events => f.ops e.1 l e.2 ++
      match f.handle e.1 e.2 with
      | none => []
      | some r => opsAlong l r.1 events

/-- What a run does to a link that does not fail in it. -/
theorem run_link : ∀ {events : List (MonoTime × ForwardEvent)} {f f' : Forwarder}
    {acts : List ForwardAction}, (∀ e ∈ events, e.2 ≠ .linkDown l) →
    f.run events = some (f', acts) → LinkRun l f (f.opsAlong l events) f' acts := by
  intro events
  induction events with
  | nil =>
    intro f f' acts _ h
    cases h
    exact .same rfl rfl
  | cons e events ih =>
    intro f f' acts hup h
    obtain ⟨f1, out, rest, h1, h2, rfl⟩ := emitAll_cons_inv h
    have hone := (handle_link h1 l).congr
      (prepared_linkState (hup e List.mem_cons_self)).symm rfl rfl
    have hrest := ih (fun x hx => hup x (List.mem_cons_of_mem _ hx)) h2
    simp only [opsAlong, h1]
    exact hone.trans hrest

end Forwarder
end Forward
end MeshBus
