import MeshBus.Forward.Enqueues

/-!
# Forward.Parking

The parked batches of P0 packets, event by event. `ParkStep` lists all that can happen to them: a
failed link parks its queue under a free generation, a route update tries every batch again and
keeps what it leaves, and a timer gives a batch up or is set again (`handle_parkStep`).

`waits` are the actions that have to do with waiting: the timers that are set and the packets that
have waited too long. No other function of the forwarder emits one.
-/

namespace MeshBus
namespace Forward

open Wire
open Control (RouteTable)

variable {f f' : Forwarder} {now : MonoTime} {acts : List ForwardAction}

/-- A timer is set, or a parked packet is given up. -/
def ForwardAction.isWait : ForwardAction → Bool
  | .setTimer _ _ => true
  | .drop .routeWaitExpired _ => true
  | _ => false

def waits (acts : List ForwardAction) : List ForwardAction := acts.filter ForwardAction.isWait

section Waits

variable (a b : List ForwardAction)

@[simp] theorem waits_nil : waits [] = [] := rfl

@[simp] theorem waits_append : waits (a ++ b) = waits a ++ waits b := List.filter_append _ _

theorem waits_eq_nil (h : ∀ a ∈ acts, a.isWait = false) : waits acts = [] := by
  rw [waits, List.filter_eq_nil_iff]
  intro a ha
  rw [h a ha]
  exact Bool.false_ne_true

theorem not_isWait_of_waits (h : waits acts = []) : ∀ a ∈ acts, a.isWait = false := by
  intro a ha
  have hnot := List.filter_eq_nil_iff.mp h a ha
  exact Bool.eq_false_of_not_eq_true hnot

end Waits

namespace Forwarder

@[simp] theorem waits_dropQueuedPackets (packets : List QueuedPacket) {reason : DropReason}
    (h : reason ≠ .routeWaitExpired) : waits (dropQueuedPackets packets reason) = [] := by
  refine waits_eq_nil fun a ha => ?_
  obtain ⟨q, -, rfl⟩ := List.mem_map.mp ha
  cases reason with
  | routeWaitExpired => exact absurd rfl h
  | ttlExceeded | noRoute | loopDetected | linkDown | invalidMulticast | unsupportedPacketType
  | queueFull => rfl

@[simp] theorem waits_dropQueuedPackets_expired (packets : List QueuedPacket) :
    waits (dropQueuedPackets packets .routeWaitExpired) =
      dropQueuedPackets packets .routeWaitExpired := by
  rw [waits, List.filter_eq_self]
  intro a ha
  obtain ⟨q, -, rfl⟩ := List.mem_map.mp ha
  rfl

/-! ## Functions that wait for nothing -/

theorem waits_trySendOne {link : LinkId} (h : f.trySendOne link = some (f', acts)) :
    waits acts = [] := by
  simp only [trySendOne] at h
  split at h
  · cases h
    rfl
  · split at h
    · cases h
    · rename_i state' sent _
      cases h
      cases sent <;> rfl

theorem waits_enqueue {link : LinkId} {packet : ForwardPacket} {incoming : Option LinkId}
    (h : f.enqueue link packet incoming = some (f', acts)) : waits acts = [] := by
  simp only [enqueue] at h
  split at h
  · cases h
    rfl
  · split at h
    · exact waits_trySendOne h
    · split at h
      · cases h
        split <;> rfl
      · exact waits_trySendOne h

theorem waits_enqueueAll {incoming : Option LinkId} {bs : List (LinkId × ForwardPacket)}
    (h : f.enqueueAll incoming bs = some (f', acts)) : waits acts = [] :=
  waits_eq_nil (emitAll_out (P := fun _ => True) (R := fun _ => True)
    (fun _ _ _ _ _ _ hstep => ⟨trivial, not_isWait_of_waits (waits_enqueue hstep)⟩)
    (fun _ _ => trivial) trivial h).2

@[simp] theorem waits_localActs (f : Forwarder) (fates : NodeId → Fate) (packet : ForwardPacket)
    (ds : List NodeId) : waits (f.localActs fates packet ds) = [] := by
  rw [localActs]
  split <;> rfl

theorem waits_drop {reason : DropReason} (h : reason ≠ .routeWaitExpired) (packet : ForwardPacket) :
    waits [.drop reason packet] = [] :=
  waits_dropQueuedPackets [⟨none, packet⟩] h

theorem waits_dropActs {reason : DropReason} (h : reason ≠ .routeWaitExpired)
    (packet : ForwardPacket) (ds : List NodeId) : waits (dropActs reason packet ds) = [] := by
  rw [dropActs]
  split
  · rfl
  · exact waits_drop h _

theorem waits_processPacket {incoming : Option LinkId} {packet : ForwardPacket}
    (h : f.processPacket incoming packet = some (f', acts)) : waits acts = [] := by
  rcases processPacket_cases h with ⟨reason, hreason, -, -, rfl⟩ | ⟨ds, out, -, -, hout, rfl⟩
  · exact waits_drop hreason packet
  · rw [waits_append, waits_append, waits_append, waits_localActs, waits_dropActs (by simp),
      waits_dropActs (by simp), waits_enqueueAll hout]
    rfl

/-! ## Retries -/

/-- What stays of a parked packet that is tried again. -/
def leftOf (f : Forwarder) (queued : QueuedPacket) : List QueuedPacket :=
  match accepted queued.packet with
  | none => []
  | some ds => leftOver (f.rerouteFate queued.incoming) queued ds

/-- Where a packet is rerouted to depends on the routes and the failed links. -/
theorem rerouteFate_congr (hme : f'.me = f.me) (hroutes : f'.routes = f.routes)
    (hdown : f'.downLinks = f.downLinks) : f'.rerouteFate = f.rerouteFate := by
  funext incoming d
  simp only [rerouteFate, rerouteLink, hme, hroutes, hdown]

theorem leftOf_congr (hme : f'.me = f.me) (hroutes : f'.routes = f.routes)
    (hdown : f'.downLinks = f.downLinks) : f'.leftOf = f.leftOf := by
  funext queued
  simp only [leftOf, rerouteFate_congr hme hroutes hdown]

theorem rerouteQueued_left {queued : QueuedPacket} {left : List QueuedPacket}
    (h : f.rerouteQueued queued = some (f', acts, left)) :
    left = f.leftOf queued ∧ waits acts = [] := by
  rcases rerouteQueued_cases h with
    ⟨reason, hreason, hds, -, rfl, rfl⟩ | ⟨ds, out, hds, hout, rfl, rfl⟩
  · rw [leftOf, hds]
    exact ⟨rfl, waits_drop hreason _⟩
  · rw [leftOf, hds, waits_append, waits_localActs, waits_enqueueAll hout]
    exact ⟨rfl, rfl⟩

theorem rerouteBatch_left : ∀ {packets : List QueuedPacket} {f f' : Forwarder}
    {acts : List ForwardAction} {left : List QueuedPacket},
    f.rerouteBatch packets = some (f', acts, left) →
    left = packets.flatMap f.leftOf ∧ waits acts = [] := by
  intro packets
  induction packets with
  | nil =>
    intro f f' acts left h
    cases h
    exact ⟨rfl, rfl⟩
  | cons queued packets ih =>
    intro f f' acts left h
    simp only [rerouteBatch, bind, Option.bind_eq_some_iff] at h
    obtain ⟨⟨f1, routed, unresolved⟩, h1, ⟨f2, rest, remaining⟩, h2, heq⟩ := h
    cases heq
    have hkeeps := (rerouteQueued_spec h1).moves.keeps
    obtain ⟨hleft, hcalm⟩ := rerouteQueued_left h1
    obtain ⟨hleft', hcalm'⟩ := ih h2
    rw [leftOf_congr hkeeps.me hkeeps.routes hkeeps.downLinks] at hleft'
    rw [List.flatMap_cons, hleft, hleft', waits_append, hcalm, hcalm']
    exact ⟨rfl, rfl⟩

theorem waits_rerouteOrDrop {packets : List QueuedPacket}
    (h : emitAll rerouteOrDrop f packets = some (f', acts)) : waits acts = [] := by
  refine waits_eq_nil (emitAll_out (P := fun _ => True) (R := fun _ => True)
    (fun f queued f' out _ _ hstep => ⟨trivial, not_isWait_of_waits ?_⟩)
    (fun _ _ => trivial) trivial h).2
  simp only [rerouteOrDrop, bind, Option.bind_eq_some_iff] at hstep
  obtain ⟨⟨f1, routed, unresolved⟩, hr, heq⟩ := hstep
  cases heq
  rw [waits_append, (rerouteQueued_left hr).2, waits_dropQueuedPackets _ (by simp)]
  rfl

/-- What a route update leaves of a batch. -/
def survivor (f : Forwarder) (now : MonoTime) (batch : PendingP0Batch) : Option PendingP0Batch :=
  if batch.expiresAt ≤ now then none
  else if (batch.packets.flatMap f.leftOf).isEmpty then none
  else some ⟨batch.expiresAt, batch.packets.flatMap f.leftOf⟩

/-- What a route update gives up of a batch. -/
def overdue (now : MonoTime) (batch : PendingP0Batch) : List ForwardAction :=
  if batch.expiresAt ≤ now then dropQueuedPackets batch.packets .routeWaitExpired else []

theorem survivor_congr (hme : f'.me = f.me) (hroutes : f'.routes = f.routes)
    (hdown : f'.downLinks = f.downLinks) : f'.survivor = f.survivor := by
  funext now batch
  simp only [survivor, leftOf_congr hme hroutes hdown]

/-- What the retry of one batch leaves alone, parks and gives up. -/
structure RetriedBatch (f : Forwarder) (now : MonoTime) (entry : Nat × PendingP0Batch)
    (f' : Forwarder) (acts : List ForwardAction) : Prop where
  me : f'.me = f.me
  routes : f'.routes = f.routes
  downLinks : f'.downLinks = f.downLinks
  next : f'.nextPendingGeneration = f.nextPendingGeneration
  pending : f'.pendingP0 =
    ((f.survivor now entry.2).map (f.pendingP0.insert entry.1)).getD f.pendingP0
  waits : waits acts = overdue now entry.2

theorem retryBatch_retried {entry : Nat × PendingP0Batch}
    (h : f.retryBatch now entry = some (f', acts)) : RetriedBatch f now entry f' acts := by
  simp only [retryBatch] at h
  split at h
  · rename_i hlate
    cases h
    refine ⟨rfl, rfl, rfl, rfl, ?_, ?_⟩
    · rw [survivor, if_pos hlate]
      rfl
    · rw [overdue, if_pos hlate, waits_dropQueuedPackets_expired]
  · rename_i hearly
    simp only [bind, Option.bind_eq_some_iff] at h
    obtain ⟨⟨f1, routed, remaining⟩, hr, h⟩ := h
    have hkeeps := (rerouteBatch_spec hr).moves.keeps
    obtain ⟨hleft, hcalm⟩ := rerouteBatch_left hr
    subst hleft
    split at h
    · rename_i hempty
      cases h
      refine ⟨hkeeps.me, hkeeps.routes, hkeeps.downLinks, hkeeps.nextPendingGeneration, ?_, ?_⟩
      · rw [survivor, if_neg hearly, if_pos hempty, hkeeps.pendingP0]
        rfl
      · rw [overdue, if_neg hearly, hcalm]
    · rename_i hleft
      cases h
      refine ⟨hkeeps.me, hkeeps.routes, hkeeps.downLinks, hkeeps.nextPendingGeneration, ?_, ?_⟩
      · rw [survivor, if_neg hearly, if_neg hleft, hkeeps.pendingP0]
        rfl
      · rw [overdue, if_neg hearly, hcalm]

theorem RetriedBatch.get {entry : Nat × PendingP0Batch} (h : RetriedBatch f now entry f' acts)
    (hnew : entry.1 ∉ f.pendingP0) (g : Nat) (batch : PendingP0Batch) :
    f'.pendingP0[g]? = some batch ↔ f.pendingP0[g]? = some batch ∨
      (g = entry.1 ∧ f.survivor now entry.2 = some batch) := by
  have hnone : f.pendingP0[entry.1]? = none := Std.ExtTreeMap.getElem?_eq_none hnew
  rw [h.pending]
  cases hs : f.survivor now entry.2 with
  | none => simp
  | some left =>
    rw [Option.map_some, Option.getD_some, OrdMap.get_insert]
    by_cases hg : entry.1 = g
    · subst hg
      simp [hnone]
    · simp [hg, Ne.symm hg]

/-- The batches a route update leaves, all taken out of `pending_p0` before. -/
theorem retryAll_parks : ∀ {entries : List (Nat × PendingP0Batch)}
    {f f' : Forwarder} {acts : List ForwardAction}, (entries.map Prod.fst).Nodup →
    (∀ e ∈ entries, e.1 ∉ f.pendingP0) → emitAll (retryBatch now) f entries = some (f', acts) →
    (∀ (g : Nat) batch, f'.pendingP0[g]? = some batch ↔ f.pendingP0[g]? = some batch ∨
      ∃ old, (g, old) ∈ entries ∧ f.survivor now old = some batch) ∧
    f'.nextPendingGeneration = f.nextPendingGeneration ∧
    waits acts = entries.flatMap fun e => overdue now e.2 := by
  intro entries
  induction entries with
  | nil =>
    intro f f' acts _ _ h
    cases h
    exact ⟨by simp, rfl, rfl⟩
  | cons e entries ih =>
    intro f f' acts hnodup hnew h
    obtain ⟨f1, out, rest, h1, h2, rfl⟩ := emitAll_cons_inv h
    rw [List.map_cons, List.nodup_cons] at hnodup
    have hone := retryBatch_retried h1
    have hget := hone.get (hnew e List.mem_cons_self)
    obtain ⟨hpending, hnext, hwaits⟩ := ih hnodup.2 (fun e' he' hmem => by
      obtain ⟨batch, hbatch⟩ := OrdMap.mem_iff_get.mp hmem
      rcases (hget e'.1 batch).mp hbatch with hold | ⟨heq, -⟩
      · exact hnew e' (List.mem_cons_of_mem _ he') (OrdMap.mem_iff_get.mpr ⟨batch, hold⟩)
      · exact hnodup.1 (heq ▸ List.mem_map_of_mem he')) h2
    rw [survivor_congr hone.me hone.routes hone.downLinks] at hpending
    refine ⟨fun g batch => ?_, hnext.trans hone.next, ?_⟩
    · rw [hpending, hget, or_assoc]
      refine or_congr_right ⟨?_, ?_⟩
      · rintro (⟨rfl, hs⟩ | ⟨old, hold, hs⟩)
        · exact ⟨e.2, List.mem_cons_self, hs⟩
        · exact ⟨old, List.mem_cons_of_mem _ hold, hs⟩
      · rintro ⟨old, hold, hs⟩
        rcases List.mem_cons.mp hold with rfl | hold
        · exact .inl ⟨rfl, hs⟩
        · exact .inr ⟨old, hold, hs⟩
    · rw [waits_append, hone.waits, hwaits, List.flatMap_cons]

/-! ## Events -/

/-- All that can happen to the parked batches, with the actions on waiting. -/
inductive ParkStep (f : Forwarder) (now : MonoTime) :
    ForwardEvent → Forwarder → List ForwardAction → Prop
  | same {event : ForwardEvent} {f' : Forwarder} (pending : f'.pendingP0 = f.pendingP0)
      (next : f'.nextPendingGeneration = f.nextPendingGeneration)
      (stale : ∀ g, event = .timer (.pendingP0 g) → g ∉ f.pendingP0)
      (empty : ∀ link, event = .linkDown link → f.queue link .p0 = []) : ParkStep f now event f' []
  | parked {f' : Forwarder} (link : LinkId) (g : Nat) (waiting : f.queue link .p0 ≠ [])
      (free : freeGeneration f.pendingP0 (f.pendingP0.size + 1) f.nextPendingGeneration = some g)
      (pending : f'.pendingP0 =
        f.pendingP0.insert g ⟨satAdd now p0RouteWaitMs, f.queue link .p0⟩)
      (next : f'.nextPendingGeneration = (g + 1) % 2 ^ 64) :
      ParkStep f now (.linkDown link) f' [.setTimer (.pendingP0 g) (satAdd now p0RouteWaitMs)]
  | retried {f' : Forwarder} (routes : RouteTable)
      (pending : ∀ g : Nat, f'.pendingP0[g]? =
        f.pendingP0[g]?.bind ((f.prepared (.routesUpdated routes)).survivor now))
      (next : f'.nextPendingGeneration = f.nextPendingGeneration) :
      ParkStep f now (.routesUpdated routes) f'
        (f.pendingP0.toList.flatMap fun e => overdue now e.2)
  | early (g : Nat) (batch : PendingP0Batch) (found : f.pendingP0[g]? = some batch)
      (wait : now < batch.expiresAt) :
      ParkStep f now (.timer (.pendingP0 g)) f [.setTimer (.pendingP0 g) batch.expiresAt]
  | expired (g : Nat) (batch : PendingP0Batch) (found : f.pendingP0[g]? = some batch)
      (late : batch.expiresAt ≤ now) :
      ParkStep f now (.timer (.pendingP0 g)) { f with pendingP0 := f.pendingP0.erase g }
        (dropQueuedPackets batch.packets .routeWaitExpired)

theorem handleLinkDown_parkStep {link : LinkId} (h : f.handleLinkDown now link = some (f', acts)) :
    ParkStep f now (.linkDown link) f' (waits acts) := by
  have same : ∀ {f' : Forwarder}, f'.pendingP0 = f.pendingP0 →
      f'.nextPendingGeneration = f.nextPendingGeneration → f.queue link .p0 = [] →
      ParkStep f now (.linkDown link) f' [] := by
    intro f' hpending hnext hempty
    refine .same hpending hnext (by simp) fun l hl => ?_
    rw [← ForwardEvent.linkDown.inj hl]
    exact hempty
  simp only [handleLinkDown] at h
  split at h
  · rename_i hnone
    cases h
    refine same rfl rfl ?_
    rw [queue, linkState, hnone]
    rfl
  · rename_i state hstate
    simp only [bind, Option.bind_eq_some_iff] at h
    obtain ⟨⟨f1, parked⟩, hpark, ⟨f2, rerouted⟩, hreroute, heq⟩ := h
    cases heq
    have hqueue : f.queue link .p0 = state.queues .p0 := by
      rw [queue, linkState, hstate]
      rfl
    have hkeeps := (rerouteOrDrop_all hreroute).moves.keeps
    have hwaits : waits (parked ++ dropQueuedPackets (state.queues .p1) .linkDown ++ rerouted ++
        dropQueuedPackets (state.queues .p3) .linkDown) = waits parked := by
      rw [waits_append, waits_append, waits_append, waits_dropQueuedPackets _ (by simp),
        waits_dropQueuedPackets _ (by simp), waits_rerouteOrDrop hreroute]
      simp
    rw [hwaits]
    simp only [parkP0] at hpark
    split at hpark
    · rename_i hempty
      cases hpark
      refine same hkeeps.pendingP0 hkeeps.nextPendingGeneration ?_
      rw [hqueue]
      exact List.isEmpty_iff.mp hempty
    · rename_i hne
      simp only [bind, Option.bind_eq_some_iff] at hpark
      obtain ⟨g, hg, heq⟩ := hpark
      cases heq
      rw [← hqueue] at hne hkeeps
      exact .parked link g (by simpa using hne) hg hkeeps.pendingP0 hkeeps.nextPendingGeneration

theorem handleRoutesUpdated_parkStep {routes : RouteTable}
    (h : f.handleRoutesUpdated now routes = some (f', acts)) :
    ParkStep f now (.routesUpdated routes) f' (waits acts) := by
  simp only [handleRoutesUpdated, retryPendingP0] at h
  have hkeys := OrdMap.nodup_fst_toList f.pendingP0
  obtain ⟨hpending, hnext, hwaits⟩ :=
    retryAll_parks hkeys (fun e _ => Std.ExtTreeMap.not_mem_empty) h
  rw [hwaits]
  refine .retried routes (fun g => Option.ext fun batch => ?_) hnext
  rw [hpending, Option.bind_eq_some_iff]
  simp only [Std.ExtTreeMap.getElem?_empty, reduceCtorEq, false_or, OrdMap.mem_toList]
  rfl

theorem handle_parkStep {event : ForwardEvent} (h : f.handle now event = some (f', acts)) :
    ParkStep f now event f' (waits acts) := by
  have harrive : ∀ incoming packet, arrival event = some (incoming, packet) →
      ParkStep f now event f' (waits acts) := by
    intro incoming packet harr
    have hstale : ∀ g, event = .timer (.pendingP0 g) → g ∉ f.pendingP0 := by
      rintro g rfl
      cases harr
    have hempty : ∀ link, event = .linkDown link → f.queue link .p0 = [] := by
      rintro link rfl
      cases harr
    rcases handle_arrival harr h with ⟨reason, hreason, rfl, rfl⟩ | hproc
    · rw [waits_drop hreason]
      exact .same rfl rfl hstale hempty
    · have hkeeps := (processPacket_moves hproc).keeps
      rw [waits_processPacket hproc]
      exact .same hkeeps.pendingP0 hkeeps.nextPendingGeneration hstale hempty
  have hgrant : ∀ {event : ForwardEvent} {link : LinkId}, grants event = true →
      Granted f link f' acts → ParkStep f now event f' (waits acts) := by
    intro event link hgrants hgranted
    have hkeeps := hgranted.tried.keeps
    have hwaits : waits acts = [] := by
      cases hgranted with
      | down => rfl
      | up _ htry _ => exact waits_trySendOne htry
    rw [hwaits]
    refine .same hkeeps.pendingP0 hkeeps.nextPendingGeneration ?_ ?_
    · rintro g rfl
      cases hgrants
    · rintro l rfl
      cases hgrants
  cases event with
  | outbound p => exact harrive _ _ rfl
  | outboundMulticast ds p => exact harrive _ _ rfl
  | inbound link p => exact harrive _ _ rfl
  | linkDown link => exact handleLinkDown_parkStep h
  | routesUpdated routes => exact handleRoutesUpdated_parkStep h
  | linkCredit link bytes => exact hgrant rfl (grantCredit_granted h)
  | linkWritable link => exact hgrant rfl (markWritable_granted h)
  | timer t =>
    obtain ⟨g⟩ := t
    simp only [handle, handleTimer] at h
    split at h
    · rename_i hnone
      cases h
      refine .same rfl rfl (fun g' hg' => ?_) (by simp)
      cases hg'
      exact fun hmem => by simp [OrdMap.mem_iff_get, hnone] at hmem
    · rename_i batch hbatch
      split at h
      · rename_i hwait
        cases h
        exact .early g batch hbatch hwait
      · rename_i hlate
        cases h
        rw [waits_dropQueuedPackets_expired]
        exact .expired g batch hbatch (Nat.le_of_not_lt hlate)

end Forwarder
end Forward
end MeshBus
