import MeshBus.Forward.LinkState

/-!
# Forward.Flow

The account of a link: what is sent and the credit left add up to the credit granted, there is at
most one send for a permit, and a link that keeps its permit has nothing it could send
(`flow_control_exact`).
-/

namespace MeshBus
namespace Forward

open Wire
open Control (RouteTable)

/-! ## Credit and permits -/

/-- The credit an operation grants. -/
def LinkOp.granted : LinkOp → Nat
  | .credit bytes => bytes
  | _ => 0

/-- The permits an operation grants. -/
def LinkOp.permits : LinkOp → Nat
  | .writable => 1
  | _ => 0

namespace LinkQueues

theorem store_credit {state : LinkQueues} {op : LinkOp}
    (h : state.availableCreditBytes + op.granted ≤ u64Max) :
    (state.store op).1.availableCreditBytes = state.availableCreditBytes + op.granted := by
  cases op with
  | enqueue queued => exact (state.store_enqueue_permit queued).1
  | credit bytes => exact satAdd_eq h
  | writable => rfl

theorem store_permits (state : LinkQueues) (op : LinkOp) :
    (state.store op).1.writable.toNat ≤ state.writable.toNat + op.permits := by
  cases op with
  | enqueue queued =>
    rw [(state.store_enqueue_permit queued).2.1]
    exact Nat.le_add_right _ _
  | credit bytes => exact Nat.le_add_right _ _
  | writable => exact Nat.le_add_left _ _

/-- What is sent is charged to the credit. -/
theorem apply_credit {state state' : LinkQueues} {op : LinkOp} {log : List LinkAct}
    (h : state.apply op = some (state', log))
    (hmax : state.availableCreditBytes + op.granted ≤ u64Max) :
    queueLen (sends log) + state'.availableCreditBytes =
      state.availableCreditBytes + op.granted := by
  cases apply_applied h with
  | refused href =>
    cases op with
    | enqueue queued => exact Nat.zero_add _
    | credit bytes => cases href
    | writable => cases href
  | tried sent href tries =>
    have hstore := store_credit hmax
    rw [sends_append, sends_store, List.nil_append, sends_map_send]
    cases tries.took with
    | nothing queues bytes credit writable why =>
      rw [credit, hstore]
      exact Nat.zero_add _
    | head priority queued rest permit strict front fits queues bytes credit writable =>
      simp only [Option.toList_some, queueLen_cons, queueLen_nil]
      omega

/-- What is sent uses up a permit. -/
theorem apply_permits {state state' : LinkQueues} {op : LinkOp} {log : List LinkAct}
    (h : state.apply op = some (state', log)) :
    (sends log).length + state'.writable.toNat ≤ state.writable.toNat + op.permits := by
  cases apply_applied h with
  | refused href =>
    rw [sends_nil, List.length_nil, Nat.zero_add]
    exact Nat.le_add_right _ _
  | tried sent href tries =>
    have hstore := state.store_permits op
    rw [sends_append, sends_store, List.nil_append, sends_map_send]
    cases tries.took with
    | nothing queues bytes credit writable why =>
      rw [writable]
      simpa using hstore
    | head priority queued rest permit strict front fits queues bytes credit writable =>
      rw [permit, Bool.toNat_true] at hstore
      rw [writable]
      simpa using hstore

/-- A link that keeps its permit has nothing to send. -/
def Idle (state : LinkQueues) : Prop := state.writable = true → state.Blocked

theorem Idle.apply {state state' : LinkQueues} {op : LinkOp} {log : List LinkAct}
    (hidle : state.Idle) (h : state.apply op = some (state', log)) : state'.Idle := by
  cases apply_applied h with
  | refused href => exact hidle
  | tried sent href tries =>
    cases tries.took with
    | nothing queues bytes credit writable why =>
      rw [Idle, Blocked, writable, queues, credit]
      exact why
    | head priority queued rest permit strict front fits queues bytes credit writable =>
      intro hw
      rw [writable] at hw
      cases hw

/-- The account of a run of the machine. -/
theorem run_flow : ∀ {ops : List LinkOp} {state state' : LinkQueues} {log : List LinkAct},
    emitAll LinkQueues.apply state ops = some (state', log) →
    (state.availableCreditBytes + (ops.map LinkOp.granted).sum ≤ u64Max →
      queueLen (sends log) + state'.availableCreditBytes =
        state.availableCreditBytes + (ops.map LinkOp.granted).sum) ∧
    (sends log).length + state'.writable.toNat ≤
      state.writable.toNat + (ops.map LinkOp.permits).sum := by
  intro ops
  induction ops with
  | nil =>
    intro state state' log h
    cases h
    simp
  | cons op ops ih =>
    intro state state' log h
    obtain ⟨state1, out, rest, h1, h2, rfl⟩ := emitAll_cons_inv h
    obtain ⟨hcredit, hpermits⟩ := ih h2
    have hone := apply_permits h1
    rw [sends_append]
    simp only [List.map_cons, List.sum_cons, queueLen_append, List.length_append]
    refine ⟨fun hmax => ?_, by omega⟩
    have hfirst := apply_credit h1 (by omega)
    have hrest := hcredit (by omega)
    omega

end LinkQueues

namespace Forwarder

/-! ## Events -/

/-- The credit an event grants link `l`. -/
def creditFor (l : LinkId) : ForwardEvent → Nat
  | .linkCredit link bytes => if link = l then bytes else 0
  | _ => 0

/-- The permits an event grants link `l`. -/
def permitsFor (l : LinkId) : ForwardEvent → Nat
  | .linkWritable link => if link = l then 1 else 0
  | _ => 0

/-- Link `l` has a state after the event. -/
def LeavesState (l : LinkId) (f : Forwarder) (e : MonoTime × ForwardEvent) : Prop :=
  ((f.handle e.1 e.2).all fun r => r.1.links.contains l) = true

instance (l : LinkId) (f : Forwarder) (e : MonoTime × ForwardEvent) :
    Decidable (LeavesState l f e) := inferInstanceAs (Decidable (_ = _))

theorem LeavesState.mem {l : LinkId} {f f' : Forwarder} {e : MonoTime × ForwardEvent}
    {acts : List ForwardAction} (hl : LeavesState l f e)
    (h : f.handle e.1 e.2 = some (f', acts)) : l ∈ f'.links := by
  rw [LeavesState, h] at hl
  exact Std.ExtTreeMap.mem_iff_contains.mpr hl

/-- A link that has a state after an event has not failed, before it or in it. -/
theorem up_of_mem {now : MonoTime} {f f' : Forwarder} {event : ForwardEvent}
    {acts : List ForwardAction} {l : LinkId} (hf' : f'.UpLinks) (hl : l ∈ f'.links)
    (h : f.handle now event = some (f', acts)) :
    event ≠ .linkDown l ∧ (grants event = true → l ∉ f.downLinks) := by
  have hup := hf' l hl
  refine ⟨?_, fun hgrants => ?_⟩
  · rintro rfl
    rw [(handleLinkDown_spec h).downLinks] at hup
    exact hup (Finset.mem_insert_self _ _)
  · obtain ⟨link, htried, -⟩ := handle_grant hgrants h
    rwa [htried.keeps.downLinks] at hup

/-- Credits and permits for a link that is up reach it. -/
theorem ops_granted {f : Forwarder} {now : MonoTime} {l : LinkId} {event : ForwardEvent}
    (hup : grants event = true → l ∉ f.downLinks) :
    ((f.ops now l event).map LinkOp.granted).sum = creditFor l event ∧
      ((f.ops now l event).map LinkOp.permits).sum = permitsFor l event := by
  have hcalls : ∀ calls : List (LinkId × QueuedPacket),
      ((callsOn l calls).map LinkOp.granted).sum = 0 ∧
        ((callsOn l calls).map LinkOp.permits).sum = 0 := by
    intro calls
    simp [callsOn, Function.comp_def, LinkOp.granted, LinkOp.permits]
  cases event with
  | linkCredit link _ | linkWritable link =>
    have hlive := hup rfl
    simp only [ops, creditFor, permitsFor]
    by_cases hl : link = l
    · rw [if_pos ⟨hl, hlive⟩, if_pos hl]
      exact ⟨rfl, rfl⟩
    · rw [if_neg fun hboth => hl hboth.1, if_neg hl]
      exact ⟨rfl, rfl⟩
  | outbound _ | outboundMulticast _ _ | inbound _ _ | routesUpdated _ | linkDown _ | timer _ =>
    exact hcalls _

/-- The same over a run in which the link keeps its state. -/
theorem opsAlong_granted {l : LinkId} : ∀ {events : List (MonoTime × ForwardEvent)}
    {f f' : Forwarder} {acts : List ForwardAction}, f.UpLinks →
    Along (fun f e => f.handle e.1 e.2) (LeavesState l) f events →
    f.run events = some (f', acts) →
    (∀ e ∈ events, e.2 ≠ .linkDown l) ∧
    ((f.opsAlong l events).map LinkOp.granted).sum =
      (events.map fun e => creditFor l e.2).sum ∧
    ((f.opsAlong l events).map LinkOp.permits).sum =
      (events.map fun e => permitsFor l e.2).sum := by
  intro events
  induction events with
  | nil =>
    intro f f' acts _ _ _
    exact ⟨by simp, rfl, rfl⟩
  | cons e events ih =>
    intro f f' acts hf halong h
    obtain ⟨f1, out, rest, h1, h2, -⟩ := emitAll_cons_inv h
    have hf1 := hf.handle h1
    obtain ⟨hdown, hup⟩ := up_of_mem hf1 (halong.1.mem h1) h1
    have hone : ((f.ops e.1 l e.2).map LinkOp.granted).sum = creditFor l e.2 ∧
        ((f.ops e.1 l e.2).map LinkOp.permits).sum = permitsFor l e.2 := ops_granted hup
    obtain ⟨hdowns, hgranteds, hpermitss⟩ := ih hf1 (halong.2 f1 out h1) h2
    simp only [opsAlong, h1, List.map_append, List.sum_append, List.map_cons, List.sum_cons,
      hone.1, hone.2, hgranteds, hpermitss]
    refine ⟨?_, trivial, trivial⟩
    intro x hx
    rcases List.mem_cons.mp hx with rfl | hx
    · exact hdown
    · exact hdowns x hx

theorem run_idle {me : NodeId} {routes : RouteTable} {events : List (MonoTime × ForwardEvent)}
    {f : Forwarder} {acts : List ForwardAction} (h : (new me routes).run events = some (f, acts))
    (l : LinkId) : (f.linkState l).Idle := by
  have hdefault : (default : LinkQueues).Idle := fun hw => by cases hw
  refine emitAll_inv (P := fun f : Forwarder => (f.linkState l).Idle)
    (fun s e s' out hs hstep => ?_) ?_ h
  · exact handle_link_inv (R := fun _ => True) hdefault
      (fun _ _ _ _ hq _ happly => hq.apply happly) (fun _ _ => trivial) hs hstep
  · simpa [linkState, new] using hdefault

/-- From the event that creates the state of link `l` on, as long as the link keeps its state: the
bytes sent and the credit left are the credit granted, unless that saturates; no more packets are
sent than permits came; and with the permit unused, the P0 head exceeds the credit, or no P0 packet
waits and every head exceeds it. -/
theorem flow_control_exact {me : NodeId} {routes : RouteTable}
    {before since : List (MonoTime × ForwardEvent)} {f0 f : Forwarder}
    {acts0 acts : List ForwardAction} {l : LinkId}
    (h0 : (new me routes).run before = some (f0, acts0)) (hnone : f0.links[l]? = none)
    (h : f0.run since = some (f, acts))
    (hlive : Along (fun f e => f.handle e.1 e.2) (LeavesState l) f0 since) :
    ((since.map fun e => creditFor l e.2).sum ≤ u64Max →
      ((sentTo l acts).map ForwardPacket.encodedLen).sum +
        (f.linkState l).availableCreditBytes = (since.map fun e => creditFor l e.2).sum) ∧
    (sentTo l acts).length ≤ (since.map fun e => permitsFor l e.2).sum ∧
    ((f.linkState l).writable = true →
      (∃ queued rest, (f.linkState l).queues .p0 = queued :: rest ∧
        (f.linkState l).availableCreditBytes < queued.packet.encodedLen) ∨
      ((f.linkState l).queues .p0 = [] ∧ ∀ priority queued rest,
        (f.linkState l).queues priority = queued :: rest →
          (f.linkState l).availableCreditBytes < queued.packet.encodedLen)) := by
  obtain ⟨hdown, hgranted, hpermits⟩ := opsAlong_granted (run_upLinks h0) hlive h
  obtain ⟨log, hrun, hsent⟩ := run_link hdown h
  have hstart : f0.linkState l = default := by rw [linkState, hnone]; rfl
  obtain ⟨hcredit, hcount⟩ := LinkQueues.run_flow hrun
  rw [hstart, hgranted] at hcredit
  rw [hstart, hpermits] at hcount
  have hzero : (default : LinkQueues).availableCreditBytes = 0 := rfl
  have hunset : (default : LinkQueues).writable.toNat = 0 := rfl
  rw [hzero, Nat.zero_add] at hcredit
  rw [hunset, Nat.zero_add] at hcount
  refine ⟨?_, ?_, ?_⟩
  · rw [hsent, List.map_map]
    exact hcredit
  · rw [hsent, List.length_map]
    omega
  · have hboth : (new me routes).run (before ++ since) = some (f, acts0 ++ acts) :=
      emitAll_append_some h0 h
    exact run_idle hboth l

/-- Link 7 gets credit for one packet of two and both permits. -/
theorem flow_control_exact_short : ∃ f acts,
    (new (.ofByte 1) sampleRoutes).run
      [(0, .outbound (samplePacket .unicast .p2 .empty (.ofByte 2))),
        (1, .outbound (samplePacket .unicast .p2 .empty (.ofByte 3))),
        (2, .linkCredit 7 100), (3, .linkWritable 7), (4, .linkWritable 7)] = some (f, acts) ∧
    (f.linkState 7).writable = true ∧ (sentTo 7 acts).length = 1 ∧
    ((sentTo 7 acts).map ForwardPacket.encodedLen).sum +
      (f.linkState 7).availableCreditBytes = 100 := by
  have h : (((new (.ofByte 1) sampleRoutes).run
      [(0, .outbound (samplePacket .unicast .p2 .empty (.ofByte 2))),
        (1, .outbound (samplePacket .unicast .p2 .empty (.ofByte 3))),
        (2, .linkCredit 7 100), (3, .linkWritable 7), (4, .linkWritable 7)]).map fun r =>
      decide ((r.1.linkState 7).writable = true ∧ (sentTo 7 r.2).length = 1)) = some true := by
    decide +kernel
  obtain ⟨⟨f, acts⟩, hrun, hall⟩ := Option.map_eq_some_iff.mp h
  obtain ⟨hwritable, hlen⟩ := of_decide_eq_true hall
  have hstart : (new (.ofByte 1) sampleRoutes).run [] =
      some (new (.ofByte 1) sampleRoutes, []) := rfl
  have hflow := flow_control_exact (l := 7) hstart (by simp [new]) hrun (by decide +kernel)
  exact ⟨f, acts, hrun, hwritable, hlen, hflow.1 (by decide)⟩

end Forwarder
end Forward
end MeshBus
