import MeshBus.Forward.Conflation
import MeshBus.Forward.Failure
import MeshBus.Forward.LinkState
import MeshBus.Lib.Line

/-!
# Forward.Order

The order in which packets leave (`order_kept`). On every link no other packet is sent while a P0
packet waits; each class is a waiting line, in which a replacement takes the place of the packet it
replaces; and a route update hands the parked packets of a failed link to their new links in the
order in which they were queued.
-/

namespace MeshBus
namespace Forward

open Wire
open Control (RouteTable)

/-- What a link does with a packet, seen from the line of one class. -/
def LinkAct.move (priority : Priority) : LinkAct → Option (Line.Move QueuedPacket)
  | .append queued => if queued.packet.header.priority = priority then some (.join queued) else none
  | .replace place queued =>
    if queued.packet.header.priority = priority then some (.swap place queued) else none
  | .send queued => if queued.packet.header.priority = priority then some .serve else none

/-- The moves in the line of one class. -/
def moves (priority : Priority) (log : List LinkAct) : List (Line.Move QueuedPacket) :=
  log.filterMap (LinkAct.move priority)

@[simp] theorem moves_nil (priority : Priority) : moves priority [] = [] := rfl

@[simp] theorem moves_append (priority : Priority) (a b : List LinkAct) :
    moves priority (a ++ b) = moves priority a ++ moves priority b := List.filterMap_append

/-- The packets that join a queue. -/
def appends (log : List LinkAct) : List QueuedPacket :=
  log.filterMap fun
    | .append queued => some queued
    | _ => none

@[simp] theorem appends_append (a b : List LinkAct) :
    appends (a ++ b) = appends a ++ appends b := List.filterMap_append

/-- The packets of one class. -/
def ofClass (priority : Priority) (packets : List QueuedPacket) : List QueuedPacket :=
  packets.filter fun q => q.packet.header.priority = priority

@[simp] theorem ofClass_append (priority : Priority) (a b : List QueuedPacket) :
    ofClass priority (a ++ b) = ofClass priority a ++ ofClass priority b := List.filter_append _ _

namespace LinkQueues

/-! ## Strict priority -/

/-- A packet of another class is sent only if no P0 packet waits when `try_send_one` is called, and
none waits after it. -/
def StrictAt (state : LinkQueues) (op : LinkOp) : Prop :=
  ∀ state' log, state.apply op = some (state', log) →
    ∀ q ∈ sends log, q.packet.header.priority ≠ .p0 →
      (state.store op).1.queues .p0 = [] ∧ state'.queues .p0 = []

theorem ClassedQueues.strictAt {state : LinkQueues} (hclassed : state.ClassedQueues)
    (op : LinkOp) : state.StrictAt op := by
  intro state' log h q hq hclass
  cases apply_applied h with
  | refused href => simp at hq
  | tried sent href tries =>
    rw [sends_append, sends_store, List.nil_append, sends_map_send, Option.mem_toList] at hq
    cases tries.took with
    | nothing queues bytes credit writable why => cases hq
    | head priority queued rest permit strict front fits queues bytes credit writable =>
      cases hq
      have hpriority : q.packet.header.priority = priority :=
        hclassed.store op priority q (front ▸ List.mem_cons_self)
      have hne : priority ≠ .p0 := hpriority ▸ hclass
      refine ⟨strict.resolve_left hne, ?_⟩
      rw [queues, Function.update_of_ne (Ne.symm hne)]
      exact strict.resolve_left hne

theorem ClassedQueues.strict : ∀ (ops : List LinkOp) {state : LinkQueues}, state.ClassedQueues →
    Along LinkQueues.apply StrictAt state ops := by
  intro ops
  induction ops with
  | nil => exact fun _ => trivial
  | cons op ops ih =>
    intro state h
    exact ⟨h.strictAt op, fun state' log happly => ih (h.apply happly)⟩

/-! ## Lines -/

/-- Storing a packet moves the line of its class. -/
theorem store_line (state : LinkQueues) (op : LinkOp) (priority : Priority)
    {line : Line QueuedPacket} (hline : line.waiting = state.queues priority) :
    (line.run (moves priority (state.store op).2)).gone = line.gone ∧
      (line.run (moves priority (state.store op).2)).waiting =
        (state.store op).1.queues priority := by
  cases op with
  | credit bytes => exact ⟨rfl, hline⟩
  | writable => exact ⟨rfl, hline⟩
  | enqueue queued =>
    have hstores := state.store_stores queued
    generalize state.store (.enqueue queued) = r at hstores ⊢
    by_cases hp : queued.packet.header.priority = priority
    · subst hp
      cases hstores with
      | append victim =>
        have hmoves : moves queued.packet.header.priority [.append queued] = [.join queued] := by
          simp [moves, LinkAct.move]
        rw [hmoves]
        refine ⟨line.gone_join queued, ?_⟩
        simp only [pushBack, Function.update_self, ← hline]
        exact line.waiting_join queued
      | replace old key same found =>
        have hmoves : moves queued.packet.header.priority
            [.replace (state.victimPlace queued.packet) queued] =
              [.swap (state.victimPlace queued.packet) queued] := by
          simp [moves, LinkAct.move]
        rw [hmoves]
        refine ⟨line.gone_swap _ queued, ?_⟩
        simp only [Function.update_self, ← hline]
        exact line.waiting_swap _ queued
    · cases hstores with
      | append victim =>
        have hmoves : moves priority [.append queued] = [] := by simp [moves, LinkAct.move, hp]
        simp only [hmoves, pushBack, Function.update_of_ne (Ne.symm hp)]
        exact ⟨rfl, hline⟩
      | replace old key same found =>
        have hmoves : moves priority [.replace (state.victimPlace queued.packet) queued] = [] := by
          simp [moves, LinkAct.move, hp]
        simp only [hmoves, Function.update_of_ne (Ne.symm hp)]
        exact ⟨rfl, hline⟩

/-- A packet that is sent is the head of the line of its class. -/
theorem took_line {state state' : LinkQueues} {sent : Option QueuedPacket}
    (h : Took state state' sent) (hclassed : state.ClassedQueues) (priority : Priority)
    {line : Line QueuedPacket} (hline : line.waiting = state.queues priority) :
    (line.run (moves priority (sent.map LinkAct.send).toList)).gone =
        line.gone ++ ofClass priority sent.toList ∧
      (line.run (moves priority (sent.map LinkAct.send).toList)).waiting =
        state'.queues priority := by
  cases h with
  | nothing queues bytes credit writable why =>
    rw [queues]
    exact ⟨(List.append_nil _).symm, hline⟩
  | head p queued rest permit strict front fits queues bytes credit writable =>
    have hclass := hclassed p queued (front ▸ List.mem_cons_self)
    by_cases hp : p = priority
    · subst hp
      have hmoves : moves p ((some queued).map LinkAct.send).toList = [.serve] := by
        simp [moves, LinkAct.move, hclass]
      have hsent : ofClass p (some queued).toList = [queued] := by simp [ofClass, hclass]
      rw [hmoves, hsent, queues, Function.update_self]
      exact Line.serve_of_waiting (hline.trans front)
    · have hmoves : moves priority ((some queued).map LinkAct.send).toList = [] := by
        simp [moves, LinkAct.move, hclass, hp]
      have hsent : ofClass priority (some queued).toList = [] := by simp [ofClass, hclass, hp]
      rw [hmoves, hsent, queues, Function.update_of_ne (Ne.symm hp), List.append_nil]
      exact ⟨rfl, hline⟩

theorem apply_line {state state' : LinkQueues} {op : LinkOp} {log : List LinkAct}
    (hclassed : state.ClassedQueues) (h : state.apply op = some (state', log))
    (priority : Priority) {line : Line QueuedPacket}
    (hline : line.waiting = state.queues priority) :
    (line.run (moves priority log)).gone = line.gone ++ ofClass priority (sends log) ∧
      (line.run (moves priority log)).waiting = state'.queues priority := by
  cases apply_applied h with
  | refused href => exact ⟨(List.append_nil _).symm, hline⟩
  | tried sent href tries =>
    obtain ⟨hgone, hwaiting⟩ := state.store_line op priority hline
    obtain ⟨hgone', hwaiting'⟩ := took_line tries.took (hclassed.store op) priority hwaiting
    rw [sends_append, sends_store, List.nil_append, sends_map_send, moves_append, Line.run_append,
      hgone', hgone]
    exact ⟨rfl, hwaiting'⟩

theorem run_line {priority : Priority} : ∀ {ops : List LinkOp} {state state' : LinkQueues}
    {log : List LinkAct} {line : Line QueuedPacket}, state.ClassedQueues →
    emitAll LinkQueues.apply state ops = some (state', log) →
    line.waiting = state.queues priority →
    (line.run (moves priority log)).gone = line.gone ++ ofClass priority (sends log) ∧
      (line.run (moves priority log)).waiting = state'.queues priority := by
  intro ops
  induction ops with
  | nil =>
    intro state state' log line _ h hline
    cases h
    exact ⟨(List.append_nil _).symm, hline⟩
  | cons op ops ih =>
    intro state state' log line hclassed h hline
    obtain ⟨state1, out, rest, h1, h2, rfl⟩ := emitAll_cons_inv h
    obtain ⟨hgone, hwaiting⟩ := apply_line hclassed h1 priority hline
    obtain ⟨hgone', hwaiting'⟩ := ih (hclassed.apply h1) h2 hwaiting
    rw [moves_append, Line.run_append, sends_append, ofClass_append, hgone', hgone,
      List.append_assoc]
    exact ⟨rfl, hwaiting'⟩

/-! ## Joining in the order of the calls -/

theorem apply_appends {state state' : LinkQueues} {queued : QueuedPacket} {log : List LinkAct}
    (h : state.apply (.enqueue queued) = some (state', log)) :
    (appends log).Sublist [queued] := by
  cases apply_applied h with
  | refused href => exact List.nil_sublist _
  | tried sent href tries =>
    have hsend : appends (sent.map LinkAct.send).toList = [] := by cases sent <;> rfl
    rw [appends_append, hsend, List.append_nil]
    have hstores := state.store_stores queued
    generalize state.store (.enqueue queued) = r at hstores ⊢
    cases hstores with
    | append victim => exact List.Sublist.refl _
    | replace old key same found => exact List.nil_sublist _

theorem run_appends : ∀ {queue : List QueuedPacket} {state state' : LinkQueues}
    {log : List LinkAct},
    emitAll LinkQueues.apply state (queue.map .enqueue) = some (state', log) →
    (appends log).Sublist queue := by
  intro queue
  induction queue with
  | nil =>
    intro state state' log h
    cases h
    exact List.Sublist.refl _
  | cons queued queue ih =>
    intro state state' log h
    rw [List.map_cons] at h
    obtain ⟨state1, out, rest, h1, h2, rfl⟩ := emitAll_cons_inv h
    rw [appends_append]
    exact (apply_appends h1).append (ih h2)

end LinkQueues

namespace Forwarder

/-- The packets of a batch that a route update hands to link `l`. -/
def reenqueued (f : Forwarder) (routes : RouteTable) (l : LinkId) (batch : PendingP0Batch) :
    List QueuedPacket :=
  ((batch.packets.flatMap (f.prepared (.routesUpdated routes)).rerouteCalls).filter
    fun c => c.1 = l).map Prod.snd

/-- A link gets at most one copy of a packet that is rerouted. -/
theorem rerouteCalls_copy (f : Forwarder) (l : LinkId) (p : QueuedPacket) :
    ((f.rerouteCalls p).filter fun c => c.1 = l).map Prod.snd = [] ∨
      ∃ q, ((f.rerouteCalls p).filter fun c => c.1 = l).map Prod.snd = [q] ∧ CopyOf q p := by
  cases hds : accepted p.packet with
  | none =>
    rw [rerouteCalls, hds]
    exact .inl rfl
  | some ds =>
    have hcalls : ((f.rerouteCalls p).filter fun c => c.1 = l).map Prod.snd =
        ((branches (f.rerouteFate p.incoming) p.packet ds p.packet.header.ttl).filter
          fun b => b.1 = l).map fun b => ⟨p.incoming, b.2⟩ := by
      simp [rerouteCalls_some hds, List.filter_map, Function.comp_def]
    rw [hcalls, branches_on]
    split
    · exact .inl rfl
    · exact .inr ⟨_, rfl, .inr ⟨_, rfl⟩⟩

theorem reenqueued_inOrder (f : Forwarder) (routes : RouteTable) (l : LinkId)
    (batch : PendingP0Batch) : InOrder (f.reenqueued routes l batch) batch.packets := by
  rw [reenqueued, List.filter_flatMap, List.map_flatMap]
  exact .flatMap (fun p => rerouteCalls_copy _ l p) batch.packets

/-- The packets of a batch are handed over one after the other. -/
theorem ops_reenqueued {f : Forwarder} {now : MonoTime} {g : Nat} {batch : PendingP0Batch}
    (hbatch : f.pendingP0[g]? = some batch) (hwait : now < batch.expiresAt) (routes : RouteTable)
    (l : LinkId) : ∃ before after, f.ops now l (.routesUpdated routes) =
      before ++ (f.reenqueued routes l batch).map .enqueue ++ after := by
  have hmem : (g, batch) ∈ f.pendingP0.toList.filter fun e => now < e.2.expiresAt :=
    List.mem_filter.mpr ⟨OrdMap.mem_toList.mpr hbatch, by simpa using hwait⟩
  obtain ⟨xs, ys, hsplit⟩ := List.append_of_mem hmem
  have hops : f.ops now l (.routesUpdated routes) =
      callsOn l (f.calls now (.routesUpdated routes)) := rfl
  have hown : callsOn l (batch.packets.flatMap (f.prepared (.routesUpdated routes)).rerouteCalls) =
      (f.reenqueued routes l batch).map .enqueue := by
    rw [callsOn, reenqueued, List.map_map]
    rfl
  refine ⟨callsOn l ((xs.flatMap fun e => e.2.packets).flatMap
      (f.prepared (.routesUpdated routes)).rerouteCalls),
    callsOn l ((ys.flatMap fun e => e.2.packets).flatMap
      (f.prepared (.routesUpdated routes)).rerouteCalls), ?_⟩
  rw [hops, calls, retried, hsplit, List.flatMap_append, List.flatMap_cons, List.flatMap_append,
    List.flatMap_append, callsOn_append, callsOn_append, hown, List.append_assoc]

theorem Reachable.classedQueues {f : Forwarder} (h : f.Reachable) (l : LinkId) :
    (f.linkState l).ClassedQueues := fun priority q hq => h.classed.queues l priority q hq

theorem classedQueues_default : (default : LinkQueues).ClassedQueues := fun _ _ hq => nomatch hq

/-- From every state `f` of every run, on every link `l`.

An event asks the machine of the link for `ops`; at none of them is a packet of another class sent
while a P0 packet waits.

Over any events after `f` in which `l` does not fail, every class of the link is a line: what its
machine logs moves the line, and what has gone from it is what was sent of the class, in order.

Every parked batch is from the failure of one link; a later route update hands what it can to `l`
in the order in which the packets were queued there. -/
theorem order_kept {me : NodeId} {routes : RouteTable} {events : List (MonoTime × ForwardEvent)}
    {f : Forwarder} {acts : List ForwardAction}
    (h : (new me routes).run events = some (f, acts)) (l : LinkId) :
    (∀ now event f' acts', f.handle now event = some (f', acts') →
      LinkRun l (f.prepared event) (f.ops now l event) f' acts' ∧
      Along LinkQueues.apply LinkQueues.StrictAt ((f.prepared event).linkState l)
        (f.ops now l event)) ∧
    (∀ since f' acts', (∀ e ∈ since, e.2 ≠ .linkDown l) → f.run since = some (f', acts') →
      ∃ log, emitAll LinkQueues.apply (f.linkState l) (f.opsAlong l since) =
          some (f'.linkState l, log) ∧
        sentTo l acts' = (sends log).map QueuedPacket.packet ∧
        ∀ priority, ((Line.of (f.queue l priority)).run (moves priority log)).gone =
            ofClass priority (sends log) ∧
          ((Line.of (f.queue l priority)).run (moves priority log)).waiting =
            f'.queue l priority) ∧
    ∀ (g : Nat) batch, f.pendingP0[g]? = some batch →
      ∃ x : Failure, x.Parked (new me routes) events f g batch ∧
        ∀ now routes', now < batch.expiresAt →
          (∃ before after, f.ops now l (.routesUpdated routes') =
            before ++ (f.reenqueued routes' l batch).map .enqueue ++ after) ∧
          ∀ state state' log, emitAll LinkQueues.apply state
              ((f.reenqueued routes' l batch).map .enqueue) = some (state', log) →
            InOrder (appends log) (x.state.queue x.link .p0) := by
  have hclassed := Reachable.classedQueues ⟨me, routes, events, acts, h⟩ l
  refine ⟨fun now event f' acts' hstep => ⟨handle_link hstep l, ?_⟩, ?_, ?_⟩
  · refine LinkQueues.ClassedQueues.strict _ ?_
    rcases f.prepared_linkState_cases event l with heq | heq
    · rw [heq]
      exact hclassed
    · rw [heq]
      exact classedQueues_default
  · intro since f' acts' hup hrun
    obtain ⟨log, hlog, hsent⟩ := run_link hup hrun
    refine ⟨log, hlog, hsent, fun priority => ?_⟩
    exact LinkQueues.run_line hclassed hlog (Line.waiting_of _)
  · intro g batch hbatch
    obtain ⟨x, hx⟩ := run_failed rfl events h hbatch
    refine ⟨x, hx, fun now routes' hwait => ⟨ops_reenqueued hbatch hwait routes' l, ?_⟩⟩
    intro state state' log hrun
    exact (InOrder.of_sublist (LinkQueues.run_appends hrun)).trans
      ((f.reenqueued_inOrder routes' l batch).trans hx.order)

/-- Two P0 packets wait on link 7 when it fails; later node 2 is behind link 8. -/
theorem order_kept_parked : ∃ f acts batch, ∃ x : Failure,
    (new (.ofByte 1) sampleRoutes).run
      [(0, urgent), (1, .outbound (samplePacket .unicast .p0 .empty (.ofByte 3))),
        (2, .linkDown 7)] = some (f, acts) ∧
    f.pendingP0[0]? = some batch ∧ (f.reenqueued movedRoutes 8 batch).length = 1 ∧
    InOrder batch.packets (x.state.queue x.link .p0) := by
  have h : (((new (.ofByte 1) sampleRoutes).run
      [(0, urgent), (1, .outbound (samplePacket .unicast .p0 .empty (.ofByte 3))),
        (2, .linkDown 7)]).bind fun r => (r.1.pendingP0[0]?).map fun batch =>
          decide ((r.1.reenqueued movedRoutes 8 batch).length = 1)) = some true := by
    decide +kernel
  simp only [Option.bind_eq_some_iff, Option.map_eq_some_iff] at h
  obtain ⟨⟨f, acts⟩, hrun, batch, hbatch, hlen⟩ := h
  obtain ⟨x, hx, -⟩ := (order_kept hrun 8).2.2 0 batch hbatch
  exact ⟨f, acts, batch, x, hrun, hbatch, of_decide_eq_true hlen, hx.order⟩

end Forwarder
end Forward
end MeshBus
