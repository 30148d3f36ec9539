import MeshBus.Forward.Conflation
import MeshBus.Forward.LinkState

/-!
# Forward.Checked

No event makes a forwarder panic (`handle_never_panics`).

`Forwarder.handle` stops with `none` where the source would decrement ttl 0, index with a round
robin position out of range or build a destination list that is not valid. In `try_send_one` it
subtracts and takes queue heads without a check; `trySendOneChecked` is the same function with
every subtraction and every `expect` checked, and the two agree in every state.
-/

namespace MeshBus
namespace Forward

open Wire
open Control (RouteTable)

/-- `a -= b` on an unsigned integer; `none` is an underflow. -/
def checkedSub (a b : Nat) : Option Nat := if b ≤ a then some (a - b) else none

theorem checkedSub_of_le {a b : Nat} (h : b ≤ a) : checkedSub a b = some (a - b) := if_pos h

/-- `pop_front().expect(..)`. -/
def popFrontChecked : List QueuedPacket → Option (QueuedPacket × List QueuedPacket)
  | [] => none
  | queued :: rest => some (queued, rest)

namespace LinkQueues

def drrLoopChecked : Nat → LinkQueues → Option (LinkQueues × Option QueuedPacket)
  | 0, _ => none
  | fuel + 1, state =>
    if !state.aPacketFitsCredit then some (state, none)
    else if h : state.nextDrr < 3 then
      let i : Fin 3 := ⟨state.nextDrr, h⟩
      if (state.queues (drrPriority i)).isEmpty then
        drrLoopChecked fuel (state.clearDeficit i).advanceDrr
      else
        let state := state.addQuantum i
        match (state.queues (drrPriority i)).head? with
        | none => none
        | some front =>
          let packetLen := front.packet.encodedLen
          if packetLen > state.deficitBytes i || packetLen > state.availableCreditBytes then
            drrLoopChecked fuel state.advanceDrr
          else do
            let (queued, rest) ← popFrontChecked (state.queues (drrPriority i))
            let deficit ← checkedSub (state.deficitBytes i) packetLen
            let credit ← checkedSub state.availableCreditBytes packetLen
            let sent := { state with
              queues := Function.update state.queues (drrPriority i) rest
              deficitBytes := Function.update state.deficitBytes i deficit
              queuedBytes := Function.update state.queuedBytes (drrPriority i)
                (state.queuedBytes (drrPriority i) - packetLen)
              availableCreditBytes := credit
              writable := false }
            some (if rest.isEmpty then (sent.clearDeficit i).advanceDrr else sent, some queued)
    else none

def trySendOneChecked (state : LinkQueues) : Option (LinkQueues × Option QueuedPacket) :=
  if !state.writable then some (state, none)
  else
    match (state.queues .p0).head? with
    | some front =>
      let packetLen := front.packet.encodedLen
      if packetLen > state.availableCreditBytes then some (state, none)
      else do
        let (queued, rest) ← popFrontChecked (state.queues .p0)
        let credit ← checkedSub state.availableCreditBytes packetLen
        some ({ state with
          queues := Function.update state.queues .p0 rest
          queuedBytes := Function.update state.queuedBytes .p0 (state.queuedBytes .p0 - packetLen)
          availableCreditBytes := credit
          writable := false }, some queued)
    | none => drrLoopChecked state.drrFuel state

theorem drrLoopChecked_eq : ∀ (fuel : Nat) (state : LinkQueues),
    drrLoopChecked fuel state = drrLoop fuel state := by
  intro fuel
  induction fuel with
  | zero => exact fun _ => rfl
  | succ fuel ih =>
    intro state
    rw [drrLoopChecked, drrLoop]
    split
    · rfl
    · split
      · rename_i hnext
        cases hqueue : state.queues (drrPriority ⟨state.nextDrr, hnext⟩) with
        | nil => simp only [hqueue, List.isEmpty_nil, if_true, ih]
        | cons queued rest =>
          simp only [hqueue, List.isEmpty_cons, addQuantum_queues, List.head?_cons]
          rw [if_neg Bool.false_ne_true]
          split
          · exact ih _
          · rename_i hfits
            simp only [Bool.or_eq_true, decide_eq_true_eq, not_or, Nat.not_lt] at hfits
            simp only [popFrontChecked, bind, Option.bind_some, checkedSub_of_le hfits.1,
              checkedSub_of_le hfits.2]
            rfl
      · rfl

theorem trySendOneChecked_eq (state : LinkQueues) :
    state.trySendOneChecked = state.trySendOne := by
  rw [trySendOneChecked, trySendOne]
  split
  · rfl
  · cases hqueue : state.queues .p0 with
    | nil => exact drrLoopChecked_eq _ _
    | cons queued rest =>
      simp only [List.head?_cons]
      split
      · rfl
      · rename_i hfits
        rw [checkedSub_of_le (Nat.le_of_not_lt hfits)]
        rfl

/-- An operation keeps the round robin position in range. -/
theorem apply_nextDrr {state state' : LinkQueues} {op : LinkOp} {log : List LinkAct}
    (h : state.nextDrr < 3) (happly : state.apply op = some (state', log)) :
    state'.nextDrr < 3 := by
  rw [apply] at happly
  split at happly
  · cases happly
    exact h
  · have hstore : (state.store op).1.nextDrr < 3 := (state.store_turn op).next ▸ h
    obtain ⟨r, hr, hlt⟩ := trySendOne_total hstore
    rw [hr] at happly
    cases happly
    exact hlt

end LinkQueues

namespace Forwarder

/-- All generations are taken: the search of `next_pending_generation` does not end. -/
theorem taken_of_freeGeneration_none {pending : OrdMap Nat PendingP0Batch} {generation : Nat}
    (hlt : generation < 2 ^ 64)
    (h : freeGeneration pending (pending.size + 1) generation = none) :
    ∀ g < 2 ^ 64, g ∈ pending := by
  have hsize : 2 ^ 64 ≤ pending.size := by
    by_contra hsmall
    obtain ⟨g, hg⟩ := freeGeneration_ends hlt (Nat.lt_of_not_le hsmall)
    rw [h] at hg
    cases hg
  intro g hg
  have htaken := freeGeneration_none hlt h ((g + (2 ^ 64 - generation)) % 2 ^ 64) (by omega)
  rwa [show (generation + (g + (2 ^ 64 - generation)) % 2 ^ 64) % 2 ^ 64 = g by omega] at htaken

theorem handle_generation {f f' : Forwarder} {now : MonoTime} {event : ForwardEvent}
    {acts : List ForwardAction} (hf : f.nextPendingGeneration < 2 ^ 64)
    (h : f.handle now event = some (f', acts)) : f'.nextPendingGeneration < 2 ^ 64 := by
  have hpark := handle_parkStep h
  generalize waits acts = w at hpark
  cases hpark with
  | same pending next stale empty => exact next ▸ hf
  | parked link g waiting free pending next =>
    rw [next]
    exact Nat.mod_lt _ (by decide)
  | retried routes pending next => exact next ▸ hf
  | early g batch found wait => exact hf
  | expired g batch found late => exact hf

theorem run_ready {me : NodeId} {routes : RouteTable} {events : List (MonoTime × ForwardEvent)}
    {f : Forwarder} {acts : List ForwardAction}
    (h : (new me routes).run events = some (f, acts)) :
    (∀ l, (f.linkState l).nextDrr < 3) ∧ f.nextPendingGeneration < 2 ^ 64 := by
  refine emitAll_inv (P := fun f : Forwarder => (∀ l, (f.linkState l).nextDrr < 3) ∧
    f.nextPendingGeneration < 2 ^ 64) ?_ ?_ h
  · intro f e f' out hf hstep
    refine ⟨fun l => ?_, handle_generation hf.2 hstep⟩
    exact handle_link_inv (Q := fun state => state.nextDrr < 3) (R := fun _ => True) (by decide)
      (fun _ _ _ _ hs _ happly => LinkQueues.apply_nextDrr hs happly) (fun _ _ => trivial)
      (hf.1 l) hstep
  · exact ⟨fun l => by simp [linkState, new, default], by simp [new]⟩

/-- In every state of every run, whatever the packets, links, credits, routes and times: the round
robin positions are in range, `try_send_one` subtracts nothing that is not there and finds every
packet it expects, and every event is handled. The one exception is not a panic: with all `2 ^ 64`
generations parked, the search for a free one goes on for ever. -/
theorem handle_never_panics {me : NodeId} {routes : RouteTable}
    {events : List (MonoTime × ForwardEvent)} {f : Forwarder} {acts : List ForwardAction}
    (h : (new me routes).run events = some (f, acts)) :
    (∀ l, (f.linkState l).nextDrr < 3) ∧
    (∀ state : LinkQueues, state.trySendOneChecked = state.trySendOne) ∧
    ∀ now event, (∃ f' acts', f.handle now event = some (f', acts')) ∨
      (∃ link, event = .linkDown link ∧ f.queue link .p0 ≠ []) ∧ ∀ g < 2 ^ 64, g ∈ f.pendingP0 := by
  obtain ⟨hdrr, hgeneration⟩ := run_ready h
  refine ⟨hdrr, LinkQueues.trySendOneChecked_eq, fun now event => ?_⟩
  have hready : f.Ready f.pendingP0.size := by
    refine ⟨fun l state hstate => ?_, hgeneration, Nat.le_refl _⟩
    rw [← linkState_eq hstate]
    exact hdrr l
  by_cases hfree : f.HasGeneration event
  · obtain ⟨⟨f', acts'⟩, hstep, -⟩ := handle_ends hready now hfree
    exact .inl ⟨f', acts', hstep⟩
  · simp only [HasGeneration, not_forall, not_exists] at hfree
    obtain ⟨link, hevent, hqueue, hnone⟩ := hfree
    refine .inr ⟨⟨link, hevent, hqueue⟩, taken_of_freeGeneration_none hgeneration ?_⟩
    exact Option.eq_none_iff_forall_ne_some.mpr hnone

/-- A P0 multicast is parked when link 7 fails, and its routes come back. -/
theorem handle_never_panics_parked : ∃ f acts,
    (new (.ofByte 1) sampleRoutes).run (fanOut.take 1 ++ [(2, .linkDown 7)]) = some (f, acts) ∧
    0 ∈ f.pendingP0 ∧
    ∃ f' acts', f.handle 3 (.routesUpdated sampleRoutes) = some (f', acts') := by
  have h : (((new (.ofByte 1) sampleRoutes).run (fanOut.take 1 ++ [(2, .linkDown 7)])).map
      fun r => decide (0 ∈ r.1.pendingP0)) = some true := by
    decide +kernel
  obtain ⟨⟨f, acts⟩, hrun, hparked⟩ := Option.map_eq_some_iff.mp h
  refine ⟨f, acts, hrun, of_decide_eq_true hparked, ?_⟩
  refine ((handle_never_panics hrun).2.2 3 (.routesUpdated sampleRoutes)).resolve_right ?_
  rintro ⟨⟨link, hlink, -⟩, -⟩
  cases hlink

end Forwarder
end Forward
end MeshBus
