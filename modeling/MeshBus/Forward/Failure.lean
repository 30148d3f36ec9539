import MeshBus.Forward.Parking
import MeshBus.Forward.Pending

/-!
# Forward.Failure

Where a parked batch comes from. Every batch of a run was parked when one link failed, has stayed
parked since, keeps its deadline, and holds what is left of the P0 queue of that link in the order
of the queue (`run_failed`).
-/

namespace MeshBus
namespace Forward

open Wire
open Control (RouteTable)

namespace Forwarder

/-! ## Order -/

/-- `q` is `p`, or a copy of it for some of its recipients. -/
def CopyOf (q p : QueuedPacket) : Prop :=
  q = p ∨ ∃ ds, q = ⟨p.incoming, copyFor p.packet ds p.packet.header.ttl⟩

theorem copyFor_copyFor (packet : ForwardPacket) (ds ds' : List NodeId) (ttl ttl' : UInt8) :
    copyFor (copyFor packet ds ttl) ds' ttl' = copyFor packet ds' ttl' := by
  by_cases hm : packet.header.packetType = .multicast
  · simp [copyFor, hm]
  · simp [copyFor, hm]

instance : Std.Refl CopyOf := ⟨fun _ => .inl rfl⟩

instance : IsTrans QueuedPacket CopyOf where
  trans := by
    rintro a b c (rfl | ⟨ds, rfl⟩) hbc
    · exact hbc
    · rcases hbc with rfl | ⟨ds', rfl⟩
      · exact .inr ⟨ds, rfl⟩
      · refine .inr ⟨ds, ?_⟩
        rw [copyFor_copyFor, copyFor_ttl]

/-- The packets of `left` are copies of some of `all`, in the same order. -/
def InOrder (left all : List QueuedPacket) : Prop := List.SublistForall₂ CopyOf left all

theorem InOrder.trans {a b c : List QueuedPacket} (h1 : InOrder a b) (h2 : InOrder b c) :
    InOrder a c := by
  have htrans : IsTrans (List QueuedPacket) (List.SublistForall₂ CopyOf) := inferInstance
  exact htrans.trans a b c h1 h2

theorem InOrder.of_sublist {a b : List QueuedPacket} (h : a.Sublist b) : InOrder a b :=
  h.sublistForall₂

theorem InOrder.refl (all : List QueuedPacket) : InOrder all all :=
  .of_sublist (List.Sublist.refl all)

/-- One packet after the other, each copied at most once. -/
theorem InOrder.flatMap {copies : QueuedPacket → List QueuedPacket}
    (h : ∀ p, copies p = [] ∨ ∃ q, copies p = [q] ∧ CopyOf q p) :
    ∀ packets : List QueuedPacket, InOrder (packets.flatMap copies) packets := by
  intro packets
  induction packets with
  | nil => exact .nil
  | cons p packets ih =>
    rw [List.flatMap_cons]
    rcases h p with hnone | ⟨q, hone, hcopy⟩
    · rw [hnone]
      exact .cons_right ih
    · rw [hone]
      exact .cons hcopy ih

theorem leftOf_copy (f : Forwarder) (p : QueuedPacket) :
    f.leftOf p = [] ∨ ∃ q, f.leftOf p = [q] ∧ CopyOf q p := by
  simp only [leftOf]
  split
  · exact .inl rfl
  · rw [leftOver]
    split
    · exact .inl rfl
    · exact .inr ⟨_, rfl, .inr ⟨_, rfl⟩⟩

theorem survivor_spec {f : Forwarder} {now : MonoTime} {old batch : PendingP0Batch}
    (h : f.survivor now old = some batch) : now < old.expiresAt ∧
      batch.expiresAt = old.expiresAt ∧ InOrder batch.packets old.packets := by
  rw [survivor] at h
  split at h
  · cases h
  · rename_i hwait
    split at h
    · cases h
    · cases h
      exact ⟨Nat.lt_of_not_le hwait, rfl, .flatMap f.leftOf_copy old.packets⟩

/-! ## The failure behind a batch -/

/-- A link fails in a run, at `time`, in `state`. -/
structure Failure where
  before : List (MonoTime × ForwardEvent)
  state : Forwarder
  time : MonoTime
  link : LinkId
  next : Forwarder
  after : List (MonoTime × ForwardEvent)

/-- The run `events` from `start` to `f` has the failure `x`, and `batch`, parked in `f` under
`g`, is from there. -/
structure Failure.Parked (x : Failure) (start : Forwarder)
    (events : List (MonoTime × ForwardEvent)) (f : Forwarder) (g : Nat) (batch : PendingP0Batch) :
    Prop where
  events : events = x.before ++ (x.time, .linkDown x.link) :: x.after
  reached : ∃ acts, start.run x.before = some (x.state, acts)
  fails : ∃ acts, x.state.handle x.time (.linkDown x.link) = some (x.next, acts)
  follows : ∃ acts, x.next.run x.after = some (f, acts)
  fresh : g ∉ x.state.pendingP0
  parked : x.next.pendingP0[g]? =
    some ⟨satAdd x.time p0RouteWaitMs, x.state.queue x.link .p0⟩
  stays : StaysParked g x.next x.after
  expires : batch.expiresAt = satAdd x.time p0RouteWaitMs
  order : InOrder batch.packets (x.state.queue x.link .p0)

/-- One more event, in which the batch stays. -/
theorem Failure.Parked.extend {x : Failure} {start : Forwarder}
    {events : List (MonoTime × ForwardEvent)} {f f' : Forwarder} {g : Nat}
    {old batch : PendingP0Batch} {e : MonoTime × ForwardEvent} {acts : List ForwardAction}
    (h : x.Parked start events f g old) (hold : f.pendingP0[g]? = some old)
    (hstep : f.handle e.1 e.2 = some (f', acts)) (hexpires : batch.expiresAt = old.expiresAt)
    (horder : InOrder batch.packets old.packets) :
    Failure.Parked { x with after := x.after ++ [e] } start (events ++ [e]) f' g batch := by
  obtain ⟨out, hfollows⟩ := h.follows
  refine ⟨by simp [h.events], h.reached, h.fails, ?_, h.fresh, h.parked, ?_,
    hexpires.trans h.expires, horder.trans h.order⟩
  · exact ⟨_, emitAll_append_some hfollows (emitAll_cons_some hstep rfl)⟩
  · refine h.stays.append_intro fun s out' hs => ?_
    have heq : f = s := congrArg Prod.fst (Option.some.inj (hfollows.symm.trans hs))
    subst heq
    exact ⟨OrdMap.mem_iff_get.mpr ⟨old, hold⟩, fun _ _ _ => trivial⟩

/-- Every batch of a run is from a failure in it. -/
theorem run_failed {start : Forwarder} (hempty : start.pendingP0 = ∅)
    (events : List (MonoTime × ForwardEvent)) : ∀ {f : Forwarder} {acts : List ForwardAction}
    {g : Nat} {batch : PendingP0Batch}, start.run events = some (f, acts) →
    f.pendingP0[g]? = some batch → ∃ x : Failure, x.Parked start events f g batch := by
  -- along the run, event by event at its end
  induction events using List.reverseRecOn with
  | nil =>
    intro f acts g batch h hg
    cases h
    simp [hempty] at hg
  | append_singleton events e ih =>
    intro f' acts g batch h hg
    obtain ⟨f, out, rest, hrun, hlast, rfl⟩ := emitAll_append_inv h
    obtain ⟨f1, out1, rest1, hstep, hnil, rfl⟩ := emitAll_cons_inv hlast
    cases hnil
    have kept : ∀ {old : PendingP0Batch}, f.pendingP0[g]? = some old →
        batch.expiresAt = old.expiresAt → InOrder batch.packets old.packets →
        ∃ x : Failure, x.Parked start (events ++ [e]) f' g batch := by
      intro old hold hexpires horder
      obtain ⟨x, hx⟩ := ih hrun hold
      exact ⟨_, hx.extend hold hstep hexpires horder⟩
    have hpark := handle_parkStep hstep
    obtain ⟨now, event⟩ := e
    generalize waits out1 = w at hpark
    cases hpark with
    | same pending next stale empty =>
      rw [pending] at hg
      exact kept hg rfl (.refl _)
    | parked link g' waiting free pending next =>
      rw [pending, OrdMap.get_insert] at hg
      split at hg
      · rename_i heq
        subst heq
        have hbatch := Option.some.inj hg
        subst hbatch
        have hget : f'.pendingP0[g']? =
            some ⟨satAdd now p0RouteWaitMs, f.queue link .p0⟩ := by
          rw [pending, OrdMap.get_insert, if_pos rfl]
        exact ⟨⟨events, f, now, link, f', []⟩, rfl, ⟨out, hrun⟩, ⟨out1, hstep⟩, ⟨[], rfl⟩,
          freeGeneration_spec free, hget, trivial, rfl, .refl _⟩
      · exact kept hg rfl (.refl _)
    | retried routes pending next =>
      rw [pending, Option.bind_eq_some_iff] at hg
      obtain ⟨old, hold, hs⟩ := hg
      obtain ⟨-, hexpires, horder⟩ := survivor_spec hs
      exact kept hold hexpires horder
    | early g' found wait => exact kept hg rfl (.refl _)
    | expired g' found late =>
      rw [OrdMap.get_erase] at hg
      split at hg
      · cases hg
      · exact kept hg rfl (.refl _)

end Forwarder
end Forward
end MeshBus
