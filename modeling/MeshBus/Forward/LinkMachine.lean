import MeshBus.Forward.QueueSteps

/-!
# Forward.LinkMachine

One link of a forwarder on its own: a machine `LinkQueues.apply` that takes the operations the
forwarder asks of the link, one `enqueue` call, one credit or one permit each, and logs what becomes
of the packets. `Applied` is its inversion: the operation is refused, or the state `store` leaves is
given to `try_send_one`.
-/

namespace MeshBus
namespace Forward

open Wire

/-- What the forwarder asks of one link. -/
inductive LinkOp where
  | enqueue (queued : QueuedPacket)
  | credit (bytes : Nat)
  | writable
deriving DecidableEq

/-- What becomes of a packet at a link. A replacement names its place in the queue. -/
inductive LinkAct where
  | append (queued : QueuedPacket)
  | replace (place : Nat) (queued : QueuedPacket)
  | send (queued : QueuedPacket)
deriving DecidableEq

/-- The packets a log sends. -/
def sends (log : List LinkAct) : List QueuedPacket :=
  log.filterMap fun
    | .send queued => some queued
    | _ => none

@[simp] theorem sends_nil : sends [] = [] := rfl

@[simp] theorem sends_append (a b : List LinkAct) : sends (a ++ b) = sends a ++ sends b :=
  List.filterMap_append

@[simp] theorem sends_map_send (sent : Option QueuedPacket) :
    sends (sent.map LinkAct.send).toList = sent.toList := by
  cases sent <;> rfl

namespace LinkQueues

/-- The place of the packet that conflation replaces. -/
def victimPlace (state : LinkQueues) (packet : ForwardPacket) : Nat :=
  (state.queues packet.header.priority).findIdx fun old =>
    ConflationKey.fromPacket old.packet = ConflationKey.fromPacket packet

/-- The state `try_send_one` is called with. -/
def store (state : LinkQueues) : LinkOp → LinkQueues × List LinkAct
  | .enqueue queued =>
    match state.conflate queued with
    | some (state', _) => (state', [.replace (state.victimPlace queued.packet) queued])
    | none => (state.pushBack queued, [.append queued])
  | .credit bytes =>
    ({ state with availableCreditBytes := satAdd state.availableCreditBytes bytes }, [])
  | .writable => ({ state with writable := true }, [])

/-- A full queue takes no packet, and `try_send_one` is not called. -/
def refuses (state : LinkQueues) : LinkOp → Bool
  | .enqueue queued => (state.conflate queued).isNone &&
      decide (queueLimitPackets queued.packet.header.priority ≤
        (state.queues queued.packet.header.priority).length)
  | _ => false

def apply (state : LinkQueues) (op : LinkOp) : Option (LinkQueues × List LinkAct) :=
  if state.refuses op then some (state, [])
  else (state.store op).1.trySendOne.map fun r =>
    (r.1, (state.store op).2 ++ (r.2.map LinkAct.send).toList)

/-- What an operation does. -/
inductive Applied (state : LinkQueues) (op : LinkOp) : LinkQueues → List LinkAct → Prop
  | refused (h : state.refuses op = true) : Applied state op state []
  | tried {state' : LinkQueues} (sent : Option QueuedPacket) (h : state.refuses op = false)
      (tries : Tries (state.store op).1 state' sent) :
      Applied state op state' ((state.store op).2 ++ (sent.map LinkAct.send).toList)

theorem apply_applied {state state' : LinkQueues} {op : LinkOp} {log : List LinkAct}
    (h : state.apply op = some (state', log)) : Applied state op state' log := by
  rw [apply] at h
  split at h
  · rename_i href
    cases h
    exact .refused href
  · rename_i href
    obtain ⟨⟨state1, sent⟩, htry, heq⟩ := Option.map_eq_some_iff.mp h
    cases heq
    exact .tried sent (Bool.not_eq_true _ ▸ href) (trySendOne_tries htry)

/-! ## Storing -/

theorem replaceFirst_set {α : Type} {p : α → Bool} {new x : α} : ∀ {l l' : List α},
    replaceFirst p new l = some (l', x) →
    l' = l.set (l.findIdx p) new ∧ l[l.findIdx p]? = some x ∧ p x = true := by
  intro l
  induction l with
  | nil =>
    intro l' h
    cases h
  | cons a l ih =>
    intro l' h
    simp only [replaceFirst] at h
    split at h
    · rename_i ha
      cases h
      simp [List.findIdx_cons, ha]
    · rename_i ha
      obtain ⟨⟨l1, y⟩, hr, heq⟩ := Option.map_eq_some_iff.mp h
      cases heq
      obtain ⟨hset, hget, hp⟩ := ih hr
      simp only [Bool.not_eq_true] at ha
      simp [List.findIdx_cons, ha, hset, hget, hp]

/-- The two ways a packet is stored. -/
inductive Stores (state : LinkQueues) (queued : QueuedPacket) : LinkQueues × List LinkAct → Prop
  | append (victim : state.victim queued.packet = none) :
      Stores state queued (state.pushBack queued, [.append queued])
  | replace (old : QueuedPacket)
      (key : ConflationKey.fromPacket queued.packet ≠ none)
      (same : ConflationKey.fromPacket old.packet = ConflationKey.fromPacket queued.packet)
      (found : (state.queues queued.packet.header.priority)[state.victimPlace queued.packet]? =
        some old) :
      Stores state queued
        ({ state with
          queuedBytes := Function.update state.queuedBytes queued.packet.header.priority
            (satAdd (state.queuedBytes queued.packet.header.priority - old.packet.encodedLen)
              queued.packet.encodedLen)
          queues := Function.update state.queues queued.packet.header.priority
            ((state.queues queued.packet.header.priority).set (state.victimPlace queued.packet)
              queued) },
          [.replace (state.victimPlace queued.packet) queued])

theorem store_stores (state : LinkQueues) (queued : QueuedPacket) :
    Stores state queued (state.store (.enqueue queued)) := by
  cases hconf : state.conflate queued with
  | none =>
    simp only [store, hconf]
    exact .append (conflate_none.mp hconf)
  | some r =>
    obtain ⟨state', old⟩ := r
    simp only [store, hconf]
    simp only [conflate] at hconf
    split at hconf
    · cases hconf
    · rename_i key hkey
      split at hconf
      · cases hconf
      · rename_i queue old' hrep
        cases hconf
        obtain ⟨hset, hget, hsame⟩ := replaceFirst_set hrep
        have hplace : state.victimPlace queued.packet =
            (state.queues queued.packet.header.priority).findIdx fun old =>
              ConflationKey.fromPacket old.packet = some key := by
          rw [victimPlace, hkey]
        have hkeys : ConflationKey.fromPacket old.packet =
            ConflationKey.fromPacket queued.packet := by
          rw [hkey]
          exact of_decide_eq_true hsame
        rw [← hplace] at hset hget
        rw [hset]
        exact .replace old (by simp [hkey]) hkeys hget

/-- What a link knows about whose turn it is. -/
structure SameTurn (state state' : LinkQueues) : Prop where
  deficit : state'.deficitBytes = state.deficitBytes
  next : state'.nextDrr = state.nextDrr
  quantum : state'.drrNeedsQuantum = state.drrNeedsQuantum

/-- Storing leaves the scheduler alone. -/
theorem store_turn (state : LinkQueues) (op : LinkOp) : SameTurn state (state.store op).1 := by
  cases op with
  | enqueue queued =>
    cases hs : state.store (.enqueue queued) with
    | mk state1 log1 =>
      have h := hs ▸ state.store_stores queued
      cases h with
      | append victim => exact ⟨rfl, rfl, rfl⟩
      | replace old key same found => exact ⟨rfl, rfl, rfl⟩
  | credit bytes => exact ⟨rfl, rfl, rfl⟩
  | writable => exact ⟨rfl, rfl, rfl⟩

/-- The credit and the permit a link has when `try_send_one` is called. -/
theorem store_enqueue_permit (state : LinkQueues) (queued : QueuedPacket) :
    (state.store (.enqueue queued)).1.availableCreditBytes = state.availableCreditBytes ∧
      (state.store (.enqueue queued)).1.writable = state.writable ∧
      sends (state.store (.enqueue queued)).2 = [] := by
  cases hs : state.store (.enqueue queued) with
  | mk state1 log1 =>
    have h := hs ▸ state.store_stores queued
    cases h with
    | append victim => exact ⟨rfl, rfl, rfl⟩
    | replace old key same found => exact ⟨rfl, rfl, rfl⟩

theorem sends_store (state : LinkQueues) (op : LinkOp) : sends (state.store op).2 = [] := by
  cases op with
  | enqueue queued => exact (state.store_enqueue_permit queued).2.2
  | credit bytes => rfl
  | writable => rfl

/-! ## Classes -/

/-- Every queue holds packets of its class only. -/
def ClassedQueues (state : LinkQueues) : Prop :=
  ∀ priority, ∀ q ∈ state.queues priority, q.packet.header.priority = priority

theorem ClassedQueues.update {state : LinkQueues} (h : state.ClassedQueues) {priority : Priority}
    {queue : List QueuedPacket} (hqueue : ∀ q ∈ queue, q.packet.header.priority = priority)
    {state' : LinkQueues} (hqueues : state'.queues = Function.update state.queues priority queue) :
    state'.ClassedQueues := by
  intro p q hq
  rw [hqueues] at hq
  by_cases hp : p = priority
  · subst hp
    rw [Function.update_self] at hq
    exact hqueue q hq
  · rw [Function.update_of_ne hp] at hq
    exact h p q hq

theorem ClassedQueues.store {state : LinkQueues} (h : state.ClassedQueues) (op : LinkOp) :
    (state.store op).1.ClassedQueues := by
  cases op with
  | credit bytes => exact h
  | writable => exact h
  | enqueue queued =>
    have hstores := state.store_stores queued
    generalize state.store (.enqueue queued) = r at hstores ⊢
    cases hstores with
    | append victim =>
      refine h.update (fun q hq => ?_) rfl
      rcases List.mem_append.mp hq with hq | hq
      · exact h _ q hq
      · rw [List.mem_singleton.mp hq]
    | replace old key same found =>
      refine h.update (fun q hq => ?_) rfl
      rcases List.mem_or_eq_of_mem_set hq with hq | rfl
      · exact h _ q hq
      · rfl

theorem ClassedQueues.took {state state' : LinkQueues} {sent : Option QueuedPacket}
    (h : state.ClassedQueues) (ht : Took state state' sent) : state'.ClassedQueues := by
  cases ht with
  | nothing queues bytes credit writable why =>
    rw [ClassedQueues, queues]
    exact h
  | head priority queued rest permit strict front fits queues bytes credit writable =>
    refine h.update (fun q hq => h priority q ?_) queues
    rw [front]
    exact List.mem_cons_of_mem _ hq

theorem ClassedQueues.apply {state state' : LinkQueues} {op : LinkOp} {log : List LinkAct}
    (h : state.ClassedQueues) (happly : state.apply op = some (state', log)) :
    state'.ClassedQueues := by
  cases apply_applied happly with
  | refused href => exact h
  | tried sent href tries => exact (h.store op).took tries.took

end LinkQueues

end Forward
end MeshBus
