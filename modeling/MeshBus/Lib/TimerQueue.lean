import Mathlib

/-!
# Lib.TimerQueue

A queue of timers ordered by deadline and, among equal deadlines, by the number of the scheduling
(a wrapping `u64`). The queue is the list of its entries in the order in which they come out, and
carries the proof that it is sorted.

* `pop` gives an entry with the least deadline (`due_le_of_pop`).
* `schedule` adds one entry and loses none (`schedule_perm`); an entry with a later deadline goes
  behind (`schedule_behind`).
-/

namespace MeshBus

structure TimerEntry (α : Type*) where
  due : Nat
  sequence : Nat
  item : α
  deriving DecidableEq

namespace TimerEntry

variable {α : Type*}

/-- The order of the pairs of deadline and number. -/
def Le (a b : TimerEntry α) : Prop := a.due < b.due ∨ a.due = b.due ∧ a.sequence ≤ b.sequence

instance decidableLe : DecidableRel (Le (α := α)) := fun a b =>
  inferInstanceAs (Decidable (a.due < b.due ∨ a.due = b.due ∧ a.sequence ≤ b.sequence))

instance totalLe : Std.Total (Le (α := α)) where
  total a b := by
    unfold Le
    omega

instance transLe : IsTrans (TimerEntry α) Le where
  trans a b c := by
    unfold Le
    omega

theorem Le.due_le {a b : TimerEntry α} (h : Le a b) : a.due ≤ b.due := by
  unfold Le at h
  omega

end TimerEntry

structure TimerQueue (α : Type*) where
  entries : List (TimerEntry α)
  sorted : entries.Pairwise TimerEntry.Le
  next : Nat

namespace TimerQueue

variable {α : Type*}

def empty : TimerQueue α := ⟨[], .nil, 0⟩

def schedule (q : TimerQueue α) (item : α) (due : Nat) : TimerQueue α where
  entries := q.entries.orderedInsert TimerEntry.Le ⟨due, q.next, item⟩
  sorted := q.sorted.orderedInsert _ _
  next := (q.next + 1) % 2 ^ 64

def scheduleAll (q : TimerQueue α) (timers : List (α × Nat)) : TimerQueue α :=
  timers.foldl (fun q x => q.schedule x.1 x.2) q

/-- The first entry, and the queue without it. -/
def pop (q : TimerQueue α) : Option (TimerEntry α × TimerQueue α) :=
  match q with
  | ⟨[], _, _⟩ => none
  | ⟨e :: rest, sorted, next⟩ => some (e, ⟨rest, sorted.of_cons, next⟩)

/-- The timers that wait, with their deadlines. -/
def waiting (q : TimerQueue α) : List (α × Nat) := q.entries.map fun e => (e.item, e.due)

theorem entries_of_pop {q rest : TimerQueue α} {e : TimerEntry α} (h : q.pop = some (e, rest)) :
    q.entries = e :: rest.entries := by
  unfold pop at h
  split at h <;> cases h
  rfl

theorem pop_of_entries {q : TimerQueue α} {e : TimerEntry α} {tail : List (TimerEntry α)}
    (h : q.entries = e :: tail) : ∃ rest, q.pop = some (e, rest) ∧ rest.entries = tail := by
  obtain ⟨entries, sorted, next⟩ := q
  cases h
  exact ⟨_, rfl, rfl⟩

theorem waiting_of_pop {q rest : TimerQueue α} {e : TimerEntry α} (h : q.pop = some (e, rest)) :
    q.waiting = (e.item, e.due) :: rest.waiting := by
  rw [waiting, entries_of_pop h]
  rfl

/-- No deadline is before that of the entry that comes out. -/
theorem due_le_of_pop {q rest : TimerQueue α} {e : TimerEntry α} (h : q.pop = some (e, rest))
    {x : α × Nat} (hx : x ∈ q.waiting) : e.due ≤ x.2 := by
  have hsorted := q.sorted
  rw [entries_of_pop h, List.pairwise_cons] at hsorted
  rw [waiting_of_pop h] at hx
  rcases List.mem_cons.mp hx with rfl | hx
  · exact le_refl _
  · obtain ⟨y, hy, rfl⟩ := List.mem_map.mp hx
    exact (hsorted.1 y hy).due_le

theorem schedule_perm (q : TimerQueue α) (item : α) (due : Nat) :
    (q.schedule item due).waiting.Perm (q.waiting ++ [(item, due)]) := by
  refine ((List.perm_orderedInsert TimerEntry.Le _ q.entries).map _).trans ?_
  exact (List.perm_append_singleton _ _).symm

theorem scheduleAll_perm (timers : List (α × Nat)) : ∀ q : TimerQueue α,
    (q.scheduleAll timers).waiting.Perm (q.waiting ++ timers) := by
  induction timers with
  | nil => exact fun q => by rw [List.append_nil]; exact .refl _
  | cons x timers ih =>
    intro q
    refine (ih (q.schedule x.1 x.2)).trans ?_
    refine ((schedule_perm q x.1 x.2).append_right timers).trans ?_
    rw [List.append_assoc]
    exact .refl _

theorem mem_waiting_scheduleAll {q : TimerQueue α} {timers : List (α × Nat)} {x : α × Nat} :
    x ∈ (q.scheduleAll timers).waiting ↔ x ∈ q.waiting ∨ x ∈ timers := by
  rw [(scheduleAll_perm timers q).mem_iff, List.mem_append]

/-- What is inserted with a later deadline than that of `x` leaves the entries up to `x` alone. -/
theorem orderedInsert_behind {before after : List (TimerEntry α)} {x new : TimerEntry α}
    (hsorted : (before ++ x :: after).Pairwise TimerEntry.Le) (h : x.due < new.due) :
    ∃ after', (before ++ x :: after).orderedInsert TimerEntry.Le new = before ++ x :: after' := by
  have hlate : ∀ y : TimerEntry α, y.due ≤ x.due → ¬ TimerEntry.Le new y := by
    intro y hy
    unfold TimerEntry.Le
    omega
  induction before with
  | nil =>
    refine ⟨after.orderedInsert TimerEntry.Le new, ?_⟩
    rw [List.nil_append, List.orderedInsert_of_not_le _ _ (hlate x (le_refl _))]
    rfl
  | cons y before ih =>
    rw [List.cons_append, List.pairwise_cons] at hsorted
    obtain ⟨after', heq⟩ := ih hsorted.2
    have hy : y.due ≤ x.due := (hsorted.1 x (by simp)).due_le
    refine ⟨after', ?_⟩
    rw [List.cons_append, List.orderedInsert_of_not_le _ _ (hlate y hy), heq]
    rfl

theorem schedule_behind {q : TimerQueue α} {before after : List (TimerEntry α)}
    {x : TimerEntry α} (h : q.entries = before ++ x :: after) {due : Nat} (hdue : x.due < due)
    (item : α) : ∃ after', (q.schedule item due).entries = before ++ x :: after' := by
  have hsorted := q.sorted
  rw [h] at hsorted
  change ∃ after', q.entries.orderedInsert TimerEntry.Le _ = before ++ x :: after'
  rw [h]
  exact orderedInsert_behind hsorted hdue

theorem scheduleAll_behind {before : List (TimerEntry α)} {x : TimerEntry α}
    (timers : List (α × Nat)) (hdue : ∀ t ∈ timers, x.due < t.2) :
    ∀ {q : TimerQueue α} {after : List (TimerEntry α)}, q.entries = before ++ x :: after →
      ∃ after', (q.scheduleAll timers).entries = before ++ x :: after' := by
  induction timers with
  | nil => exact fun h => ⟨_, h⟩
  | cons t timers ih =>
    intro q after h
    obtain ⟨after', hstep⟩ := schedule_behind h (hdue t List.mem_cons_self) t.1
    exact ih (fun u hu => hdue u (List.mem_cons_of_mem _ hu)) hstep

end TimerQueue
end MeshBus
