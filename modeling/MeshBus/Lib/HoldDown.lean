import Mathlib.Data.Option.Basic
import Mathlib.Data.List.Basic
import Mathlib.Order.Basic

/-!
# Lib.HoldDown

A hold-down timer: it gathers a burst of changes into one run and spaces the runs. A change while
no run is due makes one due after the present hold; each run doubles the hold up to a cap. A change
that comes a long quiet time after the one before it takes the hold back to its initial value and
moves the run that is due.

* `HoldDown P`: the timer, under the policy `P`; its hold is always between the initial one and the
  cap.
* `P.Calm last ts`: no change among `ts` comes after a quiet time, when the change before was at
  `last`.
* `changes_due_of_pending`, `changes_due_of_idle`, `changes_due_ge`: when the next run is due after
  a series of changes.
-/

namespace MeshBus

/-- Times are in any unit. -/
structure HoldDown.Policy where
  initial : Nat
  cap : Nat
  quiet : Nat
  initial_le_cap : initial ≤ cap

/-- `due` is when the next run may start, `last` the time of the last change. -/
@[ext] structure HoldDown (P : HoldDown.Policy) where
  due : Option Nat
  hold : Nat
  last : Option Nat
  initial_le_hold : P.initial ≤ hold
  hold_le_cap : hold ≤ P.cap

namespace HoldDown

/-- No change comes `quiet` or more after the one before it. -/
def Policy.Calm (P : Policy) : Option Nat → List Nat → Prop
  | _, [] => True
  | last, t :: ts => (∀ l ∈ last, t < l + P.quiet) ∧ P.Calm (some t) ts

variable {P : Policy}

/-- The change at `t` ends a quiet time. -/
def WasQuiet (s : HoldDown P) (t : Nat) : Prop := ∃ l ∈ s.last, l + P.quiet ≤ t

instance (s : HoldDown P) (t : Nat) : Decidable (s.WasQuiet t) :=
  decidable_of_iff (s.last.any fun l => l + P.quiet ≤ t) (by
    rw [Option.any_eq_true]
    simp [WasQuiet])

theorem not_wasQuiet {s : HoldDown P} {t : Nat} :
    ¬ s.WasQuiet t ↔ ∀ l ∈ s.last, t < l + P.quiet := by
  simp only [WasQuiet, not_exists, not_and, Nat.not_le]

/-- Nothing is due yet. -/
def idle (P : Policy) : HoldDown P where
  due := none
  hold := P.initial
  last := none
  initial_le_hold := Nat.le_refl _
  hold_le_cap := P.initial_le_cap

/-- The hold that is in force from a change at `t` on. -/
def holdAt (s : HoldDown P) (t : Nat) : Nat := if s.WasQuiet t then P.initial else s.hold

theorem initial_le_holdAt (s : HoldDown P) (t : Nat) : P.initial ≤ s.holdAt t := by
  rw [holdAt]
  split
  · exact Nat.le_refl _
  · exact s.initial_le_hold

theorem holdAt_le_cap (s : HoldDown P) (t : Nat) : s.holdAt t ≤ P.cap := by
  rw [holdAt]
  split
  · exact P.initial_le_cap
  · exact s.hold_le_cap

def change (s : HoldDown P) (t : Nat) : HoldDown P where
  due := if s.due.isSome ∧ ¬ s.WasQuiet t then s.due else some (t + s.holdAt t)
  hold := s.holdAt t
  last := some t
  initial_le_hold := s.initial_le_holdAt t
  hold_le_cap := s.holdAt_le_cap t

/-- The run takes place. -/
def fire (s : HoldDown P) : HoldDown P where
  due := none
  hold := min (2 * s.hold) P.cap
  last := s.last
  initial_le_hold := by
    have := s.initial_le_hold
    have := P.initial_le_cap
    omega
  hold_le_cap := Nat.min_le_right _ _

def changes (s : HoldDown P) (ts : List Nat) : HoldDown P := ts.foldl change s

@[simp] theorem changes_nil (s : HoldDown P) : s.changes [] = s := rfl

@[simp] theorem changes_cons (s : HoldDown P) (t : Nat) (ts : List Nat) :
    s.changes (t :: ts) = (s.change t).changes ts := rfl

theorem changes_append (s : HoldDown P) (ts ts' : List Nat) :
    s.changes (ts ++ ts') = (s.changes ts).changes ts' := List.foldl_append

theorem last_changes (s : HoldDown P) (ts : List Nat) :
    (s.changes ts).last = ts.getLast?.or s.last := by
  induction ts generalizing s with
  | nil => rfl
  | cons t ts ih =>
    rw [changes_cons, ih, List.getLast?_cons, change]
    cases ts.getLast? <;> rfl

theorem change_due_of_idle {s : HoldDown P} (h : s.due = none) (t : Nat) :
    (s.change t).due = some (t + s.holdAt t) := by
  simp [change, h]

theorem change_due_of_calm {s : HoldDown P} {d t : Nat} (h : s.due = some d)
    (hcalm : ∀ l ∈ s.last, t < l + P.quiet) : (s.change t).due = some d := by
  simp [change, h, not_wasQuiet.mpr hcalm]

/-- A calm series of changes does not move the run that is due. -/
theorem changes_due_of_pending {ts : List Nat} : ∀ {s : HoldDown P} {d : Nat}, s.due = some d →
    P.Calm s.last ts → (s.changes ts).due = some d := by
  induction ts with
  | nil => exact fun h _ => h
  | cons t ts ih => exact fun h hcalm => ih (change_due_of_calm h hcalm.1) hcalm.2

/-- The first change of a series decides when the run is due, if the rest is calm. -/
theorem changes_due_of_idle {s : HoldDown P} {c : Nat} {ts : List Nat} (h : s.due = none)
    (hcalm : P.Calm (some c) ts) : (s.changes (c :: ts)).due = some (c + s.holdAt c) := by
  rw [changes_cons]
  exact changes_due_of_pending (change_due_of_idle h c) hcalm

/-- No run is due earlier than the initial hold after a time that no change comes before. -/
theorem changes_due_ge {t : Nat} {ts : List Nat} : ∀ {s : HoldDown P},
    (∀ d ∈ s.due, t + P.initial ≤ d) → (∀ c ∈ ts, t ≤ c) →
    ∀ d ∈ (s.changes ts).due, t + P.initial ≤ d := by
  induction ts with
  | nil => exact fun h _ => h
  | cons c ts ih =>
    intro s h hts
    refine ih ?_ fun x hx => hts x (List.mem_cons_of_mem _ hx)
    intro d hd
    simp only [change] at hd
    split at hd
    · exact h d hd
    · cases hd
      exact Nat.add_le_add (hts c List.mem_cons_self) (s.initial_le_holdAt c)

end HoldDown
end MeshBus
