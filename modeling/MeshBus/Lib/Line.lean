import Mathlib

/-!
# Lib.Line

A waiting line in which a place can change hands. Whoever joins takes the next place, a swap puts
someone else into a place that still waits, and serving takes the first place that waits.

The line keeps all places, also those served: `gone` is what has left, in the order in which the
places were taken, and `waiting` is the queue one sees. The lemmas say what each move does to the
two: joining and swapping leave `gone` alone, serving appends the head of `waiting` to it.
-/

namespace MeshBus

structure Line (α : Type*) where
  places : List α
  served : Nat
  served_le : served ≤ places.length

namespace Line

variable {α : Type*}

inductive Move (α : Type*) where
  | join (a : α)
  | swap (k : Nat) (a : α)
  | serve

/-- A line whose places all wait. -/
def of (queue : List α) : Line α := ⟨queue, 0, Nat.zero_le _⟩

def gone (line : Line α) : List α := line.places.take line.served

def waiting (line : Line α) : List α := line.places.drop line.served

/-- A swap counts its place from the first that waits; serving an empty line does nothing. -/
def move (line : Line α) : Move α → Line α
  | .join a => ⟨line.places ++ [a], line.served, by
      rw [List.length_append]
      exact line.served_le.trans (Nat.le_add_right _ _)⟩
  | .swap k a => ⟨line.places.set (line.served + k) a, line.served, by
      rw [List.length_set]
      exact line.served_le⟩
  | .serve =>
    if h : line.served < line.places.length then ⟨line.places, line.served + 1, h⟩ else line

def run (line : Line α) (moves : List (Move α)) : Line α := moves.foldl move line

@[simp] theorem run_nil (line : Line α) : line.run [] = line := rfl

theorem run_append (line : Line α) (a b : List (Move α)) :
    line.run (a ++ b) = (line.run a).run b := List.foldl_append

@[simp] theorem gone_of (queue : List α) : (of queue).gone = [] := rfl

@[simp] theorem waiting_of (queue : List α) : (of queue).waiting = queue := rfl

@[simp] theorem gone_join (line : Line α) (a : α) : (line.move (.join a)).gone = line.gone :=
  List.take_append_of_le_length line.served_le

@[simp] theorem waiting_join (line : Line α) (a : α) :
    (line.move (.join a)).waiting = line.waiting ++ [a] :=
  List.drop_append_of_le_length line.served_le

@[simp] theorem gone_swap (line : Line α) (k : Nat) (a : α) :
    (line.move (.swap k a)).gone = line.gone := by
  simp only [gone, move, List.take_set]
  rw [List.set_eq_of_length_le]
  rw [List.length_take]
  omega

@[simp] theorem waiting_swap (line : Line α) (k : Nat) (a : α) :
    (line.move (.swap k a)).waiting = line.waiting.set k a := by
  simp only [waiting, move, List.drop_set]
  rw [if_neg (by omega), Nat.add_sub_cancel_left]

theorem serve_of_waiting {line : Line α} {a : α} {rest : List α} (h : line.waiting = a :: rest) :
    (line.move .serve).gone = line.gone ++ [a] ∧ (line.move .serve).waiting = rest := by
  have hlt : line.served < line.places.length := by
    by_contra hge
    rw [waiting, List.drop_eq_nil_of_le (Nat.le_of_not_lt hge)] at h
    cases h
  have hget : line.places[line.served] :: line.places.drop (line.served + 1) = a :: rest := by
    rw [List.cons_getElem_drop_succ]
    exact h
  obtain ⟨ha, hrest⟩ := List.cons.inj hget
  simp only [move, dif_pos hlt]
  refine ⟨?_, hrest⟩
  rw [gone, gone, List.take_succ_eq_append_getElem hlt, ha]

end Line
end MeshBus
