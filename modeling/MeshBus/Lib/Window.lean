import Mathlib

/-!
# Lib.Window

A sliding window over sequence numbers: the greatest number seen and a bitmap in which bit `age`
stands for the number `highest - age`. Numbers that are `w` or more below the greatest have left
the window and are refused.

`Window.Holds W S` relates a window to the set of all numbers it was given. `accept_fst` says which
numbers it accepts in terms of that set, and `Holds.accept` that the relation is kept by every call,
refused ones included: a refused number is in the set already, or out of the window's sight.
-/

namespace MeshBus

/-- A number is fresh for a set: not in it, and less than `w` below its greatest element. -/
def Fresh (w : Nat) (S : Finset Nat) (n : Nat) : Prop := S = ∅ ∨ n ∉ S ∧ S.sup id < n + w

instance (w : Nat) (S : Finset Nat) (n : Nat) : Decidable (Fresh w S n) :=
  inferInstanceAs (Decidable (_ ∨ _))

theorem Fresh.not_mem {w : Nat} {S : Finset Nat} {n : Nat} (h : Fresh w S n) : n ∉ S := by
  rcases h with rfl | ⟨h, -⟩
  · exact Finset.notMem_empty n
  · exact h

structure Window (w : Nat) where
  highest : Nat
  bitmap : BitVec w

namespace Window

variable {w : Nat}

def first (w n : Nat) : Window w := ⟨n, 1#w⟩

/-- Whether `n` is accepted, and the window after it. -/
def accept (W : Window w) (n : Nat) : Bool × Window w :=
  if W.highest < n then
    let shift := n - W.highest
    (true, ⟨n, if w ≤ shift then 1#w else W.bitmap <<< shift ||| 1#w⟩)
  else if w ≤ W.highest - n then (false, W)
  else if W.bitmap.getLsbD (W.highest - n) then (false, W)
  else (true, { W with bitmap := W.bitmap ||| BitVec.twoPow w (W.highest - n) })

/-- `S` is everything the window was given. -/
structure Holds (W : Window w) (S : Finset Nat) : Prop where
  top : W.highest ∈ S
  bound : ∀ n ∈ S, n ≤ W.highest
  bits : ∀ age < w, W.bitmap.getLsbD age = true ↔ age ≤ W.highest ∧ W.highest - age ∈ S

theorem holds_first (hw : 0 < w) (n : Nat) : (first w n).Holds {n} where
  top := Finset.mem_singleton_self n
  bound m hm := (Finset.mem_singleton.mp hm).le
  bits age hage := by
    simp only [first, BitVec.getLsbD_one, hw, decide_true, Bool.true_and, decide_eq_true_eq,
      Finset.mem_singleton]
    omega

variable {W : Window w} {S : Finset Nat}

theorem Holds.sup_eq (h : W.Holds S) : S.sup id = W.highest :=
  le_antisymm (Finset.sup_le h.bound) (Finset.le_sup (f := id) h.top)

/-- The bit of a number in sight says whether the number was seen. -/
theorem Holds.bit_iff (h : W.Holds S) {n : Nat} (hle : n ≤ W.highest) (hage : W.highest - n < w) :
    W.bitmap.getLsbD (W.highest - n) = true ↔ n ∈ S := by
  rw [h.bits _ hage, Nat.sub_sub_self hle]
  exact and_iff_right (Nat.sub_le _ _)

/-- A number above the greatest moves the window. -/
theorem Holds.advance (h : W.Holds S) {n : Nat} (hlt : W.highest < n) :
    Holds (w := w) ⟨n, if w ≤ n - W.highest then 1#w else W.bitmap <<< (n - W.highest) ||| 1#w⟩
      (insert n S) where
  top := Finset.mem_insert_self n S
  bound m hm := by
    rcases Finset.mem_insert.mp hm with rfl | hm
    · exact le_rfl
    · exact (h.bound m hm).trans hlt.le
  bits age hage := by
    have hw : 0 < w := by omega
    have hmem : age ≤ n → (n - age ∈ insert n S ↔ age = 0 ∨ n - age ∈ S) := by
      intro hle
      rw [Finset.mem_insert]
      have : n - age = n ↔ age = 0 := by omega
      rw [this]
    -- numbers between the old greatest and the new one were not seen
    have hgap : age < n - W.highest → n - age ∉ S := by
      intro hlt hin
      have := h.bound _ hin
      omega
    by_cases hshift : w ≤ n - W.highest
    · rw [if_pos hshift, BitVec.getLsbD_one]
      simp only [hw, decide_true, Bool.true_and, decide_eq_true_eq]
      constructor
      · rintro rfl
        exact ⟨Nat.zero_le n, (hmem (Nat.zero_le n)).mpr (.inl rfl)⟩
      · rintro ⟨hle, hin⟩
        rcases (hmem hle).mp hin with h0 | hin
        · exact h0.symm ▸ rfl
        · exact absurd hin (hgap (by omega))
    · rw [if_neg hshift, BitVec.getLsbD_or, BitVec.getLsbD_shiftLeft, BitVec.getLsbD_one]
      simp only [hw, hage, decide_true, Bool.true_and, Bool.or_eq_true, Bool.and_eq_true,
        Bool.not_eq_true', decide_eq_false_iff_not, decide_eq_true_eq]
      by_cases hold : age < n - W.highest
      · simp only [hold, not_true_eq_false, false_and, false_or]
        constructor
        · rintro rfl
          exact ⟨Nat.zero_le n, (hmem (Nat.zero_le n)).mpr (.inl rfl)⟩
        · rintro ⟨hle, hin⟩
          rcases (hmem hle).mp hin with h0 | hin
          · exact h0.symm ▸ rfl
          · exact absurd hin (hgap hold)
      · have hpos : age ≠ 0 := by omega
        have hnum : W.highest - (age - (n - W.highest)) = n - age := by omega
        rw [h.bits _ (by omega), hnum]
        constructor
        · rintro (⟨-, hle, hin⟩ | h0)
          · exact ⟨by omega, Finset.mem_insert_of_mem hin⟩
          · exact absurd h0 hpos
        · rintro ⟨hle, hin⟩
          rcases (hmem hle).mp hin with h0 | hin
          · exact absurd h0 hpos
          · exact .inl ⟨hold, by omega, hin⟩

/-- Setting the bit of a number in sight. -/
theorem Holds.mark (h : W.Holds S) {n : Nat} (hle : n ≤ W.highest) (hsight : W.highest - n < w) :
    Holds { W with bitmap := W.bitmap ||| BitVec.twoPow w (W.highest - n) } (insert n S) where
  top := Finset.mem_insert_of_mem h.top
  bound m hm := by
    rcases Finset.mem_insert.mp hm with rfl | hm
    · exact hle
    · exact h.bound m hm
  bits age hage := by
    simp only [BitVec.getLsbD_or, BitVec.getLsbD_twoPow, hsight, decide_true, Bool.true_and,
      Bool.or_eq_true, decide_eq_true_eq, h.bits age hage, Finset.mem_insert]
    constructor
    · rintro (⟨hage', hin⟩ | heq)
      · exact ⟨hage', .inr hin⟩
      · exact ⟨by omega, .inl (by omega)⟩
    · rintro ⟨hage', heq | hin⟩
      · exact .inr (by omega)
      · exact .inl ⟨hage', hin⟩

/-- A number out of sight changes nothing. -/
theorem Holds.old (h : W.Holds S) {n : Nat} (hage : w ≤ W.highest - n) (hle : n ≤ W.highest) :
    W.Holds (insert n S) where
  top := Finset.mem_insert_of_mem h.top
  bound m hm := by
    rcases Finset.mem_insert.mp hm with rfl | hm
    · exact hle
    · exact h.bound m hm
  bits age hage' := by
    rw [h.bits age hage', Finset.mem_insert]
    have : W.highest - age ≠ n := by omega
    simp only [this, false_or]

/-- The window accepts exactly the numbers that are fresh for the set. -/
theorem Holds.accept_fst (h : W.Holds S) (n : Nat) : (W.accept n).1 = true ↔ Fresh w S n := by
  have hne : S ≠ ∅ := Finset.ne_empty_of_mem h.top
  simp only [Fresh, hne, false_or, h.sup_eq]
  unfold accept
  split
  · rename_i hlt
    have hnew : n ∉ S := fun hin => absurd (h.bound n hin) (by omega)
    simp only [true_iff]
    exact ⟨hnew, by omega⟩
  · rename_i hle
    rw [Nat.not_lt] at hle
    split
    · rename_i hold
      simp only [Bool.false_eq_true, false_iff]
      rintro ⟨-, hlt⟩
      omega
    · rename_i hin
      have hage : W.highest - n < w := by omega
      have hbit := h.bit_iff hle hage
      split
      · rename_i hset
        simp only [Bool.false_eq_true, false_iff]
        rintro ⟨hnew, -⟩
        exact hnew (hbit.mp hset)
      · rename_i hset
        simp only [true_iff]
        exact ⟨fun hin => hset (hbit.mpr hin), by omega⟩

/-- Every call keeps the relation, with the number added. -/
theorem Holds.accept (h : W.Holds S) (n : Nat) : (W.accept n).2.Holds (insert n S) := by
  unfold Window.accept
  split
  · rename_i hlt
    exact h.advance hlt
  · rename_i hle
    rw [Nat.not_lt] at hle
    split
    · rename_i hold
      exact h.old hold hle
    · rename_i hin
      split
      · rename_i hset
        have hmem : n ∈ S := (h.bit_iff hle (by omega)).mp hset
        rw [Finset.insert_eq_of_mem hmem]
        exact h
      · exact h.mark hle (by omega)

/-- A refused number leaves the window as it was. -/
theorem accept_snd_of_false {n : Nat} (h : (W.accept n).1 = false) : (W.accept n).2 = W := by
  unfold accept at h ⊢
  by_cases hlt : W.highest < n
  · rw [if_pos hlt] at h
    cases h
  · rw [if_neg hlt] at h ⊢
    by_cases hold : w ≤ W.highest - n
    · rw [if_pos hold]
    · rw [if_neg hold] at h ⊢
      by_cases hset : W.bitmap.getLsbD (W.highest - n) = true
      · rw [if_pos hset]
      · rw [if_neg hset] at h
        cases h

end Window
end MeshBus
