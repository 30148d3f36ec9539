import Mathlib

/-!
# Lib.Latest

A register that takes a value only when its version is newer than the one it holds. What such a
register ends with depends on which values arrive and not on their order or number: the first of a
greatest version, or what it started with (`Latest`).
-/

namespace MeshBus

variable {α V : Type*} [LinearOrder V] (version : α → V)

/-- Which of `xs` a register takes that starts with version `known`: none of them, or one of a
greatest version. -/
def Latest (known : Option V) (xs : List α) : Option α → Prop
  | none => ∀ x ∈ xs, ∃ v, known = some v ∧ version x ≤ v
  | some x => x ∈ xs ∧ (∀ v, known = some v → v < version x) ∧ ∀ y ∈ xs, version y ≤ version x

/-- The version a register holds that started with `known` and took `taken`. -/
def held (known : Option V) : Option α → Option V
  | none => known
  | some x => some (version x)

variable {version} {known : Option V} {xs ys : List α} {taken taken' : Option α} {y : α}

theorem latest_nil : Latest version known [] none := fun _ hx => absurd hx List.not_mem_nil

/-- A newer value is taken. -/
theorem Latest.take (h : Latest version known xs taken)
    (hnewer : ∀ v, held version known taken = some v → v < version y) :
    Latest version known (y :: xs) (some y) := by
  cases taken with
  | none =>
    refine ⟨List.mem_cons_self, hnewer, ?_⟩
    intro x hx
    rcases List.mem_cons.mp hx with rfl | hx
    · exact le_rfl
    · obtain ⟨v, hv, hle⟩ := h x hx
      exact hle.trans (hnewer v hv).le
  | some z =>
    obtain ⟨-, hknown, hmax⟩ := h
    have hz : version z < version y := hnewer _ rfl
    refine ⟨List.mem_cons_self, fun v hv => (hknown v hv).trans hz, ?_⟩
    intro x hx
    rcases List.mem_cons.mp hx with rfl | hx
    · exact le_rfl
    · exact (hmax x hx).trans hz.le

/-- A value that is not newer changes nothing. -/
theorem Latest.keep (h : Latest version known xs taken) {v : V}
    (hheld : held version known taken = some v) (hle : version y ≤ v) :
    Latest version known (y :: xs) taken := by
  cases taken with
  | none =>
    intro x hx
    rcases List.mem_cons.mp hx with rfl | hx
    · exact ⟨v, hheld, hle⟩
    · exact h x hx
  | some z =>
    obtain ⟨hmem, hknown, hmax⟩ := h
    cases hheld
    refine ⟨List.mem_cons_of_mem _ hmem, hknown, ?_⟩
    intro x hx
    rcases List.mem_cons.mp hx with rfl | hx
    · exact hle
    · exact hmax x hx

/-- Only which values arrive matters. -/
theorem Latest.congr (h : Latest version known xs taken) (hsame : ∀ x, x ∈ xs ↔ x ∈ ys) :
    Latest version known ys taken := by
  cases taken with
  | none => exact fun x hx => h x ((hsame x).mpr hx)
  | some z => exact ⟨(hsame z).mp h.1, h.2.1, fun x hx => h.2.2 x ((hsame x).mpr hx)⟩

/-- Two registers that start alike and see the same values take values of the same version, or
none. -/
theorem Latest.unique (h : Latest version known xs taken) (h' : Latest version known xs taken') :
    taken.map version = taken'.map version := by
  have absurd_none : ∀ {z : α}, Latest version known xs none →
      ¬ Latest version known xs (some z) := by
    rintro z hnone ⟨hz, hknown, -⟩
    obtain ⟨v, hv, hle⟩ := hnone z hz
    exact absurd (hknown v hv) (not_lt.mpr hle)
  cases taken with
  | none =>
    cases taken' with
    | none => rfl
    | some z => exact absurd h' (absurd_none h)
  | some z =>
    cases taken' with
    | none => exact absurd h (absurd_none h')
    | some z' => exact congrArg some (le_antisymm (h'.2.2 z h.1) (h.2.2 z' h'.1))

end MeshBus
