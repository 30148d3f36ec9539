import Mathlib

/-!
# Lib.OrdMap

Finite maps iterated in key order, as `Std.ExtTreeMap` at the comparison of a linear order. Two
maps with the same lookups are equal, so a map is its lookup function together with the sorted
list of its entries.

* `get_insert` / `get_erase`: lookups after an update, with plain equality of keys.
* `OrdSet`: the sets that go with them.
* `total g m`: the sum of `g k v` over the entries, in any commutative monoid; `total_insert`,
  `total_erase` and `total_split` say how an update moves it.
-/

namespace MeshBus

abbrev OrdMap (κ : Type*) (ν : Type*) [LinearOrder κ] := Std.ExtTreeMap κ ν compare

namespace OrdMap

variable {κ ν : Type*} [LinearOrder κ]

instance : Std.LawfulEqCmp (compare : κ → κ → Ordering) := ⟨compare_eq_iff_eq.mp⟩

instance transCmp : Std.TransCmp (compare : κ → κ → Ordering) := inferInstance

@[simp] theorem get_insert (m : OrdMap κ ν) (k a : κ) (v : ν) :
    (m.insert k v)[a]? = if k = a then some v else m[a]? := by
  rw [Std.ExtTreeMap.getElem?_insert]
  simp only [compare_eq_iff_eq]

@[simp] theorem get_erase (m : OrdMap κ ν) (k a : κ) :
    (m.erase k)[a]? = if k = a then none else m[a]? := by
  rw [Std.ExtTreeMap.getElem?_erase]
  simp only [compare_eq_iff_eq]

@[simp] theorem mem_insert (m : OrdMap κ ν) (k a : κ) (v : ν) :
    a ∈ m.insert k v ↔ k = a ∨ a ∈ m := by
  simp [Std.ExtTreeMap.mem_insert]

@[simp] theorem mem_erase (m : OrdMap κ ν) (k a : κ) : a ∈ m.erase k ↔ k ≠ a ∧ a ∈ m := by
  simp [Std.ExtTreeMap.mem_erase]

@[simp] theorem contains_eq_false {m : OrdMap κ ν} {k : κ} : m.contains k = false ↔ k ∉ m := by
  rw [← Bool.not_eq_true, Std.ExtTreeMap.mem_iff_contains]

theorem mem_iff_get {m : OrdMap κ ν} {k : κ} : k ∈ m ↔ ∃ v, m[k]? = some v := by
  rw [Std.ExtTreeMap.mem_iff_isSome_getElem?, Option.isSome_iff_exists]

theorem mem_toList {m : OrdMap κ ν} {k : κ} {v : ν} : (k, v) ∈ m.toList ↔ m[k]? = some v :=
  Std.ExtTreeMap.mem_toList_iff_getElem?_eq_some

theorem ext {m m' : OrdMap κ ν} (h : ∀ k : κ, m[k]? = m'[k]?) : m = m' :=
  Std.ExtTreeMap.ext_getElem? h

theorem nodup_fst_toList (m : OrdMap κ ν) : (m.toList.map Prod.fst).Nodup := by
  rw [Std.ExtTreeMap.map_fst_toList_eq_keys]
  exact Std.ExtTreeMap.nodup_keys

theorem nodup_toList (m : OrdMap κ ν) : m.toList.Nodup := (nodup_fst_toList m).of_map

/-- At most one entry of a list with distinct keys has a given key. -/
theorem filter_key_eq {xs : List (κ × ν)} (hkeys : (xs.map Prod.fst).Nodup) {k : κ} {v : ν}
    (h : (k, v) ∈ xs) : (xs.filter fun e => e.1 = k) = [(k, v)] := by
  induction xs with
  | nil => cases h
  | cons e xs ih =>
    rw [List.map_cons, List.nodup_cons] at hkeys
    rcases List.mem_cons.mp h with rfl | h
    · have hrest : (xs.filter fun e => e.1 = k) = [] := by
        rw [List.filter_eq_nil_iff]
        intro e he heq
        exact hkeys.1 (List.mem_map.mpr ⟨e, he, of_decide_eq_true heq⟩)
      rw [List.filter_cons_of_pos (by simp), hrest]
    · have hne : e.1 ≠ k := by
        intro heq
        exact hkeys.1 (List.mem_map.mpr ⟨(k, v), h, heq.symm⟩)
      rw [List.filter_cons_of_neg (by simpa using hne), ih hkeys.2 h]

theorem toList_insert_perm (m : OrdMap κ ν) (k : κ) (v : ν) :
    (m.insert k v).toList.Perm ((k, v) :: (m.erase k).toList) := by
  have hnew : (k, v) ∉ (m.erase k).toList := by
    rw [mem_toList]; simp
  refine (List.perm_ext_iff_of_nodup (nodup_toList _) ?_).mpr ?_
  · exact List.nodup_cons.mpr ⟨hnew, nodup_toList _⟩
  · rintro ⟨a, w⟩
    rw [List.mem_cons, mem_toList, mem_toList, get_insert, get_erase]
    by_cases h : k = a
    · subst h; simp [eq_comm]
    · simp [h, Ne.symm h]

theorem insert_eq_self {m : OrdMap κ ν} {k : κ} {v : ν} (h : m[k]? = some v) :
    m.insert k v = m := by
  apply ext
  intro a
  rw [get_insert]
  by_cases hk : k = a
  · subst hk; simp [h]
  · simp [hk]

theorem erase_eq_self {m : OrdMap κ ν} {k : κ} (h : m[k]? = none) : m.erase k = m := by
  apply ext
  intro a
  rw [get_erase]
  by_cases hk : k = a
  · subst hk; simp [h]
  · simp [hk]

theorem insert_insert (m : OrdMap κ ν) (k : κ) (v w : ν) :
    (m.insert k v).insert k w = m.insert k w := by
  apply ext
  intro a
  simp only [get_insert]
  split <;> rfl

theorem card_keys [DecidableEq κ] (m : OrdMap κ ν) : m.keys.toFinset.card = m.size := by
  rw [List.toFinset_card_of_nodup Std.ExtTreeMap.nodup_keys, Std.ExtTreeMap.length_keys]

theorem size_le_of_keys {μ : Type*} {m : OrdMap κ ν} {m' : OrdMap κ μ}
    (h : ∀ k, k ∈ m → k ∈ m') : m.size ≤ m'.size := by
  classical
  rw [← card_keys, ← card_keys]
  refine Finset.card_le_card fun k hk => ?_
  rw [List.mem_toFinset, Std.ExtTreeMap.mem_keys] at hk ⊢
  exact h k hk

section Total

variable {A : Type*} [AddCommMonoid A]

/-- Sum of `g` over the entries. -/
def total (g : κ → ν → A) (m : OrdMap κ ν) : A := (m.toList.map fun p => g p.1 p.2).sum

@[simp] theorem total_empty (g : κ → ν → A) : total g (∅ : OrdMap κ ν) = 0 := by
  rw [total, Std.ExtTreeMap.toList_eq_nil_iff.mpr rfl]; rfl

theorem total_insert (g : κ → ν → A) (m : OrdMap κ ν) (k : κ) (v : ν) :
    total g (m.insert k v) = g k v + total g (m.erase k) := by
  unfold total
  rw [((toList_insert_perm m k v).map _).sum_eq, List.map_cons, List.sum_cons]

/-- Taking one entry out of the sum. -/
theorem total_split (g : κ → ν → A) {m : OrdMap κ ν} {k : κ} {v : ν} (h : m[k]? = some v) :
    total g m = g k v + total g (m.erase k) := by
  rw [← total_insert, insert_eq_self h]

theorem total_insert_new (g : κ → ν → A) {m : OrdMap κ ν} {k : κ} (h : m[k]? = none) (v : ν) :
    total g (m.insert k v) = g k v + total g m := by
  rw [total_insert, erase_eq_self h]

/-- Appending to the list stored under a key, which is empty if there is none. -/
theorem total_push {α : Type*} (m : OrdMap κ (List α)) (k : κ) (a : α) :
    total (fun _ (l : List α) => (l : Multiset α)) (m.insert k (m[k]?.getD [] ++ [a])) =
      a ::ₘ total (fun _ (l : List α) => (l : Multiset α)) m := by
  rw [← Multiset.singleton_add, ← Multiset.coe_singleton]
  cases h : m[k]? with
  | none =>
    rw [total_insert_new _ h]
    rfl
  | some l =>
    rw [total_insert, total_split _ h, Option.getD_some, ← Multiset.coe_add]
    abel

end Total

end OrdMap

abbrev OrdSet (κ : Type*) [LinearOrder κ] := Std.ExtTreeSet κ compare

namespace OrdSet

variable {κ : Type*} [LinearOrder κ]

def ofList (xs : List κ) : OrdSet κ := Std.ExtTreeSet.ofList xs compare

@[simp] theorem mem_ofList {xs : List κ} {k : κ} : k ∈ ofList xs ↔ k ∈ xs := by
  let _ : BEq κ := instBEqOfDecidableEq
  have : Std.LawfulBEqCmp (compare : κ → κ → Ordering) := ⟨by simp⟩
  rw [ofList, Std.ExtTreeSet.mem_ofList, List.contains_iff_mem]

@[simp] theorem mem_erase {s : OrdSet κ} {k a : κ} : a ∈ s.erase k ↔ k ≠ a ∧ a ∈ s := by
  rw [Std.ExtTreeSet.mem_erase, Ne, compare_eq_iff_eq]

theorem nodup_toList (s : OrdSet κ) : s.toList.Nodup := by
  have h := Std.ExtTreeSet.distinct_toList (t := s)
  simp only [compare_eq_iff_eq] at h
  exact h

end OrdSet
end MeshBus
