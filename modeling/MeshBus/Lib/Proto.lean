import Mathlib

/-!
# Lib.Proto

The proto3 wire format as an encoder writes it: base-128 varints, least significant group first,
and fields headed by a key that holds the field number and the wire type. A singular field that has
its default value is not written; elements of a repeated field always are.

The size lemmas bound a field by the length of its content.
-/

namespace MeshBus
namespace Proto

/-- The loop of a varint writer, for at most `fuel` more groups after the first. -/
def varintFor : Nat → Nat → List UInt8
  | 0, n => [UInt8.ofNat n]
  | fuel + 1, n =>
    if n < 128 then [UInt8.ofNat n]
    else UInt8.ofNat (n % 128 + 128) :: varintFor fuel (n / 128)

/-- A `u64` takes at most ten groups. -/
def varint (n : Nat) : List UInt8 := varintFor 9 n

/-- Wire type 0 is a varint, wire type 2 a length and that many bytes. -/
def key (field wireType : Nat) : List UInt8 := varint (field * 8 + wireType)

/-- A singular `uint32` or `uint64` field. -/
def varintField (field n : Nat) : List UInt8 :=
  if n = 0 then [] else key field 0 ++ varint n

/-- One element of a repeated `bytes` or message field. -/
def lenField (field : Nat) (content : List UInt8) : List UInt8 :=
  key field 2 ++ (varint content.length ++ content)

/-- A singular `bytes` or `string` field. -/
def bytesField (field : Nat) (content : List UInt8) : List UInt8 :=
  if content = [] then [] else lenField field content

theorem length_varintFor_le {k n : Nat} (h : n < 128 ^ (k + 1)) (fuel : Nat) :
    (varintFor fuel n).length ≤ k + 1 := by
  induction k generalizing n fuel with
  | zero =>
    cases fuel with
    | zero => simp [varintFor]
    | succ fuel => simp [varintFor, show n < 128 by omega]
  | succ k ih =>
    cases fuel with
    | zero => simp [varintFor]
    | succ fuel =>
      rw [varintFor]
      split
      · simp
      · have hdiv : n / 128 < 128 ^ (k + 1) := by
          rw [Nat.div_lt_iff_lt_mul (by omega), ← Nat.pow_succ]
          exact h
        have := ih hdiv fuel
        rw [List.length_cons]
        omega

theorem length_varint_le {k n : Nat} (h : n < 128 ^ (k + 1)) : (varint n).length ≤ k + 1 :=
  length_varintFor_le h 9

theorem length_varintFor_le_fuel (fuel n : Nat) : (varintFor fuel n).length ≤ fuel + 1 := by
  induction fuel generalizing n with
  | zero => simp [varintFor]
  | succ fuel ih =>
    rw [varintFor]
    split
    · simp
    · have := ih (n / 128)
      rw [List.length_cons]
      omega

theorem length_varint_le_ten (n : Nat) : (varint n).length ≤ 10 := length_varintFor_le_fuel 9 n

/-- Field numbers below 16 have keys of one byte. -/
theorem length_key_le_one {field wireType : Nat} (hf : field < 16) (hw : wireType < 8) :
    (key field wireType).length ≤ 1 :=
  length_varint_le (k := 0) (by omega)

theorem length_varintField_le {field n k : Nat} (hf : field < 16) (h : n < 128 ^ (k + 1)) :
    (varintField field n).length ≤ 1 + (k + 1) := by
  rw [varintField]
  split
  · simp
  · have hkey : (key field 0).length ≤ 1 := length_key_le_one hf (by omega)
    have hn := length_varint_le h
    rw [List.length_append]
    omega

theorem length_varintField_le_eleven {field n : Nat} (hf : field < 16) :
    (varintField field n).length ≤ 11 := by
  rw [varintField]
  split
  · simp
  · have hkey : (key field 0).length ≤ 1 := length_key_le_one hf (by omega)
    have hn := length_varint_le_ten n
    rw [List.length_append]
    omega

theorem length_lenField_le {field k : Nat} {content : List UInt8} (hf : field < 16)
    (h : content.length < 128 ^ (k + 1)) :
    (lenField field content).length ≤ 1 + (k + 1) + content.length := by
  have hkey : (key field 2).length ≤ 1 := length_key_le_one hf (by omega)
  have hn := length_varint_le h
  rw [lenField, List.length_append, List.length_append]
  omega

theorem le_length_lenField (field : Nat) (content : List UInt8) :
    content.length ≤ (lenField field content).length := by
  rw [lenField, List.length_append, List.length_append]
  omega

theorem length_bytesField_le {field k : Nat} {content : List UInt8} (hf : field < 16)
    (h : content.length < 128 ^ (k + 1)) :
    (bytesField field content).length ≤ 1 + (k + 1) + content.length := by
  rw [bytesField]
  split
  · simp
  · exact length_lenField_le hf h

theorem le_length_bytesField (field : Nat) (content : List UInt8) :
    content.length ≤ (bytesField field content).length := by
  rw [bytesField]
  split
  · rename_i hnil
    simp [hnil]
  · exact le_length_lenField field content

section Repeated

variable {α : Type*} {f : α → List UInt8}

/-- A repeated field is as long as its elements together. -/
theorem length_flatMap_le {xs : List α} {w : α → Nat} (h : ∀ x ∈ xs, (f x).length ≤ w x) :
    (xs.flatMap f).length ≤ (xs.map w).sum := by
  rw [List.length_flatMap]
  exact List.sum_le_sum h

theorem le_length_flatMap {xs : List α} {w : α → Nat} (h : ∀ x ∈ xs, w x ≤ (f x).length) :
    (xs.map w).sum ≤ (xs.flatMap f).length := by
  rw [List.length_flatMap]
  exact List.sum_le_sum h

end Repeated

end Proto
end MeshBus
