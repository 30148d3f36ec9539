import Mathlib

/-!
# Lib.Bytes

Numbers as big-endian byte strings of a fixed width, and byte strings cut at fixed offsets.

* `beBytes k n`: the `k` low bytes of `n`, most significant first; `beNat` reads them back.
* `slice off len b`: the `len` bytes at offset `off`. `drop_eq_slice_append` puts a string together
  again from its slices, `slice_append` finds a slice where it was put.
-/

namespace MeshBus

def beBytes : Nat → Nat → List UInt8
  | 0, _ => []
  | k + 1, n => UInt8.ofNat (n / 256 ^ k) :: beBytes k n

def beNat : List UInt8 → Nat
  | [] => 0
  | b :: bs => b.toNat * 256 ^ bs.length + beNat bs

@[simp] theorem length_beBytes (k n : Nat) : (beBytes k n).length = k := by
  induction k with
  | zero => rfl
  | succ k ih => simp [beBytes, ih]

theorem beNat_lt (bs : List UInt8) : beNat bs < 256 ^ bs.length := by
  induction bs with
  | nil => simp [beNat]
  | cons b bs ih =>
    have hb := b.toNat_lt
    have hmul : b.toNat * 256 ^ bs.length ≤ 255 * 256 ^ bs.length :=
      Nat.mul_le_mul_right _ (by omega)
    simp only [beNat, List.length_cons, Nat.pow_succ]
    omega

/-- Multiples of `256 ^ k` do not reach the low `k` bytes. -/
theorem beBytes_add_mul (k c n : Nat) : beBytes k (c * 256 ^ k + n) = beBytes k n := by
  induction k generalizing c with
  | zero => rfl
  | succ k ih =>
    have hsplit : c * 256 ^ (k + 1) + n = c * 256 * 256 ^ k + n := by ring
    have hdiv : (c * 256 * 256 ^ k + n) / 256 ^ k = c * 256 + n / 256 ^ k := by
      rw [Nat.add_comm, Nat.add_mul_div_right _ _ (by positivity), Nat.add_comm]
    have hhead : UInt8.ofNat (c * 256 + n / 256 ^ k) = UInt8.ofNat (n / 256 ^ k) := by
      apply UInt8.toNat_inj.mp
      simp only [UInt8.toNat_ofNat']
      omega
    simp only [beBytes]
    rw [hsplit, hdiv, hhead, ih]

theorem beBytes_beNat (bs : List UInt8) : beBytes bs.length (beNat bs) = bs := by
  induction bs with
  | nil => rfl
  | cons b bs ih =>
    have hlt := beNat_lt bs
    have hdiv : (b.toNat * 256 ^ bs.length + beNat bs) / 256 ^ bs.length = b.toNat := by
      rw [Nat.add_comm, Nat.add_mul_div_right _ _ (by positivity), Nat.div_eq_of_lt hlt,
        Nat.zero_add]
    simp only [beNat, List.length_cons, beBytes]
    rw [hdiv, beBytes_add_mul, ih, UInt8.ofNat_toNat]

theorem beNat_beBytes {k n : Nat} (h : n < 256 ^ k) : beNat (beBytes k n) = n := by
  induction k generalizing n with
  | zero =>
    simp only [Nat.pow_zero] at h
    simp only [beBytes, beNat]
    omega
  | succ k ih =>
    have hpos : 0 < 256 ^ k := by positivity
    have hdiv : n / 256 ^ k < 256 := by
      rw [Nat.div_lt_iff_lt_mul hpos]
      rw [Nat.pow_succ] at h
      omega
    have hmod : beBytes k n = beBytes k (n % 256 ^ k) := by
      have := beBytes_add_mul k (n / 256 ^ k) (n % 256 ^ k)
      rwa [Nat.mul_comm, Nat.div_add_mod] at this
    simp only [beBytes, beNat, length_beBytes]
    rw [hmod, ih (Nat.mod_lt _ hpos), UInt8.toNat_ofNat', Nat.mod_eq_of_lt hdiv]
    have := Nat.div_add_mod n (256 ^ k)
    rw [Nat.mul_comm] at this
    exact this

section Slice

variable {α : Type*}

/-- The `len` elements at offset `off`: `b[off..off + len]`. -/
def slice (off len : Nat) (b : List α) : List α := (b.drop off).take len

theorem length_slice {off len : Nat} {b : List α} (h : off + len ≤ b.length) :
    (slice off len b).length = len := by
  rw [slice, List.length_take, List.length_drop]
  omega

/-- A string is its first slices followed by the rest. -/
theorem drop_eq_slice_append (off len : Nat) (b : List α) :
    b.drop off = slice off len b ++ b.drop (off + len) := by
  rw [slice, ← List.drop_drop, List.take_append_drop]

theorem slice_append_left {off len : Nat} {a b : List α} (h : off + len ≤ a.length) :
    slice off len (a ++ b) = slice off len a := by
  rw [slice, slice, List.drop_append_of_le_length (by omega),
    List.take_append_of_le_length (by rw [List.length_drop]; omega)]

theorem take_add_slice (off len : Nat) (b : List α) :
    b.take (off + len) = b.take off ++ slice off len b := List.take_add

theorem slice_add (off m n : Nat) (b : List α) :
    slice off (m + n) b = slice off m b ++ slice (off + m) n b := by
  rw [slice, slice, slice, List.take_add, List.drop_drop]

theorem slice_zero_append {len : Nat} {a b : List α} (h : a.length = len) :
    slice 0 len (a ++ b) = a := by
  rw [slice, List.drop_zero, List.take_left' h]

theorem slice_append_right {off len : Nat} {a b : List α} (h : a.length ≤ off) :
    slice off len (a ++ b) = slice (off - a.length) len b := by
  rw [slice, slice, List.drop_append, List.drop_eq_nil_of_le h, List.nil_append]

/-- The slice of a string at the place where it was put. -/
theorem slice_append {off len : Nat} {a b c : List α} (ha : a.length = off) (hb : b.length = len) :
    slice off len (a ++ (b ++ c)) = b := by
  subst ha hb
  simp [slice]

end Slice

end MeshBus
