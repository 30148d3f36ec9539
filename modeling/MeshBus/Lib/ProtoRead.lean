import MeshBus.Lib.Proto

/-!
# Lib.ProtoRead

Reading the proto3 wire format. A message is read as the list of its fields; a field the reader does
not ask for is skipped, the last value of a singular field counts, and the values of a repeated
field are kept in order. Reading the fields a writer wrote gives them back (`readFields_flatMap`).
-/

namespace MeshBus
namespace Proto

/-! ## Varints -/

/-- At most `fuel` more groups after the first. -/
def readVarintFor : Nat → List UInt8 → Option (Nat × List UInt8)
  | _, [] => none
  | 0, b :: rest => if b.toNat < 128 then some (b.toNat, rest) else none
  | fuel + 1, b :: rest =>
    if b.toNat < 128 then some (b.toNat, rest)
    else (readVarintFor fuel rest).map fun r => (b.toNat - 128 + 128 * r.1, r.2)

def readVarint (bytes : List UInt8) : Option (Nat × List UInt8) := readVarintFor 9 bytes

theorem readVarintFor_varintFor {fuel n : Nat} (h : n < 128 ^ (fuel + 1)) (rest : List UInt8) :
    readVarintFor fuel (varintFor fuel n ++ rest) = some (n, rest) := by
  have hlast : ∀ {fuel n : Nat}, n < 128 →
      readVarintFor fuel ([UInt8.ofNat n] ++ rest) = some (n, rest) := by
    intro fuel n hn
    have hval : (UInt8.ofNat n).toNat = n := UInt8.toNat_ofNat_of_lt' (by unfold UInt8.size; omega)
    cases fuel with
    | zero => rw [List.singleton_append, readVarintFor, hval, if_pos hn]
    | succ fuel => rw [List.singleton_append, readVarintFor, hval, if_pos hn]
  induction fuel generalizing n with
  | zero => exact hlast (by omega)
  | succ fuel ih =>
    rw [varintFor]
    split
    · rename_i hn
      exact hlast hn
    · rename_i hn
      have hdiv : n / 128 < 128 ^ (fuel + 1) := by
        rw [Nat.div_lt_iff_lt_mul (by omega), ← Nat.pow_succ]
        exact h
      have hval : (UInt8.ofNat (n % 128 + 128)).toNat = n % 128 + 128 :=
        UInt8.toNat_ofNat_of_lt' (by unfold UInt8.size; omega)
      rw [List.cons_append, readVarintFor, hval, if_neg (by omega)]
      simp only [ih hdiv, Option.map_some, Nat.add_sub_cancel, Nat.mod_add_div]

theorem readVarint_varint {n : Nat} (h : n < 2 ^ 64) (rest : List UInt8) :
    readVarint (varint n ++ rest) = some (n, rest) :=
  readVarintFor_varintFor (by omega) rest

/-! ## Fields -/

inductive Value where
  | varint (n : Nat)
  | len (content : List UInt8)
deriving DecidableEq

structure Field where
  number : Nat
  value : Value
deriving DecidableEq

namespace Field

def encode (f : Field) : List UInt8 :=
  match f.value with
  | .varint n => key f.number 0 ++ varint n
  | .len content => lenField f.number content

/-- The numbers a varint carries without loss. -/
def Fits (f : Field) : Prop :=
  f.number < 2 ^ 60 ∧
    match f.value with
    | .varint n => n < 2 ^ 64
    | .len content => content.length < 2 ^ 64

/-- The value, if it is a number and for field `k`. -/
def varint? (k : Nat) (f : Field) : Option Nat :=
  match f.value with
  | .varint n => if f.number = k then some n else none
  | .len _ => none

/-- The content, if it is bytes and for field `k`. -/
def len? (k : Nat) (f : Field) : Option (List UInt8) :=
  match f.value with
  | .varint _ => none
  | .len content => if f.number = k then some content else none

end Field

def readField (bytes : List UInt8) : Option (Field × List UInt8) := do
  let (head, rest) ← readVarint bytes
  let (n, rest) ← readVarint rest
  match head % 8 with
  | 0 => some (⟨head / 8, .varint n⟩, rest)
  | 2 => if n ≤ rest.length then some (⟨head / 8, .len (rest.take n)⟩, rest.drop n) else none
  | _ => none

/-- Every field takes a byte at least, so there are at most `fuel` fields in as many bytes. -/
def readFieldsFor : Nat → List UInt8 → Option (List Field)
  | 0, bytes => if bytes.isEmpty then some [] else none
  | fuel + 1, bytes =>
    if bytes.isEmpty then some []
    else do
      let (f, rest) ← readField bytes
      let fields ← readFieldsFor fuel rest
      some (f :: fields)

def readFields (bytes : List UInt8) : Option (List Field) := readFieldsFor bytes.length bytes

theorem varint_ne_nil (n : Nat) : varint n ≠ [] := by
  rw [varint, varintFor]
  split <;> simp

theorem Field.encode_ne_nil (f : Field) : f.encode ≠ [] := by
  rw [encode]
  split
  · simp [key, varint_ne_nil]
  · simp [lenField, key, varint_ne_nil]

theorem readField_encode {f : Field} (h : f.Fits) (rest : List UInt8) :
    readField (f.encode ++ rest) = some (f, rest) := by
  obtain ⟨number, value⟩ := f
  obtain ⟨hnumber, hvalue⟩ := h
  have hnumber : number < 2 ^ 60 := hnumber
  cases value with
  | varint n =>
    have hn : n < 2 ^ 64 := hvalue
    have h1 := readVarint_varint (n := number * 8 + 0) (by omega) (varint n ++ rest)
    have h2 := readVarint_varint hn rest
    have hmod : (number * 8 + 0) % 8 = 0 := by omega
    have hdiv : (number * 8 + 0) / 8 = number := by omega
    simp only [Field.encode, key, readField, List.append_assoc, h1, h2, bind, Option.bind_some,
      hmod, hdiv]
  | len content =>
    have hlen : content.length < 2 ^ 64 := hvalue
    have h1 := readVarint_varint (n := number * 8 + 2) (by omega)
      (varint content.length ++ (content ++ rest))
    have h2 := readVarint_varint hlen (content ++ rest)
    have hmod : (number * 8 + 2) % 8 = 2 := by omega
    have hdiv : (number * 8 + 2) / 8 = number := by omega
    simp only [Field.encode, lenField, key, readField, List.append_assoc, h1, h2, bind,
      Option.bind_some, hmod, hdiv, List.length_append, Nat.le_add_right, if_true, List.take_left,
      List.drop_left]

theorem readFieldsFor_flatMap {fields : List Field} (h : ∀ f ∈ fields, f.Fits) {fuel : Nat}
    (hfuel : fields.length ≤ fuel) :
    readFieldsFor fuel (fields.flatMap Field.encode) = some fields := by
  induction fields generalizing fuel with
  | nil => cases fuel <;> rfl
  | cons f fields ih =>
    cases fuel with
    | zero => simp at hfuel
    | succ fuel =>
      have hrest := ih (fun g hg => h g (List.mem_cons_of_mem _ hg)) (Nat.le_of_succ_le_succ hfuel)
      have hne : ((f :: fields).flatMap Field.encode).isEmpty = false := by
        simp [f.encode_ne_nil]
      rw [readFieldsFor, hne]
      simp only [Bool.false_eq_true, if_false, List.flatMap_cons, bind,
        readField_encode (h f List.mem_cons_self), Option.bind_some, hrest]

/-- Reading the fields that were written gives them back. -/
theorem readFields_flatMap {fields : List Field} (h : ∀ f ∈ fields, f.Fits) :
    readFields (fields.flatMap Field.encode) = some fields := by
  refine readFieldsFor_flatMap h ?_
  rw [List.length_flatMap]
  rw [← List.length_map (fun f : Field => f.encode.length)]
  refine List.length_le_sum_of_one_le _ ?_
  intro n hn
  obtain ⟨f, -, rfl⟩ := List.mem_map.mp hn
  exact List.length_pos_iff.mpr f.encode_ne_nil

/-! ## Messages -/

/-- A singular field of a message, as a writer lists it. -/
def singularVarint (k n : Nat) : List Field := if n = 0 then [] else [⟨k, .varint n⟩]

def singularBytes (k : Nat) (content : List UInt8) : List Field :=
  if content = [] then [] else [⟨k, .len content⟩]

def repeatedBytes (k : Nat) (contents : List (List UInt8)) : List Field :=
  contents.map fun content => ⟨k, .len content⟩

/-- What a reader makes of the fields of a message: 0 stands for a number that is not there. -/
def varintOf (k : Nat) (fields : List Field) : Nat :=
  (fields.filterMap (Field.varint? k)).getLast?.getD 0

def bytesOf (k : Nat) (fields : List Field) : List UInt8 :=
  (fields.filterMap (Field.len? k)).getLast?.getD []

def repeatedOf (k : Nat) (fields : List Field) : List (List UInt8) :=
  fields.filterMap (Field.len? k)

section Writers

variable (j k n : Nat) (content : List UInt8) (contents : List (List UInt8))

theorem flatMap_singularVarint :
    (singularVarint k n).flatMap Field.encode = varintField k n := by
  rw [singularVarint, varintField]
  split <;> simp [Field.encode]

theorem flatMap_singularBytes :
    (singularBytes k content).flatMap Field.encode = bytesField k content := by
  rw [singularBytes, bytesField]
  split <;> simp [Field.encode]

theorem flatMap_repeatedBytes :
    (repeatedBytes k contents).flatMap Field.encode = contents.flatMap (lenField k) := by
  rw [repeatedBytes, List.flatMap_map]
  rfl

@[simp] theorem varint?_singularVarint : (singularVarint j n).filterMap (Field.varint? k) =
    if j = k then if n = 0 then [] else [n] else [] := by
  rw [singularVarint]
  by_cases hn : n = 0
  · simp [hn]
  · by_cases hjk : j = k <;> simp [hn, hjk, Field.varint?]

@[simp] theorem varint?_singularBytes :
    (singularBytes j content).filterMap (Field.varint? k) = [] := by
  rw [singularBytes]
  split <;> simp [Field.varint?]

@[simp] theorem varint?_repeatedBytes :
    (repeatedBytes j contents).filterMap (Field.varint? k) = [] := by
  simp [repeatedBytes, Field.varint?]

@[simp] theorem len?_singularVarint : (singularVarint j n).filterMap (Field.len? k) = [] := by
  rw [singularVarint]
  split <;> simp [Field.len?]

@[simp] theorem len?_singularBytes : (singularBytes j content).filterMap (Field.len? k) =
    if j = k then if content = [] then [] else [content] else [] := by
  rw [singularBytes]
  by_cases hc : content = []
  · simp [hc]
  · by_cases hjk : j = k <;> simp [hc, hjk, Field.len?]

@[simp] theorem len?_repeatedBytes : (repeatedBytes j contents).filterMap (Field.len? k) =
    if j = k then contents else [] := by
  rw [repeatedBytes, List.filterMap_map]
  split
  · rename_i hjk
    simp [Field.len?, hjk]
  · rename_i hjk
    simp [Field.len?, hjk]

/-- A default value that was not written is read as the default. -/
@[simp] theorem getLast_number : (if n = 0 then [] else [n]).getLast?.getD 0 = n := by
  split
  · rename_i hn
    exact hn.symm
  · rfl

@[simp] theorem getLast_bytes :
    (if content = [] then [] else [content]).getLast?.getD [] = content := by
  split
  · rename_i hc
    exact hc.symm
  · rfl

end Writers

theorem fits_singularVarint {k n : Nat} (hk : k < 2 ^ 60) (hn : n < 2 ^ 64) :
    ∀ f ∈ singularVarint k n, f.Fits := by
  rw [singularVarint]
  split
  · simp
  · intro f hf
    rw [List.mem_singleton.mp hf]
    exact ⟨hk, hn⟩

theorem fits_singularBytes {k : Nat} {content : List UInt8} (hk : k < 2 ^ 60)
    (hc : content.length < 2 ^ 64) : ∀ f ∈ singularBytes k content, f.Fits := by
  rw [singularBytes]
  split
  · simp
  · intro f hf
    rw [List.mem_singleton.mp hf]
    exact ⟨hk, hc⟩

theorem fits_repeatedBytes {k : Nat} {contents : List (List UInt8)} (hk : k < 2 ^ 60)
    (hc : ∀ content ∈ contents, content.length < 2 ^ 64) :
    ∀ f ∈ repeatedBytes k contents, f.Fits := by
  intro f hf
  obtain ⟨content, hmem, rfl⟩ := List.mem_map.mp hf
  exact ⟨hk, hc content hmem⟩

/-- How the messages of one type are written as fields and put together again. -/
structure Layout (α : Type*) where
  fields : α → List Field
  build : List Field → Option α
  /-- The messages whose contents have a length that a varint carries. -/
  Ok : α → Prop
  fits : ∀ m, Ok m → ∀ f ∈ fields m, f.Fits
  build_fields : ∀ m, Ok m → build (fields m) = some m

namespace Layout

variable {α : Type*} (layout : Layout α)

def encode (m : α) : List UInt8 := (layout.fields m).flatMap Field.encode

def read (bytes : List UInt8) : Option α := (readFields bytes).bind layout.build

theorem read_encode {m : α} (h : layout.Ok m) : layout.read (layout.encode m) = some m := by
  rw [read, encode, readFields_flatMap (layout.fits m h), Option.bind_some, layout.build_fields m h]

/-- The elements of a repeated message field. -/
theorem mapM_read {ms : List α} (h : ∀ m ∈ ms, layout.Ok m) :
    (ms.map layout.encode).mapM layout.read = some ms := by
  induction ms with
  | nil => rfl
  | cons m ms ih =>
    have hm := layout.read_encode (h m List.mem_cons_self)
    have hms := ih fun x hx => h x (List.mem_cons_of_mem _ hx)
    simp only [List.map_cons, List.mapM_cons, hm, hms]
    rfl

end Layout

end Proto
end MeshBus
