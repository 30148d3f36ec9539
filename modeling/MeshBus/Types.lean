import MeshBus.Lib.OrdMap

/-!
# Types

The shared types of the mesh bus (`mb-types`) and the machine arithmetic the crates use.

A `NodeId` is 32 bytes, compared byte by byte. `LinkId` and `MonoTime` wrap a `u64`; both are
natural numbers here, and the places where the source saturates, checks or wraps say so with
`satAdd`, an explicit bound or `% 2 ^ 64`. A `String` of the source is its UTF-8 bytes: `len`,
`is_empty`, `==` and `Ord` of a Rust string all read the bytes.
-/

namespace MeshBus

abbrev Bytes := List UInt8

instance linearOrderUInt8 : LinearOrder UInt8 :=
  LinearOrder.lift' UInt8.toNat fun _ _ h => UInt8.toNat_inj.mp h

def u32Max : Nat := 2 ^ 32 - 1

def u64Max : Nat := 2 ^ 64 - 1

/-- `saturating_add` on `u64` and on a 64-bit `usize`. -/
def satAdd (a b : Nat) : Nat := min (a + b) u64Max

/-- `saturating_mul` on `u64` and on a 64-bit `usize`. -/
def satMul (a b : Nat) : Nat := min (a * b) u64Max

theorem satAdd_eq {a b : Nat} (h : a + b ≤ u64Max) : satAdd a b = a + b := Nat.min_eq_left h

theorem satMul_eq {a b : Nat} (h : a * b ≤ u64Max) : satMul a b = a * b := Nat.min_eq_left h

/-- Stable identity of a mesh node. -/
structure NodeId where
  bytes : Bytes
  length_bytes : bytes.length = 32
deriving DecidableEq

namespace NodeId

/-- Byte arrays compare lexicographically. -/
instance : LinearOrder NodeId :=
  LinearOrder.lift' bytes fun a b h => by cases a; cases b; cases h; rfl

/-- `NodeId::default()`: all bytes zero. -/
instance : Inhabited NodeId := ⟨⟨List.replicate 32 0, by simp⟩⟩

/-- The id whose last byte is `value` and whose other bytes are zero. -/
def ofByte (value : UInt8) : NodeId := ⟨List.replicate 31 0 ++ [value], by simp⟩

end NodeId

/-- Identifier of one local link incarnation; a reconnect creates a new one. -/
abbrev LinkId := Nat

/-- Milliseconds from an epoch that the runtime defines. -/
abbrev MonoTime := Nat

end MeshBus
