import Mathlib

/-!
# Storage/Units — the rows of a node and the units they are placed by

A store's rows are bytes under bytes.  Those under `systemPrefix` are the node's own and are never
replicated; the others lie in three families, each by namespace and slot, and one slot of one
namespace is a **unit**.  The slot of a key is a hash of it, or of its tag (`slotForKey`).
-/

namespace Flint

open List

/-! ## Rows -/

abbrev Bytes := List UInt8

/-- What replication reads of a key and a value: whether the key is a node-local system row, and
the two lengths a byte budget counts. -/
class RowSpace (κ ν : Type) where
  /-- Node-local rows, which consume sequence numbers but never replicate. -/
  isSystem : κ → Bool
  keyLen : κ → ℕ
  valueLen : ν → ℕ

def systemPrefix : Bytes := [0x00, 0x66, 0x6c, 0x69, 0x6e, 0x74, 0x00]

instance : RowSpace Bytes Bytes where
  isSystem key := systemPrefix.isPrefixOf key
  keyLen := List.length
  valueLen := List.length

/-! ## The rows of a unit -/

/-- The families of rows. -/
inductive Cf
  | metadata
  | subkey
  | zScore
  deriving DecidableEq, Repr

def Cf.tag : Cf → UInt8
  | metadata => 0x4d
  | subkey => 0x53
  | zScore => 0x5a

def Cf.all : List Cf := [.metadata, .subkey, .zScore]

/-- A slot of a namespace. -/
structure SlotUnit where
  ns : Bytes
  slot : UInt16
  deriving DecidableEq, Repr

namespace SlotUnit

/-- The envelope after the family's byte: the namespace, preceded by its length, and the slot. -/
def suffix (u : SlotUnit) : Bytes :=
  UInt8.ofNat u.ns.length :: u.ns ++ [(u.slot >>> 8).toUInt8, u.slot.toUInt8]

def slotPrefix (u : SlotUnit) (cf : Cf) : Bytes := cf.tag :: u.suffix

def inCf (u : SlotUnit) (cf : Cf) (key : Bytes) : Bool := (u.slotPrefix cf).isPrefixOf key

def covers (u : SlotUnit) (key : Bytes) : Bool := Cf.all.any fun cf => u.inCf cf key

def migrationKey (u : SlotUnit) : Bytes :=
  systemPrefix ++ [0x6d, 0x69, 0x67, 0x72, 0x61, 0x74, 0x69, 0x6f, 0x6e, 0x00] ++ u.suffix

variable {u : SlotUnit} {key : Bytes}

theorem not_isSystem_of_covers (h : u.covers key) : RowSpace.isSystem Bytes key = false := by
  obtain ⟨cf, -, hcf⟩ := any_eq_true.mp h
  cases key with
  | nil => rfl
  | cons b bs =>
    have hb : cf.tag = b := by
      simp only [inCf, slotPrefix, List.isPrefixOf, Bool.and_eq_true, beq_iff_eq] at hcf
      exact hcf.1
    subst hb
    cases cf <;> rfl

theorem migrationKey_ne_of_covers (h : u.covers key) : u.migrationKey ≠ key := by
  rintro rfl
  have hsys : RowSpace.isSystem Bytes u.migrationKey = true := rfl
  rw [not_isSystem_of_covers h] at hsys
  cases hsys

end SlotUnit

/-! ## The slot of a key -/

def crcBit (crc : UInt16) : UInt16 :=
  if crc &&& 0x8000 ≠ 0 then (crc <<< 1) ^^^ 0x1021 else crc <<< 1

def crcByte (crc : UInt16) (byte : UInt8) : UInt16 :=
  (range 8).foldl (fun crc _ => crcBit crc) (crc ^^^ byte.toUInt16 <<< (8 : UInt16))

def crc16 (data : Bytes) : UInt16 := data.foldl crcByte 0

/-- What is hashed of a key: what stands between the first opening brace and the first closing one
after it, if anything does, and else all of it. -/
def hashTag (key : Bytes) : Bytes :=
  match key.findIdx? (· == 0x7b) with
  | none => key
  | some start =>
    match (key.drop (start + 1)).findIdx? (· == 0x7d) with
    | none => key
    | some n => if 0 < n then (key.drop (start + 1)).take n else key

def slotForKey (key : Bytes) : ℕ := (crc16 (hashTag key)).toNat % 16384

def keyBytes (k : String) : Bytes := k.toList.map fun c => UInt8.ofNat c.toNat

example : slotForKey (keyBytes "foo") = 12182 ∧ slotForKey (keyBytes "bar") = 5061 := by
  decide +kernel

end Flint
