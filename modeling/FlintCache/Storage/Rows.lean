import FlintCache.Storage.Units

/-!
# Storage/Rows — which key a row belongs to

A key's rows lie in three families: its metadata row, the rows of its fields and, for a sorted set,
the index by score.  The last two frame the key by its length in two bytes; their builders refuse a
key that does not fit.  `rowOwner` reads back the key a row was built for (`rowOwner_metaKey`,
`rowOwner_subkeyPrefix`).
-/

namespace Flint

open List

/-! ## The header of a metadata row

One byte of flags and eight of expiry, big-endian; the rest is the type's own. -/

abbrev Row := List UInt8

def fromBeBytes (bytes : List UInt8) : ℕ := bytes.foldl (fun n b => n * 256 + b.toNat) 0

structure MetaHeader where
  flags : UInt8
  /-- When the row expires; `0` is never. -/
  expireMs : ℕ
  deriving DecidableEq, Repr

def headerLen : ℕ := 9

def MetaHeader.decode (row : Row) : Option MetaHeader :=
  match row with
  | flags :: rest =>
    if row.length < headerLen then none else some ⟨flags, fromBeBytes (rest.take 8)⟩
  | [] => none

def MetaHeader.isExpired (h : MetaHeader) (nowMs : ℕ) : Bool := h.expireMs ≠ 0 && h.expireMs ≤ nowMs

/-- **A row a read finds expired.**  A row without a header is never found so. -/
def Row.isExpired (row : Row) (nowMs : ℕ) : Bool :=
  (MetaHeader.decode row).any fun h => h.isExpired nowMs

/-! ## The rows of a key -/

def be16 (n : ℕ) : Bytes := [UInt8.ofNat (n / 256), UInt8.ofNat n]

def fromBe16 (hi lo : UInt8) : ℕ := hi.toNat * 256 + lo.toNat

def be64 (n : UInt64) : Bytes :=
  [(n >>> 56).toUInt8, (n >>> 48).toUInt8, (n >>> 40).toUInt8, (n >>> 32).toUInt8,
    (n >>> 24).toUInt8, (n >>> 16).toUInt8, (n >>> 8).toUInt8, n.toUInt8]

def frameMax : ℕ := 65535

def metaKey (u : SlotUnit) (key : Bytes) : Bytes := u.slotPrefix .metadata ++ key

/-- What the rows of one version of a key start with, in either family.  The builders assert that
the key fits the frame. -/
def subkeyPrefix (u : SlotUnit) (cf : Cf) (key : Bytes) (version : UInt64) : Option Bytes :=
  if key.length ≤ frameMax then some (u.slotPrefix cf ++ be16 key.length ++ key ++ be64 version)
  else none

def rowOwner : Bytes → Option (Bytes × Bytes)
  | cf :: nsLen :: rest =>
    if nsLen.toNat + 2 ≤ rest.length then
      let ns := rest.take nsLen.toNat
      let body := rest.drop (nsLen.toNat + 2)
      if cf = Cf.metadata.tag then some (ns, body)
      else if cf = Cf.subkey.tag ∨ cf = Cf.zScore.tag then
        match body with
        | hi :: lo :: body =>
          if fromBe16 hi lo ≤ body.length then some (ns, body.take (fromBe16 hi lo)) else none
        | _ => none
      else none
    else none
  | _ => none

theorem fromBe16_be16 {n : ℕ} (h : n ≤ frameMax) :
    fromBe16 (UInt8.ofNat (n / 256)) (UInt8.ofNat n) = n := by
  simp only [fromBe16, UInt8.toNat_ofNat', frameMax] at h ⊢
  omega

variable {u : SlotUnit} {key : Bytes} {version : UInt64}

section

variable (hns : u.ns.length ≤ 255)
include hns

theorem rowOwner_slotPrefix (cf : Cf) (body : Bytes) :
    rowOwner (u.slotPrefix cf ++ body) = if cf = .metadata then some (u.ns, body)
      else match body with
        | hi :: lo :: body =>
          if fromBe16 hi lo ≤ body.length then some (u.ns, body.take (fromBe16 hi lo)) else none
        | _ => none := by
  have hlen : (UInt8.ofNat u.ns.length).toNat = u.ns.length := by
    rw [UInt8.toNat_ofNat']
    omega
  have htake : (u.ns ++ [(u.slot >>> 8).toUInt8, u.slot.toUInt8] ++ body).take u.ns.length =
      u.ns := by
    rw [append_assoc, take_left' rfl]
  have hdrop : (u.ns ++ [(u.slot >>> 8).toUInt8, u.slot.toUInt8] ++ body).drop (u.ns.length + 2) =
      body := drop_left' (by simp)
  have hbound : u.ns.length + 2 ≤
      (u.ns ++ [(u.slot >>> 8).toUInt8, u.slot.toUInt8] ++ body).length := by simp
  rw [SlotUnit.slotPrefix, SlotUnit.suffix, cons_append, cons_append, cons_append,
    rowOwner, hlen, if_pos hbound, htake, hdrop]
  cases cf with
  | _ => rfl

theorem rowOwner_metaKey : rowOwner (metaKey u key) = some (u.ns, key) := by
  rw [metaKey, rowOwner_slotPrefix hns, if_pos rfl]

theorem rowOwner_subkeyPrefix {cf : Cf} (hcf : cf ≠ .metadata)
    {row : Bytes} (h : subkeyPrefix u cf key version = some row) (field : Bytes) :
    rowOwner (row ++ field) = some (u.ns, key) := by
  obtain ⟨hkey, ⟨⟩⟩ := Option.ite_none_right_eq_some.mp h
  have hbody : u.slotPrefix cf ++ be16 key.length ++ key ++ be64 version ++ field =
      u.slotPrefix cf ++ (UInt8.ofNat (key.length / 256) :: UInt8.ofNat key.length ::
        (key ++ (be64 version ++ field))) := by simp [be16]
  rw [hbody, rowOwner_slotPrefix hns, if_neg hcf]
  simp only [fromBe16_be16 hkey]
  rw [if_pos (by simp), take_left' rfl]

end

theorem subkeyPrefix_isSome {cf : Cf} :
    (subkeyPrefix u cf key version).isSome = true ↔ key.length ≤ frameMax := by
  unfold subkeyPrefix
  split
  · next h => exact iff_of_true rfl h
  · next h => exact iff_of_false nofun h

end Flint
