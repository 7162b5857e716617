import FlintCache.Storage.Rows

/-!
# Storage/RowKeys — a row's bytes say whose it is

A row's key is its family's byte, the namespace behind its length, the slot, and then the user key:
bare in a metadata row, which ends with it, and behind its length in the rows of fields and of
scores, where the version and the field follow.  Nothing separates the parts but the two lengths,
and the parts may hold any byte.
-/

namespace Flint

open List SlotUnit UInt8

/-! ## Rows -/

/-- Where a key's rows are: a slot of a namespace, and a key that the frame holds. -/
structure RowAddr where
  unit : SlotUnit
  key : Bytes
  ns_le : unit.ns.length ≤ 255
  key_le : key.length ≤ frameMax

/-- The rows there are, by what they are built from.  A score is its sixty-four bits. -/
inductive RowName
  | metadata (addr : RowAddr)
  | subkey (addr : RowAddr) (version : UInt64) (field : Bytes)
  | zScore (addr : RowAddr) (version : UInt64) (score : UInt64) (member : Bytes)

def signBit : UInt64 := (1 : UInt64) <<< 63

def encodeScore (bits : UInt64) : UInt64 :=
  if bits &&& signBit ≠ 0 then ~~~bits else bits ||| signBit

def decodeScore (e : UInt64) : UInt64 := if e &&& signBit ≠ 0 then e &&& ~~~signBit else ~~~e

/-- A frame: what the rows of one version of a key start with, once the key fits it. -/
def framed (u : SlotUnit) (cf : Cf) (key : Bytes) (version : UInt64) : Bytes :=
  u.slotPrefix cf ++ (be16 key.length ++ (key ++ be64 version))

namespace RowName

def family : RowName → Cf
  | metadata .. => .metadata
  | subkey .. => .subkey
  | zScore .. => .zScore

def addr : RowName → RowAddr
  | metadata addr => addr
  | subkey addr .. => addr
  | zScore addr .. => addr

def version : RowName → Option UInt64
  | metadata _ => none
  | subkey _ version _ => some version
  | zScore _ version .. => some version

def encode : RowName → Bytes
  | metadata addr => metaKey addr.unit addr.key
  | subkey addr version field => framed addr.unit .subkey addr.key version ++ field
  | zScore addr version score member =>
    framed addr.unit .zScore addr.key version ++ (be64 (encodeScore score) ++ member)

end RowName

def nsPrefix (ns : Bytes) (cf : Cf) : Bytes := cf.tag :: UInt8.ofNat ns.length :: ns

/-! ## Reading a row back -/

def fromBe64 (b₇ b₆ b₅ b₄ b₃ b₂ b₁ b₀ : UInt8) : UInt64 :=
  UInt64.ofNat (b₇.toNat * 2 ^ 56 + b₆.toNat * 2 ^ 48 + b₅.toNat * 2 ^ 40 + b₄.toNat * 2 ^ 32 +
    b₃.toNat * 2 ^ 24 + b₂.toNat * 2 ^ 16 + b₁.toNat * 2 ^ 8 + b₀.toNat)

def nsOfEnvelope : Bytes → Option Bytes
  | cf :: nsLen :: rest =>
    if cf = Cf.metadata.tag ∨ cf = Cf.subkey.tag ∨ cf = Cf.zScore.tag then
      if nsLen.toNat ≤ rest.length then some (rest.take nsLen.toNat) else none
    else none
  | _ => none

def parseFrame : Bytes → Option (Bytes × UInt64)
  | hi :: lo :: rest =>
    if fromBe16 hi lo ≤ rest.length then
      match rest.drop (fromBe16 hi lo) with
      | b₇ :: b₆ :: b₅ :: b₄ :: b₃ :: b₂ :: b₁ :: b₀ :: _ =>
        some (rest.take (fromBe16 hi lo), fromBe64 b₇ b₆ b₅ b₄ b₃ b₂ b₁ b₀)
      | _ => none
    else none
  | _ => none

def parseSubkeyEnvelope : Bytes → Option (Bytes × UInt16 × Bytes × UInt64)
  | cf :: nsLen :: rest =>
    if cf = Cf.subkey.tag ∨ cf = Cf.zScore.tag then
      if nsLen.toNat ≤ rest.length then
        match rest.drop nsLen.toNat with
        | hi :: lo :: body =>
          (parseFrame body).map fun frame =>
            (rest.take nsLen.toNat, UInt16.ofNat (fromBe16 hi lo), frame.1, frame.2)
        | _ => none
      else none
    else none
  | _ => none

/-! ## Numbers and their bytes -/

theorem Cf.tag_injective : Function.Injective Cf.tag := by
  intro a b h
  cases a <;> cases b <;> first | rfl | cases h

theorem fromBe16_slot (slot : UInt16) :
    UInt16.ofNat (fromBe16 (slot >>> 8).toUInt8 slot.toUInt8) = slot := by
  refine UInt16.toNat_inj.mp ?_
  have h := slot.toNat_lt
  simp [fromBe16, Nat.shiftRight_eq_div_pow] at h ⊢
  omega

theorem fromBe64_be64 (n : UInt64) :
    fromBe64 (n >>> 56).toUInt8 (n >>> 48).toUInt8 (n >>> 40).toUInt8 (n >>> 32).toUInt8
      (n >>> 24).toUInt8 (n >>> 16).toUInt8 (n >>> 8).toUInt8 n.toUInt8 = n := by
  refine UInt64.toNat_inj.mp ?_
  have h := n.toNat_lt
  simp [fromBe64, Nat.shiftRight_eq_div_pow] at h ⊢
  omega

theorem length_be64 (n : UInt64) : (be64 n).length = 8 := rfl

theorem be64_injective : Function.Injective be64 := by
  intro n m h
  simp only [be64, cons.injEq, and_true] at h
  obtain ⟨h₇, h₆, h₅, h₄, h₃, h₂, h₁, h₀⟩ := h
  rw [← fromBe64_be64 n, ← fromBe64_be64 m, h₇, h₆, h₅, h₄, h₃, h₂, h₁, h₀]

theorem and_signBit_eq_zero {b : UInt64} : b &&& signBit = 0 ↔ b.toNat < 2 ^ 63 := by
  have h : signBit.toBitVec = BitVec.twoPow 64 63 := by decide
  rw [← UInt64.toBitVec_inj, UInt64.toBitVec_and, h, BitVec.and_twoPow, ← UInt64.toNat_toBitVec]
  have hmsb := BitVec.msb_eq_decide b.toBitVec
  rw [BitVec.msb_eq_getLsbD_last] at hmsb
  rw [hmsb]
  simp

theorem toNat_encodeScore (bits : UInt64) : (encodeScore bits).toNat =
    if bits.toNat < 2 ^ 63 then 2 ^ 63 + bits.toNat else 2 ^ 64 - 1 - bits.toNat := by
  unfold encodeScore
  split
  · next h =>
    rw [if_neg fun hlt => h (and_signBit_eq_zero.mpr hlt)]
    exact UInt64.toNat_not ..
  · next h =>
    have hlt := and_signBit_eq_zero.mp (not_not.mp h)
    rw [if_pos hlt, UInt64.toNat_or, Nat.or_comm]
    exact (Nat.two_pow_add_eq_or_of_lt hlt 1).symm

theorem toNat_decodeScore (e : UInt64) : (decodeScore e).toNat =
    if e.toNat < 2 ^ 63 then 2 ^ 64 - 1 - e.toNat else e.toNat % 2 ^ 63 := by
  unfold decodeScore
  split
  · next h =>
    rw [if_neg fun hlt => h (and_signBit_eq_zero.mpr hlt), UInt64.toNat_and]
    exact Nat.and_two_pow_sub_one_eq_mod _ 63
  · next h =>
    rw [if_pos (and_signBit_eq_zero.mp (not_not.mp h))]
    exact UInt64.toNat_not ..

theorem decodeScore_encodeScore (bits : UInt64) : decodeScore (encodeScore bits) = bits := by
  have h := bits.toNat_lt
  refine UInt64.toNat_inj.mp ?_
  rw [toNat_decodeScore, toNat_encodeScore]
  split_ifs <;> omega

theorem encodeScore_injective : Function.Injective encodeScore :=
  Function.LeftInverse.injective decodeScore_encodeScore

/-! ## What stands behind an envelope, and behind a frame -/

section Inj

variable {u u' : SlotUnit} {cf cf' : Cf} {key key' body body' : Bytes} {version version' : UInt64}

theorem be64_append_inj :
    be64 version ++ body = be64 version' ++ body' ↔ version = version' ∧ body = body' := by
  refine ⟨fun h => ?_, fun ⟨hv, hbody⟩ => by rw [hv, hbody]⟩
  -- The lengths by a lemma: left to unfolding, the kernel compares the bytes first.
  obtain ⟨hv, hbody⟩ := append_inj h ((length_be64 _).trans (length_be64 _).symm)
  exact ⟨be64_injective hv, hbody⟩

section

variable (hkey : key.length ≤ frameMax)
include hkey

theorem be16_append_inj (hkey' : key'.length ≤ frameMax) :
    be16 key.length ++ (key ++ body) = be16 key'.length ++ (key' ++ body') ↔
      key = key' ∧ body = body' := by
  refine ⟨fun h => ?_, fun ⟨hk, hbody⟩ => by rw [hk, hbody]⟩
  simp only [be16, cons_append, cons.injEq, nil_append] at h
  obtain ⟨hhi, hlo, h⟩ := h
  have hlen : key.length = key'.length := by
    rw [← fromBe16_be16 hkey, hhi, hlo, fromBe16_be16 hkey']
  exact append_inj h hlen

theorem subkeyPrefix_eq_framed :
    subkeyPrefix u cf key version = some (framed u cf key version) := by
  rw [subkeyPrefix, if_pos hkey, framed]
  simp only [append_assoc]

theorem parseFrame_append :
    parseFrame (be16 key.length ++ (key ++ (be64 version ++ body))) = some (key, version) := by
  rw [be16, cons_append, cons_append, nil_append, parseFrame, fromBe16_be16 hkey,
    if_pos (by simp), drop_left' rfl, take_left' rfl]
  simp only [be64, cons_append, fromBe64_be64]

end

section

variable (hns : u.ns.length ≤ 255)
include hns

theorem slotPrefix_append_inj (hns' : u'.ns.length ≤ 255) :
    u.slotPrefix cf ++ body = u'.slotPrefix cf' ++ body' ↔ cf = cf' ∧ u = u' ∧ body = body' := by
  refine ⟨fun h => ?_, fun ⟨hcf, hu, hbody⟩ => by rw [hcf, hu, hbody]⟩
  simp only [slotPrefix, suffix, cons_append, List.cons.injEq, append_assoc] at h
  obtain ⟨htag, hlen, h⟩ := h
  have hlen : u.ns.length = u'.ns.length := by
    have hlen := congrArg toNat hlen
    rw [toNat_ofNat', toNat_ofNat'] at hlen
    omega
  obtain ⟨hns, h⟩ := append_inj h hlen
  simp only [nil_append, List.cons.injEq] at h
  obtain ⟨hhi, hlo, hbody⟩ := h
  refine ⟨Cf.tag_injective htag, ?_, hbody⟩
  have hslot : u.slot = u'.slot := by rw [← fromBe16_slot u.slot, hhi, hlo, fromBe16_slot]
  cases u with
  | mk ns slot =>
    cases u' with
    | mk ns' slot' => rw [show ns = ns' from hns, show slot = slot' from hslot]

theorem framed_append_inj (hns' : u'.ns.length ≤ 255)
    (hkey : key.length ≤ frameMax) (hkey' : key'.length ≤ frameMax) :
    framed u cf key version ++ body = framed u' cf' key' version' ++ body' ↔
      cf = cf' ∧ u = u' ∧ key = key' ∧ version = version' ∧ body = body' := by
  simp only [framed, append_assoc]
  rw [slotPrefix_append_inj hns hns', be16_append_inj hkey hkey']
  refine and_congr_right fun _ => and_congr_right fun _ => and_congr_right fun _ => ?_
  exact be64_append_inj

theorem parseSubkeyEnvelope_framed (hkey : key.length ≤ frameMax) (hcf : cf ≠ .metadata) :
    parseSubkeyEnvelope (framed u cf key version ++ body) = some (u.ns, u.slot, key, version) := by
  have hlen : (ofNat u.ns.length).toNat = u.ns.length := by
    rw [toNat_ofNat']
    omega
  have htag : cf.tag = Cf.subkey.tag ∨ cf.tag = Cf.zScore.tag := by
    cases cf with
    | metadata => exact absurd rfl hcf
    | subkey => exact .inl rfl
    | zScore => exact .inr rfl
  simp only [framed, slotPrefix, suffix, cons_append, append_assoc]
  rw [parseSubkeyEnvelope, if_pos htag, hlen, if_pos (by simp), drop_left' rfl, take_left' rfl]
  simp only [nil_append, parseFrame_append hkey, Option.map_some, fromBe16_slot]

theorem nsOfEnvelope_slotPrefix : nsOfEnvelope (u.slotPrefix cf ++ body) = some u.ns := by
  have hlen : (ofNat u.ns.length).toNat = u.ns.length := by
    rw [toNat_ofNat']
    omega
  have htag : cf.tag = Cf.metadata.tag ∨ cf.tag = Cf.subkey.tag ∨ cf.tag = Cf.zScore.tag := by
    cases cf with
    | metadata => exact .inl rfl
    | subkey => exact .inr (.inl rfl)
    | zScore => exact .inr (.inr rfl)
  simp only [slotPrefix, suffix, cons_append, append_assoc]
  rw [nsOfEnvelope, if_pos htag, hlen, if_pos (by simp), take_left' rfl]

end

end Inj

/-! ## Every row -/

open RowName

variable {row : RowName}

namespace RowName

def body : RowName → Bytes
  | metadata addr => addr.key
  | subkey addr version field => be16 addr.key.length ++ (addr.key ++ (be64 version ++ field))
  | zScore addr version score member =>
    be16 addr.key.length ++ (addr.key ++ (be64 version ++ (be64 (encodeScore score) ++ member)))

theorem encode_eq (row : RowName) :
    row.encode = row.addr.unit.slotPrefix row.family ++ row.body := by
  cases row with
  | metadata addr => rfl
  | subkey addr version field | zScore addr version score member =>
    simp only [encode, framed, family, RowName.addr, body, append_assoc]

def field : RowName → Bytes
  | metadata _ => []
  | subkey _ _ field => field
  | zScore _ _ score member => be64 (encodeScore score) ++ member

theorem encode_eq_framed {version : UInt64} (h : row.version = some version) :
    row.encode = framed row.addr.unit row.family row.addr.key version ++ row.field := by
  cases row with
  | metadata addr => cases h
  | _ =>
    cases h
    rfl

theorem family_eq_metadata : row.family = .metadata ↔ row.version = none := by
  cases row with
  | metadata addr => exact iff_of_true rfl rfl
  | _ => exact iff_of_false nofun nofun

end RowName

theorem RowAddr.ext {a b : RowAddr} (hunit : a.unit = b.unit) (hkey : a.key = b.key) : a = b := by
  cases a
  cases b
  cases hunit
  cases hkey
  rfl

open RowAddr

theorem RowName.encode_injective : Function.Injective RowName.encode := by
  intro row row' h
  have hfamily : row.family = row'.family ∧
      row.addr.unit = row'.addr.unit ∧ row.body = row'.body := by
    rw [row.encode_eq, row'.encode_eq] at h
    exact (slotPrefix_append_inj row.addr.ns_le row'.addr.ns_le).mp h
  obtain ⟨hfamily, hunit, hbody⟩ := hfamily
  cases row with
  | metadata a =>
    cases row' with
    | metadata a' => rw [show a = a' from ext hunit hbody]
    | _ => cases hfamily
  | subkey a v f =>
    cases row' with
    | subkey a' v' f' =>
      obtain ⟨-, -, hkey, hv, hf⟩ := (framed_append_inj a.ns_le a'.ns_le a.key_le a'.key_le).mp h
      rw [show a = a' from ext hunit hkey, hv, hf]
    | _ => cases hfamily
  | zScore a v s m =>
    cases row' with
    | zScore a' v' s' m' =>
      obtain ⟨-, -, hkey, hv, hf⟩ := (framed_append_inj a.ns_le a'.ns_le a.key_le a'.key_le).mp h
      obtain ⟨hs, hm⟩ := be64_append_inj.mp hf
      rw [show a = a' from ext hunit hkey, hv, encodeScore_injective hs, hm]
    | _ => cases hfamily

theorem RowName.framed_isPrefix_encode {addr : RowAddr} {cf : Cf}
    (hcf : cf ≠ .metadata) {version : UInt64} :
    framed addr.unit cf addr.key version <+: row.encode ↔
      row.family = cf ∧ row.addr = addr ∧ row.version = some version := by
  constructor
  · rintro ⟨rest, h⟩
    cases hversion : row.version with
    | none =>
      -- The envelope alone tells the families apart.
      rw [row.encode_eq, framed, append_assoc, slotPrefix_append_inj addr.ns_le row.addr.ns_le] at h
      exact absurd (h.1.trans (family_eq_metadata.mpr hversion)) hcf
    | some v =>
      rw [encode_eq_framed hversion,
        framed_append_inj addr.ns_le row.addr.ns_le addr.key_le row.addr.key_le] at h
      obtain ⟨hfamily, hunit, hkey, hv, -⟩ := h
      exact ⟨hfamily.symm, ext hunit.symm hkey.symm, by rw [hv]⟩
  · rintro ⟨rfl, rfl, hversion⟩
    rw [encode_eq_framed hversion]
    exact prefix_append _ _

theorem nsPrefix_isPrefix_encode {ns : Bytes} (hns : ns.length ≤ 255) {cf : Cf} :
    nsPrefix ns cf <+: row.encode ↔ row.family = cf ∧ row.addr.unit.ns = ns := by
  rw [row.encode_eq]
  simp only [nsPrefix, slotPrefix, suffix, cons_append, append_assoc,
    cons_prefix_cons]
  constructor
  · rintro ⟨htag, hlen, h⟩
    have hlen : ns.length = row.addr.unit.ns.length := by
      have hlen := congrArg toNat hlen
      have hle := row.addr.ns_le
      rw [toNat_ofNat', toNat_ofNat'] at hlen
      omega
    obtain ⟨rest, h⟩ := h
    exact ⟨(Cf.tag_injective htag).symm, (append_inj h hlen).1.symm⟩
  · rintro ⟨rfl, rfl⟩
    exact ⟨rfl, rfl, prefix_append _ _⟩

/-- The parts that a parser of a row finds: none in a metadata row, whose key ends it. -/
def RowName.parts (row : RowName) : Option (Bytes × UInt16 × Bytes × UInt64) :=
  row.version.map fun version => (row.addr.unit.ns, row.addr.unit.slot, row.addr.key, version)

theorem RowName.parseSubkeyEnvelope_encode (row : RowName) :
    parseSubkeyEnvelope row.encode = row.parts := by
  cases row with
  | metadata addr => rfl
  | subkey addr version field | zScore addr version score member =>
    exact parseSubkeyEnvelope_framed addr.ns_le addr.key_le (by decide)

theorem RowName.rowOwner_encode (row : RowName) :
    rowOwner row.encode = some (row.addr.unit.ns, row.addr.key) := by
  cases row with
  | metadata addr => exact rowOwner_metaKey addr.ns_le
  | subkey addr version field =>
    exact rowOwner_subkeyPrefix addr.ns_le (by decide) (subkeyPrefix_eq_framed addr.key_le) field
  | zScore addr version score member =>
    exact rowOwner_subkeyPrefix addr.ns_le (by decide) (subkeyPrefix_eq_framed addr.key_le) _

/-- **Rows are told apart by their bytes alone**: no two share theirs; the stem of a version's rows
is the start of those and of no others, that of a namespace in one family likewise; and what a row
was built from is read back. -/
theorem rows_disjoint :
    Function.Injective RowName.encode ∧
    (∀ (row : RowName) (addr : RowAddr) (cf : Cf) (version : UInt64) (stem : Bytes),
      cf ≠ .metadata → subkeyPrefix addr.unit cf addr.key version = some stem →
        (stem <+: row.encode ↔
          row.family = cf ∧ row.addr = addr ∧ row.version = some version)) ∧
    (∀ (row : RowName) (ns : Bytes) (cf : Cf), ns.length ≤ 255 →
      (nsPrefix ns cf <+: row.encode ↔ row.family = cf ∧ row.addr.unit.ns = ns)) ∧
    (∀ row : RowName, nsOfEnvelope row.encode = some row.addr.unit.ns ∧
      parseSubkeyEnvelope row.encode = row.parts ∧
      rowOwner row.encode = some (row.addr.unit.ns, row.addr.key)) := by
  refine ⟨encode_injective, fun row addr cf version stem hcf hstem => ?_,
    fun row ns cf hns => nsPrefix_isPrefix_encode hns,
    fun row => ⟨?_, row.parseSubkeyEnvelope_encode, row.rowOwner_encode⟩⟩
  · obtain rfl := Option.some.inj ((subkeyPrefix_eq_framed addr.key_le).symm.trans hstem)
    exact framed_isPrefix_encode hcf
  · rw [row.encode_eq]
    exact nsOfEnvelope_slotPrefix row.addr.ns_le

theorem rows_disjoint_k :
    (nsPrefix [0x74] .metadata <+:
        (RowName.metadata ⟨⟨[0x74], 7⟩, [0x6b], by decide, by decide⟩).encode) ∧
      nsOfEnvelope (RowName.metadata ⟨⟨[0x74], 7⟩, [0x6b], by decide, by decide⟩).encode =
        some [0x74] :=
  ⟨(rows_disjoint.2.2.1 _ _ _ (by decide)).mpr ⟨rfl, rfl⟩, (rows_disjoint.2.2.2 _).1⟩

/-! ## Rows of consumer groups

They lie under the stream's key, told apart by a tag, the group's name, and what the row is for. -/

def be32 (n : ℕ) : Bytes :=
  [UInt8.ofNat (n / 2 ^ 24), UInt8.ofNat (n / 2 ^ 16), UInt8.ofNat (n / 2 ^ 8), UInt8.ofNat n]

def streamIdBytes (id : UInt64 × UInt64) : Bytes := be64 id.1 ++ be64 id.2

def named (tag : UInt8) (name : Bytes) : Bytes := tag :: (be32 name.length ++ name)

def streamGroupTag : UInt8 := 1
def streamPendingTag : UInt8 := 2
def streamConsumerTag : UInt8 := 3
def streamOwnedTag : UInt8 := 4

inductive GroupField
  | group (g : Bytes)
  | pending (g : Bytes) (id : UInt64 × UInt64)
  | consumer (g n : Bytes)
  | owned (g n : Bytes) (id : UInt64 × UInt64)

namespace GroupField

def encode : GroupField → Bytes
  | group g => streamGroupTag :: g
  | pending g id => named streamPendingTag g ++ streamIdBytes id
  | consumer g n => named streamConsumerTag g ++ n
  | owned g n id => named streamOwnedTag g ++ (be32 n.length ++ (n ++ streamIdBytes id))

def name : GroupField → Bytes
  | group g | pending g _ | consumer g _ | owned g _ _ => g

def tag : GroupField → UInt8
  | group _ => streamGroupTag
  | pending _ _ => streamPendingTag
  | consumer _ _ => streamConsumerTag
  | owned _ _ _ => streamOwnedTag

def Fits : GroupField → Prop
  | group _ => True
  | pending g _ | consumer g _ => g.length < 2 ^ 32
  | owned g n _ => g.length < 2 ^ 32 ∧ n.length < 2 ^ 32

end GroupField

variable {m n x y : Bytes}

theorem be32_append_inj (hm : m.length < 2 ^ 32) (hn : n.length < 2 ^ 32) :
    be32 m.length ++ (m ++ x) = be32 n.length ++ (n ++ y) ↔ m = n ∧ x = y := by
  refine ⟨fun h => ?_, fun ⟨hmn, hxy⟩ => by rw [hmn, hxy]⟩
  obtain ⟨hlen, hrest⟩ := append_inj h rfl
  simp only [be32, List.cons.injEq, and_true, ← UInt8.toNat_inj, UInt8.toNat_ofNat'] at hlen
  exact append_inj hrest (by omega)

theorem named_append_inj {t u : UInt8} (hm : m.length < 2 ^ 32)
    (hn : n.length < 2 ^ 32) : named t m ++ x = named u n ++ y ↔ t = u ∧ m = n ∧ x = y := by
  rw [named, named, cons_append, cons_append, append_assoc, append_assoc,
    List.cons.injEq, be32_append_inj hm hn]

theorem streamIdBytes_injective : Function.Injective streamIdBytes := by
  intro id id' h
  obtain ⟨hms, hseq⟩ := append_inj h rfl
  exact Prod.ext (be64_injective hms) (be64_injective hseq)

namespace GroupField

theorem head_encode (f : GroupField) : f.encode.head? = some f.tag := by
  cases f with
  | _ => rfl

theorem encode_injective {f f' : GroupField} (hf : f.Fits) (hf' : f'.Fits)
    (h : f.encode = f'.encode) : f = f' := by
  have htag : f.tag = f'.tag := by
    have hhead := congrArg List.head? h
    rw [head_encode, head_encode] at hhead
    exact Option.some.inj hhead
  cases f with
  | group g =>
    cases f' with
    | group g' => exact congrArg group (List.cons.inj h).2
    | _ => cases htag
  | pending g id =>
    cases f' with
    | pending g' id' =>
      obtain ⟨-, rfl, hid⟩ := (named_append_inj hf hf').mp h
      rw [streamIdBytes_injective hid]
    | _ => cases htag
  | consumer g n =>
    cases f' with
    | consumer g' n' =>
      obtain ⟨-, rfl, rfl⟩ := (named_append_inj hf hf').mp h
      rfl
    | _ => cases htag
  | owned g n id =>
    cases f' with
    | owned g' n' id' =>
      obtain ⟨-, rfl, hrest⟩ := (named_append_inj hf.1 hf'.1).mp h
      obtain ⟨rfl, hid⟩ := (be32_append_inj hf.2 hf'.2).mp hrest
      rw [streamIdBytes_injective hid]
    | _ => cases htag

/-- **A walk over a family of one group meets that group's rows only**: what `XGROUP DESTROY`,
`XPENDING` and `XAUTOCLAIM` go by. -/
theorem named_isPrefix_encode {f : GroupField} (hf : f.Fits) {t : UInt8} {g : Bytes}
    (ht : t ≠ streamGroupTag) (hg : g.length < 2 ^ 32) :
    named t g <+: f.encode ↔ f.tag = t ∧ f.name = g := by
  have hcase {u : UInt8} {m x : Bytes} (hm : m.length < 2 ^ 32) :
      named t g <+: named u m ++ x ↔ u = t ∧ m = g := by
    constructor
    · rintro ⟨y, hy⟩
      obtain ⟨rfl, rfl, -⟩ := (named_append_inj hg hm).mp hy
      exact ⟨rfl, rfl⟩
    · rintro ⟨rfl, rfl⟩
      exact prefix_append _ _
  cases f with
  | group m =>
    refine iff_of_false ?_ fun h => ht h.1.symm
    rintro ⟨y, hy⟩
    exact ht (List.cons.inj hy).1
  | owned m n id => exact hcase hf.1
  | _ => exact hcase hf

/-- **Rows of groups stay apart**: no two are at one place, and what starts as a family of one group
does is a row of that family and group. -/
theorem group_rows_apart {f f' : GroupField} (hf : f.Fits) (hf' : f'.Fits) :
    (f.encode = f'.encode → f = f') ∧ ∀ t g, t ≠ streamGroupTag → g.length < 2 ^ 32 →
      (named t g <+: f.encode ↔ f.tag = t ∧ f.name = g) :=
  ⟨encode_injective hf hf', fun _ _ ht hg => named_isPrefix_encode hf ht hg⟩

theorem group_rows_apart_nested :
    ¬ named streamPendingTag [1] <+: (pending [1, 0] (0, 0)).encode := by
  have hfits : (pending [1, 0] (0, 0)).Fits := show 2 < 2 ^ 32 by decide
  simpa [name] using (group_rows_apart hfits hfits).2 streamPendingTag [1] (by decide) (by decide)

end GroupField

/-! ## The fields of an entry -/

def fromBe32 (b₃ b₂ b₁ b₀ : UInt8) : ℕ :=
  b₃.toNat * 2 ^ 24 + b₂.toNat * 2 ^ 16 + b₁.toNat * 2 ^ 8 + b₀.toNat

def readBe32 : Bytes → Option (ℕ × Bytes)
  | b₃ :: b₂ :: b₁ :: b₀ :: rest => some (fromBe32 b₃ b₂ b₁ b₀, rest)
  | _ => none

def encodeField (f : Bytes) : Bytes := be32 f.length ++ f

def encodeFields (fields : List Bytes) : Bytes :=
  be32 (fields.length / 2) ++ fields.flatMap encodeField

/-- The loop of `decodeFields`, on what is left of the bytes. -/
def takeFields : ℕ → Bytes → List Bytes
  | 0, _ => []
  | n + 1, v =>
    match readBe32 v with
    | none => []
    | some (len, rest) =>
      if len ≤ rest.length then rest.take len :: takeFields n (rest.drop len) else []

def decodeFields (v : Bytes) : List Bytes :=
  match readBe32 v with
  | none => []
  | some (pairs, rest) => takeFields (pairs * 2) rest

def payloadBytes (v : Bytes) : ℕ := v.length - (4 + 8 * (readBe32 v).elim 0 Prod.fst)

theorem readBe32_be32 (n : ℕ) (rest : Bytes) :
    readBe32 (be32 n ++ rest) = some (n % 2 ^ 32, rest) := by
  simp only [be32, cons_append, nil_append, readBe32, fromBe32, UInt8.toNat_ofNat',
    Option.some.injEq, Prod.mk.injEq, and_true]
  omega

theorem of_readBe32 {v rest : Bytes} {n : ℕ} (h : readBe32 v = some (n, rest)) :
    n < 2 ^ 32 ∧ v = be32 n ++ rest := by
  unfold readBe32 at h
  split at h
  · next b₃ b₂ b₁ b₀ _ =>
    cases h
    have h₃ := b₃.toNat_lt
    have h₂ := b₂.toNat_lt
    have h₁ := b₁.toNat_lt
    have h₀ := b₀.toNat_lt
    simp only [be32, fromBe32, cons_append, nil_append, List.cons.injEq, and_true,
      ← UInt8.toNat_inj, UInt8.toNat_ofNat']
    omega
  · cases h

theorem takeFields_encode {fields : List Bytes} (h : ∀ f ∈ fields, f.length < 2 ^ 32) :
    takeFields fields.length (fields.flatMap encodeField) = fields := by
  induction fields with
  | nil => rfl
  | cons f fields ih =>
    obtain ⟨hf, hfields⟩ := forall_mem_cons.mp h
    rw [length_cons, flatMap_cons, encodeField, append_assoc, takeFields, readBe32_be32,
      Nat.mod_eq_of_lt hf]
    simp only [length_append, Nat.le_add_right, if_true, take_left, drop_left, ih hfields]

/-- What is taken: no more than asked for, of lengths four bytes can say, and where it lay. -/
theorem takeFields_spec (n : ℕ) (v : Bytes) : (takeFields n v).length ≤ n ∧
    (∀ f ∈ takeFields n v, f.length < 2 ^ 32) ∧ (takeFields n v).flatMap encodeField <+: v := by
  induction n generalizing v with
  | zero => exact ⟨le_rfl, nofun, nil_prefix⟩
  | succ n ih =>
    rw [takeFields]
    split
    · exact ⟨Nat.zero_le _, nofun, nil_prefix⟩
    · next len rest hread =>
      split
      · next hlen =>
        obtain ⟨hlt, rfl⟩ := of_readBe32 hread
        obtain ⟨hle, hshort, tail, htail⟩ := ih (rest.drop len)
        have htake : (rest.take len).length = len := length_take_of_le hlen
        refine ⟨Nat.succ_le_succ hle, forall_mem_cons.mpr ⟨htake.trans_lt hlt, hshort⟩, tail, ?_⟩
        rw [flatMap_cons, append_assoc, htail, encodeField, append_assoc, take_append_drop, htake]
      · exact ⟨Nat.zero_le _, nofun, nil_prefix⟩

theorem length_flatMap_encodeField (fields : List Bytes) :
    (fields.flatMap encodeField).length = 4 * fields.length + (fields.map length).sum := by
  induction fields with
  | nil => rfl
  | cons f fields ih =>
    have hlen : (encodeField f).length = 4 + f.length := by rw [encodeField, length_append]; rfl
    rw [flatMap_cons, length_append, ih, hlen, length_cons, map_cons, sum_cons]
    omega

theorem decodeFields_encodeFields (fields : List Bytes) : decodeFields (encodeFields fields) =
    takeFields (fields.length / 2 % 2 ^ 32 * 2) (fields.flatMap encodeField) := by
  rw [decodeFields, encodeFields, readBe32_be32]

/-- **An entry's fields are read back**, and their bytes counted, if they come in pairs and their
count and lengths fit four bytes; of any bytes, what is read lies within them. -/
theorem entry_fields_exact (fields : List Bytes) :
    (decodeFields (encodeFields fields) = fields ∧
      payloadBytes (encodeFields fields) = (fields.map length).sum ∧
      ∀ v, (decodeFields v).flatMap encodeField <+: v.drop 4) ↔
    fields.length % 2 = 0 ∧ fields.length / 2 < 2 ^ 32 ∧ ∀ f ∈ fields, f.length < 2 ^ 32 := by
  rw [decodeFields_encodeFields]
  constructor
  · rintro ⟨hback, -⟩
    obtain ⟨hle, hshort, -⟩ :=
      takeFields_spec (fields.length / 2 % 2 ^ 32 * 2) (fields.flatMap encodeField)
    rw [hback] at hle hshort
    exact ⟨by omega, by omega, hshort⟩
  · rintro ⟨heven, hcount, hshort⟩
    have hpairs : fields.length / 2 % 2 ^ 32 * 2 = fields.length := by omega
    refine ⟨by rw [hpairs, takeFields_encode hshort], ?_, fun v => ?_⟩
    · rw [payloadBytes, encodeFields, readBe32_be32, length_append, length_flatMap_encodeField,
        Option.elim_some]
      show 4 + _ - (4 + 8 * (fields.length / 2 % 2 ^ 32)) = _
      omega
    · unfold decodeFields
      split
      · exact nil_prefix
      · next pairs rest hread =>
        rw [(of_readBe32 hread).2]
        exact (takeFields_spec _ rest).2.2

end Flint
