import FlintCache.Lib.Machine
import FlintCache.Storage.Units

/-!
# Storage/Bloom — Bloom filters in rows

A filter is a chain of links.  Its metadata row holds the links' parameters; their bits lie in block
rows made when first needed, under the metadata's version.  An item is in the filter if every one of
its bits is set in some link.  An add writes its block before its metadata, and a process may stop
after any row.
-/

namespace Flint

open List Nat
open Function (update update_of_ne update_self)

/-! ## Placing an item -/

abbrev BloomBlock := List (BitVec 8)

/-- The parameters of a link; `blockBitsLog2` is at least `BLOCK_BITS_LOG2_MIN`. -/
structure BloomLink where
  k : ℕ
  blockBitsLog2 : ℕ
  blocks : ℕ
  items : ℕ
  capacity : ℕ
  log2_ge : 6 ≤ blockBitsLog2
  deriving DecidableEq, Repr

/-- The hash of an item, and a filter's sizing in floating point: its bits, if it can be sized, and
its probes. -/
structure BloomSizing (ε : Type) where
  murmur3 : Bytes → UInt64 × UInt64
  bitsFor : ℕ → ε → Option ℕ
  probesFor : ε → ℕ
  tighten : ε → ℕ → ε
  defaultError : ε

def fmix64 (k : UInt64) : UInt64 :=
  let k := (k ^^^ (k >>> 33)) * 0xff51afd7ed558ccd
  let k := (k ^^^ (k >>> 33)) * 0xc4ceb9fe1a85ec53
  k ^^^ (k >>> 33)

def bitIsSet (block : BloomBlock) (bit : ℕ) : Bool :=
  (block[bit / 8]?.map fun byte => byte.getLsbD (bit % 8)).getD false

def setBit (blockBytes : ℕ) (block : BloomBlock) (bit : ℕ) : BloomBlock :=
  (block ++ List.replicate (blockBytes - block.length) 0).modify (bit / 8)
    (· ||| BitVec.twoPow 8 (bit % 8))

variable {ε : Type} (z : BloomSizing ε)

namespace BloomLink

def blockBytes (link : BloomLink) : ℕ := 2 ^ link.blockBitsLog2 / 8

def nominalBytes (link : BloomLink) : ℕ := link.blocks * 2 ^ link.blockBitsLog2 / 8

variable (link : BloomLink) (item : Bytes)

def blockOf : ℕ := (z.murmur3 item).1.toNat * max link.blocks 1 / 2 ^ 64

def bitsOf : List ℕ :=
  let (h₁, h₂) := z.murmur3 item
  let stride := fmix64 (h₁ ^^^ h₂) ||| 1
  (List.range (min (max link.k 1) 32)).map fun i =>
    (h₂ + UInt64.ofNat i * stride).toNat % 2 ^ link.blockBitsLog2

end BloomLink

def BloomSizing.plan {ε : Type} (z : BloomSizing ε) (capacity : ℕ) (error : ε) : Option BloomLink :=
  (z.bitsFor capacity error).map fun bits =>
    let m := max bits (2 ^ 6)
    if m ≤ 2 ^ 15 then
      ⟨z.probesFor error, max 6 (min 15 (Nat.log2 (m - 1) + 1)), 1, 0,
          capacity, Nat.le_max_left _ _⟩
    else ⟨z.probesFor error, 15, (m + 2 ^ 15 - 1) / 2 ^ 15, 0, capacity, by decide⟩

/-! ## A key -/

/-- The metadata of a filter, with its layers. -/
structure BloomMeta (ε : Type) where
  version : ℕ
  expireMs : ℕ := 0
  size : ℕ := 0
  bytes : ℕ := 0
  error : ε
  expansion : ℕ
  links : List BloomLink

inductive BloomRow (ε : Type)
  | bloom (m : BloomMeta ε)
  | other (expireMs : ℕ)

structure BloomKey (ε : Type) where
  row : Option (BloomRow ε) := none
  blocks : ℕ → ℕ → ℕ → BloomBlock := fun _ _ _ => []

inductive BloomError
  | wrongType
  | keyExists
  | badParameter
  | valueTooLarge
  | filterFull
  deriving DecidableEq, Repr

inductive BloomWrite (ε : Type)
  | dropRow
  | putBlock (version link block : ℕ) (bytes : BloomBlock)
  | putMeta (m : BloomMeta ε)

def isPast (expireMs now : ℕ) : Bool := expireMs ≠ 0 ∧ expireMs ≤ now

variable (maxBytes : ℕ)

namespace BloomKey

variable (s : BloomKey ε)

def write : BloomWrite ε → BloomKey ε
  | .dropRow => { s with row := none }
  | .putBlock v link block bytes =>
    { s with
      blocks := update s.blocks v
        (update (s.blocks v) link (update (s.blocks v link) block bytes)) }
  | .putMeta m => { s with row := some (.bloom m) }

def writes (ws : List (BloomWrite ε)) : BloomKey ε := ws.foldl write s

def readMeta (now : ℕ) : Except BloomError (Option (BloomMeta ε)) × List (BloomWrite ε) :=
  match s.row with
  | none => (.ok none, [])
  | some (.bloom m) => if isPast m.expireMs now then (.ok none, [.dropRow]) else (.ok (some m), [])
  | some (.other expireMs) =>
    if isPast expireMs now then (.ok none, [.dropRow]) else (.error .wrongType, [])

def inLink (m : BloomMeta ε) (item : Bytes) (link : BloomLink) (i : ℕ) : Bool :=
  (link.bitsOf z item).all fun bit => bitIsSet (s.blocks m.version i (link.blockOf z item)) bit

def lookup (m : BloomMeta ε) (item : Bytes) : Bool :=
  m.links.zipIdx.reverse.any fun l => s.inLink z m item l.1 l.2

def growIfFull (m : BloomMeta ε) : Except BloomError (BloomMeta ε) :=
  match m.links.getLast? with
  | none => .error .wrongType
  | some last =>
    if last.items < last.capacity then .ok m
    else if m.expansion = 0 ∨ 32 ≤ m.links.length then .error .filterFull
    else
      match z.plan (last.capacity * m.expansion) (z.tighten m.error m.links.length) with
      | none => .error .badParameter
      | some link =>
        if maxBytes < link.nominalBytes + m.bytes then .error .valueTooLarge
        else .ok { m with links := m.links ++ [link] }

def reserve (now mint capacity : ℕ) (error : ε) (expansion : ℕ) :
    Except BloomError Unit × List (BloomWrite ε) :=
  match s.readMeta now with
  | (.error e, ws) => (.error e, ws)
  | (.ok (some _), ws) => (.error .keyExists, ws)
  | (.ok none, ws) =>
    match z.plan capacity error with
    | none => (.error .badParameter, ws)
    | some link =>
      if maxBytes < link.nominalBytes then (.error .valueTooLarge, ws)
      else (.ok (), ws ++
        [.putMeta { version := mint, error := error, expansion := expansion, links := [link] }])

def addTo (m : BloomMeta ε) (item : Bytes) : Except BloomError Bool × List (BloomWrite ε) :=
  match growIfFull z maxBytes m with
  | .error e => (.error e, [])
  | .ok m =>
    match m.links[m.links.length - 1]? with
    | none => (.error .wrongType, [])
    | some link =>
      let i := m.links.length - 1
      let block := s.blocks m.version i (link.blockOf z item)
      let bytes := if block = [] then m.bytes + link.blockBytes else m.bytes
      if block = [] ∧ maxBytes < bytes then (.error .valueTooLarge, [])
      else (.ok true,
        [.putBlock m.version i (link.blockOf z item)
            ((link.bitsOf z item).foldl (setBit link.blockBytes) block),
          .putMeta { m with
            bytes := bytes
            size := m.size + 1
            links := m.links.set i { link with items := link.items + 1 } }])

def add (now mint : ℕ) (item : Bytes) : Except BloomError Bool × List (BloomWrite ε) :=
  match s.readMeta now with
  | (.error e, ws) => (.error e, ws)
  | (.ok (some m), ws) =>
    if s.lookup z m item then (.ok false, ws)
    else ((s.addTo z maxBytes m item).1, ws ++ (s.addTo z maxBytes m item).2)
  | (.ok none, ws) =>
    match z.plan 100000 z.defaultError with
    | none => (.error .badParameter, ws)
    | some link =>
      let m : BloomMeta ε :=
        { version := mint, error := z.defaultError, expansion := 2, links := [link] }
      ((s.addTo z maxBytes m item).1, ws ++ (s.addTo z maxBytes m item).2)

def addAll (now mint : ℕ) :
    BloomKey ε → List Bytes → List (Except BloomError Bool) × List (BloomWrite ε)
  | _, [] => ([], [])
  | s, item :: items =>
    match s.add z maxBytes now mint item with
    | (.error e, ws) => ([.error e], ws)
    | (.ok new, ws) =>
      let rest := addAll now mint (s.writes ws) items
      (.ok new :: rest.1, ws ++ rest.2)

def madd (now mint : ℕ) (items : List Bytes) :
    Except BloomError (List (Except BloomError Bool)) × List (BloomWrite ε) :=
  match s.readMeta now with
  | (.error e, ws) => (.error e, ws)
  | (.ok _, ws) =>
    let rest := addAll z maxBytes now mint (s.writes ws) items
    (.ok rest.1, ws ++ rest.2)

def mexists (now : ℕ) (items : List Bytes) : Except BloomError (List Bool) :=
  match (s.readMeta now).1 with
  | .error e => .error e
  | .ok none => .ok (items.map fun _ => false)
  | .ok (some m) => .ok (items.map (s.lookup z m))

def «exists» (now : ℕ) (item : Bytes) : Except BloomError Bool :=
  match (s.readMeta now).1 with
  | .error e => .error e
  | .ok none => .ok false
  | .ok (some m) => .ok (s.lookup z m item)

end BloomKey

/-- What happens to a key.  A call's process may stop after `stop` of its row writes. -/
inductive BloomEvent (ε : Type)
  | reserve (now mint capacity : ℕ) (error : ε) (expansion stop : ℕ)
  | add (now mint : ℕ) (item : Bytes) (stop : ℕ)
  | madd (now mint : ℕ) (items : List Bytes) (stop : ℕ)
  | exists (now stop : ℕ)
  | expireAt (expireMs : ℕ)
  | del
  | replace (expireMs : ℕ)

namespace BloomKey

def step (s : BloomKey ε) : BloomEvent ε → BloomKey ε
  | .reserve now mint capacity error expansion stop =>
    s.writes ((s.reserve z maxBytes now mint capacity error expansion).2.take stop)
  | .add now mint item stop => s.writes ((s.add z maxBytes now mint item).2.take stop)
  | .madd now mint items stop => s.writes ((s.madd z maxBytes now mint items).2.take stop)
  | .exists now stop => s.writes ((s.readMeta now).2.take stop)
  | .expireAt expireMs =>
    { s with row := s.row.map fun
      | .bloom m => .bloom { m with expireMs := expireMs }
      | .other _ => .other expireMs }
  | .del => { s with row := none }
  | .replace expireMs => { s with row := some (.other expireMs) }

def Live (s : BloomKey ε) (now : ℕ) : Prop :=
  ∀ m, s.row = some (.bloom m) → isPast m.expireMs now = false

def Kept (s : BloomKey ε) : BloomEvent ε → Prop
  | .reserve now .. | .add now .. | .madd now .. | .exists now .. => s.Live now
  | .expireAt _ => True
  | .del | .replace _ => False

def Added (item : Bytes) (s : BloomKey ε) : Prop :=
  ∃ (s₀ : BloomKey ε) (now mint : ℕ),
    (∃ new, (s₀.add z maxBytes now mint item).1 = .ok new ∧
      s = s₀.writes (s₀.add z maxBytes now mint item).2) ∨
    ∃ items results new, (s₀.madd z maxBytes now mint items).1 = .ok results ∧
      (item, .ok new) ∈ items.zip results ∧ s = s₀.writes (s₀.madd z maxBytes now mint items).2

def afterAdd (item : Bytes) : Machine (BloomKey ε) (BloomEvent ε) where
  init := Added z maxBytes item
  step s e := some (s.step z maxBytes e)

end BloomKey

/-! ## Bits -/

variable {block : BloomBlock} {bit : ℕ}

theorem bitIsSet_mono (h : bitIsSet block bit) (n b : ℕ) : bitIsSet (setBit n block b) bit := by
  unfold bitIsSet at h
  obtain ⟨byte, hbyte⟩ : ∃ byte, block[bit / 8]? = some byte := by
    cases hb : block[bit / 8]? with
    | none => rw [hb] at h; cases h
    | some byte => exact ⟨byte, rfl⟩
  rw [hbyte] at h
  have hlong : (block ++ replicate (n - block.length) 0)[bit / 8]? = some byte := by
    rw [List.getElem?_append_left (List.getElem?_eq_some_iff.mp hbyte).1, hbyte]
  unfold bitIsSet setBit
  rw [getElem?_modify, hlong]
  split
  · exact (BitVec.getLsbD_or).trans (by rw [show byte.getLsbD (bit % 8) from h]; rfl)
  · exact h

theorem bitIsSet_setBit {n bit : ℕ} (h : bit / 8 < n) (block : BloomBlock) :
    bitIsSet (setBit n block bit) bit := by
  have hlt : bit / 8 < (block ++ replicate (n - block.length) 0).length := by
    rw [length_append, length_replicate]
    omega
  unfold bitIsSet setBit
  rw [getElem?_modify, getElem?_eq_getElem hlt]
  show BitVec.getLsbD (if bit / 8 = bit / 8 then _ else _) (bit % 8)
  rw [if_pos rfl, BitVec.getLsbD_or, BitVec.getLsbD_twoPow]
  have hmod : bit % 8 < 8 := mod_lt _ (by decide)
  simp [hmod]

theorem bitIsSet_foldl_mono (h : bitIsSet block bit) (n : ℕ)
    (bits : List ℕ) : bitIsSet (bits.foldl (setBit n) block) bit := by
  induction bits generalizing block with
  | nil => exact h
  | cons b bits ih => exact ih (bitIsSet_mono h n b)

theorem bitIsSet_foldl {n : ℕ} {bits : List ℕ} (hn : ∀ b ∈ bits, b / 8 < n) (block : BloomBlock) :
    ∀ b ∈ bits, bitIsSet (bits.foldl (setBit n) block) b := by
  induction bits generalizing block with
  | nil => exact nofun
  | cons b bits ih =>
    obtain ⟨hb, hbits⟩ := forall_mem_cons.mp hn
    refine forall_mem_cons.mpr ⟨?_, ih hbits _⟩
    exact bitIsSet_foldl_mono (bitIsSet_setBit hb block) n bits

theorem BloomLink.bitsOf_lt {ε : Type} (z : BloomSizing ε) (link : BloomLink) (item : Bytes) :
    ∀ b ∈ link.bitsOf z item, b / 8 < link.blockBytes := by
  intro b hb
  obtain ⟨i, -, rfl⟩ := mem_map.mp hb
  have hpos : 0 < 2 ^ link.blockBitsLog2 := Nat.two_pow_pos _
  have hdvd : 2 ^ 3 ∣ 2 ^ link.blockBitsLog2 :=
    Nat.pow_dvd_pow 2 (le_trans (by decide) link.log2_ge)
  exact div_lt_div_of_lt_of_dvd hdvd (mod_lt _ hpos)

/-! ## An item stays -/

open BloomKey

open BloomRow

namespace BloomKey

variable {z : BloomSizing ε} {maxBytes now mint : ℕ} {item : Bytes} {s : BloomKey ε}
  {m : BloomMeta ε}

def Has (z : BloomSizing ε) (item : Bytes) (s : BloomKey ε) : Prop :=
  ∃ m, s.row = some (.bloom m) ∧ s.lookup z m item = true

theorem lookup_eq_true : s.lookup z m item ↔
    ∃ i link, m.links[i]? = some link ∧ s.inLink z m item link i := by
  rw [lookup, any_reverse, any_eq_true]
  constructor
  · rintro ⟨⟨link, i⟩, hmem, hin⟩
    exact ⟨i, link, mk_mem_zipIdx_iff_getElem?.mp hmem, hin⟩
  · rintro ⟨i, link, hlink, hin⟩
    exact ⟨(link, i), mk_mem_zipIdx_iff_getElem?.mpr hlink, hin⟩

/-- Metadata of the same version whose links place items as before, and maybe some more. -/
structure Extends (m m' : BloomMeta ε) : Prop where
  version : m'.version = m.version
  expire : m'.expireMs = m.expireMs
  links : ∀ (i : ℕ) (link : BloomLink), m.links[i]? = some link →
    ∃ items, m'.links[i]? = some { link with items := items }

theorem Has.putBlock (h : s.Has z item) {v i b : ℕ} {bytes : BloomBlock}
    (hmore : ∀ bit, bitIsSet (s.blocks v i b) bit → bitIsSet bytes bit) :
    (s.write (.putBlock v i b bytes)).Has z item := by
  obtain ⟨m, hrow, hin⟩ := h
  obtain ⟨j, link, hlink, hin⟩ := lookup_eq_true.mp hin
  refine ⟨m, hrow, lookup_eq_true.mpr ⟨j, link, hlink, ?_⟩⟩
  refine all_eq_true.mpr fun bit hbit => ?_
  have hset := all_eq_true.mp hin bit hbit
  by_cases hkey : m.version = v ∧ j = i ∧ link.blockOf z item = b
  · obtain ⟨rfl, rfl, rfl⟩ := hkey
    simpa [write] using hmore bit hset
  rw [← hset]
  refine congrArg (bitIsSet · bit) ?_
  show update s.blocks v _ m.version j _ = _
  by_cases hv : m.version = v
  · subst hv
    rw [update_self]
    by_cases hi : j = i
    · subst hi
      rw [update_self, update_of_ne fun hb => hkey ⟨rfl, rfl, hb⟩]
    · rw [update_of_ne hi]
  · rw [update_of_ne hv]

variable {m' : BloomMeta ε}

theorem Has.putMeta (hrow : s.row = some (.bloom m)) (h : s.Has z item)
    (hext : Extends m m') : (s.write (.putMeta m')).Has z item := by
  obtain ⟨m₁, hrow₁, hin⟩ := h
  obtain rfl : m = m₁ := by
    rw [hrow] at hrow₁
    exact bloom.inj (Option.some.inj hrow₁)
  obtain ⟨i, link, hlink, hin⟩ := lookup_eq_true.mp hin
  obtain ⟨items, hlink'⟩ := hext.links i link hlink
  refine ⟨m', rfl, lookup_eq_true.mpr ⟨i, _, hlink', ?_⟩⟩
  rw [inLink, hext.version]
  exact hin

theorem extends_of_growIfFull (h : growIfFull z maxBytes m = .ok m') : Extends m m' := by
  have hself : Extends m m := ⟨rfl, rfl, fun i link hlink => ⟨link.items, hlink⟩⟩
  unfold growIfFull at h
  split at h
  · cases h
  split at h
  · cases h
    exact hself
  split at h
  · cases h
  split at h
  · cases h
  split at h
  · cases h
  · cases h
    refine ⟨rfl, rfl, fun i link hlink => ⟨link.items, ?_⟩⟩
    exact (List.getElem?_append_left (List.getElem?_eq_some_iff.mp hlink).1).trans hlink

theorem addTo_spec (z : BloomSizing ε) (maxBytes : ℕ) (s : BloomKey ε) (m : BloomMeta ε)
    (item : Bytes) :
    ((∃ e, (s.addTo z maxBytes m item).1 = .error e) ∧ (s.addTo z maxBytes m item).2 = []) ∨
    ∃ (m' : BloomMeta ε) (i : ℕ) (link : BloomLink) (bytes : BloomBlock),
        s.addTo z maxBytes m item =
        (.ok true, [.putBlock m.version i (link.blockOf z item) bytes, .putMeta m']) ∧
      Extends m m' ∧ (∃ items, m'.links[i]? = some { link with items := items }) ∧
      (∀ bit ∈ link.bitsOf z item, bitIsSet bytes bit) ∧
      ∀ bit, bitIsSet (s.blocks m.version i (link.blockOf z item)) bit →
        bitIsSet bytes bit := by
  unfold addTo
  split
  · next e _ => exact .inl ⟨⟨e, rfl⟩, rfl⟩
  · next m₁ hgrow =>
    obtain ⟨hversion, hexpire, hlinks⟩ := extends_of_growIfFull hgrow
    rw [← hversion]
    split
    · exact .inl ⟨⟨_, rfl⟩, rfl⟩
    · next link hlast =>
      dsimp only
      generalize (if s.blocks m₁.version _ _ = [] then _ else m₁.bytes) = total
      split
      · exact .inl ⟨⟨_, rfl⟩, rfl⟩
      refine .inr ⟨_, _, link, _, rfl, ⟨hversion, hexpire, fun i l hl => ?_⟩,
        ⟨link.items + 1, ?_⟩, bitIsSet_foldl (link.bitsOf_lt z item) _,
        fun bit hbit => bitIsSet_foldl_mono hbit _ _⟩
      · obtain ⟨items, hl⟩ := hlinks i l hl
        by_cases hi : m₁.links.length - 1 = i
        · subst hi
          obtain rfl := Option.some.inj (hl.symm.trans hlast)
          exact ⟨items + 1, List.getElem?_set_self (List.getElem?_eq_some_iff.mp hlast).1⟩
        · exact ⟨items, (getElem?_set_ne hi).trans hl⟩
      · exact List.getElem?_set_self (List.getElem?_eq_some_iff.mp hlast).1

theorem readMeta_live (hrow : s.row = some (.bloom m)) (hlive : s.Live now) :
    s.readMeta now = (.ok (some m), []) := by
  rw [readMeta, hrow]
  dsimp only
  rw [hlive m hrow]
  rfl

/-- What an add that answers leaves: the item is found, and the key has not expired. -/
def Stays (z : BloomSizing ε) (item : Bytes) (now : ℕ) (s : BloomKey ε) : Prop :=
  s.Has z item ∧ s.Live now

theorem writes_append (s : BloomKey ε) (ws ws' : List (BloomWrite ε)) :
    s.writes (ws ++ ws') = (s.writes ws).writes ws' := foldl_append ..

namespace Stays

variable (h : s.Stays z item now)
include h

theorem addTo (hrow : s.row = some (.bloom m)) (other : Bytes)
    (n : ℕ) : (s.writes ((s.addTo z maxBytes m other).2.take n)).Stays z item now := by
  obtain ⟨-, hnone⟩ | ⟨m', i, link, bytes, heq, hext, -, -, hmore⟩ :=
    addTo_spec z maxBytes s m other
  · rw [hnone, take_nil]
    exact h
  rw [heq]
  have hblock := h.1.putBlock hmore
  match n with
  | 0 => exact h
  | 1 => exact ⟨hblock, h.2⟩
  | n + 2 =>
    rw [take_of_length_le (le_add_left 2 n)]
    refine ⟨Has.putMeta (s := s.write (.putBlock ..)) hrow hblock hext, fun m₁ hm₁ => ?_⟩
    obtain rfl := bloom.inj (Option.some.inj hm₁)
    rw [hext.expire]
    exact h.2 m hrow

theorem add (maxBytes mint : ℕ) (other : Bytes) (n : ℕ) :
    (s.writes ((s.add z maxBytes now mint other).2.take n)).Stays z item now := by
  obtain ⟨m, hrow, -⟩ := h.1
  rw [BloomKey.add, readMeta_live hrow h.2]
  dsimp only
  split
  · rw [take_nil]
    exact h
  · exact h.addTo hrow other n

theorem addAll (maxBytes mint : ℕ) (items : List Bytes) (n : ℕ) :
    (s.writes ((addAll z maxBytes now mint s items).2.take n)).Stays z item now := by
  induction items generalizing s n with
  | nil =>
    rw [addAll, take_nil]
    exact h
  | cons other items ih =>
    have hadd := h.add maxBytes mint other
    rw [addAll]
    split
    · next e ws heq =>
      rw [heq] at hadd
      exact hadd n
    · next new ws heq =>
      rw [heq] at hadd
      dsimp only
      rw [take_append, writes_append]
      by_cases hn : n ≤ ws.length
      · rw [Nat.sub_eq_zero_of_le hn]
        exact hadd n
      · rw [take_of_length_le (Nat.le_of_not_le hn)]
        exact ih (take_length (l := ws) ▸ hadd ws.length) _

theorem madd (mint : ℕ) (items : List Bytes) (n : ℕ) :
    (s.writes ((s.madd z maxBytes now mint items).2.take n)).Stays z item now := by
  obtain ⟨m, hrow, -⟩ := h.1
  rw [BloomKey.madd, readMeta_live hrow h.2]
  exact h.addAll maxBytes mint items n

end Stays

/-! ## An item comes -/

variable {new : Bool}

theorem stays_of_addTo (h : (s.addTo z maxBytes m item).1 = .ok new)
    (t : BloomKey ε) (hlive : isPast m.expireMs now = false) :
    (t.writes (s.addTo z maxBytes m item).2).Stays z item now := by
  obtain ⟨⟨e, he⟩, -⟩ | ⟨m', i, link, bytes, heq, hext, ⟨items, hlink⟩, hset, -⟩ :=
    addTo_spec z maxBytes s m item
  · rw [he] at h
    cases h
  rw [heq]
  refine ⟨⟨m', rfl, lookup_eq_true.mpr ⟨i, _, hlink, all_eq_true.mpr fun bit hbit => ?_⟩⟩,
    fun m₁ hm₁ => ?_⟩
  · rw [hext.version]
    show bitIsSet (update t.blocks m.version (update (t.blocks m.version) i
      (update (t.blocks m.version i) (link.blockOf z item) bytes)) m.version i
        (link.blockOf z item)) bit
    rw [update_self, update_self, update_self]
    exact hset bit hbit
  · obtain rfl := bloom.inj (Option.some.inj hm₁)
    rw [hext.expire]
    exact hlive

theorem of_readMeta {ws : List (BloomWrite ε)} (h : s.readMeta now = (.ok (some m), ws)) :
    ws = [] ∧ s.row = some (.bloom m) ∧ isPast m.expireMs now = false := by
  unfold readMeta at h
  split at h
  · cases h
  · next m' hrow =>
    split at h
    · cases h
    · next hlive =>
      cases h
      exact ⟨rfl, hrow, (Bool.not_eq_true _).mp hlive⟩
  · split at h
    · cases h
    · cases h

theorem stays_of_add (h : (s.add z maxBytes now mint item).1 = .ok new) :
    (s.writes (s.add z maxBytes now mint item).2).Stays z item now := by
  rw [add] at h ⊢
  split at h
  · cases h
  · next m ws hread =>
    obtain ⟨rfl, hrow, hlive⟩ := of_readMeta hread
    split at h
    · next hin =>
      rw [if_pos hin]
      refine ⟨⟨m, hrow, hin⟩, fun m₁ hm₁ => ?_⟩
      obtain rfl := bloom.inj (Option.some.inj (hrow.symm.trans hm₁))
      exact hlive
    · next hin =>
      rw [if_neg hin]
      exact stays_of_addTo h s hlive
  split at h
  · cases h
  · dsimp only
    rw [writes_append]
    exact stays_of_addTo h _ rfl

theorem stays_of_addAll {items : List Bytes}
    (h : (item, .ok new) ∈ items.zip (addAll z maxBytes now mint s items).1) :
    (s.writes (addAll z maxBytes now mint s items).2).Stays z item now := by
  induction items generalizing s with
  | nil => cases h
  | cons other items ih =>
    have hadd := @stays_of_add ε z maxBytes now mint item s
    rw [addAll] at h ⊢
    split at h
    · rw [zip_cons_cons, zip_nil_right] at h
      obtain ⟨-, hres⟩ := Prod.mk.inj (mem_singleton.mp h)
      cases hres
    · next b ws heq =>
      dsimp only
      rw [writes_append]
      obtain hhead | hrest := mem_cons.mp (zip_cons_cons ▸ h)
      · obtain ⟨rfl, -⟩ := Prod.mk.inj hhead
        rw [heq] at hadd
        have hall := (hadd rfl).addAll maxBytes mint items
        exact take_length (l := (addAll z maxBytes now mint (s.writes ws) items).2) ▸
          hall _
      · exact ih hrest

/-! ## Whole runs -/

theorem has_of_reach (h : (afterAdd z maxBytes item).Reach Kept s) : s.Has z item := by
  refine Machine.Reach.invariant ?_ ?_ h
  · rintro s ⟨s₀, now, mint, ⟨new, hok, rfl⟩ | ⟨items, results, new, hok, hmem, rfl⟩⟩
    · exact (stays_of_add hok).1
    rw [madd] at hok ⊢
    split at hok
    · cases hok
    cases hok
    dsimp only
    rw [writes_append]
    exact (stays_of_addAll hmem).1
  intro s e s' _ hin hkept hstep
  cases hstep
  obtain ⟨m, hrow, hlook⟩ := hin
  cases e with
  | reserve now mint capacity error expansion stop =>
    rw [step, reserve, readMeta_live hrow hkept, take_nil]
    exact ⟨m, hrow, hlook⟩
  | add now mint other stop =>
    exact (Stays.add ⟨⟨m, hrow, hlook⟩, hkept⟩ maxBytes mint other stop).1
  | madd now mint items stop => exact (Stays.madd ⟨⟨m, hrow, hlook⟩, hkept⟩ mint items stop).1
  | «exists» now stop =>
    rw [step, readMeta_live hrow hkept, take_nil]
    exact ⟨m, hrow, hlook⟩
  | expireAt expireMs =>
    refine ⟨{ m with expireMs := expireMs }, ?_, hlook⟩
    rw [step, hrow]
    rfl
  | _ => exact hkept.elim

/-- **No false negatives**: from an add that succeeded on, whatever is called and wherever a process
stops, the item is reported present for as long as its key is kept. -/
theorem no_false_negatives (z : BloomSizing ε) (maxBytes : ℕ) (item : Bytes)
    (h : (afterAdd z maxBytes item).Reach Kept s) (hlive : s.Live now) :
    s.exists z now item = .ok true ∧
      ∀ items, ∃ found, s.mexists z now items = .ok found ∧ found.length = items.length ∧
        ∀ p ∈ items.zip found, p.1 = item → p.2 = true := by
  obtain ⟨m, hrow, hlook⟩ := has_of_reach h
  have hread := readMeta_live hrow hlive
  refine ⟨?_, fun items => ⟨items.map (s.lookup z m), ?_, length_map _, fun p hp hitem => ?_⟩⟩
  · rw [«exists», hread]
    exact congrArg Except.ok hlook
  · rw [mexists, hread]
  · rw [← map_prod_left_eq_zip] at hp
    obtain ⟨a, -, rfl⟩ := mem_map.mp hp
    rw [← hlook, ← hitem]

def smallSizing : BloomSizing Unit :=
  ⟨fun b => (UInt64.ofNat b.length, 5), fun _ _ => some 64, fun _ => 2, fun e _ => e, ()⟩

theorem no_false_negatives_stopped :
    (BloomKey.step smallSizing 1000
        (BloomKey.writes {} (BloomKey.add smallSizing 1000 {} 1 1 [7]).2)
      (.add 2 2 [7, 7] 1)).exists smallSizing 3 [7] = .ok true := by
  have hreach : (afterAdd smallSizing 1000 [7]).Reach Kept
      (step smallSizing 1000 (writes {} (add smallSizing 1000 {} 1 1 [7]).2)
        (.add 2 2 [7, 7] 1)) := by
    refine .step (.add 2 2 [7, 7] 1) (.init ⟨{}, 1, 1, .inl ⟨true, by decide, rfl⟩⟩) ?_ rfl
    intro m hm
    cases hm
    rfl
  refine (no_false_negatives smallSizing 1000 [7] hreach ?_).1
  intro m hm
  cases hm
  rfl

end BloomKey

end Flint
