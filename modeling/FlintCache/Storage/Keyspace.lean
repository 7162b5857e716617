import FlintCache.Storage.Rows
import FlintCache.Storage.Strings

/-!
# Storage/Keyspace — copying, renaming and times to live

These work on any type, from the header of a metadata row.  A copy clears the destination before it
has read the source's type and version.  A time to live is taken from a second reading of the clock.
-/

namespace Flint

open Option

inductive ValueType
  | string
  | hash
  | set
  | zset
  | list
  | json
  | bloom
  | stream
  | chunkedString
  deriving DecidableEq, Repr

namespace ValueType

def all : List ValueType := [string, hash, set, zset, list, json, bloom, stream, chunkedString]

def fromFlags (flags : UInt8) : Option ValueType := all[(flags &&& 0x0f).toNat]?

def inOneRow (t : ValueType) : Bool := t = string || t = json

end ValueType

def headLen (flags : UInt8) : ℕ := if (flags >>> 4) &&& 3 = 1 then headerLen + 8 else headerLen

/-- The version that `ComplexMeta::decode` reads off a row, whatever the row's type. -/
def complexVersion (row : Row) : Option ℕ :=
  (MetaHeader.decode row).bind fun h =>
    if row.length < headLen h.flags + 20 then none
    else some (fromBeBytes ((row.drop (headLen h.flags)).take 8))

def writeVersion (row : Row) (version : ℕ) : Row :=
  let off := headLen (row.headD 0)
  row.take off ++ be64 (UInt64.ofNat version) ++ row.drop (off + 8)

def Row.decodes (row : Row) : Bool :=
  (MetaHeader.decode row).all fun h =>
    (ValueType.fromFlags h.flags).any fun t => t.inOneRow || (complexVersion row).isSome

/-- The rows of one slot: metadata, and each family's rows by key, version and what follows it. -/
structure KeyRows where
  metas : Bytes → Option Row
  subs : Cf → Bytes → ℕ → Bytes → Option Bytes
  last : ℕ

inductive Ttl
  | missing
  | noExpiry
  | ms (n : ℕ)
  deriving DecidableEq, Repr

namespace KeyRows

def setMeta (st : KeyRows) (k : Bytes) (row : Option Row) : KeyRows :=
  { st with metas := Function.update st.metas k row }

/-- What a read at `now` finds of a key: a row with a header, and not expired. -/
def live (st : KeyRows) (now : ℕ) (k : Bytes) : Option (MetaHeader × Row) :=
  (st.metas k).bind fun row =>
    if row.isExpired now then none else (MetaHeader.decode row).map fun h => (h, row)

def readLiveRow (st : KeyRows) (k : Bytes) (now : ℕ) : Option (MetaHeader × Row) × KeyRows :=
  (st.live now k, if (st.metas k).any (·.isExpired now) then st.setMeta k none else st)

def rekeyRows (st : KeyRows) (cf : Cf) (src : Bytes) (v : ℕ) (dst : Bytes) (v' : ℕ) : KeyRows :=
  { st with subs := fun c k w suffix =>
      if c = cf ∧ k = dst ∧ w = v' then (st.subs cf src v suffix).or (st.subs c k w suffix)
      else st.subs c k w suffix }

variable (clk : ℕ → ℕ)

def copy (st : KeyRows) (src dst : Bytes) (replace : Bool) (i : ℕ) : Bool × KeyRows :=
  let found := st.readLiveRow src (clk i)
  match found.1 with
  | none => (false, found.2)
  | some (h, row) =>
    let there := found.2.readLiveRow dst (clk (i + 1))
    if there.1.isSome && !replace then (false, there.2)
    else
      let st := if there.1.isSome then there.2.setMeta dst none else there.2
      match ValueType.fromFlags h.flags with
      | none => (false, st)
      | some t =>
        if t.inOneRow then (true, st.setMeta dst (some row))
        else
          match complexVersion row with
          | none => (false, st)
          | some v =>
            let v' := max st.last (clk (i + 2) * 2 ^ 20) + 1
            let st := { st with last := v' }.rekeyRows .subkey src v dst v'
            let st := if t = .zset then st.rekeyRows .zScore src v dst v' else st
            (true, st.setMeta dst (some (writeVersion row v')))

def del (st : KeyRows) (k : Bytes) (i : ℕ) : Bool × KeyRows :=
  let there := st.readLiveRow k (clk i)
  (there.1.isSome, if there.1.isSome then there.2.setMeta k none else there.2)

def moveTo (st : KeyRows) (src dst : Bytes) : RenameOutcome × KeyRows :=
  let copied := st.copy clk src dst true 2
  if copied.1 then (.renamed, (copied.2.del clk src 5).2) else (.noSuchKey, copied.2)

def rename (st : KeyRows) (src dst : Bytes) (nx : Bool) : RenameOutcome × KeyRows :=
  let there := st.readLiveRow src (clk 0)
  let taken := there.2.readLiveRow dst (clk 1)
  if there.1.isNone then (.noSuchKey, there.2)
  else if src = dst then (if nx then .destinationExists else .renamed, there.2)
  else if nx then
    if taken.1.isSome then (.destinationExists, taken.2) else taken.2.moveTo clk src dst
  else there.2.moveTo clk src dst

/-- The remaining time is a difference of two `u64`s, which wraps where overflow is not checked. -/
def ttl (st : KeyRows) (k : Bytes) : Ttl × KeyRows :=
  let found := st.readLiveRow k (clk 0)
  (match found.1 with
    | none => .missing
    | some (h, _) =>
      if h.expireMs = 0 then .noExpiry else .ms ((h.expireMs + 2 ^ 64 - clk 1) % 2 ^ 64), found.2)

def expireTimeMs (st : KeyRows) (k : Bytes) : Option ℕ × KeyRows :=
  let found := st.readLiveRow k (clk 0)
  (found.1.map fun hr => hr.1.expireMs, found.2)

def cmdTtl (st : KeyRows) (k : Bytes) (unitMs : ℕ) : Int64 :=
  match (st.ttl clk k).1 with
  | .missing => -2
  | .noExpiry => -1
  | .ms n => Int64.ofNat (min (n + unitMs / 2) (2 ^ 64 - 1) / unitMs)

def cmdExpireTime (st : KeyRows) (k : Bytes) (unitMs : ℕ) : Int64 :=
  match (st.expireTimeMs clk k).1 with
  | none => -2
  | some 0 => -1
  | some n => Int64.ofNat (n / unitMs)

/-! ## Failures -/

variable {clk} {st st' : KeyRows} {src dst k : Bytes} {now t : ℕ}

structure SameReads (now : ℕ) (st st' : KeyRows) : Prop where
  live : ∀ k, st'.live now k = st.live now k
  subs : st'.subs = st.subs

theorem SameReads.trans {st'' : KeyRows} (h : SameReads now st st') (h' : SameReads now st' st'') :
    SameReads now st st'' :=
  ⟨fun k => (h'.live k).trans (h.live k), h'.subs.trans h.subs⟩

variable {row : Row}

theorem isExpired_mono (ht : t ≤ now) (h : row.isExpired t) : row.isExpired now := by
  simp only [Row.isExpired, MetaHeader.isExpired, any_eq_true, Bool.and_eq_true,
    decide_eq_true_eq] at h ⊢
  obtain ⟨header, hdecode, hset, hle⟩ := h
  exact ⟨header, hdecode, hset, hle.trans ht⟩

theorem sameReads_readLiveRow (ht : t ≤ now) (k : Bytes) :
    SameReads now st (st.readLiveRow k t).2 := by
  unfold readLiveRow
  dsimp only
  split
  · next hexpired =>
    simp only [any_eq_true] at hexpired
    obtain ⟨row, hrow, hexpired⟩ := hexpired
    refine ⟨fun k' => ?_, rfl⟩
    by_cases hk : k' = k
    · simp [KeyRows.live, setMeta, hk, hrow, isExpired_mono ht hexpired]
    · simp [KeyRows.live, setMeta, hk]
  · exact ⟨fun _ => rfl, rfl⟩

theorem live_none_mono (ht : t ≤ now) (h : st.live t k = none) : st.live now k = none := by
  rw [KeyRows.live, bind_eq_none_iff] at h ⊢
  intro row hrow
  have hnone := h row hrow
  split
  · rfl
  · next hfresh => rwa [if_neg fun hexpired => hfresh (isExpired_mono ht hexpired)] at hnone

theorem readLiveRow_of_live (h : (st.live t k).isSome = true) : (st.readLiveRow k t).2 = st := by
  obtain ⟨hr, hlive⟩ := isSome_iff_exists.mp h
  obtain ⟨row, hrow, hfound⟩ := bind_eq_some_iff.mp hlive
  obtain ⟨hfresh, -⟩ := ite_none_left_eq_some.mp hfound
  simp [readLiveRow, hrow, hfresh]

theorem sameReads_clear (hsame : SameReads now st st') (hdst : st.live now dst = none) :
    SameReads now st (st'.setMeta dst none) := by
  refine ⟨fun k => ?_, hsame.subs⟩
  by_cases hk : k = dst
  · rw [hk, hdst]
    simp [KeyRows.live, setMeta]
  · rw [← hsame.live k]
    simp [KeyRows.live, setMeta, hk]

theorem decode_of_live {hr : MetaHeader × Row} (h : st.live t k = some hr) :
    MetaHeader.decode hr.2 = some hr.1 := by
  obtain ⟨row, -, hfound⟩ := bind_eq_some_iff.mp h
  obtain ⟨-, hfound⟩ := ite_none_left_eq_some.mp hfound
  obtain ⟨header, hdecode, rfl⟩ := map_eq_some_iff.mp hfound
  exact hdecode

/-- The source is gone or decodes, or there is no destination to lose. -/
def Copyable (st : KeyRows) (t now : ℕ) (src dst : Bytes) : Prop :=
  (∀ hr, st.live t src = some hr → hr.2.decodes = true) ∨ st.live now dst = none

/-- A copy fails with the store as it reads, or with the destination cleared for a source that does
not decode. -/
theorem copy_fails (hnow : ∀ i, clk i ≤ now) {replace : Bool} {i : ℕ}
    (hfail : (st.copy clk src dst replace i).1 = false) :
    SameReads now st (st.copy clk src dst replace i).2 ∨
      replace = true ∧ (∃ hr, st.live (clk i) src = some hr ∧ hr.2.decodes = false) ∧
        ∃ there, SameReads now st there ∧
          (st.copy clk src dst replace i).2 = there.setMeta dst none := by
  have hread := @sameReads_readLiveRow st _ _ (hnow i) src
  have hthere := hread.trans (sameReads_readLiveRow (hnow (i + 1)) dst)
  unfold copy at hfail ⊢
  dsimp only at hfail ⊢
  cases hfound : (st.readLiveRow src (clk i)).1 with
  | none => exact .inl hread
  | some hr =>
    have hdecode := decode_of_live (hfound : st.live (clk i) src = some hr)
    obtain ⟨h, row⟩ := hr
    rw [hfound] at hfail
    dsimp only at hfail ⊢
    split
    · exact .inl hthere
    next hgo =>
    rw [if_neg hgo] at hfail
    by_cases hsome : ((st.readLiveRow src (clk i)).2.readLiveRow dst (clk (i + 1))).1.isSome = true
    · -- The destination is cleared: what fails now is the source's row.
      rw [hsome, Bool.true_and, Bool.not_eq_true', Bool.not_eq_false] at hgo
      simp only [if_pos hsome] at hfail ⊢
      cases htype : ValueType.fromFlags h.flags with
      | none =>
        exact .inr ⟨hgo, ⟨_, hfound, by simp [Row.decodes, hdecode, htype]⟩, _, hthere, rfl⟩
      | some ty =>
        rw [htype] at hfail
        cases hone : ty.inOneRow with
        | true => simp [hone] at hfail
        | false =>
          cases hversion : complexVersion row with
          | some v => simp [hone, hversion] at hfail
          | none =>
            refine .inr ⟨hgo, ⟨_, hfound, ?_⟩, _, hthere, by simp [hone]⟩
            simp [Row.decodes, hdecode, htype, hone, hversion]
    · simp only [if_neg hsome] at hfail ⊢
      split at hfail
      · next htype => exact .inl (by simpa [htype] using hthere)
      · next ty htype =>
        split at hfail
        · cases hfail
        next hone =>
        split at hfail
        · next hversion => exact .inl (by simpa [htype, hone, hversion] using hthere)
        · cases hfail

theorem copy_undecodable (hnow : ∀ i, clk i ≤ now) (dst : Bytes) {i : ℕ} {hr : MetaHeader × Row}
    (hlive : st.live (clk i) src = some hr) (hdecodes : hr.2.decodes = false) :
    (st.copy clk src dst true i).1 = false ∧
        (st.copy clk src dst true i).2.live now dst = none := by
  have hdecode := decode_of_live hlive
  obtain ⟨h, row⟩ := hr
  -- Past the lookups the destination is gone, whether it was cleared or not.
  have hgone : (if ((st.readLiveRow src (clk i)).2.readLiveRow dst (clk (i + 1))).1.isSome =
      true then
      ((st.readLiveRow src (clk i)).2.readLiveRow dst (clk (i + 1))).2.setMeta dst none
      else ((st.readLiveRow src (clk i)).2.readLiveRow dst (clk (i + 1))).2).live now dst =
          none := by
    split
    · simp [KeyRows.live, setMeta]
    · next hnone =>
      have hbefore := live_none_mono (hnow (i + 1)) (not_isSome_iff_eq_none.mp hnone)
      exact ((sameReads_readLiveRow (hnow (i + 1)) dst).live dst).trans hbefore
  have hfound : (st.readLiveRow src (clk i)).1 = some (h, row) := hlive
  unfold copy
  simp only [hfound, Bool.not_true, Bool.and_false, if_neg Bool.false_ne_true]
  simp only [Row.decodes, hdecode, all_some] at hdecodes
  cases htype : ValueType.fromFlags h.flags with
  | none => exact ⟨rfl, hgone⟩
  | some ty =>
    simp only [htype, any_some, Bool.or_eq_false_iff, isSome_eq_false_iff, isNone_iff_eq_none]
      at hdecodes
    simp only [hdecodes.1, hdecodes.2, if_neg Bool.false_ne_true]
    exact ⟨trivial, hgone⟩

theorem copy_keeps_iff (hnow : ∀ i, clk i ≤ now) (dst : Bytes) (replace : Bool) (i : ℕ) :
    ((st.copy clk src dst replace i).1 = false →
        SameReads now st (st.copy clk src dst replace i).2) ↔
      (replace = true → st.Copyable (clk i) now src dst) := by
  constructor
  · rintro hkeeps rfl
    by_contra hbad
    rw [Copyable, not_or, not_forall] at hbad
    obtain ⟨⟨hr, hhr⟩, hdst⟩ := hbad
    rw [Classical.not_imp, Bool.not_eq_true] at hhr
    obtain ⟨hfail, hgone⟩ := copy_undecodable hnow dst hhr.1 hhr.2
    exact hdst (((hkeeps hfail).live dst).symm.trans hgone)
  · intro hcopyable hfail
    obtain hsame | ⟨hreplace, ⟨hr, hlive, hdecodes⟩, there, hsame, heq⟩ := copy_fails hnow hfail
    · exact hsame
    obtain hsrc | hdst := hcopyable hreplace
    · rw [hsrc hr hlive] at hdecodes
      cases hdecodes
    · rw [heq]
      exact sameReads_clear hsame hdst

theorem moveTo_keeps_iff (hnow : ∀ i, clk i ≤ now) (dst : Bytes) :
    ((st.moveTo clk src dst).1 ≠ .renamed → SameReads now st (st.moveTo clk src dst).2) ↔
      st.Copyable (clk 2) now src dst := by
  have hcopy := @copy_keeps_iff clk st src now hnow dst true 2
  rw [forall_prop_of_true rfl] at hcopy
  rw [← hcopy, moveTo]
  split
  · next hcopied => simp [hcopied]
  · next hcopied => simp [hcopied]

/-- **A copy or a rename without success leaves every key as it reads**, exactly if there is no
destination to lose or the source decodes.  A copy that does not replace, a rename to a key that
must not exist and a rename to itself always do. -/
theorem failed_copy_keeps (hclk : Monotone clk) (hnow : ∀ i, clk i ≤ now) (dst : Bytes)
    (replace nx : Bool) :
    (((st.copy clk src dst replace 0).1 = false →
        SameReads now st (st.copy clk src dst replace 0).2) ↔
      (replace = true → st.Copyable (clk 0) now src dst)) ∧
    (((st.rename clk src dst nx).1 ≠ .renamed → SameReads now st (st.rename clk src dst nx).2) ↔
      (nx = false → src ≠ dst → st.Copyable (clk 2) now src dst)) := by
  refine ⟨copy_keeps_iff hnow dst replace 0, ?_⟩
  have hread := @sameReads_readLiveRow st _ _ (hnow 0) src
  have htaken := hread.trans (sameReads_readLiveRow (hnow 1) dst)
  unfold rename
  dsimp only
  split
  · next hnone =>
    refine iff_of_true (fun _ => hread) fun _ _ => .inl fun hr hlive => ?_
    have hgone := live_none_mono (hclk (Nat.zero_le 2)) (isNone_iff_eq_none.mp hnone)
    rw [hgone] at hlive
    cases hlive
  next hsome =>
  have hself := readLiveRow_of_live (isNone_eq_false_iff.mp ((Bool.not_eq_true _).mp hsome))
  rw [hself] at htaken ⊢
  split
  · next heq => exact iff_of_true (fun _ => ⟨fun _ => rfl, rfl⟩) fun _ hne => absurd heq hne
  next hne =>
  split
  · next hnx =>
    refine iff_of_true ?_ fun hnot => absurd (hnot.symm.trans hnx) Bool.false_ne_true
    split
    · exact fun _ => htaken
    · next hfree =>
      intro hfail
      have hdst := live_none_mono (hnow 1) (not_isSome_iff_eq_none.mp hfree)
      have hkeeps := (moveTo_keeps_iff hnow dst).mpr (.inr ((htaken.live dst).trans hdst)) hfail
      exact htaken.trans hkeeps
  · next hnx =>
    rw [moveTo_keeps_iff hnow dst]
    simp [hnx, hne]

def twoRows (flags : UInt8) : KeyRows :=
  ⟨fun k => if k = [1] then some [flags, 0, 0, 0, 0, 0, 0, 0, 0, 7]
    else if k = [2] then some [0, 0, 0, 0, 0, 0, 0, 0, 0, 8] else none, fun _ _ _ _ => none, 0⟩

theorem failed_copy_keeps_two :
    ((twoRows 0).rename (fun _ => 5) [1] [2] true).1 ≠ .renamed ∧
      SameReads 5 (twoRows 0) ((twoRows 0).rename (fun _ => 5) [1] [2] true).2 :=
  ⟨by decide, (failed_copy_keeps monotone_const (fun _ => le_rfl) [2] false true).2.mpr nofun
    (by decide)⟩

/-- **The destination is gone**, although nothing was copied: the source's type is unknown. -/
theorem copy_loses_destination :
    ((twoRows 9).copy (fun _ => 5) [1] [2] true 0).1 = false ∧
      ((twoRows 9).rename (fun _ => 5) [1] [2] false).1 = .noSuchKey ∧
      ((twoRows 9).live 5 [2]).isSome = true ∧
      ((twoRows 9).copy (fun _ => 5) [1] [2] true 0).2.live 5 [2] = none ∧
      ((twoRows 9).rename (fun _ => 5) [1] [2] false).2.live 5 [2] = none := by
  decide

/-! ## Times to live -/

theorem live_of_decode {h : MetaHeader} (hrow : st.metas k = some row)
    (hdecode : MetaHeader.decode row = some h) (hset : h.expireMs ≠ 0) (now : ℕ) :
    st.live now k = if h.expireMs ≤ now then none else some (h, row) := by
  simp [KeyRows.live, hrow, Row.isExpired, hdecode, MetaHeader.isExpired, hset]

theorem ttl_of_live {h : MetaHeader} (hlive : st.live (clk 0) k = some (h, row))
    (hset : h.expireMs ≠ 0) :
    (st.ttl clk k).1 = .ms ((h.expireMs + 2 ^ 64 - clk 1) % 2 ^ 64) := by
  simp [ttl, readLiveRow, hlive, hset]

/-- Rounding to a unit does not raise a time. -/
theorem round_le (n : ℕ) {unitMs : ℕ} (hunit : 0 < unitMs) : (n + unitMs / 2) / unitMs ≤ n := by
  refine Nat.le_of_lt_succ (Nat.div_lt_of_lt_mul ?_)
  have hle : n ≤ unitMs * n := Nat.le_mul_of_pos_left n hunit
  rw [Nat.mul_succ]
  omega

/-- **A remaining time is at most what was left at the first reading**, and a reply is that in its
unit, exactly if the key does not expire between the readings. -/
theorem ttl_bounded {h : MetaHeader} {row : Row} (hrow : st.metas k = some row)
    (hdecode : MetaHeader.decode row = some h) (hset : h.expireMs ≠ 0) (hfits : h.expireMs < 2 ^ 63)
    (hle : clk 0 ≤ clk 1) (hclock : clk 1 < 2 ^ 64) :
    (((st.ttl clk k).1 = .missing ∧ h.expireMs ≤ clk 0 ∨
        ∃ n, (st.ttl clk k).1 = .ms n ∧ n ≤ h.expireMs - clk 0 ∧ clk 0 < h.expireMs) ∧
      ∀ unitMs, 0 < unitMs →
        ((st.cmdTtl clk k unitMs).toInt = -2 ∨ 0 ≤ (st.cmdTtl clk k unitMs).toInt ∧
          (st.cmdTtl clk k unitMs).toInt ≤ ((h.expireMs - clk 0 + unitMs / 2) / unitMs : ℕ)) ∧
        ((st.cmdExpireTime clk k unitMs).toInt = -2 ∨
          (st.cmdExpireTime clk k unitMs).toInt = (h.expireMs / unitMs : ℕ))) ↔
      (h.expireMs ≤ clk 0 ∨ clk 1 ≤ h.expireMs) := by
  have hlive := live_of_decode hrow hdecode hset (clk 0)
  by_cases hpast : h.expireMs ≤ clk 0
  · rw [if_pos hpast] at hlive
    have httl : (st.ttl clk k).1 = .missing := by simp [ttl, readLiveRow, hlive]
    refine iff_of_true ⟨.inl ⟨httl, hpast⟩, fun _ _ => ⟨.inl ?_, .inl ?_⟩⟩ (.inl hpast)
    · rw [cmdTtl, httl]
      rfl
    · simp [cmdExpireTime, expireTimeMs, readLiveRow, hlive]
  rw [if_neg hpast] at hlive
  have httl := ttl_of_live hlive hset
  refine ⟨fun hbounded => ?_, fun hbetween => ?_⟩
  · -- A difference that wraps is larger than any two readings are apart.
    obtain hmissing | ⟨n, hn, hnle, -⟩ := hbounded.1
    · exact .inl hmissing.2
    obtain rfl := Ttl.ms.inj (httl.symm.trans hn)
    by_contra hneither
    rw [Nat.mod_eq_of_lt (by omega)] at hnle
    omega
  · have hnext : clk 1 ≤ h.expireMs := hbetween.resolve_left hpast
    have hms : (h.expireMs + 2 ^ 64 - clk 1) % 2 ^ 64 ≤ h.expireMs - clk 0 := by
      rw [Nat.sub_add_comm hnext, Nat.add_mod_right]
      exact (Nat.mod_le _ _).trans (by omega)
    refine ⟨.inr ⟨_, httl, hms, by omega⟩, fun unitMs hunit => ⟨.inr ?_, .inr ?_⟩⟩
    · have hdiv : min ((h.expireMs + 2 ^ 64 - clk 1) % 2 ^ 64 + unitMs / 2) (2 ^ 64 - 1) / unitMs ≤
          (h.expireMs - clk 0 + unitMs / 2) / unitMs :=
        Nat.div_le_div_right ((Nat.min_le_left ..).trans (by omega))
      have hsmall := round_le (h.expireMs - clk 0) hunit
      rw [cmdTtl, httl, Int64.toInt_ofNat_of_lt (by omega)]
      exact ⟨by positivity, by exact_mod_cast hdiv⟩
    · rw [cmdExpireTime, expireTimeMs, readLiveRow, hlive]
      obtain ⟨n, hn⟩ := Nat.exists_eq_succ_of_ne_zero hset
      have hsmall := Nat.div_le_self n.succ unitMs
      simp only [Option.map_some, hn]
      rw [Int64.toInt_ofNat_of_lt (by omega)]

def expiring : KeyRows := ⟨fun _ => some [0, 0, 0, 0, 0, 0, 0, 0, 100, 7], fun _ _ _ _ => none, 0⟩

theorem ttl_bounded_fifty : (expiring.ttl (fun i => 50 + i) [1]).1 = .ms 49 ∧
    ((expiring.ttl (fun i => 50 + i) [1]).1 = .missing ∧ 100 ≤ 50 ∨
      ∃ n, (expiring.ttl (fun i => 50 + i) [1]).1 = .ms n ∧ n ≤ 100 - 50 ∧ 50 < 100) :=
  ⟨by decide, ((@ttl_bounded (fun i => 50 + i) expiring [1] ⟨0, 100⟩ _ rfl (by decide) (by decide)
    (by decide) (by decide) (by decide)).mpr (.inr (by decide))).1⟩

/-- **A key that expires between the readings** has more time left than a clock can show. -/
theorem ttl_wraps : (expiring.ttl (fun i => 99 + 2 * i) [1]).1 = .ms (2 ^ 64 - 1) := by decide

end KeyRows

end Flint
