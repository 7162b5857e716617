import FlintCache.Lib.Machine
import FlintCache.Storage.Batch
import FlintCache.Storage.RowKeys

/-!
# Storage/Zsets — a sorted set and its two indexes

A sorted set keeps a row for each member, with its score, and an index row for each score and
member, in whose order the set is read; its metadata counts the members, in thirty-two bits, and
adds up what they cost.  A score is its sixty-four bits, and how two scores add is left open.
-/

namespace Flint

open List SortedRows UInt64
open Function (update update_of_ne update_self)

/-! ## Scores -/

def isNan (s : UInt64) : Bool := 0x7FF0000000000000 < s &&& ~~~signBit

def scoreRank (s : UInt64) : ℕ := (encodeScore (if s &&& ~~~signBit = 0 then 0 else s)).toNat

def scoreLe (a b : UInt64) : Bool := !isNan a && !isNan b && scoreRank a ≤ scoreRank b

def scoreLt (a b : UInt64) : Bool := !isNan a && !isNan b && scoreRank a < scoreRank b

def scoreEq (a b : UInt64) : Bool := !isNan a && !isNan b && scoreRank a == scoreRank b

def storedScore (s : UInt64) : UInt64 := if scoreEq s 0 then 0 else s

structure ScoreBound where
  value : UInt64
  inclusive : Bool

def ScoreBound.geLower (b : ScoreBound) (s : UInt64) : Bool :=
  if b.inclusive then scoreLe b.value s else scoreLt b.value s

def ScoreBound.leUpper (b : ScoreBound) (s : UInt64) : Bool :=
  if b.inclusive then scoreLe s b.value else scoreLt s b.value

inductive LexBound
  | negInf
  | posInf
  | incl (member : Bytes)
  | excl (member : Bytes)

def LexBound.geLower (b : LexBound) (m : Bytes) : Bool :=
  match b with
  | .negInf => true
  | .posInf => false
  | .incl v => v ≤ m
  | .excl v => v < m

def LexBound.leUpper (b : LexBound) (m : Bytes) : Bool :=
  match b with
  | .negInf => false
  | .posInf => true
  | .incl v => m ≤ v
  | .excl v => m < v

def memberCost (m : Bytes) : ℕ := m.length + 8

/-! ## The rows of one version -/

def indexKey (s : UInt64) (m : Bytes) : ℕ ×ₗ Bytes := toLex ((encodeScore s).toNat, m)

/-- The two rows of each member: its score, and the member under its score. -/
structure ZRows where
  members : SortedRows Bytes UInt64
  index : SortedRows (ℕ ×ₗ Bytes) Unit

open ZRows

variable {r : ZRows} {k : Bytes} {f : ZRows → Bytes × UInt64 → ZRows}

namespace ZRows

def empty : ZRows := ⟨.empty, .empty⟩

def put (r : ZRows) (m : Bytes) (s : UInt64) : ZRows :=
  ⟨r.members.put m s, r.index.put (indexKey s m) ()⟩

def dropIndex (r : ZRows) (s : UInt64) (m : Bytes) : ZRows :=
  { r with index := r.index.erase (indexKey s m) }

/-- `zadd`'s write of one member: both rows anew, the old index row gone if the score differs. -/
def set (r : ZRows) (row : Bytes × UInt64) : ZRows :=
  match r.members.get row.1 with
  | some old => (if old ≠ row.2 then r.dropIndex old row.1 else r).put row.1 row.2
  | none => r.put row.1 row.2

/-- `zadd_with`'s, which leaves a member whose score's bits stay. -/
def move (r : ZRows) (row : Bytes × UInt64) : ZRows :=
  match r.members.get row.1 with
  | some old => if old = row.2 then r else (r.dropIndex old row.1).put row.1 row.2
  | none => r.put row.1 row.2

def remove (r : ZRows) (m : Bytes) : ZRows :=
  match r.members.get m with
  | some old => ⟨r.members.erase m, r.index.erase (indexKey old m)⟩
  | none => r

def rekey (r onto : ZRows) : ZRows :=
  ⟨onto.members.putAll r.members.rows, onto.index.putAll r.index.rows⟩

def walk (r : ZRows) : List (UInt64 × Bytes) :=
  r.index.rows.map fun row => (decodeScore (UInt64.ofNat (ofLex row.1).1), (ofLex row.1).2)

/-- **The two families agree**: the index rows are those of the members at their scores. -/
def Paired (r : ZRows) : Prop :=
  ∀ key, r.index.get key = some () ↔ ∃ m s, r.members.get m = some s ∧ key = indexKey s m

theorem indexKey_injective {s s' : UInt64} {m m' : Bytes} (h : indexKey s m = indexKey s' m') :
    s = s' ∧ m = m' := by
  have hpair := toLex.injective h
  rw [Prod.mk.injEq] at hpair
  exact ⟨encodeScore_injective (UInt64.toNat_inj.mp hpair.1), hpair.2⟩

theorem paired_empty : empty.Paired := fun key => by simp [empty]

variable {m : Bytes} {s : UInt64}

theorem members_remove : (r.remove m).members = r.members.erase m := by
  unfold remove
  cases hm : r.members.get m with
  | some old => rfl
  | none =>
    refine ext_get fun k => ?_
    rw [get_erase]
    by_cases hk : k = m
    · rw [if_pos hk, hk]
      exact hm
    · rw [if_neg hk]

section

variable (h : r.Paired)
include h

theorem Paired.remove (m : Bytes) : (r.remove m).Paired := by
  intro key
  rw [members_remove]
  unfold ZRows.remove
  cases hm : r.members.get m with
  | none =>
    refine (h key).trans (exists₂_congr fun m' s' => and_congr_left fun _ => ?_)
    rw [get_erase]
    split
    · next heq => rw [heq, hm]
    · rfl
  | some old =>
    simp only [get_erase]
    by_cases hkey : key = indexKey old m
    · rw [if_pos hkey]
      refine iff_of_false nofun ?_
      rintro ⟨m', s', hs, hkey'⟩
      obtain ⟨-, rfl⟩ := indexKey_injective (hkey.symm.trans hkey')
      rw [if_pos rfl] at hs
      cases hs
    rw [if_neg hkey]
    refine (h key).trans (exists₂_congr fun m' s' => ?_)
    by_cases hm' : m' = m
    · rw [if_pos hm', hm', hm]
      refine iff_of_false ?_ nofun
      rintro ⟨hs, hkey'⟩
      cases hs
      exact hkey hkey'
    · rw [if_neg hm']

theorem Paired.put (hm : r.members.get m = none) (s : UInt64) : (r.put m s).Paired := by
  intro key
  show (r.index.put (indexKey s m) ()).get key = some () ↔
    ∃ m' s', (r.members.put m s).get m' = some s' ∧ key = indexKey s' m'
  rw [get_put]
  simp only [get_put]
  by_cases hkey : key = indexKey s m
  · rw [if_pos hkey]
    exact iff_of_true rfl ⟨m, s, if_pos rfl, hkey⟩
  rw [if_neg hkey]
  refine (h key).trans (exists₂_congr fun m' s' => ?_)
  by_cases hm' : m' = m
  · rw [if_pos hm', hm', hm]
    refine iff_of_false nofun ?_
    rintro ⟨hs, hkey'⟩
    cases hs
    exact hkey hkey'
  · rw [if_neg hm']

omit h in
theorem set_eq (r : ZRows) (row : Bytes × UInt64) :
    r.set row = (r.remove row.1).put row.1 row.2 := by
  obtain ⟨m, s⟩ := row
  unfold set remove
  cases r.members.get m with
  | none => rfl
  | some old =>
    simp only [put, put_erase]
    by_cases h : old = s
    · rw [h, if_neg (not_not.mpr rfl), put_erase]
    · rw [if_pos h]
      rfl

theorem Paired.move_eq (row : Bytes × UInt64) : r.move row = (r.remove row.1).put row.1 row.2 := by
  obtain ⟨m, s⟩ := row
  unfold ZRows.move ZRows.remove
  cases hm : r.members.get m with
  | none => rfl
  | some old =>
    simp only [ZRows.put, put_erase]
    by_cases heq : old = s
    · have hindex : r.index.get (indexKey s m) = some () := (h _).mpr ⟨m, s, heq ▸ hm, rfl⟩
      have hmembers : r.members.put m s = r.members := by
        refine ext_get fun k => ?_
        rw [get_put]
        split
        · next hk => rw [hk, hm, heq]
        · rfl
      have hput : r.index.put (indexKey s m) () = r.index := by
        refine ext_get fun k => ?_
        rw [get_put]
        split
        · next hk => rw [hk, hindex]
        · rfl
      rw [if_pos heq, heq, put_erase, hmembers, hput]
    · rw [if_neg heq]
      rfl

omit h in
theorem mem_keys_remove_put :
    k ∈ ((r.remove m).put m s).members.keys ↔ k = m ∨ k ∈ r.members.keys := by
  show k ∈ ((r.remove m).members.put m s).keys ↔ _
  rw [members_remove, put_erase, mem_keys_put]

theorem Paired.remove_put (m : Bytes) (s : UInt64) : ((r.remove m).put m s).Paired := by
  refine (h.remove m).put ?_ s
  rw [members_remove, get_erase, if_pos rfl]

theorem Paired.foldl (hf : ∀ r row, r.Paired → f r row = (r.remove row.1).put row.1 row.2)
    (rows : List (Bytes × UInt64)) : (rows.foldl f r).Paired ∧
      ∀ k, k ∈ (rows.foldl f r).members.keys ↔ k ∈ r.members.keys ∨ k ∈ rows.map Prod.fst := by
  induction rows generalizing r with
  | nil => exact ⟨h, fun k => by simp⟩
  | cons row rows ih =>
    obtain ⟨hpaired, hkeys⟩ := ih (h.remove_put row.1 row.2)
    rw [foldl_cons, hf r row h]
    refine ⟨hpaired, fun k => ?_⟩
    rw [hkeys, mem_keys_remove_put, map_cons, mem_cons, or_assoc, or_left_comm]

end

theorem rekey_empty (r : ZRows) : r.rekey empty = r := by
  unfold rekey empty
  rw [putAll_empty, putAll_empty]

end ZRows

/-! ## The store -/

/-- The metadata of a key, a sorted set or not. -/
structure ZMeta where
  isZset : Bool
  expireMs : ℕ
  version : ℕ
  size : ℕ
  bytes : ℕ

def ZMeta.isExpired (m : ZMeta) (now : ℕ) : Bool := m.expireMs != 0 && m.expireMs ≤ now

inductive ZErr
  | wrongType
  | valueTooLarge
  | nanScore
  deriving DecidableEq, Repr

/-- The keys' metadata, their rows by version, and the last version minted. -/
structure ZStore where
  metas : Bytes → Option ZMeta
  rows : Bytes → ℕ → ZRows
  last : ℕ

def wrap32 (n : ℕ) : ℕ := n % 2 ^ 32

variable (maxBytes : ℕ) (fadd : UInt64 → UInt64 → UInt64)

namespace ZStore

def withMeta (st : ZStore) (k : Bytes) (m : Option ZMeta) : ZStore :=
  { st with metas := update st.metas k m }

def withRows (st : ZStore) (k : Bytes) (v : ℕ) (r : ZRows) : ZStore :=
  { st with rows := update st.rows k (update (st.rows k) v r) }

def live (st : ZStore) (now : ℕ) (k : Bytes) : Option ZMeta :=
  (st.metas k).filter fun m => !m.isExpired now

def expire (st : ZStore) (now : ℕ) (k : Bytes) : ZStore := st.withMeta k (st.live now k)

def readMeta (st : ZStore) (now : ℕ) (k : Bytes) : Except ZErr (Option ZMeta) :=
  match st.live now k with
  | none => .ok none
  | some m => if m.isZset then .ok (some m) else .error .wrongType

def nextVersion (st : ZStore) (now : ℕ) : ℕ := max st.last (now * 2 ^ 20) + 1

def metaOr (st : ZStore) (now : ℕ) : Option ZMeta → ZMeta × ZStore
  | some m => (m, st)
  | none => (⟨true, 0, st.nextVersion now, 0, 0⟩, { st with last := st.nextVersion now })

/-! ### Adding -/

def write (st : ZStore) (k : Bytes) (m : ZMeta) (unique : SortedRows Bytes UInt64) (added : ℕ)
    (f : ZRows → Bytes × UInt64 → ZRows) : Option ZStore :=
  let r := st.rows k m.version
  let bytes := m.bytes + ((r.members.fresh unique.rows).map fun row => memberCost row.1).sum
  if maxBytes < bytes then none
  else
    some ((st.withRows k m.version (unique.rows.foldl f r)).withMeta k
      (some { m with size := wrap32 (m.size + wrap32 added), bytes := bytes }))

def zadd (st : ZStore) (now : ℕ) (k : Bytes) (pairs : List (UInt64 × Bytes)) :
    Except ZErr ℕ × ZStore :=
  let st := st.expire now k
  match st.readMeta now k with
  | .error e => (.error e, st)
  | .ok m? =>
    let target := st.metaOr now m?
    let unique := pairs.foldl (fun u p => u.put p.2 (storedScore p.1)) .empty
    let added := ((target.2.rows k target.1.version).members.fresh unique.rows).length
    match target.2.write maxBytes k target.1 unique added ZRows.set with
    | none => (.error .valueTooLarge, target.2)
    | some st => (.ok added, st)

/-- The options of a `ZADD`. -/
structure ZaddFlags where
  nx : Bool
  xx : Bool
  gt : Bool
  lt : Bool
  incr : Bool

structure ZaddRun where
  now : SortedRows Bytes UInt64
  added : ℕ
  updated : ℕ
  score : Option UInt64

def ZaddRun.start : ZaddRun := ⟨.empty, 0, 0, none⟩

def zaddPair (r : ZRows) (flags : ZaddFlags) (run : ZaddRun) (pair : UInt64 × Bytes) :
    Except ZErr ZaddRun :=
  match (run.now.get pair.2).or (r.members.get pair.2) with
  | some current =>
    if flags.nx then .ok run
    else
      let next := storedScore (if flags.incr then fadd current pair.1 else pair.1)
      if isNan next then .error .nanScore
      else if flags.lt && scoreLe current next || flags.gt && scoreLe next current then .ok run
      else if scoreEq next current then .ok { run with score := some next }
      else
        .ok { run with
          score := some next, updated := run.updated + 1, now := run.now.put pair.2 next }
  | none =>
    if flags.xx then .ok run
    else
      .ok { run with
        score := some pair.1
        added := run.added + 1
        now := run.now.put pair.2 (storedScore pair.1) }

def zaddWith (st : ZStore) (now : ℕ) (k : Bytes)
    (pairs : List (UInt64 × Bytes)) (flags : ZaddFlags) :
    Except ZErr ZaddRun × ZStore :=
  let st := st.expire now k
  match st.readMeta now k with
  | .error e => (.error e, st)
  | .ok m? =>
    if m?.isNone && flags.xx then (.ok .start, st)
    else
      let target := st.metaOr now m?
      match pairs.foldlM (zaddPair fadd (target.2.rows k target.1.version) flags) ZaddRun.start with
      | .error e => (.error e, target.2)
      | .ok run =>
        if run.now.rows.isEmpty then (.ok run, target.2)
        else
          match target.2.write maxBytes k target.1 run.now run.added ZRows.move with
          | none => (.error .valueTooLarge, target.2)
          | some st => (.ok run, st)

def zscore (st : ZStore) (now : ℕ) (k m : Bytes) : Except ZErr (Option UInt64) :=
  (st.readMeta now k).map fun m? => m?.bind fun meta' => (st.rows k meta'.version).members.get m

def zincrBy (st : ZStore) (now : ℕ) (k : Bytes) (delta : UInt64) (m : Bytes) :
    Except ZErr UInt64 × ZStore :=
  let st := st.expire now k
  match st.zscore now k m with
  | .error e => (.error e, st)
  | .ok s =>
    let next := s.elim delta fun current => fadd current delta
    if isNan next then (.error .nanScore, st)
    else
      match st.zadd maxBytes now k [(next, m)] with
      | (.error e, st) => (.error e, st)
      | (.ok _, st) => (.ok next, st)

/-! ### Removing -/

structure ZremRun where
  rows : ZRows
  removed : ℕ
  bytes : ℕ

def ZremRun.drop (run : ZremRun) (m : Bytes) : ZremRun :=
  match run.rows.members.get m with
  | none => run
  | some _ => ⟨run.rows.remove m, run.removed + 1, run.bytes - memberCost m⟩

def zrem (st : ZStore) (now : ℕ) (k : Bytes) (ms : List Bytes) : Except ZErr ℕ × ZStore :=
  let st := st.expire now k
  match st.readMeta now k with
  | .error e => (.error e, st)
  | .ok none => (.ok 0, st)
  | .ok (some m) =>
    let run := ms.foldl ZremRun.drop ⟨st.rows k m.version, 0, m.bytes⟩
    let size := m.size - wrap32 run.removed
    let st := st.withRows k m.version run.rows
    (.ok run.removed,
      st.withMeta k (if size = 0 then none else some { m with size := size, bytes := run.bytes }))

def zremBy (st : ZStore) (now : ℕ) (k : Bytes)
    (pick : ℕ → List (UInt64 × Bytes) → List (UInt64 × Bytes)) : Except ZErr ℕ × ZStore :=
  let st := st.expire now k
  match st.readMeta now k with
  | .error e => (.error e, st)
  | .ok m? =>
    st.zrem now k (m?.elim [] fun m => (pick m.size (st.rows k m.version).walk).map Prod.snd)

def zpop (st : ZStore) (now : ℕ) (k : Bytes) (count : ℕ) (maxEnd : Bool) : Except ZErr ℕ × ZStore :=
  st.zremBy now k fun _ rows => (if maxEnd then rows.reverse else rows).take count

/-- A walk that skips what is not inside the near bound and stops past the far one. -/
def between (near far : UInt64 × Bytes → Bool) : List (UInt64 × Bytes) → List (UInt64 × Bytes)
  | [] => []
  | row :: rows =>
    if !near row then between near far rows
    else if !far row then []
    else row :: between near far rows

def zremrangebyscore (st : ZStore) (now : ℕ) (k : Bytes) (min max : ScoreBound) :
    Except ZErr ℕ × ZStore :=
  st.zremBy now k fun _ => between (fun row => min.geLower row.1) fun row => max.leUpper row.1

/-- The members from the first at or past the lower bound while within the upper one; none unless
the last member reaches the one and the first the other. -/
def lexRange (min max : LexBound) (rows : List (UInt64 × Bytes)) : List (UInt64 × Bytes) :=
  match rows.head?, rows.getLast? with
  | some first, some last =>
    if !min.geLower last.2 || !max.leUpper first.2 then []
    else (rows.dropWhile fun row => !min.geLower row.2).takeWhile fun row => max.leUpper row.2
  | _, _ => []

def zremrangebylex (st : ZStore) (now : ℕ) (k : Bytes) (min max : LexBound) :
    Except ZErr ℕ × ZStore :=
  st.zremBy now k fun _ => lexRange min max

def rankWindow (start stop : ℤ) (size : ℕ) (rows : List (UInt64 × Bytes)) : List (UInt64 × Bytes) :=
  let len : ℤ := size
  let norm (i : ℤ) : ℤ := if i < 0 then len + i else i
  let lo := max (norm start) 0
  let hi := min (norm stop) (len - 1)
  if hi < lo then []
  else
    let fromLow := lo ≤ len - 1 - hi
    ((if fromLow then rows else rows.reverse).drop (if fromLow
        then lo else len - 1 - hi).toNat).take
      (hi - lo + 1).toNat

def zremrangebyrank (st : ZStore) (now : ℕ) (k : Bytes) (start stop : ℤ) : Except ZErr ℕ × ZStore :=
  st.zremBy now k (rankWindow start stop)

/-! ### Whole keys -/

def zreplace (st : ZStore) (now : ℕ) (k : Bytes) (pairs : List (UInt64 × Bytes)) :
    Except ZErr ℕ × ZStore :=
  let distinct := pairs.foldl (fun u p => u.put p.2 (storedScore p.1)) SortedRows.empty
  if maxBytes < distinct.weight memberCost then (.error .valueTooLarge, st)
  else if pairs.isEmpty then (.ok 0, st.withMeta k none)
  else
    -- The size is read back; what was just added has no expiry, so the read deletes nothing.
    let out := (st.withMeta k none).zadd maxBytes now k pairs
    (out.1.map fun _ => ((out.2.live now k).map ZMeta.size).getD 0, out.2)

/-- `COPY`: the rows under a fresh version, and the metadata last; of another type's key only the
metadata. -/
def copy (st : ZStore) (now : ℕ) (src dst : Bytes) (replace : Bool) : Bool × ZStore :=
  let st := st.expire now src
  match st.live now src with
  | none => (false, st)
  | some m =>
    let st := st.expire now dst
    if (st.live now dst).isSome && !replace then (false, st)
    else
      let st := st.withMeta dst none
      let v := st.nextVersion now
      let st := { st with last := v }
      if m.isZset then
        (true, (st.withRows dst v ((st.rows src m.version).rekey (st.rows dst v))).withMeta dst
          (some { m with version := v }))
      else (true, st.withMeta dst (some m))

def del (st : ZStore) (now : ℕ) (k : Bytes) : Bool × ZStore :=
  let st := st.expire now k
  ((st.live now k).isSome, st.withMeta k none)

def expireAt (st : ZStore) (now : ℕ) (k : Bytes) (atMs : ℕ) : Bool × ZStore :=
  let st := st.expire now k
  match st.live now k with
  | none => (false, st)
  | some m => (true, st.withMeta k (if atMs ≤ now then none else some { m with expireMs := atMs }))

end ZStore

/-! ## Metadata in step with the rows -/

/-- Size and bytes are those of the rows, the size as far as its field goes. -/
structure ZMeta.Counts (m : ZMeta) (r : ZRows) : Prop where
  paired : r.Paired
  size : m.size = wrap32 r.members.keys.card
  bytes : m.bytes = ∑ member ∈ r.members.keys, memberCost member

theorem ZMeta.Counts.empty (v : ℕ) : (⟨true, 0, v, 0, 0⟩ : ZMeta).Counts .empty :=
  ⟨paired_empty, rfl, rfl⟩

theorem ZMeta.Counts.card_le {m : ZMeta} (h : m.Counts r) : r.members.keys.card * 8 ≤ m.bytes := by
  rw [h.bytes]
  exact card_mul_le_sum fun member => Nat.le_add_left 8 member.length

open ZStore

variable {st : ZStore}

namespace ZStore

variable {now : ℕ} {m : ZMeta} {maxBytes : ℕ} {fadd : UInt64 → UInt64 → UInt64}

structure Sound (st : ZStore) : Prop where
  counts : ∀ k m, st.metas k = some m → m.isZset = true → m.Counts (st.rows k m.version)
  nonempty : ∀ k m, st.metas k = some m → m.isZset = true →
    (st.rows k m.version).members.keys.Nonempty
  old : ∀ k m, st.metas k = some m → m.isZset = true → m.version ≤ st.last
  fresh : ∀ k v, st.last < v → st.rows k v = .empty

def Room (st : ZStore) : Prop :=
  ∀ k m, st.metas k = some m → m.isZset = true → (st.rows k m.version).members.keys.card < 2 ^ 32

theorem metas_withMeta (st : ZStore) (k k' : Bytes) (m : Option ZMeta) :
    (st.withMeta k m).metas k' = if k' = k then m else st.metas k' := by
  by_cases h : k' = k
  · rw [if_pos h, h]
    exact update_self ..
  · rw [if_neg h]
    exact update_of_ne h ..

theorem rows_withRows (st : ZStore) (k k' : Bytes) (v v' : ℕ) (r : ZRows) :
    (st.withRows k v r).rows k' v' = if k' = k ∧ v' = v then r else st.rows k' v' := by
  show update st.rows k (update (st.rows k) v r) k' v' = _
  by_cases hk : k' = k
  · rw [hk, update_self]
    by_cases hv : v' = v
    · rw [hv, update_self, if_pos ⟨rfl, rfl⟩]
    · rw [update_of_ne hv, if_neg fun h => hv h.2]
  · rw [update_of_ne hk, if_neg fun h => hk h.1]

variable {m? : Option ZMeta}

theorem Sound.withMeta (h : st.Sound)
    (hm : ∀ m, m? = some m → m.isZset → m.Counts (st.rows k m.version) ∧
      (st.rows k m.version).members.keys.Nonempty ∧ m.version ≤ st.last) :
    (st.withMeta k m?).Sound := by
  have hcase (k' : Bytes) (m : ZMeta) (hmeta : (st.withMeta k m?).metas k' = some m)
      (hz : m.isZset) : m.Counts (st.rows k' m.version) ∧
        (st.rows k' m.version).members.keys.Nonempty ∧ m.version ≤ st.last := by
    rw [metas_withMeta] at hmeta
    split at hmeta
    · next heq =>
      rw [heq]
      exact hm m hmeta hz
    · exact ⟨h.counts k' m hmeta hz, h.nonempty k' m hmeta hz, h.old k' m hmeta hz⟩
  exact
    { counts := fun k' m hmeta hz => (hcase k' m hmeta hz).1
      nonempty := fun k' m hmeta hz => (hcase k' m hmeta hz).2.1
      old := fun k' m hmeta hz => (hcase k' m hmeta hz).2.2
      fresh := h.fresh }

theorem Sound.withMeta_none (h : st.Sound) (k : Bytes) : (st.withMeta k none).Sound :=
  h.withMeta nofun

theorem Room.withMeta (h : st.Room) (hm : ∀ m, m? = some m → m.isZset →
      (st.rows k m.version).members.keys.card < 2 ^ 32) : (st.withMeta k m?).Room := by
  intro k' m hmeta hz
  rw [metas_withMeta] at hmeta
  split at hmeta
  · next heq =>
    rw [heq]
    exact hm m hmeta hz
  · exact h k' m hmeta hz

theorem live_eq_some (h : st.live now k = some m) : st.metas k = some m :=
  (Option.filter_eq_some_iff.mp h).1

theorem Sound.expire (h : st.Sound) (now : ℕ) (k : Bytes) : (st.expire now k).Sound := by
  refine h.withMeta fun m hm hz => ?_
  have hmeta := live_eq_some hm
  exact ⟨h.counts k m hmeta hz, h.nonempty k m hmeta hz, h.old k m hmeta hz⟩

theorem Room.expire (h : st.Room) (now : ℕ) (k : Bytes) : (st.expire now k).Room :=
  h.withMeta fun m hm hz => h k m (live_eq_some hm) hz

theorem live_expire (k' : Bytes) : (st.expire now k).live now k' = st.live now k' := by
  unfold live expire
  rw [metas_withMeta]
  split
  · next h => simp only [h, live, Option.filter_filter, Bool.and_self]
  · rfl

theorem Sound.mint (h : st.Sound) {v : ℕ} (hv : st.last ≤ v) :
    ({ st with last := v } : ZStore).Sound :=
  { counts := h.counts
    nonempty := h.nonempty
    old := fun k m hm hz => (h.old k m hm hz).trans hv
    fresh := fun k _ hlt => h.fresh k _ (hv.trans_lt hlt) }

theorem last_lt_nextVersion (st : ZStore) (now : ℕ) : st.last < st.nextVersion now :=
  Nat.lt_succ_of_le (le_max_left _ _)

theorem Sound.put (h : st.Sound) (hold : m.version ≤ st.last) (hcounts : m.Counts r)
    (hnonempty : r.members.keys.Nonempty) :
    ((st.withRows k m.version r).withMeta k (some m)).Sound := by
  -- The rows of this key may only have changed under this version.
  have hrows (k' : Bytes) (m' : ZMeta) (hmeta :
      ((st.withRows k m.version r).withMeta k (some m)).metas k' = some m') :
      (k' = k ∧ m' = m ∧ (st.withRows k m.version r).rows k' m'.version = r) ∨
        st.metas k' = some m' ∧
          (st.withRows k m.version r).rows k' m'.version = st.rows k' m'.version := by
    rw [metas_withMeta] at hmeta
    split at hmeta
    · next heq =>
      cases hmeta
      exact .inl ⟨heq, rfl, (rows_withRows ..).trans (if_pos ⟨heq, rfl⟩)⟩
    · next hne => exact .inr ⟨hmeta, (rows_withRows ..).trans (if_neg fun hall => hne hall.1)⟩
  refine ⟨fun k' m' hmeta hz => ?_, fun k' m' hmeta hz => ?_, fun k' m' hmeta hz => ?_,
    fun k' v hv => ?_⟩
  · obtain ⟨rfl, rfl, heq⟩ | ⟨hmeta', heq⟩ := hrows k' m' hmeta
    · exact heq.symm ▸ hcounts
    · exact heq.symm ▸ h.counts k' m' hmeta' hz
  · obtain ⟨rfl, rfl, heq⟩ | ⟨hmeta', heq⟩ := hrows k' m' hmeta
    · exact heq.symm ▸ hnonempty
    · exact heq.symm ▸ h.nonempty k' m' hmeta' hz
  · obtain ⟨rfl, rfl, -⟩ | ⟨hmeta', -⟩ := hrows k' m' hmeta
    · exact hold
    · exact h.old k' m' hmeta' hz
  · refine (rows_withRows ..).trans ((if_neg fun hall => ?_).trans (h.fresh k' v hv))
    exact absurd hold (Nat.not_le.mpr (hall.2 ▸ hv))

theorem Room.put (h : st.Room) (hroom : r.members.keys.card < 2 ^ 32) :
    ((st.withRows k m.version r).withMeta k (some m)).Room := by
  intro k' m' hmeta hz
  rw [metas_withMeta] at hmeta
  show ((st.withRows k m.version r).rows k' m'.version).members.keys.card < 2 ^ 32
  rw [rows_withRows]
  split at hmeta
  · next heq =>
    cases hmeta
    rw [if_pos ⟨heq, rfl⟩]
    exact hroom
  · next hne =>
    rw [if_neg fun hall => hne hall.1]
    exact h k' m' hmeta hz

/-! ### Writing members -/

/-- **The metadata to write to** fits its rows, and its version has been minted. -/
structure Target (st : ZStore) (k : Bytes) (m : ZMeta) : Prop where
  counts : m.Counts (st.rows k m.version)
  old : m.version ≤ st.last

theorem readMeta_eq_ok (h : st.readMeta now k = .ok m?) :
    st.live now k = m? ∧ ∀ m, m? = some m → m.isZset := by
  unfold readMeta at h
  split at h
  · next hlive =>
    cases h
    exact ⟨hlive, nofun⟩
  · next m hlive =>
    split at h
    · next hz =>
      cases h
      refine ⟨hlive, fun m' hm' => ?_⟩
      cases hm'
      exact hz
    · cases h

theorem Sound.metaOr (h : st.Sound) (hread : st.readMeta now k = .ok m?) :
    (st.metaOr now m?).2.Sound ∧ (st.metaOr now m?).2.Target k (st.metaOr now m?).1 := by
  obtain ⟨hlive, hz⟩ := readMeta_eq_ok hread
  cases m? with
  | some m =>
    have hmeta := live_eq_some hlive
    exact ⟨h, h.counts k m hmeta (hz m rfl), h.old k m hmeta (hz m rfl)⟩
  | none =>
    have hempty : st.rows k (st.nextVersion now) = .empty :=
      h.fresh k _ (st.last_lt_nextVersion now)
    refine ⟨h.mint (st.last_lt_nextVersion now).le, ?_, le_rfl⟩
    show ZMeta.Counts _ (st.rows k (st.nextVersion now))
    rw [hempty]
    exact .empty _

theorem Room.metaOr (h : st.Room) (m? : Option ZMeta) : (st.metaOr now m?).2.Room := by
  cases m? with
  | _ => exact h

variable {unique : SortedRows Bytes UInt64}

def afterWrite (m : ZMeta) (r : ZRows) (unique : SortedRows Bytes UInt64) : ZMeta :=
  { m with
    size := wrap32 (m.size + wrap32 (r.members.fresh unique.rows).length)
    bytes := m.bytes + ((r.members.fresh unique.rows).map fun row => memberCost row.1).sum }

theorem counts_write (h : m.Counts r) (unique : SortedRows Bytes UInt64)
    (hf : ∀ r row, r.Paired → f r row = (r.remove row.1).put row.1 row.2) :
    (afterWrite m r unique).Counts (unique.rows.foldl f r) ∧
      (∀ k, k ∈ (unique.rows.foldl f r).members.keys ↔ k ∈ r.members.keys ∨ k ∈ unique.keys) ∧
      (unique.rows.foldl f r).members.keys.card ≤ r.members.keys.card + unique.rows.length := by
  obtain ⟨hpaired, hkeys⟩ := h.paired.foldl hf unique.rows
  have hcard := card_keys_of_mem nodup_keys hkeys
  refine ⟨⟨hpaired, ?_, ?_⟩,
    fun k => (hkeys k).trans (or_congr_right mem_keys_iff.symm), ?_⟩
  · rw [hcard, afterWrite, h.size]
    exact (Nat.add_mod _ _ _).symm
  · rw [sum_keys_of_mem _ nodup_keys hkeys, ← h.bytes]
    rfl
  · rw [hcard]
    exact Nat.add_le_add_left (length_filter_le ..) _

theorem Sound.write (h : st.Sound) (ht : st.Target k m)
    (hf : ∀ r row, r.Paired → f r row = (r.remove row.1).put row.1 row.2) {added : ℕ}
    (hadded : added = ((st.rows k m.version).members.fresh unique.rows).length)
    (hunique : unique.keys.Nonempty) {st' : ZStore}
    (hwrite : st.write maxBytes k m unique added f = some st') :
    st'.Sound ∧ (st.Room → maxBytes < 2 ^ 35 ∨
      (st.rows k m.version).members.keys.card + unique.rows.length < 2 ^ 32 → st'.Room) := by
  obtain ⟨hcap, ⟨⟩⟩ := Option.ite_none_left_eq_some.mp hwrite
  obtain ⟨hcounts, hkeys, hcard⟩ := counts_write ht.counts unique hf
  rw [hadded]
  refine ⟨?_, fun hroom hguard => ?_⟩
  · obtain ⟨member, hmember⟩ := hunique
    exact Sound.put (m := afterWrite m _ unique) h ht.old hcounts
      ⟨member, (hkeys member).mpr (.inr hmember)⟩
  refine Room.put (m := afterWrite m (st.rows k m.version) unique) hroom ?_
  obtain hmax | hfew := hguard
  · have hle := hcounts.card_le
    have hbytes : (afterWrite m (st.rows k m.version) unique).bytes ≤ maxBytes := not_lt.mp hcap
    omega
  · exact hcard.trans_lt hfew

theorem mem_keys_unique (pairs : List (UInt64 × Bytes)) (u : SortedRows Bytes UInt64) :
    k ∈ (pairs.foldl (fun u p => u.put p.2 (storedScore p.1)) u).keys ↔
      k ∈ u.keys ∨ k ∈ pairs.map Prod.snd := by
  induction pairs generalizing u with
  | nil => simp
  | cons p pairs ih =>
    rw [foldl_cons, ih, mem_keys_put, map_cons, mem_cons, or_assoc, or_left_comm]

theorem length_unique_le (pairs : List (UInt64 × Bytes)) :
    (pairs.foldl (fun u p => u.put p.2 (storedScore p.1)) SortedRows.empty).rows.length ≤
      pairs.length := by
  have hlength : (pairs.map Prod.snd).length = pairs.length := length_map _
  rw [← hlength]
  refine length_rows_le fun k hk => ?_
  obtain hk | hk := (mem_keys_unique pairs .empty).mp hk
  · cases hk
  · exact hk

theorem nonempty_unique (p : UInt64 × Bytes) (pairs : List (UInt64 × Bytes)) :
    ((p :: pairs).foldl (fun u p => u.put p.2 (storedScore p.1)) SortedRows.empty).keys.Nonempty :=
  ⟨p.2, (mem_keys_unique _ _).mpr (.inr mem_cons_self)⟩

def liveCount (st : ZStore) (now : ℕ) (k : Bytes) : ℕ :=
  (st.live now k).elim 0 fun m => (st.rows k m.version).members.keys.card

theorem card_target (h : st.Sound) (hread : st.readMeta now k = .ok m?) :
    ((st.metaOr now m?).2.rows k (st.metaOr now m?).1.version).members.keys.card =
      st.liveCount now k := by
  obtain ⟨hlive, -⟩ := readMeta_eq_ok hread
  rw [liveCount, hlive]
  cases m? with
  | some m => rfl
  | none =>
    show (st.rows k (st.nextVersion now)).members.keys.card = 0
    rw [h.fresh k _ (st.last_lt_nextVersion now)]
    rfl

theorem liveCount_expire : (st.expire now k).liveCount now k = st.liveCount now k := by
  rw [liveCount, live_expire]
  rfl

abbrev Keeps (maxBytes n : ℕ) (st st' : ZStore) : Prop :=
  st'.Sound ∧ (st.Room → maxBytes < 2 ^ 35 ∨ n < 2 ^ 32 → st'.Room)

theorem Sound.zadd (h : st.Sound) (p : UInt64 × Bytes) (pairs : List (UInt64 × Bytes)) :
    Keeps maxBytes (st.liveCount now k + (p :: pairs).length) st
      (st.zadd maxBytes now k (p :: pairs)).2 := by
  have hexpire := h.expire now k
  unfold ZStore.zadd
  dsimp only
  cases hread : (st.expire now k).readMeta now k with
  | error e => exact ⟨hexpire, fun hroom _ => hroom.expire now k⟩
  | ok m? =>
    obtain ⟨hsound, htarget⟩ := hexpire.metaOr hread
    dsimp only
    split
    · exact ⟨hsound, fun hroom _ => (hroom.expire now k).metaOr m?⟩
    · next st' hwrite =>
      obtain ⟨hst', hroom'⟩ := hsound.write htarget
        (fun r row _ => r.set_eq row) rfl (nonempty_unique p pairs) hwrite
      refine ⟨hst', fun hroom hguard => hroom' ((hroom.expire now k).metaOr m?) ?_⟩
      refine hguard.imp_right fun hfew => lt_of_le_of_lt ?_ hfew
      rw [card_target hexpire hread, liveCount_expire]
      exact Nat.add_le_add_left (length_unique_le _) _

/-! ### With flags -/

/-- What has been decided: as many added as are new, and only members that were named. -/
structure ZaddRun.Sound (r : ZRows) (named : List Bytes) (run : ZaddRun) : Prop where
  added : run.added = (r.members.fresh run.now.rows).length
  named : ∀ k ∈ run.now.keys, k ∈ named

theorem ZaddRun.sound_start (r : ZRows) (named : List Bytes) : ZaddRun.start.Sound r named :=
  ⟨rfl, fun k hk => absurd hk (Finset.notMem_empty k)⟩

variable {run run' : ZaddRun} {named : List Bytes} {flags : ZaddFlags}

theorem ZaddRun.Sound.pair (h : run.Sound r named) {p : UInt64 × Bytes} (hp : p.2 ∈ named)
    (hstep : zaddPair fadd r flags run p = .ok run') : run'.Sound r named := by
  have hnamed (s : UInt64) : ∀ k ∈ (run.now.put p.2 s).keys, k ∈ named := by
    intro k hk
    obtain rfl | hk := mem_keys_put.mp hk
    · exact hp
    · exact h.named k hk
  unfold zaddPair at hstep
  cases hcurrent : (run.now.get p.2).or (r.members.get p.2) with
  | none =>
    obtain ⟨hnow, hmember⟩ := Option.or_eq_none_iff.mp hcurrent
    rw [hcurrent] at hstep
    dsimp only at hstep
    split at hstep
    · cases hstep
      exact h
    · cases hstep
      refine ⟨?_, hnamed _⟩
      rw [length_fresh_put_of_none hnow hmember, ← h.added]
  | some current =>
    have hthere : (run.now.get p.2).isSome ∨ (r.members.get p.2).isSome := by
      rw [← Bool.or_eq_true, ← Option.isSome_or, hcurrent]
      rfl
    rw [hcurrent] at hstep
    dsimp only at hstep
    split at hstep
    · cases hstep
      exact h
    generalize storedScore _ = next at hstep
    split at hstep
    · cases hstep
    split at hstep
    · cases hstep
      exact h
    split at hstep
    · cases hstep
      exact ⟨h.added, h.named⟩
    cases hstep
    refine ⟨?_, hnamed _⟩
    rw [length_fresh_put hthere]
    exact h.added

theorem ZaddRun.Sound.foldlM {pairs : List (UInt64 × Bytes)} (h : run.Sound r named)
    (hpairs : ∀ p ∈ pairs, p.2 ∈ named)
    (hrun : pairs.foldlM (zaddPair fadd r flags) run = .ok run') : run'.Sound r named := by
  induction pairs generalizing run with
  | nil =>
    cases hrun
    exact h
  | cons p pairs ih =>
    rw [foldlM_cons] at hrun
    cases hstep : zaddPair fadd r flags run p with
    | error e =>
      rw [hstep] at hrun
      cases hrun
    | ok next =>
      rw [hstep] at hrun
      exact ih (h.pair (hpairs p mem_cons_self) hstep)
        (fun q hq => hpairs q (mem_cons_of_mem _ hq)) hrun

theorem Sound.zaddWith (h : st.Sound) (pairs : List (UInt64 × Bytes)) (flags : ZaddFlags) :
    Keeps maxBytes (st.liveCount now k + pairs.length) st
      (st.zaddWith maxBytes fadd now k pairs flags).2 := by
  have hexpire := h.expire now k
  unfold ZStore.zaddWith
  dsimp only
  cases hread : (st.expire now k).readMeta now k with
  | error e => exact ⟨hexpire, fun hroom _ => hroom.expire now k⟩
  | ok m? =>
    obtain ⟨hsound, htarget⟩ := hexpire.metaOr hread
    have hkept : Keeps maxBytes (st.liveCount now k + pairs.length) st
        ((st.expire now k).metaOr now m?).2 :=
      ⟨hsound, fun hroom _ => (hroom.expire now k).metaOr m?⟩
    dsimp only
    split
    · exact ⟨hexpire, fun hroom _ => hroom.expire now k⟩
    split
    · exact hkept
    · next run hrun =>
      have hdecided := (ZaddRun.sound_start _ (pairs.map Prod.snd)).foldlM
        (fun p hp => mem_map_of_mem hp) hrun
      split
      · exact hkept
      · next hsome =>
        split
        · exact hkept
        · next st' hwrite =>
          have hnonempty : run.now.keys.Nonempty := by
            rw [List.isEmpty_iff, ← length_eq_zero_iff, length_rows, Finset.card_eq_zero] at hsome
            exact Finset.nonempty_iff_ne_empty.mpr hsome
          obtain ⟨hst', hroom'⟩ := hsound.write htarget
            (fun r row hr => hr.move_eq row) hdecided.added hnonempty hwrite
          refine ⟨hst', fun hroom hguard => hroom' ((hroom.expire now k).metaOr m?) ?_⟩
          refine hguard.imp_right fun hfew => lt_of_le_of_lt ?_ hfew
          rw [card_target hexpire hread, liveCount_expire]
          have hle := length_rows_le hdecided.named
          rw [length_map] at hle
          exact Nat.add_le_add_left hle _

theorem Sound.zincrBy (h : st.Sound) (delta : UInt64) (member : Bytes) :
    Keeps maxBytes (st.liveCount now k + 1) st (st.zincrBy maxBytes fadd now k delta member).2 := by
  have hexpire := h.expire now k
  have hkept : Keeps maxBytes (st.liveCount now k + 1) st (st.expire now k) :=
    ⟨hexpire, fun hroom _ => hroom.expire now k⟩
  unfold ZStore.zincrBy
  dsimp only
  split
  · exact hkept
  · next s _ =>
    generalize s.elim delta _ = next
    split
    · exact hkept
    have hzadd : Keeps maxBytes (st.liveCount now k + 1) st
        ((st.expire now k).zadd maxBytes now k [(next, member)]).2 := by
      obtain ⟨hsound, hroom⟩ : Keeps maxBytes _ _ _ := hexpire.zadd (next, member) []
      rw [liveCount_expire] at hroom
      exact ⟨hsound, fun h => hroom (h.expire now k)⟩
    split <;>
    · next heq =>
      rw [heq] at hzadd
      exact hzadd

/-! ### Removing members -/

structure ZremRun.Sound (before : ZRows) (run : ZremRun) : Prop where
  paired : run.rows.Paired
  removed : run.rows.members.keys.card + run.removed = before.members.keys.card
  bytes : run.bytes = ∑ member ∈ run.rows.members.keys, memberCost member

variable {before : ZRows} {run : ZremRun}

theorem ZremRun.Sound.drop (h : run.Sound before) (member : Bytes) :
    (run.drop member).Sound before := by
  unfold ZremRun.drop
  cases hm : run.rows.members.get member with
  | none => exact h
  | some old =>
    have hsome : (run.rows.members.get member).isSome := by
      rw [hm]
      rfl
    have hcard := card_keys_erase hsome
    have hsum := sum_keys_erase memberCost hsome
    refine ⟨h.paired.remove member, ?_, ?_⟩
    · have hremoved := h.removed
      show (run.rows.remove member).members.keys.card + (run.removed + 1) = _
      rw [members_remove]
      omega
    have hbytes := h.bytes
    show run.bytes - memberCost member = ∑ m ∈ (run.rows.remove member).members.keys, memberCost m
    rw [members_remove]
    omega

theorem ZremRun.Sound.foldl (h : run.Sound before)
    (members : List Bytes) : (members.foldl ZremRun.drop run).Sound before := by
  induction members generalizing run with
  | nil => exact h
  | cons member members ih => exact ih (h.drop member)

section

variable (h : st.Sound)
include h

theorem Sound.withRows_withMeta_none {v : ℕ} (hv : v ≤ st.last) (r : ZRows) :
    ((st.withRows k v r).withMeta k none).Sound := by
  have hother (k' : Bytes) (m : ZMeta)
      (hmeta : ((st.withRows k v r).withMeta k none).metas k' = some m) :
      st.metas k' = some m ∧ (st.withRows k v r).rows k' m.version = st.rows k' m.version := by
    rw [metas_withMeta] at hmeta
    split at hmeta
    · cases hmeta
    · next hne => exact ⟨hmeta, (rows_withRows ..).trans (if_neg fun hall => hne hall.1)⟩
  refine ⟨fun k' m hmeta hz => ?_, fun k' m hmeta hz => ?_,
    fun k' m hmeta hz => h.old k' m (hother k' m hmeta).1 hz, fun k' v' hv' => ?_⟩
  · obtain ⟨hm, hrows⟩ := hother k' m hmeta
    exact hrows.symm ▸ h.counts k' m hm hz
  · obtain ⟨hm, hrows⟩ := hother k' m hmeta
    exact hrows.symm ▸ h.nonempty k' m hm hz
  · refine (rows_withRows ..).trans ((if_neg fun hall => ?_).trans (h.fresh k' v' hv'))
    exact absurd hv (Nat.not_le.mpr (hall.2 ▸ hv'))

omit h in
theorem Room.withRows_withMeta_none (h : st.Room) (v : ℕ) (r : ZRows) :
    ((st.withRows k v r).withMeta k none).Room := by
  intro k' m hmeta hz
  rw [metas_withMeta] at hmeta
  split at hmeta
  · cases hmeta
  · next hne =>
    show ((st.withRows k v r).rows k' m.version).members.keys.card < 2 ^ 32
    rw [rows_withRows, if_neg fun hall => hne hall.1]
    exact h k' m hmeta hz

theorem Sound.zreplace (pairs : List (UInt64 × Bytes)) :
    Keeps maxBytes pairs.length st (st.zreplace maxBytes now k pairs).2 := by
  have hnone := h.withMeta_none k
  have hroom (hroom : st.Room) : (st.withMeta k none).Room := hroom.withMeta nofun
  unfold ZStore.zreplace
  dsimp only
  split
  · exact ⟨h, fun hroom _ => hroom⟩
  split
  · exact ⟨hnone, fun hst _ => hroom hst⟩
  · next hsome =>
    cases pairs with
    | nil => exact absurd rfl hsome
    | cons p pairs =>
      obtain ⟨hsound, hroom'⟩ : Keeps maxBytes ((st.withMeta k none).liveCount now k + _) _ _ :=
        hnone.zadd p pairs
      have hcount : (st.withMeta k none).liveCount now k = 0 := by
        rw [liveCount, live, metas_withMeta, if_pos rfl]
        rfl
      rw [hcount, Nat.zero_add] at hroom'
      exact ⟨hsound, fun hst => hroom' (hroom hst)⟩

namespace Sound

variable (hroom : st.Room)
include hroom

theorem zrem (members : List Bytes) :
    (st.zrem now k members).2.Sound ∧ (st.zrem now k members).2.Room := by
  have hexpire := h.expire now k
  have hroom' := hroom.expire now k
  unfold ZStore.zrem
  dsimp only
  cases hread : (st.expire now k).readMeta now k with
  | error e => exact ⟨hexpire, hroom'⟩
  | ok m? =>
    obtain ⟨hlive, hz⟩ := readMeta_eq_ok hread
    cases m? with
    | none => exact ⟨hexpire, hroom'⟩
    | some m =>
      have hmeta := live_eq_some hlive
      have hcounts := hexpire.counts k m hmeta (hz m rfl)
      have hold := hexpire.old k m hmeta (hz m rfl)
      have hfew := hroom' k m hmeta (hz m rfl)
      have hstart : ZremRun.Sound ((st.expire now k).rows k m.version)
          ⟨(st.expire now k).rows k m.version, 0, m.bytes⟩ :=
        ⟨hcounts.paired, rfl, hcounts.bytes⟩
      have hrun := hstart.foldl members
      dsimp only
      generalize members.foldl ZremRun.drop _ = run at hrun ⊢
      have hremoved := hrun.removed
      have hsize : m.size - wrap32 run.removed = run.rows.members.keys.card := by
        rw [hcounts.size, wrap32, wrap32, Nat.mod_eq_of_lt hfew, Nat.mod_eq_of_lt (by omega)]
        omega
      split
      · exact ⟨hexpire.withRows_withMeta_none hold run.rows, hroom'.withRows_withMeta_none _ _⟩
      · next hne =>
        rw [hsize] at hne ⊢
        have hroomy : run.rows.members.keys.card < 2 ^ 32 := by omega
        refine ⟨?_, Room.put (m := { m with size := _, bytes := _ }) hroom' hroomy⟩
        refine Sound.put (m := { m with size := _, bytes := _ }) hexpire hold
          ⟨hrun.paired, (Nat.mod_eq_of_lt hroomy).symm, hrun.bytes⟩ ?_
        exact Finset.card_pos.mp (Nat.pos_of_ne_zero hne)

theorem zremBy (pick : ℕ → List (UInt64 × Bytes) → List (UInt64 × Bytes)) :
    (st.zremBy now k pick).2.Sound ∧ (st.zremBy now k pick).2.Room := by
  unfold ZStore.zremBy
  dsimp only
  split
  · exact ⟨h.expire now k, hroom.expire now k⟩
  · exact (h.expire now k).zrem (hroom.expire now k) _

/-! ### Whole keys -/

theorem copy (src dst : Bytes) (replace : Bool) :
    (st.copy now src dst replace).2.Sound ∧ (st.copy now src dst replace).2.Room := by
  have hsrc := h.expire now src
  have hdst := hsrc.expire now dst
  have hrsrc := hroom.expire now src
  have hrdst := hrsrc.expire now dst
  unfold ZStore.copy
  dsimp only
  cases hlive : (st.expire now src).live now src with
  | none => exact ⟨hsrc, hrsrc⟩
  | some m =>
    dsimp only
    split
    · exact ⟨hdst, hrdst⟩
    have hsound := hdst.withMeta_none dst
    have hminted := hsound.mint (last_lt_nextVersion _ now).le
    have hrnone : (((st.expire now src).expire now dst).withMeta dst none).Room :=
      hrdst.withMeta nofun
    split
    · next hz =>
      have hmeta := live_eq_some hlive
      have hempty : (((st.expire now src).expire now dst).withMeta dst none).rows dst
          ((((st.expire now src).expire now dst).withMeta dst none).nextVersion now) = .empty :=
        hsound.fresh dst _ (last_lt_nextVersion _ now)
      rw [hempty, rekey_empty]
      have hcounts := hsrc.counts src m hmeta hz
      refine ⟨?_, Room.put (m := { m with version := _ }) hrnone (hrsrc src m hmeta hz)⟩
      exact Sound.put (m := { m with version := _ }) hminted le_rfl
        ⟨hcounts.paired, hcounts.size, hcounts.bytes⟩ (hsrc.nonempty src m hmeta hz)
    · next hz =>
      refine ⟨hminted.withMeta fun m' hm' hz' => ?_, Room.withMeta hrnone fun m' hm' hz' => ?_⟩
      · cases hm'
        exact absurd hz' hz
      · cases hm'
        exact absurd hz' hz

theorem expireAt (atMs : ℕ) :
    (st.expireAt now k atMs).2.Sound ∧ (st.expireAt now k atMs).2.Room := by
  have hexpire := h.expire now k
  have hroom' := hroom.expire now k
  unfold ZStore.expireAt
  dsimp only
  cases hlive : (st.expire now k).live now k with
  | none => exact ⟨hexpire, hroom'⟩
  | some m =>
    have hmeta := live_eq_some hlive
    refine ⟨hexpire.withMeta fun m' hm' hz' => ?_, hroom'.withMeta fun m' hm' hz' => ?_⟩
    · obtain ⟨-, ⟨⟩⟩ := Option.ite_none_left_eq_some.mp hm'
      have hcounts := hexpire.counts k m hmeta hz'
      exact ⟨⟨hcounts.paired, hcounts.size, hcounts.bytes⟩, hexpire.nonempty k m hmeta hz',
        hexpire.old k m hmeta hz'⟩
    obtain ⟨-, ⟨⟩⟩ := Option.ite_none_left_eq_some.mp hm'
    exact hroom' k m hmeta hz'

end Sound

end

end ZStore

/-! ## Runs -/

/-- A sorted-set command. -/
inductive ZOp
  | zadd (k : Bytes) (p : UInt64 × Bytes) (pairs : List (UInt64 × Bytes))
  | zaddWith (k : Bytes) (pairs : List (UInt64 × Bytes)) (flags : ZStore.ZaddFlags)
  | zincrBy (k : Bytes) (delta : UInt64) (m : Bytes)
  | zrem (k : Bytes) (ms : List Bytes)
  | zpop (k : Bytes) (count : ℕ) (maxEnd : Bool)
  | zremrangebyscore (k : Bytes) (min max : ScoreBound)
  | zremrangebyrank (k : Bytes) (start stop : ℤ)
  | zremrangebylex (k : Bytes) (min max : LexBound)
  | zreplace (k : Bytes) (pairs : List (UInt64 × Bytes))
  | copy (src dst : Bytes) (replace : Bool)
  | del (k : Bytes)
  | expireAt (k : Bytes) (atMs : ℕ)

namespace ZStore

def step (st : ZStore) (now : ℕ) : ZOp → ZStore
  | .zadd k p pairs => (st.zadd maxBytes now k (p :: pairs)).2
  | .zaddWith k pairs flags => (st.zaddWith maxBytes fadd now k pairs flags).2
  | .zincrBy k delta m => (st.zincrBy maxBytes fadd now k delta m).2
  | .zrem k ms => (st.zrem now k ms).2
  | .zpop k count maxEnd => (st.zpop now k count maxEnd).2
  | .zremrangebyscore k min max => (st.zremrangebyscore now k min max).2
  | .zremrangebyrank k start stop => (st.zremrangebyrank now k start stop).2
  | .zremrangebylex k min max => (st.zremrangebylex now k min max).2
  | .zreplace k pairs => (st.zreplace maxBytes now k pairs).2
  | .copy src dst replace => (st.copy now src dst replace).2
  | .del k => (st.del now k).2
  | .expireAt k atMs => (st.expireAt now k atMs).2

def blank (last : ℕ) : ZStore := ⟨fun _ => none, fun _ _ => .empty, last⟩

def reach (st : ZStore) (now : ℕ) : ZOp → ℕ
  | .zadd k p pairs => st.liveCount now k + (p :: pairs).length
  | .zaddWith k pairs _ => st.liveCount now k + pairs.length
  | .zincrBy k _ _ => st.liveCount now k + 1
  | .zreplace _ pairs => pairs.length
  | _ => 0

def memberRows (st : ZStore) (now : ℕ) (k : Bytes) : List (Bytes × UInt64) :=
  (st.live now k).elim [] fun m => (st.rows k m.version).members.rows

end ZStore

/-- **Sorted sets**, call after call, each at its own reading of the clock. -/
def zsetStore (maxBytes : ℕ) (fadd : UInt64 → UInt64 → UInt64) : Machine ZStore (ℕ × ZOp) where
  init st := ∃ last, st = .blank last
  step st e := some (st.step maxBytes fadd e.1 e.2)

def roomy (maxBytes : ℕ) (st : ZStore) (e : ℕ × ZOp) : Prop :=
  maxBytes < 2 ^ 35 ∨ st.reach e.1 e.2 < 2 ^ 32

namespace ZStore

variable {maxBytes : ℕ} {fadd : UInt64 → UInt64 → UInt64}

theorem sound_blank (last : ℕ) : (blank last).Sound := ⟨nofun, nofun, nofun, fun _ _ _ => rfl⟩

theorem Sound.step (h : st.Sound) (hroom : st.Room) {e : ℕ × ZOp} (hok : roomy maxBytes st e) :
    (st.step maxBytes fadd e.1 e.2).Sound ∧ (st.step maxBytes fadd e.1 e.2).Room := by
  obtain ⟨now, op⟩ := e
  cases op with
  | zadd k p pairs => exact (h.zadd p pairs).imp_right fun hkeeps => hkeeps hroom hok
  | zaddWith k pairs flags =>
    exact (h.zaddWith pairs flags).imp_right fun hkeeps => hkeeps hroom hok
  | zincrBy k delta m => exact (h.zincrBy delta m).imp_right fun hkeeps => hkeeps hroom hok
  | zrem k ms => exact h.zrem hroom ms
  | zpop k count maxEnd | zremrangebyscore k min max | zremrangebyrank k start stop
  | zremrangebylex k min max => exact h.zremBy hroom _
  | zreplace k pairs => exact (h.zreplace pairs).imp_right fun hkeeps => hkeeps hroom hok
  | copy src dst replace => exact h.copy hroom src dst replace
  | del k => exact ⟨(h.expire now k).withMeta_none k, (hroom.expire now k).withMeta nofun⟩
  | expireAt k atMs => exact h.expireAt hroom atMs

def Whole (st : ZStore) : Prop := st.Sound ∧ st.Room

theorem whole_of_reach (h : (zsetStore maxBytes fadd).Reach (roomy maxBytes) st) : st.Whole := by
  refine h.invariant ?_ fun st e st' _ hst hok hstep => ?_
  · rintro _ ⟨last, rfl⟩
    exact ⟨sound_blank last, nofun⟩
  · cases hstep
    exact hst.1.step hst.2 hok

end ZStore

/-- **The two indexes of a sorted set are in step**: member rows and index rows match one to one
with the same score bits, the recorded size and bytes are the members', and a key that is no other
type's exists just when it has a member. -/
theorem dual_index {maxBytes : ℕ} {fadd : UInt64 → UInt64 → UInt64} {st : ZStore}
    (h : (zsetStore maxBytes fadd).Reach (roomy maxBytes) st) (now : ℕ) (k : Bytes)
    (hz : ∀ m, st.live now k = some m → m.isZset = true) :
    ((st.live now k).isSome = true ↔ st.memberRows now k ≠ []) ∧
      ∀ m, st.live now k = some m →
        (∀ member s, (st.rows k m.version).members.get member = some s ↔
          (st.rows k m.version).index.get (indexKey s member) = some ()) ∧
        (∀ key, (st.rows k m.version).index.get key = some () → ∃ s member,
            key = indexKey s member) ∧
        m.size = (st.memberRows now k).length ∧
        m.bytes = ((st.memberRows now k).map fun row => row.1.length + 8).sum := by
  obtain ⟨hsound, hroom⟩ := whole_of_reach h
  unfold memberRows
  cases hlive : st.live now k with
  | none => exact ⟨iff_of_false Bool.false_ne_true (not_not.mpr rfl), nofun⟩
  | some m =>
    have hmeta := live_eq_some hlive
    have hcounts := hsound.counts k m hmeta (hz m hlive)
    have hlength := length_rows (s := (st.rows k m.version).members)
    refine ⟨iff_of_true rfl fun hnil => ?_, fun m' hm' => ?_⟩
    · have hpos := Finset.card_pos.mpr (hsound.nonempty k m hmeta (hz m hlive))
      rw [← hlength] at hpos
      exact absurd (congrArg List.length hnil) hpos.ne'
    cases hm'
    refine ⟨fun member s => ?_, fun key hkey => ?_, ?_, ?_⟩
    · refine ⟨fun hs => (hcounts.paired _).mpr ⟨member, s, hs, rfl⟩, fun hindex => ?_⟩
      obtain ⟨member', s', hs, hkey⟩ := (hcounts.paired _).mp hindex
      obtain ⟨rfl, rfl⟩ := indexKey_injective hkey
      exact hs
    · obtain ⟨member, s, -, rfl⟩ := (hcounts.paired key).mp hkey
      exact ⟨s, member, rfl⟩
    · rw [hcounts.size]
      exact (Nat.mod_eq_of_lt (hroom k m hmeta (hz m hlive))).trans hlength.symm
    · rw [hcounts.bytes, ← weight_eq_sum]
      rfl

def movedMember : List (ℕ × ZOp) :=
  [(7, .zadd [1] (0, [2]) [(3, [3])]), (8, .zadd [1] (5, [2]) []), (9, .zrem [1] [[3]])]

theorem dual_index_one :
    ∃ st, (zsetStore (2 ^ 29) fun a _ => a).exec (.blank 0) movedMember = some st ∧
      (∃ m, st.live 9 [1] = some m ∧ m.size = 1 ∧ m.bytes = 9) ∧
      st.memberRows 9 [1] = [([2], 5)] ∧
      ((st.live 9 [1]).isSome = true ↔ st.memberRows 9 [1] ≠ []) := by
  have hrun : (zsetStore (2 ^ 29) fun a _ => a).exec (.blank 0) movedMember = some _ := rfl
  have hroomy : (zsetStore (2 ^ 29) fun a _ => a).Guarded (roomy (2 ^ 29)) (.blank 0)
      movedMember := Machine.guarded_of_forall (fun _ _ _ => .inl (by decide)) _
  refine ⟨_, hrun, ⟨_, rfl, by decide +kernel, by decide +kernel⟩, by decide +kernel, ?_⟩
  exact (dual_index (Machine.Reach.of_exec (.init ⟨0, rfl⟩) hroomy hrun) 9 [1] fun m hm => by
    cases hm
    rfl).1

/-! ## A size that runs over -/

/-- As many members as are asked for, each eight bytes long and scored zero. -/
def manyPairs (n : ℕ) : List (UInt64 × Bytes) :=
  (List.range n).map fun i => (0, be64 (UInt64.ofNat i))

def manyRows (n : ℕ) : SortedRows Bytes UInt64 :=
  (manyPairs n).foldl (fun u p => u.put p.2 (storedScore p.1)) .empty

variable {n : ℕ}

theorem mem_keys_manyRows : k ∈ (manyRows n).keys ↔ ∃ i < n, be64 (ofNat i) = k := by
  rw [manyRows, mem_keys_unique, manyPairs, map_map, mem_map]
  simp [keys_empty]

theorem card_manyRows (hn : n ≤ 2 ^ 64) : (manyRows n).keys.card = n := by
  refine (Finset.card_nbij (fun i => be64 (ofNat i)) ?_ ?_ ?_).symm.trans (Finset.card_range n)
  · exact fun i hi => mem_keys_manyRows.mpr ⟨i, Finset.mem_range.mp hi, rfl⟩
  · intro i hi j hj heq
    rw [Finset.coe_range, Set.mem_Iio] at hi hj
    have hnat := congrArg toNat (be64_injective heq)
    rw [toNat_ofNat', toNat_ofNat', Nat.mod_eq_of_lt (by omega),
      Nat.mod_eq_of_lt (by omega)] at hnat
    exact hnat
  · intro k hk
    obtain ⟨i, hi, rfl⟩ := mem_keys_manyRows.mp hk
    exact ⟨i, Finset.mem_coe.mpr (Finset.mem_range.mpr hi), rfl⟩

theorem weight_manyRows (hn : n ≤ 2 ^ 64) : (manyRows n).weight memberCost = n * 16 := by
  have hcost : ∀ k ∈ (manyRows n).keys, memberCost k = 16 := by
    intro k hk
    obtain ⟨i, -, rfl⟩ := mem_keys_manyRows.mp hk
    rfl
  rw [weight_eq_sum, Finset.sum_congr rfl hcost, Finset.sum_const, card_manyRows hn, smul_eq_mul]

theorem ZStore.write_of_le {maxBytes added : ℕ} {m : ZMeta} {unique : SortedRows Bytes UInt64}
    (h : m.bytes + (((st.rows k m.version).members.fresh unique.rows).map
      fun row => memberCost row.1).sum ≤ maxBytes) : st.write maxBytes k m unique added f =
      some ((st.withRows k m.version (unique.rows.foldl f (st.rows k m.version))).withMeta k
        (some { m with
          size := wrap32 (m.size + wrap32 added)
          bytes := m.bytes + (((st.rows k m.version).members.fresh unique.rows).map
            fun row => memberCost row.1).sum })) :=
  if_neg (Nat.not_lt.mpr h)

theorem ZStore.zadd_new {maxBytes now : ℕ} (h : st.Sound)
    (hnone : st.metas k = none) (pairs : List (UInt64 × Bytes))
    (hcap : (pairs.foldl (fun u p => u.put p.2 (storedScore p.1)) SortedRows.empty).weight
      memberCost ≤ maxBytes) :
    ∃ m, (st.zadd maxBytes now k pairs).2.metas k = some m ∧ m.expireMs = 0 ∧
      m.Counts ((st.zadd maxBytes now k pairs).2.rows k m.version) ∧
      ((st.zadd maxBytes now k pairs).2.rows k m.version).members.keys.card =
        (pairs.foldl (fun u p => u.put p.2 (storedScore p.1)) SortedRows.empty).keys.card := by
  have hlive : (st.expire now k).live now k = none := by
    rw [live_expire, live, hnone]
    rfl
  have hread : (st.expire now k).readMeta now k = .ok none := by rw [readMeta, hlive]
  have hempty : (st.expire now k).rows k ((st.expire now k).nextVersion now) = .empty :=
    (h.expire now k).fresh k _ (last_lt_nextVersion _ now)
  have hcounts : (⟨true, 0, (st.expire now k).nextVersion now, 0, 0⟩ : ZMeta).Counts
      ((st.expire now k).rows k ((st.expire now k).nextVersion now)) := hempty ▸ .empty _
  unfold zadd
  simp only [hread, metaOr]
  generalize pairs.foldl _ _ = unique at hcap ⊢
  obtain ⟨hafter, hkeys, -⟩ := counts_write hcounts unique fun r row _ => r.set_eq row
  rw [write_of_le]
  · refine ⟨_, (metas_withMeta ..).trans (if_pos rfl), rfl, ?_, ?_⟩
    · exact (rows_withRows ..).trans (if_pos ⟨rfl, rfl⟩) ▸ hafter
    show (members (((st.expire now k).withRows k _ _).rows k _)).keys.card = _
    rw [rows_withRows, if_pos ⟨rfl, rfl⟩]
    refine congrArg Finset.card (Finset.ext fun member => (hkeys member).trans ?_)
    rw [hempty]
    exact or_iff_right (Finset.notMem_empty member)
  · show 0 + ((((st.expire now k).rows k _).members.fresh unique.rows).map _).sum ≤ maxBytes
    rw [hempty, Nat.zero_add]
    exact (filter_sublist.map _).sum_le_sum (fun _ _ => Nat.zero_le _) |>.trans hcap

theorem zreplace_many (hpos : 0 < n) (hn : n < 2 ^ 60) :
    ∃ st, (zsetStore (2 ^ 64 - 1) fun a _ => a).exec (.blank 0) [(0, .zreplace [1] (manyPairs n))] =
        some st ∧
      ∃ m, st.live 0 [1] = some m ∧ m.size = wrap32 n ∧ (st.memberRows 0 [1]).length = n := by
  have hle : n ≤ 2 ^ 64 := by omega
  have hcap : (manyRows n).weight memberCost ≤ 2 ^ 64 - 1 := by
    rw [weight_manyRows hle]
    omega
  have hsome : (manyPairs n).isEmpty = false := by
    rw [isEmpty_eq_false_iff, ← length_pos_iff, manyPairs, length_map, length_range]
    exact hpos
  have hblank : ((blank 0).withMeta [1] none).metas [1] = none := rfl
  obtain ⟨m, hm, hexpire, hcounts, hcard⟩ :
      ∃ m, (((blank 0).withMeta [1] none).zadd (2 ^ 64 - 1) 0 [1] (manyPairs n)).2.metas [1] =
        some m ∧ _ :=
    zadd_new ((sound_blank 0).withMeta_none [1]) hblank (manyPairs n) hcap
  rw [← manyRows, card_manyRows hle] at hcard
  have hzreplace : ((blank 0).zreplace (2 ^ 64 - 1) 0 [1] (manyPairs n)).2 =
      (((blank 0).withMeta [1] none).zadd (2 ^ 64 - 1) 0 [1] (manyPairs n)).2 := by
    unfold zreplace
    rw [← manyRows, if_neg (Nat.not_lt.mpr hcap), hsome]
    rfl
  have hexec : (zsetStore (2 ^ 64 - 1) fun a _ => a).exec (.blank 0)
      [(0, .zreplace [1] (manyPairs n))] =
        some (((blank 0).withMeta [1] none).zadd (2 ^ 64 - 1) 0 [1] (manyPairs n)).2 := by
    rw [← hzreplace]
    rfl
  refine ⟨_, hexec, ?_⟩
  clear hexec hzreplace
  generalize ((blank 0).withMeta [1] none).zadd (2 ^ 64 - 1) 0 [1] (manyPairs n) = out at *
  have hlive : out.2.live 0 [1] = some m := by
    rw [ZStore.live, hm, Option.filter_some, ZMeta.isExpired, hexpire]
    rfl
  refine ⟨m, hlive, by rw [hcounts.size, hcard], ?_⟩
  rw [memberRows, hlive]
  exact length_rows.trans hcard

/-- **A size that runs over**: with the limit off, a union of `2 ^ 32` members has size none. -/
theorem size_runs_over :
    ∃ st, (zsetStore (2 ^ 64 - 1) fun a _ => a).exec (.blank 0)
        [(0, .zreplace [1] (manyPairs (2 ^ 32)))] = some st ∧
      ∃ m, st.live 0 [1] = some m ∧ m.size = 0 ∧ (st.memberRows 0 [1]).length = 2 ^ 32 := by
  have hn : (2 : ℕ) ^ 32 < 2 ^ 60 := Nat.pow_lt_pow_right (by decide) (by decide)
  obtain ⟨st, hexec, m, hlive, hsize, hlength⟩ := zreplace_many (Nat.two_pow_pos 32) hn
  exact ⟨st, hexec, m, hlive, hsize.trans (Nat.mod_self _), hlength⟩

end Flint
