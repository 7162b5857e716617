import FlintCache.Lib.SortedRows

/-!
# Lib/ChunkRows — a long list in rows

A long list is kept in rows of `size` elements under their numbers, which are stored modulo `limit`;
what no row holds is zero.  `RowsOf` says that rows hold a list; `readRows` reads a window of it,
`splitRows` writes it, and a `ChunkEdit` changes it in place and writes back the rows it has changed
(`ChunkEdit.Holds.finish`).
-/

namespace Flint

open List SortedRows
open Nat (div_add_mod div_lt_iff_lt_mul mod_eq_of_lt mod_lt mul_comm succ_mul)

variable {α : Type} [Zero α] [DecidableEq α]

/-! ## Lists that end in zeros -/

def resize (l : List α) (n : ℕ) : List α := l.take n ++ List.replicate (n - l.length) 0

def splice (l : List α) (pos : ℕ) (part : List α) : List α :=
  l.take pos ++ (part ++ l.drop (pos + part.length))

section Lists

omit [DecidableEq α]

theorem ext_getD {l l' : List α} (hlen : l.length = l'.length)
    (h : ∀ i < l.length, l.getD i 0 = l'.getD i 0) : l = l' := by
  refine ext_getElem hlen fun i hi hi' => ?_
  simpa only [getD_eq_getElem _ _ hi, getD_eq_getElem _ _ hi'] using h i hi

@[simp] theorem length_resize (l : List α) (n : ℕ) : (resize l n).length = n := by
  simp only [resize, length_append, length_take, length_replicate]
  omega

theorem getD_resize (l : List α) (n i : ℕ) :
    (resize l n).getD i 0 = if i < n then l.getD i 0 else 0 := by
  simp only [resize, getD_eq_getElem?_getD, getElem?_append, length_take,
    getElem?_take, getElem?_replicate]
  grind

variable {l part : List α} {pos : ℕ}

omit [Zero α] in
theorem length_splice (h : pos + part.length ≤ l.length) :
    (splice l pos part).length = l.length := by
  simp only [splice, length_append, length_take, length_drop]
  omega

theorem getD_splice (h : pos + part.length ≤ l.length) (i : ℕ) : (splice l pos part).getD i 0 =
      if pos ≤ i ∧ i < pos + part.length then part.getD (i - pos) 0 else l.getD i 0 := by
  simp only [splice, getD_eq_getElem?_getD, getElem?_append, length_take,
    getElem?_take, getElem?_drop]
  grind

theorem getD_slice (l : List α) (start n i : ℕ) :
    ((l.drop start).take n).getD i 0 = if i < n then l.getD (start + i) 0 else 0 := by
  simp only [getD_eq_getElem?_getD, getElem?_take, getElem?_drop]
  grind

end Lists

/-! ## Rows -/

def rowsAt (size : ℕ) (rows : SortedRows ℕ (List α)) (p : ℕ) : α :=
  ((rows.get (p / size)).getD []).getD (p % size) 0

def readRow (size start stop : ℕ) (out : List α) (row : ℕ × List α) : List α :=
  let base := row.1 * size
  let lo := max base start
  let hi := min (base + row.2.length) stop
  if lo < hi then splice out (lo - start) ((row.2.drop (lo - base)).take (hi - lo)) else out

/-- The elements from `start` up to `stop`, read from the rows they lie in. -/
def readRows (size : ℕ) (rows : SortedRows ℕ (List α)) (start stop : ℕ) : List α :=
  let covered := rows.filter fun i => start / size ≤ i && i ≤ (stop - 1) / size
  covered.rows.foldl (readRow size start stop) (List.replicate (stop - start) 0)

def splitRows (size limit : ℕ) (rows : SortedRows ℕ (List α)) (l : List α) :
    SortedRows ℕ (List α) :=
  (List.range ((l.length + size - 1) / size)).foldl (fun rows i =>
    let part := (l.drop (i * size)).take size
    if part.any (· ≠ 0) then rows.put (i % limit) part else rows) rows

structure RowsOf (size limit : ℕ) (rows : SortedRows ℕ (List α)) (l : List α) : Prop where
  short : ∀ i row, rows.get i = some row → row.length ≤ size
  room : l.length ≤ limit * size
  at_eq : ∀ p < limit * size, rowsAt size rows p = l.getD p 0

section Read

omit [DecidableEq α]

variable {size start stop : ℕ} {rows : SortedRows ℕ (List α)} {out : List α}

omit [Zero α] in
theorem length_readRow (hout : out.length = stop - start) (row : ℕ × List α) :
    (readRow size start stop out row).length = stop - start := by
  unfold readRow
  dsimp only
  split
  · rw [length_splice, hout]
    rw [length_take, length_drop]
    omega
  · exact hout

variable {p : ℕ}

theorem getD_readRow (hsize : 0 < size) (hout : out.length = stop - start)
    {row : ℕ × List α} (hrow : row.2.length ≤ size) (hp : start ≤ p) (hstop : p < stop) :
    (readRow size start stop out row).getD (p - start) 0 =
      if p / size = row.1 ∧ p % size < row.2.length then row.2.getD (p % size) 0
      else out.getD (p - start) 0 := by
  obtain ⟨i, row⟩ := row
  have hdiv := div_add_mod p size
  have hmod := mod_lt p hsize
  have hin : (p / size = i ∧ p % size < row.length) ↔ i * size ≤ p ∧ p < i * size + row.length := by
    constructor
    · rintro ⟨rfl, hlt⟩
      rw [mul_comm] at hdiv
      omega
    intro h
    have hi : p / size = i := Nat.div_eq_of_lt_le h.1 (by rw [succ_mul]; dsimp only at hrow; omega)
    refine ⟨hi, ?_⟩
    rw [hi, mul_comm] at hdiv
    omega
  unfold readRow
  dsimp only
  by_cases hcase : p / size = i ∧ p % size < row.length
  · have hbounds := hin.mp hcase
    rw [if_pos hcase, if_pos (by omega), getD_splice, if_pos, getD_slice, if_pos]
    · congr 1
      rw [hcase.1, mul_comm] at hdiv
      omega
    · omega
    · rw [length_take, length_drop]
      omega
    · rw [length_take, length_drop, hout]
      omega
  have hbounds := fun h => hcase (hin.mpr h)
  rw [if_neg hcase]
  split
  · rw [getD_splice, if_neg]
    · rw [length_take, length_drop]
      omega
    · rw [length_take, length_drop, hout]
      omega
  · rfl

omit [Zero α] in
theorem length_foldl_readRow (l : List (ℕ × List α)) (hout : out.length = stop - start) :
    (l.foldl (readRow size start stop) out).length = stop - start :=
  foldlRecOn l _ (motive := fun out : List α => out.length = stop - start) hout
    fun _ hout row _ => length_readRow hout row

theorem foldl_readRow (hsize : 0 < size) (hp : start ≤ p) (hstop : p < stop)
    {l : List (ℕ × List α)} (hnodup : (l.map Prod.fst).Nodup) (hl : ∀ row ∈ l, row.2.length ≤ size)
    (hout : out.length = stop - start) :
    (l.foldl (readRow size start stop) out).getD (p - start) 0 = match l.lookup (p / size) with
      | some row => if p % size < row.length then row.getD (p % size) 0 else out.getD (p - start) 0
      | none => out.getD (p - start) 0 := by
  induction l generalizing out with
  | nil => rfl
  | cons row l ih =>
    obtain ⟨hnot, hnodup⟩ := nodup_cons.mp hnodup
    have hread := getD_readRow hsize hout (hl row mem_cons_self) hp hstop
    rw [foldl_cons, ih hnodup (fun r hr => hl r (mem_cons_of_mem _ hr))
      (length_readRow hout row), hread]
    by_cases hi : p / size = row.1
    · have hlookup : l.lookup row.1 = none := by
        refine lookup_eq_none_iff.mpr fun r hr => ?_
        refine bne_iff_ne.mpr fun heq => ?_
        exact hnot (mem_map.mpr ⟨r, hr, heq.symm⟩)
      rw [hi, hlookup, lookup_cons, beq_self_eq_true]
      simp
    · rw [lookup_cons, beq_false_of_ne hi]
      simp [hi]

theorem RowsOf.readRows {limit : ℕ} {l : List α} (h : RowsOf size limit rows l) (hsize : 0 < size)
    (start stop : ℕ) :
    readRows size rows start (min stop l.length) = (l.drop start).take (stop - start) := by
  have hspan : (replicate (min stop l.length - start) (0 : α)).length =
      min stop l.length - start := length_replicate
  have hcovered : ∀ row ∈ (rows.filter fun i => start / size ≤ i &&
      i ≤ (min stop l.length - 1) / size).rows, row.2.length ≤ size := by
    intro row hrow
    have hget := mem_rows.mp hrow
    rw [get_filter] at hget
    split at hget
    · exact h.short _ _ hget
    · cases hget
  have hlen : (Flint.readRows size rows start (min stop l.length)).length =
      min stop l.length - start := length_foldl_readRow _ hspan
  refine ext_getD ?_ fun i hi => ?_
  · rw [hlen, length_take, length_drop]
    omega
  rw [hlen] at hi
  have hget := foldl_readRow (p := start + i) hsize (by omega) (by omega) nodup_keys
    hcovered hspan
  have hat := h.at_eq (start + i) (by have := h.room; omega)
  rw [Nat.add_sub_cancel_left] at hget
  rw [getD_slice, if_pos (by omega), ← hat]
  refine hget.trans ?_
  have hcover : (decide (start / size ≤ (start + i) / size) &&
      decide ((start + i) / size ≤ (min stop l.length - 1) / size)) = true := by
    rw [Bool.and_eq_true, decide_eq_true_eq, decide_eq_true_eq]
    exact ⟨Nat.div_le_div_right (by omega), Nat.div_le_div_right (by omega)⟩
  have hlookup : (rows.filter fun i => decide (start / size ≤ i) &&
      decide (i ≤ (min stop l.length - 1) / size)).rows.lookup ((start + i) / size) =
        rows.get ((start + i) / size) :=
    get_filter.trans (if_pos hcover)
  rw [hlookup]
  unfold rowsAt
  cases rows.get ((start + i) / size) with
  | none => simp
  | some row =>
    dsimp only
    split
    · rfl
    · next hshort =>
      rw [Option.getD_some, getD_eq_default _ _ (not_lt.mp hshort)]
      simp

end Read

/-! ## Writing a list -/

variable {size limit : ℕ}

section Split

omit [Zero α] in
theorem get_foldl_range {ν : Type} (n : ℕ) (hn : n ≤ limit) (keep : ℕ → Bool) (row : ℕ → ν)
    (rows : SortedRows ℕ ν) (j : ℕ) :
    ((range n).foldl (fun rows i => if keep i then rows.put (i % limit) (row i) else rows)
      rows).get j = if j < n ∧ keep j = true then some (row j) else rows.get j := by
  induction n with
  | zero => simp
  | succ n ih =>
    rw [range_succ, foldl_append, foldl_cons, foldl_nil, mod_eq_of_lt (by omega : n < limit)]
    split
    · next hkeep =>
      rw [get_put, ih (by omega)]
      by_cases hj : j = n
      · simp [hj, hkeep]
      · have hlt : j < n + 1 ↔ j < n := by omega
        simp only [hj, if_false, hlt]
    · next hkeep =>
      rw [ih (by omega)]
      by_cases hj : j = n
      · simp [hj, hkeep]
      · have hlt : j < n + 1 ↔ j < n := by omega
        simp only [hlt]

theorem rowsOf_splitRows (hsize : 0 < size) {l : List α} (hroom : l.length ≤ limit * size) :
    RowsOf size limit (splitRows size limit .empty l) l := by
  have hcount : (l.length + size - 1) / size ≤ limit := by
    rw [← Nat.lt_succ_iff, div_lt_iff_lt_mul hsize, succ_mul]
    omega
  have hget (j : ℕ) : (splitRows size limit .empty l).get j = _ :=
    get_foldl_range _ hcount (fun i => ((l.drop (i * size)).take size).any (· ≠ 0))
      (fun i => (l.drop (i * size)).take size) .empty j
  refine ⟨fun i row hrow => ?_, hroom, fun p _ => ?_⟩
  · rw [hget] at hrow
    split at hrow
    · cases hrow
      exact length_take_le _ _
    · cases hrow
  have hdiv := div_add_mod p size
  have hmod := mod_lt p hsize
  rw [mul_comm] at hdiv
  have hpart : ((l.drop (p / size * size)).take size).getD (p % size) 0 = l.getD p 0 := by
    rw [getD_slice, if_pos hmod, hdiv]
  unfold rowsAt
  rw [hget]
  split
  · exact hpart
  · next hnot =>
    refine (getD_nil ..).trans ?_
    by_cases hlt : p / size < (l.length + size - 1) / size
    · have hzero : ((l.drop (p / size * size)).take size).any (· ≠ 0) ≠ true :=
        fun hany => hnot ⟨hlt, hany⟩
      rw [← hpart]
      by_cases hshort : p % size < ((l.drop (p / size * size)).take size).length
      · rw [getD_eq_getElem _ _ hshort]
        by_contra hne
        exact hzero (any_eq_true.mpr ⟨_, getElem_mem hshort, by simpa using Ne.symm hne⟩)
      · exact (getD_eq_default _ _ (not_lt.mp hshort)).symm
    refine (getD_eq_default _ _ ?_).symm
    rw [not_lt, Nat.le_div_iff_mul_le hsize, mul_comm] at hlt
    have hceil := div_add_mod (l.length + size - 1) size
    have hrest := mod_lt (l.length + size - 1) hsize
    omega

end Split

/-! ## Changing a list in place -/

/-- A list being changed: the rows it was read from, the chunks that have changed, its length, and
whether its length must be written. -/
structure ChunkEdit (α : Type) where
  rows : SortedRows ℕ (List α)
  chunks : SortedRows ℕ (List α)
  length : ℕ
  dirty : Bool

namespace ChunkEdit

variable {e : ChunkEdit α} {l : List α}

def chunk (size limit : ℕ) (e : ChunkEdit α) (i : ℕ) : List α :=
  (e.chunks.get i).getD (resize ((e.rows.get (i % limit)).getD []) size)

def get (size limit : ℕ) (e : ChunkEdit α) (p : ℕ) : α :=
  if e.length ≤ p then 0 else (e.chunk size limit (p / size)).getD (p % size) 0

def withChunk (e : ChunkEdit α) (i : ℕ) (c : List α) : ChunkEdit α :=
  { e with chunks := e.chunks.put i c }

/-- Write part of one chunk; a chunk that stays as it was has not changed. -/
def patch (size limit : ℕ) (e : ChunkEdit α) (i pos : ℕ) (part : List α) : ChunkEdit α :=
  let c := e.chunk size limit i
  if (c.drop pos).take part.length ≠ part then e.withChunk i (splice c pos part) else e

def set (size limit : ℕ) (e : ChunkEdit α) (p : ℕ) (v : α) : ChunkEdit α :=
  let e := if e.length ≤ p then { e with length := p + 1, dirty := true } else e
  e.patch size limit (p / size) (p % size) [v]

def grow (e : ChunkEdit α) (n : ℕ) : ChunkEdit α :=
  if e.length < n then { e with length := n, dirty := true } else e

def patchAll (size limit : ℕ) (hsize : 0 < size) (e : ChunkEdit α) (pos : ℕ) (l : List α) :
    ChunkEdit α :=
  if _hl : l = [] then e
  else
    let n := min (size - pos % size) l.length
    patchAll size limit hsize (e.patch size limit (pos / size) (pos % size) (l.take n)) (pos + n)
      (l.drop n)
termination_by l.length
decreasing_by
  have hpos := length_pos_iff.mpr _hl
  have hmod := mod_lt pos hsize
  simp only [length_drop]
  omega

/-- Write a list at a place, growing to reach it.  Its length is always written. -/
def write (size limit : ℕ) (hsize : 0 < size) (e : ChunkEdit α) (pos : ℕ) (l : List α) :
    ChunkEdit α :=
  let e := e.patchAll size limit hsize pos l
  { e with length := max e.length (pos + l.length), dirty := true }

def clean (e : ChunkEdit α) : Bool := !e.dirty && e.chunks.rows.isEmpty

/-- The rows with the changed chunks written back, each cut at the end. -/
def finish (size limit : ℕ) (e : ChunkEdit α) : SortedRows ℕ (List α) :=
  e.chunks.rows.foldl
    (fun rows row => rows.put (row.1 % limit)
        (row.2.take (min (e.length - row.1 * size) size))) e.rows

def Full (size limit : ℕ) (e : ChunkEdit α) : Prop :=
  ∀ i c, e.chunks.get i = some c → c.length = size ∧ i < limit

structure Holds (size limit : ℕ) (e : ChunkEdit α) (l : List α) : Prop where
  length : e.length = l.length
  room : l.length ≤ limit * size
  full : e.Full size limit
  short : ∀ i row, e.rows.get i = some row → row.length ≤ size
  at_eq : ∀ p < limit * size, (e.chunk size limit (p / size)).getD (p % size) 0 = l.getD p 0

omit [DecidableEq α] in
theorem Full.length_chunk (h : e.Full size limit) (i : ℕ) :
    (e.chunk size limit i).length = size := by
  unfold chunk
  cases hc : e.chunks.get i with
  | none => exact length_resize _ _
  | some c => exact (h i c hc).1

omit [DecidableEq α] in
theorem Holds.get (h : e.Holds size limit l) (p : ℕ) : e.get size limit p = l.getD p 0 := by
  unfold ChunkEdit.get
  split
  · next hle => exact (getD_eq_default _ _ (h.length ▸ hle)).symm
  · next hlt => exact h.at_eq p (by have := h.room; have := h.length; omega)

omit [DecidableEq α] in
theorem holds_of_rowsOf (hsize : 0 < size) {rows : SortedRows ℕ (List α)}
    (h : RowsOf size limit rows l)
    (dirty : Bool) : Holds size limit ⟨rows, .empty, l.length, dirty⟩ l where
  __ := h
  length := rfl
  full i c hc := by cases hc
  at_eq p hp := by
    have hchunk : p / size < limit := (div_lt_iff_lt_mul hsize).mpr hp
    rw [← h.at_eq p hp]
    refine (getD_resize _ _ _).trans ?_
    rw [if_pos (mod_lt p hsize), mod_eq_of_lt hchunk]
    rfl

omit [DecidableEq α] in
theorem chunk_withChunk (i j : ℕ) (c : List α) :
    (e.withChunk i c).chunk size limit j = if j = i then c else e.chunk size limit j := by
  unfold chunk withChunk
  dsimp only
  rw [get_put]
  split
  · rfl
  · rfl

variable {part : List α} {i pos : ℕ}

theorem Full.chunk_patch (h : e.Full size limit) (hpart : pos + part.length ≤ size) (p : ℕ) :
    ((e.patch size limit i pos part).chunk size limit (p / size)).getD (p % size) 0 =
      if p / size = i ∧ pos ≤ p % size ∧ p % size < pos + part.length then
        part.getD (p % size - pos) 0 else (e.chunk size limit (p / size)).getD (p % size) 0 := by
  have hlen := h.length_chunk i
  unfold patch
  dsimp only
  split
  · rw [chunk_withChunk]
    by_cases hi : p / size = i
    · rw [if_pos hi, getD_splice (by omega), hi]
      simp only [true_and]
    · rw [if_neg hi, if_neg fun hand => hi hand.1]
  · next heq =>
    split
    · next hin =>
      have hsame := not_not.mp heq
      rw [hin.1, ← hsame, getD_slice, if_pos (by omega)]
      congr 1
      omega
    · rfl

theorem Full.patch (h : e.Full size limit) (hi : i < limit)
    (hpart : pos + part.length ≤ size) : (e.patch size limit i pos part).Full size limit := by
  intro j c hc
  unfold ChunkEdit.patch at hc
  dsimp only at hc
  split at hc
  · replace hc := get_put.symm.trans hc
    split at hc
    · next hj =>
      cases hc
      rw [length_splice (by rw [h.length_chunk]; exact hpart), h.length_chunk, hj]
      exact ⟨rfl, hi⟩
    · exact h j c hc
  · exact h j c hc

theorem patch_frame (e : ChunkEdit α) (size limit i pos : ℕ) (part : List α) :
    (e.patch size limit i pos part).rows = e.rows ∧
      (e.patch size limit i pos part).length = e.length ∧
      (e.patch size limit i pos part).dirty = e.dirty := by
  unfold patch
  dsimp only
  split
  · exact ⟨rfl, rfl, rfl⟩
  · exact ⟨rfl, rfl, rfl⟩

def setElem (l : List α) (p : ℕ) (v : α) : List α := (resize l (max l.length (p + 1))).set p v

def writeList (l : List α) (pos : ℕ) (part : List α) : List α :=
  splice (resize l (max l.length (pos + part.length))) pos part

omit [DecidableEq α] in
theorem getD_writeList (pos : ℕ) (part : List α) (i : ℕ) : (writeList l pos part).getD i 0 =
      if pos ≤ i ∧ i < pos + part.length then part.getD (i - pos) 0 else l.getD i 0 := by
  have hfit : pos + part.length ≤ (resize l (max l.length (pos + part.length))).length := by
    rw [length_resize]
    exact le_max_right _ _
  unfold writeList
  rw [getD_splice hfit, getD_resize]
  split
  · rfl
  · split
    · rfl
    · exact (getD_eq_default _ _ (by omega)).symm

omit [DecidableEq α] in
theorem length_writeList (pos : ℕ) (part : List α) :
    (writeList l pos part).length = max l.length (pos + part.length) := by
  unfold writeList
  rw [length_splice, length_resize]
  rw [length_resize]
  exact le_max_right _ _

omit [DecidableEq α] in
theorem setElem_eq_writeList (p : ℕ) (v : α) : setElem l p v = writeList l p [v] := by
  refine ext_getD ?_ fun i _ => ?_
  · rw [length_writeList, setElem, length_set, length_resize]
    rfl
  rw [getD_writeList, setElem, getD_eq_getElem?_getD, getElem?_set, length_resize]
  by_cases hi : p = i
  · subst hi
    simp
  have hout : ¬(p ≤ i ∧ i < p + [v].length) := by
    rw [length_singleton]
    omega
  rw [if_neg hi, ← getD_eq_getElem?_getD, getD_resize, if_neg hout]
  split
  · rfl
  · exact (getD_eq_default _ _ (by omega)).symm

omit [Zero α] [DecidableEq α] in
theorem same_chunk (hsize : 0 < size) {pos n : ℕ} (p : ℕ) (hn : n ≤ size - pos % size) :
    (p / size = pos / size ∧ pos % size ≤ p % size ∧ p % size < pos % size + n) ↔
      pos ≤ p ∧ p < pos + n := by
  have hpos := div_add_mod pos size
  have hp := div_add_mod p size
  have hmod := mod_lt pos hsize
  constructor
  · rintro ⟨hdiv, hle, hlt⟩
    rw [hdiv] at hp
    omega
  intro h
  have hdiv : p / size = pos / size := by
    refine Nat.div_eq_of_lt_le ?_ ?_
    · rw [mul_comm]
      omega
    · rw [succ_mul, mul_comm]
      omega
  rw [hdiv] at hp
  exact ⟨hdiv, by omega, by omega⟩

theorem Full.patchAll (hsize : 0 < size) {e : ChunkEdit α} (h : e.Full size limit)
    (hroom : pos + part.length ≤ limit * size) :
    (e.patchAll size limit hsize pos part).Full size limit ∧
      (e.patchAll size limit hsize pos part).rows = e.rows ∧
      (e.patchAll size limit hsize pos part).length = e.length ∧
      ∀ p, ((e.patchAll size limit hsize pos part).chunk size limit (p / size)).getD (p % size) 0 =
        if pos ≤ p ∧ p < pos + part.length then part.getD (p - pos) 0
        else (e.chunk size limit (p / size)).getD (p % size) 0 := by
  -- by the length of what is left to write: each round writes up to the end of a chunk
  induction hk : part.length using Nat.strong_induction_on generalizing e pos part with
  | _ k ih =>
    subst hk
    rw [ChunkEdit.patchAll]
    split
    · next hnil =>
      subst hnil
      refine ⟨h, rfl, rfl, fun p => ?_⟩
      rw [if_neg]
      simp only [length_nil]
      omega
    · next hne =>
      have hlen := length_pos_iff.mpr hne
      have hmod := mod_lt pos hsize
      dsimp only
      generalize hn : min (size - pos % size) part.length = n
      have htake : (part.take n).length = n := by
        rw [length_take]
        omega
      have hdrop : (part.drop n).length = part.length - n := length_drop
      have hpart : pos % size + (part.take n).length ≤ size := by omega
      have hchunk : pos / size < limit := (div_lt_iff_lt_mul hsize).mpr (by omega)
      obtain ⟨hfull, hrows, hlength, hget⟩ := ih (part.drop n).length (by omega)
        (h.patch hchunk hpart) (by omega : pos + n + (part.drop n).length ≤ limit * size) rfl
      have hframe := patch_frame e size limit (pos / size) (pos % size) (part.take n)
      refine ⟨hfull, hrows.trans hframe.1, hlength.trans hframe.2.1, fun p => ?_⟩
      have hsame := same_chunk hsize p (n := n) (by omega : n ≤ size - pos % size)
      rw [hget p, h.chunk_patch hpart, htake]
      have hslice (i : ℕ) : (part.drop n).getD i 0 = part.getD (n + i) 0 := by
        rw [getD_eq_getElem?_getD, getElem?_drop, ← getD_eq_getElem?_getD]
      by_cases hfirst : pos ≤ p ∧ p < pos + n
      · have hin := hsame.mpr hfirst
        rw [if_neg (by omega), if_pos hin, if_pos (by omega), getD_eq_getElem?_getD,
          getElem?_take, if_pos (by omega), ← getD_eq_getElem?_getD]
        congr 1
        have hpos := div_add_mod pos size
        have hp := div_add_mod p size
        rw [hin.1] at hp
        omega
      rw [if_neg fun hin => hfirst (hsame.mp hin), hdrop, hslice]
      by_cases hrest : pos + n ≤ p ∧ p < pos + n + (part.length - n)
      · rw [if_pos hrest, if_pos (by omega)]
        congr 1
        omega
      · rw [if_neg hrest, if_neg (by omega)]

theorem Holds.write (hsize : 0 < size) (h : e.Holds size limit l)
    (hroom : pos + part.length ≤ limit * size) :
    (e.write size limit hsize pos part).Holds size limit (writeList l pos part) := by
  obtain ⟨hfull, hrows, hlength, hget⟩ := h.full.patchAll hsize hroom
  refine ⟨?_, ?_, hfull, ?_, fun p hp => ?_⟩
  · rw [length_writeList, ← h.length, ← hlength]
    rfl
  · rw [length_writeList]
    exact max_le h.room hroom
  · show ∀ i row, (e.patchAll size limit hsize pos part).rows.get i = some row → _
    rw [hrows]
    exact h.short
  · rw [getD_writeList, ← h.at_eq p hp]
    exact hget p

theorem Holds.set (hsize : 0 < size) (h : e.Holds size limit l) (hp : p < limit * size)
    (v : α) : (e.set size limit p v).Holds size limit (setElem l p v) := by
  have hgrown : ∀ e' : ChunkEdit α, e'.rows = e.rows → e'.chunks = e.chunks →
      e'.length = max l.length (p + 1) →
        (e'.patch size limit (p / size) (p % size) [v]).Holds size limit (setElem l p v) := by
    intro e' hrows hchunks hlength
    have hchunk (i : ℕ) : e'.chunk size limit i = e.chunk size limit i := by
      unfold chunk
      rw [hrows, hchunks]
    have hfull : e'.Full size limit := by
      unfold Full
      rw [hchunks]
      exact h.full
    have hmod : p % size + [v].length ≤ size := mod_lt p hsize
    obtain ⟨hrows', hlength', -⟩ := patch_frame e' size limit (p / size) (p % size) [v]
    rw [setElem_eq_writeList]
    refine ⟨?_, ?_, hfull.patch ((div_lt_iff_lt_mul hsize).mpr hp) hmod, ?_, fun q hq => ?_⟩
    · rw [hlength', hlength, length_writeList]
      rfl
    · rw [length_writeList]
      exact max_le h.room hp
    · rw [hrows', hrows]
      exact h.short
    have hsame := same_chunk hsize q (by
      have := mod_lt p hsize
      omega : 1 ≤ size - p % size)
    rw [hfull.chunk_patch hmod, getD_writeList, hchunk, h.at_eq q hq, length_singleton]
    by_cases hq : p ≤ q ∧ q < p + 1
    · obtain rfl : q = p := by omega
      rw [if_pos (hsame.mpr hq), if_pos hq, Nat.sub_self, Nat.sub_self]
    · rw [if_neg fun hin => hq (hsame.mp hin), if_neg hq]
  unfold ChunkEdit.set
  have hlen := h.length
  dsimp only
  split
  · exact hgrown _ rfl rfl (by dsimp only; omega)
  · exact hgrown _ rfl rfl (by omega)

omit [DecidableEq α] in
theorem Holds.grow (h : e.Holds size limit l) {n : ℕ} (hn : n ≤ limit * size) :
    (e.grow n).Holds size limit (resize l (max l.length n)) := by
  have hget (p : ℕ) : (resize l (max l.length n)).getD p 0 = l.getD p 0 := by
    rw [getD_resize]
    split
    · rfl
    · exact (getD_eq_default _ _ (by omega)).symm
  have hlen := h.length
  unfold ChunkEdit.grow
  split
  · refine ⟨?_, ?_, h.full, h.short, fun p hp => (h.at_eq p hp).trans (hget p).symm⟩
    · rw [length_resize]
      dsimp only
      omega
    · rw [length_resize]
      exact max_le h.room hn
  refine ⟨?_, ?_, h.full, h.short, fun p hp => (h.at_eq p hp).trans (hget p).symm⟩
  · rw [length_resize]
    omega
  · rw [length_resize]
    exact max_le h.room hn

omit [Zero α] [DecidableEq α] in
theorem get_foldl_put {f : ℕ × List α → List α} {rs : List (ℕ × List α)}
    (hnodup : (rs.map Prod.fst).Nodup) (hlimit : ∀ row ∈ rs, row.1 < limit)
    (rows : SortedRows ℕ (List α)) (j : ℕ) :
    (rs.foldl (fun rows row => rows.put (row.1 % limit) (f row)) rows).get j =
      (rs.lookup j).elim (rows.get j) fun c => some (f (j, c)) := by
  induction rs generalizing rows with
  | nil => rfl
  | cons row rs ih =>
    obtain ⟨hnot, hnodup⟩ := nodup_cons.mp hnodup
    rw [foldl_cons, ih hnodup fun r hr => hlimit r (mem_cons_of_mem _ hr),
      get_put, mod_eq_of_lt (hlimit row mem_cons_self), lookup_cons]
    by_cases hj : j = row.1
    · have hlookup : rs.lookup j = none := by
        refine lookup_eq_none_iff.mpr fun r hr => bne_iff_ne.mpr fun heq => ?_
        exact hnot (mem_map.mpr ⟨r, hr, (hj.symm.trans heq).symm⟩)
      rw [hlookup, hj, beq_self_eq_true]
      simp
    · rw [beq_false_of_ne hj, if_neg hj]

omit [DecidableEq α] in
theorem Holds.finish (hsize : 0 < size) (h : e.Holds size limit l) :
    RowsOf size limit (e.finish size limit) l := by
  have hget (j : ℕ) : (e.finish size limit).get j = (e.chunks.get j).elim (e.rows.get j) fun c =>
      some (c.take (min (e.length - j * size) size)) :=
    get_foldl_put (f := fun row => row.2.take (min (e.length - row.1 * size) size))
      nodup_keys (fun row hrow => (h.full _ _ (mem_rows.mp hrow)).2) e.rows j
  refine ⟨fun i row hrow => ?_, h.room, fun p hp => ?_⟩
  · rw [hget] at hrow
    cases hc : e.chunks.get i with
    | none =>
      rw [hc] at hrow
      exact h.short i row hrow
    | some c =>
      rw [hc] at hrow
      cases hrow
      exact (length_take_le _ _).trans (min_le_right _ _)
  have hat := h.at_eq p hp
  have hmod := mod_lt p hsize
  have hdiv := div_add_mod p size
  rw [mul_comm] at hdiv
  have hlen := h.length
  unfold rowsAt
  unfold chunk at hat
  rw [hget]
  cases hc : e.chunks.get (p / size) with
  | none =>
    rw [hc, Option.getD_none, getD_resize, if_pos hmod,
      mod_eq_of_lt ((div_lt_iff_lt_mul hsize).mpr hp)] at hat
    exact hat
  | some c =>
    rw [hc, Option.getD_some] at hat
    rw [Option.elim_some, Option.getD_some, getD_eq_getElem?_getD, getElem?_take]
    split
    · rw [← getD_eq_getElem?_getD]
      exact hat
    · next hspan => exact (getD_eq_default _ _ (by omega)).symm

omit [DecidableEq α] in
theorem Holds.of_clean (hsize : 0 < size) (h : e.Holds size limit l) (hclean : e.clean = true) :
    RowsOf size limit e.rows l := by
  have hempty : e.chunks.rows = [] := isEmpty_iff.mp (Bool.and_eq_true _ _ ▸ hclean).2
  have hfinish := h.finish hsize
  unfold ChunkEdit.finish at hfinish
  rwa [hempty] at hfinish

end ChunkEdit

end Flint
