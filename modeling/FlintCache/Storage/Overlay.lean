import FlintCache.Storage.MemKv

/-!
# Storage/Overlay — the write-batching overlay reads as the store it will leave

Writes are buffered, a key's last one only, and reads see through the buffer.  A walk from a bound
ends, on either engine, at the first row outside the prefix (`Engine.walk`), so a bound below the
prefix may cut it short; the buffer's own rows are filtered, and never are.
-/

namespace Flint

open List SortedRows MemKv

/-! ## What a walk of an engine comes to -/

/-- The two stores that may lie beneath. -/
inductive Engine
  | memory
  | rocks
  deriving DecidableEq, Repr

/-- Where a walk from a bound starts: the row at the bound is read over in memory, and is the first
one to come up on disk. -/
def Engine.reaches : Engine → Bytes → Bytes → Bool
  | .memory, bound, k => bound < k
  | .rocks, bound, k => !decide (k < bound)

def seeks (e : Engine) (q : Scan) (k : Bytes) : Bool :=
  if q.bound.isEmpty then !decide (k < q.stem) else e.reaches q.bound k

/-- The loop of a walk backwards on disk: past the range it goes on, before it it ends. -/
def rocksBefore (q : Scan) (s : KvRows) : List (Bytes × Bytes) :=
  (((s.rows.reverse.filter fun row =>
      (if q.bound.isEmpty then prefixSuccessor q.stem else some q.bound).all (row.1 ≤ ·)).filter
    fun row => q.bound.isEmpty || decide (row.1 < q.bound)).takeWhile
      fun row => q.stem.isPrefixOf row.1 || decide (q.stem < row.1)).filter
        fun row => q.stem.isPrefixOf row.1

/-- **The rows an engine shows a visitor**, up to where it stops. -/
def Engine.walk (e : Engine) (q : Scan) (s : KvRows) : List (Bytes × Bytes) :=
  if q.descending then
    match e with
    | .memory => scans.walk q s
    | .rocks => rocksBefore q s
  else
    ((s.rows.filter fun row => seeks e q row.1).takeWhile fun row => q.stem.isPrefixOf row.1).filter
      fun row => q.bound.isEmpty || decide (q.bound < row.1)

/-- A row past the bound and before the prefix: the walk ends at it. -/
def Engine.Cut (e : Engine) (q : Scan) (s : KvRows) : Prop :=
  q.descending = false ∧ q.bound ≠ [] ∧ ∃ row ∈ s.rows, e.reaches q.bound row.1 ∧ row.1 < q.stem

section Walks

variable {α : Type} {e : Engine} {q : Scan} {s : KvRows}

theorem keeps_iff (k : Bytes) : scans.keeps q k = true ↔ q.stem <+: k ∧
    (q.bound = [] ∨ if q.descending then k < q.bound else q.bound < k) := by
  simp only [scans, Bool.and_eq_true, Bool.or_eq_true, List.isEmpty_iff, isPrefixOf_iff_prefix]
  cases q.descending with
  | _ => simp

theorem isPrefix_or_lt (pre k : Bytes) : pre <+: k ∨ pre < k ↔ ¬ k < pre := by
  constructor
  · rintro (hpre | hlt)
    · exact ((isPrefix_iff pre k).mp hpre).1
    · exact lt_asymm hlt
  · intro hnot
    obtain rfl | hlt := (not_lt.mp hnot).eq_or_lt
    · exact .inl (prefix_refl _)
    · exact .inr hlt

theorem rocksBefore_eq (hdesc : q.descending = true) : rocksBefore q s = scans.walk q s := by
  have hsorted : s.rows.reverse.Pairwise fun a b => a.1 > b.1 := pairwise_reverse.mpr s.inOrder
  have hwhile := fun p : Bytes → Bool => takeWhile_eq_filter (p := fun k => q.stem.isPrefixOf k ||
    decide (q.stem < k)) (hsorted.filter fun row => p row.1) fun a _ b _ hab hb => by
      simp only [Bool.or_eq_true, isPrefixOf_iff_prefix, decide_eq_true_eq, isPrefix_or_lt] at hb ⊢
      exact fun ha => hb (hab.trans ha)
  rw [rocksBefore, filter_filter, hwhile fun k => (q.bound.isEmpty || decide (k < q.bound)) &&
    (if q.bound.isEmpty then prefixSuccessor q.stem else some q.bound).all (k ≤ ·), filter_filter,
    filter_filter, RowScans.walk]
  change _ = if q.descending then (s.rows.filter fun row => scans.keeps q row.1).reverse else _
  rw [if_pos hdesc, ← filter_reverse]
  refine filter_congr fun row _ => ?_
  have hrange := isPrefix_iff q.stem row.1
  rw [Bool.eq_iff_iff, keeps_iff, if_pos hdesc]
  simp only [Bool.and_eq_true, Bool.or_eq_true, isPrefixOf_iff_prefix, decide_eq_true_eq,
    List.isEmpty_iff, Option.all_eq_true]
  by_cases hbound : q.bound = []
  · simp only [hbound, ↓reduceIte, true_or, true_and, and_true]
    exact ⟨fun h => h.1.1, fun h => ⟨⟨h, .inl h⟩, fun e he => le_of_lt ((hrange.mp h).2 e he)⟩⟩
  · simp only [hbound, false_or, ↓reduceIte, Option.some.injEq, forall_eq']
    exact ⟨fun h => ⟨h.1.1, h.2.1⟩, fun h => ⟨⟨h.1, .inl h.1⟩, h.2, le_of_lt h.2⟩⟩

theorem keeps_ascending (hdesc : q.descending = false) (k : Bytes) :
    scans.keeps q k = true ↔ q.stem <+: k ∧ (q.bound = [] ∨ q.bound < k) := by
  rw [keeps_iff, hdesc, if_neg Bool.false_ne_true]

theorem seeks_of_bound (hbound : q.bound ≠ []) (k : Bytes) :
    seeks e q k = e.reaches q.bound k :=
  if_neg fun hempty => hbound (List.isEmpty_iff.mp hempty)

theorem not_lt_of_seeks (hcut : ¬ e.Cut q s) (hdesc : q.descending = false) {row : Bytes × Bytes}
    (hrow : row ∈ s.rows) (hseeks : seeks e q row.1 = true) : ¬ row.1 < q.stem := by
  intro hlt
  by_cases hbound : q.bound = []
  · simp [seeks, hbound, hlt] at hseeks
  · rw [seeks_of_bound hbound] at hseeks
    exact hcut ⟨hdesc, hbound, row, hrow, hseeks, hlt⟩

theorem seeks_of_keeps (hdesc : q.descending = false) {k : Bytes} (h : scans.keeps q k = true) :
    seeks e q k = true := by
  obtain ⟨hpre, hpast⟩ := (keeps_ascending hdesc k).mp h
  by_cases hbound : q.bound = []
  · simpa [seeks, hbound] using ((isPrefix_iff q.stem k).mp hpre).1
  · have hlt := hpast.resolve_left hbound
    rw [seeks_of_bound hbound]
    cases e with
    | memory => exact decide_eq_true hlt
    | rocks => simpa [Engine.reaches] using lt_asymm hlt

/-- **A walk that is not cut shows the rows in its range**, and one that is shows none. -/
theorem walk_of_cut (h : e.Cut q s) : e.walk q s = [] := by
  obtain ⟨hdesc, hbound, row, hrow, hreaches, hbefore⟩ := h
  have hseeks : seeks e q row.1 = true := by
    rw [seeks_of_bound hbound]
    exact hreaches
  rw [Engine.walk.eq_def, hdesc, if_neg Bool.false_ne_true,
    takeWhile_of_before s (seeks e q) hrow hseeks hbefore]
  rfl

theorem walk_of_not_cut (h : ¬ e.Cut q s) : e.walk q s = scans.walk q s := by
  rw [Engine.walk.eq_def]
  cases hdesc : q.descending with
  | true =>
    rw [if_pos rfl]
    cases e with
    | memory => rfl
    | rocks => exact rocksBefore_eq hdesc
  | false =>
    have hwhile := takeWhile_eq_filter (p := q.stem.isPrefixOf)
      (s.inOrder.filter fun row => seeks e q row.1) fun a ha b _ hab hb => by
        rw [ isPrefixOf_iff_prefix, isPrefix_iff] at hb ⊢
        obtain ⟨ha, hseeks⟩ := mem_filter.mp ha
        exact ⟨not_lt_of_seeks h hdesc ha hseeks, fun e he => hab.trans (hb.2 e he)⟩
    rw [if_neg Bool.false_ne_true, hwhile, filter_filter, filter_filter]
    change _ = if q.descending then _ else s.rows.filter fun row => scans.keeps q row.1
    rw [hdesc, if_neg Bool.false_ne_true]
    refine filter_congr fun row _ => ?_
    rw [Bool.eq_iff_iff]
    constructor
    · intro hin
      rw [Bool.and_eq_true, Bool.and_eq_true] at hin
      rw [keeps_ascending hdesc]
      exact ⟨List.isPrefixOf_iff_prefix.mp hin.1.2, by simpa using hin.1.1⟩
    · intro hkeeps
      obtain ⟨hpre, hpast⟩ := (keeps_ascending hdesc row.1).mp hkeeps
      rw [Bool.and_eq_true, Bool.and_eq_true]
      exact ⟨⟨by simpa using hpast, isPrefixOf_iff_prefix.mpr hpre⟩, seeks_of_keeps hdesc hkeeps⟩

/-- The chunked walks of the store in memory. -/
theorem walk_memory (visit : α → Bytes × Bytes → α × Bool) (kv : KvRows)
    (pre bound : Bytes) (a : α) :
    MemKv.forEachFrom visit kv pre bound a =
        (visitRows visit (Engine.memory.walk (Flint.forEachFrom pre bound) kv) a).1 ∧
      MemKv.forEachBefore visit kv pre bound a =
        (visitRows visit (Engine.memory.walk (Flint.forEachBefore pre bound) kv) a).1 := by
  refine ⟨?_, forEachBefore_eq visit kv pre bound a⟩
  by_cases hcut : Engine.memory.Cut (Flint.forEachFrom pre bound) kv
  · obtain ⟨-, hbound, row, hrow, hpast, hbefore⟩ := id hcut
    rw [walk_of_cut hcut]
    exact forEachFrom_ends visit kv hbound hrow (of_decide_eq_true hpast) hbefore a
  · rw [walk_of_not_cut hcut]
    refine forEachFrom_eq visit kv pre
        (or_iff_not_imp_left.mpr fun hbound row hrow hpast hbefore => ?_) a
    exact hcut ⟨rfl, hbound, row, hrow, decide_eq_true hpast, hbefore⟩

end Walks

def Engine.forEach {α : Type} (e : Engine) (s : KvRows) (visit : α → Bytes × Bytes → α × Bool)
    (q : Scan) (a : α) : α :=
  (visitRows visit (e.walk q s) a).1

def Engine.scanPrefix (e : Engine) (s : KvRows) (stem : Bytes) : List (Bytes × Bytes) :=
  e.forEach s collectRow (forEachPrefix stem) []

def Engine.countPrefix (e : Engine) (s : KvRows) (stem : Bytes) : ℕ :=
  e.forEach s countRow (forEachPrefix stem) 0

/-! ## The overlay -/

/-- A store and the writes buffered over it. -/
structure BatchingKv where
  under : KvRows
  buf : KvOps

namespace BatchingKv

def new (under : KvRows) : BatchingKv := ⟨under, .empty⟩

def get (kv : BatchingKv) (key : Bytes) : Option Bytes :=
  match kv.buf.get key with
  | some op => op
  | none => kv.under.get key

def put (kv : BatchingKv) (key value : Bytes) : BatchingKv :=
  { kv with buf := kv.buf.put key (some value) }

def delete (kv : BatchingKv) (key : Bytes) : Bool × BatchingKv :=
  ((kv.get key).isSome, { kv with buf := kv.buf.put key none })

def forEach {α : Type} (kv : BatchingKv) (e : Engine) (visit : α → Bytes × Bytes → α × Bool)
    (q : Scan) (a : α) : α :=
  scans.forEachOver visit q (e.walk q kv.under) kv.buf a

def scanPrefix (kv : BatchingKv) (e : Engine) (stem : Bytes) : List (Bytes × Bytes) :=
  kv.forEach e collectRow (forEachPrefix stem) []

def countPrefix (kv : BatchingKv) (e : Engine) (stem : Bytes) : ℕ :=
  kv.forEach e countRow (forEachPrefix stem) 0

end BatchingKv

/-- A buffered call. -/
inductive KvCall
  | put (key value : Bytes)
  | delete (key : Bytes)

def BatchingKv.call (kv : BatchingKv) : KvCall → BatchingKv
  | .put key value => kv.put key value
  | .delete key => (kv.delete key).2

/-! ## The overlay and the store it will leave -/

namespace BatchingKv

theorem get_eq (kv : BatchingKv) (key : Bytes) : kv.get key = (kv.under.merge kv.buf).get key := by
  rw [get_merge, get]
  cases kv.buf.get key with
  | _ => rfl

theorem under_call (kv : BatchingKv) (c : KvCall) : (kv.call c).under = kv.under := by
  cases c with
  | _ => rfl

theorem under_foldl (calls : List KvCall) (kv : BatchingKv) :
    (calls.foldl call kv).under = kv.under := by
  induction calls generalizing kv with
  | nil => rfl
  | cons c calls ih => exact (ih _).trans (kv.under_call c)

/-- The buffered rows in range that are there. -/
def shownBuf (kv : BatchingKv) (q : Scan) : KvRows :=
  SortedRows.merge .empty (kv.buf.filter (scans.keeps q))

/-- A row of the store in range that is not written over. -/
def Kept (kv : BatchingKv) (q : Scan) : Prop :=
  ∃ k v, scans.keeps q k = true ∧ kv.under.get k = some v ∧ kv.buf.get k = none

/-- A row in range that is written. -/
def Puts (kv : BatchingKv) (q : Scan) : Prop :=
  ∃ k v, scans.keeps q k = true ∧ kv.buf.get k = some (some v)

/-- **No walk is cut on one side only**: a row written in range is not cut off once it is in the
store, and one that was there is cut off both before and after, or never. -/
def Aligned (kv : BatchingKv) (e : Engine) (q : Scan) : Prop :=
  (kv.Kept q → (e.Cut q kv.under ↔ e.Cut q (kv.under.merge kv.buf))) ∧
    (kv.Puts q → ¬ e.Cut q (kv.under.merge kv.buf))

section Aligned

variable {kv : BatchingKv} {e : Engine} {q : Scan}

theorem mem_walk {t : KvRows} {k v : Bytes} :
    (k, v) ∈ scans.walk q t ↔ scans.keeps q k = true ∧ t.get k = some v := by
  have hshown : (k, v) ∈ scans.walk q t ↔ (k, v) ∈ (t.filter (scans.keeps q)).rows := by
    rw [RowScans.walk]
    split
    · exact mem_reverse
    · rfl
  rw [hshown, mem_rows, get_filter]
  simp

theorem mem_shownBuf {k v : Bytes} :
    (k, v) ∈ (kv.shownBuf q).rows ↔ scans.keeps q k = true ∧ kv.buf.get k = some (some v) := by
  rw [mem_rows, shownBuf, get_merge, get_filter]
  cases scans.keeps q k with
  | false => simp
  | true =>
    cases kv.buf.get k with
    | _ => simp

theorem shownBuf_eq_nil : (kv.shownBuf q).rows = [] ↔ ¬ kv.Puts q := by
  rw [eq_nil_iff_forall_not_mem, Puts]
  push Not
  refine ⟨fun h k v hin hput => h (k, v) (mem_shownBuf.mpr ⟨hin, hput⟩), fun h row hrow => ?_⟩
  obtain ⟨hin, hput⟩ := mem_shownBuf.mp hrow
  exact h row.1 row.2 hin hput

theorem mem_walk_merge {k v : Bytes} : (k, v) ∈ scans.walk q (kv.under.merge kv.buf) ↔
    scans.keeps q k = true ∧ (kv.buf.get k = some (some v) ∨
      kv.under.get k = some v ∧ kv.buf.get k = none) := by
  rw [mem_walk, get_merge]
  cases kv.buf.get k with
  | _ => simp

theorem walk_merge_eq_nil :
    scans.walk q (kv.under.merge kv.buf) = [] ↔ ¬ kv.Puts q ∧ ¬ kv.Kept q := by
  rw [eq_nil_iff_forall_not_mem, Puts, Kept]
  push Not
  constructor
  · exact fun h => ⟨fun k v hin hput => h (k, v) (mem_walk_merge.mpr ⟨hin, .inl hput⟩),
      fun k v hin hrow hbuf => h (k, v) (mem_walk_merge.mpr ⟨hin, .inr ⟨hrow, hbuf⟩⟩)⟩
  · rintro ⟨hputs, hkept⟩ ⟨k, v⟩ hrow
    obtain ⟨hin, hput | ⟨hrow, hbuf⟩⟩ := mem_walk_merge.mp hrow
    · exact hputs k v hin hput
    · exact hkept k v hin hrow hbuf

theorem shownBuf_eq_walk (hdesc : q.descending = false) :
    (kv.shownBuf q).rows = scans.walk q (kv.under.merge kv.buf) ↔ ¬ kv.Kept q := by
  constructor
  · rintro heq ⟨k, v, hin, hrow, hbuf⟩
    have hmem := mem_walk_merge.mpr ⟨hin, .inr ⟨hrow, hbuf⟩⟩
    rw [← heq, mem_shownBuf, hbuf] at hmem
    cases hmem.2
  · intro hkept
    have hwalk : scans.walk q (kv.under.merge kv.buf) =
        ((kv.under.merge kv.buf).filter (scans.keeps q)).rows := if_neg (by simp [scans, hdesc])
    rw [hwalk]
    congr 1
    refine ext_get fun k => Option.ext fun v => ?_
    rw [← mem_rows, ← mem_rows, mem_shownBuf, ← hwalk, mem_walk_merge]
    refine and_congr_right fun hin => ⟨.inl, fun h => h.resolve_right fun h => ?_⟩
    exact hkept ⟨k, v, hin, h⟩

/-- Walks that no visitor tells apart show the same rows. -/
theorem visitRows_inj {l l' : List (Bytes × Bytes)} :
    (∀ (α : Type) (visit : α → Bytes × Bytes → α × Bool) (a : α),
      (visitRows visit l a).1 = (visitRows visit l' a).1) ↔ l = l' := by
  refine ⟨fun h => ?_, fun h α visit a => by rw [h]⟩
  have hrows := h _ collectRow []
  rwa [visitRows_collectRow, visitRows_collectRow, nil_append, nil_append] at hrows

theorem forEach_eq_iff : (∀ (α : Type) (visit : α → Bytes × Bytes → α × Bool) (a : α),
      kv.forEach e visit q a = e.forEach (kv.under.merge kv.buf) visit q a) ↔ kv.Aligned e q := by
  simp only [forEach, RowScans.forEachOver_eq, Engine.forEach]
  rw [visitRows_inj, Aligned]
  by_cases hunder : e.Cut q kv.under
  · rw [walk_of_cut hunder, scans.mergedWalk_nil hunder.1]
    change (kv.shownBuf q).rows = _ ↔ _
    by_cases hafter : e.Cut q (kv.under.merge kv.buf)
    · rw [walk_of_cut hafter, shownBuf_eq_nil]
      simp [hunder, hafter]
    · rw [walk_of_not_cut hafter, shownBuf_eq_walk hunder.1]
      simp [hunder, hafter]
  · rw [walk_of_not_cut hunder, scans.mergedWalk_walk]
    by_cases hafter : e.Cut q (kv.under.merge kv.buf)
    · rw [walk_of_cut hafter, walk_merge_eq_nil]
      simp [hunder, hafter, and_comm]
    · rw [walk_of_not_cut hafter]
      simp [hunder, hafter]

theorem aligned_of_bound (h : q.bound = [] ∨ q.descending = true) : kv.Aligned e q := by
  have hnever : ∀ s, ¬ e.Cut q s := by
    rintro s ⟨hdesc, hbound, -⟩
    obtain h | h := h
    · exact hbound h
    · rw [h] at hdesc
      cases hdesc
  exact ⟨fun _ => iff_of_false (hnever _) (hnever _), fun _ => hnever _⟩

end Aligned

end BatchingKv

/-- **The overlay is the store it will leave**: the store beneath is as it was, every read and every
walk of a whole prefix or backwards shows what it will show once the buffered changes are written,
in whatever order, and a walk from a bound does exactly if none is cut on one side only. -/
theorem overlay_exact (e : Engine) (s : KvRows) (calls : List KvCall) :
    (calls.foldl BatchingKv.call (.new s)).under = s ∧
    ∀ ops : List (Bytes × Option Bytes),
      ops.Perm (calls.foldl BatchingKv.call (.new s)).buf.rows →
      (∀ key, (calls.foldl BatchingKv.call (.new s)).get key = (s.applyWrites ops).get key) ∧
      (∀ q : Scan, (∀ (α : Type) (visit : α → Bytes × Bytes → α × Bool) (a : α),
        (calls.foldl BatchingKv.call (.new s)).forEach e visit q a =
          e.forEach (s.applyWrites ops) visit q a) ↔
        q.bound = [] ∨ q.descending = true ∨
          (calls.foldl BatchingKv.call (.new s)).Aligned e q) ∧
      (∀ stem, (calls.foldl BatchingKv.call (.new s)).scanPrefix e stem =
        e.scanPrefix (s.applyWrites ops) stem) ∧
      ∀ stem, (calls.foldl BatchingKv.call (.new s)).countPrefix e stem =
        e.countPrefix (s.applyWrites ops) stem := by
  have hunder : (calls.foldl BatchingKv.call (.new s)).under = s := BatchingKv.under_foldl calls _
  refine ⟨hunder, fun ops hops => ?_⟩
  generalize calls.foldl BatchingKv.call (.new s) = kv at hunder hops ⊢
  rw [← hunder, KvRows.applyWrites_eq_merge kv.under hops]
  refine ⟨kv.get_eq, fun q => ?_, fun stem => ?_, fun stem => ?_⟩
  · rw [BatchingKv.forEach_eq_iff, ← or_assoc]
    exact ⟨.inr, fun h => h.elim BatchingKv.aligned_of_bound id⟩
  · exact BatchingKv.forEach_eq_iff.mpr (.inl rfl |> BatchingKv.aligned_of_bound) _ _ _
  · exact BatchingKv.forEach_eq_iff.mpr (.inl rfl |> BatchingKv.aligned_of_bound) _ _ _

theorem overlay_exact_put :
    ((BatchingKv.new .empty).call (.put [1] [2])).get [1] = some [2] ∧
      ((BatchingKv.new .empty).call (.put [1] [2])).countPrefix .rocks [] =
        Engine.countPrefix .rocks
          (KvRows.applyWrites .empty ((BatchingKv.new .empty).call (.put [1] [2])).buf.rows) [] :=
  ⟨by decide +kernel, ((overlay_exact .rocks .empty [.put [1] [2]]).2 _ (.refl _)).2.2.2 []⟩

/-- From `0`, the row of `a` hides the rows under `b`: not one that is still buffered, and, though
it is deleted in the buffer, one that is in the store. -/
theorem overlay_cut_short :
    let under : KvRows := ⟨[([97], [0])], by decide⟩
    let added := (BatchingKv.new under).put [98] [1]
    let both : KvRows := ⟨[([97], [0]), ([98], [1])], by decide⟩
    let without := ((BatchingKv.new both).delete [97]).2
    (added.forEach .rocks collectRow (forEachFrom [98] [48]) [] = [([98], [1])] ∧
      Engine.forEach .rocks (under.applyWrites added.buf.rows) collectRow
          (forEachFrom [98] [48]) [] =
        []) ∧
    without.forEach .rocks collectRow (forEachFrom [98] [48]) [] = [] ∧
      Engine.forEach .rocks (both.applyWrites without.buf.rows) collectRow
          (forEachFrom [98] [48]) [] =
        [([98], [1])] := by
  decide +kernel

end Flint
