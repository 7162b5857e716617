import FlintCache.Lib.Machine
import FlintCache.Storage.Batch

/-!
# Storage/MemKv — walks over the store in memory

A walk takes a chunk of rows under the lock, shows them to the visitor with the lock released, and
goes on from the last.  It stops at the first row outside the prefix.
-/

namespace Flint

open List

/-- The least key past all with the prefix: its last byte below `0xff` raised, the rest dropped. -/
def prefixSuccessor : Bytes → Option Bytes
  | [] => none
  | b :: bs =>
    match prefixSuccessor bs with
    | some s => some (b :: s)
    | none => if b = 0xff then none else some [b + 1]

namespace MemKv

variable {α : Type} (visit : α → Bytes × Bytes → α × Bool) (kv : KvRows)

/-- The loop of both walks, on the rows in order; `within` is the range read for a cursor. -/
def chunks (walk : List (Bytes × Bytes)) (within : Option Bytes → Bytes → Bool) (pre : Bytes)
    (chunk : ℕ) : ℕ → Option Bytes → α → α
  | 0, _, a => a
  | fuel + 1, cursor, a =>
    let part := ((walk.filter fun row => within cursor row.1).takeWhile fun row =>
      pre.isPrefixOf row.1).take chunk
    let seen := visitRows visit part a
    if seen.2 && chunk ≤ part.length then
      chunks walk within pre chunk fuel (part.getLast?.map Prod.fst) seen.1
    else seen.1

def ahead (pre : Bytes) (cursor : Option Bytes) (k : Bytes) : Bool :=
  cursor.elim (!decide (k < pre)) fun c => c < k

def behind (pre : Bytes) (cursor : Option Bytes) (k : Bytes) : Bool :=
  !decide (k < pre) && (cursor.or (prefixSuccessor pre)).all (k < ·)

-- A chunk that is full holds rows, so the rows there are bound the rounds of the loop.
def chunked (pre : Bytes) (cursor : Option Bytes) (a : α) : α :=
  chunks visit kv.rows (ahead pre) pre 1024 (kv.rows.length + 1) cursor a

def clip (pre : Bytes) (cursor : Option Bytes) : Option Bytes :=
  cursor.filter fun c => !(prefixSuccessor pre).any (· < c)

def chunkedRev (pre : Bytes) (cursor : Option Bytes) (a : α) : α :=
  if (clip pre cursor).any fun c => !decide (pre < c) then a
  else chunks visit kv.rows.reverse (behind pre) pre 1024 (kv.rows.length + 1) (clip pre cursor) a

def seed (bound : Bytes) : Option Bytes := if bound.isEmpty then none else some bound

def forEachPrefix (pre : Bytes) (a : α) : α := chunked visit kv pre none a

def forEachFrom (pre startAfter : Bytes) (a : α) : α := chunked visit kv pre (seed startAfter) a

def forEachBefore (pre startBefore : Bytes) (a : α) : α :=
  chunkedRev visit kv pre (seed startBefore) a

/-! ## Chunks -/

variable {pre : Bytes} {cursor : Option Bytes}

section Chunks

variable {visit} {walk : List (Bytes × Bytes)} {r : Bytes → Bytes → Prop} [DecidableRel r]

theorem filter_past (hr : ∀ a b, r a b → ¬ r b a) {part rest : List (Bytes × Bytes)}
    (h : (part ++ rest).Pairwise fun a b => r a.1 b.1) {last : Bytes × Bytes}
    (hlast : part.getLast? = some last) :
    (part ++ rest).filter (fun row => r last.1 row.1) = rest := by
  obtain ⟨front, rfl⟩ := getLast?_eq_some_iff.mp hlast
  obtain ⟨hpart, -, hrest⟩ := pairwise_append.mp h
  have hbefore : ∀ row ∈ front ++ [last], ¬ r last.1 row.1 := by
    intro row hrow
    refine of_mem_snoc hrow (fun hrow => ?_) fun h => hr _ _ h h
    exact hr _ _ ((pairwise_append.mp hpart).2.2 row hrow last (by simp))
  rw [filter_append, filter_eq_nil_iff.mpr (by simpa using hbefore), nil_append,
    filter_eq_self]
  exact fun row hrow => decide_eq_true (hrest last (by simp) row hrow)

omit [DecidableRel r] in
theorem takeWhile_eq_filter {p : Bytes → Bool} (hwalk : walk.Pairwise fun a b => r a.1 b.1)
    (hp : ∀ a ∈ walk, ∀ b ∈ walk, r a.1 b.1 → p b.1 → p a.1) :
    (walk.takeWhile fun row => p row.1) = walk.filter fun row => p row.1 := by
  induction walk with
  | nil => rfl
  | cons row walk ih =>
    obtain ⟨hrow, hwalk⟩ := pairwise_cons.mp hwalk
    rw [takeWhile_cons, filter_cons, ih hwalk fun a ha b hb =>
      hp a (mem_cons_of_mem _ ha) b (mem_cons_of_mem _ hb)]
    split
    · rfl
    · next hno =>
      exact (filter_eq_nil_iff.mpr fun b hb hyes => hno (hp row mem_cons_self b
        (mem_cons_of_mem _ hb) (hrow b hb) hyes)).symm

variable {within : Option Bytes → Bytes → Bool} (hr : ∀ a b, r a b → ¬ r b a)
  (hwalk : walk.Pairwise fun a b => r a.1 b.1)
  (hnext : ∀ {cursor k} x, within cursor k = true →
    (within (some k) x = true ↔ within cursor x = true ∧ r k x))

include hr hwalk hnext

theorem chunks_eq {chunk : ℕ} (hchunk : 0 < chunk) {fuel : ℕ} {a : α}
    (hfuel : ((walk.filter fun row => within cursor row.1).takeWhile fun row =>
      pre.isPrefixOf row.1).length < fuel) : chunks visit walk within pre chunk fuel cursor a =
      (visitRows visit ((walk.filter fun row => within cursor row.1).takeWhile fun row =>
        pre.isPrefixOf row.1) a).1 := by
  induction fuel generalizing cursor a with
  | zero => omega
  | succ fuel ih =>
    generalize hrange : (walk.filter fun row => within cursor row.1) = range at hfuel ⊢
    generalize hunder : (range.takeWhile fun row => pre.isPrefixOf row.1) = under at hfuel ⊢
    rw [chunks, hrange, hunder]
    have hsplit := @visitRows_append _ _ _ visit (under.take chunk) (under.drop chunk) a
    rw [take_append_drop] at hsplit
    by_cases hfull : chunk ≤ (under.take chunk).length
    · -- The rows past the chunk's last are those that are left.
      obtain ⟨last, hlast⟩ : ∃ last, (under.take chunk).getLast? = some last := by
        rw [← Option.isSome_iff_exists, getLast?_isSome]
        exact ne_nil_of_length_pos (hchunk.trans_le hfull)
      obtain ⟨rest, hrest⟩ := (List.take_prefix chunk under).trans
        (hunder ▸ takeWhile_prefix _ : under <+: range)
      have hmem : last ∈ walk.filter fun row => within cursor row.1 := by
        rw [hrange, ← hrest]
        exact mem_append_left _ (mem_of_getLast? hlast)
      have hpast : (walk.filter fun row => within (some last.1) row.1) = rest := by
        have hfilter : (walk.filter fun row => within (some last.1) row.1) =
            range.filter fun row => r last.1 row.1 := by
          rw [← hrange, filter_filter]
          refine filter_congr fun row _ => ?_
          rw [Bool.eq_iff_iff, hnext _ (by simpa using (mem_filter.mp hmem).2)]
          simp [and_comm]
        rw [hfilter, ← hrest]
        exact filter_past hr (hrest ▸ hrange ▸ hwalk.filter _) hlast
      have hleft : (rest.takeWhile fun row => pre.isPrefixOf row.1) = under.drop chunk := by
        have htake : ∀ row ∈ under.take chunk, pre.isPrefixOf row.1 := fun row hrow => by
          have hall := List.all_eq_true.mp (all_takeWhile (l := range)
            (p := fun row : Bytes × Bytes => pre.isPrefixOf row.1))
          exact hall row (hunder ▸ mem_of_mem_take hrow)
        rw [← hrest, takeWhile_append_of_pos htake] at hunder
        exact append_cancel_left (hunder.trans (take_append_drop chunk under).symm)
      rw [decide_eq_true hfull, Bool.and_true, hsplit, hlast]
      split
      · rw [Option.map_some, ih]
        · rw [hpast, hleft]
        · rw [hpast, hleft, length_drop]
          rw [length_take] at hfull
          omega
      · rfl
    · rw [decide_eq_false hfull, Bool.and_false, if_neg Bool.false_ne_true]
      rw [take_of_length_le (by
        rw [length_take] at hfull
        omega)]

theorem chunks_eq_filter (hin : ∀ a ∈ walk, within cursor a.1 → ∀ k, r a.1 k →
      pre <+: k → pre <+: a.1) {n : ℕ} (hn : walk.length = n) (a : α) :
    chunks visit walk within pre 1024 (n + 1) cursor a = (visitRows visit (walk.filter fun row =>
      pre.isPrefixOf row.1 && within cursor row.1) a).1 := by
  have hwhile := takeWhile_eq_filter (p := pre.isPrefixOf)
    (hwalk.filter fun row => within cursor row.1) fun a ha b _ hab hb => by
      rw [List.isPrefixOf_iff_prefix] at hb ⊢
      exact hin a (mem_filter.mp ha).1 (mem_filter.mp ha).2 b.1 hab hb
  rw [filter_filter] at hwhile
  rw [chunks_eq hr hwalk hnext (by decide), hwhile]
  rw [hwhile, ← hn]
  exact Nat.lt_succ_of_le (length_filter_le ..)

end Chunks

/-! ## The range of a prefix -/

theorem succ_byte {b : UInt8} (hb : b ≠ 0xff) (y : UInt8) : y < b + 1 ↔ y ≤ b := by
  rw [UInt8.lt_iff_toNat_lt, UInt8.le_iff_toNat_le, UInt8.toNat_add]
  have hlt : b.toNat < 256 := b.toNat_lt
  have hne : b.toNat ≠ 255 := fun h => hb (UInt8.toNat_inj.mp h)
  have hone : (1 : UInt8).toNat = 1 := rfl
  omega

theorem isPrefix_iff (pre k : Bytes) :
    pre <+: k ↔ ¬ k < pre ∧ ∀ e ∈ prefixSuccessor pre, k < e := by
  induction pre generalizing k with
  | nil => simp [prefixSuccessor]
  | cons b bs ih =>
    cases k with
    | nil => simp
    | cons y ys =>
      rw [cons_prefix_cons, ih, prefixSuccessor, cons_lt_cons_iff]
      cases prefixSuccessor bs with
      | some s =>
        simp only [Option.mem_def, Option.some.injEq, forall_eq', cons_lt_cons_iff]
        grind
      | none =>
        by_cases hb : b = 0xff
        · have hy : y ≤ b := by
            rw [hb, UInt8.le_iff_toNat_le]
            exact Nat.le_of_lt_succ y.toNat_lt
          simp only [if_pos hb, Option.mem_def, reduceCtorEq, false_imp_iff, implies_true, and_true]
          grind
        · have hy := succ_byte hb y
          simp only [if_neg hb, Option.mem_def, reduceCtorEq, false_imp_iff, implies_true, and_true,
            Option.some.injEq, forall_eq', cons_lt_cons_iff, not_lt_nil, and_false, or_false, hy]
          grind

section

theorem ahead_next {k : Bytes} (x : Bytes) (h : ahead pre cursor k) :
    ahead pre (some k) x ↔ ahead pre cursor x ∧ k < x := by
  cases cursor with
  | none =>
    simp only [ahead, Option.elim, Bool.not_eq_true', decide_eq_false_iff_not,
      decide_eq_true_eq] at h ⊢
    grind
  | some c =>
    simp only [ahead, Option.elim, decide_eq_true_eq] at h ⊢
    grind

theorem behind_next {k : Bytes} (x : Bytes) (h : behind pre cursor k) :
    behind pre (some k) x ↔ behind pre cursor x ∧ k > x := by
  simp only [behind, Bool.and_eq_true, Option.all_eq_true, decide_eq_true_eq, Option.some_or,
    Option.some.injEq, forall_eq'] at h ⊢
  grind

theorem chunked_eq (hcursor : ∀ row ∈ kv.rows, ahead pre cursor row.1 → ¬ row.1 < pre) (a : α) :
    chunked visit kv pre cursor a = (visitRows visit (kv.rows.filter fun row =>
      pre.isPrefixOf row.1 && ahead pre cursor row.1) a).1 := by
  refine chunks_eq_filter (fun _ _ => lt_asymm) kv.inOrder ahead_next
      (fun row hrow hahead k hk => ?_)
    rfl a
  rw [isPrefix_iff, isPrefix_iff]
  exact fun hpre => ⟨hcursor row hrow hahead, fun e he => hk.trans (hpre.2 e he)⟩

end

theorem clip_cases (pre : Bytes) (cursor : Option Bytes) :
    clip pre cursor = none ∧ (∀ k, pre <+: k → cursor.all (k < ·)) ∨
      ∃ c, cursor = some c ∧ clip pre cursor = some c ∧ ∀ e ∈ prefixSuccessor pre, ¬ e < c := by
  cases cursor with
  | none => exact .inl ⟨rfl, fun _ _ => rfl⟩
  | some c =>
    rw [clip, Option.filter_some]
    split
    · next hc =>
      rw [Bool.not_eq_true', Option.any_eq_false] at hc
      exact .inr ⟨c, rfl, rfl, fun e he => of_decide_eq_false (hc e he)⟩
    · next hc =>
      simp only [Bool.not_eq_true', Bool.not_eq_false, Option.any_eq_true, decide_eq_true_eq] at hc
      obtain ⟨e, he, hlt⟩ := hc
      exact .inl ⟨rfl, fun k hk => decide_eq_true ((((isPrefix_iff pre k).mp hk).2 e he).trans hlt)⟩

theorem chunkedRev_eq (pre : Bytes) (cursor : Option Bytes) (a : α) :
    chunkedRev visit kv pre cursor a = (visitRows visit (kv.rows.reverse.filter fun row =>
      pre.isPrefixOf row.1 && cursor.all (row.1 < ·)) a).1 := by
  -- In its range a row is under the prefix, and a cursor at or below the prefix leaves no range.
  have hrange : ∀ k, behind pre (clip pre cursor) k ↔
      pre <+: k ∧ cursor.all (k < ·) := by
    intro k
    rw [isPrefix_iff]
    simp only [behind, Bool.and_eq_true, Bool.not_eq_true', decide_eq_false_iff_not,
      Option.all_eq_true, decide_eq_true_eq, Option.mem_def]
    obtain ⟨hclip, hall⟩ | ⟨c, rfl, hclip, hend⟩ := clip_cases pre cursor
    · simp only [isPrefix_iff, Option.all_eq_true, decide_eq_true_eq, Option.mem_def] at hall
      rw [hclip, Option.none_or]
      grind
    · simp only [Option.mem_def] at hend
      rw [hclip, Option.some_or]
      grind
  have hshown : (kv.rows.reverse.filter fun row => pre.isPrefixOf row.1 &&
      behind pre (clip pre cursor) row.1) =
      kv.rows.reverse.filter fun row => pre.isPrefixOf row.1 && cursor.all (row.1 < ·) := by
    refine filter_congr fun row _ => ?_
    rw [Bool.eq_iff_iff, Bool.and_eq_true, Bool.and_eq_true, hrange, isPrefixOf_iff_prefix]
    exact ⟨And.right, fun h => ⟨h.1, h⟩⟩
  rw [← hshown, chunkedRev]
  split
  · next hnone =>
    simp only [Option.any_eq_true, Bool.not_eq_true', decide_eq_false_iff_not] at hnone
    obtain ⟨c, hclip, hc⟩ := hnone
    rw [List.filter_eq_nil_iff.mpr]
    · rfl
    intro row _ hrow
    rw [hclip, behind] at hrow
    simp only [Bool.and_eq_true, Bool.not_eq_true', decide_eq_false_iff_not, Option.some_or,
      Option.all_some, decide_eq_true_eq] at hrow
    exact hc ((not_lt.mp hrow.2.1).trans_lt hrow.2.2)
  · exact chunks_eq_filter (fun _ _ => lt_asymm) (pairwise_reverse.mpr kv.inOrder) behind_next
      (fun row _ hrow _ _ _ => ((hrange row.1).mp hrow).1) length_reverse a

/-! ## The trait's walks -/

theorem forEachFrom_eq (pre : Bytes) {bound : Bytes}
    (hbound : bound = [] ∨ ∀ row ∈ kv.rows, bound < row.1 → ¬ row.1 < pre) (a : α) :
    forEachFrom visit kv pre bound a = kv.forEach visit (Flint.forEachFrom pre bound) a := by
  rw [forEachFrom, chunked_eq]
  · change _ = (visitRows visit (kv.rows.filter fun row => _) a).1
    congr 2
    refine filter_congr fun row _ => ?_
    cases bound with
    | nil =>
      change _ = (pre.isPrefixOf row.1 && true)
      rw [Bool.eq_iff_iff, Bool.and_eq_true, Bool.and_eq_true]
      refine and_congr_right fun h => iff_of_true ?_ rfl
      simpa [seed, ahead] using ((isPrefix_iff pre row.1).mp (List.isPrefixOf_iff_prefix.mp h)).1
    | cons b bs => rfl
  · intro row hrow hahead
    cases bound with
    | nil => simpa [seed, ahead] using hahead
    | cons b bs => exact (hbound.resolve_left (cons_ne_nil b bs)) row hrow (by
        simpa [seed, ahead] using hahead)

theorem forEachBefore_eq (pre bound : Bytes) (a : α) :
    forEachBefore visit kv pre bound a = kv.forEach visit (Flint.forEachBefore pre bound) a := by
  rw [forEachBefore, chunkedRev_eq]
  change _ = (visitRows visit (kv.rows.filter fun row => _).reverse a).1
  rw [← filter_reverse]
  congr 2
  refine filter_congr fun row _ => ?_
  cases bound with
  | _ => rfl

/-- A walk whose first row is outside the prefix shows nothing. -/
theorem forEachFrom_eq_self {pre bound : Bytes} (hbound : bound ≠ [])
    (h : ((kv.rows.filter fun row => bound < row.1).takeWhile fun row => pre.isPrefixOf row.1) = [])
    (a : α) : forEachFrom visit kv pre bound a = a := by
  have hseed : seed bound = some bound := if_neg (by simpa using hbound)
  rw [forEachFrom, hseed, chunked, chunks]
  simp only [ahead, Option.elim, h]
  rfl

theorem keeps_forEachFrom {pre bound : Bytes} (hbound : bound ≠ []) (k : Bytes) :
    scans.keeps (Flint.forEachFrom pre bound) k = true ↔ pre <+: k ∧ bound < k := by
  cases bound with
  | nil => exact absurd rfl hbound
  | cons b bs =>
    rw [← isPrefixOf_iff_prefix, ← decide_eq_true_iff (p := b :: bs < k), ← Bool.and_eq_true]
    rfl

theorem forEachFrom_of_none {pre bound : Bytes} (hbound : bound ≠ [])
    (h : ∀ row ∈ kv.rows, bound < row.1 → ¬ pre <+: row.1) (a : α) :
    forEachFrom visit kv pre bound a = kv.forEach visit (Flint.forEachFrom pre bound) a := by
  have hshown : (kv.rows.filter fun row => scans.keeps (Flint.forEachFrom pre bound) row.1) =
      [] := by
    refine filter_eq_nil_iff.mpr fun row hrow hin => ?_
    obtain ⟨hpre, hpast⟩ := (keeps_forEachFrom hbound row.1).mp hin
    exact h row hrow hpast hpre
  rw [forEachFrom_eq_self visit kv hbound]
  · change a = (visitRows visit (kv.rows.filter fun row => _) a).1
    rw [hshown]
    rfl
  · refine takeWhile_eq_nil_iff.mpr fun hpos hpre => ?_
    have hmem := mem_filter.mp (getElem_mem hpos)
    exact h _ hmem.1 (of_decide_eq_true hmem.2) (List.isPrefixOf_iff_prefix.mp hpre)

theorem visitRows_collectRow (rows shown : List (Bytes × Bytes)) :
    visitRows collectRow rows shown = (shown ++ rows, true) := by
  induction rows generalizing shown with
  | nil => rw [append_nil]; rfl
  | cons row rows ih =>
    rw [visitRows, collectRow]
    simpa using ih (shown ++ [row])

/-- A walk that starts before the prefix comes to nothing. -/
theorem takeWhile_of_before (p : Bytes → Bool) {pre : Bytes} {row : Bytes × Bytes}
    (hrow : row ∈ kv.rows) (hp : p row.1 = true) (hbefore : row.1 < pre) :
    ((kv.rows.filter fun row => p row.1).takeWhile fun row => pre.isPrefixOf row.1) = [] := by
  refine takeWhile_eq_nil_iff.mpr fun hpos hpre => ?_
  have hmem : row ∈ kv.rows.filter fun row => p row.1 := mem_filter.mpr ⟨hrow, hp⟩
  have hfirst := ((isPrefix_iff pre _).mp (List.isPrefixOf_iff_prefix.mp hpre)).1
  obtain ⟨i, hi, rfl⟩ := mem_iff_getElem.mp hmem
  cases i with
  | zero => exact hfirst hbefore
  | succ i =>
    have hlt := pairwise_iff_getElem.mp (kv.inOrder.filter fun row => p row.1) 0 (i + 1) hpos hi
      (Nat.succ_pos i)
    exact hfirst (hlt.trans hbefore)

/-- **A row past the bound and before the prefix** ends the walk before it begins. -/
theorem forEachFrom_ends {pre bound : Bytes} (hbound : bound ≠ []) {row : Bytes × Bytes}
    (hrow : row ∈ kv.rows) (hpast : bound < row.1) (hbefore : row.1 < pre) (a : α) :
    forEachFrom visit kv pre bound a = a :=
  forEachFrom_eq_self visit kv hbound
    (takeWhile_of_before kv (bound < ·) hrow (decide_eq_true hpast) hbefore) a

/-- **The walks show what the trait says**, whatever the visitor: from a bound, exactly if no row
lies past it and before the prefix, or none past it is under the prefix. -/
theorem walks_agree (pre bound : Bytes) :
    (∀ (α : Type) (visit : α → Bytes × Bytes → α × Bool) (a : α),
      forEachPrefix visit kv pre a = kv.forEach visit (Flint.forEachPrefix pre) a ∧
      forEachBefore visit kv pre bound a = kv.forEach visit (Flint.forEachBefore pre bound) a) ∧
    ((∀ (α : Type) (visit : α → Bytes × Bytes → α × Bool) (a : α),
      forEachFrom visit kv pre bound a = kv.forEach visit (Flint.forEachFrom pre bound) a) ↔
      bound = [] ∨ (∀ row ∈ kv.rows, bound < row.1 → ¬ row.1 < pre) ∨
        ∀ row ∈ kv.rows, bound < row.1 → ¬ pre <+: row.1) := by
  refine ⟨fun α visit a => ⟨forEachFrom_eq visit kv pre (.inl rfl) a,
    forEachBefore_eq visit kv pre bound a⟩, fun hagree => ?_, fun hcond α visit a => ?_⟩
  · by_contra hneither
    push Not at hneither
    obtain ⟨hbound, ⟨row, hrow, hpast, hbefore⟩, shown, hshown, hafter, hpre⟩ := hneither
    -- The walk shows nothing, the trait shows the row under the prefix.
    have hwalk := hagree _ collectRow []
    rw [forEachFrom_ends collectRow kv hbound hrow hpast hbefore] at hwalk
    change [] = (visitRows collectRow (kv.rows.filter fun row => _) []).1 at hwalk
    rw [visitRows_collectRow] at hwalk
    dsimp only [nil_append] at hwalk
    have hin : shown ∈ kv.rows.filter fun row => scans.keeps (Flint.forEachFrom pre bound) row.1 :=
      mem_filter.mpr ⟨hshown, (keeps_forEachFrom hbound shown.1).mpr ⟨hpre, hafter⟩⟩
    exact not_mem_nil (hwalk ▸ hin)
  · obtain hnil | hrows | hnone := hcond
    · exact forEachFrom_eq visit kv pre (.inl hnil) a
    · exact forEachFrom_eq visit kv pre (.inr hrows) a
    · by_cases hbound : bound = []
      · exact forEachFrom_eq visit kv pre (.inl hbound) a
      · exact forEachFrom_of_none visit kv hbound hnone a

/-- From `0`, the row of `a` ends the walk of the rows under `b`. -/
theorem forEachFrom_misses :
    let kv : KvRows := ⟨[([97], [0]), ([98], [1])], by decide⟩
    forEachFrom collectRow kv [98] [48] [] = [] ∧
      kv.forEach collectRow (Flint.forEachFrom [98] [48]) [] = [([98], [1])] := by
  decide

end MemKv

end Flint
