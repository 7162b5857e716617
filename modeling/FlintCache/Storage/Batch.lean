import FlintCache.Lib.RowKv
import FlintCache.Storage.Units

/-!
# Storage/Batch — a walk with buffered changes merged in

A walk is driven by the store beneath; its callback visits what is buffered ahead of a row, then the
row or what is buffered in its place, and may be stopped anywhere (`mergeVisit`).
-/

namespace Flint

open List SortedRows

/-! ## Walks with a visitor -/

section Visit

variable {α κ ν : Type} (visit : α → κ × ν → α × Bool)

/-- A walk handed to a visitor, row by row until it says to stop: where it left the visitor, and
whether the walk ran to its end. -/
def visitRows : List (κ × ν) → α → α × Bool
  | [], a => (a, true)
  | row :: rows, a =>
    match visit a row with
    | (a, true) => visitRows rows a
    | (a, false) => (a, false)

/-- The buffered rows that come before the walk's, visited: those left, and whether to go on. -/
def visitAhead (ahead : κ → Bool) : List (κ × Option ν) → α → List (κ × Option ν) × α × Bool
  | [], a => ([], a, true)
  | p :: pending, a =>
    if ahead p.1 then
      match p.2 with
      | none => visitAhead ahead pending a
      | some v =>
        match visit a (p.1, v) with
        | (a, true) => visitAhead ahead pending a
        | (a, false) => (pending, a, false)
    else (p :: pending, a, true)

variable {visit}

theorem visitRows_append (l l' : List (κ × ν)) (a : α) : visitRows visit (l ++ l') a =
      if (visitRows visit l a).2 then visitRows visit l' (visitRows visit l a).1
      else visitRows visit l a := by
  induction l generalizing a with
  | nil => rfl
  | cons row l ih =>
    rw [cons_append, visitRows, visitRows]
    obtain ⟨a', more⟩ := visit a row
    cases more with
    | true => exact ih a'
    | false => rfl

theorem visitAhead_eq {ahead : κ → Bool} (pending : List (κ × Option ν)) (a : α) :
    (visitAhead visit ahead pending a).2 =
        visitRows visit ((pending.takeWhile fun p => ahead p.1).flatMap live) a ∧
      ((visitAhead visit ahead pending a).2.2 = true →
        (visitAhead visit ahead pending a).1 = pending.dropWhile fun p => ahead p.1) := by
  induction pending generalizing a with
  | nil => exact ⟨rfl, fun _ => rfl⟩
  | cons p pending ih =>
    obtain ⟨k, op⟩ := p
    rw [visitAhead, takeWhile_cons, dropWhile_cons]
    cases ahead k with
    | false => exact ⟨rfl, fun _ => rfl⟩
    | true =>
      cases op with
      | none => exact ih a
      | some v =>
        simp only [↓reduceIte, flatMap_cons, live, Option.map_some, Option.toList_some,
          singleton_append, visitRows]
        obtain ⟨a', more⟩ := visit a (k, v)
        cases more with
        | true => exact ih a'
        | false => exact ⟨rfl, fun h => absurd h Bool.false_ne_true⟩

variable (visit) [DecidableEq κ] (r : κ → κ → Prop) [DecidableRel r]

/-- What the walk beneath calls for each row; its state is the cursor and the visitor. -/
def mergeVisitRow (st : List (κ × Option ν) × α) (row : κ × ν) : (List (κ × Option ν) × α) × Bool :=
  match visitAhead visit (fun k => r k row.1) st.1 st.2 with
  | (pending, a, false) => ((pending, a), false)
  | ([], a, true) =>
    let (a, more) := visit a row
    (([], a), more)
  | ((k, op) :: pending, a, true) =>
    if k = row.1 then
      match op with
      | none => ((pending, a), true)
      | some v =>
        let (a, more) := visit a (k, v)
        ((pending, a), more)
    else
      let (a, more) := visit a row
      (((k, op) :: pending, a), more)

/-- **The overlay's walk**: the one beneath with the buffer's rows merged in, and then what that
walk never reached. -/
def mergeVisit (walk : List (κ × ν)) (pending : List (κ × Option ν)) (a : α) : α :=
  match visitRows (mergeVisitRow visit r) walk (pending, a) with
  | ((_, a), false) => a
  | ((pending, a), true) => (visitRows visit (pending.flatMap live) a).1

variable {visit r}

theorem mergeVisit_eq (walk : List (κ × ν)) (pending : List (κ × Option ν)) (a : α) :
    mergeVisit visit r walk pending a = (visitRows visit (mergeWalk r walk pending) a).1 := by
  induction walk generalizing pending a with
  | nil => rfl
  | cons row walk ih =>
    unfold mergeVisit at ih ⊢
    obtain ⟨hvisit, hrest⟩ := @visitAhead_eq _ _ _ visit (fun k => r k row.1) pending a
    rw [mergeWalk, visitRows_append, ← hvisit, visitRows, mergeVisitRow]
    revert hrest
    obtain ⟨left, a, more⟩ := visitAhead visit (fun k => r k row.1) pending a
    cases more with
    | false => exact fun _ => rfl
    | true =>
      intro hrest
      obtain rfl := hrest rfl
      simp only [↓reduceIte]
      -- What the row itself does is read off the first buffered row that is left.
      cases pending.dropWhile fun p => r p.1 row.1 with
      | nil =>
        simp only [mergeRow, visitRows]
        obtain ⟨a, more⟩ := visit a row
        cases more with
        | true => exact ih [] a
        | false => rfl
      | cons p left =>
        obtain ⟨k, op⟩ := p
        simp only [mergeRow]
        by_cases hk : k = row.1
        · simp only [if_pos hk]
          cases op with
          | none => exact ih left a
          | some v =>
            simp only [live, Option.map_some, Option.toList_some, singleton_append, visitRows]
            obtain ⟨a, more⟩ := visit a (k, v)
            cases more with
            | true => exact ih left a
            | false => rfl
        simp only [if_neg hk, visitRows]
        obtain ⟨a, more⟩ := visit a row
        cases more with
        | true => exact ih ((k, op) :: left) a
        | false => rfl

theorem mergeWalk_nil (walk : List (κ × ν)) : mergeWalk r walk [] = walk := by
  induction walk with
  | nil => rfl
  | cons row walk ih =>
    rw [mergeWalk, takeWhile_nil, dropWhile_nil, mergeRow, ih]
    rfl

end Visit

/-! ## Walks over rows -/

section Rows

variable {α κ ν ω : Type} [LinearOrder κ] (S : RowScans ω κ) (visit : α → κ × ν → α × Bool)

def RowScans.forEach (q : ω) (s : SortedRows κ ν) (a : α) : α := (visitRows visit (S.walk q s) a).1

/-- A walk with the changes buffered in its range merged in, if there are any. -/
def RowScans.forEachOver (q : ω) (walk : List (κ × ν))
    (buf : SortedRows κ (Option ν)) (a : α) : α :=
  let pending := S.walk q buf
  if pending.isEmpty then (visitRows visit walk a).1
  else if S.descending q then mergeVisit visit (· > ·) walk pending a
  else mergeVisit visit (· < ·) walk pending a

def RowScans.mergedWalk (q : ω) (walk : List (κ × ν)) (buf : SortedRows κ (Option ν)) :
    List (κ × ν) :=
  if S.descending q then mergeWalk (· > ·) walk (S.walk q buf)
  else mergeWalk (· < ·) walk (S.walk q buf)

theorem RowScans.forEachOver_eq (q : ω) (walk : List (κ × ν))
    (buf : SortedRows κ (Option ν)) (a : α) :
    S.forEachOver visit q walk buf a = (visitRows visit (S.mergedWalk q walk buf) a).1 := by
  rw [RowScans.forEachOver, RowScans.mergedWalk]
  by_cases hempty : (S.walk q buf).isEmpty = true
  · rw [if_pos hempty, List.isEmpty_iff.mp hempty, mergeWalk_nil, mergeWalk_nil, ite_self]
  rw [if_neg hempty]
  split
  · exact mergeVisit_eq _ _ _
  · exact mergeVisit_eq _ _ _

theorem RowScans.mergedWalk_walk (q : ω) (s : SortedRows κ ν) (buf : SortedRows κ (Option ν)) :
    S.mergedWalk q (S.walk q s) buf = S.walk q (s.merge buf) :=
  congrArg (RowReader.scan · q) (RowScans.over_reader s buf)

theorem RowScans.mergedWalk_nil {q : ω} (hdesc : S.descending q = false)
    (buf : SortedRows κ (Option ν)) :
    S.mergedWalk q [] buf = (SortedRows.merge .empty (buf.filter (S.keeps q))).rows := by
  have hwalk : S.walk q buf = (buf.filter (S.keeps q)).rows := by
    rw [RowScans.walk, hdesc]
    rfl
  rw [RowScans.mergedWalk, hdesc, if_neg Bool.false_ne_true, hwalk]
  rfl

end Rows

/-! ## The order of row keys -/

instance linearOrderUInt8 : LinearOrder UInt8 where
  le_refl := UInt8.le_refl
  le_trans _ _ _ := UInt8.le_trans
  lt_iff_le_not_ge a b := by
    rw [UInt8.not_le]
    exact ⟨fun h => ⟨UInt8.le_of_lt h, h⟩, And.right⟩
  le_antisymm _ _ := UInt8.le_antisymm
  le_total := UInt8.le_total
  toDecidableLE := inferInstance
  toDecidableLT := inferInstance

/-- What a walk is asked for: the rows under a stem past a bound, or before one, backwards. -/
structure Scan where
  stem : Bytes
  bound : Bytes
  descending : Bool
  deriving DecidableEq, Repr

def forEachPrefix (stem : Bytes) : Scan := ⟨stem, [], false⟩

def forEachFrom (stem startAfter : Bytes) : Scan := ⟨stem, startAfter, false⟩

def forEachBefore (stem startBefore : Bytes) : Scan := ⟨stem, startBefore, true⟩

def scans : RowScans Scan Bytes where
  keeps q k := q.stem.isPrefixOf k &&
    (q.bound.isEmpty || if q.descending then decide (k < q.bound) else decide (q.bound < k))
  descending := Scan.descending

/-! ## Rows of bytes -/

abbrev KvRows := SortedRows Bytes Bytes

abbrev KvOps := SortedRows Bytes (Option Bytes)

def KvRows.forEach {α : Type} (s : KvRows) (visit : α → Bytes × Bytes →
    α × Bool) (q : Scan) (a : α) :
    α :=
  scans.forEach visit q s a

def collectRow (rows : List (Bytes × Bytes)) (row : Bytes × Bytes) : List (Bytes × Bytes) × Bool :=
  (rows ++ [row], true)

def countRow (n : ℕ) (_ : Bytes × Bytes) : ℕ × Bool := (n + 1, true)

/-! ## Changes written -/

def KvRows.applyWrites (s : KvRows) (ops : List (Bytes × Option Bytes)) : KvRows :=
  ops.foldl (fun s op => match op.2 with
    | some v => s.put op.1 v
    | none => s.erase op.1) s

theorem KvRows.applyWrites_cons (s : KvRows) (op : Bytes × Option Bytes)
    (ops : List (Bytes × Option Bytes)) :
    s.applyWrites (op :: ops) = KvRows.applyWrites (s.merge (.single op.1 op.2)) ops := by
  obtain ⟨k, op⟩ := op
  cases op with
  | _ => rfl

variable {ops : List (Bytes × Option Bytes)}

theorem KvRows.get_applyWrites (hops : (ops.map Prod.fst).Nodup) (s : KvRows) (k : Bytes) :
    (∀ op, (k, op) ∈ ops → (s.applyWrites ops).get k = op) ∧
      ((∀ op, (k, op) ∉ ops) → (s.applyWrites ops).get k = s.get k) := by
  induction ops generalizing s with
  | nil => exact ⟨nofun, fun _ => rfl⟩
  | cons head ops ih =>
    obtain ⟨hhead, htail⟩ := nodup_cons.mp hops
    obtain ⟨hchanged, hkept⟩ := ih htail (s.merge (.single head.1 head.2))
    rw [s.applyWrites_cons]
    refine ⟨fun op hop => ?_, fun hno => ?_⟩
    · obtain rfl | hop := mem_cons.mp hop
      · have hlater : ∀ op', (k, op') ∉ ops := fun op' h => hhead (mem_map.mpr ⟨_, h, rfl⟩)
        rw [hkept hlater, get_merge, get_single, if_pos rfl]
        rfl
      · exact hchanged op hop
    have hne : k ≠ head.1 := fun h => hno head.2 (h ▸ mem_cons_self)
    rw [hkept fun op h => hno op (mem_cons_of_mem _ h), get_merge,
      get_single, if_neg hne]
    rfl

theorem KvRows.applyWrites_eq_merge (s : KvRows) {buf : KvOps}
    (hops : ops.Perm buf.rows) : s.applyWrites ops = s.merge buf := by
  have hnodup : (ops.map Prod.fst).Nodup := by
    rw [(hops.map Prod.fst).nodup_iff]
    exact (pairwise_map.mpr buf.inOrder).imp ne_of_lt
  refine ext_get fun k => ?_
  obtain ⟨hchanged, hkept⟩ := KvRows.get_applyWrites hnodup s k
  rw [get_merge]
  cases hk : buf.get k with
  | some op => exact hchanged op (hops.mem_iff.mpr (mem_rows.mpr hk))
  | none =>
    refine hkept fun op hop => ?_
    have hsome := mem_rows.mp (hops.mem_iff.mp hop)
    exact nomatch hk.symm.trans hsome

end Flint
