import Mathlib

/-!
# Lib/SortedRows — rows in the order of their keys, and changes laid over them

Rows are kept sorted, one a key, so that two of the same content are equal (`SortedRows.ext_get`).
Changes not yet made are rows too, with nothing for what is deleted; `mergeWalk` walks both at once,
in either direction, and shows the rows with the changes made (`mem_mergeWalk`).
-/

namespace Flint

section

open List

/-! ## Merging a walk with pending changes -/

variable {κ ν : Type}

section Merge

variable [DecidableEq κ] {r : κ → κ → Prop} [DecidableRel r] {pending : List (κ × Option ν)}
  {walk : List (κ × ν)}

def live (change : κ × Option ν) : List (κ × ν) := (change.2.map fun v => (change.1, v)).toList

def mergeRow (row : κ × ν) (changes : List (κ × Option ν))
    (later : List (κ × Option ν) → List (κ × ν)) : List (κ × ν) :=
  match changes with
  | [] => row :: later []
  | p :: rest => if p.1 = row.1 then live p ++ later rest else row :: later (p :: rest)

/-- A walk with the pending changes made: those ahead of a row come first, the one at its own key
takes its place, and what the walk never reached comes last. -/
def mergeWalk (r : κ → κ → Prop) [DecidableRel r] :
    List (κ × ν) → List (κ × Option ν) → List (κ × ν)
  | [], pending => pending.flatMap live
  | row :: walk, pending =>
    (pending.takeWhile fun p => r p.1 row.1).flatMap live ++
      mergeRow row (pending.dropWhile fun p => r p.1 row.1) (mergeWalk r walk)

abbrev InOrder {α : Type} (r : κ → κ → Prop) (l : List (κ × α)) : Prop :=
  l.Pairwise fun a b => r a.1 b.1

variable {row : κ × ν}

@[simp] theorem mem_live {change : κ × Option ν} :
    row ∈ live change ↔ change = (row.1, some row.2) := by
  obtain ⟨k, op⟩ := change
  cases op with
  | none => simp [live]
  | some v =>
    simp only [live, Option.map_some, Option.toList_some, mem_singleton,
      Option.some.injEq, Prod.ext_iff]
    exact and_congr eq_comm eq_comm

theorem mem_flatMap_live : row ∈ pending.flatMap live ↔ (row.1, some row.2) ∈ pending := by
  simp [mem_flatMap]

theorem inOrder_live (change : κ × Option ν) : InOrder r (live change) := by
  obtain ⟨k, op⟩ := change
  cases op with
  | none => exact .nil
  | some v => exact pairwise_singleton _ _

theorem InOrder.flatMap_live (h : InOrder r pending) : InOrder r (pending.flatMap live) := by
  induction pending with
  | nil => exact .nil
  | cons change pending ih =>
    obtain ⟨hhead, htail⟩ := pairwise_cons.mp h
    rw [flatMap_cons]
    refine pairwise_append.mpr ⟨inOrder_live change, ih htail, fun a ha b hb => ?_⟩
    have hrel := hhead _ (mem_flatMap_live.mp hb)
    rwa [mem_live.mp ha] at hrel

variable [IsStrictTotalOrder κ r]

section

variable (hp : InOrder r pending)
include hp

/-- What a row finds pending: changes ahead of it, those at its own key, and those past it. -/
theorem mergeWalk_cons (k : κ) (v : ν) (walk : List (κ × ν)) : ∃ ahead mine rest,
    pending = ahead ++ (mine ++ rest) ∧ (∀ q ∈ ahead, r q.1 k) ∧ (∀ q ∈ mine, q.1 = k) ∧
      (∀ q ∈ rest, r k q.1) ∧ mergeWalk r ((k, v) :: walk) pending = ahead.flatMap live ++
        ((if mine = [] then [(k, v)] else mine.flatMap live) ++ mergeWalk r walk rest) := by
  have hsplit := (takeWhile_append_dropWhile (l := pending) (p := fun q => decide (r q.1 k))).symm
  have hahead : ∀ q ∈ pending.takeWhile fun q => r q.1 k, r q.1 k := fun q hq => by
    simpa using all_eq_true.mp (all_takeWhile (l := pending)) q hq
  have hdrop : InOrder r (pending.dropWhile fun q => r q.1 k) := hp.sublist (dropWhile_sublist _)
  have hfirst := head?_dropWhile_not (fun q : κ × Option ν => decide (r q.1 k)) pending
  rw [mergeWalk]
  cases hrest : pending.dropWhile fun q => r q.1 k with
  | nil =>
    rw [hrest] at hsplit
    exact ⟨_, [], [], hsplit, hahead, nofun, nofun, rfl⟩
  | cons p rest =>
    rw [hrest] at hsplit hdrop hfirst
    obtain ⟨hhead, -⟩ := pairwise_cons.mp hdrop
    by_cases hk : p.1 = k
    · refine ⟨_, [p], rest, hsplit, hahead, ?_, fun q hq => hk ▸ hhead q hq, ?_⟩
      · simpa using hk
      · simp [mergeRow, hk]
    have hlate : r k p.1 :=
      ((trichotomous_of r p.1 k).resolve_left (by simpa using hfirst)).resolve_left hk
    refine ⟨_, [], p :: rest, hsplit, hahead, nofun, forall_mem_cons.mpr ⟨hlate, ?_⟩, ?_⟩
    · exact fun q hq => IsTrans.trans _ _ _ hlate (hhead q hq)
    · simp [mergeRow, hk]

theorem mem_mergeWalk (hw : InOrder r walk) {row : κ × ν} : row ∈ mergeWalk r walk pending ↔
      (row.1, some row.2) ∈ pending ∨ row ∈ walk ∧ ∀ op, (row.1, op) ∉ pending := by
  induction walk generalizing pending with
  | nil => simp [mergeWalk]
  | cons head walk ih =>
    obtain ⟨k, v⟩ := head
    obtain ⟨hhead, htail⟩ := pairwise_cons.mp hw
    obtain ⟨ahead, mine, rest, rfl, hahead, hmine, hrest, heq⟩ := mergeWalk_cons hp k v walk
    have hin : InOrder r rest := (pairwise_append.mp (pairwise_append.mp hp).2.1).2.1
    simp only [heq, mem_append, mem_cons, mem_flatMap_live, ih hin htail, not_or]
    constructor
    · rintro (h | h | h | ⟨hrow, hno⟩)
      · exact .inl (.inl h)
      · split at h
        · next hnil =>
          obtain rfl := mem_singleton.mp h
          exact .inr ⟨.inl rfl, fun op => ⟨fun h => irrefl_of r k (hahead _ h), by simp [hnil],
            fun h => irrefl_of r k (hrest _ h)⟩⟩
        · exact .inl (.inr (.inl (mem_flatMap_live.mp h)))
      · exact .inl (.inr (.inr h))
      -- A later row of the walk is past this one, and only changes past it are to that row.
      have hpast := hhead row hrow
      refine .inr ⟨.inr hrow, fun op => ⟨fun h => ?_, fun h => ?_, hno op⟩⟩
      · exact irrefl_of r k (IsTrans.trans _ _ _ hpast (hahead _ h))
      · exact irrefl_of r k (hmine _ h ▸ hpast)
    · rintro ((h | h | h) | ⟨rfl | hrow, hno⟩)
      · exact .inl h
      · exact .inr (.inl (by rw [if_neg (ne_nil_of_mem h)]; exact mem_flatMap_live.mpr h))
      · exact .inr (.inr (.inl h))
      · have hnil : mine = [] := eq_nil_iff_forall_not_mem.mpr fun q hq =>
          (hno q.2).2.1 (hmine q hq ▸ hq)
        exact .inr (.inl (by rw [if_pos hnil]; exact mem_singleton_self _))
      · exact .inr (.inr (.inr ⟨hrow, fun op => (hno op).2.2⟩))

theorem InOrder.mergeWalk (hw : InOrder r walk) : InOrder r (mergeWalk r walk pending) := by
  induction walk generalizing pending with
  | nil => exact hp.flatMap_live
  | cons head walk ih =>
    obtain ⟨k, v⟩ := head
    obtain ⟨hhead, htail⟩ := pairwise_cons.mp hw
    obtain ⟨ahead, mine, rest, rfl, hahead, hmine, hrest, heq⟩ := mergeWalk_cons hp k v walk
    obtain ⟨hin, hlate, -⟩ := pairwise_append.mp hp
    obtain ⟨hown, hin', -⟩ := pairwise_append.mp hlate
    have hhere : ∀ row ∈ if mine = [] then [(k, v)] else mine.flatMap live, row.1 = k := by
      intro row hrow
      split at hrow
      · rw [mem_singleton.mp hrow]
      · exact hmine _ (mem_flatMap_live.mp hrow)
    have hlater : ∀ row ∈ Flint.mergeWalk r walk rest, r k row.1 := fun row hrow =>
      ((mem_mergeWalk hin' htail).mp hrow).elim (hrest _) fun h => hhead row h.1
    rw [heq]
    refine pairwise_append.mpr ⟨InOrder.flatMap_live hin,
      pairwise_append.mpr ⟨?_, ih hin' htail, ?_⟩, ?_⟩
    · split
      · exact pairwise_singleton _ _
      · exact InOrder.flatMap_live hown
    · exact fun a ha b hb => hhere a ha ▸ hlater b hb
    intro a ha b hb
    have hfirst := hahead _ (mem_flatMap_live.mp ha)
    obtain hb | hb := mem_append.mp hb
    · exact hhere b hb ▸ hfirst
    · exact IsTrans.trans _ _ _ hfirst (hlater b hb)

end

end Merge

/-! ## Sorted rows -/

/-- Rows in the order of their keys, each key once. -/
structure SortedRows (κ ν : Type) [LinearOrder κ] where
  rows : List (κ × ν)
  inOrder : InOrder (· < ·) rows

namespace SortedRows

variable [LinearOrder κ] {s t : SortedRows κ ν} {k k' : κ} {v : ν}

def empty : SortedRows κ ν := ⟨[], .nil⟩

def get (s : SortedRows κ ν) (k : κ) : Option ν := s.rows.lookup k

def filter (p : κ → Bool) (s : SortedRows κ ν) : SortedRows κ ν :=
  ⟨s.rows.filter fun row => p row.1, s.inOrder.filter _⟩

def merge (s : SortedRows κ ν) (changes : SortedRows κ (Option ν)) : SortedRows κ ν :=
  ⟨mergeWalk (· < ·) s.rows changes.rows, changes.inOrder.mergeWalk s.inOrder⟩

def single (k : κ) (v : ν) : SortedRows κ ν := ⟨[(k, v)], pairwise_singleton _ _⟩

def put (s : SortedRows κ ν) (k : κ) (v : ν) : SortedRows κ ν := s.merge (single k (some v))

def erase (s : SortedRows κ ν) (k : κ) : SortedRows κ ν := s.merge (single k none)

theorem mem_rows : (k, v) ∈ s.rows ↔ s.get k = some v := by
  obtain ⟨rows, hrows⟩ := s
  simp only [get]
  induction rows with
  | nil => simp
  | cons row rows ih =>
    obtain ⟨hhead, htail⟩ := pairwise_cons.mp hrows
    rw [mem_cons, lookup_cons, Prod.ext_iff]
    by_cases hk : k = row.1
    · have hnot : (k, v) ∉ rows := fun h => absurd (hhead _ h) (hk ▸ lt_irrefl _)
      simp [hk, hk ▸ hnot, eq_comm]
    · have hbeq : (k == row.1) = false := by simpa using hk
      simp [hk, hbeq, ih htail]

theorem ext_get (h : ∀ k, s.get k = t.get k) : s = t := by
  obtain ⟨rows, hrows⟩ := s
  obtain ⟨rows', hrows'⟩ := t
  have hrel : Std.Antisymm fun a b : κ × ν => a.1 < b.1 :=
    ⟨fun a b hab hba => absurd (hab.trans hba) (lt_irrefl _)⟩
  have hirr : Std.Irrefl fun a b : κ × ν => a.1 < b.1 := ⟨fun a => lt_irrefl a.1⟩
  congr 1
  refine hrows.eq_of_mem_iff hrows' fun row => ?_
  rw [mem_rows (s := ⟨rows, hrows⟩), mem_rows (s := ⟨rows', hrows'⟩), h]

@[simp] theorem get_empty : (empty : SortedRows κ ν).get k = none := rfl

@[simp] theorem get_single : (single k v).get k' = if k' = k then some v else none := by
  by_cases h : k' = k
  · simp [get, single, h]
  · simp [get, single, h, lookup_cons, beq_eq_false_iff_ne.mpr h]

variable {changes : SortedRows κ (Option ν)}

@[simp] theorem get_merge : (s.merge changes).get k = (changes.get k).getD (s.get k) := by
  refine Option.ext fun v => ?_
  rw [← mem_rows, merge, mem_mergeWalk changes.inOrder s.inOrder]
  simp only [mem_rows]
  cases hchange : changes.get k with
  | none => simp
  | some op => simp [eq_comm]

@[simp] theorem get_put : (s.put k v).get k' = if k' = k then some v else s.get k' := by
  rw [put, get_merge, get_single]
  split
  · rfl
  · rfl

@[simp] theorem get_erase : (s.erase k).get k' = if k' = k then none else s.get k' := by
  rw [erase, get_merge, get_single]
  split
  · rfl
  · rfl

variable {p : κ → Bool}

@[simp] theorem get_filter : (s.filter p).get k = if p k then s.get k else none := by
  refine Option.ext fun v => ?_
  rw [← mem_rows, filter, mem_filter, mem_rows]
  cases p k with
  | _ => simp

theorem merge_filter : (s.filter p).merge (changes.filter p) = (s.merge changes).filter p := by
  refine ext_get fun k => ?_
  rw [get_merge, get_filter, get_filter, get_filter, get_merge]
  cases p k with
  | _ => rfl

@[simp] theorem merge_empty : s.merge empty = s := ext_get fun k => by simp

theorem merge_put {op : Option ν} :
    s.merge (changes.put k op) = (s.merge changes).merge (single k op) := by
  refine ext_get fun k' => ?_
  rw [get_merge, get_put, get_merge, get_single, get_merge]
  split
  · rfl
  · rfl

theorem mergeWalk_reverse :
    mergeWalk (· > ·) s.rows.reverse changes.rows.reverse = (s.merge changes).rows.reverse := by
  have hrel : Std.Antisymm fun a b : κ × ν => a.1 > b.1 :=
    ⟨fun a b hab hba => absurd (hab.trans hba) (lt_irrefl _)⟩
  have hirr : Std.Irrefl fun a b : κ × ν => a.1 > b.1 := ⟨fun a => lt_irrefl a.1⟩
  have hs : InOrder (· > ·) s.rows.reverse := pairwise_reverse.mpr s.inOrder
  have hchanges : InOrder (· > ·) changes.rows.reverse := pairwise_reverse.mpr changes.inOrder
  refine (hchanges.mergeWalk hs).eq_of_mem_iff
    (pairwise_reverse.mpr (s.merge changes).inOrder) fun row => ?_
  rw [mem_mergeWalk hchanges hs]
  simp only [mem_reverse]
  exact (mem_mergeWalk changes.inOrder s.inOrder).symm

end SortedRows

end

/-! ## What the keys add up to

The constant weight one counts the rows. -/

section

open List

namespace SortedRows

variable {κ ν : Type} [LinearOrder κ] {s t : SortedRows κ ν} {k : κ} {v : ν}

def keys (s : SortedRows κ ν) : Finset κ := (s.rows.map Prod.fst).toFinset

def weight (f : κ → ℕ) (s : SortedRows κ ν) : ℕ := (s.rows.map fun row => f row.1).sum

@[simp] theorem mem_keys : k ∈ s.keys ↔ (s.get k).isSome := by
  rw [keys, mem_toFinset, mem_map, Option.isSome_iff_exists]
  constructor
  · rintro ⟨⟨k, v⟩, hrow, rfl⟩
    exact ⟨v, mem_rows.mp hrow⟩
  · rintro ⟨v, hv⟩
    exact ⟨(k, v), mem_rows.mpr hv, rfl⟩

theorem mem_keys_iff : k ∈ s.keys ↔ k ∈ s.rows.map Prod.fst := mem_toFinset

theorem nodup_keys : (s.rows.map Prod.fst).Nodup := (pairwise_map.mpr s.inOrder).imp ne_of_lt

@[simp] theorem keys_empty : (empty : SortedRows κ ν).keys = ∅ := rfl

theorem mem_keys_put {k' : κ} : k' ∈ (s.put k v).keys ↔ k' = k ∨ k' ∈ s.keys := by
  rw [mem_keys, mem_keys, get_put]
  split
  · next h => simp [h]
  · next h => simp [h]

theorem keys_put : (s.put k v).keys = insert k s.keys :=
  Finset.ext fun k' => mem_keys_put.trans Finset.mem_insert.symm

theorem keys_erase : (s.erase k).keys = s.keys.erase k := by
  ext k'
  rw [Finset.mem_erase, mem_keys, mem_keys, get_erase]
  split
  · next h => simp [h]
  · next h => simp [h]

theorem weight_eq_sum (f : κ → ℕ) : s.weight f = ∑ k ∈ s.keys, f k := by
  rw [keys, sum_toFinset f nodup_keys, map_map]
  rfl

theorem length_rows : s.rows.length = s.keys.card := by
  rw [keys, toFinset_card_of_nodup nodup_keys, length_map]

theorem length_rows_le {l : List κ} (h : ∀ k ∈ s.keys, k ∈ l) : s.rows.length ≤ l.length := by
  rw [length_rows]
  refine (Finset.card_le_card (t := l.toFinset) fun k hk => ?_).trans (toFinset_card_le _)
  exact mem_toFinset.mpr (h k hk)

theorem card_mul_le_sum {f : κ → ℕ} {c : ℕ} (h : ∀ k, c ≤ f k) :
    s.keys.card * c ≤ ∑ k ∈ s.keys, f k := by
  rw [← smul_eq_mul]
  exact Finset.card_nsmul_le_sum s.keys f c fun k _ => h k

/-! ## New rows, and rows that go -/

def fresh (s : SortedRows κ ν) (rows : List (κ × ν)) : List (κ × ν) :=
  rows.filter fun row => (s.get row.1).isNone

theorem toFinset_fresh (rows : List (κ × ν)) :
    ((s.fresh rows).map Prod.fst).toFinset = (rows.map Prod.fst).toFinset \ s.keys := by
  ext k
  simp only [fresh, mem_toFinset, mem_map, mem_filter, Finset.mem_sdiff, mem_keys]
  constructor
  · rintro ⟨row, ⟨hrow, hnone⟩, rfl⟩
    refine ⟨⟨row, hrow, rfl⟩, fun hsome => ?_⟩
    rw [Option.isNone_iff_eq_none] at hnone
    rw [hnone] at hsome
    cases hsome
  · rintro ⟨⟨row, hrow, rfl⟩, hnone⟩
    exact ⟨row, ⟨hrow, Option.isNone_iff_eq_none.mpr (Option.not_isSome_iff_eq_none.mp hnone)⟩, rfl⟩

variable {rows : List (κ × ν)}

theorem sum_keys_of_mem (f : κ → ℕ) (hrows : (rows.map Prod.fst).Nodup)
    (h : ∀ k, k ∈ t.keys ↔ k ∈ s.keys ∨ k ∈ rows.map Prod.fst) :
    ∑ k ∈ t.keys, f k = ∑ k ∈ s.keys, f k + ((s.fresh rows).map fun row => f row.1).sum := by
  have hkeys : t.keys = s.keys ∪ (rows.map Prod.fst).toFinset := by
    ext k
    rw [h, Finset.mem_union, mem_toFinset]
  have hnodup : ((s.fresh rows).map Prod.fst).Nodup := hrows.sublist (filter_sublist.map _)
  rw [hkeys, ← Finset.union_sdiff_self_eq_union, Finset.sum_union Finset.disjoint_sdiff,
    ← toFinset_fresh, sum_toFinset f hnodup, map_map]
  rfl

theorem card_keys_of_mem (hrows : (rows.map Prod.fst).Nodup)
    (h : ∀ k, k ∈ t.keys ↔ k ∈ s.keys ∨ k ∈ rows.map Prod.fst) :
    t.keys.card = s.keys.card + (s.fresh rows).length := by
  rw [Finset.card_eq_sum_ones, sum_keys_of_mem _ hrows h, ← Finset.card_eq_sum_ones,
    map_const', sum_replicate, smul_eq_mul, Nat.mul_one]

theorem card_fresh (t : SortedRows κ ν) : (s.fresh t.rows).length = (t.keys \ s.keys).card := by
  rw [keys, ← toFinset_fresh, toFinset_card_of_nodup, length_map]
  exact nodup_keys.sublist (filter_sublist.map _)

theorem length_fresh_put (h : (t.get k).isSome ∨ (s.get k).isSome) :
    (s.fresh (t.put k v).rows).length = (s.fresh t.rows).length := by
  rw [card_fresh, card_fresh, keys_put]
  obtain h | h := h
  · rw [Finset.insert_eq_of_mem (mem_keys.mpr h)]
  · rw [Finset.insert_sdiff_of_mem _ (mem_keys.mpr h)]

theorem length_fresh_put_of_none (ht : t.get k = none) (hs : s.get k = none) :
    (s.fresh (t.put k v).rows).length = (s.fresh t.rows).length + 1 := by
  have hnot {u : SortedRows κ ν} (hu : u.get k = none) : k ∉ u.keys := by
    rw [mem_keys, hu]
    exact Bool.false_ne_true
  rw [card_fresh, card_fresh, keys_put, Finset.insert_sdiff_of_notMem _ (hnot hs),
    Finset.card_insert_of_notMem fun h => hnot ht (Finset.mem_sdiff.mp h).1]

theorem sum_keys_erase (f : κ → ℕ) (h : (s.get k).isSome) :
    ∑ k ∈ (s.erase k).keys, f k + f k = ∑ k ∈ s.keys, f k := by
  rw [keys_erase]
  exact Finset.sum_erase_add _ _ (mem_keys.mpr h)

theorem card_keys_erase (h : (s.get k).isSome) : (s.erase k).keys.card + 1 = s.keys.card := by
  rw [keys_erase]
  exact Finset.card_erase_add_one (mem_keys.mpr h)

def putAll (s : SortedRows κ ν) (rows : List (κ × ν)) : SortedRows κ ν :=
  rows.foldl (fun s row => s.put row.1 row.2) s

theorem get_putAll (t : SortedRows κ ν) (s : SortedRows κ ν) (k : κ) :
    (t.putAll s.rows).get k = (s.get k).or (t.get k) := by
  have hget : ∀ (rows : List (κ × ν)) (t : SortedRows κ ν), (rows.map Prod.fst).Nodup →
      (t.putAll rows).get k = (rows.lookup k).or (t.get k) := by
    intro rows
    induction rows with
    | nil => exact fun t _ => rfl
    | cons row rows ih =>
      intro t hnodup
      obtain ⟨hrow, hrest⟩ := nodup_cons.mp hnodup
      rw [putAll, foldl_cons, ← putAll, ih _ hrest, get_put, lookup_cons]
      by_cases hk : k = row.1
      · have hnone : rows.lookup k = none := by
          refine lookup_eq_none_iff.mpr fun p hp => ?_
          rw [bne_iff_ne, hk]
          rintro heq
          exact hrow (heq ▸ mem_map_of_mem hp)
        rw [hnone, if_pos hk, beq_iff_eq.mpr hk]
        rfl
      · rw [if_neg hk, beq_eq_false_iff_ne.mpr hk]
  exact hget s.rows t nodup_keys

theorem putAll_empty (s : SortedRows κ ν) : empty.putAll s.rows = s :=
  ext_get fun k => by rw [get_putAll, get_empty, Option.or_none]

theorem put_erase : (s.erase k).put k v = s.put k v := by
  refine ext_get fun k' => ?_
  rw [get_put, get_put, get_erase]
  split
  · rfl
  · rfl

theorem sum_keys_put (f : κ → ℕ) (h : s.get k = none) :
    ∑ k ∈ (s.put k v).keys, f k = ∑ k ∈ s.keys, f k + f k := by
  have hnot : k ∉ s.keys := by
    rw [mem_keys, h]
    exact Bool.false_ne_true
  rw [keys_put, Finset.sum_insert hnot, Nat.add_comm]

theorem card_keys_put (h : s.get k = none) : (s.put k v).keys.card = s.keys.card + 1 := by
  rw [Finset.card_eq_sum_ones, sum_keys_put _ h, ← Finset.card_eq_sum_ones]

theorem keys_put_of_isSome (h : (s.get k).isSome) : (s.put k v).keys = s.keys := by
  rw [keys_put, Finset.insert_eq_of_mem (mem_keys.mpr h)]

end SortedRows

end

end Flint
