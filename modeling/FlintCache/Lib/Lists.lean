import Mathlib

/-!
# Lib/Lists — spans of a log, the element with the greatest key, a list in groups
-/

/-! ## Spans

A log numbers its operations `1, 2, 3, …`.  Spans glue (`span_append_span`), survive growth of the
log (`span_append_of_le`) and extend prefixes (`take_append_span`). -/

namespace SeqLog

variable {α : Type*} (log : List α) {a b c : ℕ}

/-- The operations numbered `a + 1, …, b`. -/
def span (log : List α) (a b : ℕ) : List α := (log.drop a).take (b - a)

@[simp] theorem span_self (a : ℕ) : span log a a = [] := by simp [span]

theorem span_eq_nil_of_le (h : b ≤ a) : span log a b = [] := by simp [span, Nat.sub_eq_zero_of_le h]

theorem span_append_span (hab : a ≤ b) (hbc : b ≤ c) :
    span log a b ++ span log b c = span log a c := by
  have hb : log.drop b = (log.drop a).drop (b - a) := by
    rw [List.drop_drop, Nat.add_sub_cancel' hab]
  rw [span, span, span, hb, show c - a = (b - a) + (c - b) by omega, List.take_add]

theorem take_append_span (hab : a ≤ b) : log.take a ++ span log a b = log.take b := by
  have h := span_append_span log (Nat.zero_le a) hab
  simpa [span] using h

theorem span_append_of_le (more : List α) (h : b ≤ log.length) :
    span (log ++ more) a b = span log a b := by
  rcases Nat.le_total a b with hab | hab
  · rw [span, span, List.drop_append_of_le_length (Nat.le_trans hab h),
      List.take_append_of_le_length (by rw [List.length_drop]; omega)]
  · rw [span_eq_nil_of_le _ hab, span_eq_nil_of_le _ hab]

theorem drop_span (hab : a ≤ b) : (span log a c).drop (b - a) = span log b c := by
  rw [span, span, List.drop_take, List.drop_drop, Nat.add_sub_cancel' hab]
  congr 1
  omega

end SeqLog

/-! ## Greatest element

The later one on a tie. -/

namespace List

variable {α β : Type*} [LinearOrder β] (key : α → β)

/-- The better of the best so far and a candidate; the candidate on a tie. -/
def keepMax (best : Option α) (a : α) : Option α :=
  match best with
  | none => some a
  | some b => if key b ≤ key a then some a else some b

def maxByKey (l : List α) : Option α := l.foldl (keepMax key) none

open List

theorem foldl_keepMax (l : List α) (b : α) :
    ∃ m, l.foldl (keepMax key) (some b) = some m ∧ (m = b ∨ m ∈ l) ∧ key b ≤ key m ∧
      ∀ a ∈ l, key a ≤ key m := by
  induction l generalizing b with
  | nil => exact ⟨b, rfl, .inl rfl, le_rfl, by simp⟩
  | cons a l ih =>
    rw [foldl_cons, keepMax]
    rcases le_or_gt (key b) (key a) with hba | hab
    · obtain ⟨m, hm, hmem, hle, hall⟩ := ih a
      rw [if_pos hba]
      refine ⟨m, hm, .inr ?_, hba.trans hle, forall_mem_cons.mpr ⟨hle, hall⟩⟩
      exact hmem.elim (fun h => h ▸ mem_cons_self) (mem_cons_of_mem _)
    obtain ⟨m, hm, hmem, hle, hall⟩ := ih b
    rw [if_neg (not_le.mpr hab)]
    refine ⟨m, hm, hmem.imp_right (mem_cons_of_mem _), hle, ?_⟩
    exact forall_mem_cons.mpr ⟨hab.le.trans hle, hall⟩

variable {l : List α}

theorem maxByKey_isSome (h : l ≠ []) : ∃ m, l.maxByKey key = some m := by
  obtain ⟨b, l, rfl⟩ := exists_cons_of_ne_nil h
  obtain ⟨m, hm, -⟩ := foldl_keepMax key l b
  exact ⟨m, hm⟩

variable {key}

theorem maxByKey_eq_some {m : α} (h : l.maxByKey key = some m) :
    m ∈ l ∧ ∀ a ∈ l, key a ≤ key m := by
  cases l with
  | nil => cases h
  | cons b l =>
    obtain ⟨m', hm', hmem, hle, hall⟩ := foldl_keepMax key l b
    obtain rfl : m' = m := Option.some.inj (hm'.symm.trans h)
    refine ⟨?_, forall_mem_cons.mpr ⟨hle, hall⟩⟩
    exact hmem.elim (fun h => h ▸ mem_cons_self) (mem_cons_of_mem _)

end List

/-! ## Groups

In the order they are first seen (`groupBy_eq`). -/

namespace Flint

section

open List

variable {α ω : Type} [DecidableEq ω] {f : α → ω} {l : List α} {o : ω}

def pushGroup (o : ω) (k : α) : List (ω × List α) → List (ω × List α)
  | [] => [(o, [k])]
  | g :: groups => if g.1 = o then (g.1, g.2 ++ [k]) :: groups else g :: pushGroup o k groups

def groupBy (f : α → ω) (l : List α) : List (ω × List α) :=
  l.foldl (fun groups k => pushGroup (f k) k groups) []

theorem pushGroup_map {os : List ω} (hos : os.Nodup) (o : ω) (k : α) (m : ω → List α) :
    pushGroup o k (os.map fun o => (o, m o)) =
      if o ∈ os then os.map fun o' => (o', if o' = o then m o' ++ [k] else m o')
      else os.map (fun o => (o, m o)) ++ [(o, [k])] := by
  induction os with
  | nil => rfl
  | cons o' os ih =>
    obtain ⟨hnot, hos⟩ := nodup_cons.mp hos
    rw [map_cons, pushGroup, ih hos]
    by_cases ho : o' = o
    · subst ho
      have hrest : ∀ x ∈ os, x ≠ o' := fun x hx hxo => hnot (hxo ▸ hx)
      simp only [if_true, mem_cons, true_or, map_cons]
      refine congrArg _ (map_congr_left fun x hx => ?_)
      rw [if_neg (hrest x hx)]
    · have ho' : o ≠ o' := fun h => ho h.symm
      simp only [ho, ho', if_false, mem_cons, false_or, map_cons, cons_append]
      split <;> rfl

/-- **A group has its members in their order.** -/
theorem groupBy_eq (f : α → ω) (l : List α) :
    ∃ os : List ω, os.Nodup ∧ (∀ o, o ∈ os ↔ ∃ k ∈ l, f k = o) ∧
      groupBy f l = os.map fun o => (o, l.filter fun k => f k = o) := by
  induction l using List.reverseRecOn with
  | nil => exact ⟨[], .nil, by simp, rfl⟩
  | append_singleton l k ih =>
    obtain ⟨os, hos, hmem, hgroups⟩ := ih
    have hfilter : ∀ o, (l ++ [k]).filter (fun k => f k = o) =
        if o = f k then l.filter (fun k => f k = o) ++ [k] else l.filter fun k => f k = o := by
      intro o
      by_cases ho : f k = o
      · simp [filter_append, ho]
      · simp [filter_append, ho, Ne.symm ho]
    have hpush : groupBy f (l ++ [k]) = pushGroup (f k) k (groupBy f l) := by
      rw [groupBy, foldl_append]
      rfl
    rw [hpush, hgroups, pushGroup_map hos]
    split
    · next hin =>
      refine ⟨os, hos, fun o => ?_, by simp only [hfilter]⟩
      rw [hmem]
      simp only [mem_append, mem_singleton, or_and_right, exists_or, exists_eq_left]
      exact ⟨.inl, fun h => h.elim id fun h => h ▸ (hmem _).mp hin⟩
    · next hnot =>
      refine ⟨os ++ [f k], ?_, fun o => ?_, ?_⟩
      · exact nodup_append_comm.mp (nodup_cons.mpr ⟨hnot, hos⟩)
      · simp [hmem, or_and_right, exists_or, eq_comm]
      · have hnone : l.filter (fun x => f x = f k) = [] :=
          filter_eq_nil_iff.mpr fun x hx hxk =>
            hnot ((hmem _).mpr ⟨x, hx, of_decide_eq_true hxk⟩)
        simp only [hfilter, map_append, map_cons, map_nil, if_true, hnone, nil_append]
        refine congrArg (· ++ _) (map_congr_left fun o ho => ?_)
        rw [if_neg fun heq : o = f k => hnot (heq ▸ ho)]

theorem of_mem_groupBy {ks : List α} (h : (o, ks) ∈ groupBy f l) : ∀ k ∈ ks, k ∈ l ∧ f k = o := by
  obtain ⟨os, -, -, hgroups⟩ := groupBy_eq f l
  rw [hgroups, mem_map] at h
  obtain ⟨o, -, heq⟩ := h
  cases heq
  intro k hk
  obtain ⟨hkl, hko⟩ := mem_filter.mp hk
  exact ⟨hkl, of_decide_eq_true hko⟩

theorem groupBy_of_length_le (h : (groupBy f l).length ≤ 1) :
    l = [] ∨ ∃ o, groupBy f l = [(o, l)] := by
  obtain ⟨os, -, hmem, hgroups⟩ := groupBy_eq f l
  rw [hgroups, length_map] at h
  rw [hgroups]
  match os, h with
  | [], _ =>
    refine .inl (eq_nil_iff_forall_not_mem.mpr fun k hk => ?_)
    exact not_mem_nil ((hmem (f k)).mpr ⟨k, hk, rfl⟩)
  | [o], _ =>
    have hall : l.filter (fun k => f k = o) = l := filter_eq_self.mpr fun k hk =>
      decide_eq_true (mem_singleton.mp ((hmem (f k)).mpr ⟨k, hk, rfl⟩))
    exact .inr ⟨o, by rw [map_singleton, hall]⟩

end

/-! ## Tables with one row a key -/

section

universe u v

abbrev Table (K : Type u) (V : Type v) := AList fun _ : K => V

namespace Table

variable {K : Type u} {V : Type v}

def size (m : Table K V) : ℕ := m.entries.length

def retain (p : K → V → Bool) (m : Table K V) : Table K V :=
  ⟨m.entries.filter fun row => p row.1 row.2, m.nodupKeys.sublist List.filter_sublist⟩

def all (p : K → V → Bool) (m : Table K V) : Bool := m.entries.all fun row => p row.1 row.2

variable [DecidableEq K] {m : Table K V} {p : K → V → Bool} {k k' : K} {v v' : V}

theorem lookup_retain : (m.retain p).lookup k = some v ↔ m.lookup k = some v ∧ p k v = true := by
  rw [← Option.mem_def, ← Option.mem_def, AList.mem_lookup_iff, AList.mem_lookup_iff]
  exact List.mem_filter

theorem all_of_lookup (h : m.all p = true) (hk : m.lookup k = some v) : p k v = true :=
  List.all_eq_true.mp h ⟨k, v⟩ (AList.mem_lookup_iff.mp hk)

theorem lookup_insert_eq_some :
    (m.insert k v).lookup k' = some v' ↔ k' = k ∧ v' = v ∨ k' ≠ k ∧ m.lookup k' = some v' := by
  by_cases hk : k' = k
  · subst hk
    rw [AList.lookup_insert, Option.some.injEq]
    exact ⟨fun h => .inl ⟨rfl, h.symm⟩, fun h => (h.resolve_right fun h => h.1 rfl).2.symm⟩
  · rw [AList.lookup_insert_ne hk]
    exact ⟨fun h => .inr ⟨hk, h⟩, fun h => (h.resolve_left fun h => hk h.1).2⟩

theorem lookup_erase_eq_some :
    (m.erase k).lookup k' = some v' ↔ k' ≠ k ∧ m.lookup k' = some v' := by
  by_cases hk : k' = k
  · subst hk
    rw [AList.lookup_erase]
    exact ⟨nofun, fun h => absurd rfl h.1⟩
  · rw [AList.lookup_erase_ne hk]
    exact ⟨fun h => ⟨hk, h⟩, fun h => h.2⟩

end Table

end

end Flint
