import FlintCache.Lib.SortedRows

/-!
# Lib/RowKv — stores over rows, one laid over another, and the programs that run on them

`RowKv` answers reads and walks and takes writes.  Three are given: the rows themselves (`plain`), a
buffer of changes over something that can be read (`batching`), and a guard that records the first
row it does not let through (`guarded`).  What relates two stores operation by operation relates the
runs of a program on them (`RowKv.Simulates.run`).
-/

namespace Flint

open List SortedRows

/-- Which rows a walk shows, and in which direction. -/
structure RowScans (ω κ : Type) where
  keeps : ω → κ → Bool
  descending : ω → Bool

/-- A store: what each call answers and leaves. -/
structure RowKv (κ ν ω σ : Type) where
  get : κ → σ → Option ν × σ
  put : κ → ν → σ → σ
  delete : κ → σ → Bool × σ
  scan : ω → σ → List (κ × ν) × σ

/-- A program over a store, which goes on from what it reads. -/
inductive RowProg (κ ν ω ρ : Type) where
  | ret (r : ρ)
  | get (k : κ) (next : Option ν → RowProg κ ν ω ρ)
  | put (k : κ) (v : ν) (next : RowProg κ ν ω ρ)
  | delete (k : κ) (next : Bool → RowProg κ ν ω ρ)
  | scan (q : ω) (next : List (κ × ν) → RowProg κ ν ω ρ)

variable {κ ν ω ρ σ τ χ : Type}

namespace RowProg

def run (K : RowKv κ ν ω σ) : RowProg κ ν ω ρ → σ → ρ × σ
  | .ret r, s => (r, s)
  | .get k next, s => (next (K.get k s).1).run K (K.get k s).2
  | .put k v next, s => next.run K (K.put k v s)
  | .delete k next, s => (next (K.delete k s).1).run K (K.delete k s).2
  | .scan q next, s => (next (K.scan q s).1).run K (K.scan q s).2

/-- A program whose walks, whatever it is answered, are all of one kind. -/
def OnlyScans (P : ω → Prop) : RowProg κ ν ω ρ → Prop
  | .ret _ => True
  | .get _ next => ∀ v, (next v).OnlyScans P
  | .put _ _ next => next.OnlyScans P
  | .delete _ next => ∀ b, (next b).OnlyScans P
  | .scan q next => P q ∧ ∀ rows, (next rows).OnlyScans P

theorem OnlyScans.imp {P Q : ω → Prop} (h : ∀ q, P q → Q q) {p : RowProg κ ν ω ρ}
    (hp : p.OnlyScans P) : p.OnlyScans Q := by
  induction p with
  | ret r => exact trivial
  | get k next ih => exact fun v => ih v (hp v)
  | put k v next ih => exact ih hp
  | delete k next ih => exact fun b => ih b (hp b)
  | scan q next ih => exact ⟨h q hp.1, fun rows => ih rows (hp.2 rows)⟩

end RowProg

/-! ## What holds of every run -/

open RowProg

namespace RowKv

/-- **Two stores answer alike**, from related states to related states. -/
structure Simulates (K : RowKv κ ν ω σ) (K' : RowKv κ ν ω τ) (R : σ → τ → Prop) : Prop where
  get : ∀ {s t}, R s t → ∀ k, (K.get k s).1 = (K'.get k t).1 ∧ R (K.get k s).2 (K'.get k t).2
  put : ∀ {s t}, R s t → ∀ k v, R (K.put k v s) (K'.put k v t)
  delete : ∀ {s t}, R s t → ∀ k,
    (K.delete k s).1 = (K'.delete k t).1 ∧ R (K.delete k s).2 (K'.delete k t).2
  scan : ∀ {s t}, R s t → ∀ q, (K.scan q s).1 = (K'.scan q t).1 ∧ R (K.scan q s).2 (K'.scan q t).2

variable {K : RowKv κ ν ω σ}

theorem Simulates.run {K' : RowKv κ ν ω τ} {R : σ → τ → Prop}
    (h : K.Simulates K' R) (p : RowProg κ ν ω ρ) {s : σ} {t : τ} (hst : R s t) :
    (p.run K s).1 = (p.run K' t).1 ∧ R (p.run K s).2 (p.run K' t).2 := by
  induction p generalizing s t with
  | ret r => exact ⟨rfl, hst⟩
  | get k next ih =>
    obtain ⟨heq, hrel⟩ := h.get hst k
    rw [RowProg.run, RowProg.run, heq]
    exact ih _ hrel
  | put k v next ih => exact ih (h.put hst k v)
  | delete k next ih =>
    obtain ⟨heq, hrel⟩ := h.delete hst k
    rw [RowProg.run, RowProg.run, heq]
    exact ih _ hrel
  | scan q next ih =>
    obtain ⟨heq, hrel⟩ := h.scan hst q
    rw [RowProg.run, RowProg.run, heq]
    exact ih _ hrel

structure Keeps (K : RowKv κ ν ω σ) (I : σ → Prop) : Prop where
  get : ∀ {s}, I s → ∀ k, I (K.get k s).2
  put : ∀ {s}, I s → ∀ k v, I (K.put k v s)
  delete : ∀ {s}, I s → ∀ k, I (K.delete k s).2
  scan : ∀ {s}, I s → ∀ q, I (K.scan q s).2

theorem Keeps.run {I : σ → Prop} (h : K.Keeps I) (p : RowProg κ ν ω ρ) {s : σ}
    (hs : I s) : I (p.run K s).2 := by
  induction p generalizing s with
  | ret r => exact hs
  | get k next ih => exact ih _ (h.get hs k)
  | put k v next ih => exact ih (h.put hs k v)
  | delete k next ih => exact ih _ (h.delete hs k)
  | scan q next ih => exact ih _ (h.scan hs q)

end RowKv

/-! ## A guard over a store -/

/-- What a guard lets through: what reaching a row, writing it or walking strays to, where it does,
and the rows it leaves in a walk. -/
structure RowGuard (κ ω χ : Type) where
  strays : κ → Option χ
  refuses : κ → Option χ
  straysScan : ω → Option χ
  owns : ω → κ → Bool

def RowGuard.straysWrite (g : RowGuard κ ω χ) (k : κ) : Option χ := (g.strays k).or (g.refuses k)

def RowKv.guarded (g : RowGuard κ ω χ) (K : RowKv κ ν ω σ) : RowKv κ ν ω (σ × Option χ) where
  get k s :=
    match g.strays k with
    | none => ((K.get k s.1).1, (K.get k s.1).2, s.2)
    | some c => (none, s.1, s.2.or (some c))
  put k v s :=
    match g.straysWrite k with
    | none => (K.put k v s.1, s.2)
    | some c => (s.1, s.2.or (some c))
  delete k s :=
    match g.straysWrite k with
    | none => ((K.delete k s.1).1, (K.delete k s.1).2, s.2)
    | some c => (false, s.1, s.2.or (some c))
  scan q s :=
    match g.straysScan q with
    | none => ((K.scan q s.1).1.filter fun row => g.owns q row.1, (K.scan q s.1).2, s.2)
    | some c => ([], s.1, s.2.or (some c))

variable {g : RowGuard κ ω χ}

open RowKv

theorem RowKv.Simulates.guarded {K' : RowKv κ ν ω τ} {R : σ → τ → Prop} (h : K.Simulates K' R) :
    (RowKv.guarded g K).Simulates (RowKv.guarded g K') fun s t => R s.1 t.1 ∧ s.2 = t.2 where
  get := by
    rintro ⟨s, x⟩ ⟨t, _⟩ ⟨hst, rfl⟩ k
    simp only [RowKv.guarded]
    cases g.strays k with
    | none => exact ⟨(h.get hst k).1, (h.get hst k).2, rfl⟩
    | some c => exact ⟨rfl, hst, rfl⟩
  put := by
    rintro ⟨s, x⟩ ⟨t, _⟩ ⟨hst, rfl⟩ k v
    simp only [RowKv.guarded]
    cases g.straysWrite k with
    | none => exact ⟨h.put hst k v, rfl⟩
    | some c => exact ⟨hst, rfl⟩
  delete := by
    rintro ⟨s, x⟩ ⟨t, _⟩ ⟨hst, rfl⟩ k
    simp only [RowKv.guarded]
    cases g.straysWrite k with
    | none => exact ⟨(h.delete hst k).1, (h.delete hst k).2, rfl⟩
    | some c => exact ⟨rfl, hst, rfl⟩
  scan := by
    rintro ⟨s, x⟩ ⟨t, _⟩ ⟨hst, rfl⟩ q
    simp only [RowKv.guarded]
    cases g.straysScan q with
    | none => exact ⟨congrArg _ (h.scan hst q).1, (h.scan hst q).2, rfl⟩
    | some c => exact ⟨rfl, hst, rfl⟩

theorem RowGuard.strays_of_straysWrite {k : κ} (h : g.straysWrite k = none) : g.strays k = none :=
  (Option.or_eq_none_iff.mp h).1

theorem RowKv.keeps_strayed (K : RowKv κ ν ω σ) (c : χ) :
    (guarded g K).Keeps fun s => s.2 = some c where
  get := by
    rintro ⟨s, _⟩ rfl k
    simp only [guarded]
    cases g.strays k with
    | _ => rfl
  put := by
    rintro ⟨s, _⟩ rfl k v
    simp only [guarded]
    cases g.straysWrite k with
    | _ => rfl
  delete := by
    rintro ⟨s, _⟩ rfl k
    simp only [guarded]
    cases g.straysWrite k with
    | _ => rfl
  scan := by
    rintro ⟨s, _⟩ rfl q
    simp only [guarded]
    cases g.straysScan q with
    | _ => rfl

/-! ## The rows themselves -/

open RowScans

section Layers

variable [LinearOrder κ] (S : RowScans ω κ)

def RowScans.walk (q : ω) (s : SortedRows κ ν) : List (κ × ν) :=
  let shown := (s.filter (S.keeps q)).rows
  if S.descending q then shown.reverse else shown

def RowKv.plain : RowKv κ ν ω (SortedRows κ ν) where
  get k s := (s.get k, s)
  put k v s := s.put k v
  delete k s := ((s.get k).isSome, s.erase k)
  scan q s := (S.walk q s, s)

/-! ## A buffer of changes over what can be read -/

@[ext]
structure RowReader (κ ν ω : Type) where
  get : κ → Option ν
  scan : ω → List (κ × ν)

def RowScans.reader (s : SortedRows κ ν) : RowReader κ ν ω := ⟨s.get, fun q => S.walk q s⟩

/-- What is read through a buffer: a changed row as changed, a walk with the changes merged in. -/
def RowScans.over (under : RowReader κ ν ω) (buf : SortedRows κ (Option ν)) : RowReader κ ν ω where
  get k := (buf.get k).getD (under.get k)
  scan q :=
    let pending := S.walk q buf
    if S.descending q then mergeWalk (· > ·) (under.scan q) pending
    else mergeWalk (· < ·) (under.scan q) pending

def RowKv.batching (under : RowReader κ ν ω) : RowKv κ ν ω (SortedRows κ (Option ν)) where
  get k buf := ((S.over under buf).get k, buf)
  put k v buf := buf.put k (some v)
  delete k buf := (((S.over under buf).get k).isSome, buf.put k none)
  scan q buf := ((S.over under buf).scan q, buf)

/-- The changes of one buffer noted in another, one after the other. -/
def SortedRows.flush (buf ops : SortedRows κ (Option ν)) : SortedRows κ (Option ν) :=
  ops.rows.foldl (fun buf op => buf.put op.1 op.2) buf

variable {S}

section

variable (s : SortedRows κ ν)

theorem RowScans.over_reader (buf : SortedRows κ (Option ν)) :
    S.over (S.reader s) buf = S.reader (s.merge buf) := by
  refine RowReader.ext (funext fun k => get_merge.symm) (funext fun q => ?_)
  simp only [RowScans.over, reader, walk, ← merge_filter]
  cases S.descending q with
  | true => exact mergeWalk_reverse
  | false => rfl

theorem RowKv.simulates_batching :
    (batching S (S.reader s)).Simulates (plain S) fun buf t => s.merge buf = t where
  get := by
    rintro buf _ rfl k
    exact ⟨congrArg (RowReader.get · k) (over_reader s buf), rfl⟩
  put := by
    rintro buf _ rfl k v
    exact merge_put
  delete := by
    rintro buf _ rfl k
    refine ⟨?_, merge_put⟩
    exact congrArg (fun r => (RowReader.get r k).isSome) (over_reader s buf)
  scan := by
    rintro buf _ rfl q
    exact ⟨congrArg (RowReader.scan · q) (over_reader s buf), rfl⟩

theorem SortedRows.get_foldl_put {l : List (κ × Option ν)} (hl : InOrder (· < ·) l)
    (buf : SortedRows κ (Option ν)) (k : κ) :
    (l.foldl (fun buf op => buf.put op.1 op.2) buf).get k = (l.lookup k).or (buf.get k) := by
  induction l generalizing buf with
  | nil => rfl
  | cons op l ih =>
    obtain ⟨hhead, htail⟩ := pairwise_cons.mp hl
    rw [foldl_cons, ih htail, get_put, lookup_cons]
    by_cases hk : k = op.1
    · -- Nothing later is to the same key.
      have hnone : l.lookup k = none := by
        refine Option.eq_none_iff_forall_ne_some.mpr fun v hv => ?_
        have hmem : (k, v) ∈ l := (mem_rows (s := ⟨l, htail⟩)).mpr hv
        exact absurd (hhead _ hmem) (hk ▸ lt_irrefl _)
      simp [hk, hk ▸ hnone]
    · simp [hk, beq_eq_false_iff_ne.mpr hk]

theorem SortedRows.merge_flush (buf ops : SortedRows κ (Option ν)) :
    s.merge (buf.flush ops) = (s.merge buf).merge ops := by
  refine ext_get fun k => ?_
  have hget : (buf.flush ops).get k = (ops.get k).or (buf.get k) := get_foldl_put ops.inOrder buf k
  rw [get_merge, hget, get_merge, get_merge]
  cases ops.get k with
  | _ => rfl

end

/-! ## The rows behind a guard -/

theorem RowKv.keeps_guarded {k : κ} (hk : g.strays k ≠ none) (was : Option ν) :
    (guarded g (plain S)).Keeps fun s => s.1.get k = was where
  get := by
    rintro ⟨s, x⟩ hs k'
    simp only [guarded]
    cases g.strays k' with
    | _ => exact hs
  put := by
    rintro ⟨s, x⟩ hs k' v
    simp only [guarded]
    cases hk' : g.straysWrite k' with
    | none =>
      have hne : k ≠ k' := fun h => hk (h ▸ RowGuard.strays_of_straysWrite hk')
      rwa [plain, get_put, if_neg hne]
    | some c => exact hs
  delete := by
    rintro ⟨s, x⟩ hs k'
    simp only [guarded]
    cases hk' : g.straysWrite k' with
    | none =>
      have hne : k ≠ k' := fun h => hk (h ▸ RowGuard.strays_of_straysWrite hk')
      rwa [plain, get_erase, if_neg hne]
    | some c => exact hs
  scan := by
    rintro ⟨s, x⟩ hs q
    simp only [guarded]
    cases g.straysScan q with
    | _ => exact hs

def RowGuard.Confines (g : RowGuard κ ω χ) (S : RowScans ω κ) : Prop :=
  ∀ q, g.straysScan q = none → ∀ k, S.keeps q k = true → g.owns q k = true → g.strays k = none

def RowGuard.Agree (g : RowGuard κ ω χ) (s t : SortedRows κ ν) : Prop :=
  ∀ k, g.strays k = none → s.get k = t.get k

variable {s t : SortedRows κ ν}

theorem RowGuard.Confines.walk (hg : g.Confines S) (h : g.Agree s t) {q : ω}
    (hq : g.straysScan q = none) : (S.walk q s).filter (fun row => g.owns q row.1) =
      (S.walk q t).filter fun row => g.owns q row.1 := by
  have hrows : (s.filter (S.keeps q)).filter (g.owns q) =
      (t.filter (S.keeps q)).filter (g.owns q) := by
    refine ext_get fun k => ?_
    simp only [get_filter]
    by_cases howns : g.owns q k
    · by_cases hkeeps : S.keeps q k
      · simp [howns, hkeeps, h k (hg q hq k hkeeps howns)]
      · simp [hkeeps]
    · simp [howns]
  have hrows := congrArg SortedRows.rows hrows
  simp only [SortedRows.filter] at hrows
  simp only [RowScans.walk, SortedRows.filter]
  split
  · rw [filter_reverse, filter_reverse, hrows]
  · exact hrows

theorem RowGuard.Agree.merge (h : g.Agree s t)
    (buf : SortedRows κ (Option ν)) : g.Agree (s.merge buf) (t.merge buf) := fun k hk => by
  rw [get_merge, get_merge, h k hk]

/-- **Behind a guard a program sees no row that it does not let through**: over stores that agree on
the others it buffers the same. -/
theorem RowGuard.Confines.simulates (hg : g.Confines S) (h : g.Agree s t) :
    (guarded g (batching S (S.reader s))).Simulates (guarded g (batching S (S.reader t))) Eq where
  get := by
    rintro ⟨buf, x⟩ _ rfl k
    simp only [guarded, batching, over_reader]
    cases hk : g.strays k with
    | none => exact ⟨h.merge buf k hk, rfl⟩
    | some c => exact ⟨rfl, rfl⟩
  put := by
    rintro ⟨buf, x⟩ _ rfl k v
    rfl
  delete := by
    rintro ⟨buf, x⟩ _ rfl k
    simp only [guarded, batching, over_reader]
    cases hk : g.straysWrite k with
    | none =>
      refine ⟨?_, rfl⟩
      exact congrArg Option.isSome (h.merge buf k (RowGuard.strays_of_straysWrite hk))
    | some c => exact ⟨rfl, rfl⟩
  scan := by
    rintro ⟨buf, x⟩ _ rfl q
    simp only [guarded, batching, over_reader]
    cases hq : g.straysScan q with
    | none => exact ⟨hg.walk (h.merge buf) hq, rfl⟩
    | some c => exact ⟨rfl, rfl⟩

def RowGuard.Frames (g : RowGuard κ ω χ) (S : RowScans ω κ) (q : ω) : Prop :=
  g.straysScan q = none → ∀ k, S.keeps q k = true → g.owns q k = true

theorem RowGuard.Frames.walk {q : ω} (hq : g.Frames S q) (hin : g.straysScan q = none)
    (s : SortedRows κ ν) : (S.walk q s).filter (fun row => g.owns q row.1) = S.walk q s := by
  refine filter_eq_self.mpr fun row hrow => ?_
  have hrow : row ∈ (s.filter (S.keeps q)).rows := by
    unfold RowScans.walk at hrow
    split at hrow
    · exact mem_reverse.mp hrow
    · exact hrow
  exact hq hin row.1 (mem_filter.mp hrow).2

theorem RowProg.run_guarded {p : RowProg κ ν ω ρ} (hp : p.OnlyScans (g.Frames S))
    {s : SortedRows κ ν} (h : (p.run (guarded g (plain S)) (s, none)).2.2 = none) :
    p.run (guarded g (plain S)) (s, none) =
      ((p.run (plain S) s).1, (p.run (plain S) s).2, none) := by
  -- Where an operation strays the run ends strayed.
  have hgone : ∀ (p : RowProg κ ν ω ρ) (s : SortedRows κ ν) (c : χ),
      (p.run (guarded g (plain S)) (s, some c)).2.2 ≠ none := fun p s c hnone => by
    have hkeep := (keeps_strayed (g := g) (plain S) c).run p (s := (s, some c)) rfl
    exact Option.some_ne_none c (hkeep.symm.trans hnone)
  induction p generalizing s with
  | ret r => rfl
  | get k next ih =>
    simp only [run, guarded] at h ⊢
    revert h
    cases g.strays k with
    | none => exact ih _ (hp _)
    | some c => exact fun h => absurd h (hgone _ _ _)
  | put k v next ih =>
    simp only [run, guarded] at h ⊢
    revert h
    cases g.straysWrite k with
    | none => exact ih hp
    | some c => exact fun h => absurd h (hgone _ _ _)
  | delete k next ih =>
    simp only [run, guarded] at h ⊢
    revert h
    cases g.straysWrite k with
    | none => exact ih _ (hp _)
    | some c => exact fun h => absurd h (hgone _ _ _)
  | scan q next ih =>
    simp only [run, guarded] at h ⊢
    revert h
    cases hk : g.straysScan q with
    | none =>
      have hwalk : ((plain S).scan q s).1.filter (fun row => g.owns q row.1) =
          ((plain S).scan q s).1 := hp.1.walk hk s
      simp only [hwalk]
      exact ih _ (hp.2 _)
    | some c => exact fun h => absurd h (hgone _ _ _)

end Layers

end Flint
