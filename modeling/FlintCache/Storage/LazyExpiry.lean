import FlintCache.Lib.Machine
import FlintCache.Storage.Rows

/-!
# Storage/LazyExpiry — reads that delete the expired row they found

A read fetches its key's metadata row, tests its expiry against the clock — strings read it before
the fetch, the other types after — and deletes the row where it is past.  Reads take no lock, and
the delete names the key, not the row.  Writers hold a guard, and what they leave is `kept`.
-/

namespace Flint

open List Option List.Subset Bool Machine.Reach
open Function (update update_of_ne update_self)

/-! ## Guards -/

/-- What a writer has locked. -/
inductive WriteGuard (κ : Type)
  | single (k : κ)
  | shared (k : κ)
  | all
  deriving DecidableEq, Repr

variable {κ : Type} {stripeOf : κ → ℕ}

namespace WriteGuard

variable [DecidableEq κ]

/-- Guards that cannot be held together; keys of one stripe share their lock. -/
def conflicts (stripeOf : κ → ℕ) : WriteGuard κ → WriteGuard κ → Bool
  | .all, _ => true
  | _, .all => true
  | .shared _, .shared _ => false
  | .single k, .single k' => stripeOf k = stripeOf k'
  | .single k, .shared k' => stripeOf k = stripeOf k'
  | .shared k, .single k' => stripeOf k = stripeOf k'

def covers : WriteGuard κ → κ → Bool
  | .single k, k' => k = k'
  | .shared k, k' => k = k'
  | .all, _ => true

def excludes : WriteGuard κ → κ → Bool
  | .single k, k' => k = k'
  | .shared _, _ => false
  | .all, _ => true

variable {k : κ}

theorem conflicts_of_covers_excludes {g g' : WriteGuard κ}
    (hg : g.covers k) (hg' : g'.excludes k) : g.conflicts stripeOf g' := by
  cases g <;> cases g' <;> simp_all [covers, excludes, conflicts]

omit [DecidableEq κ] in
theorem conflicts_comm (g g' : WriteGuard κ) :
    g.conflicts stripeOf g' = g'.conflicts stripeOf g := by
  cases g <;> cases g' <;> simp [conflicts, eq_comm]

end WriteGuard

/-! ## The store -/

/-- Where a read is. -/
inductive ReadState (κ : Type)
  | idle
  | timed (k : κ) (now : ℕ)
  /-- A row was fetched; `seen` is how often its key had been stored by then. -/
  | fetched (k : κ) (row : Row) (seen : ℕ)
  | condemned (k : κ) (seen : ℕ)
  deriving DecidableEq, Repr

/-- A store whose reads delete what they find expired. -/
structure RowStore (n : ℕ) (κ : Type) where
  rows : κ → Option Row
  reads : Fin n → ReadState κ
  guards : Fin n → Option (WriteGuard κ)
  kept : κ → Option Row
  stores : κ → ℕ
  readings : List ℕ

inductive RowEvent (n : ℕ) (κ : Type)
  | clock (i : Fin n) (k : κ) (now : ℕ)
  | fetchTimed (i : Fin n)
  | fetch (i : Fin n) (k : κ)
  | test (i : Fin n) (now : ℕ)
  | lazyDelete (i : Fin n)
  | lock (i : Fin n) (g : WriteGuard κ)
  | unlock (i : Fin n)
  | put (i : Fin n) (k : κ) (row : Row)
  | del (i : Fin n) (k : κ)
  deriving DecidableEq, Repr

open WriteGuard

namespace RowStore

variable {n : ℕ} [DecidableEq κ]

def judge (k : κ) (row : Row) (seen now : ℕ) : ReadState κ :=
  if row.isExpired now then .condemned k seen else .idle

def mayWrite (s : RowStore n κ) (i : Fin n) (k : κ) : Bool :=
  s.reads i = .idle && (s.guards i).any (·.covers k)

def step (stripeOf : κ → ℕ) (s : RowStore n κ) : RowEvent n κ → Option (RowStore n κ)
  | .clock i k now =>
    match s.reads i with
    | .idle =>
      some { s with
        reads := update s.reads i (.timed k now)
        readings := now :: s.readings }
    | _ => none
  | .fetchTimed i =>
    match s.reads i with
    | .timed k now =>
      let next := match s.rows k with
        | some row => judge k row (s.stores k) now
        | none => .idle
      some { s with reads := update s.reads i next }
    | _ => none
  | .fetch i k =>
    match s.reads i with
    | .idle =>
      let next := match s.rows k with
        | some row => .fetched k row (s.stores k)
        | none => .idle
      some { s with reads := update s.reads i next }
    | _ => none
  | .test i now =>
    match s.reads i with
    | .fetched k row seen =>
      some { s with
        reads := update s.reads i (judge k row seen now)
        readings := now :: s.readings }
    | _ => none
  | .lazyDelete i =>
    match s.reads i with
    | .condemned k _ =>
      some { s with
        rows := update s.rows k none
        reads := update s.reads i .idle }
    | _ => none
  | .lock i g =>
    if s.reads i = .idle ∧ s.guards i = none ∧
        ∀ j, (s.guards j).any (·.conflicts stripeOf g) = false then
      some { s with guards := update s.guards i (some g) }
    else none
  | .unlock i =>
    if s.reads i = .idle then some { s with guards := update s.guards i none } else none
  | .put i k row =>
    if s.mayWrite i k then
      some { s with
        rows := update s.rows k (some row)
        kept := update s.kept k (some row)
        stores := update s.stores k (s.stores k + 1) }
    else none
  | .del i k =>
    if s.mayWrite i k then
      some { s with
        rows := update s.rows k none
        kept := update s.kept k none }
    else none

def start (rows : κ → Option Row) : RowStore n κ where
  rows
  reads _ := .idle
  guards _ := none
  kept := rows
  stores _ := 0
  readings := []

def machine (n : ℕ) {κ : Type} [DecidableEq κ] (stripeOf : κ → ℕ) :
    Machine (RowStore n κ) (RowEvent n κ) where
  init s := ∃ rows, s = start rows
  step := step stripeOf

def unlocked (s : RowStore n κ) (i : Fin n) (k : κ) : Bool := !(s.guards i).any (·.excludes k)

def condemns (s : RowStore n κ) (k : κ) (i : Fin n) : Bool :=
  match s.reads i with
  | .condemned k' _ => k' = k && s.unlocked i k
  | _ => false

/-- An unlocked read whose row is found expired although its key was stored since the fetch. -/
def outdated (s : RowStore n κ) (i : Fin n) (now : ℕ) : Bool :=
  match s.reads i with
  | .fetched k row seen => row.isExpired now && s.unlocked i k && s.stores k ≠ seen
  | _ => false

/-- **No key is stored between the fetch of an expired row by an unlocked read and its delete**. -/
def Undisturbed (s : RowStore n κ) : RowEvent n κ → Prop
  | .put _ k _ => ∀ i, s.condemns k i = false
  | .test i now => s.outdated i now = false
  | _ => True

instance (s : RowStore n κ) (e : RowEvent n κ) : Decidable (s.Undisturbed e) := by
  cases e <;> unfold Undisturbed <;> infer_instance

/-! ## What every run keeps -/

variable {s s' : RowStore n κ}

def ExpiredAt (s : RowStore n κ) (row : Row) : Prop := ∃ now ∈ s.readings, row.isExpired now = true

def ReadOk (s : RowStore n κ) (i : Fin n) : ReadState κ → Prop
  | .idle => True
  | .timed _ now => now ∈ s.readings
  | .fetched k row seen =>
    seen ≤ s.stores k ∧ (s.stores k = seen → ∀ row' ∈ s.kept k, row' = row) ∧
      (s.unlocked i k = false → s.stores k = seen)
  | .condemned k seen => s.stores k = seen ∧ ∀ row ∈ s.kept k, s.ExpiredAt row

structure Sound (stripeOf : κ → ℕ) (s : RowStore n κ) : Prop where
  guards : ∀ i j g g', i ≠ j → s.guards i = some g → s.guards j = some g' →
    g.conflicts stripeOf g' = false
  rows : ∀ k, ∀ row ∈ s.rows k, s.kept k = some row
  kept : ∀ k, ∀ row ∈ s.kept k, s.rows k = some row ∨ s.ExpiredAt row
  reads : ∀ i, s.ReadOk i (s.reads i)

theorem Sound.start (rows : κ → Option Row) : Sound stripeOf (start rows : RowStore n κ) where
  guards _ _ _ _ _ h := by cases h
  rows _ _ h := h
  kept _ _ h := .inl h
  reads _ := trivial

def ReadState.About : ReadState κ → κ → Prop
  | .fetched k _ _, k' | .condemned k _, k' => k = k'
  | _, _ => False

variable {i : Fin n} {r : ReadState κ}

/-- **A read stays right** where its key is stored no more often, and has no new row to lose. -/
theorem ReadOk.frame {t : RowStore n κ} (h : s.ReadOk i r) (hsub : s.readings ⊆ t.readings)
    (hk : ∀ k, ReadState.About r k → t.stores k = s.stores k ∧ (∀ row ∈ t.kept k, row ∈ s.kept k) ∧
      (t.unlocked i k = false → s.unlocked i k = false)) : t.ReadOk i r := by
  cases r with
  | idle => trivial
  | timed k now => exact hsub h
  | fetched k row seen =>
    obtain ⟨hstores, hkept, hlocked⟩ := hk k rfl
    rw [ReadOk, hstores]
    exact ⟨h.1, fun heq row' hrow => h.2.1 heq row' (hkept row' hrow), fun hl => h.2.2 (hlocked hl)⟩
  | condemned k seen =>
    obtain ⟨hstores, hkept, -⟩ := hk k rfl
    rw [ReadOk, hstores]
    exact ⟨h.1, fun row hrow => (h.2 row (hkept row hrow)).imp fun _ hx => ⟨hsub hx.1, hx.2⟩⟩

theorem mem_update_none {rows : κ → Option Row} {k k' : κ} {row : Row}
    (h : row ∈ update rows k none k') : k' ≠ k ∧ row ∈ rows k' := by
  obtain ⟨-, ⟨⟩⟩ | h := update_eq_some_iff.mp h
  exact h

theorem Sound.setRead (h : s.Sound stripeOf) {readings : List ℕ}
    (hsub : s.readings ⊆ readings) (hr : ReadOk { s with readings } i r) :
    Sound stripeOf { s with reads := update s.reads i r, readings } where
  guards := h.guards
  rows := h.rows
  kept k row hrow := (h.kept k row hrow).imp_right fun ⟨now, hnow, hexp⟩ => ⟨now, hsub hnow, hexp⟩
  reads j := by
    by_cases hj : j = i
    · subst hj
      change ReadOk _ j (update s.reads j r j)
      rw [update_self]
      exact hr
    change ReadOk _ j (update s.reads i r j)
    rw [update_of_ne hj]
    exact (h.reads j).frame hsub fun _ _ => ⟨rfl, fun _ => id, id⟩

theorem readOk_judge {row : Row} {seen now : ℕ} (hnow : now ∈ s.readings)
    (hseen : row.isExpired now → s.stores k = seen)
    (hkept : s.stores k = seen → ∀ row' ∈ s.kept k, row' = row) :
    s.ReadOk i (judge k row seen now) := by
  rw [judge]
  split
  · rename_i hexp
    exact ⟨hseen hexp, fun row' hrow' => ⟨now, hnow, hkept (hseen hexp) row' hrow' ▸ hexp⟩⟩
  · trivial

namespace Sound

variable (h : s.Sound stripeOf)
include h

theorem dropRow (hk : ∀ row ∈ s.kept k, s.ExpiredAt row) :
    Sound stripeOf { s with rows := update s.rows k none } where
  guards := h.guards
  rows k' row hrow := h.rows k' row (mem_update_none hrow).2
  kept k' row hrow := by
    change update s.rows k none k' = some row ∨ _
    by_cases hk' : k' = k
    · exact .inr (hk row (hk' ▸ hrow))
    · rw [update_of_ne hk']
      exact h.kept k' row hrow
  reads := h.reads

theorem setGuard (hi : s.reads i = .idle)
    {g : Option (WriteGuard κ)} (hg : ∀ j g', j ≠ i → s.guards j = some g' → ∀ g'' ∈ g,
      g'.conflicts stripeOf g'' = false ∧ g''.conflicts stripeOf g' = false) :
    Sound stripeOf { s with guards := update s.guards i g } where
  guards a b ga gb hab ha hb := by
    obtain ⟨hai, ha⟩ | ⟨hai, ha⟩ := update_eq_some_iff.mp ha
    · obtain ⟨hbi, -⟩ | ⟨hbi, hb⟩ := update_eq_some_iff.mp hb
      · exact absurd (hai.trans hbi.symm) hab
      · exact (hg b gb hbi hb ga ha).2
    · obtain ⟨-, hb⟩ | ⟨-, hb⟩ := update_eq_some_iff.mp hb
      · exact (hg a ga hai ha gb hb).1
      · exact h.guards a b ga gb hab ha hb
  rows := h.rows
  kept := h.kept
  reads j := by
    by_cases hj : j = i
    · subst hj
      change ReadOk _ j (s.reads j)
      rw [hi]
      trivial
    have hunlocked : ∀ k, unlocked { s with guards := update s.guards i g } j k =
        s.unlocked j k := fun k => by
      simp only [unlocked, update_of_ne hj]
    exact (h.reads j).frame (refl _) fun k _ => ⟨rfl, fun _ => id, (hunlocked k).symm.trans⟩

theorem unlocked_of_mayWrite {i j : Fin n} (hij : i ≠ j)
    (hi : s.mayWrite i k) : s.unlocked j k := by
  simp only [mayWrite, and_eq_true, Option.any_eq_true] at hi
  obtain ⟨-, g, hg, hcovers⟩ := hi
  rw [unlocked, not_eq_true', ← not_eq_true]
  intro hany
  simp only [Option.any_eq_true] at hany
  obtain ⟨g', hg', hexcludes⟩ := hany
  have hfree := h.guards i j g g' hij hg hg'
  rw [conflicts_of_covers_excludes hcovers hexcludes] at hfree
  cases hfree

theorem del (k : κ) : Sound stripeOf { s with
      rows := update s.rows k none
      kept := update s.kept k none } where
  guards := h.guards
  rows k' row hrow := by
    obtain ⟨hk', hrow⟩ := mem_update_none hrow
    exact (update_of_ne hk' ..).trans (h.rows k' row hrow)
  kept k' row hrow := by
    obtain ⟨hk', hrow⟩ := mem_update_none hrow
    exact (h.kept k' row hrow).imp_left (update_of_ne hk' ..).trans
  reads j := (h.reads j).frame (refl _) fun _ _ =>
    ⟨rfl, fun _ hrow => (mem_update_none hrow).2, id⟩

theorem put (hi : s.mayWrite i k) (hfree : ∀ j, s.condemns k j = false) (row : Row) :
    Sound stripeOf { s with
      rows := update s.rows k (some row)
      kept := update s.kept k (some row)
      stores := update s.stores k (s.stores k + 1) } where
  guards := h.guards
  rows k' row' hrow := by
    refine update_eq_some_iff.mpr ((update_eq_some_iff.mp hrow).imp_right (And.imp_right ?_))
    exact h.rows k' row'
  kept k' row' hrow := by
    obtain hrow | ⟨hk', hrow⟩ := update_eq_some_iff.mp hrow
    · exact .inl (update_eq_some_iff.mpr (.inl hrow))
    · exact (h.kept k' row' hrow).imp_left (update_of_ne hk' ..).trans
  reads j := by
    have hidle : s.reads i = .idle := by
      simp only [mayWrite, and_eq_true, decide_eq_true_eq] at hi
      exact hi.1
    have hold := h.reads j
    by_cases hk : ReadState.About (s.reads j) k
    · have hij : i ≠ j := fun hij => by rwa [← hij, hidle] at hk
      change ReadOk _ j (s.reads j)
      cases hread : s.reads j with
      | idle | timed k' now => rw [hread] at hk; cases hk
      | fetched k' row' seen =>
        rw [hread] at hold hk
        obtain rfl : k' = k := hk
        have hseen := hold.1
        refine ⟨?_, fun heq => ?_, fun hlocked => ?_⟩
        · change seen ≤ update s.stores k' _ k'
          rw [update_self]
          omega
        · change update s.stores k' _ k' = seen at heq
          rw [update_self] at heq
          omega
        · change s.unlocked j k' = false at hlocked
          rw [h.unlocked_of_mayWrite hij hi] at hlocked
          cases hlocked
      | condemned k' seen =>
        have hcond := hfree j
        rw [condemns, hread] at hcond
        rw [hread] at hk
        obtain rfl : k' = k := hk
        simp [h.unlocked_of_mayWrite hij hi] at hcond
    · refine hold.frame (refl _) fun k' hk' => ?_
      have hne : k' ≠ k := fun heq => hk (heq ▸ hk')
      exact ⟨update_of_ne hne .., fun row' => (update_of_ne hne ..).symm.trans, id⟩

end Sound

theorem Sound.step {e : RowEvent n κ} (h : s.Sound stripeOf) (hok : s.Undisturbed e)
    (hstep : step stripeOf s e = some s') : s'.Sound stripeOf := by
  cases e with
  | clock i k now =>
    rw [RowStore.step] at hstep
    split at hstep
    · cases hstep
      exact h.setRead (subset_cons_self _ _) mem_cons_self
    · cases hstep
  | fetchTimed i =>
    rw [RowStore.step] at hstep
    split at hstep
    · rename_i k now hread
      cases hstep
      have hnow : now ∈ s.readings := by
        have := h.reads i
        rwa [hread] at this
      refine h.setRead (refl _) ?_
      cases hrow : s.rows k with
      | none => trivial
      | some row =>
        exact readOk_judge hnow (fun _ => rfl) fun _ row' hrow' =>
          some.inj (hrow'.symm.trans (h.rows k row hrow))
    · cases hstep
  | fetch i k =>
    rw [RowStore.step] at hstep
    split at hstep
    · cases hstep
      refine h.setRead (refl _) ?_
      cases hrow : s.rows k with
      | none => trivial
      | some row =>
        exact ⟨Nat.le_refl _, fun _ row' hrow' => some.inj (hrow'.symm.trans (h.rows k row hrow)),
          fun _ => rfl⟩
    · cases hstep
  | test i now =>
    rw [RowStore.step] at hstep
    split at hstep
    · rename_i k row seen hread
      cases hstep
      have hold := h.reads i
      rw [hread] at hold
      refine h.setRead (subset_cons_self _ _) ?_
      refine readOk_judge mem_cons_self (fun hexp => ?_) hold.2.1
      cases hlocked : s.unlocked i k with
      | false => exact hold.2.2 hlocked
      | true =>
        have hcurrent : s.outdated i now = false := hok
        rw [outdated, hread] at hcurrent
        simpa [hexp, hlocked] using hcurrent
    · cases hstep
  | lazyDelete i =>
    rw [RowStore.step] at hstep
    split at hstep
    · rename_i k seen hread
      cases hstep
      have hold := h.reads i
      rw [hread] at hold
      have hidle := h.setRead (refl s.readings) (show s.ReadOk i .idle from trivial)
      exact hidle.dropRow hold.2
    · cases hstep
  | lock i g =>
    obtain ⟨hfree, ⟨⟩⟩ := ite_none_right_eq_some.mp hstep
    refine h.setGuard hfree.1 fun j g' _ hj g'' hg'' => ?_
    obtain rfl := some.inj hg''
    have hconf := hfree.2.2 j
    rw [hj] at hconf
    exact ⟨hconf, (conflicts_comm _ _).trans hconf⟩
  | unlock i =>
    obtain ⟨hidle, ⟨⟩⟩ := ite_none_right_eq_some.mp hstep
    exact h.setGuard hidle nofun
  | put i k row =>
    obtain ⟨hi, ⟨⟩⟩ := ite_none_right_eq_some.mp hstep
    exact h.put hi hok row
  | del i k =>
    obtain ⟨-, ⟨⟩⟩ := ite_none_right_eq_some.mp hstep
    exact h.del k

/-- **Reads do not destroy writes** in runs that store no key between an expired row's fetch and its
delete: the row a read is about to delete was not stored since, and what a writer left of a key is
there until its own expiry. -/
theorem lazy_expiry_keeps_writes (h : (machine n stripeOf).Reach Undisturbed s) :
    (∀ i k seen, s.reads i = .condemned k seen → s.stores k = seen) ∧
      ∀ k row, s.kept k = some row →
        s.rows k = some row ∨ ∃ now ∈ s.readings, row.isExpired now = true := by
  have hsound : s.Sound stripeOf := by
    refine invariant (fun s hs => ?_) (fun s e s' _ hs hok hstep => ?_) h
    · obtain ⟨rows, rfl⟩ := hs
      exact .start rows
    · exact hs.step hok hstep
  refine ⟨fun i k seen hread => ?_, fun k row hrow => hsound.kept k row hrow⟩
  have hok := hsound.reads i
  rw [hread] at hok
  exact hok.1

def sampleRow : Row := [16, 0, 0, 0, 0, 0, 0, 3, 232, 97]

def freshRow : Row := [16, 0, 0, 0, 0, 0, 0, 0, 0, 98]

def sampleRows (k : ℕ) : Option Row := if k = 0 then some sampleRow else none

def inTurn : List (RowEvent 2 ℕ) :=
  [.fetch 0 0, .test 0 2000, .lazyDelete 0, .lock 1 (.single 0), .put 1 0 freshRow, .unlock 1,
    .clock 0 0 2001, .fetchTimed 0]

theorem lazy_expiry_keeps_writes_in_turn : ∃ s : RowStore 2 ℕ,
    (machine 2 id).Reach Undisturbed s ∧ s.kept 0 = some freshRow ∧
      (s.rows 0 = some freshRow ∨ ∃ now ∈ s.readings, freshRow.isExpired now = true) := by
  have hguard : (machine 2 id).Guarded Undisturbed (start sampleRows) inTurn := by decide +kernel
  have hinit : (machine 2 id).init (start sampleRows) := ⟨sampleRows, rfl⟩
  have hreach := of_exec (.init hinit) hguard rfl
  exact ⟨_, hreach, rfl, (lazy_expiry_keeps_writes hreach).2 0 freshRow rfl⟩

/-- A read condemns the expired row, the key is stored, and the read's delete comes last. -/
def overtaken : List (RowEvent 2 ℕ) :=
  [.fetch 0 0, .test 0 2000, .lock 1 (.single 0), .put 1 0 freshRow, .unlock 1, .lazyDelete 0]

/-- **A read destroys a write**: the stored row is gone, although nobody wrote or deleted the key
after it and it has no expiry. -/
theorem read_destroys_write : ∃ s : RowStore 2 ℕ, (machine 2 id).Reachable s ∧
    s.kept 0 = some freshRow ∧ s.rows 0 = none ∧ ∀ now, freshRow.isExpired now = false := by
  have hrun : (machine 2 id).exec (start sampleRows) overtaken = some _ := rfl
  have hheader : MetaHeader.decode freshRow = some ⟨16, 0⟩ := by decide
  refine ⟨_, Machine.reachable_of_exec _ ⟨sampleRows, rfl⟩ hrun, rfl, rfl, fun now => ?_⟩
  rw [Row.isExpired, hheader]
  rfl

end RowStore

end Flint
