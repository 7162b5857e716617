import Mathlib

/-!
# Lib/Concurrent — locks taken in an order, and actions done out of order

A lock is refused to who asks for it exclusively while anyone holds it, and to who asks for it
shared while one holds it exclusively or **waits** to.  So a reader may be kept out by users that
hold nothing, and a chain of waiting need not run through holders.  If all that wait ask for locks
above those they hold there is still no cycle (`not_deadlock_of_ordered`).
-/

namespace Flint

section

open Option

/-- How a lock is held. -/
inductive LockMode
  | shared
  | exclusive
  deriving DecidableEq, Repr

def LockMode.conflicts : LockMode → LockMode → Bool
  | .shared, .shared => false
  | _, _ => true

structure LockUser (L : Type) where
  holds : List (L × LockMode)
  wants : Option (L × LockMode)

namespace LockUser

variable {L ι : Type} [DecidableEq L]

/-- One user keeps another from the lock it waits for: by holding it, or by waiting to write it. -/
def blocks (t u : LockUser L) : Bool :=
  match t.wants with
  | none => false
  | some (l, m) =>
    (u.holds.any fun held => held.1 = l && m.conflicts held.2) ||
      (m = .shared && u.wants = some (l, .exclusive))

/-- **A deadlock**: users that all wait, each kept out by some of them and by no one else. -/
structure Deadlock (users : ι → LockUser L) (D : Finset ι) : Prop where
  nonempty : D.Nonempty
  waits : ∀ t ∈ D, ∃ u, (users t).blocks (users u) = true
  closed : ∀ t ∈ D, ∀ u, (users t).blocks (users u) = true → u ∈ D

def Ordered (rank : L → ℕ) (t : LockUser L) : Prop :=
  ∀ l m, t.wants = some (l, m) → ∀ held ∈ t.holds, rank held.1 < rank l

theorem wants_of_blocks {t u : LockUser L} (h : t.blocks u) : ∃ l m, t.wants = some (l, m) ∧
      ((∃ held ∈ u.holds, held.1 = l) ∨ m = .shared ∧ u.wants = some (l, .exclusive)) := by
  unfold blocks at h
  cases hwants : t.wants with
  | none =>
    rw [hwants] at h
    cases h
  | some lock =>
    obtain ⟨l, m⟩ := lock
    rw [hwants] at h
    simp only [Bool.or_eq_true, List.any_eq_true, Bool.and_eq_true, decide_eq_true_eq] at h
    refine ⟨l, m, rfl, ?_⟩
    obtain ⟨held, hheld, hl, -⟩ | h := h
    · exact .inl ⟨held, hheld, hl⟩
    · exact .inr h

/-- **Locks asked for in order do not deadlock**: who holds the highest lock waited for waits for a
higher one, and who waits to write it is kept out by a holder. -/
theorem not_deadlock_of_ordered {users : ι → LockUser L} (rank : L → ℕ)
    (h : ∀ t, (users t).Ordered rank) (D : Finset ι) : ¬ Deadlock users D := by
  intro hD
  let level : ι → ℕ := fun t => (users t).wants.elim 0 fun lock => rank lock.1
  obtain ⟨t, ht, hmax⟩ := D.exists_max_image level hD.nonempty
  -- No member holds a lock of the highest level.
  have hfree : ∀ u ∈ D, ∀ held ∈ (users u).holds, rank held.1 < level t := by
    intro u hu held hheld
    obtain ⟨v, hv⟩ := hD.waits u hu
    obtain ⟨l, m, hwants, -⟩ := wants_of_blocks hv
    have hlevel : level u = rank l := by simp only [level, hwants, elim_some]
    exact (h u l m hwants held hheld).trans_le (hlevel ▸ hmax u hu)
  have hholder : ∀ u ∈ D, ∀ v, (users u).blocks (users v) → level u = level t →
      ∃ l, (users v).wants = some (l, .exclusive) ∧ level v = level t := by
    intro u hu v hv hlevel
    obtain ⟨l, m, hwants, ⟨held, hheld, rfl⟩ | ⟨-, hwriter⟩⟩ := wants_of_blocks hv
    · have hrank : level u = rank held.1 := by simp only [level, hwants, elim_some]
      exact absurd (hfree v (hD.closed u hu v hv) held hheld) (by omega)
    · refine ⟨l, hwriter, ?_⟩
      rw [← hlevel]
      simp only [level, hwants, hwriter, elim_some]
  obtain ⟨u, hu⟩ := hD.waits t ht
  obtain ⟨l, hwriter, hlevel⟩ := hholder t ht u hu rfl
  have huD := hD.closed t ht u hu
  obtain ⟨v, hv⟩ := hD.waits u huD
  obtain ⟨l', m, hwants, ⟨held, hheld, rfl⟩ | ⟨hm, -⟩⟩ := wants_of_blocks hv
  · have hrank : level u = rank held.1 := by simp only [level, hwants, elim_some]
    exact absurd (hfree v (hD.closed u huD v hv) held hheld) (by omega)
  · -- One that waits to write is kept out by holders only.
    obtain ⟨-, rfl⟩ := Prod.mk.inj (some.inj (hwriter.symm.trans hwants))
    cases hm

end LockUser

end

/-! ## Actions on a store of keys, done out of order

Done in order, a list of actions means `seq`.  Done in another, a store `Agrees` with it where, for
each key, the writes done so far are the first ones of that key. -/

section

/-- An action on a store: what it does to the keys it touches depends on those keys alone. -/
structure Action (κ ν ρ : Type*) where
  keys : List κ
  writes : Bool
  run : (κ → ν) → (κ → ν) × ρ
  frame : ∀ m k, (writes = true → k ∉ keys) → (run m).1 k = m k
  effect : ∀ m m', (∀ k ∈ keys, m k = m' k) → ∀ k ∈ keys, (run m).1 k = (run m').1 k
  reply : ∀ m m', (∀ k ∈ keys, m k = m' k) → (run m).2 = (run m').2

namespace Action

variable {κ ν ρ : Type*}

def skip (r : ρ) : Action κ ν ρ where
  keys := []
  writes := false
  run := fun m => (m, r)
  frame := fun _ _ _ => rfl
  effect := nofun
  reply := fun _ _ _ => rfl

def WritesTo (a : Action κ ν ρ) (k : κ) : Prop := a.writes = true ∧ k ∈ a.keys

theorem run_of_not_writesTo {a : Action κ ν ρ} {k : κ} (h : ¬ a.WritesTo k) (m : κ → ν) :
    (a.run m).1 k = m k :=
  a.frame m k fun hw hk => h ⟨hw, hk⟩

section Sequence

variable (act : ℕ → Action κ ν ρ) (m : κ → ν)

def seq : ℕ → κ → ν
  | 0 => m
  | p + 1 => ((act p).run (seq p)).1

theorem seq_eq_of_not_writesTo {k : κ} {p q : ℕ} (hpq : p ≤ q)
    (h : ∀ i, p ≤ i → i < q → ¬ (act i).WritesTo k) : seq act m q k = seq act m p k := by
  induction q with
  | zero => rw [Nat.le_zero.mp hpq]
  | succ q ih =>
    rcases Nat.lt_or_ge q p with hlt | hge
    · rw [Nat.le_antisymm hpq hlt]
    · rw [seq, run_of_not_writesTo (h q hge (Nat.lt_succ_self q))]
      exact ih hge fun i hpi hiq => h i hpi (Nat.lt_succ_of_lt hiq)

/-- **The store has, for each key, the value of the writes done**: where these are the first ones,
the value the key has there in order. -/
def Agrees (n : ℕ) (Done : ℕ → Prop) (store : κ → ν) : Prop :=
  ∀ k p, p ≤ n → (∀ i < p, (act i).WritesTo k → Done i) →
    (∀ i, p ≤ i → i < n → (act i).WritesTo k → ¬ Done i) → store k = seq act m p k

/-- **An action's turn**: it is not done, every earlier write of its keys is, and no later one. -/
structure Ready (n : ℕ) (Done : ℕ → Prop) (j : ℕ) : Prop where
  bound : j < n
  fresh : ¬ Done j
  before : ∀ i < j, ∀ k ∈ (act j).keys, (act i).WritesTo k → Done i
  after : ∀ i, j < i → i < n → ∀ k ∈ (act j).keys, (act i).WritesTo k → ¬ Done i

variable {act m} {n : ℕ} {Done Done' : ℕ → Prop} {store : κ → ν} {j : ℕ}

theorem Agrees.start (h : ∀ i, ¬ Done i) : Agrees act m n Done m := by
  intro k p _ hbefore _
  exact (seq_eq_of_not_writesTo act m (Nat.zero_le p) fun i _ hi hw => h i (hbefore i hi hw)).symm

section

variable (h : Agrees act m n Done store)
include h

theorem Agrees.congr
    (hd : ∀ i < n, (act i).writes = true → (Done i ↔ Done' i)) : Agrees act m n Done' store := by
  intro k p hp hbefore hafter
  refine h k p hp (fun i hi hw => ?_) fun i hpi hin hw => ?_
  · exact (hd i (Nat.lt_of_lt_of_le hi hp) hw.1).mpr (hbefore i hi hw)
  · exact fun hdone => hafter i hpi hin hw ((hd i hin hw.1).mp hdone)

namespace Agrees

variable (hj : Ready act n Done j)
include hj

theorem keys_eq : ∀ k ∈ (act j).keys, store k = seq act m j k := by
  intro k hk
  refine h k j (Nat.le_of_lt hj.bound)
      (fun i hi hw => hj.before i hi k hk hw) fun i hji hin hw => ?_
  rcases Nat.eq_or_lt_of_le hji with rfl | hlt
  · exact hj.fresh
  · exact hj.after i hlt hin k hk hw

theorem reply_eq : ((act j).run store).2 = ((act j).run (seq act m j)).2 :=
  (act j).reply _ _ (h.keys_eq hj)

theorem run : Agrees act m n (fun i => Done i ∨ i = j) ((act j).run store).1 := by
  intro k p hp hbefore hafter
  by_cases hw : (act j).WritesTo k
  · -- Nothing between the action and the position writes the key, so the action's own value stands.
    have hjp : j < p := Nat.lt_of_not_le fun hpj => hafter j hpj hj.bound hw (.inr rfl)
    have hgap : ∀ i, j + 1 ≤ i → i < p → ¬ (act i).WritesTo k := by
      intro i hji hip hwi
      rcases hbefore i hip hwi with hd | rfl
      · exact hj.after i hji (Nat.lt_of_lt_of_le hip hp) k hw.2 hwi hd
      · exact absurd hji (Nat.not_succ_le_self i)
    rw [seq_eq_of_not_writesTo act m hjp hgap]
    exact (act j).effect _ _ (h.keys_eq hj) k hw.2
  rw [run_of_not_writesTo hw]
  refine h k p hp (fun i hi hwi => ?_) fun i hpi hin hwi hd => hafter i hpi hin hwi (.inl hd)
  rcases hbefore i hi hwi with hd | rfl
  · exact hd
  · exact absurd hwi hw

end Agrees

theorem Agrees.eq_seq (hd : ∀ i < n, (act i).writes = true → Done i) : store = seq act m n := by
  funext k
  exact h k n (Nat.le_refl n) (fun i hi hw => hd i hi hw.1)
    fun i hni hin => absurd hin (Nat.not_lt.mpr hni)

end

end Sequence

end Action

end

end Flint
