import FlintCache.ControlPlane.Tenant
import FlintCache.Lib.Machine

/-!
# ControlPlane/Server — `CPLEASE` and `CPFENCE` at the single-node control plane

The registry is kept in memory, on disk, and — the lease rows alone — in a mirror that renewals are
answered from.  A fence is applied in memory, persisted, and then published to the mirror; where it
cannot be persisted it stays in memory and is neither acknowledged nor published.  `CpStore` is the
whole node with every command, and the version its snapshots are numbered with.
-/

namespace Flint

section

open List

/-! ## Rows

The row of an address is the first one whose members contain it: unambiguous as long as the
registered pairs are disjoint (`Registry.Keyed`). -/

/-- A pair's lease: its members, the master of record, and how often that was fenced. -/
structure LeaseRow where
  members : List String
  master : String
  gen : ℕ
  deriving DecidableEq, Repr

def LeaseRow.fenced (addr : String) (r : LeaseRow) : LeaseRow :=
  { r with master := addr, gen := r.gen + 1 }

/-- **The one way a row is resolved**: the first one whose members include the address. -/
def leaseRow (rows : List LeaseRow) (addr : String) : Option LeaseRow :=
  rows.find? fun r => addr ∈ r.members

def modifyLeaseRow (addr : String) (f : LeaseRow → LeaseRow) : List LeaseRow → List LeaseRow
  | [] => []
  | r :: rows => if addr ∈ r.members then f r :: rows else r :: modifyLeaseRow addr f rows

def repointLeaseRow (rows : List LeaseRow) (old new : List String) : List LeaseRow :=
  match old.find? fun m => (leaseRow rows m).isSome with
  | some m => modifyLeaseRow m (fun r => { r with members := new }) rows
  | none => rows

/-! ## The registry -/

def NoCommon (p q : List String) : Prop := ∀ a ∈ p, a ∉ q

instance (p q : List String) : Decidable (NoCommon p q) := inferInstanceAs (Decidable (∀ a ∈ p, _))

instance : Std.Symm NoCommon := ⟨fun _ _ h a hq hp => h a hp hq⟩

def LeaseRow.Apart (r r' : LeaseRow) : Prop := NoCommon r.members r'.members

instance : Std.Symm LeaseRow.Apart := ⟨fun _ _ h a hq hp => h a hp hq⟩

/-- The pairs and the lease rows, as the log has them. -/
structure Registry where
  pairs : List (List String)
  leases : List LeaseRow
  deriving DecidableEq, Repr

/-- A change to the registry, told apart as far as leases depend on it. -/
inductive Mutation
  | addPair (nodes : List String)
  | setPair (idx : ℕ) (nodes : List String)
  | fence (addr : String)
  | leaseAdopt (addr : String)
  | other
  deriving DecidableEq, Repr

inductive LeaseReply
  | ok
  | superseded (master : String)
  | noPair
  | redirect (leader : Option ℕ)
  deriving DecidableEq, Repr

namespace Registry

def pairOf (r : Registry) (addr : String) : Option (List String) := r.pairs.find? fun p => addr ∈ p

def apply (r : Registry) : Mutation → Registry
  | .addPair nodes => if nodes ∈ r.pairs then r else { r with pairs := r.pairs ++ [nodes] }
  | .setPair idx nodes =>
    match r.pairs[idx]? with
    | none => r
    | some old => { pairs := r.pairs.set idx nodes, leases := repointLeaseRow r.leases old nodes }
  | .fence addr =>
    match r.pairOf addr with
    | none => r
    | some members =>
      if (leaseRow r.leases addr).isSome then
        { r with leases := modifyLeaseRow addr (LeaseRow.fenced addr) r.leases }
      else { r with leases := r.leases ++ [⟨members, addr, 1⟩] }
  | .leaseAdopt addr =>
    match r.pairOf addr with
    | none => r
    | some members =>
      if (leaseRow r.leases addr).isNone then { r with leases := r.leases ++ [⟨members, addr, 0⟩] }
      else r
  | .other => r

def replay (log : List Mutation) : Registry := log.foldl apply ⟨[], []⟩

def DisjointPairs (r : Registry) : Prop := r.pairs.Pairwise NoCommon

instance (r : Registry) : Decidable r.DisjointPairs :=
  inferInstanceAs (Decidable (List.Pairwise _ _))

/-- **Unambiguous rows**: each with a member stands for a registered pair, no two for one. -/
structure Keyed (r : Registry) : Prop where
  registered : ∀ row ∈ r.leases, row.members ≠ [] → row.members ∈ r.pairs
  disjoint : r.leases.Pairwise LeaseRow.Apart

end Registry

/-! ## Resolving rows -/

variable {rows : List LeaseRow} {addr : String} {row : LeaseRow}

theorem leaseRow_eq_none : leaseRow rows addr = none ↔ ∀ r ∈ rows, addr ∉ r.members := by
  simp [leaseRow]

theorem leaseRow_eq_some (h : leaseRow rows addr = some row) : row ∈ rows ∧ addr ∈ row.members :=
  ⟨mem_of_find?_eq_some h, by simpa using find?_some h⟩

section

variable (hd : rows.Pairwise LeaseRow.Apart)
include hd

theorem eq_of_mem_members {r r' : LeaseRow} (hr : r ∈ rows) (hr' : r' ∈ rows) (h : addr ∈ r.members)
    (h' : addr ∈ r'.members) : r = r' := by
  by_contra hne
  exact hd.forall hr hr' hne addr h h'

theorem leaseRow_of_mem
    (hr : row ∈ rows) (h : addr ∈ row.members) : leaseRow rows addr = some row := by
  cases hrow : leaseRow rows addr with
  | none => exact absurd h (leaseRow_eq_none.mp hrow row hr)
  | some r =>
    obtain ⟨hmem, ha⟩ := leaseRow_eq_some hrow
    rw [eq_of_mem_members hd hmem hr ha h]

theorem modifyLeaseRow_eq_map (f : LeaseRow → LeaseRow) :
    modifyLeaseRow addr f rows = rows.map fun r => if addr ∈ r.members then f r else r := by
  induction rows with
  | nil => rfl
  | cons r rows ih =>
    rw [modifyLeaseRow, map_cons, ih hd.of_cons]
    split
    · rename_i ha
      have hrest : ∀ r' ∈ rows, (if addr ∈ r'.members then f r' else r') = r' := fun r' hr' =>
        if_neg (rel_of_pairwise_cons hd hr' addr ha)
      rw [map_congr_left hrest, map_id']
    · rfl

end

namespace Registry

variable {r : Registry} {p q : List String}

theorem DisjointPairs.eq_of_mem (h : r.DisjointPairs) (hp : p ∈ r.pairs)
    (hq : q ∈ r.pairs) (ha : addr ∈ p) (ha' : addr ∈ q) : p = q := by
  by_contra hne
  exact List.Pairwise.forall h hp hq hne addr ha ha'

theorem DisjointPairs.noCommon (h : r.DisjointPairs) {i j : ℕ}
    (hp : r.pairs[i]? = some p) (hq : r.pairs[j]? = some q) (hij : i ≠ j) : NoCommon p q := by
  obtain ⟨hi, rfl⟩ := List.getElem?_eq_some_iff.mp hp
  obtain ⟨hj, rfl⟩ := List.getElem?_eq_some_iff.mp hq
  rcases Nat.lt_or_gt_of_ne hij with hlt | hlt
  · exact List.pairwise_iff_getElem.mp h i j hi hj hlt
  · exact symm (List.pairwise_iff_getElem.mp h j i hj hi hlt)

variable {p : List String}

theorem pairOf_eq_some (h : r.pairOf addr = some p) : p ∈ r.pairs ∧ addr ∈ p :=
  ⟨mem_of_find?_eq_some h, by simpa using find?_some h⟩

theorem mem_set_of_ne {pairs : List (List String)} {idx : ℕ} {old new p : List String}
    (hold : pairs[idx]? = some old) (hp : p ∈ pairs) (hne : p ≠ old) :
    ∃ k, k ≠ idx ∧ (pairs.set idx new)[k]? = some p := by
  obtain ⟨k, hk⟩ := getElem?_of_mem hp
  refine ⟨k, ?_, ?_⟩
  · rintro rfl
    exact hne (Option.some.inj (hk.symm.trans hold))
  · rw [getElem?_set_ne, hk]
    rintro rfl
    exact hne (Option.some.inj (hk.symm.trans hold))

section

variable (hk : r.Keyed)
include hk

theorem Keyed.refence :
    Keyed { r with leases := modifyLeaseRow addr (LeaseRow.fenced addr) r.leases } := by
  have hmembers : ∀ row : LeaseRow,
      (if addr ∈ row.members then row.fenced addr else row).members = row.members := by
    intro row
    split <;> rfl
  rw [modifyLeaseRow_eq_map hk.disjoint]
  refine ⟨?_, ?_⟩
  · intro row hrow hne
    obtain ⟨row₀, hrow₀, rfl⟩ := mem_map.mp hrow
    rw [hmembers] at hne ⊢
    exact hk.registered row₀ hrow₀ hne
  · refine pairwise_map.mpr (hk.disjoint.imp fun {a b} hab => ?_)
    rw [LeaseRow.Apart, hmembers, hmembers]
    exact hab

theorem Keyed.repoint {idx : ℕ} {old nodes : List String} (hold : r.pairs[idx]? = some old)
    (hd' : DisjointPairs ⟨r.pairs.set idx nodes, repointLeaseRow r.leases old nodes⟩) :
    Keyed ⟨r.pairs.set idx nodes, repointLeaseRow r.leases old nodes⟩ := by
  have hidx : (r.pairs.set idx nodes)[idx]? = some nodes :=
    List.getElem?_set_self (List.getElem?_eq_some_iff.mp hold).1
  -- a row without the member the search used is another pair's
  have hother : ∀ row ∈ r.leases, row.members ≠ [] → row.members ≠ old →
      ∃ k, k ≠ idx ∧ (r.pairs.set idx nodes)[k]? = some row.members := fun row hrow hne hno =>
    mem_set_of_ne hold (hk.registered row hrow hne) hno
  rw [repointLeaseRow]
  cases hfind : old.find? fun m => (leaseRow r.leases m).isSome with
  | none =>
    refine ⟨fun row hrow hne => ?_, hk.disjoint⟩
    obtain ⟨k, -, hk'⟩ := hother row hrow hne (by
      rintro rfl
      obtain ⟨x, hx⟩ := exists_mem_of_ne_nil _ hne
      have := find?_eq_none.mp hfind x hx
      rw [leaseRow_of_mem hk.disjoint hrow hx] at this
      exact this rfl)
    exact mem_of_getElem? hk'
  | some m =>
    have hm : m ∈ old := mem_of_find?_eq_some hfind
    have hne_old : ∀ row : LeaseRow, m ∉ row.members → row.members ≠ old := by
      rintro row hrow rfl
      exact hrow hm
    simp only [modifyLeaseRow_eq_map hk.disjoint]
    refine ⟨?_, ?_⟩
    · intro row hrow hne
      obtain ⟨row₀, hrow₀, rfl⟩ := mem_map.mp hrow
      by_cases hmr : m ∈ row₀.members
      · rw [if_pos hmr]
        exact mem_of_getElem? hidx
      · rw [if_neg hmr] at hne ⊢
        obtain ⟨k, -, hk'⟩ := hother row₀ hrow₀ hne (hne_old row₀ hmr)
        exact mem_of_getElem? hk'
    refine pairwise_map.mpr (hk.disjoint.imp_of_mem fun {a b} ha hb hab => ?_)
    -- the repointed row meets another only if the new membership meets that one's pair
    have hnew : ∀ row ∈ r.leases, m ∉ row.members → NoCommon nodes row.members := by
      intro row hrow hmr x hx hxr
      obtain ⟨k, hki, hk'⟩ := hother row hrow (ne_nil_of_mem hxr) (hne_old row hmr)
      exact hd'.noCommon hidx hk' (Ne.symm hki) x hx hxr
    by_cases hma : m ∈ a.members
    · have hmb : m ∉ b.members := hab m hma
      rw [if_pos hma, if_neg hmb]
      exact hnew b hb hmb
    by_cases hmb : m ∈ b.members
    · rw [if_neg hma, if_pos hmb]
      exact fun x hxa hxn => hnew a ha hma x hxn hxa
    · rw [if_neg hma, if_neg hmb]
      exact hab

namespace Keyed

variable (hd : r.DisjointPairs)
include hd

theorem members_eq
    (hr : row ∈ r.leases) (hp : p ∈ r.pairs) (ha : addr ∈ row.members) (ha' : addr ∈ p) :
    row.members = p :=
  hd.eq_of_mem (hk.registered row hr (ne_nil_of_mem ha)) hp ha ha'

theorem push
    (hp : r.pairOf addr = some p) (hnone : leaseRow r.leases addr = none) (m : String) (g : ℕ) :
    Keyed { r with leases := r.leases ++ [⟨p, m, g⟩] } := by
  obtain ⟨hpm, hpa⟩ := pairOf_eq_some hp
  refine ⟨?_, ?_⟩
  · intro row hrow hne
    rcases mem_append.mp hrow with hrow | hrow
    · exact hk.registered row hrow hne
    · rwa [mem_singleton.mp hrow]
  refine pairwise_append.mpr ⟨hk.disjoint, pairwise_singleton _ _, ?_⟩
  intro row hrow row' hrow' x hx hx'
  obtain rfl := mem_singleton.mp hrow'
  have hmem : row.members = p := hk.members_eq hd hrow hpm hx hx'
  exact leaseRow_eq_none.mp hnone row hrow (hmem ▸ hpa)

theorem apply (m : Mutation) (hd' : (r.apply m).DisjointPairs) : (r.apply m).Keyed := by
  cases m with
  | addPair nodes =>
    rw [Registry.apply]
    split
    · exact hk
    · exact ⟨fun row hrow hne => mem_append_left _ (hk.registered row hrow hne), hk.disjoint⟩
  | setPair idx nodes =>
    rw [Registry.apply] at hd' ⊢
    cases hold : r.pairs[idx]? with
    | none => exact hk
    | some old =>
      rw [hold] at hd'
      exact hk.repoint hold hd'
  | fence addr =>
    rw [Registry.apply]
    cases hp : r.pairOf addr with
    | none => exact hk
    | some p =>
      cases hrow : leaseRow r.leases addr with
      | none => simpa [hrow] using hk.push hd hp hrow addr 1
      | some row => simpa [hrow] using hk.refence
  | leaseAdopt addr =>
    rw [Registry.apply]
    cases hp : r.pairOf addr with
    | none => exact hk
    | some p =>
      cases hrow : leaseRow r.leases addr with
      | none => simpa [hrow] using hk.push hd hp hrow addr 0
      | some row => simpa [hrow] using hk
  | other => exact hk

theorem leaseRow_fence (hp : r.pairOf addr = some p) :
    ∃ row, leaseRow (r.apply (.fence addr)).leases addr = some row ∧ row.members = p ∧
      row.master = addr := by
  obtain ⟨hpm, hpa⟩ := pairOf_eq_some hp
  rw [Registry.apply, hp]
  cases hrow : leaseRow r.leases addr with
  | none =>
    refine ⟨⟨p, addr, 1⟩, ?_, rfl, rfl⟩
    have hno : r.leases.find? (fun row => addr ∈ row.members) = none := hrow
    simp [leaseRow, find?_append, hno, hpa]
  | some row =>
    obtain ⟨hmem, ha⟩ := leaseRow_eq_some hrow
    have hmembers : row.members = p := hk.members_eq hd hmem hpm ha hpa
    refine ⟨row.fenced addr, ?_, hmembers, rfl⟩
    simp only [Option.isSome_some, if_true]
    refine leaseRow_of_mem (hk.refence).disjoint ?_ ha
    rw [modifyLeaseRow_eq_map hk.disjoint]
    exact mem_map.mpr ⟨row, hmem, if_pos ha⟩

end Keyed

end

@[simp] theorem pairs_leaseAdopt (r : Registry) (addr : String) :
    (r.apply (.leaseAdopt addr)).pairs = r.pairs := by
  rw [Registry.apply]
  split
  · rfl
  · split <;> rfl

def lease (r : Registry) (addr : String) : Option LeaseReply :=
  match leaseRow r.leases addr with
  | some row => some (if row.master = addr then .ok else .superseded row.master)
  | none => if r.pairs.any (addr ∈ ·) then none else some .noPair

end Registry

end

section

open List Option

/-! ## Records only grow -/

/-- Every row of `rows` is still there, or was superseded by one of a higher generation. -/
def Newer (rows rows' : List LeaseRow) : Prop :=
  ∀ a row, leaseRow rows a = some row →
    ∃ row', leaseRow rows' a = some row' ∧ (row.gen < row'.gen ∨ row' = row)

theorem Newer.refl (rows : List LeaseRow) : Newer rows rows := fun _ row h => ⟨row, h, .inr rfl⟩

theorem Newer.trans {r r' r'' : List LeaseRow} (h : Newer r r') (h' : Newer r' r'') :
    Newer r r'' := by
  intro a row hrow
  obtain ⟨row', hrow', hlt | rfl⟩ := h a row hrow
  · obtain ⟨row'', hrow'', hlt' | rfl⟩ := h' a row' hrow'
    · exact ⟨row'', hrow'', .inl (hlt.trans hlt')⟩
    · exact ⟨_, hrow'', .inl hlt⟩
  · exact h' a _ hrow'

theorem newer_nil (rows : List LeaseRow) : Newer [] rows := fun _ _ h => nomatch h

theorem newer_append (rows more : List LeaseRow) : Newer rows (rows ++ more) := by
  intro a row h
  refine ⟨row, ?_, .inr rfl⟩
  rw [leaseRow] at h
  rw [leaseRow, find?_append, h, some_or]

open Registry

variable {addr : String}

namespace Registry

variable {r : Registry}

theorem exists_pairOf (h : r.pairs.any (addr ∈ ·) = true) : ∃ p, r.pairOf addr = some p := by
  refine ne_none_iff_exists'.mp fun hnone => ?_
  obtain ⟨p, hp, ha⟩ := any_eq_true.mp h
  exact find?_eq_none.mp hnone p hp ha

@[simp] theorem pairs_fence (r : Registry) (addr : String) :
    (r.apply (.fence addr)).pairs = r.pairs := by
  rw [apply]
  split
  · rfl
  · split <;> rfl

theorem Keyed.newer_fence (hk : r.Keyed) (addr : String) :
    Newer r.leases (r.apply (.fence addr)).leases := by
  rw [Registry.apply]
  split
  · exact .refl _
  split
  · intro a row h
    obtain ⟨hmem, ha⟩ := leaseRow_eq_some h
    have hdisj : (modifyLeaseRow addr (LeaseRow.fenced addr) r.leases).Pairwise LeaseRow.Apart :=
      hk.refence.disjoint
    by_cases hf : addr ∈ row.members
    · refine ⟨row.fenced addr, leaseRow_of_mem hdisj ?_ ha, .inl (Nat.lt_succ_self _)⟩
      rw [modifyLeaseRow_eq_map hk.disjoint]
      exact mem_map.mpr ⟨row, hmem, if_pos hf⟩
    · refine ⟨row, leaseRow_of_mem hdisj ?_ ha, .inr rfl⟩
      rw [modifyLeaseRow_eq_map hk.disjoint]
      exact mem_map.mpr ⟨row, hmem, if_neg hf⟩
  · exact newer_append _ _

theorem newer_leaseAdopt (r : Registry) (addr : String) :
    Newer r.leases (r.apply (.leaseAdopt addr)).leases := by
  rw [apply]
  split
  · exact .refl _
  · split
    · exact newer_append _ _
    · exact .refl _

end Registry

/-! ## The server -/

/-- The control plane: the registry, its copy on disk and the mirror of the leases. -/
structure CpServer where
  state : Registry
  disk : Registry
  mirror : List LeaseRow
  deriving DecidableEq, Repr

namespace CpServer

variable (s : CpServer)

/-- **`CPLEASE`, the fast path**: the mirror's answer, `none` where the pair has no row there. -/
def readLease (addr : String) : Option LeaseReply :=
  (leaseRow s.mirror addr).map fun row => if row.master = addr then .ok else .superseded row.master

/-- **`CPLEASE`, the first touch of a pair**: adopt the caller, unless a row was written since or
the adoption cannot be persisted. -/
def adoptLease (addr : String) (persists : Bool) : CpServer × Except String LeaseReply :=
  if !s.state.pairs.any (addr ∈ ·) then (s, .ok .noPair)
  else
    match leaseRow s.state.leases addr with
    | some row => (s, .ok (if row.master = addr then .ok else .superseded row.master))
    | none =>
      let state := s.state.apply (.leaseAdopt addr)
      if persists then (⟨state, state, state.leases⟩, .ok .ok)
      else ({ s with state := { state with leases := state.leases.dropLast } },
          .error "ERR persist")

/-- **`CPFENCE`**: the generation recorded.  A fence that cannot be persisted stays in memory. -/
def fence (addr : String) (persists : Bool) : CpServer × Except String ℕ :=
  if !s.state.pairs.any (addr ∈ ·) then
    (s, .error "NOPAIR address is not a member of any registered pair")
  else
    let state := s.state.apply (.fence addr)
    match leaseRow state.leases addr with
    | none => ({ s with state }, .error "ERR fence recorded no lease row")
    | some row =>
      if persists then (⟨state, state, state.leases⟩, .ok row.gen)
      else ({ s with state }, .error "ERR persist")

/-- Another command commits: the whole registry is persisted, and the mirror not published. -/
def commitOther : CpServer := { s with disk := s.state }

def restart : CpServer := { s with state := s.disk, mirror := s.disk.leases }

structure Sound : Prop where
  pairs : s.disk.pairs = s.state.pairs
  disjoint : s.state.DisjointPairs
  state : s.state.Keyed
  disk : s.disk.Keyed
  mirror : Registry.Keyed ⟨s.state.pairs, s.mirror⟩
  published : Newer s.mirror s.disk.leases
  persisted : Newer s.disk.leases s.state.leases

variable {s}

theorem dropLast_leaseAdopt (hm : s.state.pairs.any (addr ∈ ·) = true)
    (hrow : leaseRow s.state.leases addr = none) : { s.state.apply (.leaseAdopt addr) with
      leases := (s.state.apply (.leaseAdopt addr)).leases.dropLast } = s.state := by
  obtain ⟨p, hp⟩ := exists_pairOf hm
  simp [apply, hp, hrow]

namespace Sound

section

variable (hs : s.Sound)
include hs

variable {state : Registry}

theorem ahead (hpairs : state.pairs = s.state.pairs)
    (hk : state.Keyed) (hnew : Newer s.state.leases state.leases) : Sound { s with state } where
  __ := hs
  pairs := hs.pairs.trans hpairs.symm
  disjoint := by
    rw [Registry.DisjointPairs, hpairs]
    exact hs.disjoint
  state := hk
  mirror := by
    simp only [hpairs]
    exact hs.mirror
  persisted := hs.persisted.trans hnew

theorem publish (hpairs : state.pairs = s.state.pairs)
    (hk : state.Keyed) : Sound ⟨state, state, state.leases⟩ where
  pairs := rfl
  disjoint := by
    rw [Registry.DisjointPairs, hpairs]
    exact hs.disjoint
  state := hk
  disk := hk
  mirror := hk
  published := .refl _
  persisted := .refl _

theorem keyed_apply {m : Mutation} (hpairs : (s.state.apply m).pairs = s.state.pairs) :
    (s.state.apply m).Keyed := by
  refine hs.state.apply hs.disjoint m ?_
  rw [Registry.DisjointPairs, hpairs]
  exact hs.disjoint

theorem adoptLease (addr : String) (persists : Bool) :
    (s.adoptLease addr persists).1.Sound ∧ Newer s.mirror (s.adoptLease addr persists).1.mirror ∧
      (s.adoptLease addr persists).1.state.pairs = s.state.pairs := by
  rw [CpServer.adoptLease]
  split
  · exact ⟨hs, .refl _, rfl⟩
  rename_i hm
  cases hrow : leaseRow s.state.leases addr with
  | some row => exact ⟨hs, .refl _, rfl⟩
  | none =>
    have hpairs := pairs_leaseAdopt s.state addr
    cases persists with
    | true =>
      refine ⟨hs.publish hpairs (hs.keyed_apply hpairs), ?_, hpairs⟩
      exact (hs.published.trans hs.persisted).trans (newer_leaseAdopt _ _)
    | false =>
      have hback := dropLast_leaseAdopt (by simpa using hm) hrow
      simp only [Bool.false_eq_true, if_false, hback]
      exact ⟨hs, .refl _, trivial⟩

theorem fence (addr : String) (persists : Bool) :
    (s.fence addr persists).1.Sound ∧ Newer s.mirror (s.fence addr persists).1.mirror ∧
      (s.fence addr persists).1.state.pairs = s.state.pairs ∧
      ∀ g, (s.fence addr persists).2 = .ok g →
        ∃ row, leaseRow (s.fence addr persists).1.mirror addr = some row ∧ row.gen = g ∧
          row.master = addr := by
  have hpairs := pairs_fence s.state addr
  have hk := hs.keyed_apply hpairs
  have hnew := hs.state.newer_fence addr
  rw [CpServer.fence]
  split
  · exact ⟨hs, .refl _, rfl, by simp⟩
  rename_i hm
  obtain ⟨p, hp⟩ := exists_pairOf (by simpa using hm)
  obtain ⟨row, hrow, -, hmaster⟩ := hs.state.leaseRow_fence hs.disjoint hp
  simp only [hrow]
  cases persists with
  | true =>
    refine ⟨hs.publish hpairs hk, (hs.published.trans hs.persisted).trans hnew, hpairs, ?_⟩
    rintro g hg
    exact ⟨row, hrow, Except.ok.inj hg, hmaster⟩
  | false => exact ⟨hs.ahead hpairs hk hnew, .refl _, hpairs, by simp⟩

theorem commitOther : s.commitOther.Sound where
  __ := hs
  pairs := rfl
  disk := hs.state
  published := hs.published.trans hs.persisted
  persisted := .refl _

theorem restart : s.restart.Sound where
  pairs := rfl
  disjoint := by
    rw [CpServer.restart, Registry.DisjointPairs, hs.pairs]
    exact hs.disjoint
  state := hs.disk
  disk := hs.disk
  mirror := hs.disk
  published := .refl _
  persisted := .refl _

theorem leaseRow_of_pair {p : List String} {a b : String} (hp : p ∈ s.state.pairs)
    (ha : a ∈ p) (hb : b ∈ p) {row : LeaseRow} (h : leaseRow s.mirror a = some row) :
    leaseRow s.mirror b = some row := by
  obtain ⟨hmem, har⟩ := leaseRow_eq_some h
  have hmembers : row.members = p := hs.mirror.members_eq hs.disjoint hmem hp har ha
  exact leaseRow_of_mem hs.mirror.disjoint hmem (hmembers ▸ hb)

end

end Sound

end CpServer

/-! ## Every command, and its commit -/

/-- What a snapshot is rendered from. -/
structure CpMemory where
  registry : RegistryState := {}
  leases : List LeaseRow := []
  version : ℕ := 0
  /-- The last promotion reported, with its generation.  It is rendered, and never persisted. -/
  promoted : Option (String × ℕ) := none
  deriving DecidableEq, Repr

/-- The single node: what its snapshots are rendered from, and what it persisted last. -/
structure CpStore where
  memory : CpMemory := {}
  disk : CpMemory := {}
  deriving DecidableEq, Repr

/-- A request to the node. -/
inductive CpCall
  | edit (verb : CpVerb) (args : List String)
  /-- The first touch of a pair; the mirror answers a renewal, which changes nothing. -/
  | lease (addr : String)
  | fence (addr : String)
  | promoted (addr : String)
  deriving DecidableEq, Repr

def noPair : String := "NOPAIR address is not a member of any registered pair"

namespace CpStore

def rows (n : CpStore) : Registry := ⟨n.memory.registry.pairs, n.memory.leases⟩

/-- The hint of a promotion, numbered on from the last one. -/
def hint (n : CpStore) (addr : String) : Option (String × ℕ) :=
  some (addr, n.memory.promoted.elim 1 fun last => last.2 + 1)

/-- **A commit**: the version is bumped before anything is written. -/
def commit (n : CpStore) (persists : Bool) (memory : CpMemory) : CpStore × Except String Unit :=
  let memory := { memory with version := memory.version + 1 }
  if persists then (⟨memory, { memory with promoted := none }⟩, .ok ())
  else ({ n with memory }, .error "ERR persist")

def call (c : CpConfig) (n : CpStore) (persists : Bool) : CpCall → CpStore × Except String Unit
  | .edit verb args =>
    match c.command n.memory.registry verb args with
    | .error e => (n, .error e)
    | .ok none => (n, .ok ())
    | .ok (some m) =>
      let leases :=
        match m with
        | .setPair idx nodes => (n.rows.apply (.setPair idx nodes)).leases
        | _ => n.memory.leases
      n.commit persists { n.memory with registry := n.memory.registry.apply m, leases }
  | .lease addr =>
    if !n.rows.pairs.any (addr ∈ ·) then (n, .error noPair)
    else
      match leaseRow n.memory.leases addr with
      | some row => (n, if row.master = addr then .ok () else .error ("SUPERSEDED " ++ row.master))
      | none =>
        let leases := (n.rows.apply (.leaseAdopt addr)).leases
        let (n', reply) := n.commit persists { n.memory with leases }
        -- the row is taken back, and the version is not
        (if persists then n' else { n' with memory.leases := leases.dropLast }, reply)
  | .fence addr =>
    if !n.rows.pairs.any (addr ∈ ·) then (n, .error noPair)
    else
      let memory := { n.memory with
        leases := (n.rows.apply (.fence addr)).leases, promoted := n.hint addr }
      match leaseRow memory.leases addr with
      | none => ({ n with memory }, .error "ERR fence recorded no lease row")
      | some _ => n.commit persists memory
  | .promoted addr =>
    ({ n with memory.version := n.memory.version + 1, memory.promoted := n.hint addr }, .ok ())

end CpStore

def cpStoreMachine (c : CpConfig) : Machine CpStore (CpCall × Bool) where
  init n := n = {}
  step n e := some (n.call c e.2 e.1).1

theorem leaseRow_fenced {rows : List LeaseRow} (h : (leaseRow rows addr).isSome) :
    leaseRow (modifyLeaseRow addr (LeaseRow.fenced addr) rows) addr ≠ none := by
  induction rows with
  | nil => cases h
  | cons row rows ih =>
    rw [modifyLeaseRow]
    split
    · simp [leaseRow, LeaseRow.fenced, *]
    · rename_i hrow
      rw [leaseRow, find?_cons_of_neg (by simpa using hrow)] at h ⊢
      exact ih h

theorem Registry.leaseRow_fence_ne_none {r : Registry}
    (h : r.pairs.any (addr ∈ ·)) : leaseRow (r.apply (.fence addr)).leases addr ≠ none := by
  obtain ⟨p, hp⟩ := exists_pairOf h
  have hmem : addr ∈ p := by simpa using find?_some hp
  simp only [apply, hp]
  split
  · exact leaseRow_fenced ‹_›
  · simp [leaseRow, hmem]

/-- A call that is persisted, reports no promotion and fences no member of a pair. -/
def CpStore.Plain (n : CpStore) (e : CpCall × Bool) : Prop :=
  e.2 = true ∧ match e.1 with
    | .promoted _ => False
    | .fence addr => n.rows.pairs.any (addr ∈ ·) = false
    | _ => True

instance cpStorePlainDecidable (n : CpStore) (e : CpCall × Bool) : Decidable (n.Plain e) := by
  unfold CpStore.Plain
  split <;> infer_instance

/-- **What a persisted call does**: nothing, or all of it on disk but the hint; only the latter is
answered well. -/
theorem CpStore.call_persists (c : CpConfig) (n : CpStore) (k : CpCall) :
    (n.call c true k).1 = n ∨ (n.call c true k).2 = .ok () ∧ (n.Plain (k, true) →
      (n.call c true k).1.disk = { (n.call c true k).1.memory with promoted := none } ∧
        (n.call c true k).1.memory.promoted = n.memory.promoted) := by
  cases k with
  | edit verb args =>
    simp only [call]
    split
    · exact .inl rfl
    · exact .inl rfl
    · exact .inr ⟨rfl, fun _ => ⟨rfl, rfl⟩⟩
  | lease addr =>
    simp only [call]
    split
    · exact .inl rfl
    · split
      · exact .inl rfl
      · exact .inr ⟨rfl, fun _ => ⟨rfl, rfl⟩⟩
  | fence addr =>
    simp only [call]
    split
    · exact .inl rfl
    rename_i hpair
    split
    · next hnone => exact absurd hnone (leaseRow_fence_ne_none (by simpa using hpair))
    · refine .inr ⟨rfl, fun hplain => ?_⟩
      have hnot : n.rows.pairs.any (addr ∈ ·) = false := hplain.2
      exact absurd (by rw [hnot]; rfl) hpair
  | promoted addr => exact .inr ⟨rfl, fun hplain => hplain.2.elim⟩

end

/-! ## The lease commands as a whole

Each persists the whole registry, and each may fail to.  A failed adoption is taken back; the other
three leave their change in memory. -/

section

open List Option List.Pairwise

/-! ## Commands -/

/-- A lease command; the flag says whether the registry can be persisted while it runs. -/
inductive LeaseEvent
  | addPair (raw : String) (persists : Bool)
  | setPair (idx : ℕ) (raw : String) (persists : Bool)
  | lease (addr : String) (persists : Bool)
  | fence (addr : String) (persists : Bool)
  | restart
  deriving DecidableEq, Repr

/-- What the node answers. -/
inductive CpReply
  | ok
  | fenced (addr : String) (gen : ℕ)
  | superseded (master : String)
  | err (text : String)
  deriving DecidableEq, Repr

def CpReply.success : CpReply → Bool
  | ok | fenced _ _ => true
  | _ => false

def LeaseReply.wire : LeaseReply → CpReply
  | .ok => .ok
  | .superseded master => .superseded master
  | .noPair => .err "NOPAIR address is not a member of any registered pair"
  | .redirect _ => .err "ERR no leader elected yet, retry"

namespace CpServer

variable (s : CpServer)

local instance lawfulPairs : LawfulBEq (List String) := inferInstance

/-- **`CPADDPAIR`**: a registration already there is answered without a commit. -/
def addPair (raw : String) (persists : Bool) : CpServer × CpReply :=
  match canonicalMembers raw with
  | none => (s, .err "ERR CPADDPAIR <a,b[,c]> [start-end|-]")
  | some nodes =>
    if nodes ∈ s.state.pairs then (s, .ok)
    else
      let state := s.state.apply (.addPair nodes)
      if persists then ({ s with state, disk := state }, .ok)
      else ({ s with state }, .err "ERR persist")

/-- **`CPSETPAIR`**: the pair's row moves with it, and the mirror is published. -/
def setPair (idx : ℕ) (raw : String) (persists : Bool) : CpServer × CpReply :=
  match canonicalMembers raw with
  | none => (s, .err "ERR CPSETPAIR <idx> <a,b[,c]>")
  | some nodes =>
    if s.state.pairs.length ≤ idx then (s, .err "ERR no such pair index")
    else
      let state := s.state.apply (.setPair idx nodes)
      if persists then (⟨state, state, state.leases⟩, .ok)
      else ({ s with state }, .err "ERR persist")

/-- **`CPLEASE`**: the mirror's answer, or an adoption. -/
def cplease (addr : String) (persists : Bool) : CpServer × CpReply :=
  match s.readLease addr with
  | some r => (s, r.wire)
  | none =>
    match s.adoptLease addr persists with
    | (s', .ok r) => (s', r.wire)
    | (s', .error why) => (s', .err why)

/-- **`CPFENCE`**. -/
def cpfence (addr : String) (persists : Bool) : CpServer × CpReply :=
  match s.fence addr persists with
  | (s', .ok g) => (s', .fenced addr g)
  | (s', .error why) => (s', .err why)

def handle : LeaseEvent → CpServer × CpReply
  | .addPair raw persists => s.addPair raw persists
  | .setPair idx raw persists => s.setPair idx raw persists
  | .lease addr persists => s.cplease addr persists
  | .fence addr persists => s.cpfence addr persists
  | .restart => (s.restart, .ok)

def answers (s : CpServer) : List LeaseEvent → List CpReply
  | [] => []
  | e :: es => (s.handle e).2 :: (s.handle e).1.answers es

def edits : LeaseEvent → Bool
  | .addPair raw _ => (canonicalMembers raw).any (· ∉ s.state.pairs)
  | .setPair idx raw _ => (canonicalMembers raw).isSome && idx < s.state.pairs.length
  | .fence addr _ => s.state.pairs.any (addr ∈ ·)
  | .lease _ _ | .restart => false

def InPair (idx : ℕ) (addr : String) : Prop := ∃ p, s.state.pairs[idx]? = some p ∧ addr ∈ p

def Fences (idx : ℕ) : LeaseEvent → Prop
  | .fence addr persists => s.InPair idx addr ∧ (s.cpfence addr persists).2.success = true
  | _ => False

end CpServer

def LeaseEvent.persists : LeaseEvent → Bool
  | addPair _ p | setPair _ _ p | lease _ p | fence _ p => p
  | restart => true

def leaseMachine : Machine CpServer LeaseEvent where
  init s := s = ⟨⟨[], []⟩, ⟨[], []⟩, []⟩
  step s e := some (s.handle e).1

/-- **Only adoptions fail to persist**, and the pairs stay disjoint. -/
def CpServer.EditsPersist (s : CpServer) (e : LeaseEvent) : Prop :=
  (s.handle e).1.state.DisjointPairs ∧ (s.edits e = true → e.persists = true)

/-! ## The row of a pair -/

open Registry

variable {idx : ℕ} {a : String}

namespace Registry

variable {r : Registry}

def Holds (r : Registry) (idx : ℕ) (a : String) : Prop :=
  ∃ row ∈ r.leases, row.members ≠ [] ∧ r.pairs[idx]? = some row.members ∧ row.master = a

theorem Keyed.holds_unique (hk : r.Keyed) {b : String} (ha : r.Holds idx a) (hb : r.Holds idx b) :
    a = b := by
  obtain ⟨row, hrow, hne, hidx, rfl⟩ := ha
  obtain ⟨row', hrow', -, hidx', rfl⟩ := hb
  obtain ⟨x, hx⟩ := exists_mem_of_ne_nil _ hne
  have hmembers : row.members = row'.members := some.inj (hidx.symm.trans hidx')
  rw [eq_of_mem_members hk.disjoint hrow hrow' hx (hmembers ▸ hx)]

theorem Keyed.holds_of_leaseRow (hk : r.Keyed) (hd : r.DisjointPairs) {p : List String}
    {row : LeaseRow} (hidx : r.pairs[idx]? = some p) (ha : a ∈ p)
    (hrow : leaseRow r.leases a = some row) : r.Holds idx row.master := by
  obtain ⟨hmem, har⟩ := leaseRow_eq_some hrow
  have hmembers : row.members = p := hk.members_eq hd hmem (mem_of_getElem? hidx) har ha
  exact ⟨row, hmem, ne_nil_of_mem har, hidx.trans (congrArg some hmembers.symm), rfl⟩

namespace Holds

variable (h : r.Holds idx a)
include h

theorem addPair (nodes : List String) : (r.apply (.addPair nodes)).Holds idx a := by
  obtain ⟨row, hrow, hne, hidx, hmaster⟩ := h
  rw [apply]
  split
  · exact ⟨row, hrow, hne, hidx, hmaster⟩
  · refine ⟨row, hrow, hne, ?_, hmaster⟩
    exact (List.getElem?_append_left (List.getElem?_eq_some_iff.mp hidx).1).trans hidx

theorem setPair (hk : r.Keyed) (hd : r.DisjointPairs) (j : ℕ)
    {nodes : List String} (hnodes : nodes ≠ []) : (r.apply (.setPair j nodes)).Holds idx a := by
  obtain ⟨row, hrow, hne, hidx, hmaster⟩ := h
  rw [apply]
  cases hold : r.pairs[j]? with
  | none => exact ⟨row, hrow, hne, hidx, hmaster⟩
  | some old =>
    by_cases hj : j = idx
    · subst hj
      obtain rfl : old = row.members := some.inj (hold.symm.trans hidx)
      have hset : (r.pairs.set j nodes)[j]? = some nodes :=
        List.getElem?_set_self (List.getElem?_eq_some_iff.mp hold).1
      have hfound : ∃ m, row.members.find? (fun m => (leaseRow r.leases m).isSome) = some m := by
        obtain ⟨x, hx⟩ := exists_mem_of_ne_nil _ hne
        refine isSome_iff_exists.mp (find?_isSome.mpr ⟨x, hx, ?_⟩)
        rw [leaseRow_of_mem hk.disjoint hrow hx]
        rfl
      obtain ⟨m, hm⟩ := hfound
      refine ⟨{ row with members := nodes }, ?_, hnodes, hset, hmaster⟩
      simp only [repointLeaseRow, hm]
      rw [modifyLeaseRow_eq_map hk.disjoint]
      exact mem_map.mpr ⟨row, hrow, if_pos (mem_of_find?_eq_some hm)⟩
    have hapart : NoCommon old row.members := hd.noCommon hold hidx hj
    refine ⟨row, ?_, hne, (getElem?_set_ne hj).trans hidx, hmaster⟩
    change row ∈ repointLeaseRow r.leases old nodes
    rw [repointLeaseRow]
    split
    · rename_i m hm
      rw [modifyLeaseRow_eq_map hk.disjoint]
      exact mem_map.mpr ⟨row, hrow, if_neg (hapart m (mem_of_find?_eq_some hm))⟩
    · exact hrow

theorem fence (hk : r.Keyed) {addr : String}
    (hother : ∀ p, r.pairs[idx]? = some p → addr ∉ p) : (r.apply (.fence addr)).Holds idx a := by
  obtain ⟨row, hrow, hne, hidx, hmaster⟩ := h
  have hpairs := pairs_fence r addr
  refine ⟨row, ?_, hne, hpairs ▸ hidx, hmaster⟩
  rw [apply]
  split
  · exact hrow
  split
  · rw [modifyLeaseRow_eq_map hk.disjoint]
    exact mem_map.mpr ⟨row, hrow, if_neg (hother _ hidx)⟩
  · exact mem_append_left _ hrow

theorem leaseAdopt (addr : String) : (r.apply (.leaseAdopt addr)).Holds idx a := by
  obtain ⟨row, hrow, hne, hidx, hmaster⟩ := h
  have hpairs := pairs_leaseAdopt r addr
  refine ⟨row, ?_, hne, hpairs ▸ hidx, hmaster⟩
  rw [apply]
  split
  · exact hrow
  · split
    · exact mem_append_left _ hrow
    · exact hrow

end Holds

end Registry

/-! ## Memory, mirror and disk agree -/

open CpServer

namespace CpServer

variable {s : CpServer}

/-- **What every command maintains** in a run in which only adoptions fail. -/
structure Settled (s : CpServer) : Prop where
  disk : s.disk = s.state
  mirror : s.mirror = s.state.leases
  disjoint : s.state.DisjointPairs
  keyed : s.state.Keyed

namespace Settled

theorem sound (hs : s.Settled) : s.Sound where
  pairs := by rw [hs.disk]
  disjoint := hs.disjoint
  state := hs.keyed
  disk := hs.disk ▸ hs.keyed
  mirror := by rw [hs.mirror]; exact hs.keyed
  published := by rw [hs.mirror, hs.disk]; exact .refl _
  persisted := by rw [hs.disk]; exact .refl _

theorem restart_eq (hs : s.Settled) : s.restart = s := by
  rcases s with ⟨state, disk, mirror⟩
  obtain rfl : disk = state := hs.disk
  obtain rfl : mirror = disk.leases := hs.mirror
  rfl

theorem commit (hs : s.Settled) {m : Mutation} (hd : (s.state.apply m).DisjointPairs) :
    Settled ⟨s.state.apply m, s.state.apply m, (s.state.apply m).leases⟩ :=
  ⟨rfl, rfl, hd, hs.keyed.apply hs.disjoint m hd⟩

end Settled

def Stands : LeaseEvent → Mutation → Prop
  | .addPair raw _, .addPair nodes => canonicalMembers raw = some nodes
  | .setPair idx raw _, .setPair j nodes => j = idx ∧ canonicalMembers raw = some nodes
  | .lease addr _, .leaseAdopt a => a = addr
  | .fence addr _, .fence a => a = addr
  | _, _ => False

namespace Settled

variable (hs : s.Settled) {e : LeaseEvent} (hp : s.EditsPersist e)
include hs hp

theorem handle_cases : (s.handle e).1 = s ∨ ∃ m, Stands e m ∧
      (s.handle e).1 = ⟨s.state.apply m, s.state.apply m, (s.state.apply m).leases⟩ := by
  obtain ⟨-, hpersists⟩ := hp
  cases e with
  | addPair raw persists =>
    rw [handle, addPair]
    cases hraw : canonicalMembers raw with
    | none => exact .inl rfl
    | some nodes =>
      by_cases hmem : nodes ∈ s.state.pairs
      · exact .inl (by simp [hmem])
      · obtain rfl : persists := hpersists (by simp [edits, hraw, hmem])
        refine .inr ⟨.addPair nodes, hraw, ?_⟩
        simp [hmem, hs.mirror, apply]
  | setPair idx raw persists =>
    rw [handle, setPair]
    cases hraw : canonicalMembers raw with
    | none => exact .inl rfl
    | some nodes =>
      by_cases hidx : s.state.pairs.length ≤ idx
      · exact .inl (by simp [hidx])
      · obtain rfl : persists := hpersists (by simpa [edits, hraw] using hidx)
        exact .inr ⟨.setPair idx nodes, ⟨rfl, hraw⟩, by simp [hidx]⟩
  | lease addr persists =>
    rw [handle, cplease]
    cases hread : s.readLease addr with
    | some r => exact .inl rfl
    | none =>
      rw [adoptLease]
      by_cases hm : s.state.pairs.any (addr ∈ ·)
      · have hrow : leaseRow s.state.leases addr = none := by
          rw [readLease, hs.mirror] at hread
          exact map_eq_none_iff.mp hread
        cases persists with
        | true => exact .inr ⟨.leaseAdopt addr, rfl, by simp [hm, hrow]⟩
        | false =>
          left
          have hback := dropLast_leaseAdopt hm hrow
          simp only [hm, hrow, Bool.not_true, Bool.false_eq_true, if_false, hback]
      · exact .inl (by simp [hm])
  | fence addr persists =>
    rw [handle, cpfence, fence]
    by_cases hm : s.state.pairs.any (addr ∈ ·)
    · obtain rfl : persists := hpersists (by simpa [edits] using hm)
      obtain ⟨p, hp⟩ := exists_pairOf hm
      obtain ⟨row, hrow, -⟩ := hs.keyed.leaseRow_fence hs.disjoint hp
      exact .inr ⟨.fence addr, rfl, by simp [hm, hrow]⟩
    · exact .inl (by simp [hm])
  | restart => exact .inl hs.restart_eq

theorem handle : (s.handle e).1.Settled := by
  rcases hs.handle_cases hp with heq | ⟨m, -, heq⟩
  · exact heq.symm ▸ hs
  · have hd := hp.1
    rw [heq] at hd ⊢
    exact hs.commit hd

theorem holds_handle (hf : ¬ s.Fences idx e) (h : s.state.Holds idx a) :
    (s.handle e).1.state.Holds idx a := by
  rcases hs.handle_cases hp with heq | ⟨m, hm, heq⟩
  · rw [heq]
    exact h
  rw [heq]
  match e, m, hm with
  | .addPair raw _, .addPair nodes, _ => exact h.addPair nodes
  | .setPair j raw _, .setPair _ nodes, ⟨rfl, hraw⟩ =>
    exact h.setPair hs.keyed hs.disjoint _ (ne_nil_of_canonicalMembers hraw)
  | .lease addr _, .leaseAdopt _, rfl => exact h.leaseAdopt _
  | .fence addr persists, .fence _, rfl =>
    refine h.fence hs.keyed fun p hidx ha => hf ⟨⟨p, hidx, ha⟩, ?_⟩
    have hmem : s.state.pairs.any (addr ∈ ·) :=
      any_eq_true.mpr ⟨p, mem_of_getElem? hidx, decide_eq_true ha⟩
    obtain rfl : persists := hp.2 (by simpa [edits] using hmem)
    obtain ⟨q, hq⟩ := exists_pairOf hmem
    obtain ⟨row, hrow, -⟩ := hs.keyed.leaseRow_fence hs.disjoint hq
    rw [cpfence, fence]
    simp [hmem, hrow, CpReply.success]

end Settled

theorem Settled.holds_of_ok (hs : s.Settled) {persists : Bool}
    (hok : (s.cplease a persists).2 = .ok) (ha : s.InPair idx a) :
    (s.cplease a persists).1.state.Holds idx a := by
  obtain ⟨p, hidx, hap⟩ := ha
  rw [cplease] at hok ⊢
  cases hread : s.readLease a with
  | some r =>
    rw [hread] at hok
    rw [readLease, hs.mirror] at hread
    obtain ⟨row, hrow, hr⟩ := map_eq_some_iff.mp hread
    have hmaster : row.master = a := by
      by_contra hne
      rw [if_neg hne] at hr
      subst hr
      cases hok
    exact hmaster ▸ hs.keyed.holds_of_leaseRow hs.disjoint hidx hap hrow
  | none =>
    have hm : s.state.pairs.any (a ∈ ·) :=
      any_eq_true.mpr ⟨p, mem_of_getElem? hidx, decide_eq_true hap⟩
    have hrow : leaseRow s.state.leases a = none := by
      rw [readLease, hs.mirror] at hread
      exact map_eq_none_iff.mp hread
    obtain ⟨q, hq⟩ := exists_pairOf hm
    obtain ⟨hqm, hqa⟩ := pairOf_eq_some hq
    obtain rfl : q = p := hs.disjoint.eq_of_mem hqm (mem_of_getElem? hidx) hqa hap
    cases persists with
    | true =>
      refine ⟨⟨q, a, 0⟩, ?_, ne_nil_of_mem hap, ?_, rfl⟩ <;>
        simp [adoptLease, hm, hrow, apply, hq, hidx]
    | false => simp [hread, adoptLease, hm, hrow] at hok

theorem Settled.pairs_cplease (hs : s.Settled) (a : String) (persists : Bool) :
    (s.cplease a persists).1.state.pairs = s.state.pairs := by
  rw [cplease]
  split
  · rfl
  · obtain ⟨-, -, hpairs⟩ := hs.sound.adoptLease a persists
    split <;> rename_i heq <;> rw [heq] at hpairs <;> exact hpairs

theorem settled_of_reach (h : leaseMachine.Reach EditsPersist s) : s.Settled := by
  refine h.invariant ?_ ?_
  · rintro s rfl
    exact ⟨rfl, rfl, nil, ⟨nofun, nil⟩⟩
  · intro s e s' _ hs hp hstep
    cases hstep
    exact hs.handle hp

theorem Settled.holds_exec (hs : s.Settled) (h : s.state.Holds idx a) {es : List LeaseEvent}
    (hg : leaseMachine.Guarded (fun s e => s.EditsPersist e ∧ ¬ s.Fences idx e) s es)
    {s' : CpServer} (hrun : leaseMachine.exec s es = some s') :
    s'.Settled ∧ s'.state.Holds idx a := by
  induction es generalizing s with
  | nil =>
    cases hrun
    exact ⟨hs, h⟩
  | cons e es ih =>
    obtain ⟨⟨hp, hf⟩, hrest⟩ := hg
    exact ih (hs.handle hp) (hs.holds_handle hp hf h) hrest hrun

/-- **The lease table.**  Where only adoptions fail to persist: memory, mirror and disk hold the
same rows after every command; a restarted server answers as the one that was not; and two members
told that they hold a pair's lease, with no fence of it in between, are the same. -/
theorem lease_table_sound (h : leaseMachine.Reach EditsPersist s) :
    (s.state.leases = s.disk.leases ∧ s.mirror = s.disk.leases) ∧
    (∀ es, s.restart.answers es = s.answers es) ∧
    ∀ idx a b persists persists' es s', (s.cplease a persists).2 = .ok → s.InPair idx a →
      leaseMachine.Guarded (fun s e => s.EditsPersist e ∧ ¬ s.Fences idx e)
        (s.cplease a persists).1 es →
      leaseMachine.exec (s.cplease a persists).1 es = some s' →
      (s'.cplease b persists').2 = .ok → s'.InPair idx b → b = a := by
  have hs := settled_of_reach h
  refine ⟨⟨by rw [hs.disk], by rw [hs.disk, hs.mirror]⟩, fun es => by rw [hs.restart_eq], ?_⟩
  intro idx a b persists persists' es s' hok ha hg hrun hok' hb
  have hkept : ∀ {t : CpServer} {x : String} {q : Bool}, t.Settled →
      t.EditsPersist (.lease x q) := by
    intro t x q ht
    refine ⟨?_, fun hedit => absurd hedit Bool.false_ne_true⟩
    rw [Registry.DisjointPairs, handle, ht.pairs_cplease]
    exact ht.disjoint
  obtain ⟨hs', hheld⟩ := (hs.handle (hkept hs)).holds_exec (hs.holds_of_ok hok ha) hg hrun
  have hheld' := hs'.holds_handle (hkept hs') (e := .lease b persists') id hheld
  exact (hs'.handle (hkept hs')).keyed.holds_unique (hs'.holds_of_ok hok' hb) hheld'

theorem lease_table_sound_node_swap :
    ∃ s, leaseMachine.Reach EditsPersist s ∧ (s.cplease "a:1" true).2 = .ok ∧ s.InPair 0 "a:1" ∧
      (s.state.leases = s.disk.leases ∧ s.mirror = s.disk.leases) ∧
      (∀ es, s.restart.answers es = s.answers es) ∧
      ∀ idx a b persists persists' es s', (s.cplease a persists).2 = .ok → s.InPair idx a →
        leaseMachine.Guarded (fun s e => s.EditsPersist e ∧ ¬ s.Fences idx e)
          (s.cplease a persists).1 es →
        leaseMachine.exec (s.cplease a persists).1 es = some s' →
        (s'.cplease b persists').2 = .ok → s'.InPair idx b → b = a := by
  let es : List LeaseEvent :=
    [.addPair "b:1,a:1" true, .lease "a:1" false, .setPair 0 "a:1,c:1" true]
  have hguard : leaseMachine.Guarded EditsPersist ⟨⟨[], []⟩, ⟨[], []⟩, []⟩ es := by
    refine ⟨⟨?_, fun _ => rfl⟩, ⟨?_, nofun⟩, ⟨?_, fun _ => rfl⟩, trivial⟩ <;>
      exact pairwise_singleton _ _
  have hreach := Machine.Reach.of_exec (.init rfl) hguard rfl
  exact ⟨_, hreach, by decide +kernel, ⟨["a:1", "c:1"], by decide +kernel, by decide⟩,
    lease_table_sound hreach⟩

/-! ## A fence that could not be persisted -/

def failedFence : List LeaseEvent :=
  [.addPair "a:1,b:1" true, .lease "a:1" true, .fence "b:1" false]

/-- **No fence succeeded, and both members hold the lease**: the refused fence is published by the
next repointing.  After a registration the mirror and the disk disagree, and a restart answers the
next renewal differently. -/
theorem two_masters_after_failed_fence :
    let s : CpServer := ⟨⟨[], []⟩, ⟨[], []⟩, []⟩
    s.answers (failedFence ++ [.setPair 0 "a:1,b:1" true, .lease "b:1" true]) =
      [.ok, .ok, .err "ERR persist", .ok, .ok] ∧
    s.answers (failedFence ++ [.addPair "c:1,d:1" true, .lease "a:1" true]) =
      [.ok, .ok, .err "ERR persist", .ok, .ok] ∧
    s.answers (failedFence ++ [.addPair "c:1,d:1" true, .restart, .lease "a:1" true]) =
      [.ok, .ok, .err "ERR persist", .ok, .ok, .superseded "b:1"] ∧
    ((leaseMachine.exec s (failedFence ++ [.addPair "c:1,d:1" true])).map fun s' =>
      (s'.mirror, s'.disk.leases)) =
      some ([⟨["a:1", "b:1"], "a:1", 0⟩], [⟨["a:1", "b:1"], "b:1", 1⟩]) := by
  decide +kernel

end CpServer

end

end Flint
