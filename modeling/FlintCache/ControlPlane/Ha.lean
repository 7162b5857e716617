import FlintCache.ControlPlane.Server

/-!
# ControlPlane/Ha — lease answers of the replicated control plane

Every node has applied a prefix of one committed log of mutations.  A renewal (`CPLEASE`) is
answered by the node that believes it leads, from the rows it has applied.  An `OK` to a member
**defies** a committed fence of another if no later mutation touched the pair's lease.
-/

namespace Flint

section

open List Option Nat Machine.Reach List.Pairwise
open Registry

/-! ## Nodes, renewals in progress, and answers -/

/-- A member: how much of the log it has applied, and whom it takes for the leader. -/
structure CpNode where
  applied : ℕ
  leader : Option ℕ

/-- Where a renewal is: its reply settled, or an adoption proposed, or that adoption committed. -/
inductive LeasePhase
  | reply (r : LeaseReply)
  | proposing
  | committed (index : ℕ)
  deriving DecidableEq, Repr

/-- A renewal in progress at a node, and the length of the log its rows were read from. -/
structure LeaseCall where
  node : ℕ
  addr : String
  readAt : ℕ
  phase : LeasePhase
  deriving DecidableEq, Repr

def LeaseCall.grants (c : LeaseCall) : Bool :=
  match c.phase with
  | .reply r => r = .ok
  | .proposing => true
  | .committed _ => true

/-- An `OK` that was sent, and the length of the committed log at that moment. -/
structure OkAnswer where
  addr : String
  sentAt : ℕ
  deriving DecidableEq, Repr

/-- The committed log, the members, the renewals in progress and those answered `OK`. -/
structure Ha where
  log : List Mutation
  nodes : ℕ → CpNode
  calls : List LeaseCall
  oks : List OkAnswer

/-- What may happen among the members. -/
inductive HaEvent
  | believe (n : ℕ) (leader : Option ℕ)
  | commit (m : Mutation)
  | apply (n : ℕ)
  | lease (n : ℕ) (addr : String)
  | commitAdopt (k : ℕ)
  | rejectAdopt (k : ℕ)
  | answer (k : ℕ)
  deriving DecidableEq, Repr

namespace Ha

/-- A renewal at a node: redirected unless it believes it leads, else decided by its registry. -/
def openLease (s : Ha) (n : ℕ) (addr : String) : LeaseCall :=
  let node := s.nodes n
  if node.leader ≠ some n then ⟨n, addr, node.applied, .reply (.redirect node.leader)⟩
  else
    match (replay (s.log.take node.applied)).lease addr with
    | some r => ⟨n, addr, node.applied, .reply r⟩
    | none => ⟨n, addr, node.applied, .proposing⟩

def step (s : Ha) : HaEvent → Option Ha
  | .believe n leader =>
    some { s with nodes := Function.update s.nodes n { s.nodes n with leader } }
  | .commit m => some { s with log := s.log ++ [m] }
  | .apply n =>
    if (s.nodes n).applied < s.log.length then
      some { s with nodes :=
        Function.update s.nodes n { s.nodes n with applied := (s.nodes n).applied + 1 } }
    else none
  | .lease n addr => some { s with calls := s.calls ++ [s.openLease n addr] }
  | .commitAdopt k =>
    match s.calls[k]? with
    | some ⟨n, addr, readAt, .proposing⟩ =>
      some { s with
        log := s.log ++ [.leaseAdopt addr]
        calls := s.calls.set k ⟨n, addr, readAt, .committed s.log.length⟩ }
    | _ => none
  | .rejectAdopt k =>
    match s.calls[k]? with
    | some ⟨n, addr, readAt, .proposing⟩ =>
      some { s with calls := s.calls.set k ⟨n, addr, readAt, .reply (.redirect none)⟩ }
    | _ => none
  | .answer k =>
    match s.calls[k]? with
    | some ⟨_, addr, _, .reply r⟩ =>
      some { s with
        calls := s.calls.eraseIdx k
        oks := if r = .ok then s.oks ++ [⟨addr, s.log.length⟩] else s.oks }
    | some ⟨n, addr, _, .committed index⟩ =>
      -- a proposal returns once its entry is applied here, whatever the entry did
      if index < (s.nodes n).applied then
        some { s with
          calls := s.calls.eraseIdx k
          oks := s.oks ++ [⟨addr, s.log.length⟩] }
      else none
    | _ => none

end Ha

def haMachine : Machine Ha HaEvent where
  init s := s.log = [] ∧ s.calls = [] ∧ s.oks = [] ∧ ∀ n, (s.nodes n).applied = 0
  step := Ha.step

/-! ## Defying a fence -/

/-- A fence of `m` supersedes `addr`: both are members of the pair the fence resolves to. -/
def Registry.Supersedes (r : Registry) (m addr : String) : Prop :=
  addr ≠ m ∧ (r.pairOf m).any (addr ∈ ·)

instance (r : Registry) (m addr : String) : Decidable (r.Supersedes m addr) :=
  inferInstanceAs (Decidable (_ ∧ _))

def Mutation.fenced : Mutation → Option String
  | fence m => some m
  | _ => none

/-- **An `OK` that defies a committed fence** of another member, the lease untouched since. -/
def Defies (log : List Mutation) (ok : OkAnswer) : Prop :=
  ∃ i m, log[i]? = some (.fence m) ∧ i < ok.sentAt ∧
    (replay (log.take i)).Supersedes m ok.addr ∧
    ∀ j ≤ ok.sentAt, i < j →
      leaseRow (replay (log.take j)).leases m = leaseRow (replay (log.take (i + 1))).leases m

/-- **Fences are seen.**  Commits leave the registered pairs disjoint, and a renewal answered `OK`
was read from a registry with every fence committed by then that supersedes its caller. -/
def Ha.FencesSeen (s : Ha) : HaEvent → Prop
  | .commit m => (replay (s.log ++ [m])).DisjointPairs
  | .answer k => ∀ c ∈ s.calls[k]?, c.grants → ∀ j < s.log.length, c.readAt ≤ j →
      ∀ m ∈ s.log[j]?.bind Mutation.fenced, ¬ (replay (s.log.take j)).Supersedes m c.addr
  | _ => True

instance (s : Ha) (e : HaEvent) : Decidable (s.FencesSeen e) :=
  match e with
  | .commit _ => inferInstanceAs (Decidable (DisjointPairs _))
  | .answer k => inferInstanceAs (Decidable (∀ c ∈ s.calls[k]?, _))
  | .believe _ _ | .apply _ | .lease _ _ | .commitAdopt _ | .rejectAdopt _ =>
    inferInstanceAs (Decidable True)

/-! ## The invariant -/

def Registry.Unopposed (r : Registry) (addr : String) : Prop :=
  ∀ row, leaseRow r.leases addr = some row → row.master = addr

/-- **What every run maintains**: rows stay unambiguous, a renewal about to be granted was unopposed
where it was read, and no `OK` defied a fence. -/
structure Ha.Inv (s : Ha) : Prop where
  keyed : ∀ j, (replay (s.log.take j)).Keyed ∧ (replay (s.log.take j)).DisjointPairs
  applied : ∀ n, (s.nodes n).applied ≤ s.log.length
  readAt : ∀ c ∈ s.calls, c.readAt ≤ s.log.length
  unopposed : ∀ c ∈ s.calls, c.grants → (replay (s.log.take c.readAt)).Unopposed c.addr
  sentAt : ∀ ok ∈ s.oks, ok.sentAt ≤ s.log.length
  obeys : ∀ ok ∈ s.oks, ¬ Defies s.log ok

theorem Registry.replay_append (log : List Mutation) (m : Mutation) :
    replay (log ++ [m]) = (replay log).apply m := by
  rw [replay, foldl_append]
  rfl

variable {log : List Mutation}

theorem Registry.replay_take_succ {i : ℕ} {m : Mutation}
    (h : log[i]? = some m) : replay (log.take (i + 1)) = (replay (log.take i)).apply m := by
  rw [take_add_one, h, toList_some, replay_append]

theorem defies_append {ok : OkAnswer} (h : ok.sentAt ≤ log.length)
    (m : Mutation) : Defies (log ++ [m]) ok ↔ Defies log ok := by
  have htake : ∀ j ≤ ok.sentAt, (log ++ [m]).take j = log.take j := fun j hj =>
    take_append_of_le_length (hj.trans h)
  refine exists_congr fun i => exists_congr fun f => ?_
  constructor
  · rintro ⟨hi, hlt, hsup, hsame⟩
    rw [htake i hlt.le] at hsup
    refine ⟨?_, hlt, hsup, fun j hj hij => ?_⟩
    · rwa [getElem?_append_left (hlt.trans_le h)] at hi
    · have := hsame j hj hij
      rwa [htake j hj, htake (i + 1) hlt] at this
  rintro ⟨hi, hlt, hsup, hsame⟩
  refine ⟨?_, hlt, ?_, fun j hj hij => ?_⟩
  · rwa [getElem?_append_left (hlt.trans_le h)]
  · rwa [htake i hlt.le]
  · rw [htake j hj, htake (i + 1) hlt]
    exact hsame j hj hij

open Ha LeaseCall

namespace Ha.Inv

variable {s : Ha}

section

variable (hs : s.Inv)
include hs

/-- **A granted renewal that has seen the fences defies none**: the row named another. -/
theorem not_defies {c : LeaseCall} (hc : c ∈ s.calls) (hg : c.grants)
    (hseen : ∀ j < s.log.length, c.readAt ≤ j → ∀ m ∈ s.log[j]?.bind Mutation.fenced,
      ¬ (replay (s.log.take j)).Supersedes m c.addr) : ¬ Defies s.log ⟨c.addr, s.log.length⟩ := by
  rintro ⟨i, m, hi, hlt, hsup, hsame⟩
  have hread : i < c.readAt := by
    by_contra hle
    exact hseen i hlt (Nat.not_lt.mp hle) m (by rw [hi]; rfl) hsup
  obtain ⟨hne, hany⟩ := hsup
  obtain ⟨p, hp, hap⟩ : ∃ p, (replay (s.log.take i)).pairOf m = some p ∧ c.addr ∈ p := by
    simpa [Option.any_eq_true] using hany
  obtain ⟨row, hrow, rfl, hmaster⟩ := (hs.keyed i).1.leaseRow_fence (hs.keyed i).2 hp
  rw [← replay_take_succ hi, ← hsame c.readAt (hs.readAt c hc) hread] at hrow
  have hcaller : leaseRow (replay (s.log.take c.readAt)).leases c.addr = some row :=
    leaseRow_of_mem (hs.keyed c.readAt).1.disjoint (leaseRow_eq_some hrow).1 hap
  exact hne ((hs.unopposed c hc hg row hcaller).symm.trans hmaster)

theorem commit {m : Mutation} (hd : (replay (s.log ++ [m])).DisjointPairs) :
    Inv { s with log := s.log ++ [m] } := by
  have hlen : s.log.length ≤ (s.log ++ [m]).length := by simp
  have hfull : s.log.take s.log.length = s.log := take_length
  refine ⟨fun j => ?_, fun n => (hs.applied n).trans hlen,
    fun c hc => (hs.readAt c hc).trans hlen, fun c hc hg => ?_,
    fun ok hok => (hs.sentAt ok hok).trans hlen, fun ok hok => ?_⟩
  · rcases lt_or_ge s.log.length j with hj | hj
    · have hkeyed := hs.keyed s.log.length
      rw [hfull] at hkeyed
      rw [take_of_length_le (by simp; omega)]
      refine ⟨?_, hd⟩
      rw [replay_append] at hd ⊢
      exact hkeyed.1.apply hkeyed.2 m hd
    · rw [take_append_of_le_length hj]
      exact hs.keyed j
  · change (replay ((s.log ++ [m]).take c.readAt)).Unopposed c.addr
    rw [take_append_of_le_length (hs.readAt c hc)]
    exact hs.unopposed c hc hg
  · rw [defies_append (hs.sentAt ok hok)]
    exact hs.obeys ok hok

theorem setCall (k : ℕ) {c c' : LeaseCall} (hc : c ∈ s.calls)
    (hread : c'.readAt = c.readAt) (haddr : c'.addr = c.addr) (hg : c'.grants → c.grants) :
    Inv { s with calls := s.calls.set k c' } := by
  refine { hs with readAt := fun d hd => ?_, unopposed := fun d hd hgd => ?_ }
  · rcases mem_or_eq_of_mem_set hd with hd | rfl
    · exact hs.readAt d hd
    · exact hread ▸ hs.readAt c hc
  rcases mem_or_eq_of_mem_set hd with hd | rfl
  · exact hs.unopposed d hd hgd
  · rw [hread, haddr]
    exact hs.unopposed c hc (hg hgd)

theorem answered (k : ℕ) {oks : List OkAnswer}
    (hoks : ∀ ok ∈ oks, ok ∈ s.oks ∨ ok.sentAt ≤ s.log.length ∧ ¬ Defies s.log ok) :
    Inv { s with calls := s.calls.eraseIdx k, oks := oks } := by
  refine ⟨hs.keyed, hs.applied, fun d hd => hs.readAt d (mem_of_mem_eraseIdx hd),
    fun d hd => hs.unopposed d (mem_of_mem_eraseIdx hd), fun ok hok => ?_, fun ok hok => ?_⟩
  · exact (hoks ok hok).elim (hs.sentAt ok) And.left
  · exact (hoks ok hok).elim (hs.obeys ok) And.right

theorem openLease (n : ℕ) (addr : String) :
    Inv { s with calls := s.calls ++ [s.openLease n addr] } := by
  have hread : (s.openLease n addr).readAt = (s.nodes n).applied ∧
      (s.openLease n addr).addr = addr := by
    rw [Ha.openLease]
    split
    · exact ⟨rfl, rfl⟩
    · split <;> exact ⟨rfl, rfl⟩
  have hgrant : (s.openLease n addr).grants →
      (replay (s.log.take (s.nodes n).applied)).Unopposed addr := by
    intro hg row hrow
    rw [Ha.openLease] at hg
    split at hg
    · simp [grants] at hg
    · simp only [Registry.lease, hrow] at hg
      by_contra hne
      simp [grants, hne] at hg
  refine { hs with readAt := fun c hc => ?_, unopposed := fun c hc hg => ?_ }
  · refine of_mem_snoc hc (hs.readAt c) ?_
    rw [hread.1]
    exact hs.applied n
  rcases mem_append.mp hc with hc | hc
  · exact hs.unopposed c hc hg
  · obtain rfl := mem_singleton.mp hc
    rw [hread.1, hread.2]
    exact hgrant hg

theorem step {e : HaEvent} {s' : Ha} (hok : s.FencesSeen e) (h : s.step e = some s') : s'.Inv := by
  cases e with
  | believe n leader =>
    cases h
    refine { hs with applied := ?_ }
    exact (Function.forall_update_iff s.nodes fun _ c => c.applied ≤ s.log.length).mpr
      ⟨hs.applied n, fun k _ => hs.applied k⟩
  | commit m =>
    cases h
    exact hs.commit hok
  | apply n =>
    obtain ⟨hlt, ⟨⟩⟩ := ite_none_right_eq_some.mp h
    refine { hs with applied := ?_ }
    exact (Function.forall_update_iff s.nodes fun _ c => c.applied ≤ s.log.length).mpr
      ⟨succ_le_of_lt hlt, fun k _ => hs.applied k⟩
  | lease n addr =>
    cases h
    exact hs.openLease n addr
  | commitAdopt k =>
    rw [Ha.step] at h
    split at h
    · rename_i n addr readAt hk
      cases h
      have hd : (replay (s.log ++ [.leaseAdopt addr])).DisjointPairs := by
        have hfull := (hs.keyed s.log.length).2
        rw [take_length] at hfull
        rwa [replay_append, DisjointPairs, pairs_leaseAdopt]
      exact (hs.commit hd).setCall k (mem_of_getElem? hk) rfl rfl fun _ => rfl
    · cases h
  | rejectAdopt k =>
    rw [Ha.step] at h
    split at h
    · rename_i n addr readAt hk
      cases h
      exact hs.setCall k (mem_of_getElem? hk) rfl rfl fun _ => rfl
    · cases h
  | answer k =>
    rw [Ha.step] at h
    split at h
    · rename_i n addr readAt r hk
      cases h
      refine hs.answered k fun ok hmem => ?_
      split at hmem
      · next hr =>
        have hg : grants ⟨n, addr, readAt, .reply r⟩ := by simp [grants, hr]
        exact of_mem_snoc hmem .inl
          (.inr ⟨le_rfl, hs.not_defies (mem_of_getElem? hk) hg (hok _ hk hg)⟩)
      · exact .inl hmem
    · rename_i n addr readAt index hk
      obtain ⟨-, ⟨⟩⟩ := ite_none_right_eq_some.mp h
      exact hs.answered k fun ok hmem => of_mem_snoc hmem .inl
        (.inr ⟨le_rfl, hs.not_defies (mem_of_getElem? hk) rfl (hok _ hk rfl)⟩)
    · cases h

end

end Ha.Inv

/-- **Leases respect committed fences.**  In every run in which fences are seen, whoever believes to
lead and whatever the delays, no `OK` to a renewal defies a committed fence. -/
theorem Ha.oks_respect_fences {s : Ha} (h : haMachine.Reach Ha.FencesSeen s) :
    ∀ ok ∈ s.oks, ¬ Defies s.log ok := by
  have hs : s.Inv := by
    refine invariant ?_ (fun _ _ _ _ hs hok hst => hs.step hok hst) h
    rintro t ⟨hlog, hcalls, hoks, happ⟩
    have hempty : ∀ j, replay (t.log.take j) = ⟨[], []⟩ := by simp [hlog, replay]
    refine ⟨fun j => ?_, fun n => (happ n).trans_le (zero_le _), by simp [hcalls],
      by simp [hcalls], by simp [hoks], by simp [hoks]⟩
    rw [hempty]
    exact ⟨⟨by simp, nil⟩, nil⟩
  exact hs.obeys

theorem Ha.oks_respect_fences_after_failover :
    let start : Ha := ⟨[], fun _ => ⟨0, some 0⟩, [], []⟩
    let run : List HaEvent := [.commit (.addPair ["a", "b"]), .commit (.leaseAdopt "a"),
      .commit (.fence "b"), .apply 0, .apply 0, .apply 0, .lease 0 "a", .lease 0 "b", .answer 0,
      .answer 0]
    ∃ s, haMachine.exec start run = some s ∧ s.oks = [⟨"b", 3⟩] ∧
      ∀ ok ∈ s.oks, ¬ Defies s.log ok := by
  intro start run
  have hguard : haMachine.Guarded Ha.FencesSeen start run := by decide
  refine ⟨_, rfl, by decide, oks_respect_fences ?_⟩
  exact of_exec (.init ⟨rfl, rfl, rfl, fun _ => rfl⟩) hguard rfl

/-- **A deposed leader defies a fence.**  Node `0` still believes it leads when `b`'s fence is
committed without it; it renews `a`. -/
theorem Ha.defies_stale_leader :
    let start : Ha := ⟨[], fun _ => ⟨0, some 0⟩, [], []⟩
    let run : List HaEvent := [.commit (.addPair ["a", "b"]), .commit (.leaseAdopt "a"),
      .apply 0, .apply 0, .believe 1 (some 1), .commit (.fence "b"), .lease 0 "a", .answer 0]
    ∃ s, haMachine.exec start run = some s ∧ haMachine.Reachable s ∧
      ∃ ok ∈ s.oks, Defies s.log ok := by
  intro start run
  have hrun : haMachine.exec start run = some _ := rfl
  refine ⟨_, rfl, Machine.reachable_of_exec _ ⟨rfl, rfl, rfl, fun _ => rfl⟩ hrun, ⟨"a", 3⟩,
      by decide,
    2, "b", by decide, by decide, by decide, by decide⟩

end

/-! ## Concurrent `CPADDTENANT`

A registration is checked against the registry the leader has applied, and proposes its mutation;
the log orders the proposals, and each is applied whatever it finds. -/

section

open List

/-! ## Registrations in flight -/

/-- A proposal: how much of the log its registry had applied, and the mutation. -/
structure Registration where
  readAt : ℕ
  name : String
  token : String
  ns : String
  subset : List String
  pair : Option ℕ
  deriving DecidableEq, Repr

namespace Registration

variable (q : Registration)

def mutation : RegistryMutation := .addTenant q.name q.token q.ns q.subset q.pair

def record : Tenant :=
  { name := q.name, token := q.token, ns := q.ns, subset := q.subset, pair := q.pair }

end Registration

structure HaTenants where
  base : RegistryState
  log : List Registration
  inFlight : List Registration
  accepted : List Registration

inductive RegistrationEvent
  /-- A command's read, at a leader that has applied this much of the log. -/
  | request (placed : Bool) (args : List String) (readAt : ℕ)
  /-- A proposal is applied, and answered `OK` unless the answer is lost. -/
  | apply (i : ℕ) (answered : Bool)
  | lose (i : ℕ)
  deriving DecidableEq, Repr

namespace HaTenants

variable (s : HaTenants)

def registryAt (n : ℕ) : RegistryState :=
  (s.log.take n).foldl (fun r q => r.apply q.mutation) s.base

def registry : RegistryState := s.log.foldl (fun r q => r.apply q.mutation) s.base

def propose (c : CpConfig) (placed : Bool) (args : List String) (readAt : ℕ) :
    Option Registration :=
  match c.readTenant "ERR invalid name/token/ns" placed args with
  | .error _ => none
  | .ok q =>
    match q.admission (s.registryAt readAt) with
    | .ok (.addTenant name token ns subset pair) => some ⟨readAt, name, token, ns, subset, pair⟩
    | _ => none

def step (c : CpConfig) : RegistrationEvent → Option HaTenants
  | .request placed args readAt =>
    if readAt ≤ s.log.length then
      some { s with inFlight := s.inFlight ++ (s.propose c placed args readAt).toList }
    else none
  | .apply i answered =>
    s.inFlight[i]?.map fun q =>
      { s with
        log := s.log ++ [q]
        inFlight := s.inFlight.eraseIdx i
        accepted := if answered then s.accepted ++ [q] else s.accepted }
  | .lose i => if i < s.inFlight.length
      then some { s with inFlight := s.inFlight.eraseIdx i } else none

end HaTenants

def DistinctDigests (ts : List Tenant) : Prop :=
  ∀ t ∈ ts, ∀ u ∈ ts, ∀ d ∈ t.digests, d ∈ u.digests → t = u

/-- The control plane, from any registry of tenants with distinct digests. -/
def registrationMachine (c : CpConfig) : Machine HaTenants RegistrationEvent where
  init s := SortedByName s.base.tenants ∧ DistinctDigests s.base.tenants ∧ s.log = [] ∧
    s.inFlight = [] ∧ s.accepted = []
  step s e := s.step c e

/-- **Nobody interferes**: no tenant of a proposal's name or digest is registered between read and
application, and the digest is not one that a tenant is being rotated away from. -/
def HaTenants.Undisturbed (c : CpConfig) (s : HaTenants) : RegistrationEvent → Prop
  | .request placed args readAt => ∀ q ∈ s.propose c placed args readAt,
      ∀ t ∈ (s.registryAt readAt).tenants, t.prevToken ≠ some q.token
  | .apply i _ => ∀ q ∈ s.inFlight[i]?, ∀ q' ∈ s.log.drop q.readAt,
      q'.name ≠ q.name ∧ q'.token ≠ q.token
  | .lose _ => True

instance (c : CpConfig) (s : HaTenants) : ∀ e, Decidable (s.Undisturbed c e)
  | .request _ _ _ => inferInstanceAs (Decidable (∀ q ∈ s.propose c _ _ _, _))
  | .apply i _ => inferInstanceAs (Decidable (∀ q ∈ s.inFlight[i]?, _))
  | .lose _ => inferInstanceAs (Decidable True)

/-! ## What a log of registrations leaves -/

variable {r : RegistryState} {q : Registration} {t : Tenant}

theorem tenants_apply_mutation (r : RegistryState) (q : Registration) :
    (r.apply q.mutation).tenants = insertTenant q.record r.tenants := rfl

theorem mem_tenants_foldl {log : List Registration}
    (h : t ∈ (log.foldl (fun r q => r.apply q.mutation) r).tenants) :
    t ∈ r.tenants ∨ ∃ q ∈ log, t = q.record := by
  induction log generalizing r with
  | nil => exact .inl h
  | cons q log ih =>
    rcases ih h with hmem | ⟨q', hq', rfl⟩
    · rw [tenants_apply_mutation] at hmem
      rcases mem_of_mem_insertTenant hmem with rfl | hmem
      · exact .inr ⟨q, mem_cons_self, rfl⟩
      · exact .inl hmem
    · exact .inr ⟨q', mem_cons_of_mem _ hq', rfl⟩

theorem DistinctDigests.insert {ts : List Tenant} (h : DistinctDigests ts)
    (hfree : ∀ u ∈ ts, q.token ∉ u.digests) : DistinctDigests (insertTenant q.record ts) := by
  intro t ht u hu d hdt hdu
  have hown : ∀ {d}, d ∈ q.record.digests → d = q.token := fun hd => by
    simpa [Registration.record, Tenant.digests] using hd
  rcases mem_of_mem_insertTenant ht with rfl | ht <;>
      rcases mem_of_mem_insertTenant hu with rfl | hu
  · rfl
  · exact absurd (hown hdt ▸ hdu) (hfree u hu)
  · exact absurd (hown hdu ▸ hdt) (hfree t ht)
  · exact h t ht u hu d hdt hdu

namespace HaTenants

variable {s : HaTenants} {c : CpConfig}

theorem registry_of_read (s : HaTenants) (n : ℕ) :
    s.registry = (s.log.drop n).foldl (fun r q => r.apply q.mutation) (s.registryAt n) := by
  rw [registryAt, ← foldl_append, take_append_drop, registry]

theorem propose_eq_some {placed : Bool} {args : List String} {n : ℕ}
    (h : s.propose c placed args n = some q) :
    q.readAt = n ∧ ∀ t ∈ (s.registryAt n).tenants, t.name ≠ q.name ∧ t.token ≠ q.token := by
  rw [propose] at h
  split at h
  · cases h
  rename_i req _
  split at h
  · rename_i name token ns subset pair hadmit
    cases h
    rw [TenantRequest.admission] at hadmit
    split at hadmit
    · cases hadmit
    rename_i hname
    split at hadmit
    · cases hadmit
    rename_i htoken
    split at hadmit
    · cases hadmit
    obtain ⟨rfl, rfl, -⟩ := RegistryMutation.addTenant.inj (Except.ok.inj hadmit)
    refine ⟨rfl, fun t ht => ⟨?_, fun heq => ?_⟩⟩
    · exact tenantNamed_eq_none.mp (by simpa using hname) t ht
    · exact htoken (any_eq_true.mpr ⟨t, ht, decide_eq_true heq⟩)
  · cases h

structure Sound (s : HaTenants) : Prop where
  sorted : SortedByName s.registry.tenants
  distinct : DistinctDigests s.registry.tenants
  accepted : ∀ q ∈ s.accepted, q.record ∈ s.registry.tenants
  /-- A proposal was checked against a registry that had neither its name nor its digest. -/
  inFlight : ∀ q ∈ s.inFlight, q.readAt ≤ s.log.length ∧
    ∀ t ∈ (s.registryAt q.readAt).tenants, t.name ≠ q.name ∧ q.token ∉ t.digests

theorem registryAt_append {n : ℕ} (h : n ≤ s.log.length) (q : Registration)
    (inFlight accepted : List Registration) :
    registryAt ⟨s.base, s.log ++ [q], inFlight, accepted⟩ n = s.registryAt n := by
  rw [registryAt, registryAt, take_append_of_le_length h]

theorem Sound.free (hs : s.Sound) (hq : q ∈ s.inFlight)
    (hlog : ∀ q' ∈ s.log.drop q.readAt, q'.name ≠ q.name ∧ q'.token ≠ q.token) :
    ∀ t ∈ s.registry.tenants, t.name ≠ q.name ∧ q.token ∉ t.digests := by
  intro t ht
  rw [s.registry_of_read q.readAt] at ht
  rcases mem_tenants_foldl ht with ht | ⟨q', hq', rfl⟩
  · exact (hs.inFlight q hq).2 t ht
  obtain ⟨hname, htoken⟩ := hlog q' hq'
  refine ⟨hname, fun hd => htoken ?_⟩
  have hd' : q.token = q'.token := by simpa [Registration.record, Tenant.digests] using hd
  exact hd'.symm

theorem Sound.apply (hs : s.Sound) {i : ℕ} (hq : s.inFlight[i]? = some q)
    (hlog : ∀ q' ∈ s.log.drop q.readAt, q'.name ≠ q.name ∧ q'.token ≠ q.token) (answered : Bool) :
    Sound ⟨s.base, s.log ++ [q], s.inFlight.eraseIdx i,
      if answered then s.accepted ++ [q] else s.accepted⟩ := by
  have hfree := hs.free (mem_of_getElem? hq) hlog
  have hreg : ∀ inFlight accepted, (registry ⟨s.base, s.log ++ [q], inFlight, accepted⟩).tenants =
      insertTenant q.record s.registry.tenants := fun _ _ => by
    rw [registry, foldl_concat]
    exact tenants_apply_mutation _ _
  refine ⟨?_, ?_, ?_, ?_⟩
  · rw [hreg]
    exact hs.sorted.insertTenant _
  · rw [hreg]
    exact hs.distinct.insert fun u hu => (hfree u hu).2
  · intro q' hq'
    rw [hreg]
    have hold : ∀ q' ∈ s.accepted, q'.record ∈ insertTenant q.record s.registry.tenants :=
      fun q' hq' => mem_insertTenant_of_ne (hs.accepted q' hq') (hfree _ (hs.accepted q' hq')).1
    cases answered with
    | false => exact hold q' hq'
    | true => exact of_mem_snoc hq' (hold q') (mem_insertTenant_self _ _)
  intro q' hq'
  obtain ⟨hle, hread⟩ := hs.inFlight q' (mem_of_mem_eraseIdx hq')
  refine ⟨?_, ?_⟩
  · simp only [length_append, length_singleton]
    exact hle.trans (Nat.le_succ _)
  · rw [registryAt_append hle]
    exact hread

theorem Sound.step (hs : s.Sound) {e : RegistrationEvent} (hok : s.Undisturbed c e) {s' : HaTenants}
    (hst : s.step c e = some s') : s'.Sound := by
  cases e with
  | request placed args readAt =>
    obtain ⟨hle, ⟨⟩⟩ := Option.ite_none_right_eq_some.mp hst
    refine { hs with inFlight := fun q hq => ?_ }
    rcases mem_append.mp hq with hq | hq
    · exact hs.inFlight q hq
    have hprop := Option.mem_toList.mp hq
    obtain ⟨rfl, hread⟩ := propose_eq_some hprop
    refine ⟨hle, fun t ht => ⟨(hread t ht).1, fun hd => ?_⟩⟩
    rcases mem_cons.mp hd with heq | hprev
    · exact (hread t ht).2 heq.symm
    · exact hok q hprop t ht (Option.mem_toList.mp hprev)
  | apply i answered =>
    obtain ⟨q, hq, rfl⟩ := Option.map_eq_some_iff.mp hst
    exact hs.apply hq (hok q hq) answered
  | lose i =>
    obtain ⟨-, ⟨⟩⟩ := Option.ite_none_right_eq_some.mp hst
    exact ⟨hs.sorted, hs.distinct, hs.accepted, fun q hq =>
      hs.inFlight q (mem_of_mem_eraseIdx hq)⟩

/-- **Registration is unique.**  Where nobody interferes, accepted records stand, one tenant a name,
and no two tenants share a digest. -/
theorem registrations_unique (h : (registrationMachine c).Reach (Undisturbed c) s) :
    (∀ q ∈ s.accepted, tenantNamed s.registry.tenants q.name = some q.record) ∧
      DistinctDigests s.registry.tenants := by
  have hs : s.Sound := by
    refine h.invariant ?_ fun s e s' _ hs hok hst => hs.step hok hst
    rintro s ⟨hsorted, hdistinct, hlog, hinFlight, haccepted⟩
    have hreg : s.registry = s.base := by rw [registry, hlog]; rfl
    refine ⟨hreg ▸ hsorted, hreg ▸ hdistinct, ?_, ?_⟩
    · simp [haccepted]
    · simp [hinFlight]
  exact ⟨fun q hq => hs.sorted.tenantNamed_of_mem (hs.accepted q hq), hs.distinct⟩

def fresh : HaTenants := ⟨{ proxies := ["p:1"] }, [], [], []⟩

theorem init_fresh (c : CpConfig) : (registrationMachine c).init fresh :=
  ⟨List.Pairwise.nil, nofun, rfl, rfl, rfl⟩

theorem registrations_unique_in_turn :
    ∃ s, (registrationMachine sampleConfig).Reach (Undisturbed sampleConfig) s ∧
      s.accepted.map Registration.name = ["acme", "zeta"] ∧
      (∀ q ∈ s.accepted, tenantNamed s.registry.tenants q.name = some q.record) ∧
      DistinctDigests s.registry.tenants := by
  have hreach := Machine.Reach.of_exec (.init (init_fresh sampleConfig))
    (by decide +kernel : (registrationMachine sampleConfig).Guarded (Undisturbed sampleConfig) fresh
      [.request false ["acme", "red", "a"] 0, .apply 0 true,
        .request false ["zeta", "blue", "z"] 1, .apply 0 true]) rfl
  exact ⟨_, hreach, by decide +kernel, registrations_unique hreach⟩

/-! ## Two registrations in flight -/

/-- Two commands read the empty registry, and are applied one after the other. -/
def race (first second : List String) : List RegistrationEvent :=
  [.request false first 0, .request false second 0, .apply 0 true, .apply 0 true]

/-- **Both are answered `OK`**: for one name, a record is replaced; for one token, two tenants hold
it. -/
theorem replaces_accepted :
    (∃ s, (registrationMachine sampleConfig).Reachable s ∧ ∃ q ∈ s.accepted, ∃ q' ∈ s.accepted,
      q.record ≠ q'.record ∧ tenantNamed s.registry.tenants q.name = some q'.record) ∧
    ∃ s, (registrationMachine sampleConfig).Reachable s ∧ ¬ DistinctDigests s.registry.tenants := by
  constructor
  · refine ⟨_, Machine.reachable_of_exec _ (init_fresh sampleConfig)
      (rfl : (registrationMachine sampleConfig).exec fresh
        (race ["acme", "red", "a"] ["acme", "blue", "b"]) = some _), ?_⟩
    decide +kernel
  refine ⟨_, Machine.reachable_of_exec _ (init_fresh sampleConfig)
    (rfl : (registrationMachine sampleConfig).exec fresh
      (race ["acme", "red", "a"] ["zeta", "red", "b"]) = some _), ?_⟩
  rw [DistinctDigests]
  decide +kernel

end HaTenants

end

end Flint
