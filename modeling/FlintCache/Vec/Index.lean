import FlintCache.Lib.Machine
import FlintCache.Lib.Text
import FlintCache.Storage.Units

/-!
# Vec/Index — vector commands against the rows a rebuild reads

A write of the vector co-processor is planned against the sets in memory, made durable by one or two
commands over its channel, and committed to memory.  The id's entry in the durable index and its row
are separate keys, and a restart rebuilds memory from the ids that are listed and have a row.
-/

namespace Flint

section

open Function (update update_of_ne update_self)
open Option

/-- A vector with what is stored beside it. -/
structure VecEntry where
  vec : List UInt32
  info : Option Bytes
  expiresAt : Option ℕ
  deriving DecidableEq, Repr

abbrev VecKey := Bytes × Bytes

/-- What is durable of an id: whether the index lists it, and its row. -/
structure VecRow where
  listed : Bool := false
  row : Option VecEntry := none
  deriving DecidableEq, Repr

/-- A durable command. -/
inductive VecPersist
  | sAdd
  | put (e : VecEntry)
  | del
  | sRem
  deriving DecidableEq, Repr

def VecRow.persist (d : VecRow) : VecPersist → VecRow
  | .sAdd => { d with listed := true }
  | .put e => { d with row := some e }
  | .del => { d with row := none }
  | .sRem => { d with listed := false }

/-- A command of the vector index. -/
inductive VecCommand
  | set (key : VecKey) (vec : List UInt32) (info : Option Bytes) (ttlMs : Option ℕ)
  | del (key : VecKey)
  | expire (key : VecKey) (ttlMs : ℕ)
  | persist (key : VecKey)
  deriving DecidableEq, Repr

def VecCommand.key : VecCommand → VecKey
  | .set key .. | .del key | .expire key _ | .persist key => key

inductive VecReply
  | ok
  | integer (n : ℕ)
  | error (text : String)
  deriving DecidableEq, Repr

/-- A plan: an answer, or durable commands, then what memory holds of the id, then the answer. -/
inductive VecPlan
  | reply (r : VecReply)
  | write (persist : List VecPersist) (apply : Option VecEntry) (answer : VecReply)
  deriving DecidableEq, Repr

def validName (name : Bytes) : Bool := name ≠ [] ∧ (0 : UInt8) ∉ name

def deadline (now ttlMs : ℕ) : ℕ := min (now + ttlMs) (2 ^ 64 - 1)

/-- The sets of a namespace, by their dimension. -/
structure VecSets where
  dim : Bytes → Option ℕ

variable (sets : VecSets)

namespace VecSets

def checkVector (key : VecKey) (e : VecEntry) : Bool :=
  validName key.1 && validName key.2 && sets.dim key.1 == some e.vec.length

def rebuild (key : VecKey) (d : VecRow) : Option VecEntry :=
  if d.listed then d.row.filter (sets.checkVector key) else none

/-- `full` is the refusal of a memory cap, if one is reached. -/
def planSet (now : ℕ) (full : Option String) (key : VecKey) (vec : List UInt32)
    (info : Option Bytes) (ttlMs : Option ℕ) : VecPlan :=
  if (validName key.1 && validName key.2) = false then
    .reply (.error "ERR invalid set or id (must be non-empty, no NUL)")
  else if ttlMs = some 0 then .reply (.error "ERR EX/PX needs a positive integer")
  else
    match sets.dim key.1 with
    | none => .reply (.error "ERR no such set (VEC.CREATE it first)")
    | some dim =>
      if vec.length ≠ dim then .reply (.error s!"WRONGDIM set is {dim}, vector is {vec.length}")
      else
        match full with
        | some text => .reply (.error text)
        | none =>
          let e : VecEntry := ⟨vec, info, ttlMs.map (deadline now)⟩
          .write [.sAdd, .put e] (some e) .ok

def planDel (key : VecKey) (found : Option VecEntry) : VecPlan :=
  if sets.dim key.1 = none then .reply (.error "ERR no such set")
  else if found.isSome then .write [.del, .sRem] none (.integer 1)
  else .reply (.integer 0)

def unexpired (now : ℕ) (found : Option VecEntry) : Option VecEntry :=
  found.filter fun e => !e.expiresAt.any (· ≤ now)

def planExpire (now : ℕ) (key : VecKey) (found : Option VecEntry) (ttlMs : ℕ) : VecPlan :=
  if sets.dim key.1 = none then .reply (.error "ERR no such set")
  else
    match unexpired now found with
    | none => .reply (.integer 0)
    | some e =>
      if ttlMs = 0 then .reply (.error "ERR ttl must be a positive integer")
      else
        let e := { e with expiresAt := some (deadline now ttlMs) }
        .write [.put e] (some e) (.integer 1)

def planPersist (now : ℕ) (key : VecKey) (found : Option VecEntry) : VecPlan :=
  if sets.dim key.1 = none then .reply (.error "ERR no such set")
  else
    match unexpired now found with
    | none => .reply (.integer 0)
    | some e =>
      if e.expiresAt = none then .reply (.integer 0)
      else
        let e := { e with expiresAt := none }
        .write [.put e] (some e) (.integer 1)

def plan (now : ℕ) (full : Option String) (mem : VecKey → Option VecEntry) : VecCommand → VecPlan
  | .set key vec info ttlMs => sets.planSet now full key vec info ttlMs
  | .del key => sets.planDel key (mem key)
  | .expire key ttlMs => sets.planExpire now key (mem key) ttlMs
  | .persist key => sets.planPersist now key (mem key)

end VecSets

structure VecPending where
  command : VecCommand
  persist : List VecPersist
  apply : Option VecEntry
  deriving DecidableEq, Repr

/-- A loaded namespace.  `acked` marks the ids whose last acknowledged set no delete was
acknowledged after. -/
structure VecState where
  mem : VecKey → Option VecEntry
  durable : VecKey → VecRow
  pending : ℕ → Option VecPending
  acked : VecKey → Bool

/-- One step of a command. -/
inductive VecStep
  | plan (client now : ℕ) (full : Option String) (cmd : VecCommand)
  | persist (client : ℕ)
  | commit (client : ℕ)
  deriving DecidableEq, Repr

namespace VecState

def step (s : VecState) : VecStep → Option VecState
  | .plan c now full cmd =>
    match s.pending c, sets.plan now full s.mem cmd with
    | none, .write persist apply _ =>
      some { s with pending := update s.pending c (some ⟨cmd, persist, apply⟩) }
    | none, .reply _ => some s
    | some _, _ => none
  | .persist c =>
    match s.pending c with
    | some ⟨cmd, p :: rest, apply⟩ =>
      some { s with
        durable := update s.durable cmd.key ((s.durable cmd.key).persist p)
        pending := update s.pending c (some ⟨cmd, rest, apply⟩) }
    | _ => none
  | .commit c =>
    match s.pending c with
    | some ⟨cmd, [], apply⟩ =>
      some { s with
        mem := update s.mem cmd.key apply
        pending := update s.pending c none
        acked := match cmd with
          | .set key .. => update s.acked key true
          | .del key => update s.acked key false
          | _ => s.acked }
    | _ => none

/-- Memory is what a rebuild gives, and what was acknowledged is there. -/
def Rebuilt (s : VecState) : Prop :=
  (∀ k, s.mem k = sets.rebuild k (s.durable k)) ∧
    ∀ k, s.acked k = true → (sets.rebuild k (s.durable k)).isSome = true

def OneAtATime (s : VecState) : VecStep → Prop
  | .plan _ _ _ cmd => ∀ c p, s.pending c = some p → p.command.key ≠ cmd.key
  | _ => True

end VecState

def vecIndex (sets : VecSets) : Machine VecState VecStep where
  init s := (∀ k, s.mem k = sets.rebuild k (s.durable k)) ∧ (∀ c, s.pending c = none) ∧
    ∀ k, s.acked k = false
  step := VecState.step sets

/-! ## What stays true -/

open VecSets

namespace VecState

variable {sets : VecSets} {s s' : VecState}

structure Sound (sets : VecSets) (s : VecState) : Prop where
  /-- An id nobody is writing is in memory as it would be rebuilt. -/
  idle : ∀ k, (∀ c p, s.pending c = some p → p.command.key ≠ k) →
    s.mem k = sets.rebuild k (s.durable k)
  /-- A command's durable commands, once done, rebuild to what it commits. -/
  lands : ∀ c p, s.pending c = some p →
    sets.rebuild p.command.key (p.persist.foldl VecRow.persist (s.durable p.command.key)) = p.apply
  alone : ∀ c d p q, s.pending c = some p → s.pending d = some q →
    p.command.key = q.command.key → c = d
  keeps : ∀ c p, s.pending c = some p → p.apply = none → ∃ k, p.command = .del k
  acked : ∀ k, s.acked k = true → (s.mem k).isSome = true

variable {e : VecEntry}

theorem rebuild_eq_some {key : VecKey} {d : VecRow} :
    sets.rebuild key d = some e ↔ d.listed ∧ d.row = some e ∧ sets.checkVector key e := by
  unfold rebuild
  split
  · next h => simp [h, filter_eq_some_iff]
  · next h => simp [h]

theorem unexpired_eq_some {now : ℕ} {found : Option VecEntry}
    (h : unexpired now found = some e) : found = some e := (filter_eq_some_iff.mp h).1

section Plan

variable {now : ℕ} {key : VecKey} {found : Option VecEntry} {persist : List VecPersist}
  {apply : Option VecEntry} {answer : VecReply} {d : VecRow}

theorem rebuild_put {e e' : VecEntry} (hfound : some e = sets.rebuild key d)
    (hvec : e'.vec = e.vec) :
    sets.rebuild key (d.persist (.put e')) = some e' := by
  obtain ⟨hlisted, -, hcheck⟩ := rebuild_eq_some.mp hfound.symm
  refine rebuild_eq_some.mpr ⟨hlisted, rfl, ?_⟩
  rw [checkVector, hvec]
  exact hcheck

variable {full : Option String}

theorem rebuild_of_planSet {vec : List UInt32} {info : Option Bytes}
    {ttlMs : Option ℕ} (hplan : sets.planSet now full key vec info ttlMs =
        .write persist apply answer) :
    sets.rebuild key (persist.foldl VecRow.persist d) = apply ∧ apply ≠ none := by
  rw [planSet.eq_def] at hplan
  split at hplan
  · cases hplan
  · next hname =>
    split at hplan
    · cases hplan
    split at hplan
    · cases hplan
    · next dim hdim =>
      split at hplan
      · cases hplan
      · next hlen =>
        split at hplan
        · cases hplan
        cases hplan
        refine ⟨rebuild_eq_some.mpr ⟨rfl, rfl, ?_⟩, nofun⟩
        show sets.checkVector key ⟨vec, info, _⟩
        rw [checkVector, (Bool.not_eq_false _).mp hname, hdim, not_not.mp hlen]
        exact beq_self_eq_true _

theorem rebuild_of_planDel (hplan : sets.planDel key found = .write persist apply answer) :
    sets.rebuild key (persist.foldl VecRow.persist d) = apply := by
  rw [planDel] at hplan
  split at hplan
  · cases hplan
  split at hplan
  · cases hplan
    rfl
  · cases hplan

theorem rebuild_of_planTtl (hfound : found = sets.rebuild key d)
    (hplan : (∃ ttlMs, sets.planExpire now key found ttlMs = .write persist apply answer) ∨
      sets.planPersist now key found = .write persist apply answer) :
    sets.rebuild key (persist.foldl VecRow.persist d) = apply ∧ apply ≠ none := by
  unfold planExpire planPersist at hplan
  rcases hplan with ⟨ttlMs, hplan⟩ | hplan
  all_goals
    split at hplan
    · cases hplan
    split at hplan
    · cases hplan
    · next e he =>
      split at hplan
      · cases hplan
      · cases hplan
        exact ⟨rebuild_put ((unexpired_eq_some he).symm.trans hfound) rfl, nofun⟩

variable {cmd : VecCommand}

theorem rebuild_of_plan {mem : VecKey → Option VecEntry}
    (hplan : sets.plan now full mem cmd = .write persist apply answer)
    (hmem : mem cmd.key = sets.rebuild cmd.key d) :
    sets.rebuild cmd.key (persist.foldl VecRow.persist d) = apply ∧
      (apply = none → ∃ k, cmd = .del k) := by
  cases cmd with
  | set key vec info ttlMs =>
    obtain ⟨hrebuild, hsome⟩ := rebuild_of_planSet (d := d) hplan
    exact ⟨hrebuild, fun hnone => absurd hnone hsome⟩
  | del key => exact ⟨rebuild_of_planDel hplan, fun _ => ⟨key, rfl⟩⟩
  | expire key ttlMs =>
    obtain ⟨hrebuild, hsome⟩ := rebuild_of_planTtl hmem (.inl ⟨_, hplan⟩)
    exact ⟨hrebuild, fun hnone => absurd hnone hsome⟩
  | persist key =>
    obtain ⟨hrebuild, hsome⟩ := rebuild_of_planTtl hmem (.inr hplan)
    exact ⟨hrebuild, fun hnone => absurd hnone hsome⟩

end Plan

theorem Sound.plan (hs : s.Sound sets) {c now : ℕ} (hok : s.OneAtATime (.plan c now full cmd))
    (hstep : s.step sets (.plan c now full cmd) = some s') : s'.Sound sets := by
  rw [step] at hstep
  split at hstep
  · next persist apply answer hfree hplan =>
    cases hstep
    obtain ⟨hlands, hkeeps⟩ := rebuild_of_plan hplan (hs.idle cmd.key hok)
    have hcases : ∀ {d p}, update s.pending c (some ⟨cmd, persist, apply⟩) d = some p →
        d = c ∧ p = ⟨cmd, persist, apply⟩ ∨ d ≠ c ∧ s.pending d = some p := fun h =>
      (update_eq_some_iff.mp h).imp_left (And.imp_right fun heq => (some.inj heq).symm)
    refine ⟨fun k hk => hs.idle k fun d p hp => ?_, fun d p hp => ?_, fun d d' p q hp hq hkey => ?_,
      fun d p hp => ?_, hs.acked⟩
    · have hd : d ≠ c := by
        rintro rfl
        rw [hfree] at hp
        cases hp
      exact hk d p ((update_of_ne hd ..).trans hp)
    · obtain ⟨-, rfl⟩ | ⟨-, hp⟩ := hcases hp
      · exact hlands
      · exact hs.lands d p hp
    · obtain ⟨hd, rfl⟩ | ⟨-, hp'⟩ := hcases hp
      · obtain ⟨hd', -⟩ | ⟨-, hq'⟩ := hcases hq
        · exact hd.trans hd'.symm
        · exact absurd hkey.symm (hok d' q hq')
      · obtain ⟨-, rfl⟩ | ⟨-, hq'⟩ := hcases hq
        · exact absurd hkey (hok d p hp')
        · exact hs.alone d d' p q hp' hq' hkey
    · obtain ⟨-, rfl⟩ | ⟨-, hp⟩ := hcases hp
      · exact hkeeps
      · exact hs.keeps d p hp
  · cases hstep
    exact hs
  · cases hstep

theorem Sound.persist (hs : s.Sound sets) {c : ℕ} (hstep : s.step sets (.persist c) = some s') :
    s'.Sound sets := by
  rw [step] at hstep
  split at hstep
  · next cmd p rest apply hpending =>
    cases hstep
    -- The commands under way are those before, with one durable command fewer to go.
    have hcases : ∀ {d q}, update s.pending c (some ⟨cmd, rest, apply⟩) d = some q →
        d = c ∧ q = ⟨cmd, rest, apply⟩ ∨ d ≠ c ∧ s.pending d = some q ∧ q.command.key ≠ cmd.key :=
      fun {d q} h => by
      obtain ⟨hd, heq⟩ | ⟨hd, h⟩ := update_eq_some_iff.mp h
      · exact .inl ⟨hd, (some.inj heq).symm⟩
      · exact .inr ⟨hd, h, fun hkey => hd (hs.alone d c _ _ h hpending hkey)⟩
    refine ⟨fun k hk => ?_, fun d q hq => ?_, fun d d' q r hq hr hkey => ?_,
        fun d q hq => ?_, hs.acked⟩
    · have hne : k ≠ cmd.key := fun hkey => hk c _ (update_self ..) hkey.symm
      have hrow : update s.durable cmd.key ((s.durable cmd.key).persist p) k = s.durable k :=
        update_of_ne hne ..
      refine (hs.idle k fun d q hq => ?_).trans (congrArg (sets.rebuild k) hrow.symm)
      by_cases hd : d = c
      · subst hd
        obtain rfl := some.inj (hpending.symm.trans hq)
        exact hne.symm
      · exact hk d q ((update_of_ne hd ..).trans hq)
    · obtain ⟨-, rfl⟩ | ⟨-, hq, hne⟩ := hcases hq
      · dsimp only
        rw [update_self]
        exact hs.lands c _ hpending
      · dsimp only
        rw [update_of_ne hne]
        exact hs.lands d q hq
    · obtain ⟨hd, rfl⟩ | ⟨-, hq', hne⟩ := hcases hq
      · obtain ⟨hd', -⟩ | ⟨-, -, hne⟩ := hcases hr
        · exact hd.trans hd'.symm
        · exact absurd hkey.symm hne
      · obtain ⟨-, rfl⟩ | ⟨-, hr', -⟩ := hcases hr
        · exact absurd hkey hne
        · exact hs.alone d d' q r hq' hr' hkey
    · obtain ⟨-, rfl⟩ | ⟨-, hq', -⟩ := hcases hq
      · exact fun hnone => hs.keeps c ⟨cmd, p :: rest, apply⟩ hpending hnone
      · exact hs.keeps d q hq'
  · cases hstep

theorem Sound.commit (hs : s.Sound sets) {c : ℕ} (hstep : s.step sets (.commit c) = some s') :
    s'.Sound sets := by
  rw [step] at hstep
  split at hstep
  · next cmd apply hpending =>
    cases hstep
    have hcases : ∀ {d q}, update s.pending c none d = some q →
        s.pending d = some q ∧ d ≠ c := fun {d q} h => by
      obtain ⟨-, ⟨⟩⟩ | ⟨hd, h⟩ := update_eq_some_iff.mp h
      exact ⟨h, hd⟩
    refine ⟨fun k hk => ?_, fun d q hq => hs.lands d q (hcases hq).1,
      fun d d' q r hq hr => hs.alone d d' q r (hcases hq).1 (hcases hr).1,
      fun d q hq => hs.keeps d q (hcases hq).1, fun k hk => ?_⟩
    · by_cases hkey : k = cmd.key
      · subst hkey
        exact (update_self ..).trans (hs.lands c _ hpending).symm
      refine (update_of_ne hkey ..).trans (hs.idle k fun d q hq => ?_)
      by_cases hd : d = c
      · subst hd
        obtain rfl := some.inj (hpending.symm.trans hq)
        exact fun h => hkey h.symm
      · exact hk d q ((update_of_ne hd ..).trans hq)
    by_cases hkey : k = cmd.key
    · subst hkey
      dsimp only at hk ⊢
      rw [update_self]
      cases apply with
      | some e => rfl
      | none =>
        obtain ⟨k, rfl⟩ := hs.keeps c _ hpending rfl
        exact nomatch hk.symm.trans (update_self ..)
    dsimp only at hk ⊢
    rw [update_of_ne hkey]
    refine hs.acked k (Eq.trans ?_ hk)
    cases cmd with
    | set key vec info ttlMs | del key => exact (update_of_ne hkey ..).symm
    | _ => rfl
  · cases hstep

theorem sound_of_reach (h : (vecIndex sets).Reach OneAtATime s) : s.Sound sets := by
  refine Machine.Reach.invariant ?_ ?_ h
  · rintro s ⟨hmem, hidle, hacked⟩
    have hnone {c p} {P : Prop} (hp : s.pending c = some p) : P := nomatch (hidle c).symm.trans hp
    exact ⟨fun k _ => hmem k, fun c p hp => hnone hp, fun c d p q hp => hnone hp,
      fun c p hp => hnone hp, fun k hk => nomatch (hacked k).symm.trans hk⟩
  intro s e s' _ hs hok hstep
  cases e with
  | plan c now full cmd => exact hs.plan hok hstep
  | persist c => exact hs.persist hstep
  | commit c => exact hs.commit hstep

/-- **Once all have answered, memory is what a rebuild would give**, and an acknowledged vector that
no delete followed survives a restart — where commands of one id do not overlap. -/
theorem index_rebuilds (sets : VecSets) (h : (vecIndex sets).Reach OneAtATime s)
    (hidle : ∀ c, s.pending c = none) : s.Rebuilt sets := by
  have hs := sound_of_reach h
  have hmem : ∀ k, s.mem k = sets.rebuild k (s.durable k) := fun k =>
    hs.idle k fun c p hp => nomatch (hidle c).symm.trans hp
  exact ⟨hmem, fun k hk => hmem k ▸ hs.acked k hk⟩

/-! ## Runs -/

def oneSet : VecSets := ⟨fun name => if name = [1] then some 1 else none⟩

def emptyIndex : VecState := ⟨fun _ => none, fun _ => {}, fun _ => none, fun _ => false⟩

theorem init_emptyIndex : (vecIndex oneSet).init emptyIndex :=
  ⟨fun _ => rfl, fun _ => rfl, fun _ => rfl⟩

def setTwo (client : ℕ) : List VecStep :=
  [.plan client 0 none (.set ([1], [2]) [7] none none), .persist client, .persist client,
    .commit client]

theorem index_rebuilds_set : ∃ s, (vecIndex oneSet).exec emptyIndex (setTwo 0) = some s ∧
    s.acked ([1], [2]) = true ∧ s.Rebuilt oneSet := by
  obtain ⟨s, hs⟩ : ∃ s, (vecIndex oneSet).exec emptyIndex (setTwo 0) = some s := ⟨_, rfl⟩
  have hguard : (vecIndex oneSet).Guarded OneAtATime emptyIndex (setTwo 0) :=
    ⟨nofun, trivial, trivial, trivial, trivial⟩
  have hidle : ∀ c, s.pending c = none := fun c => by
    cases hs
    cases c with
    | _ => rfl
  refine ⟨s, hs, ?_, index_rebuilds oneSet (.of_exec (.init init_emptyIndex) hguard hs) hidle⟩
  cases hs
  rfl

def deleteAroundSet : List VecStep :=
  setTwo 0 ++ [.plan 1 0 none (.del ([1], [2])), .plan 2 0 none (.set ([1], [2]) [8] none none),
    .persist 1, .persist 2, .persist 2, .persist 1, .commit 1, .commit 2]

/-- **An acknowledged vector is lost at the next restart**: the index does not list it. -/
theorem loses_acknowledged_vector : ∃ s,
    (vecIndex oneSet).exec emptyIndex deleteAroundSet = some s ∧ (∀ c, s.pending c = none) ∧
      s.acked ([1], [2]) = true ∧ ¬ s.Rebuilt oneSet := by
  refine ⟨_, rfl, fun c => ?_, rfl, fun h => absurd (h.2 ([1], [2]) rfl) (by decide)⟩
  match c with
  | 0 => rfl
  | 1 => rfl
  | 2 => rfl
  | c + 3 => rfl

end VecState

end

/-! ## The memory caps

At either cap every routed write of a key under an index is refused, a delete like any other; a
vector's delete is not, and an emptied set holds nothing. -/

section

open List

/-- A set, by what it takes of the memory caps. -/
structure CapSet where
  name : String
  ids : List String
  bytes : ℕ
  empty : ids = [] → bytes = 0

/-- One namespace's memory.  `others` is what the other namespaces hold. -/
structure CapStore where
  indexCap : ℕ
  totalCap : ℕ
  sets : List CapSet
  /-- Documents and open cursors, with their charge. -/
  docs : List (String × ℕ)
  others : ℕ

/-- `after` is what the set holds then, unless it is empty. -/
def CapSet.del (c : CapSet) (name id : String) (after : ℕ) : CapSet :=
  if c.name = name ∧ id ∈ c.ids then
    { c with
      ids := c.ids.filter (· ≠ id)
      bytes := if c.ids.filter (· ≠ id) = [] then 0 else after
      empty := fun h => if_pos h }
  else c

inductive RoutedPlan
  | refused (text : String)
  | write (keys before : List String)
  deriving DecidableEq, Repr

/-- What `VEC.DEL` comes to: an answer at once, or an entry to remove. -/
inductive VecDelPlan
  | reply (answer : VecReply)
  | remove (name id : String)

def isScript (args : List String) : Bool := (args.headD "").toUpper ∈ ["EVAL", "EVALSHA"]

def deletes (args : List String) : Bool := (args.headD "").toUpper ∈ ["DEL", "UNLINK"]

def writeKeys (args : List String) : List String :=
  if deletes args then args.drop 1
  else if isScript args then
    ((args[2]?.bind (parseUnsigned 64)).filter fun n => 3 + n ≤ args.length).elim []
      (args.drop 3).take
  else (args.drop 1).take 1

namespace CapStore

variable (s : CapStore)

def docBytes : ℕ := (s.docs.map Prod.snd).sum

def used : ℕ := (s.sets.map CapSet.bytes).sum + s.docBytes

/-- The refusal of a write that adds `new` bytes and gives back `old`. -/
def overCap (new old : ℕ) : Option String :=
  if 0 < s.indexCap ∧ s.indexCap < s.used + new - old then
    some ("VECFULL index memory limit reached (" ++ s.used.repr ++ " of " ++ s.indexCap.repr ++
      " bytes for this namespace)")
  else if 0 < s.totalCap ∧ s.totalCap < s.others + s.used + new - old then
    some "VECFULL index memory is full on this server; delete documents, or retry later"
  else none

def planFtWrite (covers : String → Bool) (args : List String) : RoutedPlan :=
  if writeKeys args = [] then
    .refused (if isScript args then "ERR a script that writes a key under an FT index's prefix " ++
        "declares it in KEYS (ADR-0060 amendment 4)"
      else "ERR wrong number of arguments for '" ++ (args.headD "").toLower ++ "'")
  else
    let covered := (writeKeys args).filter covers
    match if covered = [] then none else s.overCap 1 0 with
    | some text => .refused text
    | none => .write covered (if deletes args then [] else covered)

/-- A planned write is made, and its keys are read back at their charge. -/
def commitFtWrite (args keys : List String) (charge : String → ℕ) : CapStore :=
  { s with docs := s.docs.filter (·.1 ∉ keys) ++
      if deletes args then [] else keys.map fun k => (k, charge k) }

/-- `plan_del`: its refusals are for a short command and a set that is not there. -/
def planDel (args : List String) : VecDelPlan :=
  match args with
  | _ :: name :: id :: _ =>
    if s.sets.any (·.name = name) then
      if s.sets.any fun c => c.name = name && id ∈ c.ids then .remove name id
      else .reply (.integer 0)
    else .reply (.error "ERR no such set")
  | _ => .reply (.error "ERR VEC.DEL <set> <id>")

/-- A `VEC.DEL`, planned and committed. -/
def vecDel (name id : String) (after : ℕ) : CapStore :=
  match s.planDel ["VEC.DEL", name, id] with
  | .remove name id => { s with sets := s.sets.map (·.del name id after) }
  | .reply _ => s

def vecDels (after : String × String → ℕ) (dels : List (String × String)) : CapStore :=
  dels.foldl (fun s d => s.vecDel d.1 d.2 (after d)) s

end CapStore

def CapSet.delAll (c : CapSet) (after : String × String → ℕ) (dels : List (String × String)) :
    CapSet :=
  dels.foldl (fun c d => c.del d.1 d.2 (after d)) c

open CapStore

variable {c : CapSet} {s : CapStore} {name id i : String} {after : ℕ}
  {afters : String × String → ℕ} {dels : List (String × String)}

theorem CapSet.name_del : (c.del name id after).name = c.name := by
  rw [del]
  split <;> rfl

theorem CapSet.mem_del (h : i ∈ (c.del name id after).ids) :
    i ∈ c.ids ∧ (c.name, i) ≠ (name, id) := by
  rw [del] at h
  split at h
  · obtain ⟨hi, hne⟩ := mem_filter.mp h
    exact ⟨hi, fun heq => of_decide_eq_true hne (congrArg Prod.snd heq)⟩
  · rename_i hnot
    refine ⟨h, fun heq => hnot ⟨congrArg Prod.fst heq, ?_⟩⟩
    rwa [← (Prod.mk.inj heq).2]

theorem CapSet.mem_delAll (h : i ∈ (c.delAll afters dels).ids) :
    i ∈ c.ids ∧ (c.name, i) ∉ dels := by
  induction dels generalizing c with
  | nil => exact ⟨h, not_mem_nil⟩
  | cons d dels ih =>
    obtain ⟨hi, hdels⟩ := ih h
    obtain ⟨hi, hne⟩ := mem_del hi
    rw [name_del] at hdels
    exact ⟨hi, fun hmem => (mem_cons.mp hmem).elim hne hdels⟩

theorem CapSet.del_of_not (h : ¬ (c.name = name ∧ id ∈ c.ids)) : c.del name id after = c := if_neg h

theorem vecDel_eq : s.vecDel name id after =
    { s with sets := s.sets.map (·.del name id after) } := by
  have hkept (hnone : ¬ ∃ c ∈ s.sets, c.name = name ∧ id ∈ c.ids) :
      s = { s with sets := s.sets.map (·.del name id after) } := by
    have hmap : s.sets.map (·.del name id after) = s.sets.map (fun c => c) := by
      refine map_congr_left fun c hc => CapSet.del_of_not fun hin => hnone ⟨c, hc, hin⟩
    rw [hmap, map_id']
  unfold vecDel planDel
  simp only [any_eq_true, Bool.and_eq_true, decide_eq_true_eq]
  by_cases hname : ∃ c ∈ s.sets, c.name = name
  · rw [if_pos hname]
    by_cases hin : ∃ c ∈ s.sets, c.name = name ∧ id ∈ c.ids
    · rw [if_pos hin]
    · rw [if_neg hin]
      exact hkept hin
  · rw [if_neg hname]
    refine hkept ?_
    rintro ⟨c, hc, hin⟩
    exact hname ⟨c, hc, hin.1⟩

theorem sets_vecDels :
    s.vecDels afters dels = { s with sets := s.sets.map (·.delAll afters dels) } := by
  induction dels generalizing s with
  | nil => simp [vecDels, CapSet.delAll]
  | cons d dels ih =>
    rw [vecDels, foldl_cons]
    exact ih.trans (by rw [vecDel_eq, map_map]; rfl)

/-- With every vector deleted only documents and cursors are left. -/
theorem used_vecDels (h : ∀ c ∈ s.sets, ∀ i ∈ c.ids, (c.name, i) ∈ dels) :
    (s.vecDels afters dels).used = s.docBytes := by
  have hnone : ∀ n ∈ (s.sets.map (·.delAll afters dels)).map CapSet.bytes, n = 0 := by
    rw [map_map]
    refine forall_mem_map.mpr fun c hc => (c.delAll afters dels).empty ?_
    refine eq_nil_iff_forall_not_mem.mpr fun i hi => ?_
    obtain ⟨hmem, hdels⟩ := CapSet.mem_delAll hi
    exact hdels (h c hc i hmem)
  rw [sets_vecDels, used, sum_eq_zero hnone, Nat.zero_add]
  rfl

theorem overCap_eq_none_iff (new : ℕ) : s.overCap new 0 = none ↔
    (s.indexCap = 0 ∨ s.used + new ≤ s.indexCap) ∧
      (s.totalCap = 0 ∨ s.others + s.used + new ≤ s.totalCap) := by
  unfold overCap
  split_ifs <;> simp only [true_iff, false_iff] <;> omega

theorem planFtWrite_of_room {covers : String → Bool} {args : List String}
    (hcap : s.overCap 1 0 = none) (hkeys : writeKeys args ≠ []) :
    ∃ keys before, s.planFtWrite covers args = .write keys before := by
  simp only [planFtWrite, if_neg hkeys, hcap, ite_self]
  exact ⟨_, _, rfl⟩

/-- **Deletes of vectors make room**: after some of them every routed write is planned, where
documents and cursors alone leave a byte of the namespace's cap, and they and the other namespaces a
byte of the server's. -/
theorem vecDels_make_room (covers : String → Bool)
    (hown : s.indexCap = 0 ∨ s.docBytes < s.indexCap)
    (htotal : s.totalCap = 0 ∨ s.others + s.docBytes < s.totalCap) :
    ∃ dels, ∀ afters args, writeKeys args ≠ [] →
      ∃ keys before, (s.vecDels afters dels).planFtWrite covers args = .write keys before := by
  obtain ⟨dels, hdels⟩ : ∃ dels, ∀ c ∈ s.sets, ∀ i ∈ c.ids, (c.name, i) ∈ dels :=
    ⟨s.sets.flatMap fun c => c.ids.map (c.name, ·), fun c hc i hi =>
      mem_flatMap.mpr ⟨c, hc, mem_map_of_mem hi⟩⟩
  refine ⟨dels, fun afters args hkeys => planFtWrite_of_room ?_ hkeys⟩
  rw [overCap_eq_none_iff, used_vecDels hdels, sets_vecDels]
  exact ⟨hown, htotal⟩

theorem planDel_refusal {args : List String} {text : String}
    (h : s.planDel args = .reply (.error text)) :
    text = "ERR VEC.DEL <set> <id>" ∨ text = "ERR no such set" := by
  unfold planDel at h
  split at h
  · split_ifs at h <;> cases h
    exact .inr rfl
  · cases h
    exact .inl rfl

/-- **A tenant digs itself out exactly while there is a byte left**: no delete of a document under
an index and no `VEC.DEL` is refused for memory, and there are deletes of vectors after which every
routed write is planned. -/
theorem deletes_dig_out (s : CapStore) {covers : String → Bool} {k : String}
    (hk : covers k = true) :
    ((∀ args, deletes args = true → writeKeys args ≠ [] →
        ∃ keys before, s.planFtWrite covers args = .write keys before) ∧
      (∀ args text, s.planDel args = .reply (.error text) →
        text = "ERR VEC.DEL <set> <id>" ∨ text = "ERR no such set") ∧
      ∃ dels, ∀ afters args, writeKeys args ≠ [] →
        ∃ keys before, (s.vecDels afters dels).planFtWrite covers args = .write keys before) ↔
    (s.indexCap = 0 ∨ s.used + 1 ≤ s.indexCap) ∧
      (s.totalCap = 0 ∨ s.others + s.used + 1 ≤ s.totalCap) := by
  rw [← overCap_eq_none_iff]
  constructor
  · rintro ⟨hplanned, -, -⟩
    have hdeletes : deletes ["DEL", k] = true := by
      rw [deletes, headD_cons, show "DEL".toUpper = "DEL" from by decide +kernel]
      rfl
    have hkeys : writeKeys ["DEL", k] = [k] := by rw [writeKeys, if_pos hdeletes]; rfl
    obtain ⟨keys, before, hplan⟩ := hplanned ["DEL", k] hdeletes (by rw [hkeys]; exact nofun)
    -- The key is under an index, so the plan has passed the caps.
    cases hcap : s.overCap 1 0 with
    | none => rfl
    | some text => simp [planFtWrite, hkeys, hk, hcap] at hplan
  · intro hcap
    refine ⟨fun args _ => planFtWrite_of_room hcap, fun _ _ =>
        planDel_refusal, [], fun _ args => ?_⟩
    exact planFtWrite_of_room hcap

theorem deletes_dig_out_room :
    let s : CapStore := ⟨20, 0, [⟨"s", ["a"], 11, nofun⟩], [("d", 8)], 0⟩
    ∃ keys before, s.planFtWrite (fun _ => true) ["UNLINK", "d"] = .write keys before := by
  intro s
  exact ((@deletes_dig_out s (fun _ => true) "d" rfl).mpr
    ⟨.inr (by decide), .inl rfl⟩).1 _ (by decide +kernel) (by decide +kernel)

/-- A document past the cap by itself is taken, and then its own delete is refused: with no vector
to delete nothing brings the namespace back. -/
theorem routed_delete_refused :
    let s : CapStore := ⟨10, 0, [], [], 0⟩
    s.planFtWrite (fun _ => true) ["HSET", "d", "f", "v"] = .write ["d"] ["d"] ∧
    (s.commitFtWrite ["HSET", "d", "f", "v"] ["d"] fun _ => 11).planFtWrite (fun _ => true)
      ["DEL", "d"] =
      .refused "VECFULL index memory limit reached (11 of 10 bytes for this namespace)" := by
  decide +kernel

end

end Flint
