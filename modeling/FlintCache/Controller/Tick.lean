import FlintCache.Lib.Lists
import FlintCache.Lib.Machine

/-!
# Controller/Tick — the controller's tick over one pair, and which survivor it promotes

With a reachable master a tick fences every other claimer; without one it waits out its patience,
asks for a handover's hold, checks that the pair was recently in sync, picks a survivor — the
promotable member with the highest epoch, ties to the lowest address — polls again, has the fencing
record committed and promotes.
-/

namespace Flint

open List

/-! ## What a poll sees -/

inductive NodeRole
  | master
  | replica
  | loading
  | unknown
  deriving DecidableEq, Repr

/-- What a probe found of one node. -/
structure Node where
  addr : String
  reachable : Bool
  /-- Its socket accepts connections, even if the application does not answer. -/
  socketAlive : Bool
  role : NodeRole
  loading : Bool
  /-- Its role epoch, `0` when unknown. -/
  epoch : ℕ
  liveReplicas : ℕ
  /-- How far the replicas are behind, `none` when unknown. -/
  seqLag : Option ℕ
  lagMs : Option ℕ
  lagSoftMs : Option ℕ
  deriving DecidableEq, Repr

def fallbackLagSoftMs : ℕ := 500

namespace Node

def converged (n : Node) : Bool :=
  if n.liveReplicas < 1 then false
  else if n.seqLag = some 0 then true
  else n.lagMs.any fun ms => ms < n.lagSoftMs.getD fallbackLagSoftMs

def promotable (n : Node) : Bool := n.reachable && !n.loading

def claimsMaster (n : Node) : Bool := n.reachable && n.role = .master

/-- **The ranking of every choice**: the epoch, ties to the lowest address. -/
def rank (n : Node) : ℕ ×ₗ Stringᵒᵈ := toLex (n.epoch, OrderDual.toDual n.addr)

end Node

def topEpoch (states : List Node) : ℕ := (states.map Node.epoch).foldr max 0

def masterHoldsTopEpoch (states : List Node) (top : ℕ) : Option Node :=
  states.find? fun n => n.claimsMaster && top ≤ n.epoch

def insyncLineageHolder (states : List Node) : Option Node :=
  let candidates := states.filter Node.promotable
  if candidates.isEmpty then none
  else states.find? fun n =>
    n.promotable && n.epoch = topEpoch candidates && 1 ≤ n.liveReplicas && n.seqLag = some 0

def rememberedLineageHolder (states : List Node) (remembered : List (String × ℕ)) : Option Node :=
  let candidates := states.filter Node.promotable
  if remembered.isEmpty || candidates.isEmpty then none
  else remembered.findSome? fun (addr, epoch) => states.find? fun n =>
    n.promotable && n.epoch = topEpoch candidates && epoch ≤ n.epoch && n.addr = addr

def shouldPromote (slow : Bool) (noMasterStreak confirm : ℕ) (slowElapsed : Option ℕ)
    (slowPromote : ℕ) : Bool :=
  if slow then slowElapsed.any fun e => slowPromote ≤ e else confirm ≤ noMasterStreak

/-! ## The pair's record and the calls of a tick -/

/-- A seat of the pair: how many polls it missed, and its respawn cooldown. -/
structure Slot where
  addr : String
  miss : ℕ
  cooldown : ℕ
  deriving DecidableEq, Repr

/-- What the controller remembers of a pair between ticks; instants are milliseconds. -/
structure Pair where
  nodes : List String
  managed : Bool
  slots : List Slot
  lastConverged : ℕ
  convergedEver : Bool
  noMasterStreak : ℕ
  slowSince : Option ℕ
  holdRecheckAt : Option ℕ
  darkStreak : ℕ
  /-- Members last observed holding the full lineage, with the epoch they held it at. -/
  lastInsync : List (String × ℕ)
  deriving DecidableEq, Repr

structure Config where
  confirm : ℕ
  slowPromote : ℕ
  maxStale : ℕ
  commitCp : Bool
  deriving DecidableEq, Repr

/-- A call that a tick makes. -/
inductive TickCall
  | demote (addr : String) (epoch : ℕ)
  | cpFence (addr : String)
  | promote (addr : String) (epoch : ℕ)
  | follow (addr target : String)
  | spawn (addr : String) (replicaOf : Option String)
  deriving DecidableEq, Repr

inductive PromoteReply
  | simple
  | fenced
  | other
  deriving DecidableEq, Repr

/-- What the environment answers in one tick. -/
structure TickInput where
  now : ℕ
  states : List Node
  /-- `CPHANDOVER`: the milliseconds left of a hold, `none` when there is no answer. -/
  hold : Option ℕ
  recheck : List Node
  fenceReplies : List Bool
  promoteReply : PromoteReply
  deriving DecidableEq, Repr

/-! ## The tick, branch by branch -/

namespace Pair

variable (cfg : Config)

/-- Nothing answers: after `confirm` such ticks a managed pair is started again. -/
def bootstrap (p : Pair) : Pair × List TickCall :=
  if p.darkStreak + 1 < cfg.confirm then ({ p with darkStreak := p.darkStreak + 1 }, [])
  else
    ({ p with darkStreak := 0 },
      match p.slots with
      | [] => []
      | s :: rest => .spawn s.addr none :: rest.map fun r => .spawn r.addr (some s.addr))

/-- A slot other than the master's, dead for `confirm` polls, is respawned as a fresh replica. -/
def repairSlot (now : ℕ) (states : List Node) (legit : String) (s : Slot) : Slot × List TickCall :=
  if s.addr = legit then ({ s with miss := 0 }, [])
  else
    let reachable := (states.find? fun n => n.addr = s.addr).any Node.reachable
    if reachable then ({ s with miss := 0 }, [])
    else if now < s.cooldown then (s, [])
    else if s.miss + 1 < cfg.confirm then ({ s with miss := s.miss + 1 }, [])
    else ({ s with miss := 0, cooldown := now + 20000 }, [.spawn s.addr (some legit)])

def masters (states : List Node) : List Node := states.filter Node.claimsMaster

/-- **A legitimate master is reachable**: every other claimer is fenced above every epoch in the
poll; a converged master refreshes the memory of who holds the lineage. -/
def superviseMaster (p : Pair) (now : ℕ) (states : List Node) (legit : Node) :
    Pair × List TickCall :=
  let fences := ((masters states).filter fun m => m.addr ≠ legit.addr).map fun m =>
    TickCall.demote m.addr (topEpoch states + 1)
  let p := { p with noMasterStreak := 0, slowSince := none, holdRecheckAt := none }
  let p := if legit.converged then
      { p with
        lastConverged := now
        convergedEver := true
        lastInsync := (legit.addr, legit.epoch) ::
          (states.filter fun n => n.reachable && n.addr ≠ legit.addr && n.role = .replica).map
            fun n => (n.addr, legit.epoch) }
    else p
  if p.managed then
    let repaired := p.slots.map (repairSlot cfg now states legit.addr)
    ({ p with slots := repaired.map Prod.fst }, fences ++ repaired.flatMap Prod.snd)
  else (p, fences)

def confirmOutage (p : Pair) (now : ℕ) (states : List Node) : Pair × Bool :=
  let slow := states.any fun n => !n.reachable && n.socketAlive
  let since := if slow then some (p.slowSince.getD now) else none
  let p := { p with noMasterStreak := p.noMasterStreak + 1, slowSince := since }
  (p, shouldPromote slow p.noMasterStreak cfg.confirm (since.map (now - ·)) cfg.slowPromote)

/-- A planned handover holds promotions back; a control plane that cannot be asked does not. -/
def checkHold (p : Pair) (now : ℕ) (hold : Option ℕ) : Pair × Bool :=
  if !cfg.commitCp then (p, true)
  else if p.holdRecheckAt.any fun t => now < t then (p, false)
  else if 0 < hold.getD 0 then
    ({ p with holdRecheckAt := some (now + min (hold.getD 0) 1000) }, false)
  else ({ p with holdRecheckAt := none }, true)

/-- **The degraded-window gate**: recently converged, or of held lineage, provably or by memory. -/
def mayPromote (p : Pair) (now : ℕ) (states : List Node) : Bool :=
  (p.convergedEver && now - p.lastConverged ≤ cfg.maxStale) ||
    (insyncLineageHolder states).isSome ||
    (rememberedLineageHolder states p.lastInsync).isSome

def survivor (states : List Node) : Option Node :=
  (states.filter Node.promotable).maxByKey Node.rank

def commitFence (addr : String) : ℕ → List Bool → List TickCall × Bool
  | 0, _ => ([], false)
  | n + 1, replies =>
    if replies.headD false then ([.cpFence addr], true)
    else
      let (calls, fenced) := commitFence addr n replies.tail
      (.cpFence addr :: calls, fenced)

def promoteSurvivor (p : Pair) (states : List Node) (s : Node) (reply : PromoteReply) :
    Pair × List TickCall :=
  let next := topEpoch states + 1
  match reply with
  | .simple =>
    ({ p with convergedEver := false, lastInsync := [(s.addr, next)], noMasterStreak := 0 },
      .promote s.addr next ::
        (states.filter fun n => n.addr ≠ s.addr).map fun n => .follow n.addr s.addr)
  | .fenced => ({ p with noMasterStreak := 0 }, [.promote s.addr next])
  | .other => (p, [.promote s.addr next])

def actOn (p : Pair) (i : TickInput) (s : Node) : Pair × List TickCall :=
  if (masterHoldsTopEpoch i.recheck (topEpoch i.states)).isSome then
    ({ p with noMasterStreak := 0 }, [])
  else if cfg.commitCp then
    let (fences, fenced) := commitFence s.addr 3 i.fenceReplies
    if fenced then
      let (p, calls) := p.promoteSurvivor i.states s i.promoteReply
      (p, fences ++ calls)
    else ({ p with noMasterStreak := 0 }, fences)
  else p.promoteSurvivor i.states s i.promoteReply

def failOver (p : Pair) (i : TickInput) : Pair × List TickCall :=
  let (p, confirmed) := p.confirmOutage cfg i.now i.states
  if !confirmed then (p, [])
  else
    let (p, free) := p.checkHold cfg i.now i.hold
    if !free then (p, [])
    else if !p.mayPromote cfg i.now i.states then ({ p with noMasterStreak := 0 }, [])
    else
      match survivor i.states with
      | none => ({ p with noMasterStreak := 0 }, [])
      | some s => p.actOn cfg i s

def tick (p : Pair) (i : TickInput) : Pair × List TickCall :=
  if p.managed && i.states.all fun n => !n.reachable then p.bootstrap cfg
  else
    match (masters i.states).maxByKey Node.rank with
    | some legit => p.superviseMaster cfg i.now i.states legit
    | none => p.failOver cfg i

/-! ## What a tick can call -/

variable {cfg} {p : Pair} {i : TickInput} {a : String} {e : ℕ}

theorem not_promote_mem_commitFence (addr : String) (n : ℕ) (replies : List Bool) :
    TickCall.promote a e ∉ (commitFence addr n replies).1 := by
  induction n generalizing replies with
  | zero => simp [commitFence]
  | succ n ih =>
    rw [commitFence]
    split
    · simp
    · simpa using ih replies.tail

theorem promote_mem_promoteSurvivor {states : List Node} {s : Node} {reply : PromoteReply}
    (h : TickCall.promote a e ∈ (p.promoteSurvivor states s reply).2) :
    a = s.addr ∧ e = topEpoch states + 1 := by
  cases reply <;> simpa [promoteSurvivor] using h

theorem promote_mem_actOn {s : Node} (h : TickCall.promote a e ∈ (p.actOn cfg i s).2) :
    a = s.addr ∧ e = topEpoch i.states + 1 := by
  rw [actOn] at h
  split at h
  · cases h
  split at h
  · dsimp only at h
    split at h
    · rcases mem_append.mp h with hf | hp
      · exact absurd hf (not_promote_mem_commitFence _ _ _)
      · exact promote_mem_promoteSurvivor hp
    · exact absurd h (not_promote_mem_commitFence _ _ _)
  · exact promote_mem_promoteSurvivor h

theorem promote_mem_failOver (h : TickCall.promote a e ∈ (p.failOver cfg i).2) :
    ∃ s, survivor i.states = some s ∧ a = s.addr ∧ e = topEpoch i.states + 1 := by
  rw [failOver] at h
  dsimp only at h
  split at h
  · cases h
  split at h
  · cases h
  split at h
  · cases h
  split at h
  · cases h
  · next s hs => exact ⟨s, hs, promote_mem_actOn h⟩

theorem not_promote_mem_repairSlot (now : ℕ) (states : List Node) (legit : String) (s : Slot) :
    TickCall.promote a e ∉ (repairSlot cfg now states legit s).2 := by
  rw [repairSlot]
  dsimp only
  split_ifs <;> simp

theorem not_promote_mem_superviseMaster (now : ℕ) (states : List Node) (legit : Node) :
    TickCall.promote a e ∉ (p.superviseMaster cfg now states legit).2 := by
  rw [superviseMaster]
  dsimp only
  split_ifs
  all_goals
    simp only [mem_append, mem_map, mem_flatMap, reduceCtorEq, and_false,
      exists_false, false_or, not_false_eq_true]
  all_goals
    rintro ⟨_, ⟨s, -, rfl⟩, h⟩
    exact not_promote_mem_repairSlot _ _ _ _ h

theorem not_promote_mem_bootstrap : TickCall.promote a e ∉ (p.bootstrap cfg).2 := by
  rw [bootstrap]
  split
  · simp
  · cases p.slots <;> simp

/-- **Inversion of a promotion**: the poll shows no master, the survivor's epoch is above all. -/
theorem promote_mem_tick (h : TickCall.promote a e ∈ (p.tick cfg i).2) : masters i.states = [] ∧
      ∃ s, survivor i.states = some s ∧ a = s.addr ∧ e = topEpoch i.states + 1 := by
  rw [tick] at h
  split at h
  · exact absurd h not_promote_mem_bootstrap
  split at h
  · exact absurd h (not_promote_mem_superviseMaster _ _ _)
  rename_i hnone
  refine ⟨?_, promote_mem_failOver h⟩
  by_contra hne
  obtain ⟨m, hm⟩ := maxByKey_isSome Node.rank hne
  cases hnone.symm.trans hm

/-! ## Promotions follow fences -/

/-- **Every promotion comes right after a fence of the same member**, or after one of `granted`. -/
def PromotesFenced : Option String → List TickCall → Prop
  | _, [] => True
  | granted, .promote a _ :: calls => granted = some a ∧ PromotesFenced none calls
  | _, .cpFence a :: calls => PromotesFenced (some a) calls
  | _, .demote _ _ :: calls | _, .follow _ _ :: calls | _, .spawn _ _ :: calls =>
    PromotesFenced none calls

variable {calls : List TickCall} {granted : Option String}

theorem promotesFenced_of_forall_notMem
    (h : ∀ a e, .promote a e ∉ calls) : PromotesFenced granted calls := by
  induction calls generalizing granted with
  | nil => trivial
  | cons c calls ih =>
    have hrest : ∀ a e, .promote a e ∉ calls := fun a e hmem => h a e (mem_cons_of_mem _ hmem)
    cases c with
    | promote a e => exact absurd mem_cons_self (h a e)
    | _ => exact ih hrest

theorem PromotesFenced.ungranted
    (h : PromotesFenced granted calls) (hhead : ∀ a e, calls.head? ≠ some (.promote a e)) :
    PromotesFenced none calls := by
  cases calls with
  | nil => trivial
  | cons c calls =>
    cases c with
    | promote a e => exact absurd rfl (hhead a e)
    | _ => exact h

theorem promotesFenced_commitFence (addr : String)
    (h : PromotesFenced (some addr) calls) (n : ℕ) (replies : List Bool)
    (hfenced : (commitFence addr n replies).2 = true) :
    PromotesFenced none ((commitFence addr n replies).1 ++ calls) := by
  suffices hall : ∀ granted, PromotesFenced granted ((commitFence addr n replies).1 ++ calls) from
    hall none
  induction n generalizing replies with
  | zero => cases hfenced
  | succ n ih =>
    intro granted
    rw [commitFence] at hfenced ⊢
    split at hfenced
    · rename_i hack
      rw [if_pos hack]
      exact h
    · rename_i hack
      rw [if_neg hack]
      exact ih replies.tail hfenced (some addr)

theorem promotesFenced_promoteSurvivor (p : Pair) (states : List Node) (s : Node)
    (reply : PromoteReply) : PromotesFenced (some s.addr) (p.promoteSurvivor states s reply).2 := by
  cases reply with
  | simple => exact ⟨rfl, promotesFenced_of_forall_notMem (by simp)⟩
  | _ => exact ⟨rfl, trivial⟩

theorem promotesFenced_actOn (hcp : cfg.commitCp = true) (p : Pair) (s : Node) :
    PromotesFenced none (p.actOn cfg i s).2 := by
  simp only [actOn, hcp, if_true]
  split
  · trivial
  split
  · rename_i hfenced
    exact promotesFenced_commitFence _ (promotesFenced_promoteSurvivor _ _ _ _) _ _ hfenced
  · exact promotesFenced_of_forall_notMem fun _ _ => not_promote_mem_commitFence _ _ _

theorem promotesFenced_tick (hcp : cfg.commitCp = true) (p : Pair) (i : TickInput) :
    PromotesFenced none (p.tick cfg i).2 := by
  rw [tick]
  split
  · exact promotesFenced_of_forall_notMem fun _ _ => not_promote_mem_bootstrap
  split
  · exact promotesFenced_of_forall_notMem fun _ _ => not_promote_mem_superviseMaster _ _ _
  rw [failOver]
  dsimp only
  split
  · trivial
  split
  · trivial
  split
  · trivial
  · split
    · trivial
    · exact promotesFenced_actOn hcp _ _

end Pair

/-! ## Watching a controller -/

/-- A promotion a tick called for, with the poll it was decided on and what held at that moment. -/
structure Promotion where
  node : String
  states : List Node
  demoted : List String
  inSync : List String
  deriving DecidableEq, Repr

/-- A pair over many ticks, with who is fenced, who is in sync, and the promotions made. -/
structure Watch where
  pair : Pair
  demoted : List String
  inSync : List String
  promotions : List Promotion
  deriving DecidableEq, Repr

inductive WatchEvent
  | tick (i : TickInput) (lands : List String)
  | synchronise (addr : String)
  /-- A member falls out of sync: it lags, restarts empty, or loses its link. -/
  | fallBehind (addr : String)
  deriving DecidableEq, Repr

/-- Not to be preferred: fenced and not synchronised since, or not in sync. -/
def StaleIn (demoted inSync : List String) (addr : String) : Prop := addr ∈ demoted ∨ addr ∉ inSync

instance (demoted inSync : List String) (addr : String) :
    Decidable (StaleIn demoted inSync addr) := inferInstanceAs (Decidable (_ ∨ _))

def InSyncReplica (demoted inSync : List String) (n : Node) : Prop :=
  n.reachable ∧ n.role = .replica ∧ ¬ StaleIn demoted inSync n.addr

instance (demoted inSync : List String) (n : Node) :
    Decidable (InSyncReplica demoted inSync n) := inferInstanceAs (Decidable (_ ∧ _))

/-- **A sound promotion** does not pass over a reachable in-sync replica for a member that was not
in sync, or was fenced and not synchronised since. -/
def Promotion.Sound (p : Promotion) : Prop :=
  StaleIn p.demoted p.inSync p.node →
    ¬ ∃ b ∈ p.states, b.addr ≠ p.node ∧ InSyncReplica p.demoted p.inSync b

instance (p : Promotion) : Decidable p.Sound := inferInstanceAs (Decidable (_ → _))

def fencedBy (calls : List TickCall) (lands : List String) : List String :=
  calls.filterMap fun c => match c with
    | .demote addr _ => if addr ∈ lands then some addr else none
    | _ => none

def promotedBy (calls : List TickCall) : List String :=
  calls.filterMap fun c => match c with
    | .promote addr _ => some addr
    | _ => none

def Watch.step (cfg : Config) (w : Watch) : WatchEvent → Option Watch
  | .tick i lands =>
    if i.states.map Node.addr = w.pair.nodes ∧ i.recheck.map Node.addr = w.pair.nodes then
      let (pair, calls) := w.pair.tick cfg i
      some { w with
        pair
        demoted := w.demoted ++ fencedBy calls lands
        promotions := w.promotions ++
          (promotedBy calls).map fun a => ⟨a, i.states, w.demoted, w.inSync⟩ }
    else none
  | .synchronise a => some { w with demoted := w.demoted.filter (· ≠ a), inSync := a :: w.inSync }
  | .fallBehind a => some { w with inSync := w.inSync.filter (· ≠ a) }

/-- The controller over a run, started with nothing fenced and nothing promoted. -/
def watchMachine (cfg : Config) : Machine Watch WatchEvent where
  init w := w.demoted = [] ∧ w.promotions = []
  step := Watch.step cfg

/-! ## The condition -/

/-- **In-sync members rank first.**  At a poll without a master that shows an in-sync replica, a
promotable member that is fenced or unsynchronised is outranked by one that is neither. -/
def Watch.RanksInSyncFirst (w : Watch) : WatchEvent → Prop
  | .tick i _ =>
    Pair.masters i.states = [] → (∃ b ∈ i.states, InSyncReplica w.demoted w.inSync b) →
      ∀ x ∈ i.states, x.promotable → StaleIn w.demoted w.inSync x.addr →
        ∃ y ∈ i.states, y.promotable ∧ ¬ StaleIn w.demoted w.inSync y.addr ∧ x.rank < y.rank
  | _ => True

instance (w : Watch) (e : WatchEvent) : Decidable (w.RanksInSyncFirst e) :=
  match e with
  | .tick _ _ => inferInstanceAs (Decidable (_ → _ → ∀ x ∈ _, _))
  | .synchronise _ => inferInstanceAs (Decidable True)
  | .fallBehind _ => inferInstanceAs (Decidable True)

theorem Pair.survivor_eq_some {states : List Node} {s : Node} (h : Pair.survivor states = some s) :
    (s ∈ states ∧ s.promotable) ∧ ∀ n ∈ states, n.promotable → n.rank ≤ s.rank := by
  obtain ⟨hmem, hmax⟩ := maxByKey_eq_some h
  refine ⟨mem_filter.mp hmem, fun n hn hp => hmax n (mem_filter.mpr ⟨hn, hp⟩)⟩

theorem mem_promotedBy {calls : List TickCall} {a : String} :
    a ∈ promotedBy calls ↔ ∃ e, TickCall.promote a e ∈ calls := by
  rw [promotedBy, mem_filterMap]
  constructor
  · rintro ⟨c, hc, hca⟩
    split at hca
    · cases hca
      exact ⟨_, hc⟩
    · cases hca
  · rintro ⟨e, he⟩
    exact ⟨_, he, rfl⟩

/-- **One tick promotes soundly**: the survivor outranks every promotable member. -/
theorem Watch.sound_of_promote {cfg : Config} {w : Watch} {i : TickInput} {lands : List String}
    {a : String} (hok : w.RanksInSyncFirst (.tick i lands))
    (ha : a ∈ promotedBy (w.pair.tick cfg i).2) :
    Promotion.Sound ⟨a, i.states, w.demoted, w.inSync⟩ := by
  obtain ⟨e, he⟩ := mem_promotedBy.mp ha
  obtain ⟨hnone, s, hs, rfl, -⟩ := Pair.promote_mem_tick he
  obtain ⟨⟨hmem, hp⟩, hmax⟩ := Pair.survivor_eq_some hs
  rintro hstale ⟨b, hb, -, hsync⟩
  obtain ⟨y, hy, hyp, -, hlt⟩ := hok hnone ⟨b, hb, hsync⟩ s hmem hp hstale
  exact absurd (hmax y hy hyp) (not_le.mpr hlt)

/-- **Sound survivor choice.**  Where the in-sync members rank first at every poll without a master,
no promotion passes over an in-sync replica for a fenced or unsynchronised member. -/
theorem Watch.promotions_sound (cfg : Config) {w : Watch}
    (h : (watchMachine cfg).Reach Watch.RanksInSyncFirst w) : ∀ p ∈ w.promotions, p.Sound := by
  refine Machine.Reach.invariant (I := fun w => ∀ p ∈ w.promotions, p.Sound) ?_ ?_ h
  · rintro w ⟨-, hp⟩
    simp [hp]
  intro w e w' _ hw hok hst
  cases e with
  | tick i lands =>
    obtain ⟨-, ⟨⟩⟩ := Option.ite_none_right_eq_some.mp hst
    intro p hp
    rcases mem_append.mp hp with hp | hp
    · exact hw p hp
    · obtain ⟨a, ha, rfl⟩ := mem_map.mp hp
      exact Watch.sound_of_promote hok ha
  | _ =>
    cases hst
    exact hw

theorem Watch.promotions_sound_plain_failover :
    let up (a : String) (role : NodeRole) (epoch live : ℕ) : Node :=
      ⟨a, true, true, role, false, epoch, live, some 0, none, none⟩
    let down (a : String) : Node := ⟨a, false, false, .unknown, false, 0, 0, none, none, none⟩
    let poll (states : List Node) : WatchEvent :=
      .tick ⟨0, states, none, states, [true], .simple⟩ []
    let start : Watch :=
      ⟨⟨["a:1", "b:1", "c:1"], false, [], 0, false, 0, none, none, 0, []⟩, [], ["a:1", "b:1"], []⟩
    let lost := poll [down "a:1", up "b:1" .replica 5 0, up "c:1" .replica 4 0]
    let run := [poll [up "a:1" .master 5 1, up "b:1" .replica 5 0, up "c:1" .replica 4 0],
      lost, lost, lost]
    ∃ w, (watchMachine ⟨3, 5000, 5000, true⟩).exec start run = some w ∧
      (w.promotions.map Promotion.node = ["b:1"]) ∧ ∀ p ∈ w.promotions, p.Sound := by
  intro up down poll start lost run
  refine ⟨_, rfl, by decide, Watch.promotions_sound ⟨3, 5000, 5000, true⟩ ?_⟩
  have hguard : (watchMachine ⟨3, 5000, 5000, true⟩).Guarded Watch.RanksInSyncFirst start run := by
    decide
  exact Machine.Reach.of_exec (.init ⟨rfl, rfl⟩) hguard rfl

/-- **The fenced node wins.**  A tick fences the superseded master `z` at `6`, above the master's
`5`; that one dies, and `z` is promoted over the in-sync replica `b`. -/
theorem Watch.promotes_fenced_over_in_sync :
    let up (a : String) (role : NodeRole) (epoch live : ℕ) : Node :=
      ⟨a, true, true, role, false, epoch, live, some 0, none, none⟩
    let down (a : String) : Node := ⟨a, false, false, .unknown, false, 0, 0, none, none, none⟩
    let poll (states : List Node) : WatchEvent :=
      .tick ⟨0, states, none, states, [true], .simple⟩ ["z:1"]
    let start : Watch :=
      ⟨⟨["a:1", "b:1", "z:1"], false, [], 0, false, 0, none, none, 0, []⟩, [], ["a:1", "b:1"], []⟩
    let lost := poll [down "a:1", up "b:1" .replica 5 0, up "z:1" .replica 6 0]
    let run := [poll [up "a:1" .master 5 1, up "b:1" .replica 5 0, up "z:1" .master 3 0],
      lost, lost, lost]
    ∃ w, (watchMachine ⟨3, 5000, 5000, true⟩).exec start run = some w ∧
      (watchMachine ⟨3, 5000, 5000, true⟩).Reachable w ∧
      w.promotions.map (fun p => (p.node, p.demoted)) = [("z:1", ["z:1"])] ∧
      ∃ p ∈ w.promotions, ¬ p.Sound := by
  intro up down poll start lost run
  have hrun : (watchMachine ⟨3, 5000, 5000, true⟩).exec start run = some _ := rfl
  exact ⟨_, rfl, Machine.reachable_of_exec _ ⟨rfl, rfl⟩ hrun, by decide, by decide⟩

end Flint
