import FlintCache.ControlPlane.Server
import FlintCache.Controller.Tick
import FlintCache.Storage.Role

/-!
# Failover/Fleet — members, control plane and controllers: who may write

The members renew their leases, the control plane answers and records fences, controllers act on
their ticks' decisions, and every message between them may be late or lost.  A promotion does not
wait for the member it replaces: the old master finds out at its next renewal, or when its lease
runs out.
-/

namespace Flint

/-! ## A member

It accepts client writes while it is up and not read-only; a deadline of `0` is unarmed. -/

section Member

/-- One node of the pair, as it is on disk and in memory. -/
structure Member where
  claim : RoleClaim
  up : Bool
  readOnly : Bool
  /-- When the lease runs out, `0` while unarmed. -/
  deadline : ℕ
  waiting : Option ℕ
  /-- History: the generation of the fence it was last promoted under. -/
  tenure : Option ℕ
  /-- History: the generation of the record its last `OK` was read from, `none` where its pair had
  none. -/
  okGen : Option ℕ
  /-- History: when that `OK` arrived. -/
  okAt : ℕ
  checked : ℕ
  deriving DecidableEq, Repr

namespace Member

variable (m : Member)

def writable : Bool := m.up && !m.readOnly

def watchdog (now : ℕ) : Member :=
  if m.deadline ≠ 0 && m.deadline < now && !m.readOnly
      then { m with readOnly := true, checked := now }
  else { m with checked := now }

/-- The renewal thread calls the control plane, unless there is nothing to renew. -/
def renew (id : ℕ) : Option Member :=
  if m.up && !m.readOnly && m.waiting.isNone then some { m with waiting := some id } else none

/-- The renewal thread handles the answer; anything but `OK` and `SUPERSEDED` counts as none. -/
def renewed (ttl now : ℕ) (gen : Option ℕ) : Except String LeaseReply → Member
  | .ok .ok => { m with waiting := none, deadline := now + ttl, okGen := gen, okAt := now }
  | .ok (.superseded _) => { m with waiting := none, readOnly := true }
  | _ => { m with waiting := none }

def promote (epoch : ℕ) (gen : Option ℕ) : Member :=
  match setRole (some m.claim) ⟨.master, ⟨0, epoch⟩⟩ with
  | .ok claim => { m with claim, readOnly := false, deadline := 0, tenure := gen }
  | .error _ => m

def demote (epoch : ℕ) : Member :=
  match setRole (some m.claim) ⟨.replica, ⟨0, epoch⟩⟩ with
  | .ok claim => { m with claim, readOnly := true }
  | .error _ => m

def crash : Member := { m with up := false, waiting := none }

def boot : Member :=
  { m with up := true, readOnly := m.claim.role = .replica, deadline := 0, waiting := none }

def reseed (epoch : Epoch) : Member := { m with claim := ⟨.replica, epoch⟩ }.boot

structure Sound (ttl now : ℕ) : Prop where
  master : m.writable = true → m.claim.role = .master
  armed : m.deadline ≠ 0 → m.deadline = m.okAt + ttl ∧ m.okAt ≤ now
  unexpired : m.writable = true → m.deadline ≠ 0 → m.checked ≤ m.deadline
  past : m.checked ≤ now

variable {m} {ttl now : ℕ}

theorem watchdog_spec (m : Member) (now : ℕ) :
    (m.watchdog now).claim = m.claim ∧ (m.watchdog now).tenure = m.tenure ∧
    (m.watchdog now).okGen = m.okGen := by
  rw [watchdog]
  split <;> exact ⟨rfl, rfl, rfl⟩

theorem renewed_spec (gen : Option ℕ) (reply : Except String LeaseReply) :
    (m.renewed ttl now gen reply).claim = m.claim ∧
      (m.renewed ttl now gen reply).tenure = m.tenure ∧
      ((m.renewed ttl now gen reply).okGen = m.okGen ∨
        (m.renewed ttl now gen reply).okGen = gen) := by
  match reply with
  | .ok .ok => exact ⟨rfl, rfl, .inr rfl⟩
  | .ok (.superseded _) | .ok .noPair | .ok (.redirect _) | .error _ => exact ⟨rfl, rfl, .inl rfl⟩

theorem promote_spec (epoch : ℕ) (gen : Option ℕ) : m.promote epoch gen = m ∨
      (m.promote epoch gen).tenure = gen ∧ (m.promote epoch gen).okGen = m.okGen := by
  rw [promote]
  split
  · exact .inr ⟨rfl, rfl⟩
  · exact .inl rfl

theorem demote_spec (epoch : ℕ) : m.demote epoch = m ∨ (m.demote epoch).claim.role = .replica ∧
      (m.demote epoch).tenure = m.tenure ∧ (m.demote epoch).okGen = m.okGen := by
  rw [demote]
  split
  · rename_i claim hset
    obtain ⟨rfl, -⟩ := setRole_eq_ok hset
    exact .inr ⟨rfl, rfl, rfl⟩
  · exact .inl rfl

namespace Sound

section

variable (hm : m.Sound ttl now)
include hm

theorem later {now' : ℕ} (h : now ≤ now') : m.Sound ttl now' :=
  ⟨hm.master, fun hd => ⟨(hm.armed hd).1, (hm.armed hd).2.trans h⟩, hm.unexpired, hm.past.trans h⟩

theorem watchdog : (m.watchdog now).Sound ttl now := by
  rw [Member.watchdog]
  split
  · exact ⟨by simp [writable], hm.armed, by simp [writable], le_rfl⟩
  rename_i hlook
  refine ⟨hm.master, hm.armed, fun hw hd => ?_, le_rfl⟩
  have hro : m.readOnly = false := by
    simp only [writable, Bool.and_eq_true, Bool.not_eq_true'] at hw
    exact hw.2
  simp only [Bool.and_eq_true, decide_eq_true_eq, Bool.not_eq_true', hro, and_true, not_and,
    Nat.not_lt] at hlook
  exact hlook hd

theorem renew {id : ℕ} {m' : Member} (h : m.renew id = some m') :
    m'.Sound ttl now ∧ m'.claim = m.claim ∧ m'.tenure = m.tenure ∧ m'.okGen = m.okGen := by
  obtain ⟨-, ⟨⟩⟩ := Option.ite_none_right_eq_some.mp h
  exact ⟨{ hm with }, rfl, rfl, rfl⟩

theorem renewed (gen : Option ℕ) (reply : Except String LeaseReply) :
    (m.renewed ttl now gen reply).Sound ttl now := by
  have hwait : Sound { m with waiting := none } ttl now :=
    { hm with }
  match reply with
  | .ok .ok =>
    exact ⟨hm.master, fun _ => ⟨rfl, le_rfl⟩, fun _ _ =>
        hm.past.trans (Nat.le_add_right _ _), hm.past⟩
  | .ok (.superseded _) => exact ⟨by simp [Member.renewed, writable], hm.armed,
      by simp [Member.renewed, writable], hm.past⟩
  | .ok .noPair | .ok (.redirect _) | .error _ => exact hwait

theorem promote (epoch : ℕ) (gen : Option ℕ) : (m.promote epoch gen).Sound ttl now := by
  rw [Member.promote]
  split
  · rename_i claim hset
    obtain ⟨rfl, -⟩ := setRole_eq_ok hset
    exact ⟨fun _ => rfl, by simp, by simp, hm.past⟩
  · exact hm

theorem demote (epoch : ℕ) : (m.demote epoch).Sound ttl now := by
  rw [Member.demote]
  split
  · exact ⟨by simp [writable], hm.armed, by simp [writable], hm.past⟩
  · exact hm

theorem crash : m.crash.Sound ttl now :=
  ⟨by simp [Member.crash, writable], hm.armed, by simp [Member.crash, writable], hm.past⟩

theorem boot : m.boot.Sound ttl now := by
  refine ⟨fun hw => ?_, by simp [Member.boot], by simp [Member.boot], hm.past⟩
  have hrole : m.claim.role ≠ .replica := by simpa [Member.boot, writable] using hw
  cases h : m.claim.role with
  | master => exact h
  | replica => exact absurd h hrole

theorem reseed (epoch : Epoch) : (m.reseed epoch).Sound ttl now :=
  ⟨by simp [Member.reseed, Member.boot, writable], by simp [Member.reseed, Member.boot],
    by simp [Member.reseed, Member.boot], hm.past⟩

end

end Sound

end Member

end Member

open List Option

/-! ## The fleet -/

/-- A `CPLEASE` on its way to the control plane, or waiting there. -/
structure Renewal where
  id : ℕ
  addr : String
  missed : Bool
  deriving DecidableEq, Repr

/-- Its answer on the way back, with the generation it was read at. -/
structure Answer where
  id : ℕ
  addr : String
  reply : Except String LeaseReply
  /-- History: the generation of the row that said `OK`. -/
  gen : Option ℕ

/-- A tick under way: the calls it has left, and the fence it waits for or was granted. -/
structure Acting where
  calls : List TickCall
  waiting : Option (ℕ × String)
  granted : Option (String × ℕ)
  deriving DecidableEq, Repr

/-- A pair, the lease authority and the messages between them. -/
structure Fleet where
  now : ℕ
  cp : CpServer
  members : String → Member
  nextId : ℕ
  renewals : List Renewal
  answers : List Answer
  fences : List (ℕ × String)
  /-- Their acknowledgements on the way back, with the generation recorded. -/
  acks : List (ℕ × String × ℕ)
  /-- Commands on their way to members; a promotion with the generation it was granted at. -/
  commands : List (TickCall × Option ℕ)
  acting : List Acting

/-- What may happen to a pair: one step of a node, of the controller or of the network. -/
inductive FleetEvent
  | clock (d : ℕ)
  | watchdog (a : String)
  | renew (a : String)
  | readLease (i : ℕ)
  | adoptLease (i : ℕ) (persists : Bool)
  | renewed (i : ℕ)
  | giveUp (a : String)
  /-- A controller's tick decides; a poll may miss a member, and be old by the time it is acted on.
  -/
  | tick (p : Pair) (i : TickInput)
  | act (j : ℕ)
  | fence (i : ℕ) (persists : Bool)
  | fenced (j i : ℕ)
  | fenceFailed (j : ℕ)
  | execute (i : ℕ)
  | commitOther
  | cpRestart
  | crash (a : String)
  | boot (a : String)
  | reseed (a : String) (epoch : Epoch)

namespace Fleet

variable (ttl : ℕ) (cfg : Config) (s : Fleet)

def setMember (a : String) (m : Member) : Fleet :=
  { s with members := Function.update s.members a m }

def answer (i : ℕ) (r : Renewal) (reply : Except String LeaseReply) (gen : Option ℕ) : Fleet :=
  { s with renewals := s.renewals.eraseIdx i, answers := s.answers ++ [⟨r.id, r.addr, reply, gen⟩] }

def readLease (i : ℕ) : Option Fleet :=
  match s.renewals[i]? with
  | none => none
  | some r =>
    if r.missed then none
    else
      match s.cp.readLease r.addr with
      | none => some { s with renewals := s.renewals.set i { r with missed := true } }
      | some reply =>
        some (s.answer i r (.ok reply)
          (if reply = .ok then (leaseRow s.cp.mirror r.addr).map LeaseRow.gen else none))

def adoptLease (i : ℕ) (persists : Bool) : Option Fleet :=
  match s.renewals[i]? with
  | none => none
  | some r =>
    if r.missed then
      let (cp, reply) := s.cp.adoptLease r.addr persists
      some ({ s with cp }.answer i r reply none)
    else none

def renewed (i : ℕ) : Option Fleet :=
  match s.answers[i]? with
  | none => none
  | some ans =>
    if (s.members ans.addr).waiting = some ans.id then
      some ({ s with answers := s.answers.eraseIdx i }.setMember ans.addr
        ((s.members ans.addr).renewed ttl s.now ans.gen ans.reply))
    else none

/-- A controller makes its next call: a fence is waited for, everything else is sent. -/
def act (j : ℕ) : Option Fleet :=
  match s.acting[j]? with
  | some ⟨.cpFence a :: calls, none, _⟩ =>
    some { s with
      nextId := s.nextId + 1
      fences := s.fences ++ [(s.nextId, a)]
      acting := s.acting.set j ⟨calls, some (s.nextId, a), none⟩ }
  | some ⟨c :: calls, none, granted⟩ =>
    some { s with
      commands := s.commands ++ [(c, granted.map Prod.snd)]
      acting := s.acting.set j ⟨calls, none, none⟩ }
  | _ => none

def fence (i : ℕ) (persists : Bool) : Option Fleet :=
  match s.fences[i]? with
  | none => none
  | some (id, a) =>
    let (cp, reply) := s.cp.fence a persists
    some { s with
      cp
      fences := s.fences.eraseIdx i
      acks := match reply with
        | .ok g => s.acks ++ [(id, a, g)]
        | .error _ => s.acks }

def fenced (j i : ℕ) : Option Fleet :=
  match s.acting[j]?, s.acks[i]? with
  | some ⟨calls, some (id, a), _⟩, some (id', a', g) =>
    if id = id' && a = a' && !(calls.head?.any fun c => c = .cpFence a) then
      some { s with
        acks := s.acks.eraseIdx i
        acting := s.acting.set j ⟨calls, none, some (a, g)⟩ }
    else none
  | _, _ => none

def fenceFailed (j : ℕ) : Option Fleet :=
  match s.acting[j]? with
  | some ⟨calls, some _, _⟩ =>
    match calls with
    | .promote _ _ :: _ => none
    | _ => some { s with acting := s.acting.set j ⟨calls, none, none⟩ }
  | _ => none

def execute (i : ℕ) : Option Fleet :=
  match s.commands[i]? with
  | none => none
  | some (c, gen) =>
    let s := { s with commands := s.commands.eraseIdx i }
    match c with
    | .promote a e => if (s.members a).up
        then some (s.setMember a ((s.members a).promote e gen)) else none
    | .demote a e => if (s.members a).up
        then some (s.setMember a ((s.members a).demote e)) else none
    -- re-pointing a replica and starting a process leave the write gate alone
    | .cpFence _ | .follow _ _ | .spawn _ _ => some s

def step : FleetEvent → Option Fleet
  | .clock d => some { s with now := s.now + d }
  | .watchdog a =>
    if (s.members a).up then some (s.setMember a ((s.members a).watchdog s.now)) else none
  | .renew a =>
    if ttl = 0 then none
    else ((s.members a).renew s.nextId).map fun m =>
      { s.setMember a m with
        nextId := s.nextId + 1
        renewals := s.renewals ++ [⟨s.nextId, a, false⟩] }
  | .readLease i => s.readLease i
  | .adoptLease i persists => s.adoptLease i persists
  | .renewed i => s.renewed ttl i
  | .giveUp a => some (s.setMember a ((s.members a).renewed ttl s.now none (.error "unreachable")))
  | .tick p i => some { s with acting := s.acting ++
      [⟨(p.tick { cfg with commitCp := true } i).2, none, none⟩] }
  | .act j => s.act j
  | .fence i persists => s.fence i persists
  | .fenced j i => s.fenced j i
  | .fenceFailed j => s.fenceFailed j
  | .execute i => s.execute i
  | .commitOther => some { s with cp := s.cp.commitOther }
  | .cpRestart => some
      { s with cp := s.cp.restart, renewals := s.renewals.filter fun r => !r.missed }
  | .crash a => some (s.setMember a (s.members a).crash)
  | .boot a => if (s.members a).up then none else some (s.setMember a (s.members a).boot)
  | .reseed a epoch =>
    if (s.members a).up then none else some (s.setMember a ((s.members a).reseed epoch))

end Fleet

/-- The fleet, from its registration on: no pair has a record, and none has two durable masters. -/
def fleetMachine (ttl : ℕ) (cfg : Config) : Machine Fleet FleetEvent where
  init s := s.cp.state.leases = [] ∧ s.cp.disk = s.cp.state ∧ s.cp.mirror = [] ∧
    s.cp.state.DisjointPairs ∧ s.renewals = [] ∧ s.answers = [] ∧ s.fences = [] ∧ s.acks = [] ∧
    s.commands = [] ∧ s.acting = [] ∧
    (∀ a, (s.members a).Sound ttl s.now ∧ (s.members a).deadline = 0 ∧ (s.members a).tenure = none ∧
      (s.members a).okGen = none) ∧
    ∀ p ∈ s.cp.state.pairs, ∀ a ∈ p, ∀ b ∈ p, (s.members a).claim.role = .master →
      (s.members b).claim.role = .master → a = b
  step := Fleet.step ttl cfg

/-! ## The invariant -/

/-- **A right that goes back to generation `g` of the record**: the record still names its holder at
that generation, or has been fenced since. -/
def Backed (rows : List LeaseRow) (a : String) (gen : Option ℕ) : Prop :=
  ∀ g ∈ gen, ∃ row, leaseRow rows a = some row ∧ (g < row.gen ∨ g = row.gen ∧ row.master = a)

theorem backed_none (rows : List LeaseRow) (a : String) : Backed rows a none := fun _ h => nomatch h

variable {gen : Option ℕ}

theorem Backed.mono {rows rows' : List LeaseRow} {a : String}
    (h : Backed rows a gen) (hnew : Newer rows rows') : Backed rows' a gen := by
  intro g hg
  obtain ⟨row, hrow, hgen⟩ := h g hg
  obtain ⟨row', hrow', hlt | rfl⟩ := hnew a row hrow
  · refine ⟨row', hrow', .inl ?_⟩
    rcases hgen with h | ⟨rfl, -⟩
    · exact h.trans hlt
    · exact hlt
  · exact ⟨_, hrow', hgen⟩

theorem Backed.lt {rows : List LeaseRow} {a : String} (h : Backed rows a gen)
    {row : LeaseRow} (hrow : leaseRow rows a = some row) (hne : row.master ≠ a) :
    ∀ g ∈ gen, g < row.gen := by
  intro g hg
  obtain ⟨row', hrow', hlt | ⟨-, hmaster⟩⟩ := h g hg
  all_goals obtain rfl := some.inj (hrow.symm.trans hrow')
  · exact hlt
  · exact absurd hmaster hne

def Acting.fencedFor (t : Acting) : Option String :=
  match t.waiting with
  | some (_, a) => some a
  | none => t.granted.map Prod.fst

structure Fleet.Inv (ttl : ℕ) (s : Fleet) : Prop where
  cp : s.cp.Sound
  members : ∀ a, (s.members a).Sound ttl s.now
  tenure : ∀ a, Backed s.cp.mirror a (s.members a).tenure
  /-- …and every `OK` it lives on was said by the record… -/
  okGen : ∀ a, Backed s.cp.mirror a (s.members a).okGen
  answers : ∀ ans ∈ s.answers, Backed s.cp.mirror ans.addr ans.gen
  acks : ∀ k ∈ s.acks, Backed s.cp.mirror k.2.1 (some k.2.2)
  commands : ∀ c ∈ s.commands, ∀ a e, c.1 = .promote a e →
    ∃ g, c.2 = some g ∧ Backed s.cp.mirror a (some g)
  acting : ∀ t ∈ s.acting, (∀ k ∈ t.granted, Backed s.cp.mirror k.1 (some k.2)) ∧
    Pair.PromotesFenced t.fencedFor t.calls
  sole : ∀ p ∈ s.cp.state.pairs, ∀ a ∈ p, ∀ b ∈ p, leaseRow s.cp.mirror a = none →
    (s.members a).claim.role = .master → (s.members b).claim.role = .master → a = b

open Fleet

namespace Fleet.Inv

variable {ttl : ℕ} {cfg : Config} {s s' : Fleet}

section

variable (hs : s.Inv ttl)
include hs

theorem cpStep {cp : CpServer} (hsound : cp.Sound)
    (hnew : Newer s.cp.mirror cp.mirror) (hpairs : cp.state.pairs = s.cp.state.pairs) :
    Inv ttl { s with cp } where
  cp := hsound
  members := hs.members
  tenure a := (hs.tenure a).mono hnew
  okGen a := (hs.okGen a).mono hnew
  answers ans h := (hs.answers ans h).mono hnew
  acks k h := (hs.acks k h).mono hnew
  commands c h a e hc := by
    obtain ⟨g, hg, hb⟩ := hs.commands c h a e hc
    exact ⟨g, hg, hb.mono hnew⟩
  acting t h := ⟨fun k hk => ((hs.acting t h).1 k hk).mono hnew, (hs.acting t h).2⟩
  sole p hp a ha b hb hnone := by
    refine hs.sole p (hpairs ▸ hp) a ha b hb ?_
    by_contra hsome
    obtain ⟨row, hrow⟩ := ne_none_iff_exists'.mp hsome
    obtain ⟨row', hrow', -⟩ := hnew a row hrow
    cases hnone.symm.trans hrow'

theorem setMember (a : String) {m : Member} (hsound : m.Sound ttl s.now)
    (htenure : Backed s.cp.mirror a m.tenure) (hok : Backed s.cp.mirror a m.okGen)
    (hrole : m.claim.role = .master →
      (s.members a).claim.role = .master ∨ leaseRow s.cp.mirror a ≠ none) :
    Inv ttl (s.setMember a m) := by
  have hcases : ∀ b, (s.setMember a m).members b = s.members b ∨
      b = a ∧ (s.setMember a m).members b = m := by
    intro b
    by_cases h : b = a
    · exact .inr ⟨h, by simp [Fleet.setMember, h]⟩
    · exact .inl (by simp [Fleet.setMember, h])
  refine ⟨hs.cp, fun b => ?_, fun b => ?_, fun b => ?_, hs.answers, hs.acks,
      hs.commands, hs.acting, ?_⟩
  · rcases hcases b with h | ⟨rfl, h⟩ <;> rw [h]
    · exact hs.members b
    · exact hsound
  · rcases hcases b with h | ⟨rfl, h⟩ <;> rw [h]
    · exact hs.tenure b
    · exact htenure
  · rcases hcases b with h | ⟨rfl, h⟩ <;> rw [h]
    · exact hs.okGen b
    · exact hok
  intro p hp x hx y hy hnone hmx hmy
  -- a pair without a record had these masters before
  have hold : ∀ z ∈ p, ((s.setMember a m).members z).claim.role = .master →
      (s.members z).claim.role = .master := by
    intro z hz hmz
    rcases hcases z with h | ⟨rfl, h⟩ <;> rw [h] at hmz
    · exact hmz
    refine (hrole hmz).resolve_right (not_not.mpr ?_)
    by_contra hsome
    obtain ⟨row, hrow⟩ := ne_none_iff_exists'.mp hsome
    cases hnone.symm.trans (hs.cp.leaseRow_of_pair hp hz hx hrow)
  exact hs.sole p hp x hx y hy hnone (hold x hx hmx) (hold y hy hmy)

theorem keepMember (a : String) {m : Member} (hsound : m.Sound ttl s.now)
    (hclaim : m.claim = (s.members a).claim) (htenure : m.tenure = (s.members a).tenure)
    (hok : m.okGen = (s.members a).okGen) : Inv ttl (s.setMember a m) :=
  hs.setMember a hsound (htenure ▸ hs.tenure a) (hok ▸ hs.okGen a) fun h => .inl (hclaim ▸ h)

variable {i : ℕ}

theorem readLease (h : s.readLease i = some s') : s'.Inv ttl := by
  rw [Fleet.readLease] at h
  split at h
  · cases h
  rename_i r hr
  split at h
  · cases h
  split at h
  · cases h
    exact { hs with }
  rename_i reply hreply
  cases h
  refine { hs with answers := fun ans hans => ?_ }
  refine of_mem_snoc hans (hs.answers ans) ?_
  obtain ⟨row, hrow, hreply⟩ := map_eq_some_iff.mp hreply
  rintro g hg
  split at hg
  · rename_i hok
    rw [hrow] at hg
    cases hg
    refine ⟨row, hrow, .inr ⟨rfl, ?_⟩⟩
    by_contra hne
    simp [hok, hne] at hreply
  · cases hg

theorem renewed (h : s.renewed ttl i = some s') : s'.Inv ttl := by
  rw [Fleet.renewed] at h
  split at h
  · cases h
  rename_i ans hans
  obtain ⟨-, ⟨⟩⟩ := ite_none_right_eq_some.mp h
  have hback := hs.answers ans (mem_of_getElem? hans)
  have hdrop : Inv ttl { s with answers := s.answers.eraseIdx i } :=
    { hs with answers := fun ans hans => hs.answers ans (mem_of_mem_eraseIdx hans) }
  have hsound := (hs.members ans.addr).renewed ans.gen ans.reply
  obtain ⟨hclaim, htenure, hok⟩ := Member.renewed_spec (m := s.members ans.addr) ans.gen ans.reply
  refine hdrop.setMember ans.addr hsound (htenure ▸ hs.tenure _) ?_ fun h => .inl (hclaim ▸ h)
  rcases hok with hok | hok <;> rw [hok]
  · exact hs.okGen _
  · exact hback

variable {persists : Bool}

theorem adoptLease (h : s.adoptLease i persists = some s') : s'.Inv ttl := by
  rw [Fleet.adoptLease] at h
  split at h
  · cases h
  rename_i r hr
  obtain ⟨-, ⟨⟩⟩ := ite_none_right_eq_some.mp h
  obtain ⟨hsound, hnew, hpairs⟩ := hs.cp.adoptLease r.addr persists
  have hcp := hs.cpStep hsound hnew hpairs
  refine { hcp with answers := fun ans hans => ?_ }
  exact of_mem_snoc hans (hcp.answers ans) (backed_none _ _)

theorem fence (h : s.fence i persists = some s') : s'.Inv ttl := by
  rw [Fleet.fence] at h
  split at h
  · cases h
  rename_i id a hreq
  cases h
  obtain ⟨hsound, hnew, hpairs, hack⟩ := hs.cp.fence a persists
  have hcp := hs.cpStep hsound hnew hpairs
  refine { hcp with acks := fun k hk => ?_ }
  dsimp only at hk
  split at hk
  · rename_i g hg
    refine of_mem_snoc hk (hcp.acks k) ?_
    obtain ⟨row, hrow, hgen, hmaster⟩ := hack g hg
    rintro g' ⟨⟩
    exact ⟨row, hrow, .inr ⟨hgen.symm, hmaster⟩⟩
  · exact hcp.acks k hk

theorem setActing (j : ℕ) {t : Acting}
    (hgranted : ∀ k ∈ t.granted, Backed s.cp.mirror k.1 (some k.2))
    (hcalls : Pair.PromotesFenced t.fencedFor t.calls) :
    ∀ t' ∈ s.acting.set j t, (∀ k ∈ t'.granted, Backed s.cp.mirror k.1 (some k.2)) ∧
      Pair.PromotesFenced t'.fencedFor t'.calls := by
  intro t' ht'
  rcases mem_or_eq_of_mem_set ht' with h | rfl
  · exact hs.acting t' h
  · exact ⟨hgranted, hcalls⟩

theorem act {j : ℕ} (h : s.act j = some s') : s'.Inv ttl := by
  rw [Fleet.act] at h
  split at h
  · rename_i a calls granted hj
    cases h
    have hcalls := (hs.acting _ (mem_of_getElem? hj)).2
    exact { hs with acting := hs.setActing j (by simp) hcalls }
  · rename_i c calls granted hne hj
    cases h
    obtain ⟨hgranted, hcalls⟩ := hs.acting _ (mem_of_getElem? hj)
    have hrest : Pair.PromotesFenced none calls := by
      cases c with
      | cpFence a => exact absurd rfl (hne a)
      | promote a e => exact hcalls.2
      | _ => exact hcalls
    refine { hs with
      acting := hs.setActing j (by simp) hrest
      commands := fun c' hc' a e hpr => ?_ }
    rcases mem_append.mp hc' with hc' | hc'
    · exact hs.commands c' hc' a e hpr
    -- the promotion is of the member just fenced
    rw [mem_singleton.mp hc'] at hpr ⊢
    obtain rfl : c = .promote a e := hpr
    obtain ⟨k, hk, hka⟩ := map_eq_some_iff.mp hcalls.1
    have hk : granted = some k := hk
    refine ⟨k.2, by simp [hk], ?_⟩
    exact hka ▸ hgranted k hk
  · cases h

theorem fenced {j i : ℕ} (h : s.fenced j i = some s') : s'.Inv ttl := by
  rw [Fleet.fenced] at h
  split at h
  · rename_i calls id a granted id' a' g hj hack
    obtain ⟨hmatch, ⟨⟩⟩ := ite_none_right_eq_some.mp h
    have ha : a = a' := by
      simp only [Bool.and_eq_true, decide_eq_true_eq] at hmatch
      exact hmatch.1.2
    have hback := hs.acks _ (mem_of_getElem? hack)
    refine { hs with
      acks := fun k hk => hs.acks k (mem_of_mem_eraseIdx hk)
      acting := hs.setActing j ?_ (hs.acting _ (mem_of_getElem? hj)).2 }
    rintro k ⟨⟩
    exact ha ▸ hback
  · cases h

theorem fenceFailed {j : ℕ} (h : s.fenceFailed j = some s') : s'.Inv ttl := by
  rw [Fleet.fenceFailed] at h
  split at h
  · rename_i calls w granted hj
    have hcalls := (hs.acting _ (mem_of_getElem? hj)).2
    split at h
    · cases h
    rename_i hne
    cases h
    refine { hs with acting := hs.setActing j (by simp) (hcalls.ungranted fun a e hhead => ?_) }
    obtain ⟨rest, rfl⟩ : ∃ rest, calls = .promote a e :: rest := by
      cases calls with
      | nil => cases hhead
      | cons c rest => exact ⟨rest, by rw [some.inj hhead]⟩
    exact hne a e rest rfl
  · cases h

theorem execute (h : s.execute i = some s') : s'.Inv ttl := by
  rw [Fleet.execute] at h
  split at h
  · cases h
  rename_i c gen hc
  have hdrop : Inv ttl { s with commands := s.commands.eraseIdx i } :=
    { hs with commands := fun c hc => hs.commands c (mem_of_mem_eraseIdx hc) }
  cases c with
  | promote a e =>
    simp only at h
    obtain ⟨-, ⟨⟩⟩ := ite_none_right_eq_some.mp h
    obtain ⟨g, rfl, hback⟩ := hs.commands _ (mem_of_getElem? hc) a e rfl
    obtain ⟨row, hrow, -⟩ := hback g rfl
    refine hdrop.setMember a ((hs.members a).promote e (some g)) ?_ ?_ fun _ =>
        .inr (by simp [hrow])
    · rcases (s.members a).promote_spec e (some g) with h | ⟨h, -⟩ <;> rw [h]
      · exact hs.tenure a
      · exact hback
    · rcases (s.members a).promote_spec e (some g) with h | ⟨-, h⟩ <;> rw [h]
      · exact hs.okGen a
      · exact hs.okGen a
  | demote a e =>
    simp only at h
    obtain ⟨-, ⟨⟩⟩ := ite_none_right_eq_some.mp h
    have hsound := (hs.members a).demote e
    rcases (s.members a).demote_spec e with h | ⟨hrole, htenure, hok⟩
    · exact hdrop.keepMember a hsound (by rw [h]) (by rw [h]) (by rw [h])
    · refine hdrop.setMember a hsound (htenure ▸ hs.tenure a) (hok ▸ hs.okGen a) fun h => ?_
      rw [hrole] at h
      cases h
  | _ =>
    cases h
    exact hdrop

theorem step {e : FleetEvent} (h : s.step ttl cfg e = some s') : s'.Inv ttl := by
  cases e with
  | clock d =>
    cases h
    exact { hs with members := fun a => (hs.members a).later (Nat.le_add_right _ _) }
  | watchdog a =>
    obtain ⟨-, ⟨⟩⟩ := ite_none_right_eq_some.mp h
    obtain ⟨hclaim, htenure, hok⟩ := (s.members a).watchdog_spec s.now
    exact hs.keepMember a (hs.members a).watchdog hclaim htenure hok
  | renew a =>
    simp only [Fleet.step] at h
    split at h
    · cases h
    · obtain ⟨m, hm, rfl⟩ := map_eq_some_iff.mp h
      obtain ⟨hsound, hclaim, htenure, hok⟩ := (hs.members a).renew hm
      exact { hs.keepMember a hsound hclaim htenure hok with }
  | readLease i => exact hs.readLease h
  | adoptLease i persists => exact hs.adoptLease h
  | renewed i => exact hs.renewed h
  | giveUp a =>
    cases h
    exact hs.keepMember a ((hs.members a).renewed none _) rfl rfl rfl
  | tick p i =>
    cases h
    refine { hs with acting := fun t ht => ?_ }
    exact of_mem_snoc ht (hs.acting t) ⟨by simp, Pair.promotesFenced_tick rfl p i⟩
  | act j => exact hs.act h
  | fence i persists => exact hs.fence h
  | fenced j i => exact hs.fenced h
  | fenceFailed j => exact hs.fenceFailed h
  | execute i => exact hs.execute h
  | commitOther =>
    cases h
    exact hs.cpStep hs.cp.commitOther (.refl _) rfl
  | cpRestart =>
    cases h
    exact { hs.cpStep hs.cp.restart hs.cp.published hs.cp.pairs with }
  | crash a =>
    cases h
    exact hs.keepMember a (hs.members a).crash rfl rfl rfl
  | boot a =>
    obtain ⟨-, ⟨⟩⟩ := ite_none_left_eq_some.mp h
    exact hs.keepMember a (hs.members a).boot rfl rfl rfl
  | reseed a epoch =>
    obtain ⟨-, ⟨⟩⟩ := ite_none_left_eq_some.mp h
    exact hs.setMember a ((hs.members a).reseed epoch) (hs.tenure a) (hs.okGen a) fun h => nomatch h

end

end Fleet.Inv

/-! ## Who may write -/

/-- **A member that was fenced over and has not found out**: another is on record by a later fence
than its promotion's; and its lease is unarmed, or runs out a term after an `OK` that was read
before that fence, and had not run out when its watchdog last looked. -/
def Fleet.Superseded (ttl : ℕ) (s : Fleet) (row : LeaseRow) (a : String) : Prop :=
  row.master ≠ a ∧ (∀ g ∈ (s.members a).tenure, g < row.gen) ∧
    ((s.members a).deadline = 0 ∨ (∀ g ∈ (s.members a).okGen, g < row.gen) ∧
      (s.members a).deadline = (s.members a).okAt + ttl ∧ (s.members a).okAt ≤ s.now ∧
      (s.members a).checked ≤ (s.members a).deadline)

/-- **Two writable members of a pair: the record knows which.**  In every run, whatever is delayed,
lost, crashed or booted, a pair with two writable members has a record, every writable member that
is not on it is superseded, and its next renewal is told so. -/
theorem Fleet.writable_superseded (ttl : ℕ) (cfg : Config) {s : Fleet}
    (h : (fleetMachine ttl cfg).Reachable s) {p : List String} (hp : p ∈ s.cp.state.pairs)
    {a b : String} (ha : a ∈ p) (hb : b ∈ p) (hab : a ≠ b)
    (hwa : (s.members a).writable = true) (hwb : (s.members b).writable = true) :
    ∃ row, (∀ x ∈ p, leaseRow s.cp.mirror x = some row) ∧
      ∀ x ∈ p, (s.members x).writable = true → row.master = x ∨
        s.Superseded ttl row x ∧ s.cp.readLease x = some (.superseded row.master) := by
  have hs : s.Inv ttl := by
    refine Machine.Reach.invariant ?_ (fun _ _ _ _ hs _ hst => hs.step hst) h
    rintro t ⟨hleases, hdisk, hmirror, hdisj, -, hans, -, hacks, hcmd, hact, hmem, hsole⟩
    have hkeyed : ∀ pairs, Registry.Keyed ⟨pairs, []⟩ := fun pairs => ⟨by simp, .nil⟩
    have hstate : t.cp.state = ⟨t.cp.state.pairs, []⟩ := by rw [← hleases]
    refine ⟨⟨by rw [hdisk], hdisj, ?_, ?_, ?_, ?_, ?_⟩, fun a => (hmem a).1,
      fun a => ?_, fun a => ?_, by simp [hans], by simp [hacks], by simp [hcmd], by simp [hact],
      fun p hp a ha b hb _ => hsole p hp a ha b hb⟩
    · rw [hstate]; exact hkeyed _
    · rw [hdisk, hstate]; exact hkeyed _
    · rw [hmirror]; exact hkeyed _
    · rw [hmirror]; exact newer_nil _
    · rw [hdisk]; exact .refl _
    · rw [(hmem a).2.2.1]; exact backed_none _ _
    · rw [(hmem a).2.2.2]; exact backed_none _ _
  obtain ⟨row, hrow⟩ : ∃ row, leaseRow s.cp.mirror a = some row := by
    refine Option.ne_none_iff_exists'.mp fun hnone => hab ?_
    exact hs.sole p hp a ha b hb hnone ((hs.members a).master hwa) ((hs.members b).master hwb)
  have hall : ∀ x ∈ p, leaseRow s.cp.mirror x = some row := fun x hx =>
    hs.cp.leaseRow_of_pair hp ha hx hrow
  refine ⟨row, hall, fun x hx hwx => ?_⟩
  by_cases hx' : row.master = x
  · exact .inl hx'
  refine .inr ⟨⟨hx', (hs.tenure x).lt (hall x hx) hx', ?_⟩,
      by simp [CpServer.readLease, hall x hx, hx']⟩
  by_cases hd : (s.members x).deadline = 0
  · exact .inl hd
  · obtain ⟨hterm, hpast⟩ := (hs.members x).armed hd
    exact .inr ⟨(hs.okGen x).lt (hall x hx) hx', hterm, hpast, (hs.members x).unexpired hwx hd⟩

/-! ## A pair of two -/

def eagerConfig : Config := ⟨1, 3000, 60000, true⟩

def watchedPair : Pair := ⟨["a", "b"], false, [], 0, true, 0, none, none, 0, [("a", 1), ("b", 1)]⟩

def lostMaster (now : ℕ) : TickInput :=
  let a : Node := ⟨"a", false, false, .unknown, false, 0, 0, none, none, none⟩
  let b : Node := ⟨"b", true, true, .replica, false, 1, 0, none, none, none⟩
  ⟨now, [a, b], none, [a, b], [true], .simple⟩

def Fleet.fresh : Fleet where
  now := 1
  cp := ⟨⟨[["a", "b"]], []⟩, ⟨[["a", "b"]], []⟩, []⟩
  members x := ⟨⟨if x = "a" then .master else .replica, ⟨0, 1⟩⟩, true, x ≠ "a", 0,
      none, none, none, 0, 0⟩
  nextId := 0
  renewals := []
  answers := []
  fences := []
  acks := []
  commands := []
  acting := []

theorem Fleet.fresh_init (ttl : ℕ) (cfg : Config) : (fleetMachine ttl cfg).init Fleet.fresh := by
  refine ⟨rfl, rfl, rfl, by decide, rfl, rfl, rfl, rfl, rfl, rfl, fun x => ⟨⟨?_, by simp [fresh],
    by simp [fresh], Nat.zero_le _⟩, rfl, rfl, rfl⟩, ?_⟩
  · by_cases hx : x = "a"
    · exact fun _ => by simp [fresh, hx]
    · exact fun hw => absurd hw (by simp [fresh, hx, Member.writable])
  intro p hp x hx y hy hmx hmy
  have hrole : ∀ z, (fresh.members z).claim.role = .master → z = "a" := by
    intro z hz
    by_contra hne
    simp [fresh, hne] at hz
  rw [hrole x hmx, hrole y hmy]

theorem Fleet.writable_superseded_reboot :
    let run : List FleetEvent := [.renew "a", .readLease 0, .adoptLease 0 true, .renewed 0,
      .clock 100, .crash "a", .tick watchedPair (lostMaster 101), .act 0,
          .fence 0 true, .fenced 0 0,
      .act 0, .execute 0, .boot "a"]
    ∃ s, (fleetMachine 5000 eagerConfig).exec Fleet.fresh run = some s ∧
      (s.members "a").writable = true ∧ (s.members "b").writable = true ∧
      ∃ row, leaseRow s.cp.mirror "a" = some row ∧ row.master = "b" ∧ s.Superseded 5000 row "a" ∧
        (s.members "a").deadline = 0 := by
  intro run
  have hrun : (fleetMachine 5000 eagerConfig).exec fresh run = some _ := rfl
  have hreach := Machine.reachable_of_exec _ (fresh_init _ _) hrun
  obtain ⟨row, hrow, hwritable⟩ := writable_superseded 5000 eagerConfig hreach (p := ["a", "b"])
    (a := "a") (b := "b") (by decide) (by decide) (by decide) (by decide) (by decide) (by decide)
  have hmaster : row.master = "b" := by
    rw [← Option.some.inj (hrow "a" (by decide))]
    rfl
  rcases hwritable "a" (by decide) (by decide) with h | ⟨hsup, -⟩
  · rw [hmaster] at h
    exact absurd h (by decide)
  · exact ⟨_, rfl, by decide, by decide, row, hrow "a" (by decide), hmaster, hsup, by decide⟩

/-- **Two writable masters.**  `a` renews its lease and is cut off; `b` is fenced and
promoted.  Until `a`'s lease runs out, both accept writes. -/
theorem Fleet.two_writable :
    let run : List FleetEvent := [.renew "a", .readLease 0, .adoptLease 0 true, .renewed 0,
      .clock 100, .tick watchedPair (lostMaster 101), .act 0, .fence 0 true, .fenced 0 0, .act 0,
      .execute 0]
    ∃ s, (fleetMachine 5000 eagerConfig).exec Fleet.fresh run = some s ∧
      (fleetMachine 5000 eagerConfig).Reachable s ∧ ["a", "b"] ∈ s.cp.state.pairs ∧
      (s.members "a").writable = true ∧ (s.members "b").writable = true := by
  intro run
  have hrun : (fleetMachine 5000 eagerConfig).exec fresh run = some _ := rfl
  exact ⟨_, rfl, Machine.reachable_of_exec _ (fresh_init _ _) hrun, by decide, by decide, by decide⟩

end Flint
