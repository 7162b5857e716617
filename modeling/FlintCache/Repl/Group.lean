import FlintCache.Repl.Store

/-!
# Repl/Group — a replication group, and what an accepted copy ends up with

Any number of nodes write, stream, snapshot, are seeded, promoted, demoted, fence themselves and
crash.  A copy's cursor means something only with its epoch, which names a stream, the log of one
directory.  `ReplGroup.Sound`: every copy holds the data of its stream up to its cursor.
-/

namespace Flint

open List Dir Option ReplOp RoleClaim Machine Machine.Guarded
open Function (update update_of_ne update_self)

variable {κ ν : Type} [DecidableEq κ] [RowSpace κ ν]

/-! ## Nodes -/

/-- A node's directories, counted: the node, and how many it had before this one. -/
abbrev DirId := ℕ × ℕ

/-- Where a node's start or role command is between two of its store writes. -/
inductive NodePc
  | idle
  | promoting (epoch : Epoch)
  | demoting (epoch : Epoch) (ownAtDemote : ℕ)
  | resetting (ownAtDemote : ℕ)
  /-- A start has put a copied directory in place; the label is a snapshot's, a full sync has
  none. -/
  | seeding (label : Option Epoch)
  | seeded (label : Option Epoch)
  deriving DecidableEq, Repr

/-- The node is starting on a copied directory and does not serve yet. -/
def NodePc.starting : NodePc → Bool
  | seeding _ | seeded _ => true
  | _ => false

/-- The stream a copy was accepted into: the directory it is read from, and its epoch. -/
structure Upstream where
  dir : DirId
  epoch : Epoch
  deriving DecidableEq, Repr

/-- A checkpoint that is kept, with the epoch it was taken under. -/
structure Snapshot (κ ν : Type) where
  epoch : Epoch
  log : List (List (StoreOp κ ν))

/-- A node: its directory, what it is doing and whom it follows. -/
structure GroupNode (κ ν : Type) where
  gen : ℕ
  readOnly : Bool
  pc : NodePc
  follows : Option Upstream
  snaps : List (Snapshot κ ν)

/-- The nodes, their directories and the epochs handed out. -/
structure ReplGroup (κ ν : Type) where
  node : ℕ → GroupNode κ ν
  /-- The directories; a discarded one is kept here and used by nobody. -/
  store : DirId → Dir κ ν
  issued : Epoch

/-- One step of a node or of the controller. -/
inductive GroupEvent (κ ν : Type)
  | write (n : ℕ) (ops : List (ReplOp κ ν))
  /-- A node writes node-local rows that replication does not read. -/
  | ownRow (n : ℕ) (ops : List (ReplOp κ ν))
  /-- A copy asks a node for its stream, and adopts what it is offered. -/
  | attach (r m : ℕ) (v : SyncView κ ν)
  /-- A copy receives one of the frames a tail call from some number would give. -/
  | deliver (r cursor maxBytes : ℕ) (v : ℕ → EngineView (StoreKey κ) (StoreVal ν)) (i : ℕ)
      (indexed : Bool)
  | fullSync (r m : ℕ)
  | snapshot (n : ℕ)
  | rewind (n i : ℕ)
  | promote (n : ℕ) (epoch : Epoch)
  | demote (n : ℕ) (epoch : Epoch)
  | advance (n : ℕ)
  | selfFence (n : ℕ)
  | crash (n : ℕ)

/-! ## Steps -/

/-- The first acceptance of a connection: another cursor and a newer epoch, in one write. -/
def Dir.adopt (d : Dir κ ν) (returned : ℕ) (offered : Epoch) : Dir κ ν :=
  let asked := lastApplied d.rows
  let newer := (readRole d.rows).any fun c => c.epoch < offered
  if returned ≠ asked ∨ newer then
    d.write (.put .replState (.seq returned) ::
      if newer then [.put .role (.claim ⟨.replica, offered⟩)] else [])
  else d

namespace ReplGroup

def dir (s : ReplGroup κ ν) (n : ℕ) : Dir κ ν := s.store (n, (s.node n).gen)

def set (s : ReplGroup κ ν) (n : ℕ) (node : GroupNode κ ν) (d : Dir κ ν) : ReplGroup κ ν :=
  { s with
    node := update s.node n node
    store := update s.store (n, node.gen) d }

def startOn (s : ReplGroup κ ν) (n : ℕ) (log : List (List (StoreOp κ ν))) (label : Option Epoch) :
    ReplGroup κ ν :=
  s.set n
    { s.node n with
      gen := (s.node n).gen + 1
      readOnly := true
      pc := .seeding label
      follows := none }
    (.copy log)

def advance (s : ReplGroup κ ν) (n : ℕ) : Option (ReplGroup κ ν) :=
  let node := s.node n
  let d := s.dir n
  match node.pc with
  | .idle => none
  | .promoting epoch =>
    match setRole (readRole d.rows) ⟨.master, epoch⟩ with
    | .error _ => some (s.set n { node with pc := .idle } d)
    | .ok claim =>
      -- the tailer is stopped before writes open
      some (s.set n { node with readOnly := false, pc := .idle, follows := none }
        (d.writeRole claim))
  | .demoting epoch own =>
    match setRole (readRole d.rows) ⟨.replica, epoch⟩ with
    | .error _ => some (s.set n { node with pc := .idle } d)
    | .ok claim =>
      some (s.set n { node with readOnly := true, pc := .resetting own } (d.writeRole claim))
  | .resetting own => some (s.set n { node with pc := .idle } (d.setLastApplied own))
  | .seeding label =>
    some (s.set n { node with pc := .seeded label } (d.setLastApplied d.latestSeq))
  | .seeded label =>
    let copied := ((readRole d.rows).map RoleClaim.epoch).getD ⟨0, 1⟩
    some (s.set n { node with pc := .idle } (d.writeRole ⟨.replica, label.getD copied⟩))

def step (s : ReplGroup κ ν) : GroupEvent κ ν → Option (ReplGroup κ ν)
  | .write n ops =>
    if (s.node n).readOnly || !ops.all ReplOp.isUser then none
    else some (s.set n (s.node n) ((s.dir n).write (ops.map ReplOp.onRow)))
  | .ownRow n ops =>
    if (s.node n).pc.starting || ops.any ReplOp.isUser then none
    else some (s.set n (s.node n) ((s.dir n).write (ops.map ReplOp.onRow)))
  | .attach r m v =>
    if r = m ∨ (s.node r).pc.starting ∨ (s.node m).pc.starting then none
    else
      match readRole (s.dir r).rows with
      | some ⟨.replica, mine⟩ =>
        match (s.dir m).flintsync v (lastApplied (s.dir r).rows) (some mine) with
        | .ok cursor epoch =>
          some (s.set r { s.node r with follows := some ⟨(m, (s.node m).gen), epoch⟩ }
            ((s.dir r).adopt cursor epoch))
        | .refused _ => some s
      | _ => none
  | .deliver r cursor maxBytes v i indexed =>
    match (s.node r).follows, updatesSinceBudgeted v cursor maxBytes with
    | some _, .ok out =>
      match out[i]? with
      | none => none
      | some b =>
        match (s.dir r).applyBatch b indexed with
        | .error _ => some s
        | .ok d => some (s.set r (s.node r) d)
    | _, _ => none
  | .fullSync r m =>
    if r = m ∨ (s.node m).pc.starting then none else some (s.startOn r (s.dir m).log none)
  | .snapshot n =>
    match (s.node n).pc.starting, readRole (s.dir n).rows with
    | false, some ⟨.master, epoch⟩ =>
      some (s.set n { s.node n with snaps := (s.node n).snaps ++ [⟨epoch, (s.dir n).log⟩] }
          (s.dir n))
    | _, _ => none
  | .rewind n i =>
    match (s.node n).snaps[i]? with
    | some snap => some (s.startOn n snap.log (some snap.epoch))
    | none => none
  | .promote n epoch =>
    if (s.node n).pc = .idle ∧ s.issued < epoch then
      let d := s.dir n
      some { s.set n { s.node n with pc := .promoting epoch }
          (d.write [.put (.promoFence epoch) (.fence (epochOf d.rows) (lastApplied d.rows))]) with
        issued := epoch }
    else none
  | .demote n epoch =>
    if (s.node n).pc = .idle ∧ s.issued < epoch then
      some { s.set n { s.node n with pc := .demoting epoch (s.dir n).latestSeq } (s.dir n) with
        issued := epoch }
    else none
  | .advance n => s.advance n
  | .selfFence n => some (s.set n { s.node n with readOnly := true } (s.dir n))
  | .crash n =>
    some (s.set n
      { s.node n with
        -- the durable role decides what the node starts as
        readOnly := !(readRole (s.dir n).rows).any fun c => c.role = .master
        pc := .idle
        follows := none }
      (s.dir n))

end ReplGroup

def GroupNode.blank : GroupNode κ ν := ⟨0, true, .idle, none, []⟩

def ReplGroup.firstStart : ReplGroup κ ν :=
  ReplGroup.set ⟨fun _ => .blank, fun _ => ⟨[], 0⟩, ⟨0, 1⟩⟩ 0 ⟨0, false, .idle, none, []⟩
    ⟨[[.put .role (.claim ⟨.master, ⟨0, 1⟩⟩)]], 0⟩

def groupMachine : Machine (ReplGroup κ ν) (GroupEvent κ ν) where
  init s := s = .firstStart
  step := ReplGroup.step

/-! ## Runs that keep the rows exact -/

/-- **The retained cursor rows are exact for a presented cursor.**  Where the fence lets a cursor of
an older epoch pass, each retained batch at which the cursor rows reach it shows that very cursor,
written while the node's role row had the presented epoch. -/
def SyncView.Exact (v : SyncView κ ν) (d : Dir κ ν) (cursor : ℕ) (theirs : Epoch) : Prop :=
  theirs < epochOf d.rows →
    (∃ fence, promoFenceBound d.fences theirs = .bound fence ∧ cursor ≤ fence) →
    ∀ w ∈ crossings cursor none v.retained,
      reachedIn w.ops = some cursor ∧ epochOf (d.rowsAt w.lastSeq) = theirs

def ReplGroup.EngineKeepsWord (s : ReplGroup κ ν) : GroupEvent κ ν → Prop
  | .attach _ m v => v.KeepsWord (s.dir m)
  | .deliver r cursor _ v _ _ =>
    ∀ up ∈ (s.node r).follows, ∀ n, Honest (s.store up.dir).ops cursor (v n)
  | _ => True

/-- **An orderly step**: streams and checkpoints are asked of durable masters, whose cursor rows are
exact for what is presented, and no process dies between a copied directory's rename and its role.
-/
def ReplGroup.Orderly (s : ReplGroup κ ν) : GroupEvent κ ν → Prop
  | .attach r m v =>
    (∃ epoch, readRole (s.dir m).rows = some ⟨.master, epoch⟩) ∧
      v.Exact (s.dir m) (lastApplied (s.dir r).rows) (epochOf (s.dir r).rows)
  | .fullSync _ m => ∃ epoch, readRole (s.dir m).rows = some ⟨.master, epoch⟩
  | .crash n => (s.node n).pc.starting = false
  | _ => True

/-- The steps of a run that keeps the rows exact, on an engine that keeps its word. -/
def ReplGroup.InOrder (s : ReplGroup κ ν) (ev : GroupEvent κ ν) : Prop :=
  s.EngineKeepsWord ev ∧ s.Orderly ev

/-! ## Streams -/

/-- What an epoch was handed out for: a promotion on this directory, whose log is its stream, or a
demotion of it. -/
inductive Origin
  | promoted (i : DirId)
  | demoted (i : DirId)
  deriving DecidableEq, Repr

section Invariant

variable (origin : Epoch → Option Origin) (store : DirId → Dir κ ν)

/-- **Rows a directory is vouched for** hold the data of the stream their epoch names, up to their
cursor — or the epoch is a demotion of this very directory. -/
def Vouched (i : DirId) (rows : StoreRows κ ν) : Prop :=
  (∃ j, origin (epochOf rows) = some (.promoted j) ∧ lastApplied rows ≤ (store j).latestSeq ∧
    SameData rows ((store j).rowsAt (lastApplied rows))) ∨
  origin (epochOf rows) = some (.demoted i)

/-- Every cursor row of the write-ahead log is vouched for at the position it was written at. -/
def WalSound (i : DirId) (d : Dir κ ν) : Prop :=
  ∀ pre b post c, d.log = (pre ++ [b]) ++ post → d.base ≤ pre.length → reachedIn b = some c →
    lastApplied (replay (pre ++ [b]).flatten fun _ => none) = c ∧
      Vouched origin store i (replay (pre ++ [b]).flatten fun _ => none)

def PcSound (i : DirId) (d : Dir κ ν) : NodePc → Prop
  | .idle => True
  | .promoting epoch => origin epoch = some (.promoted i)
  | .demoting epoch _ => origin epoch = some (.demoted i)
  | .resetting _ => ∃ epoch, readRole d.rows = some ⟨.replica, epoch⟩ ∧
      origin epoch = some (.demoted i)
  | .seeding label => d.base = d.log.length ∧ ∃ epoch j,
      readRole d.rows = some ⟨.master, epoch⟩ ∧ (∀ l ∈ label, l = epoch) ∧
      origin epoch = some (.promoted j) ∧ d.log <+: (store j).log
  | .seeded label => (∃ c, readRole d.rows = some c ∧ ∀ l ∈ label, l = c.epoch) ∧
      Vouched origin store i d.rows

/-- **The invariant of one node** `n` on its directory `d`. -/
structure NodeSound (n : ℕ) (node : GroupNode κ ν) (d : Dir κ ν) : Prop where
  master : ∀ e, node.pc.starting = false → readRole d.rows = some ⟨.master, e⟩ →
    origin e = some (.promoted (n, node.gen))
  replica : ∀ e, node.pc.starting = false → readRole d.rows = some ⟨.replica, e⟩ →
    Vouched origin store (n, node.gen) d.rows
  wal : WalSound origin store (n, node.gen) d
  writable : node.readOnly = false →
    node.pc.starting = false ∧ ∃ e, readRole d.rows = some ⟨.master, e⟩
  /-- A tailer reads the stream its copy's epoch names, unless it was demoted meanwhile. -/
  follows : ∀ up, node.follows = some up → node.pc.starting = false ∧
    origin up.epoch = some (.promoted up.dir) ∧ ∃ e, readRole d.rows = some ⟨.replica, e⟩ ∧
      (e = up.epoch ∨ origin e = some (.demoted (n, node.gen)))
  snaps : ∀ snap ∈ node.snaps, ∃ j, origin snap.epoch = some (.promoted j) ∧
    snap.log <+: (store j).log ∧
    readRole (replay snap.log.flatten fun _ => none) = some ⟨.master, snap.epoch⟩
  pc : PcSound origin store (n, node.gen) d node.pc

end Invariant

/-- **The invariant of a group**, for an assignment of epochs to directories. -/
structure ReplGroup.Sound (origin : Epoch → Option Origin) (s : ReplGroup κ ν) : Prop where
  issued : ∀ e o, origin e = some o → e ≤ s.issued
  live : ∀ e j, origin e = some (.promoted j) → j.2 ≤ (s.node j.1).gen
  nodes : ∀ n, NodeSound origin s.store n (s.node n) (s.dir n)

/-! ## Growth keeps what was vouched for -/

structure Extends (origin : Epoch → Option Origin) (store : DirId → Dir κ ν)
    (origin' : Epoch → Option Origin) (store' : DirId → Dir κ ν) : Prop where
  origins : ∀ e o, origin e = some o → origin' e = some o
  logs : ∀ e j, origin e = some (.promoted j) → (store j).log <+: (store' j).log

variable {i : DirId} {n : ℕ} {d : Dir κ ν} {rows rows' : StoreRows κ ν} {node : GroupNode κ ν}

section Extends

variable {origin origin' : Epoch → Option Origin} {store store' : DirId → Dir κ ν}

theorem Vouched.extends (h : Vouched origin store i rows)
    (hext : Extends origin store origin' store') : Vouched origin' store' i rows := by
  rcases h with ⟨j, hj, hle, hdata⟩ | hd
  · have hlog := hext.logs _ j hj
    refine .inl ⟨j, hext.origins _ _ hj, hle.trans (Dir.latestSeq_le_of_prefix hlog), ?_⟩
    rwa [Dir.rowsAt_of_prefix hlog hle]
  · exact .inr (hext.origins _ _ hd)

theorem PcSound.extends {pc : NodePc} (h : PcSound origin store i d pc)
    (hext : Extends origin store origin' store') : PcSound origin' store' i d pc := by
  cases pc with
  | idle => trivial
  | resetting own =>
    obtain ⟨e, hrole, he⟩ := h
    exact ⟨e, hrole, hext.origins _ _ he⟩
  | seeding label =>
    obtain ⟨hbase, e, j, hrole, hlabel, he, hlog⟩ := h
    exact ⟨hbase, e, j, hrole, hlabel, hext.origins _ _ he, hlog.trans (hext.logs _ _ he)⟩
  | seeded label => exact ⟨h.1, h.2.extends hext⟩
  | _ => exact hext.origins _ _ h

theorem NodeSound.extends (h : NodeSound origin store n node d)
    (hext : Extends origin store origin' store') : NodeSound origin' store' n node d where
  master e hstart hrole := hext.origins _ _ (h.master e hstart hrole)
  replica e hstart hrole := (h.replica e hstart hrole).extends hext
  wal pre b post c hlog hbase hc :=
    ⟨(h.wal pre b post c hlog hbase hc).1, (h.wal pre b post c hlog hbase hc).2.extends hext⟩
  writable := h.writable
  follows up hup := by
    obtain ⟨hstart, hdir, e, hrole, he⟩ := h.follows up hup
    exact ⟨hstart, hext.origins _ _ hdir, e, hrole, he.imp_right (hext.origins _ _)⟩
  snaps snap hsnap := by
    obtain ⟨j, hj, hlog, hrole⟩ := h.snaps snap hsnap
    exact ⟨j, hext.origins _ _ hj, hlog.trans (hext.logs _ _ hj), hrole⟩
  pc := h.pc.extends hext

end Extends

variable {origin : Epoch → Option Origin} {e : Epoch}

namespace ReplGroup

section Set

omit [DecidableEq κ] [RowSpace κ ν]

variable (s : ReplGroup κ ν) {n m : ℕ} (node : GroupNode κ ν) (d : Dir κ ν)

@[simp] theorem node_set_self : (s.set n node d).node n = node := update_self ..

theorem node_set_of_ne (h : m ≠ n) : (s.set n node d).node m = s.node m :=
  update_of_ne h ..

@[simp] theorem store_set_self : (s.set n node d).store (n, node.gen) = d := update_self ..

theorem store_set_of_ne (h : i ≠ (n, node.gen)) :
    (s.set n node d).store i = s.store i := update_of_ne h ..

@[simp] theorem dir_set_self : (s.set n node d).dir n = d := by
  rw [dir, node_set_self, store_set_self]

theorem dir_set_of_ne (h : m ≠ n) : (s.set n node d).dir m = s.dir m := by
  rw [dir, node_set_of_ne s node d h,
    store_set_of_ne s node d fun heq => h (congrArg Prod.fst heq), dir]

end Set

variable {s : ReplGroup κ ν}

theorem Sound.set (hs : s.Sound origin)
    (hgen : (node.gen = (s.node n).gen ∧ (s.dir n).log <+: d.log) ∨ node.gen = (s.node n).gen + 1)
    (h : NodeSound origin s.store n node d) : (s.set n node d).Sound origin := by
  have hlog : ∀ e j, origin e = some (.promoted j) →
      (s.store j).log <+: ((s.set n node d).store j).log := by
    intro e j hj
    by_cases hjn : j = (n, node.gen)
    · subst hjn
      rw [store_set_self]
      rcases hgen with ⟨hgen, hpre⟩ | hgen
      · rwa [hgen]
      · -- a stream's directory exists already, the new one does not
        have hlive : node.gen ≤ (s.node n).gen := hs.live e _ hj
        omega
    · rw [store_set_of_ne s node d hjn]
  have hext : Extends origin s.store origin (s.set n node d).store := ⟨fun _ _ h => h, hlog⟩
  refine ⟨hs.issued, fun e j hj => ?_, fun m => ?_⟩
  · have hlive := hs.live e j hj
    by_cases hjn : j.1 = n
    · rw [hjn] at hlive ⊢
      rw [node_set_self]
      omega
    · rwa [node_set_of_ne s node d hjn]
  by_cases hm : m = n
  · subst hm
    rw [node_set_self, dir_set_self]
    exact h.extends hext
  · rw [node_set_of_ne s node d hm, dir_set_of_ne s node d hm]
    exact (hs.nodes m).extends hext

theorem Sound.set_node (hs : s.Sound origin) (hgen : node.gen = (s.node n).gen)
    (h : NodeSound origin s.store n node (s.dir n)) : (s.set n node (s.dir n)).Sound origin :=
  hs.set (.inl ⟨hgen, prefix_rfl⟩) h

theorem Sound.claim (hs : s.Sound origin) {o : Origin} (hfresh : s.issued < e)
    (ho : ∀ j, o = .promoted j → j.2 ≤ (s.node j.1).gen) :
    { s with issued := e }.Sound (update origin e (some o)) := by
  have hnone : ∀ e' o', origin e' = some o' → e' ≠ e := by
    rintro e' o' he' rfl
    exact absurd (hs.issued e' o' he') (not_le.mpr hfresh)
  have hext : Extends origin s.store (update origin e (some o)) s.store := by
    refine ⟨fun e' o' he' => ?_, fun _ _ _ => prefix_rfl⟩
    rwa [update_of_ne (hnone e' o' he')]
  refine ⟨fun e' o' he' => ?_, fun e' j he' => ?_, fun n => (hs.nodes n).extends hext⟩
  · obtain ⟨heq, -⟩ | ⟨-, he'⟩ := update_eq_some_iff.mp he'
    · exact heq.le
    · exact (hs.issued e' o' he').trans hfresh.le
  obtain ⟨-, heq⟩ | ⟨-, he'⟩ := update_eq_some_iff.mp he'
  · exact ho j (some.inj heq)
  · exact hs.live e' j he'

end ReplGroup

/-! ## Writing a batch -/

variable {store : DirId → Dir κ ν}

section Writing

variable {b : List (StoreOp κ ν)}

theorem Vouched.congr (h : Vouched origin store i rows) (hepoch : epochOf rows' = epochOf rows)
    (hcursor : lastApplied rows' = lastApplied rows) (hdata : SameData rows' rows) :
    Vouched origin store i rows' := by
  rw [Vouched, hepoch, hcursor]
  rcases h with ⟨j, hj, hle, hsame⟩ | hd
  · exact .inl ⟨j, hj, hle, hdata.trans hsame⟩
  · exact .inr hd

theorem WalSound.write (h : WalSound origin store i d)
    (hb : ∀ c, reachedIn b = some c → lastApplied (replay b d.rows) = c ∧
      Vouched origin store i (replay b d.rows)) : WalSound origin store i (d.write b) := by
  intro pre b' post c hlog hbase hc
  rcases eq_nil_or_concat post with rfl | ⟨post, last, rfl⟩
  · rw [append_nil] at hlog
    obtain ⟨rfl, hlast⟩ := append_inj' hlog rfl
    obtain rfl : b = b' := singleton_inj.mp hlast
    rw [flatten_append, flatten_singleton, replay_append]
    exact hb c hc
  · rw [concat_eq_append, ← append_assoc] at hlog
    exact h pre b' post c (append_inj' hlog rfl).1 hbase hc

theorem WalSound.write_of_untouched (h : WalSound origin store i d)
    (hb : ∀ op ∈ b, op.key ≠ .replState) : WalSound origin store i (d.write b) := by
  refine h.write fun c hc => ?_
  rw [reachedIn_of_untouched hb] at hc
  cases hc

theorem PcSound.write {pc : NodePc} (h : PcSound origin store i d pc) (hstart : pc.starting = false)
    (hrole : readRole (replay b d.rows) = readRole d.rows) :
    PcSound origin store i (d.write b) pc := by
  cases pc with
  | idle => trivial
  | promoting e | demoting e own => exact h
  | resetting own =>
    rw [PcSound, rows_write, hrole]
    exact h
  | _ => cases hstart

namespace NodeSound

variable (h : NodeSound origin store n node d)
include h

theorem write_quiet (hstart : node.pc.starting = false) (hb : Quiet b)
    (hdata : (∃ e, readRole d.rows = some ⟨.master, e⟩) ∨ SameData (replay b d.rows) d.rows) :
    NodeSound origin store n node (d.write b) := by
  have hrole : readRole (d.write b).rows = readRole d.rows := by rw [rows_write, hb.readRole_eq]
  refine ⟨?_, fun e hs he => ?_, ?_, ?_, ?_, h.snaps, ?_⟩
  · rw [hrole]
    exact h.master
  · rw [hrole] at he
    rcases hdata with ⟨e', he'⟩ | hdata
    · rw [he'] at he
      cases he
    · rw [rows_write]
      refine (h.replica e hs he).congr ?_ (hb.lastApplied_eq _) hdata
      rw [epochOf, hb.readRole_eq, epochOf]
  · exact h.wal.write_of_untouched fun op hop => (hb op hop).2
  · rw [hrole]
    exact h.writable
  · rw [hrole]
    exact h.follows
  · exact h.pc.write hstart (hb.readRole_eq _)

theorem readOnly_of_replica (hrole : readRole d.rows = some ⟨.replica, e⟩) : node.readOnly := by
  by_contra hro
  obtain ⟨-, e', he'⟩ := h.writable (Bool.eq_false_iff.mpr hro)
  rw [hrole] at he'
  cases he'

theorem with_pc
    (hstart : node.pc.starting = false) {pc : NodePc}
    (hpc : PcSound origin store (n, node.gen) d pc)
    (hstart' : pc.starting = false) : NodeSound origin store n { node with pc := pc } d where
  __ := h
  master e _ := h.master e hstart
  replica e _ := h.replica e hstart
  writable hro := ⟨hstart', (h.writable hro).2⟩
  follows up hup := ⟨hstart', (h.follows up hup).2⟩
  pc := hpc

end NodeSound

theorem NodeSound.write_replica {node' : GroupNode κ ν} (h : NodeSound origin store n node d)
    (hgen : node'.gen = node.gen) (hsnaps : node'.snaps = node.snaps) (hro : node'.readOnly)
    (hrole : readRole (replay b d.rows) = some ⟨.replica, e⟩)
    (hb : ∀ c, reachedIn b = some c → lastApplied (replay b d.rows) = c)
    (hvouch : Vouched origin store (n, node.gen) (replay b d.rows))
    (hfollows : ∀ up, node'.follows = some up → node'.pc.starting = false ∧
      origin up.epoch = some (.promoted up.dir) ∧
      (e = up.epoch ∨ origin e = some (.demoted (n, node.gen))))
    (hpc : PcSound origin store (n, node.gen) (d.write b) node'.pc) :
    NodeSound origin store n node' (d.write b) where
  master e' _ he' := by
    rw [rows_write, hrole] at he'
    cases he'
  replica e' _ _ := by
    rw [rows_write, hgen]
    exact hvouch
  wal := by
    rw [hgen]
    exact h.wal.write fun c hc => ⟨hb c hc, hvouch⟩
  writable hro' := by
    rw [hro] at hro'
    cases hro'
  follows up hup := by
    obtain ⟨hstart, hdir, he⟩ := hfollows up hup
    rw [rows_write, hgen]
    exact ⟨hstart, hdir, e, hrole, he⟩
  snaps := by
    rw [hsnaps]
    exact h.snaps
  pc := by
    rw [hgen]
    exact hpc

end Writing

/-! ## Admission -/

open Origin

section Admission

variable {r m own : ℕ} {copy master : GroupNode κ ν} {dr dm : Dir κ ν} {mine e : Epoch}
  {v : SyncView κ ν}

theorem WalSound.of_mem_wal (h : WalSound origin store i dm)
    {w : WalBatch (StoreKey κ) (StoreVal ν)} (hw : w ∈ dm.wal) {c : ℕ}
    (hc : reachedIn w.ops = some c) :
    w.lastSeq ≤ dm.latestSeq ∧ lastApplied (dm.rowsAt w.lastSeq) = c ∧
      Vouched origin store i (dm.rowsAt w.lastSeq) := by
  obtain ⟨pre, post, hlog, hbase, hlast⟩ := exists_of_mem_wal hw
  rw [hlast, rowsAt_of_log_eq hlog]
  have hpre : pre ++ [w.ops] <+: dm.log := hlog ▸ prefix_append _ post
  exact ⟨hpre.flatten.length_le, h pre w.ops post c hlog hbase hc⟩

theorem Vouched.sameData {i j : DirId} {rows rows' : StoreRows κ ν}
    (h : Vouched origin store i rows) (h' : Vouched origin store j rows') (hij : i ≠ j)
    (hepoch : epochOf rows' = epochOf rows) (hcursor : lastApplied rows' = lastApplied rows) :
    SameData rows rows' ∧ ∃ k, origin (epochOf rows) = some (.promoted k) := by
  rw [Vouched, hepoch, hcursor] at h'
  rcases h with ⟨k, hk, -, hdata⟩ | hd
  · rcases h' with ⟨k', hk', -, hdata'⟩ | hd'
    · obtain rfl : k = k' := promoted.inj (some.inj (hk.symm.trans hk'))
      exact ⟨hdata.trans hdata'.symm, k, hk⟩
    · cases hk.symm.trans hd'
  · rcases h' with ⟨k', hk', -, -⟩ | hd'
    · cases hd.symm.trans hk'
    · exact absurd (demoted.inj (some.inj (hd.symm.trans hd'))) hij

theorem NodeSound.syncPosition_sound (hr : NodeSound origin store r copy dr)
    (hm : NodeSound origin store m master dm) (hdm : store (m, master.gen) = dm) (hne : r ≠ m)
    (hrs : copy.pc.starting = false) (hms : master.pc.starting = false)
    (hrole : readRole dr.rows = some ⟨.replica, mine⟩)
    (hmaster : readRole dm.rows = some ⟨.master, e⟩) (hv : v.KeepsWord dm)
    (hexact : v.Exact dm (lastApplied dr.rows) mine)
    (h : dm.syncPosition v (lastApplied dr.rows) (some mine) = .ok own) :
    own ≤ dm.latestSeq ∧ SameData dr.rows (dm.rowsAt own) ∧
      ∃ j, origin mine = some (.promoted j) := by
  have hmine : epochOf dr.rows = mine := by rw [epochOf, hrole]; rfl
  have hvouch := hr.replica mine hrs hrole
  rcases syncPosition_eq_ok h with ⟨hsame, rfl⟩ | ⟨hlt, hfence, hown⟩
  · -- the master's own epoch: the stream is its log
    have hown : origin mine = some (.promoted (m, master.gen)) := by
      refine hm.master mine hms ?_
      rw [hsame, epochOf, hmaster]
      rfl
    rcases hvouch with ⟨j, hj, hle, hdata⟩ | hd
    · rw [hmine, hown] at hj
      obtain rfl := promoted.inj (some.inj hj)
      rw [hdm] at hle hdata
      exact ⟨hle, hdata, _, hown⟩
    · rw [hmine, hown] at hd
      cases hd
  -- an older one: the master followed it, and the row it wrote then is the copy's
  obtain ⟨w, hw, rfl⟩ := hv.ownSeqForUpstream_eq_ok hown
  obtain ⟨hreached, hat⟩ := hexact hlt hfence w hw
  obtain ⟨hle, hcursor, hvw⟩ := hm.wal.of_mem_wal
    (hv.retained.subset ((crossings_sublist _ _ _).subset hw)) hreached
  obtain ⟨hdata, horigin⟩ := hvouch.sameData hvw (fun heq => hne (congrArg Prod.fst heq))
    (hat.trans hmine.symm) hcursor
  exact ⟨hle, hdata, hmine ▸ horigin⟩

end Admission

/-! ## Adopting and applying -/

open Dir

section Stream

variable {mine offered : Epoch} {returned : ℕ}

theorem Dir.adopt_cases (returned : ℕ) (hrole : readRole d.rows = some ⟨.replica, mine⟩)
    (hle : mine ≤ offered) :
    (d.adopt returned offered = d ∧ returned = lastApplied d.rows ∧ mine = offered) ∨
    ∃ b, d.adopt returned offered = d.write b ∧
      readRole (replay b d.rows) = some ⟨.replica, offered⟩ ∧
      lastApplied (replay b d.rows) = returned ∧ reachedIn b = some returned ∧
      SameData (replay b d.rows) d.rows := by
  rw [adopt, hrole]
  rcases hle.lt_or_eq with hlt | rfl
  · refine .inr ⟨[.put .replState (.seq returned), .put .role (.claim ⟨.replica, offered⟩)], ?_⟩
    simp only [any_some, hlt, decide_true, or_true, if_true, true_and]
    refine ⟨by simp, by simp, rfl, sameData_replay_system ?_ _⟩
    simp [isUser, key, RowSpace.isSystem]
  by_cases hsame : returned = lastApplied d.rows
  · exact .inl ⟨by simp [hsame], hsame, rfl⟩
  refine .inr ⟨[.put .replState (.seq returned)], ?_⟩
  simp only [any_some, lt_irrefl, decide_false, hsame, ne_eq, not_false_eq_true,
    Bool.false_eq_true, or_false, if_true, if_false, true_and]
  exact ⟨by simpa using hrole, by simp, rfl, sameData_replay_put rfl _ _⟩

theorem NodeSound.adopt (h : NodeSound origin store n node d) (hstart : node.pc.starting = false)
    (hrole : readRole d.rows = some ⟨.replica, mine⟩) (hle : mine ≤ offered)
    (hmine : ∃ j, origin mine = some (.promoted j))
    (hoff : origin offered = some (.promoted i)) (hret : returned ≤ (store i).latestSeq)
    (hdata : SameData d.rows ((store i).rowsAt returned)) :
    NodeSound origin store n { node with follows := some ⟨i, offered⟩ }
      (d.adopt returned offered) := by
  rcases adopt_cases returned hrole hle with ⟨heq, -, rfl⟩ | ⟨b, heq, hrole',
      hcursor, hreached, hsame⟩
  · rw [heq]
    refine { h with follows := fun up hup => ?_ }
    cases hup
    exact ⟨hstart, hoff, mine, hrole, .inl rfl⟩
  rw [heq]
  have hepoch : epochOf (replay b d.rows) = offered := by rw [epochOf, hrole']; rfl
  refine h.write_replica rfl rfl (h.readOnly_of_replica hrole) hrole' (fun c hc => ?_)
    (.inl ⟨i, ?_, ?_, ?_⟩) (fun up hup => ?_) ?_
  · rw [hcursor]
    exact some.inj (hreached.symm.trans hc)
  · rwa [hepoch]
  · rwa [hcursor]
  · rw [hcursor]
    exact hsame.trans hdata
  · cases hup
    exact ⟨hstart, hoff, .inl rfl⟩
  -- only a command that is a demotion's reset speaks of the role row, and its epoch names no stream
  have hpc := h.pc
  cases hnode : node.pc with
  | idle => trivial
  | promoting e | demoting e own => rwa [hnode] at hpc
  | resetting own =>
    rw [hnode] at hpc
    obtain ⟨e, he, hd⟩ := hpc
    obtain ⟨j, hj⟩ := hmine
    obtain rfl : mine = e := congrArg epoch (some.inj (hrole.symm.trans he))
    cases hj.symm.trans hd
  | _ =>
    rw [hnode] at hstart
    cases hstart

variable {indexed : Bool} {up : Upstream}

theorem NodeSound.applyBatch (h : NodeSound origin store n node d)
    (hup : node.follows = some up) {b : ReplBatch (StoreKey κ) (StoreVal ν)}
    (hframe : Frame (store up.dir).ops b) {d' : Dir κ ν} (happ : d.applyBatch b indexed = .ok d') :
    NodeSound origin store n node d' ∧ d.log <+: d'.log := by
  obtain ⟨hstart, hdir, e, hrole, he⟩ := h.follows up hup
  rcases applyBatch_eq_ok happ with rfl | ⟨hfirst, hlt, applied, rfl, hd'⟩
  · exact ⟨h, prefix_rfl⟩
  have hops : b.ops = userOps (store up.dir).ops (lastApplied d.rows) b.lastSeq := by
    rw [hframe.ops_eq, hfirst, Nat.add_sub_cancel]
  have hquiet : Quiet b.ops := by
    refine quiet_of_isUser fun op hop => ?_
    rw [hops] at hop
    exact (mem_filter.mp hop).2
  have hrole' : readRole (replay (b.ops ++ [.put .replState (.seq b.lastSeq)]) d.rows) =
      readRole d.rows := by
    rw [replay_append, replay_cons, replay_nil, readRole_put_replState, hquiet.readRole_eq]
  have hcursor : lastApplied (replay (b.ops ++ [.put .replState (.seq b.lastSeq)]) d.rows) =
      b.lastSeq := by
    rw [replay_append, replay_cons, replay_nil, lastApplied_put_replState]
  have hepoch : epochOf (replay (b.ops ++ [.put .replState (.seq b.lastSeq)]) d.rows) = e := by
    rw [epochOf, hrole', hrole]
    rfl
  have happlied : NodeSound origin store n node
      (d.write (b.ops ++ [.put .replState (.seq b.lastSeq)])) := by
    refine h.write_replica rfl rfl (h.readOnly_of_replica hrole) (hrole'.trans hrole)
      (fun c hc => ?_) ?_ (fun up' hup' => ?_) (h.pc.write hstart hrole')
    · rw [reachedIn_append_cursor] at hc
      rw [hcursor]
      exact some.inj hc
    · rw [Vouched, hepoch, hcursor]
      rcases he with rfl | hd
      · refine .inl ⟨up.dir, hdir, hframe.le, ?_⟩
        have hold : SameData d.rows ((store up.dir).rowsAt (lastApplied d.rows)) := by
          have hmine : epochOf d.rows = up.epoch := by rw [epochOf, hrole]; rfl
          rcases h.replica _ hstart hrole with ⟨j, hj, -, hdata⟩ | hd
          · rw [hmine, hdir] at hj
            obtain rfl := promoted.inj (some.inj hj)
            exact hdata
          · rw [hmine, hdir] at hd
            cases hd
        rw [replay_append, hops]
        exact (sameData_replay_put rfl _ _).trans
          ((store up.dir).sameData_replay_userOps hold hlt.le)
      · exact .inr hd
    · obtain rfl := some.inj (hup.symm.trans hup')
      exact ⟨hstart, hdir, he⟩
  rcases hd' with rfl | ⟨k, own, rfl⟩
  · exact ⟨happlied, d.log_prefix_write _⟩
  · refine ⟨happlied.write_quiet hstart ?_ (.inr (sameData_replay_put rfl _ _)),
      (d.log_prefix_write _).trans (log_prefix_write _ _)⟩
    simp [Quiet, key]

end Stream

/-! ## Role commands and starts -/

section Commands

variable {n own : ℕ} {label : Option Epoch}

namespace NodeSound

variable (h : NodeSound origin store n node d)
include h

theorem promoted (hpc : node.pc = .promoting e) :
    NodeSound origin store n { node with readOnly := false, pc := .idle, follows := none }
      (d.writeRole ⟨.master, e⟩) := by
  have horigin := h.pc
  rw [hpc] at horigin
  have hrole : readRole (d.writeRole ⟨.master, e⟩).rows = some ⟨.master, e⟩ := by
    rw [writeRole, rows_write, replay_cons, replay_nil, readRole_put_role]
  refine ⟨fun e' _ he' => ?_, fun e' _ he' => ?_, ?_, fun _ => ⟨rfl, e, hrole⟩, nofun, h.snaps,
    trivial⟩
  · obtain rfl : e = e' := congrArg epoch (some.inj (hrole.symm.trans he'))
    exact horigin
  · cases hrole.symm.trans he'
  · exact h.wal.write_of_untouched (by simp [key])

theorem demoted (hpc : node.pc = .demoting e own) :
    NodeSound origin store n { node with readOnly := true, pc := .resetting own }
      (d.writeRole ⟨.replica, e⟩) := by
  have horigin := h.pc
  rw [hpc] at horigin
  have hrole : readRole (replay [.put .role (.claim ⟨.replica, e⟩)] d.rows)
      = some ⟨.replica, e⟩ := by
    rw [replay_cons, replay_nil, readRole_put_role]
  refine h.write_replica rfl rfl rfl hrole (fun c hc => by cases hc) (.inr ?_) (fun up hup => ?_)
    ⟨e, by rw [rows_write, hrole], horigin⟩
  · rw [epochOf, hrole]
    exact horigin
  · exact ⟨rfl, (h.follows up hup).2.1, .inr horigin⟩

theorem reset (hpc : node.pc = .resetting own) :
    NodeSound origin store n { node with pc := .idle } (d.setLastApplied own) := by
  have horigin := h.pc
  rw [hpc] at horigin
  obtain ⟨e, hrole, hd⟩ := horigin
  rw [setLastApplied]
  have hrole' := (readRole_put_replState d.rows
    (.seq ((snapToBatchEnd own d.wal).getD own))).trans hrole
  refine h.write_replica rfl rfl (h.readOnly_of_replica hrole) hrole' (fun c hc => ?_) (.inr ?_)
    (fun up hup => ?_) trivial
  · rw [replay_cons, replay_nil, lastApplied_put_replState]
    exact some.inj hc
  · rw [replay_cons, replay_nil, epochOf, hrole']
    exact hd
  · exact ⟨rfl, (h.follows up hup).2.1, .inr hd⟩

theorem seeded (hpc : node.pc = .seeding label) :
    NodeSound origin store n { node with pc := .seeded label }
      (d.setLastApplied d.latestSeq) := by
  have hseed := h.pc
  rw [hpc] at hseed
  obtain ⟨hbase, e, j, hrole, hlabel, he, hlog⟩ := hseed
  rw [setLastApplied_of_copied hbase]
  have hrole' := (readRole_put_replState d.rows (.seq d.latestSeq)).trans hrole
  have hvouch : Vouched origin store (n, node.gen)
      (replay [.put .replState (.seq d.latestSeq)] d.rows) := by
    rw [replay_cons, replay_nil]
    refine .inl ⟨j, ?_, ?_, ?_⟩
    · rw [epochOf, hrole']
      exact he
    · rw [lastApplied_put_replState]
      exact latestSeq_le_of_prefix hlog
    · rw [lastApplied_put_replState, rowsAt_of_prefix hlog le_rfl, rowsAt_latestSeq]
      exact sameData_replay_put rfl _ _
  have hstarting : ¬ node.pc.starting = false := by
    rw [hpc]
    exact Bool.true_eq_false_eq_False
  refine ⟨nofun, nofun, h.wal.write fun c hc => ⟨?_, hvouch⟩, fun hro => ?_, fun up hup => ?_,
    h.snaps, ⟨⟨_, by rw [rows_write]; exact hrole', hlabel⟩, by rwa [rows_write]⟩⟩
  · rw [replay_cons, replay_nil, lastApplied_put_replState]
    exact some.inj hc
  · exact absurd (h.writable hro).1 hstarting
  · exact absurd (h.follows up hup).1 hstarting

theorem started (hpc : node.pc = .seeded label) : NodeSound origin store n { node with pc := .idle }
      (d.writeRole ⟨.replica,
        label.getD (((readRole d.rows).map RoleClaim.epoch).getD ⟨0, 1⟩)⟩) := by
  have hseed := h.pc
  rw [hpc] at hseed
  obtain ⟨⟨c, hrole, hlabel⟩, hvouch⟩ := hseed
  have hstarting : ¬ node.pc.starting = false := by
    rw [hpc]
    exact Bool.true_eq_false_eq_False
  have hepoch : label.getD (((readRole d.rows).map epoch).getD ⟨0, 1⟩) = c.epoch := by
    rw [hrole]
    cases label with
    | none => rfl
    | some l => exact hlabel l rfl
  rw [hepoch, writeRole]
  have hrole' := readRole_put_role d.rows ⟨.replica, c.epoch⟩
  refine h.write_replica rfl rfl ?_ hrole' (fun c hc => by cases hc) (hvouch.congr ?_ ?_ ?_)
    (fun up hup => ?_) trivial
  · by_contra hro
    exact hstarting (h.writable (Bool.eq_false_iff.mpr hro)).1
  · rw [replay_cons, replay_nil, epochOf, hrole', epochOf, hrole]
    rfl
  · rw [replay_cons, replay_nil, lastApplied_put_role]
  · exact sameData_replay_put rfl _ _
  · exact absurd (h.follows up hup).1 hstarting

end NodeSound

end Commands

/-! ## Steps keep the group sound -/

open SyncView

namespace ReplGroup

variable {s s' : ReplGroup κ ν} {n r m : ℕ}

namespace Sound

variable (hs : s.Sound origin)
include hs

theorem set_write {b : List (StoreOp κ ν)}
    (h : NodeSound origin s.store n (s.node n) ((s.dir n).write b)) :
    (s.set n (s.node n) ((s.dir n).write b)).Sound origin :=
  hs.set (.inl ⟨rfl, log_prefix_write _ _⟩) h

theorem startOn {log : List (List (StoreOp κ ν))} {label : Option Epoch} {j : DirId}
    (hrole : readRole (replay log.flatten fun _ => none) = some ⟨.master, e⟩)
    (hlabel : ∀ l ∈ label, l = e) (hj : origin e = some (.promoted j))
    (hlog : log <+: (s.store j).log) : (s.startOn n log label).Sound origin := by
  refine hs.set (.inr rfl) ⟨nofun, nofun, ?_, nofun, nofun, (hs.nodes n).snaps,
    rfl, e, j, hrole, hlabel, hj, hlog⟩
  intro pre b post c hpre hbase
  -- the copy has written nothing of its own yet
  have hlen : log.length = pre.length + 1 + post.length := by
    rw [show log = pre ++ [b] ++ post from hpre, length_append, length_append]
    rfl
  have hle : log.length ≤ pre.length := hbase
  omega

theorem attach {v : SyncView κ ν} (hok : s.InOrder (.attach r m v))
    (h : s.step (.attach r m v) = some s') : s'.Sound origin := by
  obtain ⟨hv, ⟨e, hmaster⟩, hexact⟩ := hok
  rw [step] at h
  split at h
  · cases h
  rename_i hguard
  push Not at hguard
  obtain ⟨hne, hrs, hms⟩ := hguard
  have hrs := Bool.eq_false_iff.mpr hrs
  have hms := Bool.eq_false_iff.mpr hms
  split at h
  · rename_i mine hrole
    split at h
    · rename_i cursor epoch hreply
      cases h
      obtain ⟨hpos, -, hepoch⟩ := flintsync_eq_ok hreply
      have hmine : epochOf (s.dir r).rows = mine := by rw [epochOf, hrole]; rfl
      have hle : mine ≤ epoch := by
        rcases syncPosition_eq_ok hpos with ⟨hsame, -⟩ | ⟨hlt, -, -⟩
        · exact (hsame.trans hepoch.symm).le
        · exact hepoch ▸ hlt.le
      obtain ⟨hown, hdata, hj⟩ := (hs.nodes r).syncPosition_sound (hs.nodes m) rfl hne hrs hms
        hrole hmaster hv (hmine ▸ hexact) hpos
      have hoff : origin epoch = some (.promoted (m, (s.node m).gen)) := by
        refine (hs.nodes m).master epoch hms ?_
        rw [hepoch, epochOf, hmaster]
        rfl
      refine hs.set (.inl ⟨rfl, ?_⟩)
        ((hs.nodes r).adopt hrs hrole hle hj hoff hown hdata)
      rcases adopt_cases cursor hrole hle with ⟨heq, -, -⟩ | ⟨b, heq, -⟩
      · rw [heq]
      · rw [heq]
        exact log_prefix_write _ _
    · exact some.inj h ▸ hs
  · cases h

variable {v : ℕ → EngineView (StoreKey κ) (StoreVal ν)}

theorem deliver {cursor maxBytes i : ℕ}
    (hok : s.EngineKeepsWord (.deliver r cursor maxBytes v i indexed))
    (h : s.step (.deliver r cursor maxBytes v i indexed) = some s') : s'.Sound origin := by
  rw [step] at h
  split at h
  · rename_i up out hup hout
    split at h
    · cases h
    rename_i b hb
    split at h
    · exact some.inj h ▸ hs
    rename_i d happ
    cases h
    have hframe : Frame (s.store up.dir).ops b := by
      rcases updatesSinceBudgeted_tail _ v cursor maxBytes (hok up hup) with
        ⟨out', n, hout', htail⟩ | ⟨why, hgap⟩
      · obtain rfl : out' = out := Except.ok.inj (hout'.symm.trans hout)
        exact htail.frames b (mem_of_getElem? hb)
      · cases hgap.symm.trans hout
    obtain ⟨hnode, hlog⟩ := (hs.nodes r).applyBatch hup hframe happ
    exact hs.set (.inl ⟨rfl, hlog⟩) hnode
  · cases h

theorem advance (h : s.advance n = some s') : s'.Sound origin := by
  have hn := hs.nodes n
  rw [ReplGroup.advance] at h
  cases hpc : (s.node n).pc with
  | idle => simp [hpc] at h
  | promoting | demoting =>
    simp only [hpc] at h
    split at h
    · cases h
      exact hs.set_node rfl (hn.with_pc (by rw [hpc]; rfl) trivial rfl)
    rename_i claim hclaim
    cases h
    obtain ⟨rfl, -⟩ := setRole_eq_ok hclaim
    first
      | exact hs.set (.inl ⟨rfl, log_prefix_write _ _⟩) (hn.promoted hpc)
      | exact hs.set (.inl ⟨rfl, log_prefix_write _ _⟩) (hn.demoted hpc)
  | resetting own =>
    simp only [hpc] at h
    cases h
    exact hs.set (.inl ⟨rfl, log_prefix_write _ _⟩) (hn.reset hpc)
  | seeding label =>
    simp only [hpc] at h
    cases h
    exact hs.set (.inl ⟨rfl, log_prefix_write _ _⟩) (hn.seeded hpc)
  | seeded label =>
    simp only [hpc] at h
    cases h
    exact hs.set (.inl ⟨rfl, log_prefix_write _ _⟩) (hn.started hpc)

end Sound

theorem Sound.step {ev : GroupEvent κ ν} (hs : s.Sound origin) (hok : s.InOrder ev)
    (h : s.step ev = some s') : ∃ origin', s'.Sound origin' := by
  cases ev with
  | write n ops =>
    obtain ⟨hguard, ⟨⟩⟩ := ite_none_left_eq_some.mp h
    obtain ⟨hstart, hmaster⟩ := (hs.nodes n).writable (by simp_all)
    exact ⟨origin, hs.set_write
      ((hs.nodes n).write_quiet hstart (quiet_map_onRow ops) (.inl hmaster))⟩
  | ownRow n ops =>
    obtain ⟨hguard, ⟨⟩⟩ := ite_none_left_eq_some.mp h
    obtain ⟨hstart, hops⟩ : (s.node n).pc.starting = false ∧ ∀ op ∈ ops, op.isUser = false := by
      simpa using hguard
    refine ⟨origin, hs.set_write ((hs.nodes n).write_quiet hstart (quiet_map_onRow ops)
      (.inr (sameData_replay_system (fun op hop => ?_) _)))⟩
    obtain ⟨op', hop', rfl⟩ := mem_map.mp hop
    rw [isUser_onRow, hops op' hop']
  | attach r m v => exact ⟨origin, hs.attach hok h⟩
  | deliver r cursor maxBytes v i indexed => exact ⟨origin, hs.deliver hok.1 h⟩
  | fullSync r m =>
    obtain ⟨-, e, hmaster⟩ := hok
    rw [ReplGroup.step] at h
    split at h
    · cases h
    rename_i hguard
    push Not at hguard
    cases h
    exact ⟨origin, hs.startOn hmaster (fun l hl => absurd hl (Option.not_mem_none l))
      ((hs.nodes m).master e (Bool.eq_false_iff.mpr hguard.2) hmaster) prefix_rfl⟩
  | snapshot n =>
    rw [ReplGroup.step] at h
    split at h
    · rename_i e hstart hmaster
      cases h
      refine ⟨origin, hs.set_node rfl { hs.nodes n with snaps := fun snap hsnap => ?_ }⟩
      exact of_mem_snoc hsnap ((hs.nodes n).snaps snap)
        ⟨_, (hs.nodes n).master e hstart hmaster, prefix_rfl, hmaster⟩
    · cases h
  | rewind n i =>
    rw [ReplGroup.step] at h
    split at h
    · rename_i snap hsnap
      cases h
      obtain ⟨j, hj, hlog, hrole⟩ := (hs.nodes n).snaps snap (mem_of_getElem? hsnap)
      exact ⟨origin, hs.startOn hrole (fun l hl => (some.inj hl).symm) hj hlog⟩
    · cases h
  | promote n e =>
    obtain ⟨hguard, ⟨⟩⟩ := ite_none_right_eq_some.mp h
    have hs' := hs.claim (o := .promoted (n, (s.node n).gen)) hguard.2
      (fun j hj => promoted.inj hj ▸ le_rfl)
    have hstart : (s.node n).pc.starting = false := by rw [hguard.1]; rfl
    refine ⟨_, hs'.set (.inl ⟨rfl, log_prefix_write _ _⟩)
      (((hs'.nodes n).write_quiet hstart ?_ (.inr (sameData_replay_put rfl _ _))).with_pc hstart
        (update_self ..) rfl)⟩
    simp [Quiet, key]
  | demote n e =>
    obtain ⟨hguard, ⟨⟩⟩ := ite_none_right_eq_some.mp h
    have hs' := hs.claim (o := .demoted (n, (s.node n).gen)) hguard.2 fun _ heq => by cases heq
    have hstart : (s.node n).pc.starting = false := by rw [hguard.1]; rfl
    exact ⟨_, hs'.set_node rfl ((hs'.nodes n).with_pc hstart (update_self ..) rfl)⟩
  | advance n => exact ⟨origin, hs.advance h⟩
  | selfFence n =>
    cases h
    exact ⟨origin, hs.set_node rfl { hs.nodes n with writable := fun hro => Bool.noConfusion hro }⟩
  | crash n =>
    cases h
    have hn := hs.nodes n
    refine ⟨origin, hs.set_node rfl ⟨fun e _ => hn.master e hok.2, fun e _ => hn.replica e hok.2,
      hn.wal, fun hro => ⟨rfl, ?_⟩, fun _ hup => (Option.some_ne_none _ hup.symm).elim, hn.snaps,
      trivial⟩⟩
    cases hrole : readRole (s.dir n).rows with
    | none => simp [hrole] at hro
    | some c =>
      obtain ⟨role, e⟩ := c
      cases role with
      | master => exact ⟨e, rfl⟩
      | replica => simp [hrole] at hro

theorem nodeSound_blank (origin : Epoch → Option Origin) (store : DirId → Dir κ ν) (n : ℕ) :
    NodeSound origin store n .blank ⟨[], 0⟩ := by
  refine ⟨nofun, nofun, fun pre b post c hlog => ?_, nofun, nofun, nofun, trivial⟩
  simp at hlog

theorem nodeSound_firstMaster {origin : Epoch → Option Origin} (store : DirId → Dir κ ν)
    (he : origin e = some (.promoted (n, 0))) : NodeSound origin store n ⟨0, false, .idle, none, []⟩
      ⟨[[.put .role (.claim ⟨.master, e⟩)]], 0⟩ := by
  have hrole : readRole (⟨[[.put .role (.claim ⟨.master, e⟩)]], 0⟩ : Dir κ ν).rows
      = some ⟨.master, e⟩ := readRole_put_role _ _
  refine ⟨fun e' _ he' => ?_, fun e' _ he' => ?_, fun pre b post c hlog _ hc => ?_,
    fun _ => ⟨rfl, e, hrole⟩, nofun, nofun, trivial⟩
  · obtain rfl : e = e' := congrArg epoch (some.inj (hrole.symm.trans he'))
    exact he
  · cases hrole.symm.trans he'
  have hb : b ∈ [[(.put .role (.claim ⟨.master, e⟩) : StoreOp κ ν)]] := by
    rw [show [[(.put .role (.claim ⟨.master, e⟩) : StoreOp κ ν)]] = pre ++ [b] ++ post from hlog]
    simp
  obtain rfl := mem_singleton.mp hb
  cases hc

theorem sound_firstStart : ∃ origin, (firstStart : ReplGroup κ ν).Sound origin := by
  let origin : Epoch → Option Origin := update (fun _ => none) ⟨0, 1⟩ (some (.promoted (0, 0)))
  have horigin : ∀ e o, origin e = some o → e = ⟨0, 1⟩ ∧ o = .promoted (0, 0) := by
    intro e o he
    by_cases heq : e = ⟨0, 1⟩
    · subst heq
      rw [show origin ⟨0, 1⟩ = _ from update_self ..] at he
      exact ⟨rfl, (some.inj he).symm⟩
    · rw [show origin e = _ from update_of_ne heq ..] at he
      cases he
  have hblank : Sound origin
      (⟨fun _ => .blank, fun _ => ⟨[], 0⟩, ⟨0, 1⟩⟩ : ReplGroup κ ν) := by
    refine ⟨fun e o he => (horigin e o he).1.le, fun e j hj => ?_, nodeSound_blank _ _⟩
    rw [promoted.inj (horigin e _ hj).2]
    exact Nat.zero_le _
  exact ⟨origin, hblank.set (.inl ⟨rfl, nil_prefix⟩)
    (nodeSound_firstMaster _ (update_self ..))⟩

/-! ## Rejoining -/

theorem sound_of_reach (h : groupMachine.Reach InOrder s) : ∃ origin, s.Sound origin := by
  refine Machine.Reach.invariant (I := fun t => ∃ origin, Sound origin t) (fun t hinit => ?_)
    (fun t ev t' _ ht hok hst => ?_) h
  · obtain rfl : t = firstStart := hinit
    exact sound_firstStart
  · obtain ⟨origin, ht⟩ := ht
    exact ht.step hok hst

theorem Sound.caught_up (hs : s.Sound origin)
    (hfollows : (s.node r).follows = some ⟨(m, (s.node m).gen), e⟩)
    (hrole : readRole (s.dir r).rows = some ⟨.replica, e⟩)
    (hcursor : lastApplied (s.dir r).rows = (s.dir m).latestSeq) :
    SameData (s.dir r).rows (s.dir m).rows := by
  obtain ⟨hstart, hdir, -⟩ := (hs.nodes r).follows _ hfollows
  have hepoch : epochOf (s.dir r).rows = e := by rw [epochOf, hrole]; rfl
  rcases (hs.nodes r).replica e hstart hrole with ⟨j, hj, -, hdata⟩ | hd
  · rw [hepoch, hdir] at hj
    obtain rfl := promoted.inj (some.inj hj)
    rw [hcursor] at hdata
    exact (s.dir m).rowsAt_latestSeq ▸ hdata
  · rw [hepoch, hdir] at hd
    cases hd

variable {ok : ReplGroup κ ν → GroupEvent κ ν → Prop}

theorem guarded_deliver {c maxBytes : ℕ}
    (hok : ∀ s i, s.EngineKeepsWord (.deliver r c maxBytes v i true) →
      ok s (.deliver r c maxBytes v i true))
    (hup : (s.node r).follows = some up) (hne : up.dir.1 ≠ r)
    (hv : ∀ n, Honest (s.store up.dir).ops c (v n)) (is : List ℕ) :
    groupMachine.Guarded ok s (is.map fun i => .deliver r c maxBytes v i true) := by
  induction is generalizing s with
  | nil => trivial
  | cons i is ih =>
    have hword : s.EngineKeepsWord (.deliver r c maxBytes v i true) := by
      intro up' hup'
      obtain rfl := some.inj (hup.symm.trans hup')
      exact hv
    refine guarded_cons (hok s i hword) fun t hst => ?_
    have hsame : (t.node r).follows = (s.node r).follows ∧ t.store up.dir = s.store up.dir := by
      change s.step (.deliver r c maxBytes v i true) = some t at hst
      rw [step] at hst
      split at hst
      · split at hst
        · cases hst
        split at hst
        · cases hst
          exact ⟨rfl, rfl⟩
        · cases hst
          exact ⟨by rw [node_set_self], store_set_of_ne _ _ _ fun heq => hne (heq ▸ rfl)⟩
      · cases hst
    exact ih (hsame.1.trans hup) (hsame.2 ▸ hv)

theorem guarded_stream {s₀ : ReplGroup κ ν}
    {run : List (GroupEvent κ ν)} {c latest maxBytes : ℕ} (up : Upstream) (d : Dir κ ν)
    (hd : Retained d.ops d.wal) (hc : Contiguous d.wal) (hl : latest ≤ d.ops.length)
    (hne : up.dir.1 ≠ r) (hs : groupMachine.exec s₀ run = some s)
    (hends : (groupMachine.exec s₀ run).map (fun s => ((s.node r).follows, s.store up.dir)) =
      some (some up, d)) (hok : ∀ s v i, s.EngineKeepsWord (.deliver r c maxBytes v i true) →
      ok s (.deliver r c maxBytes v i true)) (is : List ℕ) : groupMachine.Guarded ok s
      (is.map fun i => .deliver r c maxBytes (fun _ => .retaining d.wal latest c) i true) := by
  rw [hs] at hends
  obtain ⟨hup, hstore⟩ := Prod.mk.inj (some.inj hends)
  exact guarded_deliver (fun s i => hok s _ i) hup hne
    (fun _ => hstore ▸ honest_retaining hd hc hl c) is

/-! ## A failover the rows survive

Nodes `1` and `2` are seeded alike; node `2` follows a write of the master that node `1` misses, is
promoted, and node `1` resumes at the cursor row of its own seeding.  Later node `2` fences itself
and is promoted again, while node `1` streams on. -/

def firstMaster : Dir Bytes Bytes := ⟨[[.put .role (.claim ⟨.master, ⟨0, 1⟩⟩)]], 0⟩

def writtenMaster : Dir Bytes Bytes := firstMaster.write [.put (.row [1]) (.value [1])]

def followedMaster : Dir Bytes Bytes where
  log := [[.put .role (.claim ⟨.master, ⟨0, 1⟩⟩)], [.put .replState (.seq 1)],
    [.put .role (.claim ⟨.replica, ⟨0, 1⟩⟩)],
    [.put (.row [1]) (.value [1]), .put .replState (.seq 2)],
    [.put (.promoFence ⟨0, 2⟩) (.fence ⟨0, 1⟩ 2)], [.put .role (.claim ⟨.master, ⟨0, 2⟩⟩)]]
  base := 1

def promotedAgain : Dir Bytes Bytes :=
  (followedMaster.write [.put (.promoFence ⟨0, 3⟩) (.fence ⟨0, 2⟩ 2)]).write
    [.put .role (.claim ⟨.master, ⟨0, 3⟩⟩)]

def seedBoth : List (GroupEvent Bytes Bytes) :=
  [.fullSync 1 0, .advance 1, .advance 1] ++ [.fullSync 2 0, .advance 2, .advance 2]

def followAndPromote : List (GroupEvent Bytes Bytes) :=
  seedBoth ++ [.attach 2 0 (.retaining firstMaster 1)] ++ [.write 0 [.put [1] [1]]] ++
    ([0].map fun i => .deliver 2 1 100 (fun _ => .retaining writtenMaster.wal 2 1) i true) ++
    [.promote 2 ⟨0, 2⟩, .advance 2]

def resume : List (GroupEvent Bytes Bytes) :=
  followAndPromote ++ [.attach 1 2 (.retaining followedMaster 2)] ++
    ([0, 1, 2, 3].map fun i => .deliver 1 2 100 (fun _ => .retaining followedMaster.wal 7 2) i true)

def promoteAgain : List (GroupEvent Bytes Bytes) :=
  resume ++ [.selfFence 2, .promote 2 ⟨0, 3⟩, .advance 2] ++
    ([0, 1].map fun i => .deliver 1 7 100 (fun _ => .retaining promotedAgain.wal 9 7) i true)

theorem guarded_seedBoth : groupMachine.Guarded InOrder firstStart seedBoth := by
  have hplain : ∀ n s, groupMachine.Guarded InOrder (s : ReplGroup Bytes Bytes)
      [.advance n, .advance n] := fun n s =>
    guarded_of_forall (by simp [InOrder, EngineKeepsWord, Orderly]) s
  refine append (guarded_cons ?_ fun s _ => hplain 1 s)
    fun s hs => guarded_cons ?_ fun t _ => hplain 2 t
  · exact ⟨trivial, ⟨0, 1⟩, by decide +kernel⟩
  · exact ⟨trivial, ⟨0, 1⟩,
      eq_of_exec_map hs (f := fun s => readRole (s.dir 0).rows) (by decide +kernel)⟩

theorem guarded_followAndPromote : groupMachine.Guarded InOrder firstStart followAndPromote := by
  refine append (append (append
    (append guarded_seedBoth fun s hs => guarded_cons ?_ fun _ _ => trivial)
    fun s _ => guarded_of_forall (by simp [InOrder, EngineKeepsWord, Orderly]) s)
    fun s hs => ?_) fun s _ =>
      guarded_of_forall (by simp [InOrder, EngineKeepsWord, Orderly]) s
  · obtain ⟨hdir, hmine⟩ := Prod.mk.inj (eq_of_exec_map hs
      (f := fun s => (s.dir 0, epochOf (s.dir 2).rows)) (a := (firstMaster, ⟨0, 1⟩))
      (by decide +kernel))
    rw [InOrder, EngineKeepsWord, Orderly, hdir, hmine]
    refine ⟨keepsWord_retaining _ _, ⟨⟨0, 1⟩, by decide +kernel⟩, fun hlt => ?_⟩
    exact absurd hlt (by decide +kernel)
  exact guarded_stream ⟨(0, 0), ⟨0, 1⟩⟩ writtenMaster
    ⟨by decide, by decide, by decide, by decide, by decide⟩ (by decide) (by decide) (by decide) hs
    (by decide +kernel) (fun _ _ _ h => ⟨h, trivial⟩) _

theorem guarded_resume : groupMachine.Guarded InOrder firstStart resume := by
  refine append (append guarded_followAndPromote fun s hs =>
    guarded_cons ?_ fun _ _ => trivial) fun s hs => ?_
  · obtain ⟨hdir, hcursor⟩ := Prod.mk.inj (eq_of_exec_map hs
      (f := fun s => (s.dir 2, lastApplied (s.dir 1).rows, epochOf (s.dir 1).rows))
      (a := (followedMaster, 1, ⟨0, 1⟩)) (by decide +kernel))
    obtain ⟨hcursor, hmine⟩ := Prod.mk.inj hcursor
    rw [InOrder, EngineKeepsWord, Orderly, hdir, hcursor, hmine]
    refine ⟨keepsWord_retaining _ _, ⟨⟨0, 2⟩, by decide +kernel⟩, fun _ _ => ?_⟩
    decide +kernel
  exact guarded_stream ⟨(2, 1), ⟨0, 2⟩⟩ followedMaster
    ⟨by decide, by decide, by decide, by decide, by decide⟩ (by decide) (by decide) (by decide) hs
    (by decide +kernel) (fun _ _ _ h => ⟨h, trivial⟩) _

def seededMaster : Dir Bytes Bytes where
  log := [[.put .role (.claim ⟨.master, ⟨0, 1⟩⟩)], [.put (.row [1]) (.value [1])],
    [.put .replState (.seq 2)], [.put .role (.claim ⟨.replica, ⟨0, 1⟩⟩)],
    [.put (.promoFence ⟨0, 2⟩) (.fence ⟨0, 1⟩ 2)], [.put .role (.claim ⟨.master, ⟨0, 2⟩⟩)]]
  base := 2

/-- Two seedings around a write, a promotion, and a demotion of the old master above it. -/
def seedRun : List (GroupEvent Bytes Bytes) :=
  [.fullSync 1 0, .advance 1, .advance 1, .write 0 [.put [1] [1]], .fullSync 2 0, .advance 2,
    .advance 2, .promote 2 ⟨0, 2⟩, .advance 2, .demote 0 ⟨0, 3⟩, .advance 0, .advance 0]

def rejoin : GroupEvent Bytes Bytes := .attach 1 2 (.retaining seededMaster 3)

def streamRun : List (GroupEvent Bytes Bytes) :=
  [0, 1, 2].map fun i => .deliver 1 3 100 (fun _ => .retaining seededMaster.wal 6 3) i true

/-- **A copy that lacks a write is accepted past it**, and still lacks it at the master's latest
number.  And a copy demoted above its master is refused without being asked to seed afresh. -/
theorem short_copy_accepted :
    ∃ s : ReplGroup Bytes Bytes, groupMachine.Reach EngineKeepsWord s ∧
      ((s.node 1).follows = some ⟨(2, (s.node 2).gen), ⟨0, 2⟩⟩ ∧
        readRole (s.dir 1).rows = some ⟨.replica, ⟨0, 2⟩⟩ ∧
        lastApplied (s.dir 1).rows = (s.dir 2).latestSeq ∧
        (s.dir 2).rows (.row [1]) = some (.value [1]) ∧ (s.dir 1).rows (.row [1]) = none) ∧
      readRole (s.dir 0).rows = some ⟨.replica, ⟨0, 3⟩⟩ ∧
      ∃ why, (s.dir 2).flintsync (.retaining seededMaster 0) (lastApplied (s.dir 0).rows)
        (some ⟨0, 3⟩) = .refused (.err why) := by
  have hguard : groupMachine.Guarded EngineKeepsWord firstStart
      (seedRun ++ [rejoin] ++ streamRun) := by
    refine append (append ?_ fun s hs =>
      guarded_cons ?_ fun _ _ => trivial) fun s hs => ?_
    · refine guarded_of_forall (fun ev hev s => ?_) _
      simp only [seedRun, mem_cons, not_mem_nil, or_false] at hev
      rcases hev with rfl | rfl | rfl | rfl | rfl | rfl | rfl | rfl | rfl | rfl
          | rfl | rfl <;> trivial
    · have hdir : s.dir 2 = seededMaster :=
        eq_of_exec_map hs (f := fun s => s.dir 2) (by decide +kernel)
      change SyncView.KeepsWord _ (s.dir 2)
      rw [hdir]
      exact keepsWord_retaining _ _
    exact guarded_stream ⟨(2, 1), ⟨0, 2⟩⟩ seededMaster
      ⟨by decide, by decide, by decide, by decide, by decide⟩ (by decide) (by decide) (by decide) hs
      (by decide +kernel) (fun _ _ _ h => h) _
  obtain ⟨s, hs⟩ := Option.isSome_iff_exists.mp
    (by decide +kernel : (groupMachine.exec firstStart (seedRun ++ [rejoin] ++ streamRun)).isSome)
  have hcopy := eq_of_exec_map hs
    (f := fun s => ((s.node 1).follows, (s.node 2).gen, readRole (s.dir 1).rows,
      lastApplied (s.dir 1).rows))
    (a := (some ⟨(2, 1), ⟨0, 2⟩⟩, 1, some ⟨.replica, ⟨0, 2⟩⟩, 6)) (by decide +kernel)
  have hrest := eq_of_exec_map hs
    (f := fun s => (s.dir 2, (s.dir 1).rows (.row [1]), readRole (s.dir 0).rows))
    (a := (seededMaster, none, some ⟨.replica, ⟨0, 3⟩⟩)) (by decide +kernel)
  simp only [Prod.mk.injEq] at hcopy hrest
  obtain ⟨hup, hgen, hrole, hcursor⟩ := hcopy
  obtain ⟨hmaster, hrow, hzombie⟩ := hrest
  refine ⟨s, .of_exec (.init rfl) hguard hs, ⟨?_, hrole, ?_, ?_, hrow⟩, hzombie, ?_⟩
  · rw [hup, hgen]
  · rw [hcursor, hmaster]
    decide
  · rw [hmaster]
    decide +kernel
  rw [hmaster]
  have hnewer : epochOf seededMaster.rows < ⟨0, 3⟩ := by decide +kernel
  rw [flintsync, syncPosition, if_pos hnewer]
  exact ⟨_, rfl⟩

/-! ## A copy that starts as a master

Node `1` dies on a directory it has just copied, before it has written its own role: it starts again
as what the copy says, a master of the same epoch.  Both masters write, and node `2`, which streamed
from the one, is accepted by the other. -/

def crashedMaster : Dir Bytes Bytes where
  log := [[.put .role (.claim ⟨.master, ⟨0, 1⟩⟩)], [.put (.row [1]) (.value [9])]]
  base := 1

def crashRun : List (GroupEvent Bytes Bytes) :=
  [.fullSync 1 0, .crash 1, .fullSync 2 0, .advance 2, .advance 2] ++
    [.attach 2 0 (.retaining firstMaster 1)] ++ [.write 0 [.put [1] [1]]] ++
    ([0].map fun i => .deliver 2 1 100 (fun _ => .retaining writtenMaster.wal 2 1) i true) ++
    [.write 1 [.put [1] [9]]] ++ [.attach 2 1 (.retaining crashedMaster 2)]

theorem guarded_crashRun : groupMachine.Guarded EngineKeepsWord firstStart crashRun := by
  refine append (append (append (append (append ?_ fun s hs => guarded_cons ?_ fun _ _ => trivial)
    fun s _ => guarded_of_forall (by simp [EngineKeepsWord]) s) fun s hs => ?_)
    fun s _ => guarded_of_forall (by simp [EngineKeepsWord]) s)
    fun s hs => guarded_cons ?_ fun _ _ => trivial
  · exact guarded_of_forall (by simp [EngineKeepsWord]) _
  · have hdir : s.dir 0 = firstMaster :=
      eq_of_exec_map hs (f := fun s => s.dir 0) (by decide +kernel)
    change SyncView.KeepsWord _ (s.dir 0)
    rw [hdir]
    exact keepsWord_retaining _ _
  · exact guarded_stream ⟨(0, 0), ⟨0, 1⟩⟩ writtenMaster
      ⟨by decide, by decide, by decide, by decide, by decide⟩ (by decide) (by decide) (by decide) hs
      (by decide +kernel) (fun _ _ _ h => h) _
  · have hdir : s.dir 1 = crashedMaster :=
      eq_of_exec_map hs (f := fun s => s.dir 1) (by decide +kernel)
    change SyncView.KeepsWord _ (s.dir 1)
    rw [hdir]
    exact keepsWord_retaining _ _

theorem crashed_copy_serves :
    ∃ s : ReplGroup Bytes Bytes, groupMachine.Reach EngineKeepsWord s ∧
      (s.node 2).follows = some ⟨(1, (s.node 1).gen), ⟨0, 1⟩⟩ ∧
      lastApplied (s.dir 2).rows = (s.dir 1).latestSeq ∧
      (s.dir 2).rows (.row [1]) = some (.value [1]) ∧
      (s.dir 1).rows (.row [1]) = some (.value [9]) := by
  obtain ⟨s, hs⟩ := Option.isSome_iff_exists.mp
    (by decide +kernel : (groupMachine.exec firstStart crashRun).isSome)
  have hcopy := eq_of_exec_map hs
    (f := fun s => ((s.node 2).follows, (s.node 1).gen, lastApplied (s.dir 2).rows))
    (a := (some ⟨(1, 1), ⟨0, 1⟩⟩, 1, 2)) (by decide +kernel)
  have hrows := eq_of_exec_map hs (f := fun s => ((s.dir 2).rows (.row [1]), s.dir 1))
    (a := (some (.value [1]), crashedMaster)) (by decide +kernel)
  simp only [Prod.mk.injEq] at hcopy hrows
  obtain ⟨hup, hgen, hcursor⟩ := hcopy
  obtain ⟨hrow, hmaster⟩ := hrows
  refine ⟨s, .of_exec (.init rfl) guarded_crashRun hs, ?_, ?_, hrow, ?_⟩
  · rw [hup, hgen]
  · rw [hcursor, hmaster]
    decide
  · rw [hmaster]
    decide +kernel

end ReplGroup

end Flint
