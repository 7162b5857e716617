import FlintCache.Migrate.Stream

/-!
# Migrate/Cutover — the destination drives a unit's cutover

The destination marks the unit as importing, pulls the export stream to a first caught-up mark,
freezes the unit on the source, pulls to a second mark, clears its own record (it owns now), makes
its rows durable and tells the source to hand over; the source then answers `MOVED` and deletes the
unit's rows.  Any failure before the hand-over rolls back.

Three things can go wrong: a mark that was made before the freeze and read after it, a write that
passed the gate before it and reached the store after it, and rows an earlier import left.
-/

namespace Flint

open List SlotStore Bool Nat

/-! ## The destination's thread -/

inductive SlotVerb
  | freeze
  | moved
  | abort
  deriving DecidableEq, Repr

/-- Where the importing thread is.  A call has the number of its request and the attempts left. -/
inductive ImportPc
  | off
  | connecting
  | pulling
  | freezing (id left : ℕ)
  | flipped
  | handing (id left : ℕ)
  /-- The hand-over went unanswered: the source is asked what it holds. -/
  | asking (why : String)
  | aborting (why : String) (id left : ℕ)
  | finished (reply : SlotReply)
  deriving DecidableEq, Repr

/-- The import as its destination runs it. -/
structure Import where
  pc : ImportPc := .off
  pastBulk : Bool := false
  frozen : Bool := false
  applied : ℕ := 0
  deriving DecidableEq, Repr

/-- A purge under way: for which request, the keys of the current family to delete, the families to
go, and the rows deleted. -/
structure PurgeJob where
  id : ℕ
  keys : List Bytes
  todo : List Cf
  purged : ℕ
  deriving DecidableEq, Repr

/-- Source, destination, their threads, and what is on its way between them. -/
structure Cutover where
  stream : Stream
  /-- Client commands past the source's gate: the operations they still have to store. -/
  pending : List (List (ReplOp Bytes Bytes))
  imp : Import
  nextId : ℕ
  requests : List (ℕ × SlotVerb)
  replies : List (ℕ × SlotReply)
  purges : List PurgeJob
  took : Bool
  /-- The source's rows at each `FLINTSLOTMOVED` it executed. -/
  purged : List (Rows Bytes Bytes)
  strays : List (ReplOp Bytes Bytes)

/-- One step of the source, of the destination or of a client. -/
inductive CutoverEvent
  | enter (ops : List (ReplOp Bytes Bytes))
  | store (i : ℕ)
  | ownRow (op : ReplOp Bytes Bytes)
  | start
  | connect
  | exportStep (v : ℕ → EngineView Bytes Bytes)
  | receive
  | fail (why : String)
  | execute (i : ℕ)
  | purge (i : ℕ)
  | reply (i : ℕ)
  | timeout (why : String)
  | flush (failure : Option String)
  | ask (failure : Option String)

namespace Cutover

variable (u : SlotUnit) (src me : String) (s : Cutover)

def setSrc (st : SlotStore) : Cutover := { s with stream := { s.stream with src := st } }

def setDst (st : SlotStore) : Cutover := { s with stream := { s.stream with dst := st } }

def goto (pc : ImportPc) : Cutover := { s with imp := { s.imp with pc } }

def call (verb : SlotVerb) (pc : ImportPc) : Cutover :=
  { s.goto pc with nextId := s.nextId + 1, requests := s.requests ++ [(s.nextId, verb)] }

def retries : ℕ := 2

/-- **Roll back.**  A source that was not frozen needs nothing.  One that was is told to resume, and
our record says why we stopped until it has been. -/
def rollback (why : String) : Cutover :=
  if s.imp.frozen then
    let s' := match s.stream.dst.setSlotPhase u .aborted src with
      | .ok dst => s.setDst dst
      | .error _ => s
    s'.call .abort (.aborting why s'.nextId retries)
  else (s.setDst (s.stream.dst.clearMigration u)).goto (.finished (.error why))

def start : Option Cutover :=
  match s.imp.pc with
  | .off =>
    match s.stream.dst.setSlotPhase u .importing src with
    | .ok dst => some ((s.setDst dst).goto .connecting)
    | .error (.fenced e) => some (s.goto (.finished
        (.error s!"ERR set importing fenced: Fenced \x7b current: {e.display} \x7d")))
  | _ => none

/-- A caught-up mark: freeze the source, or take the unit over if it is frozen. -/
def caughtUp : Cutover :=
  if s.imp.frozen then (s.setDst (s.stream.dst.clearMigration u)).goto .flipped
  else s.call .freeze (.freezing s.nextId retries)

def receive : Option Cutover :=
  match s.imp.pc, s.stream.take with
  | .pulling, some (f, stream) =>
    let s := { s with stream }
    match f with
    | .migrateOutOk => some s
    | .error e => some (s.rollback u src s!"ERR migrate source: {e}")
    | .op (.put _ _) => some { s with imp := { s.imp with applied := s.imp.applied + 1 } }
    | .op (.delete _) => some s
    | .bulkEnd _ _ => some { s with imp := { s.imp with pastBulk := true } }
    | .caughtUp cursor head =>
      if s.imp.pastBulk && head ≤ cursor then some (s.caughtUp u) else some s
  | _, _ => none

def execute (i : ℕ) : Option Cutover :=
  match s.requests[i]? with
  | none => none
  | some (id, verb) =>
    let s := { s with requests := s.requests.eraseIdx i }
    match verb with
    | .freeze =>
      let (st, r) := s.stream.src.slotFreeze u me
      some { s.setSrc st with replies := s.replies ++ [(id, r)] }
    | .abort =>
      let (st, r) := s.stream.src.slotAbort u
      some { s.setSrc st with replies := s.replies ++ [(id, r)] }
    | .moved =>
      match s.stream.src.slotMoved u me with
      | (st, some r) => some { s.setSrc st with replies := s.replies ++ [(id, r)] }
      | (st, none) =>
        some { s.setSrc st with
          purges := s.purges ++ [⟨id, [], Cf.all, 0⟩]
          purged := s.purged ++ [s.stream.src.rows] }

/-- A purge deletes its next key, collects the next family's keys, or answers. -/
def purge (i : ℕ) : Option Cutover :=
  match s.purges[i]? with
  | none => none
  | some ⟨id, k :: keys, todo, n⟩ =>
    some { s.setSrc (s.stream.src.write (.delete k)) with
      purges := s.purges.set i ⟨id, keys, todo, n + 1⟩ }
  | some ⟨id, [], cf :: todo, n⟩ =>
    some { s with
      purges := s.purges.set i ⟨id, (s.stream.src.scan (u.inCf cf)).map Prod.fst, todo, n⟩ }
  | some ⟨id, [], [], n⟩ =>
    some { s with
      purges := s.purges.eraseIdx i
      replies := s.replies ++
        [(id, .simple s!"OK slot {u.slot} moved to {me} ({n} rows purged)")] }

def showReply : SlotReply → String
  | .simple text => s!"Simple({text.quote})"
  | .error text => s!"Error({text.quote})"

def answered (i : ℕ) : Option Cutover :=
  match s.replies[i]?, s.imp.pc with
  | some (id, r), .freezing id' _ =>
    if id = id' then
      let s := { s with replies := s.replies.eraseIdx i }
      match r with
      | .simple _ => some { s with imp := { s.imp with pc := .pulling, frozen := true } }
      | .error _ => some (s.rollback u src s!"ERR freeze failed: Ok({showReply r})")
    else none
  | some (id, r), .handing id' _ =>
    if id = id' then
      let s := { s with replies := s.replies.eraseIdx i }
      match r with
      | .simple _ => some (s.goto (.finished (.simple s!"MIGRATEIN-OK {s.imp.applied} cutover")))
      | .error _ => some (s.goto (.finished
          (.error s!"ERR cutover handoff refused by source (we own): {showReply r}")))
    else none
  | some (id, r), .aborting why id' _ =>
    if id = id' then
      let s := { s with replies := s.replies.eraseIdx i }
      match r with
      | .simple _ => some ((s.setDst (s.stream.dst.clearMigration u)).goto (.finished (.error why)))
      -- the marker stays: it is the only evidence that the source is frozen on our account
      | .error _ => some (s.goto (.finished (.error why)))
    else none
  | _, _ => none

def timeout (why : String) : Option Cutover :=
  match s.imp.pc with
  | .freezing _ (left + 1) => some (s.call .freeze (.freezing s.nextId left))
  | .freezing _ 0 => some (s.rollback u src s!"ERR freeze failed: Err({why})")
  | .handing _ (left + 1) => some (s.call .moved (.handing s.nextId left))
  | .handing _ 0 => some (s.goto (.asking why))
  | .aborting why' _ (left + 1) => some (s.call .abort (.aborting why' s.nextId left))
  | .aborting why' _ 0 => some (s.goto (.finished (.error why')))
  | _ => none

def flush (failure : Option String) : Option Cutover :=
  match s.imp.pc, failure with
  | .flipped, none => some { s.call .moved (.handing s.nextId retries) with took := true }
  | .flipped, some e =>
    some (s.rollback u src ("ERR cutover refused: the imported slot could not be " ++
      s!"made durable before handing ownership over ({e}) -- " ++
      "the source still owns it and nothing was purged"))
  | _, _ => none

def phaseText : MigrationPhase → String
  | .importing => "importing"
  | .migrating => "migrating"
  | .moved => "moved"
  | .aborted => "aborted"

/-- What an unanswered hand-over is reported as, by what the source says it holds. -/
def ask (failure : Option String) : Option Cutover :=
  match s.imp.pc with
  | .asking e =>
    some <| s.goto <| .finished <|
      match failure, s.stream.src.phase with
      | some why, _ => .error ("ERR cutover handoff UNCONFIRMED after retries (we own the slot; " ++
          s!"the re-query also failed: {why}. Its Moved record commits " ++
          "before it replies, so a lost reply does not mean a lost " ++
          s!"handoff; check the source before acting): {e}")
      | none, some .moved => .simple (s!"MIGRATEIN-OK {s.imp.applied} cutover " ++
          "(reply lost; source confirms Moved on re-query)")
      | none, some p => .error ("ERR cutover handoff INCOMPLETE (we own the slot; the source " ++
          s!"answered a re-query and still holds it in phase '{phaseText p}' — " ++
          s!"it has NOT disowned, so retry the flip): {e}")
      | none, none => .error ("ERR cutover handoff UNCONFIRMED (we own the slot; the source " ++
          "answered a re-query and has NO record for this slot, which is " ++
          "not the same as having disowned it — it may have cleaned up " ++
          "after a completed move or never held one; check the source's " ++
          s!"slot ownership before acting): {e}")
  | _ => none

def store (i : ℕ) : Option Cutover :=
  match s.pending[i]? with
  | some (op :: ops) =>
    some { s.setSrc (s.stream.src.write op) with
      pending := s.pending.set i ops
      strays := if u.covers op.key && !s.purged.isEmpty then s.strays ++ [op] else s.strays }
  | _ => none

def step : CutoverEvent → Option Cutover
  | .enter ops =>
    if ops.all ReplOp.isUser &&
        (ops.all (fun op => !u.covers op.key) || s.stream.src.acceptsWrites u) then
      some { s with pending := s.pending ++ [ops] }
    else none
  | .store i => s.store u i
  | .ownRow op => if op.isUser then none else some (s.setSrc (s.stream.src.write op))
  | .start => s.start u src
  | .connect =>
    match s.imp.pc with
    | .connecting => some ({ s with stream := s.stream.startExport u }.goto .pulling)
    | _ => none
  | .exportStep v => (s.stream.exportStep u v).map fun stream => { s with stream }
  | .receive => s.receive u src
  | .fail why =>
    match s.imp.pc with
    | .connecting | .pulling => some (s.rollback u src why)
    | _ => none
  | .execute i => s.execute u me i
  | .purge i => s.purge u me i
  | .reply i => s.answered u src i
  | .timeout why => s.timeout u src why
  | .flush failure => s.flush u src failure
  | .ask failure => s.ask failure

end Cutover

/-- The two nodes before the import, perhaps with rows of the unit, and a record at the source. -/
def cutoverMachine (u : SlotUnit) (src me : String) : Machine Cutover CutoverEvent where
  init s := s.stream.wire = [] ∧ s.stream.exporter = .idle ∧ s.pending = [] ∧ s.imp = {} ∧
    s.requests = [] ∧ s.replies = [] ∧ s.purges = [] ∧ s.took = false ∧ s.purged = [] ∧
    s.strays = []
  step := Cutover.step u src me

/-! ## When a cutover is exact -/

def MigFrame.outdated (u : SlotUnit) (src : SlotStore) : MigFrame → Bool
  | caughtUp cursor head => head ≤ cursor && (src.history.drop cursor).any fun op => u.covers op.key
  | _ => false

/-- **Writes have settled**: no admitted operation on the unit is pending, no mark outdated. -/
def Cutover.Settled (u : SlotUnit) (s : Cutover) : Prop :=
  (∀ ops ∈ s.pending, ∀ op ∈ ops, u.covers op.key = false) ∧
    ∀ f ∈ s.stream.wire, f.outdated u s.stream.src = false

instance (u : SlotUnit) (s : Cutover) : Decidable (s.Settled u) :=
  inferInstanceAs (Decidable (_ ∧ _))

/-- **The condition of an exact cutover**: the destination starts without rows of the unit the
source lacks, writes have settled when a freeze is executed, and the engine keeps its word. -/
def Cutover.Exact (u : SlotUnit) (s : Cutover) : CutoverEvent → Prop
  | .connect => ∀ op ∈ s.stream.dst.history, u.covers op.key →
      s.stream.src.rows op.key = none → s.stream.dst.rows op.key = none
  | .execute i => ∀ r ∈ s.requests[i]?, r.2 = .freeze → s.Settled u
  | .exportStep v => s.stream.EngineKeepsWord v
  | _ => True

instance (u : SlotUnit) (s : Cutover) : Decidable (s.Exact u .connect) :=
  inferInstanceAs (Decidable (∀ op ∈ s.stream.dst.history, _))

instance (u : SlotUnit) (s : Cutover) (i : ℕ) : Decidable (s.Exact u (.execute i)) :=
  inferInstanceAs (Decidable (∀ r ∈ s.requests[i]?, _))

/-! ## The invariant -/

def ImportPc.live : ImportPc → Bool
  | aborting _ _ _ | finished _ => false
  | _ => true

def ImportPc.early : ImportPc → Bool
  | off | connecting | freezing _ _ => true
  | _ => false

def ImportPc.late : ImportPc → Bool
  | handing _ _ | asking _ | finished _ => true
  | _ => false

structure Cutover.Inv (u : SlotUnit) (s : Cutover) : Prop where
  sound : s.stream.Sound u
  /-- A source with a record has no write of the unit between gate and store. -/
  quiet : s.stream.src.record ≠ none → ∀ ops ∈ s.pending, ∀ op ∈ ops, u.covers op.key = false
  fresh : s.took = false → s.stream.src.phase = some .migrating →
    ∀ f ∈ s.stream.wire, f.outdated u s.stream.src = false
  unmoved : s.took = false → s.purged = [] ∧ s.purges = [] ∧ ∀ r ∈ s.requests, r.2 ≠ .moved
  /-- …and the source is released only for an import that was given up. -/
  unaborted : s.imp.pc.live = true ∨ s.took = true → ∀ r ∈ s.requests, r.2 ≠ .abort
  ids : s.took = false → (∀ r ∈ s.requests, r.1 < s.nextId) ∧ ∀ r ∈ s.replies, r.1 < s.nextId
  early : s.imp.pc.early = true → s.imp.frozen = false
  asked : s.took = false → ∀ id left, s.imp.pc = .freezing id left → ∀ r ∈ s.replies, r.1 = id →
    s.stream.src.phase = some .migrating
  frozen : s.took = false → s.imp.frozen = true → s.imp.pc = .pulling ∨ s.imp.pc = .flipped →
    s.stream.src.phase = some .migrating
  flipped : s.took = false → s.imp.pc = .flipped → s.imp.frozen = true ∧
    ∀ k, u.covers k → s.stream.dst.rows k = s.stream.src.rows k
  took : s.took = true → s.imp.pc.late = true ∧
    (s.stream.src.phase = some .migrating ∨ s.stream.src.phase = some .moved) ∧
    ∀ k, u.covers k → s.stream.dst.rows k = (s.purged.head?.getD s.stream.src.rows) k
  handing : ∀ id left, s.imp.pc = .handing id left → s.took = true
  jobs : s.purges ≠ [] → s.purged ≠ []
  strays : s.strays = []

open ImportPc

open Cutover

open MigFrame

namespace Cutover.Inv

variable {u : SlotUnit} {src me : String} {s s' : Cutover} {st : SlotStore}

theorem outdated_write {f : MigFrame} {op : ReplOp Bytes Bytes}
    (hf : f.outdated u st = false) (hop : u.covers op.key = false) :
    f.outdated u (st.write op) = false := by
  cases f with
  | caughtUp c h =>
    simp only [outdated, and_eq_false_iff, SlotStore.write, drop_append,
      any_append, or_eq_false_iff] at hf ⊢
    refine hf.imp_right fun hany => ⟨hany, ?_⟩
    rcases Nat.eq_zero_or_pos (c - st.history.length) with hc | hc
    · simp [hc, hop]
    · have hnil : [op].drop (c - st.history.length) = [] := drop_eq_nil_of_le hc
      simp [hnil]
  | _ => rfl

theorem rows_write_of_not_covers (op : ReplOp Bytes Bytes)
    (hop : u.covers op.key = false) {k : Bytes} (hk : u.covers k) :
    (st.write op).rows k = st.rows k := by
  rw [rows_write]
  refine op.apply_of_ne ?_ _
  rintro rfl
  simp [hop] at hk

theorem covers_migrationKey : u.covers u.migrationKey = false := by
  by_contra h
  exact SlotUnit.migrationKey_ne_of_covers (not_eq_false _ ▸ h) rfl

theorem record_ne_none {p : MigrationPhase} (h : st.phase = some p) : st.record ≠ none := by
  rintro hnone
  simp [phase, hnone] at h

section

variable (hs : s.Inv u)
include hs

theorem record_of_took (ht : s.took) : s.stream.src.record ≠ none := by
  rcases (hs.took ht).2.1 with h | h <;> exact record_ne_none h

theorem srcWrite {op : ReplOp Bytes Bytes}
    (hop : s.stream.src.record ≠ none → u.covers op.key = false) :
    Inv u (s.setSrc (s.stream.src.write op)) where
  __ := hs
  sound := hs.sound.frame [op] rfl rfl rfl fun _ _ => rfl
  fresh ht hp f hf := outdated_write (hs.fresh ht hp f hf) (hop (record_ne_none hp))
  flipped ht hpc := by
    obtain ⟨hfrozen, hrows⟩ := hs.flipped ht hpc
    refine ⟨hfrozen, fun k hk => (hrows k hk).trans ?_⟩
    exact (rows_write_of_not_covers op
        (hop (record_ne_none (hs.frozen ht hfrozen (.inr hpc)))) hk).symm
  took ht := by
    obtain ⟨hlate, hphase, hrows⟩ := hs.took ht
    refine ⟨hlate, hphase, fun k hk => (hrows k hk).trans ?_⟩
    change _ = (s.purged.head?.getD (s.stream.src.write op).rows) k
    cases s.purged.head? with
    | none => exact (rows_write_of_not_covers op (hop (hs.record_of_took ht)) hk).symm
    | some r => rfl

theorem store {i : ℕ} (h : s.store u i = some s') : s'.Inv u := by
  rw [Cutover.store] at h
  split at h
  · rename_i op ops hpend
    cases h
    have hmem : (op :: ops) ∈ s.pending := mem_of_getElem? hpend
    have hop : s.stream.src.record ≠ none → u.covers op.key = false := fun hrec =>
      hs.quiet hrec _ hmem op mem_cons_self
    have hw := hs.srcWrite hop
    refine { hw with quiet := fun hrec ops' hops' => ?_, strays := ?_ }
    · rcases mem_or_eq_of_mem_set hops' with hops' | rfl
      · exact hs.quiet hrec ops' hops'
      · exact fun o ho => hs.quiet hrec _ hmem o (mem_cons_of_mem _ ho)
    -- a purged source has a record, so what it stores is not the unit's
    cases ht : s.took with
    | true => simpa [hop (hs.record_of_took ht)] using hs.strays
    | false => simpa [(hs.unmoved ht).1] using hs.strays
  · cases h

theorem enter {ops : List (ReplOp Bytes Bytes)}
    (hgate : (∀ op ∈ ops, u.covers op.key = false) ∨ s.stream.src.record = none) :
    Inv u { s with pending := s.pending ++ [ops] } := by
  refine { hs with quiet := fun hrec ops' hops' => ?_ }
  exact of_mem_snoc hops' (fun hops' => hs.quiet hrec ops' hops') (hgate.resolve_right hrec)

/-- **The destination's control steps before the hand-over** leave its rows of the unit. -/
theorem control (ht : s.took = false) (dst : SlotStore) {imp : Import} {nextId : ℕ}
    {requests : List (ℕ × SlotVerb)} {replies : List (ℕ × SlotReply)}
    (hdst : ∀ k, u.covers k → dst.rows k = s.stream.dst.rows k) (hid : s.nextId ≤ nextId)
    (hreq : ∀ r ∈ requests, r ∈ s.requests ∨
      r.1 < nextId ∧ r.2 ≠ .moved ∧ (r.2 = .abort → imp.pc.live = false))
    (hrep : ∀ r ∈ replies, r ∈ s.replies) (hlive : imp.pc.live → s.imp.pc.live)
    (hearly : imp.pc.early → imp.frozen = false)
    (hasked : ∀ id left, imp.pc = .freezing id left → ∀ r ∈ replies, r.1 = id →
      s.stream.src.phase = some .migrating)
    (hfrozen : imp.frozen → imp.pc = .pulling ∨ imp.pc = .flipped →
      s.stream.src.phase = some .migrating) (hflipped : imp.pc = .flipped → imp.frozen ∧
      ∀ k, u.covers k → s.stream.dst.rows k = s.stream.src.rows k)
    (hhanding : ∀ id left, imp.pc ≠ .handing id left) :
    Inv u { s with stream := { s.stream with dst }, imp, nextId, requests, replies } where
  __ := hs
  sound := hs.sound.frame [] rfl rfl (by simp) hdst
  unmoved _ := by
    obtain ⟨hpurged, hpurges, hmoved⟩ := hs.unmoved ht
    exact ⟨hpurged, hpurges, fun r hr => (hreq r hr).elim (hmoved r) fun h => h.2.1⟩
  unaborted h r hr habort := by
    have hl : imp.pc.live := h.resolve_right (by simp [ht])
    rcases hreq r hr with hold | ⟨-, -, hnew⟩
    · exact hs.unaborted (.inl (hlive hl)) r hold habort
    · rw [hnew habort] at hl
      cases hl
  ids _ := by
    obtain ⟨hrq, hrp⟩ := hs.ids ht
    refine ⟨fun r hr => (hreq r hr).elim (fun h => (hrq r h).trans_le hid) And.left,
      fun r hr => (hrp r (hrep r hr)).trans_le hid⟩
  early := hearly
  asked _ := hasked
  frozen _ := hfrozen
  flipped _ hpc := by
    obtain ⟨hf, hrows⟩ := hflipped hpc
    exact ⟨hf, fun k hk => (hdst k hk).trans (hrows k hk)⟩
  took h := absurd (ht.symm.trans h) (by decide)
  handing id left h := absurd h (hhanding id left)

end

theorem rows_setSlotPhase {st st' : SlotStore} {p : MigrationPhase} {peer : String}
    (h : st.setSlotPhase u p peer = .ok st') {k : Bytes} (hk : u.covers k) :
    st'.rows k = st.rows k := by
  rw [setSlotPhase_eq] at h
  obtain rfl := Except.ok.inj h
  exact rows_write_of_not_covers (.put u.migrationKey []) covers_migrationKey hk

theorem rows_clearMigration {k : Bytes} (hk : u.covers k) :
    (st.clearMigration u).rows k = st.rows k :=
  rows_write_of_not_covers (.delete u.migrationKey) covers_migrationKey hk

section

variable (hs : s.Inv u)
include hs

theorem rollback (ht : s.took = false) (why : String) : (s.rollback u src why).Inv u := by
  rw [Cutover.rollback]
  split
  · simp only [setSlotPhase_eq]
    refine hs.control ht _ (fun k hk => rows_setSlotPhase (setSlotPhase_eq _ _) hk)
      (le_succ _) (fun r hr => ?_) (fun _ h => h) (by simp [ImportPc.live, goto])
      (by simp [ImportPc.early, goto]) (by simp [goto]) (by simp [goto]) (by simp [goto])
      (by simp [goto])
    exact of_mem_snoc hr .inl (.inr ⟨lt_succ_self _, by simp, fun _ => rfl⟩)
  · exact hs.control ht _ (fun k hk => rows_clearMigration hk) le_rfl (fun _ h => .inl h)
      (fun _ h => h) (by simp [ImportPc.live]) (by simp [ImportPc.early]) (by simp) (by simp)
      (by simp) (by simp)

theorem start (h : s.start u src = some s') : s'.Inv u := by
  rw [Cutover.start] at h
  split at h
  · rename_i hpc
    have ht : s.took = false := by
      by_contra ht
      have := (hs.took (not_eq_false _ ▸ ht)).1
      simp [hpc, late] at this
    rw [setSlotPhase_eq] at h
    cases h
    exact hs.control ht _ (fun k hk => rows_setSlotPhase (setSlotPhase_eq _ _) hk) le_rfl
      (fun _ h => .inl h) (fun _ h => h) (fun _ => by simp [hpc, ImportPc.live])
      (fun _ => hs.early (by simp [hpc, ImportPc.early])) (by simp) (by simp) (by simp) (by simp)
  · cases h

theorem took_eq_false {pc : ImportPc} (hpc : s.imp.pc = pc) (h : pc.late = false) :
    s.took = false := by
  by_contra ht
  have hlate := (hs.took (not_eq_false _ ▸ ht)).1
  rw [hpc, h] at hlate
  cases hlate

theorem unmoved_erase (ht : s.took = false) (i : ℕ) :
    s.purged = [] ∧ s.purges = [] ∧ ∀ q ∈ s.requests.eraseIdx i, q.2 ≠ .moved := by
  obtain ⟨hpurged, hpurges, hmoved⟩ := hs.unmoved ht
  exact ⟨hpurged, hpurges, fun q hq => hmoved q (mem_of_mem_eraseIdx hq)⟩

variable {i id : ℕ}

theorem ids_answer (ht : s.took = false) {verb : SlotVerb} (r : SlotReply)
    (hreq : s.requests[i]? = some (id, verb)) :
    (∀ q ∈ s.requests.eraseIdx i, q.1 < s.nextId) ∧
        ∀ q ∈ s.replies ++ [(id, r)], q.1 < s.nextId := by
  obtain ⟨hrq, hrp⟩ := hs.ids ht
  refine ⟨fun q hq => hrq q (mem_of_mem_eraseIdx hq), fun q hq => ?_⟩
  exact of_mem_snoc hq (hrp q) (hrq _ (mem_of_getElem? hreq))

theorem freeze (hreq : s.requests[i]? = some (id, .freeze))
    (hset : s.Settled u) (r : SlotReply) : Inv u { s.setSrc (s.stream.src.slotFreeze u me).1 with
      requests := s.requests.eraseIdx i, replies := s.replies ++ [(id, r)] } := by
  rw [slotFreeze_fst]
  refine ⟨hs.sound.frame [.put u.migrationKey []] rfl rfl rfl fun _ _ => rfl,
    fun _ => hset.1, fun _ _ f hf => outdated_write (hset.2 f hf) covers_migrationKey, fun ht =>
      hs.unmoved_erase ht i, fun h q hq => hs.unaborted h q (mem_of_mem_eraseIdx hq), fun ht =>
      hs.ids_answer ht r hreq, hs.early, fun _ _ _ _ _ _ _ => rfl,
    fun _ _ _ => rfl, fun ht hpc => ?_, fun ht => ?_, hs.handing, hs.jobs, hs.strays⟩
  · obtain ⟨hfrozen, hrows⟩ := hs.flipped ht hpc
    refine ⟨hfrozen, fun k hk => (hrows k hk).trans ?_⟩
    exact (rows_write_of_not_covers (.put u.migrationKey []) covers_migrationKey hk).symm
  obtain ⟨hlate, -, hrows⟩ := hs.took ht
  refine ⟨hlate, .inl rfl, fun k hk => (hrows k hk).trans ?_⟩
  change _ = (s.purged.head?.getD (s.stream.src.write (.put u.migrationKey [])).rows) k
  cases s.purged.head? with
  | none => exact (rows_write_of_not_covers (.put u.migrationKey []) covers_migrationKey hk).symm
  | some r => rfl

theorem abort (hreq : s.requests[i]? = some (id, .abort)) (r : SlotReply) :
    Inv u { s.setSrc (s.stream.src.slotAbort u).1 with
      requests := s.requests.eraseIdx i, replies := s.replies ++ [(id, r)] } := by
  have hmem : (id, SlotVerb.abort) ∈ s.requests := mem_of_getElem? hreq
  have hgiven : ¬ (s.imp.pc.live ∨ s.took) := fun h => hs.unaborted h _ hmem rfl
  have ht : s.took = false := by simpa using fun h => hgiven (.inr h)
  have hdead : s.imp.pc.live = false := by simpa using fun h => hgiven (.inl h)
  obtain ⟨more, hmore, hrec, hphase⟩ := slotAbort_spec (u := u) (s := s.stream.src)
  refine ⟨hs.sound.frame more rfl rfl hmore fun _ _ => rfl, fun h => hs.quiet (hrec h),
    fun _ hp => absurd hp hphase, fun _ => hs.unmoved_erase ht i, fun h => absurd h hgiven,
    fun _ => hs.ids_answer ht r hreq, hs.early,
    fun _ _ _ hpc => ?_, fun _ _ hpc => ?_, fun _ hpc => ?_, fun h => ?_, hs.handing, hs.jobs,
    hs.strays⟩
  · exact absurd hdead (by simp [show s.imp.pc = _ from hpc, ImportPc.live])
  · refine absurd hdead ?_
    rcases hpc with hpc | hpc <;> simp [show s.imp.pc = _ from hpc, ImportPc.live]
  · exact absurd hdead (by simp [show s.imp.pc = _ from hpc, ImportPc.live])
  · exact absurd (ht.symm.trans h) (by decide)

theorem moved (me : String) (hreq : s.requests[i]? = some (id, .moved)) (job : PurgeJob) :
    Inv u { s.setSrc (s.stream.src.slotMoved u me).1 with
      requests := s.requests.eraseIdx i
      purges := s.purges ++ [job]
      purged := s.purged ++ [s.stream.src.rows] } := by
  have ht : s.took := by
    by_contra ht
    exact (hs.unmoved (not_eq_true _ ▸ ht)).2.2 _ (mem_of_getElem? hreq) rfl
  obtain ⟨hlate, hphase, hrows⟩ := hs.took ht
  have hnot : ∀ {P : Prop}, s.took = false → P := fun h => absurd (ht.symm.trans h) (by decide)
  rw [slotMoved_eq]
  refine ⟨hs.sound.frame [.put u.migrationKey []] rfl rfl rfl fun _ _ => rfl,
    fun _ => hs.quiet (hs.record_of_took ht), hnot, hnot,
    fun h q hq => hs.unaborted h q (mem_of_mem_eraseIdx hq), hnot, hs.early, hnot, hnot, hnot,
    fun _ => ⟨hlate, .inr rfl, fun k hk => (hrows k hk).trans ?_⟩, hs.handing, by simp, hs.strays⟩
  cases hpurged : s.purged with
  | _ => rfl

theorem execute {i : ℕ} (hok : s.Exact u (.execute i))
    (h : s.execute u me i = some s') : s'.Inv u := by
  rw [Cutover.execute] at h
  split at h
  · cases h
  rename_i id verb hreq
  cases verb with
  | freeze =>
    cases h
    exact hs.freeze hreq (hok _ hreq rfl) _
  | abort =>
    cases h
    exact hs.abort hreq _
  | moved =>
    have hmoved := hs.moved me hreq ⟨id, [], Cf.all, 0⟩
    simp only [slotMoved_eq] at h hmoved
    cases h
    exact hmoved

theorem purge {i : ℕ} (h : s.purge u me i = some s') : s'.Inv u := by
  rw [Cutover.purge] at h
  cases hjob : s.purges[i]? with
  | none => simp [hjob] at h
  | some job =>
    have hne : s.purges ≠ [] := ne_nil_of_mem (mem_of_getElem? hjob)
    have ht : s.took := by
      by_contra ht
      exact hne (hs.unmoved (not_eq_true _ ▸ ht)).2.1
    have hnot : ∀ {P : Prop}, s.took = false → P := fun h => absurd (ht.symm.trans h) (by decide)
    obtain ⟨hlate, hphase, hrows⟩ := hs.took ht
    obtain ⟨r, rest, hpurged⟩ := exists_cons_of_ne_nil (hs.jobs hne)
    obtain ⟨id, keys, todo, n⟩ := job
    cases keys with
    | cons k keys =>
      simp only [hjob] at h
      cases h
      refine ⟨hs.sound.frame [.delete k] rfl rfl rfl fun _ _ => rfl, hs.quiet, hnot, hnot,
        hs.unaborted, hnot, hs.early, hnot, hnot, hnot, fun _ => ⟨hlate, hphase, fun k' hk' => ?_⟩,
        hs.handing, fun _ => hs.jobs hne, hs.strays⟩
      -- the rows the source had when it handed over are on record, whatever it deletes now
      have := hrows k' hk'
      simpa [setSrc, hpurged] using this
    | nil =>
      cases todo <;> simp only [hjob] at h <;> cases h
      all_goals
        exact ⟨hs.sound, hs.quiet, hnot, hnot, hs.unaborted, hnot, hs.early,
            hnot, hnot, hnot, hs.took,
          hs.handing, fun _ => hs.jobs hne, hs.strays⟩

theorem pull {stream : Stream} (hsound : stream.Sound u)
    (hsrc : stream.src = s.stream.src) (hpc : s.imp.pc.late = false ∧ s.imp.pc ≠ .flipped ∨
      stream.dst = s.stream.dst) (hwire : s.stream.src.phase = some .migrating →
      (∀ f ∈ s.stream.wire, f.outdated u s.stream.src = false) →
      ∀ f ∈ stream.wire, f.outdated u s.stream.src = false) : Inv u { s with stream } where
  __ := hs
  sound := hsound
  quiet := by rw [hsrc]; exact hs.quiet
  fresh ht := by
    simp only [hsrc]
    exact fun hp => hwire hp (hs.fresh ht hp)
  asked := by rw [hsrc]; exact hs.asked
  frozen := by rw [hsrc]; exact hs.frozen
  flipped ht h := by
    rcases hpc with ⟨-, hne⟩ | hdst
    · exact absurd h hne
    · simp only [hsrc, hdst]
      exact hs.flipped ht h
  took ht := by
    rcases hpc with ⟨hlate, -⟩ | hdst
    · exact absurd (hs.took ht).1 (by simp [hlate])
    · simp only [hsrc, hdst]
      exact hs.took ht

end

theorem not_outdated_head (st : SlotStore) (c : ℕ) :
    (MigFrame.caughtUp c st.history.length).outdated u st = false := by
  simp only [outdated, and_eq_false_iff]
  rcases lt_or_ge c st.history.length with h | h
  · exact .inl (by simpa using h)
  · exact .inr (by simp [drop_eq_nil_of_le h])

variable {v : ℕ → EngineView Bytes Bytes}

theorem exportStep_spec {t t' : Stream} (h : t.exportStep u v = some t') :
    t'.src = t.src ∧ t'.dst = t.dst ∧ ∀ f ∈ t'.wire, f ∈ t.wire ∨ f.outdated u t.src = false := by
  rw [Stream.exportStep] at h
  cases hpc : t.exporter with
  | idle | closed => simp [hpc] at h
  | scanning snapshot todo rows =>
    cases todo <;> simp only [hpc] at h <;> cases h
    · exact ⟨rfl, rfl, fun f hf => of_mem_snoc hf .inl (.inr rfl)⟩
    · refine ⟨rfl, rfl, fun f hf => (mem_append.mp hf).imp_right fun hf => ?_⟩
      obtain ⟨o, -, rfl⟩ := mem_map.mp hf
      rfl
  | tailing snapshot cursor =>
    simp only [hpc] at h
    split at h <;> cases h
    · exact ⟨rfl, rfl, fun f hf => .inl hf⟩
    · exact ⟨rfl, rfl, fun f hf => of_mem_snoc hf .inl (.inr rfl)⟩
    · exact ⟨rfl, rfl, fun f hf => .inl hf⟩
  | shipping snapshot cursor ops =>
    simp only [hpc] at h
    cases h
    refine ⟨rfl, rfl, fun f hf => of_mem_snoc hf (fun hf => ?_) (.inr (not_outdated_head _ _))⟩
    refine (mem_append.mp hf).imp_right fun hf => ?_
    obtain ⟨o, -, rfl⟩ := mem_map.mp hf
    rfl

theorem exportStep (hs : s.Inv u) (hok : s.Exact u (.exportStep v)) {stream : Stream}
    (h : s.stream.exportStep u v = some stream) : Inv u { s with stream } := by
  obtain ⟨hsrc, hdst, hwire⟩ := exportStep_spec h
  exact hs.pull (hs.sound.exportStep hok h) hsrc (.inr hdst) fun _ hold f hf =>
    (hwire f hf).elim (hold f) id

theorem sound_startExport (hok : s.Exact u .connect) : (s.stream.startExport u).Sound u := by
  refine Stream.Sound.startExport fun k hk hnone => ?_
  by_contra hsome
  obtain ⟨v, hv⟩ := Option.ne_none_iff_exists'.mp hsome
  -- a row that is there was written once
  have hmem : (k, v) ∈ s.stream.dst.scan u.covers := mem_scan.mpr ⟨hk, hv⟩
  obtain ⟨op, hop, rfl⟩ := exists_of_mem_scan hmem
  exact hsome (hok op hop hk hnone)

theorem startExport_spec (t : Stream) :
    (t.startExport u).src = t.src ∧ (t.startExport u).dst = t.dst ∧
      ∀ f ∈ (t.startExport u).wire, f.outdated u t.src = false := by
  rw [Stream.startExport]
  split <;> simp [outdated]

theorem connect (hs : s.Inv u) (hok : s.Exact u .connect) (hpc : s.imp.pc = .connecting) :
    Inv u ({ s with stream := s.stream.startExport u }.goto .pulling) := by
  obtain ⟨hsrc, hdst, hwire⟩ := startExport_spec (u := u) s.stream
  have ht := hs.took_eq_false hpc rfl
  have hnf : s.imp.frozen = false := hs.early (by simp [hpc, ImportPc.early])
  have hopened := hs.pull (sound_startExport hok) hsrc (.inr hdst) fun _ _ => hwire
  exact hopened.control ht _ (fun _ _ => rfl) le_rfl (fun _ h => .inl h) (fun _ h => h)
    (fun _ => by simp [hpc, ImportPc.live]) (by simp [ImportPc.early]) (by simp)
    (by simp [hnf]) (by simp) (by simp)

theorem rows_of_mark {t : Stream} (hsound : t.Sound u) {c h : ℕ} {rest : List MigFrame}
    (hwire : t.wire = .caughtUp c h :: rest) (hle : h ≤ c)
    (hf : (MigFrame.caughtUp c h).outdated u t.src = false) {k : Bytes} (hk : u.covers k) :
    t.dst.rows k = t.src.rows k := by
  obtain ⟨hc, hrows⟩ := hsound.marks [] c h rest hwire hle
  have hnone : ∀ op ∈ t.src.history.drop c, u.covers op.key = false := by
    simpa [outdated, hle] using hf
  have hun : Untouched (SeqLog.span t.src.history c t.src.history.length) k := by
    rintro op hop rfl
    rw [SeqLog.span, take_of_length_le (by simp)] at hop
    simp [hnone op hop] at hk
  have hnow : t.src.rowsAt c k = t.src.rows k := by rw [rows_eq_rowsAt, hun.rowsAt_eq hc]
  exact (hrows k hk).trans hnow

section

variable (hs : s.Inv u)
include hs

theorem callFreeze (ht : s.took = false) (hlive : s.imp.pc.live) (hnf : s.imp.frozen = false)
    (left : ℕ) : (s.call .freeze (.freezing s.nextId left)).Inv u := by
  refine hs.control ht s.stream.dst (fun _ _ => rfl) (le_succ _) (fun r hr => ?_) (fun _ h => h)
    (fun _ => hlive) (fun _ => hnf) (fun id left hid r hr hrid => ?_) (by simp [goto, hnf])
    (by simp [goto]) (by simp [goto])
  · exact of_mem_snoc hr .inl (.inr ⟨lt_succ_self _, by simp, by simp⟩)
  · -- the request is new, so nothing answers it yet
    obtain ⟨rfl, -⟩ := ImportPc.freezing.inj hid
    exact absurd ((hs.ids ht).2 r hr) (by omega)

theorem caughtUp (hpc : s.imp.pc = .pulling)
    (hrows : s.imp.frozen → ∀ k, u.covers k → s.stream.dst.rows k = s.stream.src.rows k) :
    (s.caughtUp u).Inv u := by
  have ht := hs.took_eq_false hpc rfl
  rw [Cutover.caughtUp]
  split
  · rename_i hfrozen
    exact hs.control ht _ (fun k hk => rows_clearMigration hk) le_rfl (fun _ h => .inl h)
      (fun _ h => h) (fun _ => by simp [hpc, ImportPc.live]) (by simp [ImportPc.early]) (by simp)
      (fun _ _ => hs.frozen ht hfrozen (.inl hpc)) (fun _ => ⟨hfrozen, hrows hfrozen⟩) (by simp)
  rename_i hfrozen
  exact hs.callFreeze ht (by simp [hpc, ImportPc.live]) (by simpa using hfrozen) _

theorem receive (h : s.receive u src = some s') : s'.Inv u := by
  rw [Cutover.receive] at h
  split at h
  · rename_i f stream hpc htake
    have ht := hs.took_eq_false hpc rfl
    obtain ⟨rest, hwire, hstream⟩ := Stream.take_eq_some htake
    have hpull : Inv u { s with stream } := by
      refine hs.pull (hs.sound.take htake) (by rw [hstream])
        (.inl ⟨by simp [hpc, late], by simp [hpc]⟩) fun _ hold g hg => hold g ?_
      rw [hwire]
      exact mem_cons_of_mem _ (by simpa [hstream] using hg)
    cases f with
    | migrateOutOk => exact Option.some.inj h ▸ hpull
    | error e => exact Option.some.inj h ▸ hpull.rollback ht _
    | op o =>
      cases o with
      | delete k => exact Option.some.inj h ▸ hpull
      | put k v =>
        cases h
        exact hpull.control ht stream.dst (fun _ _ => rfl) le_rfl (fun _ h => .inl h)
          (fun _ h => h) id hpull.early (hpull.asked ht) (hpull.frozen ht) (hpull.flipped ht)
          (by simp [hpc])
    | bulkEnd snapshot rows =>
      cases h
      exact hpull.control ht stream.dst (fun _ _ => rfl) le_rfl (fun _ h => .inl h)
        (fun _ h => h) id hpull.early (hpull.asked ht) (hpull.frozen ht) (hpull.flipped ht)
        (by simp [hpc])
    | caughtUp c hd =>
      simp only at h
      split at h
      · rename_i hguard
        obtain ⟨-, hle⟩ : s.imp.pastBulk ∧ hd ≤ c := by simpa using hguard
        cases h
        refine hpull.caughtUp hpc fun hfrozen k hk => ?_
        have hfresh := hs.fresh ht (hs.frozen ht hfrozen (.inl hpc)) _
          (hwire ▸ mem_cons_self)
        simp only [hstream]
        exact rows_of_mark hs.sound hwire hle hfresh hk
      · exact Option.some.inj h ▸ hpull
  · cases h

theorem afterwards (ht : s.took) (requests : List (ℕ × SlotVerb))
    {pc : ImportPc} {nextId : ℕ} {replies : List (ℕ × SlotReply)} (hpc : pc.late)
    (hreq : ∀ r ∈ requests, r ∈ s.requests ∨ r.2 = .moved) :
    Inv u { s with imp := { s.imp with pc }, nextId, requests, replies } := by
  have hnot : ∀ {P : Prop}, s.took = false → P := fun h => absurd (ht.symm.trans h) (by decide)
  refine ⟨hs.sound, hs.quiet, hnot, hnot, fun _ r hr => ?_, hnot, ?_, hnot, hnot, hnot,
    fun _ => ⟨hpc, (hs.took ht).2⟩, fun _ _ _ => ht, hs.jobs, hs.strays⟩
  · rcases hreq r hr with h | h
    · exact hs.unaborted (.inr ht) r h
    · simp [h]
  · cases pc <;> simp_all [ImportPc.late, ImportPc.early]

theorem finish (r : SlotReply) : Inv u (s.goto (.finished r)) := by
  cases ht : s.took with
  | true => exact hs.afterwards ht s.requests rfl fun _ h => .inl h
  | false =>
    exact hs.control ht s.stream.dst (fun _ _ => rfl) le_rfl (fun _ h => .inl h)
      (fun _ h => h) (by simp [ImportPc.live]) (by simp [ImportPc.early]) (by simp) (by simp)
      (by simp) (by simp)

theorem dropReply (i : ℕ) : Inv u { s with replies := s.replies.eraseIdx i } := by
  have herase : ∀ r ∈ s.replies.eraseIdx i, r ∈ s.replies := fun r hr => mem_of_mem_eraseIdx hr
  exact ⟨hs.sound, hs.quiet, hs.fresh, hs.unmoved, hs.unaborted,
    fun ht => ⟨(hs.ids ht).1, fun r hr => (hs.ids ht).2 r (herase r hr)⟩, hs.early,
    fun ht id left hpc r hr => hs.asked ht id left hpc r (herase r hr),
        hs.frozen, hs.flipped, hs.took,
    hs.handing, hs.jobs, hs.strays⟩

theorem answered {i : ℕ} (h : s.answered u src i = some s') : s'.Inv u := by
  have hdrop := hs.dropReply i
  rw [Cutover.answered] at h
  split at h
  · rename_i id r id' left hr hpc
    have ht := hs.took_eq_false hpc rfl
    split at h
    · rename_i hid
      cases r with
      | error text => exact Option.some.inj h ▸ hdrop.rollback ht _
      | simple text =>
        cases h
        have hphase := hs.asked ht id' left hpc _ (mem_of_getElem? hr) hid
        exact hdrop.control ht s.stream.dst (fun _ _ => rfl) le_rfl (fun _ h => .inl h)
          (fun _ h => h) (fun _ =>
              by simp [hpc, ImportPc.live]) (by simp [ImportPc.early]) (by simp)
          (fun _ _ => hphase) (by simp) (by simp)
    · cases h
  · split at h
    · next id r id' left hr hpc hid => cases r <;> exact Option.some.inj h ▸ hdrop.finish _
    · cases h
  · rename_i id r why id' left hr hpc
    have ht := hs.took_eq_false hpc rfl
    split at h
    · cases r with
      | error text => exact Option.some.inj h ▸ hdrop.finish _
      | simple text =>
        cases h
        exact hdrop.control ht _ (fun k hk => rows_clearMigration hk) le_rfl (fun _ h => .inl h)
          (fun _ h => h) (by simp [ImportPc.live]) (by simp [ImportPc.early]) (by simp) (by simp)
          (by simp) (by simp)
    · cases h
  · cases h

theorem timeout {why : String} (h : s.timeout u src why = some s') : s'.Inv u := by
  rw [Cutover.timeout] at h
  split at h
  · rename_i id left hpc
    have ht := hs.took_eq_false hpc rfl
    have hnf : s.imp.frozen = false := hs.early (by simp [hpc, ImportPc.early])
    cases h
    exact hs.callFreeze ht (by simp [hpc, ImportPc.live]) hnf _
  · next hpc => exact Option.some.inj h ▸ hs.rollback (hs.took_eq_false hpc rfl) _
  · rename_i id left hpc
    cases h
    refine hs.afterwards (hs.handing _ _ hpc) _ rfl fun r hr => ?_
    exact of_mem_snoc hr .inl (.inr rfl)
  · rename_i id hpc
    cases h
    exact hs.afterwards (hs.handing _ _ hpc) s.requests rfl fun _ h => .inl h
  · rename_i why' id left hpc
    have ht := hs.took_eq_false hpc rfl
    cases h
    refine hs.control ht s.stream.dst (fun _ _ => rfl) (le_succ _) (fun r hr => ?_)
      (fun _ h => h) (by simp [goto, ImportPc.live])
          (by simp [goto, ImportPc.early]) (by simp [goto])
      (by simp [goto]) (by simp [goto]) (by simp [goto])
    exact of_mem_snoc hr .inl (.inr ⟨lt_succ_self _, by simp, fun _ => rfl⟩)
  · exact Option.some.inj h ▸ hs.finish _
  · cases h

theorem flush {failure : Option String} (h : s.flush u src failure = some s') : s'.Inv u := by
  unfold Cutover.flush at h
  split at h
  · rename_i hpc
    have ht := hs.took_eq_false hpc rfl
    obtain ⟨hfrozen, hrows⟩ := hs.flipped ht hpc
    cases h
    refine ⟨hs.sound, hs.quiet, by simp, by simp, fun _ r hr => ?_, by simp,
      by simp [call, goto, ImportPc.early], by simp, by simp, by simp, fun _ => ⟨rfl, .inl ?_, ?_⟩,
      fun _ _ _ => rfl, hs.jobs, hs.strays⟩
    · rcases mem_append.mp hr with hr | hr
      · exact hs.unaborted (.inl (by simp [hpc, ImportPc.live])) r hr
      · simp [mem_singleton.mp hr]
    · exact hs.frozen ht hfrozen (.inr hpc)
    · intro k hk
      simpa [call, goto, (hs.unmoved ht).1] using hrows k hk
  · next e hpc => exact Option.some.inj h ▸ hs.rollback (hs.took_eq_false hpc rfl) _
  · cases h

theorem step {e : CutoverEvent} (hok : s.Exact u e)
    (h : s.step u src me e = some s') : s'.Inv u := by
  cases e with
  | enter ops =>
    obtain ⟨hgate, ⟨⟩⟩ := Option.ite_none_right_eq_some.mp h
    refine hs.enter ?_
    simp only [and_eq_true, or_eq_true, all_eq_true, not_eq_eq_eq_not,
      Bool.not_true] at hgate
    exact hgate.2.imp_right acceptsWrites_iff.mp
  | store i => exact hs.store h
  | ownRow op =>
    obtain ⟨hsys, ⟨⟩⟩ := Option.ite_none_left_eq_some.mp h
    refine hs.srcWrite fun _ => ?_
    by_contra hcov
    exact hsys (by simp [ReplOp.isUser, SlotUnit.not_isSystem_of_covers (not_eq_false _ ▸ hcov)])
  | start => exact hs.start h
  | connect =>
    simp only [Cutover.step] at h
    split at h
    · next hpc => exact Option.some.inj h ▸ hs.connect hok hpc
    · cases h
  | exportStep v =>
    obtain ⟨stream, hstream, rfl⟩ := Option.map_eq_some_iff.mp h
    exact hs.exportStep hok hstream
  | receive => exact hs.receive h
  | fail why =>
    simp only [Cutover.step] at h
    split at h
    · next hpc => exact Option.some.inj h ▸ hs.rollback (hs.took_eq_false hpc rfl) _
    · next hpc => exact Option.some.inj h ▸ hs.rollback (hs.took_eq_false hpc rfl) _
    · cases h
  | execute i => exact hs.execute hok h
  | purge i => exact hs.purge h
  | reply i => exact hs.answered h
  | timeout why => exact hs.timeout h
  | flush failure => exact hs.flush h
  | ask failure =>
    simp only [Cutover.step, Cutover.ask] at h
    split at h
    · exact Option.some.inj h ▸ hs.finish _
    · cases h

end

end Cutover.Inv

/-- **An exact cutover loses and revives nothing.**  In every run that meets the condition, once the
source has executed a hand-over the destination's rows of the unit are the source's at that moment,
and no client write of the unit reached the source's store after it. -/
theorem Cutover.rows_at_purge (u : SlotUnit) (src me : String) {s : Cutover}
    (h : (cutoverMachine u src me).Reach (Cutover.Exact u) s) :
    (∀ r ∈ s.purged.head?, ∀ k, u.covers k → s.stream.dst.rows k = r k) ∧ s.strays = [] := by
  have hs : s.Inv u := by
    refine Machine.Reach.invariant ?_ (fun _ _ _ _ hs hok hst => hs.step hok hst) h
    rintro t ⟨hwire, hexp, hpend, himp, hreq, hrep, hpurges, htook, hpurged, hstrays⟩
    refine ⟨.idle hwire (.inl hexp), by simp [hpend], by simp [hwire], by simp [*], by simp [hreq],
      by simp [*], by simp [himp], by simp [himp], by simp [himp], by simp [himp], by simp [htook],
      by simp [himp], by simp [hpurges], hstrays⟩
  refine ⟨fun r hr k hk => ?_, hs.strays⟩
  cases ht : s.took with
  | true =>
    have := (hs.took ht).2.2 k hk
    rwa [Option.mem_def.mp hr] at this
  | false => simp [(hs.unmoved ht).1] at hr

def slotSeven : SlotUnit := ⟨[0x30], 7⟩

def someKey : Bytes := slotSeven.slotPrefix .metadata ++ [0x6b]

def Cutover.fresh : Cutover :=
  ⟨⟨⟨[.put someKey [1]], none, ⟨0, 1⟩⟩, .idle, [], ⟨[], none, ⟨0, 1⟩⟩⟩, [],
      {}, 0, [], [], [], false,
    [], []⟩

theorem Cutover.rows_at_purge_overwritten :
    let ws : List (WalBatch Bytes Bytes) :=
      [⟨1, [.put someKey [1]]⟩, ⟨2, [.put someKey [2]]⟩, ⟨3, [.put slotSeven.migrationKey []]⟩]
    let next (n : ℕ) : CutoverEvent := .exportStep fun _ => .retaining (ws.take n) n (n - 1)
    let run : List CutoverEvent := [.start, .connect, next 1, next 1, next 1, next 1,
      .enter [.put someKey [2]], .store 0, next 2, next 2, .receive, .receive, .receive, .receive,
      .receive, .execute 0, .reply 0, next 3, next 3, .receive, .flush none, .execute 0]
    ∃ s, (cutoverMachine slotSeven "s" "d").exec fresh run = some s ∧
      ∃ r ∈ s.purged.head?, r someKey = some [2] ∧ slotSeven.covers someKey ∧
        s.stream.dst.rows someKey = r someKey := by
  intro ws next run
  have hword : ∀ n : ℕ, n = 2 ∨ n = 3 → ∀ c, Honest ((ws.take n).flatMap WalBatch.ops) c
      (.retaining (ws.take n) n c) := by
    rintro n (rfl | rfl) c
    all_goals
      exact honest_retaining ⟨by decide, by decide, by decide, by decide, by decide⟩ (by decide)
        (by decide) c
  have hrun : (cutoverMachine slotSeven "s" "d").exec fresh run = some _ := rfl
  have hguard : (cutoverMachine slotSeven "s" "d").Guarded (Cutover.Exact slotSeven)
      fresh run := by
    refine .cons trivial rfl (.cons (by decide) rfl (.cons trivial rfl (.cons trivial rfl
      (.cons trivial rfl (.cons trivial rfl (.cons trivial rfl (.cons trivial rfl
      (.cons (fun _ => hword 2 (.inl rfl) 1) rfl (.cons trivial rfl (.cons trivial rfl
      (.cons trivial rfl (.cons trivial rfl (.cons trivial rfl (.cons trivial rfl
      (.cons (by decide) rfl (.cons trivial rfl (.cons (fun _ => hword 3 (.inr rfl) 2) rfl
      (.cons trivial rfl (.cons trivial rfl (.cons trivial rfl (.cons (by decide) rfl
      trivial)))))))))))))))))))))
  refine ⟨_, rfl, _, rfl, by decide, by decide, ?_⟩
  refine (rows_at_purge slotSeven "s" "d" ?_).1 _ rfl _ (by decide)
  exact Machine.Reach.of_exec (.init ⟨rfl, rfl, rfl, rfl, rfl, rfl, rfl, rfl, rfl, rfl⟩) hguard hrun

/-- **A mark read after the freeze was made before it.**  Two polls of an idle log put two marks on
the wire.  The first has the source frozen; a client overwrites the row before the freeze is
executed; the second makes the destination take over without it. -/
theorem Cutover.loses_buffered_mark :
    let poll : CutoverEvent := .exportStep fun _ => .retaining [⟨1, [.put someKey [1]]⟩] 1 1
    let run : List CutoverEvent :=
      [.start, .connect, poll, poll, poll, poll, poll, poll, poll, poll,
      .receive, .receive, .receive, .receive, .enter [.put someKey [2]], .store 0, .execute 0,
      .reply 0, .receive, .flush none, .execute 0]
    ∃ s, (cutoverMachine slotSeven "s" "d").exec Cutover.fresh run = some s ∧
      (cutoverMachine slotSeven "s" "d").Reachable s ∧
      ∃ r ∈ s.purged.head?, slotSeven.covers someKey ∧ r someKey = some [2] ∧
        s.stream.dst.rows someKey = some [1] := by
  intro poll run
  have hrun : (cutoverMachine slotSeven "s" "d").exec fresh run = some _ := rfl
  refine ⟨_, rfl, Machine.reachable_of_exec _ ?_ hrun, _, rfl, by decide, by decide, by decide⟩
  exact ⟨rfl, rfl, rfl, rfl, rfl, rfl, rfl, rfl, rfl, rfl⟩

end Flint
