import FlintCache.Repl.Apply
import FlintCache.Storage.Role

/-!
# Migrate/Slot — a slot's rows, its migration record and the slot verbs of a node

Rows are migrated by **unit**: one slot of one namespace.  A node's migration record of a unit
overrides its base claim, decides what the gate answers to clients, and is what recovery reads.  The
verbs a peer or the controller sends change it; `FLINTSLOTMOVED` also deletes every row of the unit.
-/

namespace Flint

open List

/-! ## Migration records -/

/-- What a record says of a slot that moves. -/
inductive MigrationPhase
  | importing
  | migrating
  | moved
  | aborted
  deriving DecidableEq, Repr

/-- The durable record of a move, at either end. -/
structure MigrationRecord where
  phase : MigrationPhase
  peer : String
  epoch : Epoch
  deriving DecidableEq, Repr

def setMigration (current : Option MigrationRecord) (new : MigrationRecord) :
    Except ManifestError MigrationRecord :=
  let stored := (current.map MigrationRecord.epoch).getD .zero
  if new.epoch ≤ stored then .error (.fenced stored) else .ok new

/-! ## One node's store -/

structure SlotStore where
  history : List (ReplOp Bytes Bytes)
  record : Option MigrationRecord
  claim : Epoch

inductive SlotReply
  | simple (text : String)
  | error (text : String)
  deriving DecidableEq, Repr

namespace SlotStore

variable (u : SlotUnit) (s : SlotStore)

def rowsAt (n : ℕ) : Rows Bytes Bytes := replay (s.history.take n) fun _ => none

def rows : Rows Bytes Bytes := replay s.history fun _ => none

def scan (p : Bytes → Bool) : List (Bytes × Bytes) :=
  ((s.history.map ReplOp.key).dedup.filter p).filterMap fun k => (s.rows k).map (k, ·)

def write (op : ReplOp Bytes Bytes) : SlotStore := { s with history := s.history ++ [op] }

def nextMigrationEpoch : Epoch :=
  let high := max s.claim ((s.record.map MigrationRecord.epoch).getD .zero)
  ⟨high.generation, high.counter + 1⟩

/-- Record a phase at the next epoch.  The row's bytes are the `record` field. -/
def setSlotPhase (phase : MigrationPhase) (peer : String) : Except ManifestError SlotStore :=
  match setMigration s.record ⟨phase, peer, s.nextMigrationEpoch⟩ with
  | .error e => .error e
  | .ok rec => .ok { s.write (.put u.migrationKey []) with record := some rec }

def clearMigration : SlotStore := { s.write (.delete u.migrationKey) with record := none }

def slotFreeze (dest : String) : SlotStore × SlotReply :=
  match s.setSlotPhase u .migrating dest with
  | .ok s' => (s', .simple s!"OK slot {u.slot} frozen")
  | .error (.fenced current) =>
    (s, .error s!"ERR slot freeze fenced: Fenced \x7b current: {current.display} \x7d")

/-- `FLINTSLOTMOVED` up to the purge: disown the unit, whatever the record says. -/
def slotMoved (dest : String) : SlotStore × Option SlotReply :=
  match s.setSlotPhase u .moved dest with
  | .ok s' => (s', none)
  | .error (.fenced current) =>
    (s, some (.error s!"ERR slot move fenced: Fenced \x7b current: {current.display} \x7d"))

/-- `FLINTSLOTABORT`: release a frozen source, clear an abort marker, or turn an import into one. -/
def slotAbort : SlotStore × SlotReply :=
  match s.record with
  | none => (s, .simple s!"OK slot {u.slot} had no in-flight migration")
  | some ⟨.moved, _, _⟩ => (s, .error "ERR slot is Moved (settled ownership), not in-flight")
  | some ⟨.importing, peer, _⟩ =>
    match s.setSlotPhase u .aborted peer with
    | .ok s' => (s', .simple s!"OK slot {u.slot} import aborted (recorded)")
    | .error (.fenced current) =>
      (s, .error s!"ERR slot abort fenced: Fenced \x7b current: {current.display} \x7d")
  | some ⟨.migrating, _, _⟩ | some ⟨.aborted, _, _⟩ =>
    (s.clearMigration u, .simple s!"OK slot {u.slot} migration aborted")

/-- **The gate** for a command on a key of the unit, `none` where it is served. -/
def checkSlotGate (isWrite : Bool) : Option SlotReply :=
  match s.record with
  | none => none
  | some ⟨.moved, peer, _⟩ | some ⟨.importing, peer, _⟩ | some ⟨.aborted, peer, _⟩ =>
    some (.error s!"MOVED {u.slot} {peer}")
  | some ⟨.migrating, _, _⟩ => if isWrite
      then some (.error "TRYAGAIN slot migrating, retry") else none

def acceptsWrites : Bool := (s.checkSlotGate u true).isNone

def phase : Option MigrationPhase := s.record.map MigrationRecord.phase

/-! ## What the verbs do -/

variable {u s}

theorem setSlotPhase_eq (phase : MigrationPhase) (peer : String) : s.setSlotPhase u phase peer
      = .ok { s.write (.put u.migrationKey []) with
          record := some ⟨phase, peer, s.nextMigrationEpoch⟩ } := by
  have hlt : (s.record.map MigrationRecord.epoch).getD .zero < s.nextMigrationEpoch := by
    refine (le_max_right s.claim _).trans_lt ?_
    exact Prod.Lex.toLex_lt_toLex.mpr (.inr ⟨rfl, Nat.lt_succ_self _⟩)
  simp [setSlotPhase, setMigration, not_le.mpr hlt]

theorem slotFreeze_fst (dest : String) : (s.slotFreeze u dest).1
      = { s.write (.put u.migrationKey []) with
          record := some ⟨.migrating, dest, s.nextMigrationEpoch⟩ } := by
  rw [slotFreeze, setSlotPhase_eq]

theorem slotMoved_eq (dest : String) : s.slotMoved u dest = ({ s.write (.put u.migrationKey []) with
          record := some ⟨.moved, dest, s.nextMigrationEpoch⟩ }, none) := by
  rw [slotMoved, setSlotPhase_eq]

theorem slotAbort_cases : (s.slotAbort u).1 = s ∧ (s.record = none ∨ s.phase = some .moved) ∨
      (s.phase = some .importing ∧ ∃ rec, rec.phase = .aborted ∧
        (s.slotAbort u).1 = { s.write (.put u.migrationKey []) with record := some rec }) ∨
      (s.phase = some .migrating ∨ s.phase = some .aborted) ∧
        (s.slotAbort u).1 = s.clearMigration u := by
  obtain ⟨history, record, claim⟩ := s
  cases record with
  | none => exact .inl ⟨rfl, .inl rfl⟩
  | some rec =>
    obtain ⟨p, peer, epoch⟩ := rec
    cases p with
    | moved => exact .inl ⟨rfl, .inr rfl⟩
    | importing =>
      simp only [slotAbort, setSlotPhase_eq]
      exact .inr (.inl ⟨rfl, _, rfl, rfl⟩)
    | migrating => exact .inr (.inr ⟨.inl rfl, rfl⟩)
    | aborted => exact .inr (.inr ⟨.inr rfl, rfl⟩)

theorem slotAbort_spec : ∃ more, (s.slotAbort u).1.history = s.history ++ more ∧
      ((s.slotAbort u).1.record ≠ none → s.record ≠ none) ∧
      (s.slotAbort u).1.phase ≠ some .migrating := by
  rcases slotAbort_cases (u := u) (s := s) with ⟨h, hrec⟩ | ⟨hp, rec, hrec, h⟩ | ⟨hp, h⟩ <;> rw [h]
  · refine ⟨[], by simp, id, ?_⟩
    rcases hrec with hrec | hrec
    · simp [phase, hrec]
    · simp [hrec]
  · refine ⟨[.put u.migrationKey []], rfl, fun _ hnone => ?_, by simp [phase, hrec]⟩
    simp [phase, hnone] at hp
  · exact ⟨[.delete u.migrationKey], rfl, by simp [clearMigration], by simp [clearMigration, phase]⟩

theorem acceptsWrites_iff : s.acceptsWrites u ↔ s.record = none := by
  obtain ⟨history, record, claim⟩ := s
  cases record with
  | none => simp [acceptsWrites, checkSlotGate]
  | some rec =>
    obtain ⟨phase, peer, epoch⟩ := rec
    cases phase <;> simp [acceptsWrites, checkSlotGate]

theorem rows_eq_rowsAt : s.rows = s.rowsAt s.history.length := by
  rw [rows, rowsAt, take_length]

theorem rows_write (op : ReplOp Bytes Bytes) : (s.write op).rows = op.apply s.rows := by
  rw [rows, write, replay_append]
  rfl

theorem rowsAt_span {a b : ℕ} (hab : a ≤ b) :
    s.rowsAt b = replay (SeqLog.span s.history a b) (s.rowsAt a) := by
  rw [rowsAt, rowsAt, ← replay_append, SeqLog.take_append_span _ hab]

variable {p : Bytes → Bool} {k v : Bytes}

theorem exists_of_mem_scan (h : (k, v) ∈ s.scan p) : ∃ op ∈ s.history, op.key = k := by
  obtain ⟨k', hk', hkv⟩ := mem_filterMap.mp h
  obtain ⟨v', -, heq⟩ := Option.map_eq_some_iff.mp hkv
  obtain ⟨rfl, -⟩ := Prod.mk.inj heq
  exact mem_map.mp (mem_dedup.mp (mem_filter.mp hk').1)

theorem mem_scan : (k, v) ∈ s.scan p ↔ p k ∧ s.rows k = some v := by
  constructor
  · intro h
    obtain ⟨k', hk', hkv⟩ := mem_filterMap.mp h
    obtain ⟨v', hv', heq⟩ := Option.map_eq_some_iff.mp hkv
    obtain ⟨rfl, rfl⟩ := Prod.mk.inj heq
    exact ⟨(mem_filter.mp hk').2, hv'⟩
  rintro ⟨hp, hv⟩
  refine mem_filterMap.mpr ⟨k, mem_filter.mpr ⟨mem_dedup.mpr ?_, hp⟩, by simp [hv]⟩
  by_contra hk
  have hnone : s.rows k = none := by
    refine replay_of_untouched (fun op hop hkey => hk ?_) _
    exact mem_map.mpr ⟨op, hop, hkey⟩
  rw [hv] at hnone
  cases hnone

theorem replay_scan (p : Bytes → Bool) (r : Rows Bytes Bytes) (k : Bytes) :
    replay ((s.scan p).map fun kv => .put kv.1 kv.2) r k
      = if p k ∧ (s.rows k).isSome then s.rows k else r k := by
  have hmem : k ∈ (s.scan p).map Prod.fst ↔ p k ∧ (s.rows k).isSome := by
    constructor
    · intro h
      obtain ⟨⟨k', v⟩, hkv, rfl⟩ := mem_map.mp h
      obtain ⟨hp, hv⟩ := mem_scan.mp hkv
      exact ⟨hp, by simp [hv]⟩
    · rintro ⟨hp, hsome⟩
      obtain ⟨v, hv⟩ := Option.isSome_iff_exists.mp hsome
      exact mem_map.mpr ⟨(k, v), mem_scan.mpr ⟨hp, hv⟩, rfl⟩
  rw [replay_puts (f := s.rows) (fun kv hkv => (mem_scan.mp hkv).2)]
  simp only [hmem]

end SlotStore

end Flint
