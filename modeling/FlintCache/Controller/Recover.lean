import FlintCache.Lib.Text

/-!
# Controller/Recover — reconciling interrupted migrations, and whose records a tenant depends on

After a restart the controller reads the migration records of every node and decides, record by
record, whether to resume, roll back, complete or clear.  Three of the decisions search all tenants'
records, by node and slot number without the namespace.
-/

namespace Flint

open List

/-! ## The records a node reports -/

/-- A move that a node has a record of. -/
structure InFlight where
  node : String
  slot : ℕ
  /-- The other end: the source of an import, the destination of a migration. -/
  peer : String
  ns : String
  deriving DecidableEq, Repr

/-- A line `slot phase peer ns` of `FLINTMIGRATIONS`: the phase's text and the record. -/
def parseRow (node line : String) : Option (String × InFlight) :=
  match (line.toList.splitOn ' ').map String.ofList with
  | [slot, phase, peer, ns] => (parseU16 slot).map fun slot => (phase, ⟨node, slot, peer, ns⟩)
  | _ => none

abbrev Report := String × Option (List String)

def Report.rows (r : Report) : List (String × InFlight) := (r.2.getD []).filterMap (parseRow r.1)

/-- The records of all nodes, by phase, in the order they were read. -/
structure Records where
  importing : List InFlight
  migrating : List InFlight
  aborted : List InFlight
  deriving DecidableEq, Repr

def rowsIn (phase : String) (rows : List (String × InFlight)) : List InFlight :=
  (rows.filter fun row => row.1 = phase).map Prod.snd

def collect (reports : List Report) : Records :=
  let rows := reports.flatMap Report.rows
  ⟨rowsIn "importing" rows, rowsIn "migrating" rows, rowsIn "aborted" rows⟩

/-! ## What recovery does with them -/

/-- What a recovery pass asks a node to do. -/
inductive RecoverCall
  /-- `FLINTMIGRATEIN src slot dest ns`, sent to the destination. -/
  | migrateIn (dest src : String) (slot : ℕ) (ns : String)
  | slotAbort (node : String) (slot : ℕ) (ns : String)
  | slotMoved (src : String) (slot : ℕ) (dest ns : String)
  deriving DecidableEq, Repr

/-- The search all three decisions make: a record of that slot number on that node. -/
def anyAt (node : String) (slot : ℕ) (records : List InFlight) : Bool :=
  records.any fun r => r.node = node && r.slot = slot

/-- The calls for a record, `reach` answering the ping sent while it is handled. -/
def importingCalls (reach : InFlight → Bool) (rec : InFlight) : List RecoverCall :=
  if reach rec then [.migrateIn rec.node rec.peer rec.slot rec.ns]
  else [.slotAbort rec.node rec.slot rec.ns]

/-- A frozen source: left to the resume while the destination imports, unfrozen when that gave up or
is gone, completed otherwise. -/
def migratingCalls (reach : InFlight → Bool) (r : Records) (rec : InFlight) : List RecoverCall :=
  if anyAt rec.peer rec.slot r.importing then []
  else if anyAt rec.peer rec.slot r.aborted then
    [.slotAbort rec.node rec.slot rec.ns, .slotAbort rec.peer rec.slot rec.ns]
  else if reach rec then [.slotMoved rec.node rec.slot rec.peer rec.ns]
  else [.slotAbort rec.node rec.slot rec.ns]

/-- An abort marker: kept while its source is frozen, cleared otherwise. -/
def abortedCalls (r : Records) (rec : InFlight) : List RecoverCall :=
  if anyAt rec.peer rec.slot r.migrating then [] else [.slotAbort rec.node rec.slot rec.ns]

/-- **One recovery pass over the collected records**: the calls made for each of them, in order. -/
def Records.recover (reach : InFlight → Bool) (r : Records) : List (InFlight × List RecoverCall) :=
  r.importing.map (fun rec => (rec, importingCalls reach rec)) ++
    r.migrating.map (fun rec => (rec, migratingCalls reach r rec)) ++
    r.aborted.map (fun rec => (rec, abortedCalls r rec))

def recoverMigrations (reach : InFlight → Bool) (reports : List Report) :
    List (InFlight × List RecoverCall) :=
  (collect reports).recover reach

/-- The part of a pass made for the records of one tenant and slot. -/
def callsFor (ns : String) (slot : ℕ) (calls : List (InFlight × List RecoverCall)) :
    List (InFlight × List RecoverCall) :=
  calls.filter fun c => c.1.ns = ns && c.1.slot = slot

/-! ## Restricting the answers to one tenant and slot -/

def InFlight.isOf (ns : String) (slot : ℕ) (rec : InFlight) : Bool := rec.ns = ns && rec.slot = slot

def Report.only (ns : String) (slot : ℕ) (r : Report) : Report :=
  (r.1, r.2.map fun lines => lines.filter fun line =>
    ((parseRow r.1 line).any fun row => row.2.isOf ns slot))

def Records.only (ns : String) (slot : ℕ) (r : Records) : Records :=
  ⟨r.importing.filter (·.isOf ns slot), r.migrating.filter (·.isOf ns slot),
    r.aborted.filter (·.isOf ns slot)⟩

variable {ns : String} {slot : ℕ} {reach : InFlight → Bool}

theorem InFlight.isOf_iff {rec : InFlight} : rec.isOf ns slot ↔ rec.ns = ns ∧ rec.slot = slot := by
  simp [isOf]

theorem Report.rows_only (r : Report) :
    (r.only ns slot).rows = r.rows.filter fun row => row.2.isOf ns slot := by
  obtain ⟨node, lines⟩ := r
  cases lines with
  | none => rfl
  | some lines =>
    simp only [only, rows, Option.map_some, Option.getD_some]
    induction lines with
    | nil => rfl
    | cons line lines ih =>
      cases hrow : parseRow node line with
      | none => simpa [hrow] using ih
      | some row =>
        by_cases hof : row.2.isOf ns slot
        · simpa [hrow, hof] using ih
        · simpa [hrow, hof] using ih

theorem rowsIn_filter (phase : String) (rows : List (String × InFlight)) :
    rowsIn phase (rows.filter fun row => row.2.isOf ns slot)
      = (rowsIn phase rows).filter (·.isOf ns slot) := by
  rw [rowsIn, rowsIn, filter_map, filter_filter, filter_filter]
  congr 1
  refine filter_congr fun row _ => ?_
  exact Bool.and_comm _ _

theorem collect_only (reports : List Report) :
    collect (reports.map (Report.only ns slot)) = (collect reports).only ns slot := by
  have hrows : (reports.map (Report.only ns slot)).flatMap Report.rows
      = (reports.flatMap Report.rows).filter fun row => row.2.isOf ns slot := by
    rw [flatMap_map, filter_flatMap]
    exact congrArg (fun f => reports.flatMap f) (funext fun r => r.rows_only)
  simp only [collect, Records.only, hrows, rowsIn_filter]

/-! ## Whose records answer -/

/-- **The tenant's own records answer its searches**: a search for one of its records that finds one
finds its own.  The abort markers are searched where no import is found. -/
structure Records.OwnAnswers (ns : String) (slot : ℕ) (r : Records) : Prop where
  importing : ∀ m ∈ r.migrating, m.isOf ns slot → anyAt m.peer slot r.importing →
    anyAt m.peer slot (r.only ns slot).importing
  aborted : ∀ m ∈ r.migrating, m.isOf ns slot → ¬ anyAt m.peer slot r.importing →
    anyAt m.peer slot r.aborted → anyAt m.peer slot (r.only ns slot).aborted
  migrating : ∀ a ∈ r.aborted, a.isOf ns slot → anyAt a.peer slot r.migrating →
    anyAt a.peer slot (r.only ns slot).migrating

theorem anyAt_of_anyAt_filter {node : String} {records : List InFlight} {p : InFlight → Bool}
    (h : anyAt node slot (records.filter p)) : anyAt node slot records := by
  obtain ⟨r, hr, hat⟩ := any_eq_true.mp h
  exact any_eq_true.mpr ⟨r, mem_of_mem_filter hr, hat⟩

variable {r : Records}

theorem migratingCalls_only_iff {m : InFlight} (hm : m.isOf ns slot) :
    migratingCalls reach r m = migratingCalls reach (r.only ns slot) m ↔
      (anyAt m.peer slot r.importing → anyAt m.peer slot (r.only ns slot).importing) ∧
      (¬ anyAt m.peer slot r.importing → anyAt m.peer slot r.aborted →
        anyAt m.peer slot (r.only ns slot).aborted) := by
  obtain ⟨-, hslot⟩ := InFlight.isOf_iff.mp hm
  have hi : anyAt m.peer slot (r.only ns slot).importing → anyAt m.peer slot r.importing :=
    anyAt_of_anyAt_filter
  have ha : anyAt m.peer slot (r.only ns slot).aborted → anyAt m.peer slot r.aborted :=
    anyAt_of_anyAt_filter
  rw [migratingCalls, migratingCalls, hslot]
  by_cases hI : anyAt m.peer slot r.importing
  · by_cases hI' : anyAt m.peer slot (r.only ns slot).importing
    · simp [hI, hI']
    · -- held back by a foreign import alone: no call at all, where its own records make one
      by_cases hA' : anyAt m.peer slot (r.only ns slot).aborted <;> by_cases hr : reach m <;>
        simp [hI, hI', hA', hr]
  have hI' : ¬ anyAt m.peer slot (r.only ns slot).importing := fun h => hI (hi h)
  by_cases hA : anyAt m.peer slot r.aborted
  · by_cases hA' : anyAt m.peer slot (r.only ns slot).aborted
    · simp [hI, hI', hA, hA']
    · -- unfrozen by a foreign marker alone: two calls, where its own records make one
      by_cases hr : reach m <;> simp [hI, hI', hA, hA', hr]
  · have hA' : ¬ anyAt m.peer slot (r.only ns slot).aborted := fun h => hA (ha h)
    simp [hI, hI', hA, hA']

theorem abortedCalls_only_iff {a : InFlight} (ha : a.isOf ns slot) :
    abortedCalls r a = abortedCalls (r.only ns slot) a ↔
      (anyAt a.peer slot r.migrating → anyAt a.peer slot (r.only ns slot).migrating) := by
  obtain ⟨-, hslot⟩ := InFlight.isOf_iff.mp ha
  have hm : anyAt a.peer slot (r.only ns slot).migrating → anyAt a.peer slot r.migrating :=
    anyAt_of_anyAt_filter
  rw [abortedCalls, abortedCalls, hslot]
  by_cases hM : anyAt a.peer slot r.migrating
  · by_cases hM' : anyAt a.peer slot (r.only ns slot).migrating <;> simp [hM, hM']
  · have hM' : ¬ anyAt a.peer slot (r.only ns slot).migrating := fun h => hM (hm h)
    simp [hM, hM']

theorem callsFor_recover (r : Records) : callsFor ns slot (r.recover reach) =
      (r.only ns slot).importing.map (fun rec => (rec, importingCalls reach rec)) ++
      (r.only ns slot).migrating.map (fun rec => (rec, migratingCalls reach r rec)) ++
      (r.only ns slot).aborted.map (fun rec => (rec, abortedCalls r rec)) := by
  simp only [callsFor, Records.recover, Records.only, filter_append, filter_map]
  rfl

theorem Records.only_only (r : Records) : (r.only ns slot).only ns slot = r.only ns slot := by
  simp [only]

theorem callsFor_recover_only_iff (r : Records) :
    callsFor ns slot (r.recover reach) = callsFor ns slot ((r.only ns slot).recover reach) ↔
      r.OwnAnswers ns slot := by
  have hmem : ∀ {l : List InFlight} {rec : InFlight}, rec ∈ l.filter (·.isOf ns slot) ↔
      rec ∈ l ∧ rec.isOf ns slot := mem_filter
  rw [callsFor_recover, callsFor_recover, Records.only_only, append_assoc, append_assoc,
    append_cancel_left_eq]
  constructor
  · intro h
    obtain ⟨hm, ha⟩ := append_inj h (by simp)
    rw [map_inj_left] at hm ha
    refine ⟨fun m hmr hof => ?_, fun m hmr hof => ?_, fun a har hof => ?_⟩
    · exact ((migratingCalls_only_iff hof).mp (Prod.ext_iff.mp (hm m (hmem.mpr ⟨hmr, hof⟩))).2).1
    · exact ((migratingCalls_only_iff hof).mp (Prod.ext_iff.mp (hm m (hmem.mpr ⟨hmr, hof⟩))).2).2
    · exact (abortedCalls_only_iff hof).mp (Prod.ext_iff.mp (ha a (hmem.mpr ⟨har, hof⟩))).2
  intro h
  refine congrArg₂ (· ++ ·) (map_congr_left fun m hm => ?_)
    (map_congr_left fun a ha => ?_)
  · obtain ⟨hmr, hof⟩ := hmem.mp hm
    exact Prod.ext rfl ((migratingCalls_only_iff hof).mpr
      ⟨h.importing m hmr hof, h.aborted m hmr hof⟩)
  · obtain ⟨har, hof⟩ := hmem.mp ha
    exact Prod.ext rfl ((abortedCalls_only_iff hof).mpr (h.migrating a har hof))

/-- **When recovery treats tenants independently**: the calls made for a tenant and slot are those
made when nothing else is reported, exactly when the tenant's own records answer their searches. -/
theorem recoverMigrations_only_iff (reach : InFlight → Bool) (reports : List Report) (ns : String)
    (slot : ℕ) :
    callsFor ns slot (recoverMigrations reach reports)
        = callsFor ns slot (recoverMigrations reach (reports.map (Report.only ns slot))) ↔
      (collect reports).OwnAnswers ns slot := by
  rw [recoverMigrations, recoverMigrations, collect_only]
  exact callsFor_recover_only_iff (collect reports)

/-- Tenant `b` is still importing slot `7` into `d:1` when tenant `a`'s is frozen towards it: the
flip `a` is owed is not made. -/
theorem recoverMigrations_masked_by_other_tenant :
    let own : Report := ("s:1", some ["7 migrating d:1 a"])
    let foreign : Report := ("d:1", some ["7 importing s:2 b"])
    foreign.rows.all (fun row => row.2.ns ≠ "a") = true ∧
    callsFor "a" 7 (recoverMigrations (fun _ => true) [own, ("d:1", some [])])
      = [(⟨"s:1", 7, "d:1", "a"⟩, [.slotMoved "s:1" 7 "d:1" "a"])] ∧
    callsFor "a" 7 (recoverMigrations (fun _ => true) [own, foreign])
      = [(⟨"s:1", 7, "d:1", "a"⟩, [])] := by
  decide

end Flint
