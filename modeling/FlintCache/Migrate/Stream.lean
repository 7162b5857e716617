import FlintCache.Migrate.Slot

/-!
# Migrate/Stream — the export stream of a unit, and what its caught-up marks are worth

The exporting thread ships every row of the unit, then tails the log from the number it noted
before, with a mark `(cursor, head)` after every poll.  A mark with `head ≤ cursor` says the
destination is caught up **as of the cursor**, if it started without a row of the unit that the
source lacks.
-/

namespace Flint

open List
open SeqLog

/-! ## Frames, and the two ends -/

/-- A frame of the export stream. -/
inductive MigFrame
  | migrateOutOk
  | op (o : ReplOp Bytes Bytes)
  | bulkEnd (snapshot rows : ℕ)
  | caughtUp (cursor head : ℕ)
  | error (why : String)
  deriving DecidableEq, Repr

def MigFrame.op? : MigFrame → Option (ReplOp Bytes Bytes)
  | op o => some o
  | _ => none

def wireOps (w : List MigFrame) : List (ReplOp Bytes Bytes) := w.filterMap MigFrame.op?

@[simp] theorem wireOps_append (w w' : List MigFrame) :
    wireOps (w ++ w') = wireOps w ++ wireOps w' := filterMap_append

@[simp] theorem wireOps_map_op (ops : List (ReplOp Bytes Bytes)) : wireOps (ops.map .op) = ops := by
  rw [wireOps, filterMap_map]
  exact filterMap_some

/-- Where the exporter is. -/
inductive ExportPc
  | idle
  | scanning (snapshot : ℕ) (todo : List Cf) (rows : ℕ)
  | tailing (snapshot cursor : ℕ)
  | shipping (snapshot cursor : ℕ) (ops : List (ReplOp Bytes Bytes))
  | closed
  deriving DecidableEq, Repr

/-- The exporter, the frames under way and the importer. -/
structure Stream where
  src : SlotStore
  exporter : ExportPc
  wire : List MigFrame
  dst : SlotStore

def replTailBudgetBytes : ℕ := 4 * 1024 * 1024

variable (u : SlotUnit) (s : Stream)

namespace Stream

/-- `FLINTMIGRATEOUT` on a new connection.  A unit this node does not own is refused. -/
def startExport : Stream :=
  match s.src.phase with
  | some .moved =>
    { s with wire := [.error s!"ERR slot {u.slot} not owned (phase Moved)"], exporter := .closed }
  | some .importing =>
    { s with
      wire := [.error s!"ERR slot {u.slot} not owned (phase Importing)"]
      exporter := .closed }
  | _ => { s with wire := [.migrateOutOk], exporter := .scanning s.src.history.length Cf.all 0 }

/-- The exporting thread's next step; `v` is what a poll of the log reads of the engine. -/
def exportStep (v : ℕ → EngineView Bytes Bytes) : Option Stream :=
  match s.exporter with
  | .idle | .closed => none
  | .scanning snapshot (cf :: todo) rows =>
    let found := s.src.scan (u.inCf cf)
    some { s with
      wire := s.wire ++ (found.map fun kv => ReplOp.put kv.1 kv.2).map .op
      exporter := .scanning snapshot todo (rows + found.length) }
  | .scanning snapshot [] rows =>
    some { s with
      wire := s.wire ++ [.bulkEnd snapshot rows]
      exporter := .tailing snapshot snapshot }
  | .tailing snapshot cursor =>
    match updatesSinceBudgeted v cursor replTailBudgetBytes with
    | .ok batches =>
      let ops := (batches.flatMap ReplBatch.ops).filter fun op => u.covers op.key
      some { s with exporter := .shipping snapshot (reach cursor batches) ops }
    | .error (.walGap _) =>
      some { s with
        wire := s.wire ++ [.error "WALGAP migration restart required"]
        exporter := .closed }
    | .error _ => some { s with exporter := .closed }
  | .shipping snapshot cursor ops =>
    some { s with
      wire := s.wire ++ ops.map .op ++ [.caughtUp cursor s.src.history.length]
      exporter := .tailing snapshot cursor }

def EngineKeepsWord (v : ℕ → EngineView Bytes Bytes) : Prop :=
  match s.exporter with
  | .tailing _ cursor => ∀ n, Honest s.src.history cursor (v n)
  | _ => True

def take : Option (MigFrame × Stream) :=
  match s.wire with
  | [] => none
  | f :: wire => some (f, { s with wire, dst := f.op?.elim s.dst s.dst.write })

variable {s} {f : MigFrame}

theorem take_eq_some {t : Stream} (h : s.take = some (f, t)) :
    ∃ wire, s.wire = f :: wire ∧ t = { s with wire, dst := f.op?.elim s.dst s.dst.write } := by
  rw [take] at h
  split at h
  · cases h
  · rename_i g wire hwire
    obtain ⟨rfl, rfl⟩ := Prod.mk.inj (Option.some.inj h)
    exact ⟨wire, hwire, rfl⟩

end Stream

/-! ## What the stream is worth -/

def Untouched (ops : List (ReplOp Bytes Bytes)) (k : Bytes) : Prop := ∀ op ∈ ops, op.key ≠ k

/-- **The rows `r` are the unit's as far as rows were shipped**, the families `todo` to go, but for
rows touched since the snapshot. -/
structure ScannedTo (u : SlotUnit) (src : SlotStore) (snapshot : ℕ) (todo : List Cf)
    (r : Rows Bytes Bytes) : Prop where
  snapshot_le : snapshot ≤ src.history.length
  absent : ∀ k, u.covers k → Untouched (span src.history snapshot src.history.length) k →
    src.rowsAt snapshot k = none → r k = none
  rows : ∀ k, u.covers k → Untouched (span src.history snapshot src.history.length) k →
    (∀ cf ∈ todo, u.inCf cf k = false) → r k = src.rowsAt snapshot k

/-- **The rows `r` are the unit's as far as the tail has come.**  A row touched since the snapshot
and up to the cursor is the source's at the cursor; one touched neither by then nor while rows were
shipped is the source's at the snapshot; others may be ahead. -/
structure CaughtTo (u : SlotUnit) (src : SlotStore) (snapshot cursor : ℕ) (r : Rows Bytes Bytes) :
    Prop where
  le_cursor : snapshot ≤ cursor
  cursor_le : cursor ≤ src.history.length
  /-- The rows, where `scanned` is when the last row was shipped. -/
  rows : ∃ scanned ≤ src.history.length, ∀ k, u.covers k →
    (¬ Untouched (span src.history snapshot cursor) k → r k = src.rowsAt cursor k) ∧
    (Untouched (span src.history snapshot (max cursor scanned)) k → r k = src.rowsAt snapshot k)

/-- What holds of every caught-up mark on a wire: the frames before it, its cursor and its head. -/
def Marks (P : List MigFrame → ℕ → ℕ → Prop) (wire : List MigFrame) : Prop :=
  ∀ w c h rest, wire = w ++ .caughtUp c h :: rest → P w c h

def SlotStore.after (dst : SlotStore) (w : List MigFrame) : Rows Bytes Bytes :=
  replay (wireOps w) dst.rows

namespace Stream

def ExportSound : Prop :=
  match s.exporter with
  | .idle | .closed => True
  | .scanning snapshot todo _ => ScannedTo u s.src snapshot todo (s.dst.after s.wire)
  | .tailing snapshot cursor => CaughtTo u s.src snapshot cursor (s.dst.after s.wire)
  | .shipping snapshot cursor ops =>
    CaughtTo u s.src snapshot cursor (replay ops (s.dst.after s.wire))

structure Sound : Prop where
  marks : Marks (fun w c h => h ≤ c →
    c ≤ s.src.history.length ∧ ∀ k, u.covers k → s.dst.after w k = s.src.rowsAt c k) s.wire
  onCourse : s.ExportSound u

end Stream

/-! ## Marks -/

section Marks

variable {P : List MigFrame → ℕ → ℕ → Prop} {wire : List MigFrame}

theorem marks_nil : Marks P [] := by
  intro w c h rest hw
  simp at hw

variable {Q : List MigFrame → ℕ → ℕ → Prop}

theorem Marks.tail (hP : Marks P (f :: wire))
    (h : ∀ w c h, P (f :: w) c h → Q w c h) : Marks Q wire := fun w c hd rest hw =>
  h w c hd (hP (f :: w) c hd rest (by rw [hw, cons_append]))

namespace Marks

variable (hP : Marks P wire)
include hP

theorem snoc (hf : ∀ c h, f = .caughtUp c h → P wire c h) : Marks P (wire ++ [f]) := by
  intro w c h rest hw
  rcases eq_nil_or_concat rest with rfl | ⟨rest', x, rfl⟩
  · obtain ⟨rfl, hf'⟩ := append_inj' hw rfl
    exact hf c h (singleton_inj.mp hf')
  · rw [concat_eq_append, ← cons_append, ← append_assoc] at hw
    exact hP w c h rest' (append_inj' hw rfl).1

theorem append {l : List MigFrame}
    (hl : ∀ f ∈ l, ∀ c h, f ≠ .caughtUp c h) : Marks P (wire ++ l) := by
  induction l using List.reverseRecOn with
  | nil => simpa using hP
  | append_singleton l f ih =>
    rw [← append_assoc]
    refine (ih fun g hg => hl g (mem_append_left _ hg)).snoc fun c h hf => ?_
    exact absurd hf (hl f (mem_append_right _ mem_cons_self) c h)

theorem append_ops (ops : List (ReplOp Bytes Bytes)) : Marks P (wire ++ ops.map .op) := by
  refine hP.append fun f hf c h => ?_
  obtain ⟨o, -, rfl⟩ := mem_map.mp hf
  simp

theorem imp (h : ∀ w c h, P w c h → Q w c h) : Marks Q wire := fun w c hd rest hw =>
  h w c hd (hP w c hd rest hw)

end Marks

end Marks

theorem SlotStore.after_append (dst : SlotStore) (w w' : List MigFrame) :
    dst.after (w ++ w') = replay (wireOps w') (dst.after w) := by
  rw [after, wireOps_append, replay_append, after]

/-! ## Touched and untouched rows -/

open SlotStore

variable {u : SlotUnit}

section Untouched

variable {src : SlotStore} {k : Bytes} {a b c : ℕ}

theorem Untouched.span_mono {H : List (ReplOp Bytes Bytes)} (h : Untouched (span H a c) k)
    (hab : a ≤ b) (hbc : b ≤ c) : Untouched (span H a b) k := by
  rw [← span_append_span H hab hbc] at h
  exact fun op hop => h op (mem_append_left _ hop)

theorem Untouched.rowsAt_eq (h : Untouched (span src.history a b) k) (hab : a ≤ b) :
    src.rowsAt b k = src.rowsAt a k := by
  rw [src.rowsAt_span hab, replay_of_untouched h]

theorem replay_span_of_touched (h : ¬ Untouched (span src.history a b) k) (hab : a ≤ b)
    (r : Rows Bytes Bytes) : replay (span src.history a b) r k = src.rowsAt b k := by
  rw [src.rowsAt_span hab]
  refine replay_of_touched ?_ _ _
  simpa [Untouched] using h

variable {r r' : Rows Bytes Bytes} {snapshot cursor : ℕ} {more : List (ReplOp Bytes Bytes)}
  {src' : SlotStore} {todo : List Cf}

theorem CaughtTo.extend {snapshot cursor cursor' : ℕ}
    (h : CaughtTo u src snapshot cursor r) (hle : cursor ≤ cursor')
    (hlen : cursor' ≤ src.history.length) : CaughtTo u src snapshot cursor'
      (replay ((userOps src.history cursor cursor').filter fun op => u.covers op.key) r) := by
  obtain ⟨scanned, hscanned, hrows⟩ := h.rows
  refine ⟨h.le_cursor.trans hle, hlen, scanned, hscanned, fun k hk => ?_⟩
  have hreplay : replay ((userOps src.history cursor cursor').filter fun op => u.covers op.key) r k
      = replay (span src.history cursor cursor') r k := by
    rw [replay_filter (fun op _ hop => hop ▸ hk), userOps]
    refine replay_filter (fun op _ hop => ?_) r
    rw [ReplOp.isUser, hop, SlotUnit.not_isSystem_of_covers hk]
    rfl
  rw [hreplay]
  constructor
  · intro htouched
    by_cases hun : Untouched (span src.history cursor cursor') k
    · have hbefore : ¬ Untouched (span src.history snapshot cursor) k := by
        intro hun'
        refine htouched ?_
        rw [← span_append_span _ h.le_cursor hle]
        exact fun op hop => (mem_append.mp hop).elim (hun' op) (hun op)
      rw [replay_of_untouched hun, (hrows k hk).1 hbefore, hun.rowsAt_eq hle]
    · exact replay_span_of_touched hun hle r
  intro hun
  have hmid : Untouched (span src.history cursor cursor') k := by
    have := hun.span_mono (h.le_cursor.trans hle) (le_max_left _ _)
    rw [← span_append_span _ h.le_cursor hle] at this
    exact fun op hop => this op (mem_append_right _ hop)
  rw [replay_of_untouched hmid]
  refine (hrows k hk).2 (hun.span_mono ?_ ?_)
  · exact h.le_cursor.trans (le_max_left _ _)
  · omega

theorem SlotStore.rowsAt_of_append
    (hsrc : src'.history = src.history ++ more) {n : ℕ} (hn : n ≤ src.history.length) :
    src'.rowsAt n = src.rowsAt n := by
  rw [rowsAt, hsrc, take_append_of_le_length hn, rowsAt]

variable {snapshot : ℕ}

theorem ScannedTo.grow (h : ScannedTo u src snapshot todo r)
    (hsrc : src'.history = src.history ++ more) : ScannedTo u src' snapshot todo r := by
  have hlen : src.history.length ≤ src'.history.length := by simp [hsrc]
  have hat := rowsAt_of_append hsrc h.snapshot_le
  have hun : ∀ k, Untouched (span src'.history snapshot src'.history.length) k →
      Untouched (span src.history snapshot src.history.length) k := by
    intro k hk
    have := hk.span_mono h.snapshot_le hlen
    rwa [hsrc, span_append_of_le _ _ le_rfl] at this
  refine ⟨h.snapshot_le.trans hlen, fun k hk hk' => ?_, fun k hk hk' => ?_⟩
  · rw [hat]
    exact h.absent k hk (hun k hk')
  · rw [hat]
    exact h.rows k hk (hun k hk')

theorem ScannedTo.congr (h : ScannedTo u src snapshot todo r) (hr : ∀ k, u.covers k → r' k = r k) :
    ScannedTo u src snapshot todo r' where
  snapshot_le := h.snapshot_le
  absent k hk := by
    rw [hr k hk]
    exact h.absent k hk
  rows k hk := by
    rw [hr k hk]
    exact h.rows k hk

namespace CaughtTo

variable (h : CaughtTo u src snapshot cursor r)
include h

theorem rows_eq (hhead : src.history.length ≤ cursor)
    (hk : u.covers k) : r k = src.rowsAt cursor k := by
  obtain ⟨scanned, hscanned, hrows⟩ := h.rows
  by_cases hun : Untouched (span src.history snapshot cursor) k
  · rw [hun.rowsAt_eq h.le_cursor]
    refine (hrows k hk).2 ?_
    rwa [max_eq_left (hscanned.trans hhead)]
  · exact (hrows k hk).1 hun

theorem grow (hsrc : src'.history = src.history ++ more) : CaughtTo u src' snapshot cursor r := by
  obtain ⟨scanned, hscanned, hrows⟩ := h.rows
  have hlen : src.history.length ≤ src'.history.length := by simp [hsrc]
  refine ⟨h.le_cursor, h.cursor_le.trans hlen, scanned, hscanned.trans hlen, fun k hk => ?_⟩
  rw [rowsAt_of_append hsrc h.cursor_le,
    rowsAt_of_append hsrc (h.le_cursor.trans h.cursor_le), hsrc,
    span_append_of_le _ _ h.cursor_le, span_append_of_le _ _ (max_le h.cursor_le hscanned)]
  exact hrows k hk

theorem congr (hr : ∀ k, u.covers k → r' k = r k) : CaughtTo u src snapshot cursor r' := by
  obtain ⟨scanned, hscanned, hrows⟩ := h.rows
  refine ⟨h.le_cursor, h.cursor_le, scanned, hscanned, fun k hk => ?_⟩
  rw [hr k hk]
  exact hrows k hk

end CaughtTo

end Untouched

/-! ## Every step keeps the stream sound -/

namespace Stream

variable {s s' : Stream}

namespace Sound

theorem idle (hwire : s.wire = []) (hexp : s.exporter = .idle ∨ s.exporter = .closed) :
    s.Sound u where
  marks := hwire ▸ marks_nil
  onCourse := by rcases hexp with h | h <;> rw [ExportSound, h] <;> trivial

variable {snapshot rows cursor : ℕ} {v : ℕ → EngineView Bytes Bytes}

theorem startExport (hleft : ∀ k, u.covers k → s.src.rows k = none → s.dst.rows k = none) :
    (s.startExport u).Sound u := by
  have hmark : ∀ (P : List MigFrame → ℕ → ℕ → Prop) (f : MigFrame), (∀ c h, f ≠ .caughtUp c h) →
      Marks P [f] := fun P f hf => marks_nil.append (l := [f]) (by simpa using hf)
  rw [Stream.startExport]
  split
  · exact ⟨hmark _ _ (by simp), trivial⟩
  · exact ⟨hmark _ _ (by simp), trivial⟩
  refine ⟨hmark _ _ (by simp), le_rfl, fun k hk _ hnone => ?_, fun k hk _ hcf => ?_⟩
  · refine hleft k hk ?_
    rwa [rows_eq_rowsAt]
  · obtain ⟨cf, hmem, hin⟩ := any_eq_true.mp hk
    exact absurd hin (by simp [hcf cf hmem])

section

variable (hs : s.Sound u)
include hs

theorem frame (more : List (ReplOp Bytes Bytes)) (hwire : s'.wire = s.wire)
    (hexp : s'.exporter = s.exporter) (hsrc : s'.src.history = s.src.history ++ more)
    (hdst : ∀ k, u.covers k → s'.dst.rows k = s.dst.rows k) : s'.Sound u := by
  have hafter : ∀ w k, u.covers k → s'.dst.after w k = s.dst.after w k := fun w k hk =>
    replay_congr _ (hdst k hk)
  refine ⟨?_, ?_⟩
  · rw [hwire]
    refine hs.marks.imp fun w c h hmark hhc => ?_
    obtain ⟨hc, hrows⟩ := hmark hhc
    refine ⟨hc.trans (by simp [hsrc]), fun k hk => ?_⟩
    rw [hafter w k hk, rowsAt_of_append hsrc hc]
    exact hrows k hk
  have hold := hs.onCourse
  rw [ExportSound] at hold ⊢
  rw [hexp, hwire]
  cases hpc : s.exporter with
  | idle | closed => trivial
  | shipping snapshot cursor ops =>
    rw [hpc] at hold
    exact (hold.grow hsrc).congr fun k hk => replay_congr ops (hafter s.wire k hk)
  | _ =>
    rw [hpc] at hold
    exact (hold.grow hsrc).congr (hafter s.wire)

theorem take (h : s.take = some (f, s')) : s'.Sound u := by
  obtain ⟨wire, hwire, rfl⟩ := take_eq_some h
  have hafter : ∀ w, (f.op?.elim s.dst s.dst.write).after w = s.dst.after (f :: w) := by
    intro w
    cases f with
    | op o => simp [SlotStore.after, wireOps, MigFrame.op?, SlotStore.rows_write]
    | _ => rfl
  refine ⟨?_, ?_⟩
  · have hmarks := hs.marks
    rw [hwire] at hmarks
    refine hmarks.tail fun w c h hmark => ?_
    rw [hafter]
    exact hmark
  have hold := hs.onCourse
  rw [ExportSound] at hold ⊢
  cases hpc : s.exporter with
  | idle | closed => trivial
  | _ =>
    rw [hpc, hwire] at hold
    simp only [hafter]
    exact hold

theorem scanned {cf : Cf}
    (hold : ScannedTo u s.src snapshot (cf :: todo) (s.dst.after s.wire)) : Sound u { s with
      wire := s.wire ++ ((s.src.scan (u.inCf cf)).map fun kv => ReplOp.put kv.1 kv.2).map .op
      exporter := .scanning snapshot todo rows } := by
  have hsame : ∀ k, Untouched (span s.src.history snapshot s.src.history.length) k →
      s.src.rows k = s.src.rowsAt snapshot k := fun k hun => by
    rw [rows_eq_rowsAt, hun.rowsAt_eq hold.snapshot_le]
  refine ⟨hs.marks.append_ops _, hold.snapshot_le, fun k hk hun hnone => ?_,
    fun k hk hun hcf => ?_⟩
  · rw [after_append, wireOps_map_op, replay_scan, hsame k hun, hnone]
    simpa using hold.absent k hk hun hnone
  rw [after_append, wireOps_map_op, replay_scan, hsame k hun]
  cases hrow : s.src.rowsAt snapshot k with
  | none => simpa using hold.absent k hk hun hrow
  | some v =>
    by_cases hin : u.inCf cf k
    · simp [hin]
    · have hnot : ∀ cf' ∈ cf :: todo, u.inCf cf' k = false := by simpa [hin] using hcf
      simpa [hin, hrow] using hold.rows k hk hun hnot

theorem bulkEnded (hold : ScannedTo u s.src snapshot [] (s.dst.after s.wire)) : Sound u { s with
      wire := s.wire ++ [.bulkEnd snapshot rows], exporter := .tailing snapshot snapshot } := by
  refine ⟨hs.marks.append (by simp), le_rfl, hold.snapshot_le, s.src.history.length, le_rfl,
    fun k hk => ⟨fun h => absurd (by simp [Untouched]) h, fun hun => ?_⟩⟩
  rw [max_eq_right hold.snapshot_le] at hun
  rw [after_append]
  exact hold.rows k hk hun (by simp)

theorem polled (hold : CaughtTo u s.src snapshot cursor (s.dst.after s.wire))
    (hv : ∀ n, Honest s.src.history cursor (v n)) {batches : List (ReplBatch Bytes Bytes)}
    (hbatches : updatesSinceBudgeted v cursor replTailBudgetBytes = .ok batches) : Sound u { s with
      exporter := .shipping snapshot (reach cursor batches)
        ((batches.flatMap ReplBatch.ops).filter fun op => u.covers op.key) } := by
  rcases updatesSinceBudgeted_tail s.src.history v cursor replTailBudgetBytes hv with
    ⟨out, n, hout, htail⟩ | ⟨why, hgap⟩
  · obtain rfl : out = batches := Except.ok.inj (hout.symm.trans hbatches)
    obtain ⟨hle, hops⟩ := htail.chain.flatMap_ops htail.frames
    refine ⟨hs.marks, ?_⟩
    rw [ExportSound, hops]
    exact hold.extend hle (htail.reach_le hold.cursor_le)
  · cases hgap.symm.trans hbatches

theorem heartbeat {ops : List (ReplOp Bytes Bytes)}
    (hold : CaughtTo u s.src snapshot cursor (replay ops (s.dst.after s.wire))) : Sound u { s with
      wire := s.wire ++ ops.map .op ++ [.caughtUp cursor s.src.history.length]
      exporter := .tailing snapshot cursor } := by
  have hafter : s.dst.after (s.wire ++ ops.map .op) = replay ops (s.dst.after s.wire) := by
    rw [after_append, wireOps_map_op]
  refine ⟨(hs.marks.append_ops ops).snoc fun c h hf hle => ?_, ?_⟩
  · obtain ⟨rfl, rfl⟩ := MigFrame.caughtUp.inj hf
    refine ⟨hold.cursor_le, fun k hk => ?_⟩
    rw [hafter]
    exact hold.rows_eq hle hk
  · change CaughtTo u s.src snapshot cursor _
    rw [after_append, hafter]
    exact hold

theorem exportStep (hv : s.EngineKeepsWord v) (h : s.exportStep u v = some s') : s'.Sound u := by
  have hold := hs.onCourse
  rw [ExportSound] at hold
  rw [Stream.exportStep] at h
  cases hpc : s.exporter with
  | idle | closed => simp [hpc] at h
  | scanning snapshot todo rows =>
    rw [hpc] at hold
    cases todo <;> simp only [hpc] at h <;> cases h
    · exact hs.bulkEnded hold
    · exact hs.scanned hold
  | tailing snapshot cursor =>
    rw [hpc] at hold
    rw [EngineKeepsWord, hpc] at hv
    simp only [hpc] at h
    split at h <;> cases h
    · next batches hbatches => exact hs.polled hold hv hbatches
    · exact ⟨hs.marks.append (by simp), trivial⟩
    · exact ⟨hs.marks, trivial⟩
  | shipping snapshot cursor ops =>
    rw [hpc] at hold
    simp only [hpc] at h
    cases h
    exact hs.heartbeat hold

end

end Sound

end Stream

end Flint
