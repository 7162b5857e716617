import FlintCache.Lib.Machine
import FlintCache.Repl.Wal

/-!
# Repl/Apply — a replica applying frames, and its convergence on one master timeline

A replica applies a frame together with its cursor in one atomic store write; a hint into its own
numbering follows in a second one.  Frames may be lost, repeated, reordered and cut anywhere, the
link may reconnect, and the process may die between the two writes.
-/

namespace Flint

open List Option SeqLog

variable {κ ν : Type} [DecidableEq κ]

/-! ## Rows -/

abbrev Rows (κ ν : Type) := κ → Option ν

def ReplOp.apply (op : ReplOp κ ν) (rows : Rows κ ν) : Rows κ ν :=
  match op with
  | put k v => Function.update rows k (some v)
  | delete k => Function.update rows k none

def replay (ops : List (ReplOp κ ν)) (rows : Rows κ ν) : Rows κ ν :=
  ops.foldl (fun rows op => op.apply rows) rows

@[simp] theorem replay_nil (rows : Rows κ ν) : replay [] rows = rows := rfl

@[simp] theorem replay_cons (op : ReplOp κ ν) (ops : List (ReplOp κ ν)) (rows : Rows κ ν) :
    replay (op :: ops) rows = replay ops (op.apply rows) := rfl

theorem replay_append (ops ops' : List (ReplOp κ ν)) (rows : Rows κ ν) :
    replay (ops ++ ops') rows = replay ops' (replay ops rows) := foldl_append

variable {k : κ}

theorem ReplOp.apply_of_ne {op : ReplOp κ ν} (h : op.key ≠ k) (rows : Rows κ ν) :
    op.apply rows k = rows k := by
  cases op <;> exact Function.update_of_ne (Ne.symm h) _ _

open ReplOp

variable {r r' : Rows κ ν}

theorem ReplOp.apply_congr (op : ReplOp κ ν) (h : r k = r' k) : op.apply r k = op.apply r' k := by
  cases op <;> simp [apply, Function.update_apply, h]

theorem replay_congr (ops : List (ReplOp κ ν)) (h : r k = r' k) :
    replay ops r k = replay ops r' k := by
  induction ops generalizing r r' with
  | nil => exact h
  | cons op ops ih => exact ih (op.apply_congr h)

variable {ops : List (ReplOp κ ν)}

theorem replay_of_untouched (h : ∀ op ∈ ops, op.key ≠ k) (r : Rows κ ν) : replay ops r k = r k := by
  induction ops generalizing r with
  | nil => rfl
  | cons op ops ih =>
    rw [replay_cons, ih (fun op' hop' => h op' (mem_cons_of_mem _ hop')),
      op.apply_of_ne (h op mem_cons_self)]

theorem replay_of_touched (h : ∃ op ∈ ops, op.key = k)
    (r r' : Rows κ ν) : replay ops r k = replay ops r' k := by
  induction ops generalizing r r' with
  | nil => simp at h
  | cons op ops ih =>
    by_cases hlater : ∃ op' ∈ ops, op'.key = k
    · exact ih hlater _ _
    have hkey : op.key = k := by
      obtain ⟨op', hop', hk⟩ := h
      rcases mem_cons.mp hop' with rfl | hop'
      · exact hk
      · exact absurd ⟨op', hop', hk⟩ hlater
    refine replay_congr ops ?_
    subst hkey
    cases op <;> simp [apply, key]

theorem replay_filter {p : ReplOp κ ν → Bool} (h : ∀ op ∈ ops, op.key = k → p op) (r : Rows κ ν) :
    replay (ops.filter p) r k = replay ops r k := by
  induction ops generalizing r with
  | nil => rfl
  | cons op ops ih =>
    have ih' := ih (fun op' hop' => h op' (mem_cons_of_mem _ hop'))
    by_cases hp : p op
    · rw [filter_cons_of_pos hp, replay_cons, replay_cons, ih']
    · have hkey : op.key ≠ k := fun hk => hp (h op mem_cons_self hk)
      rw [filter_cons_of_neg hp, replay_cons, ih']
      exact replay_congr ops (op.apply_of_ne hkey r).symm

theorem replay_puts {l : List (κ × ν)} {f : Rows κ ν} (h : ∀ kv ∈ l, f kv.1 = some kv.2)
    (r : Rows κ ν) (k : κ) :
    replay (l.map fun kv => .put kv.1 kv.2) r k = if k ∈ l.map Prod.fst then f k else r k := by
  induction l generalizing r with
  | nil => rfl
  | cons kv l ih =>
    rw [map_cons, replay_cons, ih (fun kv' hkv' => h kv' (mem_cons_of_mem _ hkv'))]
    by_cases hl : k ∈ l.map Prod.fst
    · simp [hl]
    by_cases hk : k = kv.1
    · subst hk
      simp [hl, apply, h kv mem_cons_self]
    · simp [hl, hk, apply]

/-! ## The replica's store -/

def replUpidxStride : ℕ := 10000

/-- A replica: rows, cursor row, index rows, latest number, and the index entry to write. -/
structure Replica (κ ν : Type) where
  rows : Rows κ ν
  lastApplied : ℕ
  upidx : Rows ℕ ℕ
  latestSeq : ℕ
  /-- The upstream number whose index entry is due; lost in a crash. -/
  indexDue : Option ℕ

/-- **Apply one frame atomically together with the cursor.**  A stale frame is a no-op; one that
does not start right after the cursor is refused. -/
def Replica.applyBatch (r : Replica κ ν) (b : ReplBatch κ ν) : Except ReplError (Replica κ ν) :=
  if b.lastSeq ≤ r.lastApplied then .ok r
  else if b.firstSeq ≠ r.lastApplied + 1 then .error (.sequenceGap (r.lastApplied + 1) b.firstSeq)
  else
    .ok { r with
      rows := replay b.ops r.rows
      lastApplied := b.lastSeq
      latestSeq := r.latestSeq + b.ops.length + 1
      -- the index entry is a write of its own, after this one
      indexDue := if b.lastSeq / replUpidxStride ≠ r.lastApplied / replUpidxStride then
        some b.lastSeq else none }

/-- The second write of an apply: the own number the batch landed at, under its upstream number. -/
def Replica.putIndex (r : Replica κ ν) : Replica κ ν :=
  match r.indexDue with
  | none => r
  | some up =>
    { r with
      upidx := Function.update r.upidx up (some r.latestSeq)
      latestSeq := r.latestSeq + 1
      indexDue := none }

inductive TailError
  | transient (why : String)
  | walPurged (why : String)
  deriving DecidableEq, Repr

def ReplError.debug : ReplError → String
  | walGap why => s!"WalGap({why.quote})"
  | sequenceGap expected got => s!"SequenceGap \x7b expected: {expected}, got: {got} \x7d"
  | storage why => s!"Storage({why.quote})"

def Replica.tailFrame (r : Replica κ ν) (b : ReplBatch κ ν) : Except TailError (Replica κ ν) :=
  if b.lastSeq ≤ r.lastApplied then
    .error (.transient (s!"the master sent a batch ending at {b.lastSeq} (from {b.firstSeq}), " ++
      s!"at or below this copy's cursor {r.lastApplied}: the two disagree " ++
      "about where the stream is"))
  else
    match r.applyBatch b with
    | .ok r' => .ok r'
    | .error (.sequenceGap expected got) =>
      if expected < got then
        .error (.walPurged
          s!"master's oldest batch starts at {got}, past the {expected} we still need")
      else .error (.transient s!"apply: {(ReplError.sequenceGap expected got).debug}")
    | .error e => .error (.transient s!"apply: {e.debug}")

variable {b : ReplBatch κ ν}

theorem Replica.tailFrame_eq_ok {r r' : Replica κ ν} (h : r.tailFrame b = .ok r') :
    b.firstSeq = r.lastApplied + 1 ∧ r.lastApplied < b.lastSeq ∧
      r'.rows = replay b.ops r.rows ∧ r'.lastApplied = b.lastSeq := by
  by_cases hstale : b.lastSeq ≤ r.lastApplied
  · simp [tailFrame, hstale] at h
  by_cases hfirst : b.firstSeq = r.lastApplied + 1
  · simp only [tailFrame, applyBatch, hstale, hfirst, if_false, ne_eq, not_true_eq_false,
      Except.ok.injEq] at h
    subst h
    exact ⟨hfirst, Nat.not_le.mp hstale, rfl, rfl⟩
  · simp only [tailFrame, applyBatch, hstale, hfirst, if_false, ne_eq, not_false_eq_true,
      if_true] at h
    split at h <;> cases h

/-! ## A master, its frames, and a replica

The master writes batches of any operations; `history` is everything it numbered.  `serve` is the
tail call at any cursor and budget, and everything it ever handed out stays in `sent`: delivering
any element of it at any time covers loss, repetition, reordering and reconnects alike. -/

/-- A copy and the master it follows. -/
structure Timeline (κ ν : Type) where
  history : List (ReplOp κ ν)
  sent : List (ReplBatch κ ν)
  replica : Replica κ ν

inductive TimelineEvent (κ ν : Type)
  | write (ops : List (ReplOp κ ν))
  /-- The master tails its log from a cursor, reading the engine through the given views. -/
  | serve (cursor maxBytes : ℕ) (v : ℕ → EngineView κ ν)
  | deliver (i : ℕ)
  /-- The replica's apply thread writes the index entry that is due. -/
  | index
  | ownRow (op : ReplOp κ ν)
  | crash

variable [RowSpace κ ν]

def Timeline.step (s : Timeline κ ν) : TimelineEvent κ ν → Option (Timeline κ ν)
  | .write ops => some { s with history := s.history ++ ops }
  | .serve cursor maxBytes v =>
    match updatesSinceBudgeted v cursor maxBytes with
    | .ok out => some { s with sent := s.sent ++ out }
    | .error _ => some s
  | .deliver i =>
    -- one thread applies and indexes, so the next frame waits for the index entry
    if s.replica.indexDue.isSome then none
    else
      match s.sent[i]? with
      | none => none
      | some b =>
        match s.replica.tailFrame b with
        | .ok r => some { s with replica := r }
        | .error _ => some s
  | .index => some { s with replica := s.replica.putIndex }
  | .ownRow op =>
    if op.isUser then none
    else some { s with replica := { s.replica with
      rows := op.apply s.replica.rows
      latestSeq := s.replica.latestSeq + 1 } }
  | .crash => some { s with replica := { s.replica with indexDue := none } }

/-- The link, its replica started on a snapshot of the master at number `base`. -/
def timelineMachine (snapshot : Rows κ ν) (base : ℕ) :
    Machine (Timeline κ ν) (TimelineEvent κ ν) where
  init s := s.sent = [] ∧ base ≤ s.history.length ∧ s.replica.rows = snapshot ∧
    s.replica.lastApplied = base
  step := Timeline.step

def EngineKeepsWord (s : Timeline κ ν) : TimelineEvent κ ν → Prop
  | .serve cursor _ v => ∀ n, Honest s.history cursor (v n)
  | _ => True

/-! ## Convergence -/

/-- **The replica is the snapshot plus a prefix of the master's history.** -/
structure Timeline.Converges (snapshot : Rows κ ν) (base : ℕ) (s : Timeline κ ν) : Prop where
  frames : ∀ b ∈ s.sent, Frame s.history b
  base_le : base ≤ s.replica.lastApplied
  le_length : s.replica.lastApplied ≤ s.history.length
  /-- The data rows are the snapshot with the operations up to the cursor replayed. -/
  rows : ∀ k, RowSpace.isSystem ν k = false →
    s.replica.rows k = replay (userOps s.history base s.replica.lastApplied) snapshot k

omit [DecidableEq κ] in
theorem Frame.append {H : List (ReplOp κ ν)} (h : Frame H b)
    (more : List (ReplOp κ ν)) : Frame (H ++ more) b where
  __ := h
  le := by
    rw [length_append]
    exact h.le.trans (Nat.le_add_right _ _)
  ops_eq := by rw [userOps, span_append_of_le _ _ h.le, h.ops_eq, userOps]

omit [DecidableEq κ] [RowSpace κ ν] in
theorem Replica.putIndex_spec (r : Replica κ ν) :
    r.putIndex.rows = r.rows ∧ r.putIndex.lastApplied = r.lastApplied := by
  rw [putIndex]
  split <;> exact ⟨rfl, rfl⟩

variable {s s' : Timeline κ ν} {e : TimelineEvent κ ν}

open Timeline

/-- **What a step can do**: the history grows, frames are handed out, one is applied, or the replica
changes nothing but node-local rows. -/
theorem Timeline.step_cases (h : s.step e = some s') :
    (∃ ops, s' = { s with history := s.history ++ ops }) ∨
    (∃ cursor maxBytes v out, e = .serve cursor maxBytes v ∧
      updatesSinceBudgeted v cursor maxBytes = .ok out ∧ s' = { s with sent := s.sent ++ out }) ∨
    (∃ b ∈ s.sent, ∃ r, s.replica.tailFrame b = .ok r ∧ s' = { s with replica := r }) ∨
    (∃ r, s' = { s with replica := r } ∧ r.lastApplied = s.replica.lastApplied ∧
      ∀ k, RowSpace.isSystem ν k = false → r.rows k = s.replica.rows k) := by
  cases e with
  | write ops => exact .inl ⟨ops, (some.inj h).symm⟩
  | serve cursor maxBytes v =>
    rw [step] at h
    split at h
    · next out hout => exact .inr (.inl ⟨cursor, maxBytes, v, out, rfl, hout, (some.inj h).symm⟩)
    · exact .inr (.inr (.inr ⟨s.replica, (some.inj h).symm, rfl, fun _ _ => rfl⟩))
  | deliver i =>
    rw [step] at h
    split at h
    · cases h
    split at h
    · cases h
    rename_i b hb
    split at h
    · rename_i r hr
      exact .inr (.inr (.inl
        ⟨b, mem_of_getElem? hb, r, hr, (some.inj h).symm⟩))
    · exact .inr (.inr (.inr ⟨s.replica, (some.inj h).symm, rfl, fun _ _ => rfl⟩))
  | index =>
    obtain ⟨hrows, hcursor⟩ := s.replica.putIndex_spec
    exact .inr (.inr (.inr ⟨_, (some.inj h).symm, hcursor, fun k _ => by rw [hrows]⟩))
  | ownRow op =>
    rw [step] at h
    split at h
    · cases h
    rename_i hsys
    refine .inr (.inr (.inr ⟨_, (some.inj h).symm, rfl, fun k hk => ?_⟩))
    refine apply_of_ne ?_ _
    rintro rfl
    simp [isUser, hk] at hsys
  | crash => exact .inr (.inr (.inr ⟨_, (some.inj h).symm, rfl, fun _ _ => rfl⟩))

theorem Timeline.lastApplied_le_step
    (h : s.step e = some s') : s.replica.lastApplied ≤ s'.replica.lastApplied := by
  obtain ⟨ops, rfl⟩ | ⟨_, _, _, out, -, -, rfl⟩ | ⟨b, -, r, hr, rfl⟩ | ⟨r, rfl, hr, -⟩ :=
    step_cases h
  · exact le_rfl
  · exact le_rfl
  · obtain ⟨-, hlt, -, hcursor⟩ := Replica.tailFrame_eq_ok hr
    exact hcursor ▸ hlt.le
  · exact hr.ge

theorem Timeline.lastApplied_le_exec (snapshot : Rows κ ν) (base : ℕ)
    {es : List (TimelineEvent κ ν)} (h : (timelineMachine snapshot base).exec s es = some s') :
    s.replica.lastApplied ≤ s'.replica.lastApplied := by
  induction es generalizing s with
  | nil => exact (some.inj h) ▸ le_rfl
  | cons e es ih =>
    obtain ⟨t, ht, hrest⟩ := bind_eq_some_iff.mp h
    exact (lastApplied_le_step ht).trans (ih hrest)

variable {snapshot : Rows κ ν} {base : ℕ}

/-- **Applying a frame extends the prefix**: the next frame gives the operations up to its end. -/
theorem Timeline.Converges.applied {s : Timeline κ ν}
    (hs : s.Converges snapshot base) (hb : b ∈ s.sent) {r : Replica κ ν}
    (hr : s.replica.tailFrame b = .ok r) :
    Timeline.Converges snapshot base { s with replica := r } := by
  obtain ⟨hfirst, hlt, hrows, hcursor⟩ := Replica.tailFrame_eq_ok hr
  have hframe := hs.frames b hb
  have hops : b.ops = userOps s.history s.replica.lastApplied b.lastSeq := by
    rw [hframe.ops_eq, hfirst, Nat.add_sub_cancel]
  refine ⟨hs.frames, ?_, ?_, fun k hk => ?_⟩
  · exact hcursor ▸ hs.base_le.trans hlt.le
  · exact hcursor ▸ hframe.le
  · change r.rows k = replay (userOps s.history base r.lastApplied) snapshot k
    rw [hrows, hcursor, ← userOps_append s.history hs.base_le hlt.le, replay_append, ← hops]
    exact replay_congr b.ops (hs.rows k hk)

theorem Timeline.Converges.step (hs : s.Converges snapshot base) (hok : EngineKeepsWord s e)
    (h : s.step e = some s') : s'.Converges snapshot base := by
  obtain ⟨ops, rfl⟩ | ⟨cursor, maxBytes, v, out, rfl, hout, rfl⟩ | ⟨b, hb, r, hr, rfl⟩ |
      ⟨r, rfl, hcursor, hrows⟩ := step_cases h
  · refine ⟨fun b hb => (hs.frames b hb).append ops, hs.base_le, ?_, fun k hk => ?_⟩
    · exact hs.le_length.trans (by simp)
    · change s.replica.rows k = _
      rw [userOps, span_append_of_le _ _ hs.le_length]
      exact hs.rows k hk
  · refine { hs with frames := fun b hb => ?_ }
    rcases mem_append.mp hb with hb | hb
    · exact hs.frames b hb
    rcases updatesSinceBudgeted_tail s.history v cursor maxBytes hok with ⟨out',
        n, hok', ht⟩ | ⟨_, hgap⟩
    · obtain rfl : out' = out := Except.ok.inj (hok'.symm.trans hout)
      exact ht.frames b hb
    · cases hout.symm.trans hgap
  · exact hs.applied hb hr
  refine ⟨hs.frames, hcursor ▸ hs.base_le, hcursor ▸ hs.le_length, fun k hk => ?_⟩
  change r.rows k = replay (userOps s.history base r.lastApplied) snapshot k
  rw [hrows k hk, hcursor]
  exact hs.rows k hk

/-- **Convergence on one master timeline.**  In every run, however writes are cut into frames, lost,
repeated or reordered, and crashes between any two store writes, the replica's data rows are its
snapshot with exactly the master's replicating operations up to the durable cursor replayed, and the
cursor never decreases. -/
theorem replica_converges (snapshot : Rows κ ν) (base : ℕ) {s : Timeline κ ν}
    (h : (timelineMachine snapshot base).Reach EngineKeepsWord s) :
    (∀ k, RowSpace.isSystem ν k = false →
      s.replica.rows k = replay (userOps s.history base s.replica.lastApplied) snapshot k) ∧
    ∀ es s', (timelineMachine snapshot base).exec s es = some s' →
      s.replica.lastApplied ≤ s'.replica.lastApplied := by
  have hs : s.Converges snapshot base := by
    refine Machine.Reach.invariant ?_ (fun _ _ _ _ hs hok hst => hs.step hok hst) h
    rintro t ⟨hsent, hbase, hrows, hcursor⟩
    refine ⟨by simp [hsent], hcursor.ge, hcursor ▸ hbase, fun k _ => ?_⟩
    rw [hcursor, userOps, span_self, hrows]
    rfl
  exact ⟨hs.rows, fun es s' hes => lastApplied_le_exec snapshot base hes⟩

open TimelineEvent

theorem replica_converges_across_crash :
    let H : List (ReplOp Bytes Bytes) :=
      [.put [1] [1], .put (systemPrefix ++ [1]) [], .put [2] [2], .delete [1]]
    let f : ReplBatch Bytes Bytes := ⟨1, 3, [.put [1] [1], .put [2] [2]]⟩
    let g : ReplBatch Bytes Bytes := ⟨4, 4, [.delete [1]]⟩
    let s : Timeline Bytes Bytes := ⟨H, [f, g, ⟨2, 3, [.put [2] [2]]⟩, g],
      ⟨replay g.ops (replay f.ops fun _ => none), 4, fun _ => none, 12, none⟩⟩
    let M := timelineMachine (fun _ : Bytes => (none : Option Bytes)) 0
    M.Reach EngineKeepsWord s ∧
      (∀ k, RowSpace.isSystem Bytes k = false →
        s.replica.rows k = replay (userOps s.history 0 s.replica.lastApplied) (fun _ => none) k) ∧
      ∀ es s', M.exec s es = some s' → s.replica.lastApplied ≤ s'.replica.lastApplied := by
  intro H f g s M
  let ws : List (WalBatch Bytes Bytes) :=
    [⟨1, [.put [1] [1], .put (systemPrefix ++ [1]) [], .put [2] [2]]⟩, ⟨4, [.delete [1]]⟩]
  have hword : ∀ c n, Honest H c ((fun _ => .retaining ws 4 c : ℕ → EngineView Bytes Bytes) n) :=
    fun c _ => honest_retaining ⟨by decide, by decide, by decide, by decide, by decide⟩
      (by decide) (by decide) c
  let r : Replica Bytes Bytes := ⟨fun _ => none, 0, fun _ => none, 7, none⟩
  let r' : Replica Bytes Bytes := ⟨replay f.ops fun _ => none, 3, fun _ => none, 10, none⟩
  have hstart : M.Reach EngineKeepsWord ⟨[], [], r⟩ := .init ⟨rfl, le_rfl, rfl, rfl⟩
  have hwrite : M.Reach EngineKeepsWord ⟨H, [], r⟩ :=
    hstart.step (write H) trivial rfl
  have hserve : M.Reach EngineKeepsWord ⟨H, [f, g], r⟩ :=
    hwrite.step (serve 0 100 _) (hword 0) rfl
  have hagain : M.Reach EngineKeepsWord ⟨H, s.sent, r⟩ :=
    hserve.step (serve 1 100 _) (hword 1) rfl
  have hfirst : M.Reach EngineKeepsWord ⟨H, s.sent, r'⟩ :=
    hagain.step (deliver 0) trivial (by with_unfolding_all rfl)
  have hcrash : M.Reach EngineKeepsWord ⟨H, s.sent, r'⟩ :=
    hfirst.step crash trivial rfl
  have hstale : M.Reach EngineKeepsWord ⟨H, s.sent, r'⟩ :=
    hcrash.step (deliver 2) trivial rfl
  have hsecond : M.Reach EngineKeepsWord s :=
    hstale.step (deliver 1) trivial (by with_unfolding_all rfl)
  exact ⟨hsecond, replica_converges _ _ hsecond⟩

end Flint
