import FlintCache.Lib.Lists
import FlintCache.Storage.Units

/-!
# Repl/Wal — the master's write-ahead log and the walk that tails it

The engine numbers operations consecutively and keeps a window of its write batches.
`updatesSinceBudgeted` turns a cursor into the batches that follow it.  The engine's iterator
(`Yields`) ends the same way whether nothing is new, the byte budget is spent or a log file is
missing, so the walk has to tell these apart itself.
-/

namespace Flint

open List Option Nat
open SeqLog

/-! ## Operations -/

/-- An operation as it is replicated. -/
inductive ReplOp (κ ν : Type)
  | put (key : κ) (value : ν)
  | delete (key : κ)
  deriving DecidableEq, Repr

variable {κ ν : Type}

namespace ReplOp

def key : ReplOp κ ν → κ
  | put k _ => k
  | delete k => k

def payload [RowSpace κ ν] : ReplOp κ ν → ℕ
  | put k v => RowSpace.keyLen ν k + RowSpace.valueLen κ v
  | delete k => RowSpace.keyLen ν k

def isUser [RowSpace κ ν] (op : ReplOp κ ν) : Bool := !RowSpace.isSystem ν op.key

end ReplOp

/-- A batch of the log: its operations take the numbers `firstSeq, firstSeq + 1, …`. -/
structure WalBatch (κ ν : Type) where
  firstSeq : ℕ
  ops : List (ReplOp κ ν)
  deriving DecidableEq, Repr

def WalBatch.lastSeq {κ ν : Type} (b : WalBatch κ ν) : ℕ := b.firstSeq - 1 + b.ops.length

/-- One frame for a replica: a span of the master's numbers and its replicating operations. -/
structure ReplBatch (κ ν : Type) where
  firstSeq : ℕ
  lastSeq : ℕ
  /-- What replicates; fewer than the span where system rows were filtered. -/
  ops : List (ReplOp κ ν)
  deriving DecidableEq, Repr

inductive ReplError
  /-- The log no longer reaches back to the cursor: the replica must full-sync. -/
  | walGap (why : String)
  | sequenceGap (expected got : ℕ)
  | storage (why : String)
  deriving DecidableEq, Repr

variable [RowSpace κ ν]

/-! ## The visitor -/

/-- The collector that walks a batch for its operations. -/
structure OpCollector (κ ν : Type) where
  seq : ℕ
  floor : ℕ
  ops : List (ReplOp κ ν)

def OpCollector.visit (c : OpCollector κ ν) (op : ReplOp κ ν) : OpCollector κ ν :=
  if c.floor < c.seq + 1 && op.isUser then { c with seq := c.seq + 1, ops := c.ops ++ [op] }
  else { c with seq := c.seq + 1 }

def WalBatch.collect (floor : ℕ) (b : WalBatch κ ν) : OpCollector κ ν :=
  b.ops.foldl OpCollector.visit ⟨b.firstSeq - 1, floor, []⟩

/-- The frame of a batch that reaches above the cursor: its span starts after the cursor. -/
def WalBatch.trim (cursor : ℕ) (b : WalBatch κ ν) : ReplBatch κ ν :=
  ⟨max b.firstSeq (cursor + 1), (b.collect cursor).seq, (b.collect cursor).ops⟩

def ReplBatch.bytes (b : ReplBatch κ ν) : ℕ := (b.ops.map ReplOp.payload).sum

open OpCollector

theorem OpCollector.foldl_visit (ops : List (ReplOp κ ν)) (s floor : ℕ) (kept : List (ReplOp κ ν)) :
    ops.foldl OpCollector.visit ⟨s, floor, kept⟩
      = ⟨s + ops.length, floor, kept ++ (ops.drop (floor - s)).filter ReplOp.isUser⟩ := by
  induction ops generalizing s kept with
  | nil => simp
  | cons op ops ih =>
    rw [foldl_cons, OpCollector.visit]
    rcases lt_or_ge floor (s + 1) with hs | hs
    · have h0 : floor - s = 0 := by omega
      have h1 : floor - (s + 1) = 0 := by omega
      by_cases hu : op.isUser <;>
        simp [hs, hu, ih, h0, h1, Nat.add_assoc, Nat.add_comm 1]
    · have h1 : floor - s = (floor - (s + 1)) + 1 := by omega
      simp [not_lt.mpr hs, ih, h1, Nat.add_assoc, Nat.add_comm 1]

@[simp] theorem WalBatch.collect_seq (floor : ℕ) (b : WalBatch κ ν) :
    (b.collect floor).seq = b.lastSeq := by
  rw [collect, foldl_visit, lastSeq]

theorem WalBatch.collect_ops (floor : ℕ) (b : WalBatch κ ν) : (b.collect floor).ops
      = (b.ops.drop (floor - (b.firstSeq - 1))).filter ReplOp.isUser := by
  rw [collect, foldl_visit, nil_append]

@[simp] theorem WalBatch.trim_lastSeq (cursor : ℕ) (b : WalBatch κ ν) :
    (b.trim cursor).lastSeq = b.lastSeq := collect_seq cursor b

@[simp] theorem WalBatch.trim_firstSeq (cursor : ℕ) (b : WalBatch κ ν) :
    (b.trim cursor).firstSeq = max b.firstSeq (cursor + 1) := rfl

/-! ## One walk

The engine hands out an iterator or a message; its items are batches or failures.  A walk reads the
latest number first and the iterator after it, so a batch that lands in between is seen. -/

abbrev WalIter (κ ν : Type) := List (Except String (WalBatch κ ν))

/-- What one walk reads of the engine, in order: the latest number, each attempt at the iterator
from the cursor, each at the one from `0` that `batchCovering` scans, and the latest number again.
-/
structure EngineView (κ ν : Type) where
  latest : ℕ
  updatesSince : ℕ → Except String (WalIter κ ν)
  updatesFromZero : ℕ → Except String (WalIter κ ν)
  /-- `latest_sequence_number` at the moment a gap is reported. -/
  latestAtGap : ℕ

def walWalkRetries : ℕ := 2

def walFileVanished (msg : String) : Bool :=
  decide ("No such file or directory".toList <:+: msg.toList)

def retryingWalkFrom {α : Type} (walk : ℕ → Except String α) (n : ℕ) : ℕ → Except String α
  | 0 => walk n
  | retries + 1 =>
    match walk n with
    | .ok v => .ok v
    | .error msg =>
      if walFileVanished msg then retryingWalkFrom walk (n + 1) retries else .error msg

def retryingWalk {α : Type} (walk : ℕ → Except String α) : Except String α :=
  retryingWalkFrom walk 0 walWalkRetries

def batchCoveringIn (cursor : ℕ) : WalIter κ ν → Except ReplError (Option (ReplBatch κ ν))
  | [] => .ok none
  | .error msg :: _ => .error (.storage msg)
  | .ok b :: rest =>
    -- batches come in order, so past the cursor no later one covers it
    if cursor < b.firstSeq then .ok none
    else if cursor < (b.collect cursor).seq then .ok (some (b.trim cursor))
    else batchCoveringIn cursor rest

def batchCovering (v : EngineView κ ν) (cursor : ℕ) : Except ReplError (Option (ReplBatch κ ν)) :=
  match retryingWalk v.updatesFromZero with
  | .error msg => .error (.walGap msg)
  | .ok iter => batchCoveringIn cursor iter

structure Walk (κ ν : Type) where
  out : List (ReplBatch κ ν) := []
  bytes : ℕ := 0
  budgetStoppedUs : Bool := false
  /-- The raw start of the first batch handed out, before the clamp hides it. -/
  rawFirst : Option ℕ := none

def Walk.offer (w : Walk κ ν) (b : WalBatch κ ν) : Walk κ ν :=
  { w with rawFirst := w.rawFirst.or (some b.firstSeq) }

def Walk.push (w : Walk κ ν) (f : ReplBatch κ ν) : Walk κ ν :=
  { w with out := w.out ++ [f], bytes := w.bytes + f.bytes }

def walkLoop (lastApplied maxBytes : ℕ) (w : Walk κ ν) :
    WalIter κ ν → Except ReplError (Walk κ ν)
  | [] => .ok w
  | .error msg :: _ => .error (.storage msg)
  | .ok b :: rest =>
    -- a batch that is applied whole is passed over
    if (b.collect lastApplied).seq ≤ lastApplied then walkLoop lastApplied maxBytes (w.offer b) rest
    else
      let w := (w.offer b).push (b.trim lastApplied)
      if maxBytes ≤ w.bytes then .ok { w with budgetStoppedUs := true }
      else walkLoop lastApplied maxBytes w rest

def reach (cursor : ℕ) (out : List (ReplBatch κ ν)) : ℕ :=
  (out.getLast?.map ReplBatch.lastSeq).getD cursor

/-- **An empty walk has two causes**: the cursor is inside a retained batch, or the log is cut. -/
def serveCovering (v : EngineView κ ν) (lastApplied : ℕ) :
    Except ReplError (List (ReplBatch κ ν)) :=
  match batchCovering v lastApplied with
  | .error e => .error e
  | .ok (some covering) => .ok [covering]
  | .ok none => .error (.walGap
      s!"sequence {lastApplied + 1} is no longer in the WAL (latest is {v.latestAtGap})")

/-- **A walk that starts too late**: the skipped batch is put in front, or the start is gone. -/
def fillFront (v : EngineView κ ν) (lastApplied : ℕ) (w : Walk κ ν) :
    Except ReplError (List (ReplBatch κ ν)) :=
  match w.rawFirst with
  | none => .ok w.out
  | some first =>
    if lastApplied + 1 < first then
      match batchCovering v lastApplied with
      | .error e => .error e
      | .ok (some covering) =>
        if covering.lastSeq + 1 = first then .ok (covering :: w.out)
        else .error (.walGap (startsPast first))
      | .ok none => .error (.walGap (startsPast first))
    else .ok w.out
where
  startsPast (first : ℕ) : String :=
    s!"oldest retained batch starts at {first}, past the {lastApplied + 1} needed" ++
      s!"                  (latest is {v.latestAtGap})"

def walkSinceBudgeted (v : EngineView κ ν) (lastApplied maxBytes : ℕ) :
    Except ReplError (List (ReplBatch κ ν)) :=
  if v.latest ≤ lastApplied then .ok []
  else
    match retryingWalk v.updatesSince with
    | .error msg => .error (.walGap msg)
    | .ok iter =>
      match walkLoop lastApplied maxBytes {} iter with
      | .error e => .error e
      | .ok w =>
        if w.out.isEmpty then serveCovering v lastApplied
        else
          match fillFront v lastApplied w with
          | .error e => .error e
          | .ok out =>
            let r := reach lastApplied out
            -- only a loop that ran the iterator dry may be held to the latest number
            if !w.budgetStoppedUs && r < v.latest then
              .error (.walGap (s!"the WAL walk ended at {r} without reaching {v.latest}: " ++
                s!"{v.latest - r} sequence(s) after the cursor are unreachable, so this " ++
                "span is short by more than the byte budget explains"))
            else .ok out

/-! ## Walking again on a gap -/

/-- The pauses before a walk that ended in a gap is walked again, in milliseconds. -/
def walGapRecheckPausesMs : List ℕ := [50, 200, 500, 1000]

/-- The walks `n, n + 1, …` while they end in a gap, one more than there are pauses, and the first
gap's reason when a later walk succeeded. -/
def rewalkOnGap {α : Type} (walk : ℕ → Except ReplError α) (n : ℕ) (firstGap : Option String) :
    List ℕ → Except ReplError α × Option String
  | [] =>
    match walk n with
    | .ok r => (.ok r, firstGap)
    | .error e => (.error e, none)
  | _ :: pauses =>
    match walk n with
    | .error (.walGap why) => rewalkOnGap walk (n + 1) (firstGap.or (some why)) pauses
    | .ok r => (.ok r, firstGap)
    | .error e => (.error e, none)

/-- Every operation after `lastApplied`, by batch, up to a byte budget, through the views `v`. -/
def updatesSinceBudgeted (v : ℕ → EngineView κ ν) (lastApplied maxBytes : ℕ) :
    Except ReplError (List (ReplBatch κ ν)) :=
  (rewalkOnGap (fun n => walkSinceBudgeted (v n) lastApplied maxBytes) 0 none
    walGapRecheckPausesMs).1

/-! ## What the engine's iterator does

The engine keeps, of the operations `H` it ever numbered, a set of whole batches.  Its iterator
from `s` yields the retained batches that hold numbers above `s`, in order, and ends without a
signal where the next one is missing. -/

/-- The batches retained of a history: whole, nonempty, faithful to it, in order. -/
structure Retained (H : List (ReplOp κ ν)) (ws : List (WalBatch κ ν)) : Prop where
  pos : ∀ w ∈ ws, 1 ≤ w.firstSeq
  nonempty : ∀ w ∈ ws, w.ops ≠ []
  ops_eq : ∀ w ∈ ws, w.ops = span H (w.firstSeq - 1) w.lastSeq
  le : ∀ w ∈ ws, w.lastSeq ≤ H.length
  sorted : ws.Pairwise fun v w => v.lastSeq < w.firstSeq

def Contiguous (ws : List (WalBatch κ ν)) : Prop := ws.IsChain fun v w => w.firstSeq = v.lastSeq + 1

instance (ws : List (WalBatch κ ν)) : Decidable (Contiguous ws) :=
  inferInstanceAs (Decidable (ws.IsChain _))

/-- **The engine's iterator from `s`**: the retained batches holding numbers above `s`, in order,
up to a hole at which it may stop without a signal. -/
def Yields (ws : List (WalBatch κ ν)) (s : ℕ) (l : List (WalBatch κ ν)) : Prop :=
  ∃ rest, ws.filter (fun w => s < w.lastSeq) = l ++ rest ∧ Contiguous l ∧
    ∀ w ∈ rest.head?, (l.getLast?.map WalBatch.lastSeq).getD s + 1 < w.firstSeq

/-- **A view of an engine that keeps its word** about the history `H`: iterators yield from what is
retained, and what the second walk finds at or below the cursor was retained at the first. -/
structure Honest (H : List (ReplOp κ ν)) (cursor : ℕ) (v : EngineView κ ν) : Prop where
  latest_le : v.latest ≤ H.length
  yields : ∃ ws, Retained H ws ∧
    (∀ n it, v.updatesSince n = .ok it → ∃ l, Yields ws cursor l ∧ it = l.map .ok) ∧
    ∀ n it, v.updatesFromZero n = .ok it → ∃ ws' l, Retained H ws' ∧ Yields ws' 0 l ∧
      it = l.map .ok ∧ ∀ w ∈ ws', w.firstSeq ≤ cursor → w ∈ ws

open WalBatch

variable {H : List (ReplOp κ ν)}

namespace Retained

variable {ws : List (WalBatch κ ν)} {w : WalBatch κ ν}

omit [RowSpace κ ν] in
theorem firstSeq_le_lastSeq (h : Retained H ws) (hw : w ∈ ws) : w.firstSeq ≤ w.lastSeq := by
  have hpos := h.pos w hw
  have hne := length_pos_iff.mpr (h.nonempty w hw)
  rw [lastSeq]
  omega

omit [RowSpace κ ν] in
theorem tail (h : Retained H (w :: ws)) : Retained H ws where
  pos v hv := h.pos v (mem_cons_of_mem _ hv)
  nonempty v hv := h.nonempty v (mem_cons_of_mem _ hv)
  ops_eq v hv := h.ops_eq v (mem_cons_of_mem _ hv)
  le v hv := h.le v (mem_cons_of_mem _ hv)
  sorted := h.sorted.of_cons

omit [RowSpace κ ν] in
theorem filter_suffix (h : Retained H ws) (s : ℕ) : ws.filter (fun w => s < w.lastSeq) <:+ ws := by
  induction ws with
  | nil => exact suffix_rfl
  | cons w ws ih =>
    rcases lt_or_ge s w.lastSeq with hs | hs
    · have hall : (w :: ws).filter (fun w => s < w.lastSeq) = w :: ws := by
        refine filter_eq_self.mpr fun v hv => ?_
        rcases mem_cons.mp hv with rfl | hvs
        · simpa using hs
        have hwv := rel_of_pairwise_cons h.sorted hvs
        have hv := h.firstSeq_le_lastSeq hv
        simp only [decide_eq_true_eq]
        omega
      rw [hall]
    · rw [filter_cons_of_neg (by simpa using hs)]
      exact (ih h.tail).trans (suffix_cons w ws)

end Retained

/-- The view of an engine that opens every iterator at once over the batches it retains. -/
def EngineView.retaining (ws : List (WalBatch κ ν)) (latest cursor : ℕ) : EngineView κ ν where
  latest := latest
  updatesSince _ := .ok ((ws.filter fun w => cursor < w.lastSeq).map .ok)
  updatesFromZero _ := .ok ((ws.filter fun w => 0 < w.lastSeq).map .ok)
  latestAtGap := latest

omit [RowSpace κ ν] in
theorem honest_retaining {H : List (ReplOp κ ν)} {ws : List (WalBatch κ ν)} {latest : ℕ}
    (h : Retained H ws) (hc : Contiguous ws) (hl : latest ≤ H.length) (cursor : ℕ) :
    Honest H cursor (.retaining ws latest cursor) := by
  have hyields : ∀ s, Yields ws s (ws.filter fun w => s < w.lastSeq) := fun s =>
    ⟨[], by simp, hc.suffix (h.filter_suffix s), by simp⟩
  refine ⟨hl, ws, h, fun _ it hit => ⟨_, hyields cursor, ?_⟩, fun _ it hit =>
    ⟨ws, _, h, hyields 0, ?_, fun w hw _ => hw⟩⟩
  · exact (Except.ok.inj hit).symm
  · exact (Except.ok.inj hit).symm

/-! ## What a tail promises -/

/-- The operations of `H` numbered `a + 1, …, b` that replicate. -/
def userOps (H : List (ReplOp κ ν)) (a b : ℕ) : List (ReplOp κ ν) :=
  (span H a b).filter ReplOp.isUser

/-- **A frame of the history**: its operations are exactly the replicating ones of its span. -/
structure Frame (H : List (ReplOp κ ν)) (f : ReplBatch κ ν) : Prop where
  span_pos : f.firstSeq ≤ f.lastSeq
  pos : 1 ≤ f.firstSeq
  le : f.lastSeq ≤ H.length
  ops_eq : f.ops = userOps H (f.firstSeq - 1) f.lastSeq

def SpanChain : ℕ → List (ReplBatch κ ν) → Prop
  | _, [] => True
  | cursor, f :: fs => f.firstSeq = cursor + 1 ∧ f.firstSeq ≤ f.lastSeq ∧ SpanChain f.lastSeq fs

/-- **A gapless tail**: contiguous frames from the cursor on, which reach the latest number unless
the budget stopped them. -/
structure Tail (H : List (ReplOp κ ν)) (cursor latest maxBytes : ℕ)
    (out : List (ReplBatch κ ν)) : Prop where
  chain : SpanChain cursor out
  frames : ∀ f ∈ out, Frame H f
  reaches : latest ≤ reach cursor out ∨ maxBytes ≤ (out.map ReplBatch.bytes).sum

/-! ## The pieces of a walk -/

variable {ws l : List (WalBatch κ ν)} {cursor : ℕ}

theorem exists_of_retryingWalk {α : Type} {walk : ℕ → Except String α} {r : α}
    (h : retryingWalk walk = .ok r) : ∃ n, walk n = .ok r := by
  suffices hfrom : ∀ retries n, retryingWalkFrom walk n retries = .ok r → ∃ m, walk m = .ok r from
    hfrom _ _ h
  intro retries
  induction retries with
  | zero => exact fun n hn => ⟨n, hn⟩
  | succ retries ih =>
    intro n hn
    rw [retryingWalkFrom] at hn
    split at hn
    · exact ⟨n, by simp_all⟩
    · split at hn
      · exact ih _ hn
      · cases hn

theorem Retained.frame_trim (h : Retained H ws) (hw : w ∈ ws)
    (hc : cursor < w.lastSeq) : Frame H (w.trim cursor) := by
  have hle := h.firstSeq_le_lastSeq hw
  have hpos := h.pos w hw
  refine ⟨?_, ?_, ?_, ?_⟩
  · rw [w.trim_firstSeq, w.trim_lastSeq]
    omega
  · rw [w.trim_firstSeq]
    omega
  · rw [w.trim_lastSeq]
    exact h.le w hw
  have hstart : max w.firstSeq (cursor + 1) - 1 = max (w.firstSeq - 1) cursor := by omega
  have hdrop : cursor - (w.firstSeq - 1) = max (w.firstSeq - 1) cursor - (w.firstSeq - 1) := by
    omega
  rw [w.trim_firstSeq, w.trim_lastSeq, hstart, userOps, ← drop_span H (le_max_left _ _),
    ← h.ops_eq w hw, ← hdrop]
  exact w.collect_ops cursor

omit [RowSpace κ ν] in
theorem Yields.mem {s : ℕ} (h : Yields ws s l) (hw : w ∈ l) : w ∈ ws ∧ s < w.lastSeq := by
  obtain ⟨rest, heq, -, -⟩ := h
  have hmem : w ∈ ws.filter fun w => s < w.lastSeq := by
    rw [heq]
    exact mem_append_left _ hw
  simpa using mem_filter.mp hmem

omit [RowSpace κ ν] in
theorem Yields.not_covered (h : Yields ws cursor []) (hR : Retained H ws)
    (hw : w ∈ ws) (hc : cursor < w.lastSeq) : cursor + 1 < w.firstSeq := by
  obtain ⟨rest, heq, -, hole⟩ := h
  have hwr : w ∈ rest := by
    have : w ∈ ws.filter fun w => cursor < w.lastSeq := mem_filter.mpr ⟨hw, by simpa using hc⟩
    rwa [heq, nil_append] at this
  have hsorted : rest.Pairwise fun v w => v.lastSeq < w.firstSeq := by
    rw [nil_append] at heq
    exact heq ▸ hR.sorted.filter _
  cases rest with
  | nil => cases hwr
  | cons r rest =>
    have hr : cursor + 1 < r.firstSeq := hole r rfl
    rcases mem_cons.mp hwr with rfl | hwr
    · exact hr
    have hrw := rel_of_pairwise_cons hsorted hwr
    have hrm : r ∈ ws := by
      refine mem_of_mem_filter (p := fun w => cursor < w.lastSeq) ?_
      rw [heq]
      exact mem_cons_self
    have := hR.firstSeq_le_lastSeq hrm
    omega

theorem batchCoveringIn_map_ok (cursor : ℕ) (l : List (WalBatch κ ν)) :
    ∃ r, batchCoveringIn cursor (l.map .ok) = .ok r ∧ ∀ c ∈ r, ∃ w ∈ l,
      w.firstSeq ≤ cursor ∧ cursor < w.lastSeq ∧ c = w.trim cursor := by
  induction l with
  | nil => exact ⟨none, rfl, by simp⟩
  | cons b l ih =>
    simp only [map_cons, batchCoveringIn, collect_seq]
    split
    · exact ⟨none, rfl, by simp⟩
    rename_i hb
    split
    · rename_i hc
      refine ⟨_, rfl, fun c hcb => ⟨b, mem_cons_self, not_lt.mp hb, hc, ?_⟩⟩
      exact (some.inj hcb).symm
    obtain ⟨r, hr, hspec⟩ := ih
    refine ⟨r, hr, fun c hcr => ?_⟩
    obtain ⟨w, hw, h⟩ := hspec c hcr
    exact ⟨w, mem_cons_of_mem _ hw, h⟩

open Walk

/-- **The loop on a clean iterator** above the cursor frames an initial stretch of it, all unless
the budget stopped it, and at least one. -/
theorem walkLoop_map_ok (maxBytes : ℕ) (hl : ∀ b ∈ l, cursor < b.lastSeq) (w : Walk κ ν)
    (hw : w.budgetStoppedUs = false) :
    ∃ w' l', walkLoop cursor maxBytes w (l.map .ok) = .ok w' ∧ l' <+: l ∧
      w'.out = w.out ++ l'.map (trim cursor) ∧
      w'.bytes = w.bytes + ((l'.map (trim cursor)).map ReplBatch.bytes).sum ∧
      w'.rawFirst = w.rawFirst.or (l.head?.map firstSeq) ∧
      (w'.budgetStoppedUs → maxBytes ≤ w'.bytes) ∧
      (w'.budgetStoppedUs = false → l' = l) ∧ (l ≠ [] → l' ≠ []) := by
  induction l generalizing w with
  | nil => exact ⟨w, [], rfl, prefix_rfl, by simp, by simp, by simp, by simp [hw], by simp,
      by simp⟩
  | cons b l ih =>
    have hb : ¬ b.lastSeq ≤ cursor := not_le.mpr (hl b mem_cons_self)
    simp only [map_cons, walkLoop, collect_seq, hb, if_false]
    split
    · rename_i hfull
      refine ⟨_, [b], rfl, ⟨l, rfl⟩, rfl, ?_, ?_, fun _ => hfull, by simp, by simp⟩
      · simp [push, offer]
      · simp [push, offer]
    obtain ⟨w', l', hrun, hpre, hout, hbytes, hraw, hstop, hdry, -⟩ :=
      ih (fun c hc => hl c (mem_cons_of_mem _ hc)) ((w.offer b).push (b.trim cursor)) hw
    refine ⟨w', b :: l', hrun, (prefix_cons_inj b).mpr hpre, ?_, ?_, ?_, hstop, ?_, by simp⟩
    · rw [hout, push, offer, append_assoc]
      rfl
    · simp only [hbytes, push, offer, map_cons, sum_cons, Nat.add_assoc]
    · rw [hraw, push, offer]
      cases w.rawFirst <;> rfl
    · exact fun hd => by rw [hdry hd]

theorem spanChain_map_trim {k : ℕ} (hk : cursor ≤ k) (hc : Contiguous l)
    (hl : ∀ b ∈ l, (b.trim cursor).firstSeq ≤ (b.trim cursor).lastSeq)
    (hhead : ∀ b ∈ l.head?, max b.firstSeq (cursor + 1) = k + 1) :
    SpanChain k (l.map (trim cursor)) := by
  induction l generalizing k with
  | nil => trivial
  | cons b l ih =>
    have hb : (b.trim cursor).firstSeq ≤ (b.trim cursor).lastSeq := hl b mem_cons_self
    have hfirst : (b.trim cursor).firstSeq = k + 1 := hhead b rfl
    refine ⟨hfirst, hb, ih ?_ hc.tail (fun c hcl => hl c (mem_cons_of_mem _ hcl)) ?_⟩
    · omega
    intro c hcl
    have hnext : c.firstSeq = b.lastSeq + 1 := by
      cases l with
      | nil => cases hcl
      | cons d l =>
        obtain rfl : d = c := some.inj hcl
        exact (isChain_cons_cons.mp hc).1
    rw [b.trim_lastSeq] at hb ⊢
    omega

/-! ## No silent gap -/

def TailOrGap (H : List (ReplOp κ ν)) (cursor latest maxBytes : ℕ) :
    Except ReplError (List (ReplBatch κ ν)) → Prop
  | .ok out => Tail H cursor latest maxBytes out
  | .error e => ∃ why, e = .walGap why

variable {v : EngineView κ ν}

theorem batchCovering_spec
    (hz : ∀ n it, v.updatesFromZero n = .ok it → ∃ ws' l, Retained H ws' ∧ Yields ws' 0 l ∧
      it = l.map .ok ∧ ∀ w ∈ ws', w.firstSeq ≤ cursor → w ∈ ws) :
    (∃ why, batchCovering v cursor = .error (.walGap why)) ∨ batchCovering v cursor = .ok none ∨
    ∃ w ∈ ws, w.firstSeq ≤ cursor ∧ cursor < w.lastSeq ∧
      batchCovering v cursor = .ok (some (w.trim cursor)) := by
  rw [batchCovering]
  cases hit : retryingWalk v.updatesFromZero with
  | error msg => exact .inl ⟨msg, rfl⟩
  | ok it =>
    obtain ⟨n, hn⟩ := exists_of_retryingWalk hit
    obtain ⟨ws', l, hws', hl, rfl, hkept⟩ := hz n it hn
    obtain ⟨r, hr, hspec⟩ := batchCoveringIn_map_ok cursor l
    simp only [hr]
    cases r with
    | none => exact .inr (.inl rfl)
    | some c =>
      obtain ⟨w, hw, hle, hlt, rfl⟩ := hspec c rfl
      exact .inr (.inr ⟨w, hkept w (hl.mem hw).1 hle, hle, hlt, rfl⟩)

omit [RowSpace κ ν] in
theorem reach_cons (cursor : ℕ) (f : ReplBatch κ ν) (out : List (ReplBatch κ ν)) :
    reach cursor (f :: out) = reach f.lastSeq out := by
  rw [reach, reach, getLast?_cons]
  cases out.getLast? <;> rfl

variable {out : List (ReplBatch κ ν)}

omit [RowSpace κ ν] in
theorem reach_eq_of_ne_nil (h : out ≠ []) (a b : ℕ) : reach a out = reach b out := by
  obtain ⟨f, out, rfl⟩ := exists_cons_of_ne_nil h
  rw [reach_cons, reach_cons]

/-- **The front of a walk**: a contiguous run of retained batches is served from the cursor on, with
the covering batch before it where it starts later, or a gap is reported. -/
theorem fillFront_spec {w : Walk κ ν} (hws : Retained H ws)
    (hz : ∀ n it, v.updatesFromZero n = .ok it → ∃ ws' l, Retained H ws' ∧ Yields ws' 0 l ∧
      it = l.map .ok ∧ ∀ w ∈ ws', w.firstSeq ≤ cursor → w ∈ ws)
    (hl : ∀ b ∈ l, b ∈ ws ∧ cursor < b.lastSeq) (hc : Contiguous l) (hne : l ≠ [])
    (hout : w.out = l.map (trim cursor)) (hraw : w.rawFirst = l.head?.map firstSeq) :
    (∃ why, fillFront v cursor w = .error (.walGap why)) ∨
    ∃ out, fillFront v cursor w = .ok out ∧ SpanChain cursor out ∧ (∀ f ∈ out, Frame H f) ∧
      reach cursor out = reach cursor w.out ∧
      (w.out.map ReplBatch.bytes).sum ≤ (out.map ReplBatch.bytes).sum := by
  have hframes : ∀ f ∈ w.out, Frame H f := by
    intro f hf
    rw [hout] at hf
    obtain ⟨b, hb, rfl⟩ := mem_map.mp hf
    exact hws.frame_trim (hl b hb).1 (hl b hb).2
  have hspan : ∀ b ∈ l, (b.trim cursor).firstSeq ≤ (b.trim cursor).lastSeq := fun b hb =>
    (hws.frame_trim (hl b hb).1 (hl b hb).2).span_pos
  obtain ⟨b, bs, rfl⟩ := exists_cons_of_ne_nil hne
  have hraw' : w.rawFirst = some b.firstSeq := hraw
  rw [fillFront, hraw']
  simp only
  split
  · rename_i hlate
    rcases batchCovering_spec hz with ⟨why, h⟩ | h | ⟨c, hcw, hle, hlt, h⟩
    · simp only [h]
      exact .inl ⟨why, rfl⟩
    · simp only [h]
      exact .inl ⟨_, rfl⟩
    simp only [h]
    split
    · rename_i hmeet
      have hcov := hws.frame_trim hcw hlt
      refine .inr ⟨_, rfl, ⟨?_, hcov.span_pos, ?_⟩, ?_, ?_, ?_⟩
      · rw [c.trim_firstSeq]
        omega
      · rw [hout]
        refine spanChain_map_trim ?_ hc hspan ?_
        · rw [c.trim_lastSeq]
          omega
        · intro d hd
          obtain rfl : b = d := some.inj hd
          omega
      · exact forall_mem_cons.mpr ⟨hcov, hframes⟩
      · rw [reach_cons]
        exact reach_eq_of_ne_nil (by simp [hout]) _ _
      · simp
    · exact .inl ⟨_, rfl⟩
  rename_i hearly
  refine .inr ⟨w.out, rfl, ?_, hframes, rfl, le_rfl⟩
  rw [hout]
  refine spanChain_map_trim le_rfl hc hspan ?_
  intro d hd
  obtain rfl : b = d := some.inj hd
  omega

theorem walkSinceBudgeted_spec (hv : Honest H cursor v) (maxBytes : ℕ) :
    TailOrGap H cursor v.latest maxBytes (walkSinceBudgeted v cursor maxBytes) := by
  obtain ⟨hlatest, ws, hws, hiter, hzero⟩ := hv
  rw [walkSinceBudgeted]
  split
  · next hold => exact ⟨trivial, by simp, .inl hold⟩
  cases hit : retryingWalk v.updatesSince with
  | error msg => exact ⟨msg, rfl⟩
  | ok it =>
    obtain ⟨n, hn⟩ := exists_of_retryingWalk hit
    obtain ⟨l, hl, rfl⟩ := hiter n it hn
    obtain ⟨w, l', hrun, hpre, hout, hbytes, hraw, hstop, hdry, hne⟩ :=
      walkLoop_map_ok maxBytes (fun b hb => (hl.mem hb).2) {} rfl
    simp only [nil_append, Nat.zero_add, none_or] at hout hbytes hraw
    have hl' : ∀ b ∈ l', b ∈ ws ∧ cursor < b.lastSeq := fun b hb => hl.mem (hpre.subset hb)
    simp only [hrun]
    split
    · -- nothing was yielded: by `not_covered` the covering batch cannot exist either
      rename_i hempty
      obtain rfl : l = [] := by
        by_contra hcons
        have hnil : l'.map (trim cursor) = [] := by simpa [hout] using hempty
        exact hne hcons (map_eq_nil_iff.mp hnil)
      rw [serveCovering]
      rcases batchCovering_spec hzero with ⟨why, h⟩ | h | ⟨b, hb, hle, hlt, -⟩
      · simp only [h]
        exact ⟨why, rfl⟩
      · simp only [h]
        exact ⟨_, rfl⟩
      · exact absurd (hl.not_covered hws hb hlt) (by omega)
    rename_i hsome
    have hl0 : l' ≠ [] := by
      rintro rfl
      exact hsome (by simp [hout])
    have hc' : Contiguous l' := by
      obtain ⟨-, -, hc, -⟩ := hl
      obtain ⟨t, rfl⟩ := hpre
      exact hc.left_of_append
    have hhead : l'.head? = l.head? := by
      obtain ⟨t, rfl⟩ := hpre
      exact (head?_append_of_ne_nil _ hl0).symm
    rcases fillFront_spec hws hzero hl' hc' hl0 hout (hhead ▸ hraw) with
      ⟨why, h⟩ | ⟨out, h, hchain, hframes, hreach, hsum⟩
    · simp only [h]
      exact ⟨why, rfl⟩
    simp only [h]
    split
    · exact ⟨_, rfl⟩
    rename_i hok
    refine ⟨hchain, hframes, ?_⟩
    cases hb : w.budgetStoppedUs with
    | true =>
      have hfull := hstop hb
      rw [hbytes, ← hout] at hfull
      exact .inr (hfull.trans hsum)
    | false =>
      rw [hb] at hok
      exact .inl (by simpa using hok)

theorem rewalkOnGap_spec {α : Type} {walk : ℕ → Except ReplError α} {good : α → Prop}
    (h : ∀ n, (∃ r, walk n = .ok r ∧ good r) ∨ ∃ why, walk n = .error (.walGap why))
    (pauses : List ℕ) (n : ℕ) (firstGap : Option String) :
    (∃ r, (rewalkOnGap walk n firstGap pauses).1 = .ok r ∧ good r) ∨
      ∃ why, (rewalkOnGap walk n firstGap pauses).1 = .error (.walGap why) := by
  induction pauses generalizing n firstGap with
  | nil =>
    rcases h n with ⟨r, hr, hgood⟩ | ⟨why, hw⟩
    · exact .inl ⟨r, by simp [rewalkOnGap, hr], hgood⟩
    · exact .inr ⟨why, by simp [rewalkOnGap, hw]⟩
  | cons ms pauses ih =>
    rcases h n with ⟨r, hr, hgood⟩ | ⟨why, hw⟩
    · exact .inl ⟨r, by simp [rewalkOnGap, hr], hgood⟩
    · simpa [rewalkOnGap, hw] using ih (n + 1) (firstGap.or (some why))

theorem userOps_append (H : List (ReplOp κ ν)) {a b c : ℕ} (hab : a ≤ b) (hbc : b ≤ c) :
    userOps H a b ++ userOps H b c = userOps H a c := by
  rw [userOps, userOps, userOps, ← filter_append, span_append_span H hab hbc]

theorem SpanChain.flatMap_ops (hc : SpanChain cursor out) (hf : ∀ f ∈ out, Frame H f) :
    cursor ≤ reach cursor out ∧
        out.flatMap ReplBatch.ops = userOps H cursor (reach cursor out) := by
  induction out generalizing cursor with
  | nil => exact ⟨le_rfl, by simp [reach, userOps]⟩
  | cons f out ih =>
    obtain ⟨hfirst, hle, hrest⟩ := hc
    obtain ⟨hmono, hops⟩ := ih hrest fun g hg => hf g (mem_cons_of_mem _ hg)
    have hfops : f.ops = userOps H cursor f.lastSeq := by
      rw [(hf f mem_cons_self).ops_eq, hfirst, Nat.add_sub_cancel]
    rw [reach_cons]
    refine ⟨by omega, ?_⟩
    rw [flatMap_cons, hops, hfops, userOps_append H (by omega) hmono]

theorem Tail.reach_le {latest maxBytes : ℕ}
    (h : Tail H cursor latest maxBytes out) (hc : cursor ≤ H.length) :
    reach cursor out ≤ H.length := by
  rw [reach]
  cases hlast : out.getLast? with
  | none => exact hc
  | some f => exact (h.frames f (mem_of_getLast? hlast)).le

theorem updatesSinceBudgeted_tail (H : List (ReplOp κ ν)) (v : ℕ → EngineView κ ν)
    (cursor maxBytes : ℕ) (hv : ∀ n, Honest H cursor (v n)) :
    (∃ out n, updatesSinceBudgeted v cursor maxBytes = .ok out ∧
      Tail H cursor (v n).latest maxBytes out) ∨
    ∃ why, updatesSinceBudgeted v cursor maxBytes = .error (.walGap why) := by
  have hwalk : ∀ n, (∃ out, walkSinceBudgeted (v n) cursor maxBytes = .ok out ∧
        ∃ n, Tail H cursor (v n).latest maxBytes out) ∨
      ∃ why, walkSinceBudgeted (v n) cursor maxBytes = .error (.walGap why) := by
    intro n
    have h := walkSinceBudgeted_spec (hv n) maxBytes
    cases hr : walkSinceBudgeted (v n) cursor maxBytes with
    | ok out =>
      rw [hr] at h
      exact .inl ⟨out, rfl, n, h⟩
    | error e =>
      rw [hr] at h
      obtain ⟨why, rfl⟩ := h
      exact .inr ⟨why, rfl⟩
  rcases rewalkOnGap_spec hwalk walGapRecheckPausesMs 0 none with ⟨out, hok, n, ht⟩ | hgap
  · exact .inl ⟨out, n, hok, ht⟩
  · exact .inr hgap

/-- **No silent gap.**  Against an engine that keeps its word, a tail that succeeds hands out
contiguous frames from the cursor on with exactly the history's replicating operations of their
range, which reaches the latest number unless the budget stopped it; otherwise it reports a gap. -/
theorem updatesSinceBudgeted_spec (H : List (ReplOp κ ν)) (v : ℕ → EngineView κ ν)
    (cursor maxBytes : ℕ) (hv : ∀ n, Honest H cursor (v n)) :
    (∃ out n, updatesSinceBudgeted v cursor maxBytes = .ok out ∧
      Tail H cursor (v n).latest maxBytes out ∧
      out.flatMap ReplBatch.ops = userOps H cursor (reach cursor out)) ∨
    ∃ why, updatesSinceBudgeted v cursor maxBytes = .error (.walGap why) := by
  rcases updatesSinceBudgeted_tail H v cursor maxBytes hv with ⟨out, n, hok, ht⟩ | hgap
  · exact .inl ⟨out, n, hok, ht, (ht.chain.flatMap_ops ht.frames).2⟩
  · exact .inr hgap

theorem updatesSinceBudgeted_spec_two_batches :
    let k (n : UInt8) : ReplOp Bytes Bytes := .put [n] [n]
    let ws : List (WalBatch Bytes Bytes) :=
      [⟨1, [k 1, .put (systemPrefix ++ [1]) [], k 2]⟩, ⟨4, [.delete [1]]⟩]
    let H := ws.flatMap WalBatch.ops
    let v : EngineView Bytes Bytes :=
      ⟨4, fun n => if n = 0 then .error "No such file or directory" else .ok (ws.map .ok),
        fun _ => .ok (ws.map .ok), 4⟩
    updatesSinceBudgeted (fun _ => v) 1 100 = .ok [⟨2, 3, [k 2]⟩, ⟨4, 4, [.delete [1]]⟩] ∧
    ((∃ out n, updatesSinceBudgeted (fun _ => v) 1 100 = .ok out ∧
      Tail H 1 ((fun _ : ℕ => v) n).latest 100 out ∧
      out.flatMap ReplBatch.ops = userOps H 1 (reach 1 out)) ∨
    ∃ why, updatesSinceBudgeted (fun _ => v) 1 100 = .error (.walGap why)) := by
  intro k ws H v
  refine ⟨by rfl, ?_⟩
  have hret : Retained H ws := ⟨by decide, by decide, by decide, by decide, by decide⟩
  refine updatesSinceBudgeted_spec H (fun _ => v) 1 100 fun _ => ⟨by decide, ws, hret, ?_, ?_⟩
  · intro n it hit
    refine ⟨ws, ⟨[], by decide, by decide, by simp⟩, ?_⟩
    by_cases hn : n = 0 <;> simp_all [v]
  · intro n it hit
    exact ⟨ws, ws, hret, ⟨[], by decide, by decide, by simp⟩, by simpa [v] using hit.symm,
      fun w hw _ => hw⟩

end Flint
