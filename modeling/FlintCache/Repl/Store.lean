import FlintCache.Repl.Apply
import FlintCache.Storage.Role

/-!
# Repl/Store — a node's directory as the batches it was written with

Data rows, cursor row, role row, promotion fences and the index from upstream numbers to own ones
are all written through one log and take numbers there, so a directory is modelled by its batches.

A copied directory brings the rows but not the write-ahead log: `base` counts the batches it was
copied with, and `wal` numbers those written since.
-/

namespace Flint

section

open List
open SeqLog

variable {κ ν : Type}

/-! ## Rows -/

/-- The rows of a store: data, role, cursor and the index of cursors. -/
inductive StoreKey (κ : Type)
  | row (k : κ)
  | replState
  | role
  | promoFence (epoch : Epoch)
  | replUpidx (upstream : ℕ)
  deriving DecidableEq, Repr

inductive StoreVal (ν : Type)
  | value (v : ν)
  | seq (n : ℕ)
  | claim (c : RoleClaim)
  | fence (supersedes : Epoch) (seq : ℕ)
  deriving DecidableEq, Repr

/-- Bookkeeping rows are node-local; a frame holds none, so their lengths count for nothing. -/
instance [RowSpace κ ν] : RowSpace (StoreKey κ) (StoreVal ν) where
  isSystem
    | .row k => RowSpace.isSystem ν k
    | _ => true
  keyLen
    | .row k => RowSpace.keyLen ν k
    | _ => 0
  valueLen
    | .value v => RowSpace.valueLen κ v
    | _ => 0

abbrev StoreOp (κ ν : Type) := ReplOp (StoreKey κ) (StoreVal ν)

abbrev StoreRows (κ ν : Type) := Rows (StoreKey κ) (StoreVal ν)

def ReplOp.onRow : ReplOp κ ν → StoreOp κ ν
  | put k v => .put (.row k) (.value v)
  | delete k => .delete (.row k)

def lastApplied (rows : StoreRows κ ν) : ℕ :=
  match rows .replState with
  | some (.seq n) => n
  | _ => 0

def readRole (rows : StoreRows κ ν) : Option RoleClaim :=
  match rows .role with
  | some (.claim c) => some c
  | _ => none

def epochOf (rows : StoreRows κ ν) : Epoch := roleEpoch (readRole rows)

def upidxHint (rows : StoreRows κ ν) : ℕ → ℕ
  | 0 => 0
  | below + 1 =>
    match rows (.replUpidx (Nat.findGreatest (fun up => (rows (.replUpidx up)).isSome) below)) with
    | some (.seq own) => own
    | _ => 0

/-! ## Directories -/

/-- A directory: the log of its batches, and where the log was cut. -/
structure Dir (κ ν : Type) where
  log : List (List (StoreOp κ ν))
  base : ℕ
  deriving DecidableEq, Repr

def numbered (n : ℕ) : List (List (StoreOp κ ν)) → List (WalBatch (StoreKey κ) (StoreVal ν))
  | [] => []
  | b :: bs => ⟨n + 1, b⟩ :: numbered (n + b.length) bs

namespace Dir

variable [DecidableEq κ]

def ops (d : Dir κ ν) : List (StoreOp κ ν) := d.log.flatten

def latestSeq (d : Dir κ ν) : ℕ := d.ops.length

def rowsAt (d : Dir κ ν) (seq : ℕ) : StoreRows κ ν := replay (d.ops.take seq) fun _ => none

def rows (d : Dir κ ν) : StoreRows κ ν := replay d.ops fun _ => none

def wal (d : Dir κ ν) : List (WalBatch (StoreKey κ) (StoreVal ν)) :=
  numbered (d.log.take d.base).flatten.length (d.log.drop d.base)

def write (d : Dir κ ν) (b : List (StoreOp κ ν)) : Dir κ ν := { d with log := d.log ++ [b] }

def copy (log : List (List (StoreOp κ ν))) : Dir κ ν := ⟨log, log.length⟩

def fences (d : Dir κ ν) : List PromoFence :=
  d.ops.foldl (fun fs op =>
    match op with
    | .put (.promoFence epoch) (.fence supersedes seq) => recordPromoFence fs epoch supersedes seq
    | _ => fs) []

end Dir

def snapToBatchEnd (seq : ℕ) : List (WalBatch (StoreKey κ) (StoreVal ν)) → Option ℕ
  | [] => none
  | b :: bs =>
    if seq < b.firstSeq then none
    else if seq < b.lastSeq then some b.lastSeq
    else snapToBatchEnd seq bs

def Dir.setLastApplied (d : Dir κ ν) (seq : ℕ) : Dir κ ν :=
  d.write [.put .replState (.seq ((snapToBatchEnd seq d.wal).getD seq))]

def Dir.writeRole (d : Dir κ ν) (c : RoleClaim) : Dir κ ν := d.write [.put .role (.claim c)]

/-- **Apply one frame together with the cursor**, as one batch; the index entry, due once per
stride, is a batch of its own and may get lost. -/
def Dir.applyBatch [DecidableEq κ] (d : Dir κ ν) (b : ReplBatch (StoreKey κ) (StoreVal ν))
    (indexed : Bool) : Except ReplError (Dir κ ν) :=
  let cursor := lastApplied d.rows
  if b.lastSeq ≤ cursor then .ok d
  else if b.firstSeq ≠ cursor + 1 then .error (.sequenceGap (cursor + 1) b.firstSeq)
  else
    let applied := d.write (b.ops ++ [.put .replState (.seq b.lastSeq)])
    if b.lastSeq / replUpidxStride ≠ cursor / replUpidxStride ∧ indexed then
      .ok (applied.write [.put (.replUpidx b.lastSeq) (.seq applied.latestSeq)])
    else .ok applied

/-! ## Data rows

Two stores hold the same **data** when they agree on every row that replicates. -/

open ReplOp

variable {ops : List (StoreOp κ ν)}

section SameData

variable [RowSpace κ ν] {r r' r'' : StoreRows κ ν}

def SameData (r r' : StoreRows κ ν) : Prop :=
  ∀ k, RowSpace.isSystem (StoreVal ν) k = false → r k = r' k

theorem SameData.symm (h : SameData r r') : SameData r' r := fun k hk => (h k hk).symm

theorem SameData.trans (h : SameData r r') (h' : SameData r' r'') : SameData r r'' :=
  fun k hk => (h k hk).trans (h' k hk)

variable [DecidableEq κ]

theorem SameData.replay (h : SameData r r') (ops : List (StoreOp κ ν)) :
    SameData (replay ops r) (replay ops r') := fun k hk => replay_congr ops (h k hk)

theorem sameData_replay_system (h : ∀ op ∈ ops, op.isUser = false) (r : StoreRows κ ν) :
    SameData (replay ops r) r := by
  intro k hk
  refine replay_of_untouched (fun op hop hkey => ?_) r
  have hsys := h op hop
  rw [isUser, hkey, hk] at hsys
  cases hsys

theorem sameData_replay_put {k : StoreKey κ} (h : RowSpace.isSystem (StoreVal ν) k) (v : StoreVal ν)
    (r : StoreRows κ ν) : SameData (Flint.replay [.put k v] r) r := by
  refine sameData_replay_system (forall_mem_singleton.mpr ?_) r
  rw [isUser, key, h]
  rfl

theorem sameData_replay_filter (ops : List (StoreOp κ ν)) (r : StoreRows κ ν) :
    SameData (Flint.replay (ops.filter isUser) r) (Flint.replay ops r) := by
  intro k hk
  refine replay_filter (fun op _ hkey => ?_) r
  rw [isUser, hkey, hk]
  rfl

end SameData

/-! ## Reading the bookkeeping after a batch -/

theorem key_onRow (op : ReplOp κ ν) : op.onRow.key = .row op.key := by cases op <;> rfl

theorem isUser_onRow [RowSpace κ ν] (op : ReplOp κ ν) : op.onRow.isUser = op.isUser := by
  cases op <;> rfl

theorem exists_row_of_isUser [RowSpace κ ν] {op : StoreOp κ ν} (h : op.isUser) :
    ∃ k, op.key = .row k := by
  rw [isUser] at h
  cases hkey : op.key with
  | row k => exact ⟨k, rfl⟩
  | _ =>
    rw [hkey] at h
    cases h

section Reading

variable [DecidableEq κ] (r : StoreRows κ ν)

theorem lastApplied_replay_of_untouched (h : ∀ op ∈ ops, op.key ≠ .replState) :
    lastApplied (replay ops r) = lastApplied r := by
  rw [lastApplied, lastApplied, replay_of_untouched h]

theorem readRole_replay_of_untouched (h : ∀ op ∈ ops, op.key ≠ .role) :
    readRole (replay ops r) = readRole r := by
  rw [readRole, readRole, replay_of_untouched h]

@[simp] theorem lastApplied_put_replState (n : ℕ) :
    lastApplied ((put StoreKey.replState (StoreVal.seq n)).apply r) = n := by
  simp [lastApplied, apply]

@[simp] theorem readRole_put_replState (v : StoreVal ν) :
    readRole ((put StoreKey.replState v).apply r) = readRole r := by
  simp [readRole, apply]

@[simp] theorem lastApplied_put_role (v : StoreVal ν) :
    lastApplied ((put StoreKey.role v).apply r) = lastApplied r := by
  simp [lastApplied, apply]

@[simp] theorem readRole_put_role (c : RoleClaim) :
    readRole ((put StoreKey.role (StoreVal.claim c)).apply r) = some c := by
  simp [readRole, apply]

def Quiet (b : List (StoreOp κ ν)) : Prop := ∀ op ∈ b, op.key ≠ .role ∧ op.key ≠ .replState

theorem Quiet.readRole_eq (h : Quiet ops) : readRole (replay ops r) = readRole r :=
  readRole_replay_of_untouched r fun op hop => (h op hop).1

theorem Quiet.lastApplied_eq (h : Quiet ops) : lastApplied (replay ops r) = lastApplied r :=
  lastApplied_replay_of_untouched r fun op hop => (h op hop).2

omit [DecidableEq κ] in
theorem quiet_map_onRow (ops : List (ReplOp κ ν)) : Quiet (ops.map ReplOp.onRow) := by
  intro op hop
  obtain ⟨op', -, rfl⟩ := mem_map.mp hop
  rw [key_onRow]
  exact ⟨nofun, nofun⟩

omit [DecidableEq κ] in
theorem quiet_of_isUser [RowSpace κ ν] (h : ∀ op ∈ ops, op.isUser) : Quiet ops := by
  intro op hop
  obtain ⟨k, hk⟩ := exists_row_of_isUser (h op hop)
  rw [hk]
  exact ⟨nofun, nofun⟩

end Reading

/-! ## How a directory grows -/

namespace Dir

variable {d d' : Dir κ ν} {a b q : ℕ}

theorem log_prefix_write (d : Dir κ ν) (b : List (StoreOp κ ν)) : d.log <+: (d.write b).log :=
  prefix_append _ _

theorem latestSeq_le_of_prefix (h : d.log <+: d'.log) : d.latestSeq ≤ d'.latestSeq :=
  h.flatten.length_le

variable [DecidableEq κ]

@[simp] theorem rows_write (d : Dir κ ν) (b : List (StoreOp κ ν)) :
    (d.write b).rows = replay b d.rows := by
  simp [rows, ops, write, replay_append]

theorem rowsAt_latestSeq (d : Dir κ ν) : d.rowsAt d.latestSeq = d.rows := by
  rw [rowsAt, latestSeq, take_length, rows]

theorem rowsAt_of_prefix (h : d.log <+: d'.log) (hq : q ≤ d.latestSeq) :
    d'.rowsAt q = d.rowsAt q := by
  obtain ⟨more, hmore⟩ := h.flatten
  have hops : d'.ops = d.ops ++ more := hmore.symm
  rw [rowsAt, rowsAt, hops, take_append_of_le_length hq]

theorem rowsAt_of_log_eq {pre post : List (List (StoreOp κ ν))} (h : d.log = pre ++ post) :
    d.rowsAt pre.flatten.length = replay pre.flatten fun _ => none := by
  rw [rowsAt, ops, h, flatten_append, take_left]

theorem sameData_replay_userOps [RowSpace κ ν] (d : Dir κ ν) {r : StoreRows κ ν}
    (h : SameData r (d.rowsAt a)) (hab : a ≤ b) :
    SameData (replay (userOps d.ops a b) r) (d.rowsAt b) := by
  have hspan : d.rowsAt b = replay (span d.ops a b) (d.rowsAt a) := by
    rw [rowsAt, rowsAt, ← replay_append, take_append_span _ hab]
  rw [hspan]
  exact (sameData_replay_filter _ _).trans (h.replay _)

end Dir

variable {w : WalBatch (StoreKey κ) (StoreVal ν)}

theorem exists_of_mem_numbered {n : ℕ} {bs : List (List (StoreOp κ ν))} (h : w ∈ numbered n bs) :
    ∃ pre post, bs = pre ++ w.ops :: post ∧ w.firstSeq = n + pre.flatten.length + 1 := by
  induction bs generalizing n with
  | nil => cases h
  | cons b bs ih =>
    rcases mem_cons.mp h with rfl | h
    · exact ⟨[], bs, rfl, rfl⟩
    · obtain ⟨pre, post, rfl, hfirst⟩ := ih h
      refine ⟨b :: pre, post, rfl, ?_⟩
      rw [hfirst, flatten_cons, length_append, Nat.add_assoc n]

/-- **A batch of the write-ahead log** is the directory's, and ends at the position it leaves. -/
theorem Dir.exists_of_mem_wal {d : Dir κ ν} (h : w ∈ d.wal) :
    ∃ pre post, d.log = (pre ++ [w.ops]) ++ post ∧ d.base ≤ pre.length ∧
      w.lastSeq = (pre ++ [w.ops]).flatten.length := by
  obtain ⟨pre, post, hdrop, hfirst⟩ := exists_of_mem_numbered h
  refine ⟨d.log.take d.base ++ pre, post, ?_, ?_, ?_⟩
  · rw [append_assoc, append_assoc, singleton_append, ← hdrop, take_append_drop]
  · have hlen : d.base < d.log.length := by
      refine lt_length_of_take_ne_self fun htake => ?_
      rw [drop_eq_nil_of_le (take_eq_self_iff _ |>.mp htake)] at hdrop
      simp at hdrop
    rw [length_append, length_take]
    omega
  · rw [WalBatch.lastSeq, hfirst, flatten_append, flatten_append, flatten_singleton,
      length_append, length_append]
    omega

/-- **Inversion of an apply**: the frame starts right after the cursor; its operations and the new
cursor are one batch, and an index entry may follow. -/
theorem Dir.applyBatch_eq_ok [DecidableEq κ] {d d' : Dir κ ν}
    {b : ReplBatch (StoreKey κ) (StoreVal ν)} {indexed : Bool}
    (h : d.applyBatch b indexed = .ok d') :
    d' = d ∨ (b.firstSeq = lastApplied d.rows + 1 ∧ lastApplied d.rows < b.lastSeq ∧
      ∃ applied, applied = d.write (b.ops ++ [.put .replState (.seq b.lastSeq)]) ∧
        (d' = applied ∨ ∃ up own, d' = applied.write [.put (.replUpidx up) (.seq own)])) := by
  rw [applyBatch] at h
  split at h
  · exact .inl (Except.ok.inj h).symm
  rename_i hstale
  split at h
  · cases h
  rename_i hfirst
  refine .inr ⟨not_not.mp hfirst, Nat.not_le.mp hstale, _, rfl, ?_⟩
  split at h
  · exact .inr ⟨_, _, (Except.ok.inj h).symm⟩
  · exact .inl (Except.ok.inj h).symm

theorem Dir.setLastApplied_of_copied {d : Dir κ ν} (h : d.base = d.log.length) (seq : ℕ) :
    d.setLastApplied seq = d.write [.put .replState (.seq seq)] := by
  have hwal : d.wal = [] := by
    rw [wal, h, drop_length]
    rfl
  rw [setLastApplied, hwal]
  rfl

end

/-! ## `FLINTSYNC`: where a returning copy may resume

A cursor of an older epoch has to lie below the promotion fence of its stream, and the first cursor
row at or above it names the position to stream from. -/

section

open List Nat List.Sublist Except

variable {κ ν : Type} [DecidableEq κ] [RowSpace κ ν]

/-! ## The walk over the cursor rows -/

def cursorRow (reached : Option ℕ) : StoreOp κ ν → Option ℕ
  | .put .replState (.seq n) => some n
  | .put .replState _ => none
  | _ => reached

structure CursorFind where
  seq : ℕ
  reached : Option ℕ

def CursorFind.visit (c : CursorFind) (op : StoreOp κ ν) : CursorFind :=
  ⟨c.seq + 1, cursorRow c.reached op⟩

def WalBatch.cursorFind (b : WalBatch (StoreKey κ) (StoreVal ν)) : CursorFind :=
  b.ops.foldl CursorFind.visit ⟨b.firstSeq - 1, none⟩

inductive ScanOutcome
  | found (own : ℕ)
  | startedTooLate
  | exhausted
  deriving DecidableEq, Repr

/-- The walk: to the first batch whose cursor row reaches the target; unless `checked`, the first
cursor row seen must be below. -/
def scanIter (target : ℕ) (checked : Bool) :
    WalIter (StoreKey κ) (StoreVal ν) → Except ReplError ScanOutcome
  | [] => .ok .exhausted
  | .error msg :: _ => .error (.storage msg)
  | .ok b :: rest =>
    match b.cursorFind.reached with
    | none => scanIter target checked rest
    | some reached =>
      if !checked && target ≤ reached then .ok .startedTooLate
      else if target ≤ reached then .ok (.found b.cursorFind.seq)
      else scanIter target true rest

/-- What the storage engine shows of its log to a walk. -/
structure SyncView (κ ν : Type) where
  retained : List (WalBatch (StoreKey κ) (StoreVal ν))
  updatesSince : ℕ → ℕ → Except String (WalIter (StoreKey κ) (StoreVal ν))
  tail : ℕ → EngineView (StoreKey κ) (StoreVal ν)
  held : String

def SyncView.scan (v : SyncView κ ν) (target start : ℕ) (verifyStart : Bool) :
    Except ReplError ScanOutcome :=
  match retryingWalk (v.updatesSince start) with
  | .error msg => .error (.walGap msg)
  | .ok iter => scanIter target (!verifyStart) iter

def SyncView.scanAll (v : SyncView κ ν) (upstreamSeq : ℕ) : Except ReplError ℕ :=
  match v.scan upstreamSeq 0 false with
  | .error e => .error e
  | .ok (.found own) => .ok own
  | .ok _ => .error (.walGap
      s!"no apply batch reaching upstream seq {upstreamSeq} is retained in this WAL")

/-- **The own position a number of the upstream's stream was applied at.**  The index entry below it
bounds the walk; where that start proves too late the walk begins at `0`. -/
def ownSeqForUpstream (rows : StoreRows κ ν) (v : SyncView κ ν) (upstreamSeq : ℕ) :
    Except ReplError ℕ :=
  let hint := upidxHint rows upstreamSeq
  if 0 < hint then
    match v.scan upstreamSeq hint true with
    | .error e => .error e
    | .ok (.found own) => .ok own
    | .ok _ => v.scanAll upstreamSeq
  else v.scanAll upstreamSeq

/-! ## The admission -/

inductive SyncRefusal
  | walGap (why : String)
  /-- `-ERR`: the copy is not streamed to, and left as it is. -/
  | err (why : String)
  deriving DecidableEq, Repr

/-- What a master answers to a copy that presents a cursor. -/
inductive SyncReply
  /-- `FLINTSYNC-OK`: the position streamed from, and the node's role epoch. -/
  | ok (cursor : ℕ) (epoch : Epoch)
  | refused (why : SyncRefusal)
  deriving DecidableEq, Repr

def Dir.translateCursor (d : Dir κ ν) (v : SyncView κ ν) (cursor : ℕ) : Except SyncRefusal ℕ :=
  match ownSeqForUpstream d.rows v cursor with
  | .ok own => .ok own
  | .error e => .error (.walGap (s!"cannot map upstream cursor {cursor} into this WAL " ++
      s!"({e.debug}): the span needed for an incremental rejoin is gone"))

def Dir.syncPosition (d : Dir κ ν) (v : SyncView κ ν) (cursor : ℕ) :
    Option Epoch → Except SyncRefusal ℕ
  | none => .ok cursor
  | some theirs =>
    let mine := epochOf d.rows
    if mine < theirs then
      .error (.err (s!"FLINTSYNC this copy's role epoch {theirs.display} is newer than this " ++
        s!"master's {mine.display}, so its cursor {cursor} is not a position on this node's " ++
        "timeline and it is not streamed; a copy demoted above its master is re-seeded, not " ++
        "resumed (BUG-0280)"))
    else if theirs < mine then
      match promoFenceBound d.fences theirs with
      | .bound fence =>
        if fence < cursor then
          .error (.walGap (s!"cursor {cursor} is past the promotion fence {fence} for epoch " ++
            s!"{theirs.display}: that span was never on this timeline"))
        else d.translateCursor v cursor
      | .unfenced =>
        .error (.walGap (s!"promotion fence history for epoch {theirs.display} is incomplete on " ++
          s!"this node: cannot vouch for cursor {cursor}"))
    else .ok cursor

/-- **FLINTSYNC's admission.**  Nothing asks whether this node is a master. -/
def Dir.flintsync (d : Dir κ ν) (v : SyncView κ ν) (cursor : ℕ) (theirs : Option Epoch) :
    SyncReply :=
  match d.syncPosition v cursor theirs with
  | .error why => .refused why
  | .ok cursor =>
    if d.latestSeq < cursor then
      .refused (.err (s!"FLINTSYNC cursor {cursor} is ahead of this master's latest sequence " ++
        s!"{d.latestSeq}: the copy holds writes this node does not, so it is not streamed " ++
        "(BUG-0196)"))
    else
      -- the stream's own question, with a budget of one batch
      match updatesSinceBudgeted v.tail cursor 1 with
      | .error (.walGap why) =>
        .refused (.walGap (s!"cursor {cursor} is no longer reachable from this WAL ({why}): " ++
          s!"full sync required ({v.held})"))
      | _ => .ok cursor (epochOf d.rows)

/-! ## What a visitor finds -/

section Visitor

omit [DecidableEq κ] [RowSpace κ ν]

def reachedIn (ops : List (StoreOp κ ν)) : Option ℕ := ops.foldl cursorRow none

theorem CursorFind.foldl_visit (ops : List (StoreOp κ ν)) (c : CursorFind) :
    ops.foldl CursorFind.visit c = ⟨c.seq + ops.length, ops.foldl cursorRow c.reached⟩ := by
  induction ops generalizing c with
  | nil => rfl
  | cons op ops ih =>
    rw [foldl_cons, ih, foldl_cons, length_cons, visit, Nat.add_assoc, Nat.add_comm 1]

theorem WalBatch.cursorFind_seq (b : WalBatch (StoreKey κ) (StoreVal ν)) :
    b.cursorFind.seq = b.lastSeq := by
  rw [cursorFind, CursorFind.foldl_visit, lastSeq]

theorem cursorRow_of_ne {op : StoreOp κ ν} (h : op.key ≠ .replState) (reached : Option ℕ) :
    cursorRow reached op = reached := by
  cases op with
  | delete k => rfl
  | put k v => cases k <;> first | rfl | exact absurd rfl h

theorem reachedIn_of_untouched {ops : List (StoreOp κ ν)} (h : ∀ op ∈ ops, op.key ≠ .replState) :
    reachedIn ops = none := by
  rw [reachedIn]
  induction ops with
  | nil => rfl
  | cons op ops ih =>
    rw [foldl_cons, cursorRow_of_ne (h op mem_cons_self),
      ih fun op' hop' => h op' (mem_cons_of_mem _ hop')]

theorem reachedIn_append_cursor (ops : List (StoreOp κ ν)) (n : ℕ) :
    reachedIn (ops ++ [.put .replState (.seq n)]) = some n := by
  rw [reachedIn, foldl_append]
  rfl

end Visitor

/-! ## Crossings -/

variable {target : ℕ} {l : List (WalBatch (StoreKey κ) (StoreVal ν))}

section Crossings

omit [DecidableEq κ] [RowSpace κ ν]

/-- **The crossings of a number**: the batches whose cursor row has reached it while the one before,
`last` at the start, had not. -/
def crossings (target : ℕ) :
    Option ℕ → List (WalBatch (StoreKey κ) (StoreVal ν)) → List (WalBatch (StoreKey κ) (StoreVal ν))
  | _, [] => []
  | last, w :: ws =>
    match w.cursorFind.reached with
    | none => crossings target last ws
    | some reached =>
      if target ≤ reached ∧ last.all (· < target) then w :: crossings target (some reached) ws
      else crossings target (some reached) ws

section

variable (target : ℕ) (last : Option ℕ)

theorem crossings_sublist
    (ws : List (WalBatch (StoreKey κ) (StoreVal ν))) : (crossings target last ws).Sublist ws := by
  induction ws generalizing last with
  | nil => exact slnil
  | cons w ws ih =>
    rw [crossings]
    split
    · exact (ih _).cons _
    · split
      · exact (ih _).cons_cons _
      · exact (ih _).cons _

theorem exists_crossings_subset (pre ws : List (WalBatch (StoreKey κ) (StoreVal ν))) :
    ∃ last', crossings target last' ws ⊆ crossings target last (pre ++ ws) := by
  induction pre generalizing last with
  | nil => exact ⟨last, List.Subset.refl _⟩
  | cons w pre ih =>
    rw [cons_append, crossings]
    split
    · exact ih _
    obtain ⟨last', hsub⟩ := ih (some _)
    refine ⟨last', List.Subset.trans hsub ?_⟩
    split
    · exact subset_cons_self _ _
    · exact List.Subset.refl _

theorem crossings_subset_append (ws post : List (WalBatch (StoreKey κ) (StoreVal ν))) :
    crossings target last ws ⊆ crossings target last (ws ++ post) := by
  induction ws generalizing last with
  | nil => exact nil_subset _
  | cons w ws ih =>
    rw [cons_append, crossings, crossings]
    split
    · exact ih _
    · split
      · exact cons_subset_cons _ (ih _)
      · exact ih _

end

/-- **A walk answers with a crossing**: a trusted start has seen nothing at or above the target, an
untrusted one has to see a smaller cursor row first. -/
theorem scanIter_eq_found (last : Option ℕ) {checked : Bool} {own : ℕ}
    (hstart : checked → last.all (· < target))
    (h : scanIter target checked (l.map .ok) = .ok (.found own)) :
    ∃ w ∈ crossings target last l, own = w.lastSeq := by
  induction l generalizing last checked with
  | nil => cases h
  | cons b l ih =>
    rw [map_cons, scanIter] at h
    rw [crossings]
    cases hreached : b.cursorFind.reached with
    | none =>
      simp only [hreached] at h ⊢
      exact ih last hstart h
    | some reached =>
      simp only [hreached] at h ⊢
      by_cases hle : target ≤ reached
      · cases checked with
        | false => simp [hle] at h
        | true =>
          have hown : b.cursorFind.seq = own := by simpa [hle] using h
          rw [if_pos ⟨hle, hstart rfl⟩]
          exact ⟨b, mem_cons_self, hown ▸ b.cursorFind_seq⟩
      · rw [if_neg fun hc => hle hc.1]
        simp only [hle, decide_false, Bool.and_false, Bool.false_eq_true, if_false] at h
        exact ih (some reached) (fun _ => by simpa using hle) h

end Crossings

/-- **A view of an engine that keeps its word**: it retains batches of the directory's log, an
iterator yields a stretch of them, and the one from `0` an initial stretch. -/
structure SyncView.KeepsWord (v : SyncView κ ν) (d : Dir κ ν) : Prop where
  retained : v.retained.Sublist d.wal
  fromZero : ∀ n it, v.updatesSince 0 n = .ok it → ∃ l, l <+: v.retained ∧ it = l.map .ok
  since : ∀ start n it, v.updatesSince start n = .ok it → ∃ l, l <:+: v.retained ∧ it = l.map .ok

/-- The view of an engine that still retains every batch, when the tail is asked from `own`. -/
def SyncView.retaining (d : Dir κ ν) (own : ℕ) : SyncView κ ν where
  retained := d.wal
  updatesSince start _ :=
    .ok ((if start = 0 then d.wal else d.wal.dropWhile fun w => w.lastSeq ≤ start).map .ok)
  tail _ := .retaining d.wal d.latestSeq own
  held := ""

omit [DecidableEq κ] [RowSpace κ ν] in
theorem SyncView.keepsWord_retaining (d : Dir κ ν) (own : ℕ) : (retaining d own).KeepsWord d := by
  refine ⟨refl _, fun n it hit => ⟨d.wal, prefix_rfl, ?_⟩,
    fun start n it hit => ⟨_, ?_, (ok.inj hit).symm⟩⟩
  · exact (ok.inj hit).symm
  · split
    · exact infix_rfl
    · exact (dropWhile_suffix _).isInfix

variable {v : SyncView κ ν} {d : Dir κ ν}

section Translation

omit [DecidableEq κ] [RowSpace κ ν]

variable {target own : ℕ}

theorem SyncView.KeepsWord.scanAll_eq_ok (hv : v.KeepsWord d) (h : v.scanAll target = .ok own) :
    ∃ w ∈ crossings target none v.retained, own = w.lastSeq := by
  rw [scanAll, scan] at h
  cases hit : retryingWalk (v.updatesSince 0) with
  | error msg => simp [hit] at h
  | ok it =>
    obtain ⟨n, hn⟩ := exists_of_retryingWalk hit
    obtain ⟨l, ⟨post, hpost⟩, rfl⟩ := hv.fromZero n it hn
    simp only [hit] at h
    split at h
    · cases h
    · rename_i own' hfound
      obtain rfl : own' = own := ok.inj h
      obtain ⟨w, hw, hown⟩ := scanIter_eq_found none (fun _ => rfl) hfound
      exact ⟨w, hpost ▸ crossings_subset_append target none l post hw, hown⟩
    · cases h

variable {rows : StoreRows κ ν}

theorem SyncView.KeepsWord.ownSeqForUpstream_eq_ok (hv : v.KeepsWord d)
    (h : ownSeqForUpstream rows v target = .ok own) :
    ∃ w ∈ crossings target none v.retained, own = w.lastSeq := by
  rw [ownSeqForUpstream] at h
  split at h
  · cases hscan : v.scan target (upidxHint rows target) true with
    | error e => simp [hscan] at h
    | ok outcome =>
      cases outcome with
      | found own' =>
        simp only [hscan, ok.injEq] at h
        subst h
        rw [scan] at hscan
        cases hit : retryingWalk (v.updatesSince (upidxHint rows target)) with
        | error msg => simp [hit] at hscan
        | ok it =>
          obtain ⟨n, hn⟩ := exists_of_retryingWalk hit
          obtain ⟨l, ⟨pre, post, hl⟩, rfl⟩ := hv.since _ n it hn
          simp only [hit, Bool.not_true] at hscan
          obtain ⟨last, hsub⟩ := exists_crossings_subset target none pre (l ++ post)
          obtain ⟨w, hw, hown⟩ := scanIter_eq_found last (by simp) hscan
          refine ⟨w, ?_, hown⟩
          rw [← hl, append_assoc]
          exact hsub (crossings_subset_append target last l post hw)
      | _ =>
        simp only [hscan] at h
        exact hv.scanAll_eq_ok h
  · exact hv.scanAll_eq_ok h

end Translation

/-! ## The index as a hint -/

section Hint

omit [DecidableEq κ] [RowSpace κ ν]

/-- The cursor rows of a stretch of the log, as far as each batch takes the cursor. -/
def cursorsOf (l : List (WalBatch (StoreKey κ) (StoreVal ν))) : List ℕ :=
  l.filterMap fun b => b.cursorFind.reached

def WalBatch.reaches (target : ℕ) (b : WalBatch (StoreKey κ) (StoreVal ν)) : Bool :=
  b.cursorFind.reached.any (target ≤ ·)

theorem scanIter_checked (l : List (WalBatch (StoreKey κ) (StoreVal ν))) :
    scanIter target true (l.map .ok) =
      .ok ((l.find? (WalBatch.reaches target)).elim .exhausted fun b =>
          .found b.cursorFind.seq) := by
  induction l with
  | nil => rfl
  | cons b l ih =>
    rw [map_cons, scanIter, find?_cons]
    cases hreached : b.cursorFind.reached with
    | none => simpa [WalBatch.reaches, hreached] using ih
    | some n =>
      by_cases hle : target ≤ n
      · simp [WalBatch.reaches, hreached, hle]
      · simpa [WalBatch.reaches, hreached, hle] using ih

theorem scanIter_unchecked (l : List (WalBatch (StoreKey κ) (StoreVal ν))) :
    scanIter target false (l.map .ok) = (cursorsOf l).head?.elim (.ok .exhausted) fun n =>
      if target ≤ n then .ok .startedTooLate else scanIter target true (l.map .ok) := by
  induction l with
  | nil => rfl
  | cons b l ih =>
    rw [map_cons, scanIter, cursorsOf, filterMap_cons, scanIter]
    cases hreached : b.cursorFind.reached with
    | none => exact ih
    | some n =>
      by_cases hle : target ≤ n
      · simp [hle]
      · simp [hle]

theorem exists_mem_cursorsOf (l : List (WalBatch (StoreKey κ) (StoreVal ν))) :
    (∃ n ∈ cursorsOf l, target ≤ n) ↔ ∃ b ∈ l, b.reaches target = true := by
  simp only [cursorsOf, mem_filterMap, WalBatch.reaches, Option.any_eq_true, decide_eq_true_eq]
  constructor
  · rintro ⟨n, ⟨b, hb, hn⟩, hle⟩
    exact ⟨b, hb, n, hn, hle⟩
  · rintro ⟨b, hb, n, hn, hle⟩
    exact ⟨n, ⟨b, hb, hn⟩, hle⟩

/-- **A start is safe**: the first cursor row past it is not below the target, or none past it
reaches the target, or none before it does. -/
def SafeStart (target : ℕ) (pre late : List (WalBatch (StoreKey κ) (StoreVal ν))) : Prop :=
  (cursorsOf late).head?.any (· < target) = true → (∃ n ∈ cursorsOf late, target ≤ n) →
    ∀ n ∈ cursorsOf pre, n < target

variable {v : SyncView κ ν} {pre late : List (WalBatch (StoreKey κ) (StoreVal ν))}

theorem scan_hint_cases (target : ℕ)
    (hhint : retryingWalk (v.updatesSince hint) = .ok (late.map .ok)) :
    (∃ b ∈ late, v.scan target hint true = .ok (.found b.cursorFind.seq) ∧
        late.find? (WalBatch.reaches target) = some b ∧
        (cursorsOf late).head?.any (· < target) = true) ∨
      (∃ outcome, v.scan target hint true = .ok outcome ∧ ∀ own, outcome ≠ .found own) ∧
        ¬ ((cursorsOf late).head?.any (· < target) = true ∧ ∃ n ∈ cursorsOf late, target ≤ n) := by
  have hscan : v.scan target hint true = scanIter target false (late.map .ok) := by
    rw [SyncView.scan, hhint]
    rfl
  rw [hscan, scanIter_unchecked, exists_mem_cursorsOf]
  cases (cursorsOf late).head? with
  | none => exact .inr ⟨⟨_, rfl, nofun⟩, by simp⟩
  | some n =>
    by_cases hle : target ≤ n
    · exact .inr ⟨⟨_, if_pos hle, nofun⟩, by simp [hle]⟩
    simp only [Option.elim_some, if_neg hle, scanIter_checked]
    cases hfind : late.find? (WalBatch.reaches target) with
    | none =>
      refine .inr ⟨⟨_, rfl, nofun⟩, fun h => ?_⟩
      obtain ⟨b, hb, hreaches⟩ := h.2
      exact find?_eq_none.mp hfind b hb hreaches
    | some b => exact .inl ⟨b, mem_of_find?_eq_some hfind, rfl, rfl, by simpa using hle⟩

theorem scanAll_eq (hzero : retryingWalk (v.updatesSince 0) = .ok (l.map .ok)) :
    v.scanAll target = (l.find? (WalBatch.reaches target)).elim (.error (.walGap
      s!"no apply batch reaching upstream seq {target} is retained in this WAL"))
      fun b => .ok b.cursorFind.seq := by
  rw [SyncView.scanAll, SyncView.scan, hzero]
  simp only [Bool.not_false, scanIter_checked]
  cases l.find? (WalBatch.reaches target) with
  | none => rfl
  | some b => rfl

/-- **The index is only a hint exactly if the start it gives opens and is safe**, in a log whose
batches are numbered in order: a walk from a start is the walk from `0` without what is before. -/
theorem ownSeqForUpstream_eq_scanAll
    (hzero : retryingWalk (v.updatesSince 0) = .ok ((pre ++ late).map .ok))
    (hhint : retryingWalk (v.updatesSince (upidxHint rows target)) = .ok (late.map .ok) ∨
      ∃ msg, retryingWalk (v.updatesSince (upidxHint rows target)) = .error msg ∧
        msg ≠ s!"no apply batch reaching upstream seq {target} is retained in this WAL")
    (hseqs : (pre ++ late).Pairwise fun b b' => b.cursorFind.seq < b'.cursorFind.seq) :
    ownSeqForUpstream rows v target = v.scanAll target ↔ (0 < upidxHint rows target →
      retryingWalk (v.updatesSince (upidxHint rows target)) = .ok (late.map .ok) ∧
        SafeStart target pre late) := by
  rw [ownSeqForUpstream]
  split
  swap
  · next hnone => exact iff_of_true rfl fun hpos => absurd hpos hnone
  next hpos =>
  rw [forall_prop_of_true hpos]
  obtain hopen | ⟨msg, hfails, hmsg⟩ := hhint
  · rw [and_iff_right hopen]
    obtain ⟨b, hb, hscan, hfind, hbelow⟩ | ⟨⟨outcome, hscan, hother⟩, hnot⟩ :=
      scan_hint_cases target hopen
    · have hreach : ∃ n ∈ cursorsOf late, target ≤ n :=
        (exists_mem_cursorsOf late).mpr ⟨b, hb, find?_some hfind⟩
      simp only [hscan, scanAll_eq hzero, find?_append, hfind]
      rw [SafeStart, forall_prop_of_true hbelow, forall_prop_of_true hreach]
      cases hbefore : pre.find? (WalBatch.reaches target) with
      | none =>
        refine iff_of_true rfl fun n hn => not_le.mp fun hle => ?_
        obtain ⟨b', hb', hreaches⟩ := (exists_mem_cursorsOf pre).mp ⟨n, hn, hle⟩
        exact find?_eq_none.mp hbefore b' hb' hreaches
      | some b' =>
        have hb' := mem_of_find?_eq_some hbefore
        have hlt := (pairwise_append.mp hseqs).2.2 b' hb' b hb
        refine iff_of_false (fun heq => hlt.ne' (ok.inj heq)) fun hall => ?_
        obtain ⟨n, hn, hle⟩ := (exists_mem_cursorsOf pre).mpr ⟨b', hb', find?_some hbefore⟩
        exact (hall n hn).not_ge hle
    · refine iff_of_true ?_ fun hbelow hreach => absurd ⟨hbelow, hreach⟩ hnot
      simp only [hscan]
  · refine iff_of_false (fun heq => ?_) fun hopen => ?_
    · have hscan : v.scan target (upidxHint rows target) true = .error (.walGap msg) := by
        rw [SyncView.scan, hfails]
      simp only [hscan, scanAll_eq hzero] at heq
      cases hfind : (pre ++ late).find? (WalBatch.reaches target) with
      | none =>
        rw [hfind] at heq
        exact hmsg (ReplError.walGap.inj (error.inj heq))
      | some b => simp [hfind] at heq
    · have hboth := hfails.symm.trans hopen.1
      cases hboth

end Hint

/-- A directory put on one cursor after the other, with one entry of the index. -/
def adopted (cursors : List ℕ) (own : ℕ) : Dir Unit Unit :=
  ⟨cursors.map (fun n => [.put .replState (.seq n)]) ++ [[.put (.replUpidx 3) (.seq own)]], 0⟩

theorem ownSeqForUpstream_adopted : upidxHint (adopted [3, 5, 9] 1).rows 8 = 1 ∧
    ownSeqForUpstream (adopted [3, 5, 9] 1).rows (.retaining (adopted [3, 5, 9] 1) 0) 8 =
        .ok 3 := by
  refine ⟨by decide, ?_⟩
  have hsafe : SafeStart 8 ((adopted [3, 5, 9] 1).wal.take 1) ((adopted [3, 5, 9] 1).wal.drop 1) :=
    fun _ _ => by decide
  rw [(ownSeqForUpstream_eq_scanAll rfl (.inl rfl) (by decide)).mpr fun _ => ⟨rfl, hsafe⟩]
  rfl

/-- A view on which no walk opens but the one from `0`. -/
def SyncView.onlyFromZero (d : Dir Unit Unit) (why : String) : SyncView Unit Unit :=
  { SyncView.retaining d 0 with
    updatesSince := fun start _ => if start = 0 then .ok (d.wal.map .ok) else .error why }

/-- **A hint changes the answer** after a cursor moved back, and where it points past the log. -/
theorem hint_changes_answer : ((SyncView.retaining (adopted [10, 3, 5, 9] 2) 0).scanAll 8 = .ok 1 ∧
      ownSeqForUpstream (adopted [10, 3, 5, 9] 2).rows (.retaining (adopted [10, 3, 5, 9] 2) 0) 8 =
        .ok 4) ∧
    (SyncView.onlyFromZero (adopted [3, 5, 9] 99) "not yet written").scanAll 8 = .ok 3 ∧
      ownSeqForUpstream (adopted [3, 5, 9] 99).rows
          (.onlyFromZero (adopted [3, 5, 9] 99) "not yet written") 8 =
        .error (.walGap "not yet written") :=
  ⟨⟨rfl, rfl⟩, rfl, by decide +kernel⟩

/-! ## What an answer tells -/

open SyncReply

namespace Dir

omit [RowSpace κ ν]

variable {cursor own : ℕ} {theirs epoch : Epoch}

/-- **A position that is settled on** is the presented cursor of this node's own epoch, or the
translation of one of an older epoch that the fence lets pass. -/
theorem syncPosition_eq_ok (h : d.syncPosition v cursor (some theirs) = .ok own) :
    (theirs = epochOf d.rows ∧ own = cursor) ∨ (theirs < epochOf d.rows ∧
      (∃ fence, promoFenceBound d.fences theirs = .bound fence ∧ cursor ≤ fence) ∧
      ownSeqForUpstream d.rows v cursor = .ok own) := by
  rw [syncPosition] at h
  split at h
  · cases h
  rename_i hnewer
  split at h
  · rename_i holder
    split at h
    · rename_i fence hfence
      split at h
      · cases h
      rename_i hpast
      rw [translateCursor] at h
      split at h
      · rename_i own' hown
        obtain rfl : own' = own := ok.inj h
        exact .inr ⟨holder, ⟨fence, hfence, not_lt.mp hpast⟩, hown⟩
      · cases h
    · cases h
  · next holder => exact .inl ⟨le_antisymm (not_lt.mp hnewer) (not_lt.mp holder), (ok.inj h).symm⟩

variable {why : String}

theorem syncPosition_eq_err
    (h : d.syncPosition v cursor (some theirs) = .error (.err why)) : epochOf d.rows < theirs := by
  rw [syncPosition] at h
  split at h
  · next hnewer => exact hnewer
  split at h
  · split at h
    · split at h
      · cases h
      · rw [translateCursor] at h
        split at h <;> cases h
    · cases h
  · cases h

variable [RowSpace κ ν]

theorem flintsync_eq_ok {presented : Option Epoch}
    (h : d.flintsync v cursor presented = .ok own epoch) :
    d.syncPosition v cursor presented = .ok own ∧ own ≤ d.latestSeq ∧ epoch = epochOf d.rows := by
  rw [flintsync] at h
  split at h
  · cases h
  rename_i pos hpos
  split at h
  · cases h
  rename_i hahead
  split at h
  · cases h
  · obtain ⟨rfl, rfl⟩ := ok.inj h
    exact ⟨hpos, not_lt.mp hahead, rfl⟩

theorem flintsync_eq_err
    (h : d.flintsync v cursor (some theirs) = .refused (.err why)) : epochOf d.rows < theirs ∨
      ∃ own, d.syncPosition v cursor (some theirs) = .ok own ∧ d.latestSeq < own := by
  rw [flintsync] at h
  split at h
  · rename_i refusal hpos
    obtain rfl : refusal = .err why := refused.inj h
    exact .inl (syncPosition_eq_err hpos)
  rename_i pos hpos
  split at h
  · next hahead => exact .inr ⟨pos, hpos, hahead⟩
  · split at h <;> cases h

end Dir

end

end Flint
