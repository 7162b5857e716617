import FlintCache.Lib.Machine
import FlintCache.Server.Script

/-!
# Server/WriteQueue — the asynchronous write queue and the writes beside it

A connection that has opted in hands a batchable write to a bounded channel and waits for its reply.
One consumer runs the channel's jobs on one overlay, commits it as one batch under the lock over
every writer, and sends the replies.  A submitter that gives up is told to back off while its job
stays in the channel.
-/

namespace Flint

open List Option
open Nat (lt_succ_self)

variable {ρ : Type}

/-! ## Jobs on an overlay -/

/-- A write on its way: its number, its connection, and what it does. -/
structure QueueJob (ρ : Type) where
  id : ℕ
  conn : ℕ
  cmd : RowCommand ρ

/-- A write that was run, with the reply it had. -/
structure AppliedWrite (ρ : Type) where
  id : ℕ
  conn : ℕ
  cmd : RowCommand ρ
  queued : Bool
  reply : ρ

def runJobs (under : RowReader Bytes Bytes Scan) :
    List (QueueJob ρ) → KvOps → List (AppliedWrite ρ) × KvOps
  | [], buf => ([], buf)
  | job :: jobs, buf =>
    let out := job.cmd.prog.run (RowKv.batching scans under) buf
    let rest := runJobs under jobs out.2
    (⟨job.id, job.conn, job.cmd, true, out.1⟩ :: rest.1, rest.2)

/-- **Writes run one at a time**, each with the reply it has there. -/
def Sequential : KvRows → List (AppliedWrite ρ) → KvRows → Prop
  | s, [], t => s = t
  | s, w :: log, t => (w.cmd.prog.run (RowKv.plain scans) s).1 = w.reply ∧
      Sequential (w.cmd.exec s) log t

theorem Sequential.append {s t u : KvRows} {log log' : List (AppliedWrite ρ)}
    (h : Sequential s log t) (h' : Sequential t log' u) : Sequential s (log ++ log') u := by
  induction log generalizing s with
  | nil =>
    obtain rfl : s = t := h
    exact h'
  | cons w log ih => exact ⟨h.1, ih h.2⟩

theorem sequential_runJobs (s : KvRows) (jobs : List (QueueJob ρ)) (buf : KvOps) :
    Sequential (s.merge buf) (runJobs (scans.reader s) jobs buf).1
      (s.merge (runJobs (scans.reader s) jobs buf).2) := by
  induction jobs generalizing buf with
  | nil => rfl
  | cons job jobs ih =>
    obtain ⟨hreply, hrows⟩ :=
      (RowKv.simulates_batching (S := scans) s).run job.cmd.prog (s := buf) rfl
    have hrest := ih (job.cmd.prog.run (RowKv.batching scans (scans.reader s)) buf).2
    rw [hrows] at hrest
    exact ⟨hreply.symm, hrest⟩

theorem map_runJobs (under : RowReader Bytes Bytes Scan) (jobs : List (QueueJob ρ)) (buf : KvOps) :
    (runJobs under jobs buf).1.map (fun w => (w.id, w.conn, w.queued)) =
      jobs.map fun job => (job.id, job.conn, true) := by
  induction jobs generalizing buf with
  | nil => rfl
  | cons job jobs ih => exact congrArg _ (ih _)

/-! ## The queue -/

/-- What a writer is told. -/
inductive WriteAnswer (ρ : Type)
  | reply (r : ρ)
  | throttled
  | failed

/-- The queue, the consumer, the connections that wait, and what has happened. -/
structure WriteQueue (ρ : Type) where
  store : KvRows
  hardCap : ℕ
  softCap : ℕ
  depth : ℕ
  channel : List (QueueJob ρ)
  hand : List (QueueJob ρ)
  replies : List (ℕ × ℕ × WriteAnswer ρ)
  /-- The connections in `submit`, and the write each waits for. -/
  waiting : List (ℕ × ℕ)
  next : ℕ
  log : List (AppliedWrite ρ)
  answers : List (ℕ × WriteAnswer ρ)

/-- One step of a writer or of the consumer. -/
inductive QueueEvent (ρ : Type)
  | submit (c : ℕ) (cmd : RowCommand ρ)
  | write (c : ℕ) (cmd : RowCommand ρ)
  | setSoftCap (n : ℕ)
  | drain (n : ℕ)
  | commit (ok : Bool)
  | send
  | timeout (c : ℕ)

def batchMax : ℕ := 256

namespace WriteQueue

def waits (q : WriteQueue ρ) (c : ℕ) : Bool := q.waiting.any fun w => w.1 == c

def answered (q : WriteQueue ρ) (a : WriteAnswer ρ) : WriteQueue ρ :=
  { q with next := q.next + 1, answers := q.answers ++ [(q.next, a)] }

def submit (q : WriteQueue ρ) (c : ℕ) (cmd : RowCommand ρ) : WriteQueue ρ :=
  if q.softCap ≤ q.depth then q.answered .throttled
  else if q.hardCap ≤ q.channel.length then q.answered .throttled
  else
    { q with
      depth := q.depth + 1
      next := q.next + 1
      channel := q.channel ++ [⟨q.next, c, cmd⟩]
      waiting := q.waiting ++ [(c, q.next)] }

def write (q : WriteQueue ρ) (c : ℕ) (cmd : RowCommand ρ) : WriteQueue ρ :=
  let reply := (cmd.prog.run (RowKv.plain scans) q.store).1
  { q.answered (.reply reply) with
    store := cmd.exec q.store
    log := q.log ++ [⟨q.next, c, cmd, false, reply⟩] }

def commit (q : WriteQueue ρ) (ok : Bool) : WriteQueue ρ :=
  if ok then
    let out := runJobs (scans.reader q.store) q.hand .empty
    { q with
      store := q.store.merge out.2
      log := q.log ++ out.1
      replies := q.replies ++ out.1.map fun w => (w.conn, w.id, .reply w.reply)
      hand := [] }
  else
    { q with
      replies := q.replies ++ q.hand.map (fun job => (job.conn, job.id, .failed))
      hand := [] }

def deliver (q : WriteQueue ρ) (c i : ℕ) (a : WriteAnswer ρ) : WriteQueue ρ :=
  if q.waiting.contains (c, i) then
    { q with waiting := q.waiting.filter (· != (c, i)), answers := q.answers ++ [(i, a)] }
  else q

def step (q : WriteQueue ρ) : QueueEvent ρ → Option (WriteQueue ρ)
  | .submit c cmd => if q.waits c then none else some (q.submit c cmd)
  | .write c cmd => if q.waits c then none else some (q.write c cmd)
  | .setSoftCap n => if n = 0 ∨ q.hardCap < n then none else some { q with softCap := n }
  | .drain n =>
    if q.hand.isEmpty && q.replies.isEmpty && 0 < n && n ≤ batchMax && n ≤ q.channel.length then
      some { q with hand := q.channel.take n, channel := q.channel.drop n, depth := q.depth - n }
    else none
  | .commit ok => if q.hand.isEmpty then none else some (q.commit ok)
  | .send =>
    match q.replies with
    | [] => none
    | (c, i, a) :: replies => some (deliver { q with replies := replies } c i a)
  | .timeout c =>
    match q.waiting.find? fun w => w.1 == c with
    | none => none
    | some (c, i) =>
      some { q with
        waiting := q.waiting.filter (· != (c, i)), answers := q.answers ++ [(i, .throttled)] }

def pending (q : WriteQueue ρ) : List (QueueJob ρ) := q.hand ++ q.channel

end WriteQueue

def writeQueue (s₀ : KvRows) : Machine (WriteQueue ρ) (QueueEvent ρ) where
  init q := ∃ hard soft, q = ⟨s₀, hard, soft, 0, [], [], [], [], 0, [], []⟩
  step := WriteQueue.step

/-- **A schedule on which a wait runs out late**: only once the batch of the write waited for has
failed, its answer not yet sent. -/
def patient (q : WriteQueue ρ) : QueueEvent ρ → Prop
  | .timeout c => ∀ i, (c, i) ∈ q.waiting → (c, i, .failed) ∈ q.replies
  | _ => True

/-! ## The fate of a write -/

namespace WriteQueue

variable {s₀ : KvRows} {q : WriteQueue ρ}

def Tells (q : WriteQueue ρ) (i : ℕ) : WriteAnswer ρ → Prop
  | .reply r => ∃ w ∈ q.log, w.id = i ∧ w.reply = r
  | _ => (∀ w ∈ q.log, w.id ≠ i) ∧ ∀ job ∈ q.pending, job.id ≠ i

/-- A write that took effect before another: it is another write, an earlier one of the same
connection, an earlier one of the queue. -/
def Before (w w' : AppliedWrite ρ) : Prop :=
  w.id ≠ w'.id ∧ (w.conn = w'.conn → w.id < w'.id) ∧
      (w.queued = true → w'.queued = true → w.id < w'.id)

structure Sound (s₀ : KvRows) (q : WriteQueue ρ) : Prop where
  sequential : Sequential s₀ q.log q.store
  ordered : q.log.Pairwise Before
  ascends : q.pending.Pairwise fun a b => a.id < b.id
  later : ∀ job ∈ q.pending, ∀ w ∈ q.log,
    w.id ≠ job.id ∧ (w.conn = job.conn → w.id < job.id) ∧ (w.queued = true → w.id < job.id)
  awaited : ∀ job ∈ q.pending, (job.conn, job.id) ∈ q.waiting
  one : ∀ c i j, (c, i) ∈ q.waiting → (c, j) ∈ q.waiting → i = j
  replied : ∀ x ∈ q.replies, q.Tells x.2.1 x.2.2
  told : ∀ x ∈ q.answers, q.Tells x.1 x.2
  log_lt : ∀ w ∈ q.log, w.id < q.next
  pending_lt : ∀ job ∈ q.pending, job.id < q.next
  replies_lt : ∀ x ∈ q.replies, x.2.1 < q.next
  answers_lt : ∀ x ∈ q.answers, x.1 < q.next
  waiting_lt : ∀ x ∈ q.waiting, x.2 < q.next

variable {a : WriteAnswer ρ}

theorem Tells.mono {q q' : WriteQueue ρ} {i : ℕ} (h : q.Tells i a)
    (hlog : ∀ w ∈ q.log, w ∈ q'.log) (hnew : ∀ w ∈ q'.log, w ∈ q.log ∨ w.id ≠ i)
    (hpending : ∀ job ∈ q'.pending, job ∈ q.pending ∨ job.id ≠ i) : q'.Tells i a := by
  cases a with
  | reply r =>
    obtain ⟨w, hw, hi, hr⟩ := h
    exact ⟨w, hlog w hw, hi, hr⟩
  | _ =>
    exact ⟨fun w hw => (hnew w hw).elim (h.1 w) id, fun job hjob =>
        (hpending job hjob).elim (h.2 job) id⟩

variable {c : ℕ}

theorem not_mem_waiting (h : ¬ q.waits c) (i : ℕ) : (c, i) ∉ q.waiting := fun hi =>
  h (any_eq_true.mpr ⟨(c, i), hi, by simp⟩)

namespace Sound

variable (hq : q.Sound s₀)
include hq

theorem tells_next (ha : a = .throttled ∨ a = .failed) : q.Tells q.next a := by
  have hlog : ∀ w ∈ q.log, w.id ≠ q.next := fun w hw => (hq.log_lt w hw).ne
  have hpending : ∀ job ∈ q.pending, job.id ≠ q.next := fun job hjob => (hq.pending_lt job hjob).ne
  obtain rfl | rfl := ha
  · exact ⟨hlog, hpending⟩
  · exact ⟨hlog, hpending⟩

theorem throttle : (q.answered .throttled).Sound s₀ where
  __ := hq
  told x hx := of_mem_snoc hx (hq.told x) (hq.tells_next (.inl rfl))
  log_lt w hw := (hq.log_lt w hw).trans (lt_succ_self _)
  pending_lt job hjob := (hq.pending_lt job hjob).trans (lt_succ_self _)
  replies_lt x hx := (hq.replies_lt x hx).trans (lt_succ_self _)
  answers_lt x hx := by
    exact of_mem_snoc hx (fun hx => (hq.answers_lt x hx).trans (lt_succ_self _))
      (lt_succ_self _)
  waiting_lt x hx := (hq.waiting_lt x hx).trans (lt_succ_self _)

theorem enqueue (hc : ¬ q.waits c) (cmd : RowCommand ρ) : Sound s₀ { q with
      depth := q.depth + 1
      next := q.next + 1
      channel := q.channel ++ [⟨q.next, c, cmd⟩]
      waiting := q.waiting ++ [(c, q.next)] } := by
  have hpending : ∀ job ∈ q.hand ++ (q.channel ++ [⟨q.next, c, cmd⟩]),
      job ∈ q.pending ∨ job = ⟨q.next, c, cmd⟩ := fun job hjob => by
    rw [← append_assoc] at hjob
    obtain hjob | hjob := mem_append.mp hjob
    · exact .inl hjob
    · exact .inr (mem_singleton.mp hjob)
  -- Nothing that has been said is about the new write.
  have htells : ∀ {i : ℕ} {a : WriteAnswer ρ}, i < q.next → q.Tells i a →
      Tells { q with
        depth := q.depth + 1
        next := q.next + 1
        channel := q.channel ++ [⟨q.next, c, cmd⟩]
        waiting := q.waiting ++ [(c, q.next)] } i a := fun hi h => by
    refine h.mono (fun _ => id) (fun w hw => .inl hw) fun job hjob => ?_
    obtain hjob | rfl := hpending job hjob
    · exact .inl hjob
    · exact .inr hi.ne'
  refine ⟨hq.sequential, hq.ordered, ?_, fun job hjob w hw => ?_, fun job hjob => ?_,
    fun d i j hi hj => ?_, fun x hx => htells (hq.replies_lt x hx) (hq.replied x hx),
    fun x hx => htells (hq.answers_lt x hx) (hq.told x hx),
    fun w hw => (hq.log_lt w hw).trans (lt_succ_self _), fun job hjob => ?_,
    fun x hx => (hq.replies_lt x hx).trans (lt_succ_self _),
    fun x hx => (hq.answers_lt x hx).trans (lt_succ_self _), fun x hx => ?_⟩
  · rw [pending, ← append_assoc]
    refine pairwise_append.mpr ⟨hq.ascends, pairwise_singleton _ _, fun a ha b hb => ?_⟩
    rw [mem_singleton.mp hb]
    exact hq.pending_lt a ha
  · obtain hjob | rfl := hpending job hjob
    · exact hq.later job hjob w hw
    · have hlt := hq.log_lt w hw
      exact ⟨hlt.ne, fun _ => hlt, fun _ => hlt⟩
  · obtain hjob | rfl := hpending job hjob
    · exact mem_append_left _ (hq.awaited job hjob)
    · exact mem_append_right _ mem_cons_self
  · -- The connection was waiting for nothing.
    simp only [mem_append, mem_singleton, Prod.mk.injEq] at hi hj
    obtain hi | ⟨rfl, rfl⟩ := hi
    · obtain hj | ⟨rfl, rfl⟩ := hj
      · exact hq.one d i j hi hj
      · exact absurd hi (not_mem_waiting hc i)
    · obtain hj | ⟨-, rfl⟩ := hj
      · exact absurd hj (not_mem_waiting hc j)
      · rfl
  · obtain hjob | rfl := hpending job hjob
    · exact (hq.pending_lt job hjob).trans (lt_succ_self _)
    · exact lt_succ_self _
  exact of_mem_snoc hx (fun hx => (hq.waiting_lt x hx).trans (lt_succ_self _))
    (lt_succ_self _)

theorem write (hc : ¬ q.waits c) (cmd : RowCommand ρ) : (q.write c cmd).Sound s₀ := by
  have htells : ∀ {i : ℕ} {a : WriteAnswer ρ}, i < q.next → q.Tells i a →
      (q.write c cmd).Tells i a := fun hi h => by
    refine h.mono (fun w hw => mem_append_left _ hw) (fun w hw => ?_) fun job hjob => .inl hjob
    exact of_mem_snoc hw .inl (.inr hi.ne')
  refine ⟨hq.sequential.append ⟨rfl, rfl⟩, ?_, hq.ascends,
      fun job hjob w hw => ?_, hq.awaited, hq.one,
    fun x hx => htells (hq.replies_lt x hx) (hq.replied x hx), fun x hx => ?_, fun w hw => ?_,
    fun job hjob => (hq.pending_lt job hjob).trans (lt_succ_self _),
    fun x hx => (hq.replies_lt x hx).trans (lt_succ_self _), fun x hx => ?_,
    fun x hx => (hq.waiting_lt x hx).trans (lt_succ_self _)⟩
  · refine pairwise_append.mpr ⟨hq.ordered, pairwise_singleton _ _, fun w hw w' hw' => ?_⟩
    rw [mem_singleton.mp hw']
    have hlt := hq.log_lt w hw
    exact ⟨hlt.ne, fun _ => hlt, nofun⟩
  · obtain hw | hw := mem_append.mp hw
    · exact hq.later job hjob w hw
    -- A connection with a job pending is waiting, and writes nothing.
    rw [mem_singleton.mp hw]
    refine ⟨(hq.pending_lt job hjob).ne', fun hconn : c = job.conn => ?_, nofun⟩
    exact absurd (hconn ▸ hq.awaited job hjob) (not_mem_waiting hc job.id)
  · exact of_mem_snoc hx (fun hx => htells (hq.answers_lt x hx) (hq.told x hx))
      ⟨_, mem_append_right _ mem_cons_self, rfl, rfl⟩
  · exact of_mem_snoc hw (fun hw => (hq.log_lt w hw).trans (lt_succ_self _))
      (lt_succ_self _)
  exact of_mem_snoc hx (fun hx => (hq.answers_lt x hx).trans (lt_succ_self _))
    (lt_succ_self _)

end Sound

variable {under : RowReader Bytes Bytes Scan} {jobs : List (QueueJob ρ)}

theorem mem_runJobs {buf : KvOps} {w : AppliedWrite ρ} (hw : w ∈ (runJobs under jobs buf).1) :
    ∃ job ∈ jobs, job.id = w.id ∧ job.conn = w.conn ∧ w.queued := by
  have hmem : (w.id, w.conn, w.queued) ∈ jobs.map fun job => (job.id, job.conn, true) := by
    rw [← map_runJobs under jobs buf]
    exact mem_map.mpr ⟨w, hw, rfl⟩
  obtain ⟨job, hjob, heq⟩ := mem_map.mp hmem
  simp only [Prod.mk.injEq] at heq
  exact ⟨job, hjob, heq.1, heq.2.1, heq.2.2.symm⟩

theorem pairwise_runJobs (hjobs : jobs.Pairwise fun a b => a.id < b.id) (buf : KvOps) :
    (runJobs under jobs buf).1.Pairwise Before := by
  have hids : ((runJobs under jobs buf).1.map fun w => (w.id, w.conn, w.queued)).Pairwise
      fun a b => a.1 < b.1 := by
    rw [map_runJobs]
    exact pairwise_map.mpr hjobs
  exact (pairwise_map.mp hids).imp fun h => ⟨h.ne, fun _ => h, fun _ _ => h⟩

namespace Sound

variable (hq : q.Sound s₀)
include hq

theorem commit_true : (q.commit true).Sound s₀ := by
  obtain ⟨hhand, -, hcross⟩ := pairwise_append.mp hq.ascends
  have hseq := sequential_runJobs q.store q.hand .empty
  rw [SortedRows.merge_empty] at hseq
  have hin : ∀ job ∈ q.channel, job ∈ q.pending := fun job => mem_append_right _
  have hpending : ∀ job ∈ (q.commit true).pending, job ∈ q.channel := fun job hjob => hjob
  have htells : ∀ {i : ℕ} {a : WriteAnswer ρ}, q.Tells i a →
      (q.commit true).Tells i a := fun {i a} h => by
    cases a with
    | reply r =>
      obtain ⟨w, hw, hi, hr⟩ := h
      exact ⟨w, mem_append_left _ hw, hi, hr⟩
    | _ =>
      refine ⟨fun w hw => ?_, fun job hjob => h.2 job (hin job hjob)⟩
      obtain hw | hw := mem_append.mp hw
      · exact h.1 w hw
      · obtain ⟨job, hjob, hid, -⟩ := mem_runJobs hw
        exact hid ▸ h.2 job (mem_append_left _ hjob)
  refine ⟨hq.sequential.append hseq, ?_, (pairwise_append.mp hq.ascends).2.1,
    fun job hjob w hw => ?_, fun job hjob => hq.awaited job (hin job hjob), hq.one, fun x hx => ?_,
    fun x hx => htells (hq.told x hx), fun w hw => ?_,
    fun job hjob => hq.pending_lt job (hin job hjob), fun x hx => ?_, hq.answers_lt, hq.waiting_lt⟩
  · refine pairwise_append.mpr ⟨hq.ordered, pairwise_runJobs hhand _, fun w hw w' hw' => ?_⟩
    obtain ⟨job, hjob, hid, hconn, -⟩ := mem_runJobs hw'
    obtain ⟨hne, hsame, hqueued⟩ := hq.later job (mem_append_left _ hjob) w hw
    rw [hid, hconn] at *
    exact ⟨hne, hsame, fun h _ => hqueued h⟩
  · obtain hw | hw := mem_append.mp hw
    · exact hq.later job (hin job hjob) w hw
    · obtain ⟨job', hjob', hid, -⟩ := mem_runJobs hw
      have hlt : w.id < job.id := hid ▸ hcross job' hjob' job hjob
      exact ⟨hlt.ne, fun _ => hlt, fun _ => hlt⟩
  · obtain hx | hx := mem_append.mp hx
    · exact htells (hq.replied x hx)
    · obtain ⟨w, hw, rfl⟩ := mem_map.mp hx
      exact ⟨w, mem_append_right _ hw, rfl, rfl⟩
  · obtain hw | hw := mem_append.mp hw
    · exact hq.log_lt w hw
    · obtain ⟨job, hjob, hid, -⟩ := mem_runJobs hw
      exact hid ▸ hq.pending_lt job (mem_append_left _ hjob)
  obtain hx | hx := mem_append.mp hx
  · exact hq.replies_lt x hx
  · obtain ⟨w, hw, rfl⟩ := mem_map.mp hx
    obtain ⟨job, hjob, hid, -⟩ := mem_runJobs hw
    exact hid ▸ hq.pending_lt job (mem_append_left _ hjob)

theorem commit_false : (q.commit false).Sound s₀ := by
  obtain ⟨-, hchannel, hcross⟩ := pairwise_append.mp hq.ascends
  have hin : ∀ job ∈ q.channel, job ∈ q.pending := fun job => mem_append_right _
  have htells : ∀ {i : ℕ} {a : WriteAnswer ρ}, q.Tells i a → (q.commit false).Tells i a := fun h =>
    h.mono (fun _ => id) (fun w hw => .inl hw) fun job hjob => .inl (hin job hjob)
  refine ⟨hq.sequential, hq.ordered, hchannel, fun job hjob => hq.later job (hin job hjob),
    fun job hjob => hq.awaited job (hin job hjob), hq.one, fun x hx => ?_,
    fun x hx => htells (hq.told x hx), hq.log_lt, fun job hjob => hq.pending_lt job (hin job hjob),
    fun x hx => ?_, hq.answers_lt, hq.waiting_lt⟩
  · obtain hx | hx := mem_append.mp hx
    · exact htells (hq.replied x hx)
    · obtain ⟨job, hjob, rfl⟩ := mem_map.mp hx
      exact ⟨fun w hw => (hq.later job (mem_append_left _ hjob) w hw).1,
        fun job' hjob' => (hcross job hjob job' hjob').ne'⟩
  obtain hx | hx := mem_append.mp hx
  · exact hq.replies_lt x hx
  · obtain ⟨job, hjob, rfl⟩ := mem_map.mp hx
    exact hq.pending_lt job (mem_append_left _ hjob)

theorem answer {c i : ℕ} (htells : q.Tells i a)
    (hi : i < q.next) (hgone : ∀ job ∈ q.pending, job.id ≠ i) : Sound s₀ { q with
      waiting := q.waiting.filter (· != (c, i)), answers := q.answers ++ [(i, a)] } where
  __ := hq
  awaited job hjob := by
    refine mem_filter.mpr ⟨hq.awaited job hjob, ?_⟩
    simpa using fun _ => hgone job hjob
  one d j k hj hk := hq.one d j k (mem_filter.mp hj).1 (mem_filter.mp hk).1
  told x hx := of_mem_snoc hx (hq.told x) htells
  answers_lt x hx := of_mem_snoc hx (hq.answers_lt x) hi
  waiting_lt x hx := hq.waiting_lt x (mem_filter.mp hx).1

theorem handed {hand channel : List (QueueJob ρ)} {depth : ℕ} (h : hand ++ channel = q.pending) :
    Sound s₀ { q with hand := hand, channel := channel, depth := depth } := by
  have htells : ∀ {i : ℕ} {a : WriteAnswer ρ}, q.Tells i a →
      Tells { q with hand := hand, channel := channel, depth := depth } i a := fun htold =>
    htold.mono (fun _ => id) (fun w hw => .inl hw) fun job hjob => .inl (h ▸ hjob)
  have hascends : (hand ++ channel).Pairwise fun a b => a.id < b.id := h ▸ hq.ascends
  exact
    { hq with
      ascends := hascends
      later := fun job hjob => hq.later job (h ▸ hjob)
      awaited := fun job hjob => hq.awaited job (h ▸ hjob)
      replied := fun x hx => htells (hq.replied x hx)
      told := fun x hx => htells (hq.told x hx)
      pending_lt := fun job hjob => hq.pending_lt job (h ▸ hjob) }

theorem gone {i : ℕ} (h : q.Tells i a) : ∀ job ∈ q.pending, job.id ≠ i := by
  cases a with
  | reply r =>
    obtain ⟨w, hw, rfl, -⟩ := h
    exact fun job hjob => (hq.later job hjob w hw).1.symm
  | _ => exact h.2

theorem step {e : QueueEvent ρ} {q' : WriteQueue ρ} (hok : patient q e)
    (hstep : q.step e = some q') : q'.Sound s₀ := by
  cases e with
  | submit c cmd =>
    obtain ⟨hc, ⟨⟩⟩ := ite_none_left_eq_some.mp hstep
    unfold WriteQueue.submit
    split
    · exact hq.throttle
    · split
      · exact hq.throttle
      · exact hq.enqueue hc cmd
  | write c cmd =>
    obtain ⟨hc, ⟨⟩⟩ := ite_none_left_eq_some.mp hstep
    exact hq.write hc cmd
  | setSoftCap n =>
    obtain ⟨-, ⟨⟩⟩ := ite_none_left_eq_some.mp hstep
    exact { hq with }
  | drain n =>
    obtain ⟨hidle, ⟨⟩⟩ := ite_none_right_eq_some.mp hstep
    simp only [Bool.and_eq_true, List.isEmpty_iff] at hidle
    have hsame : q.channel.take n ++ q.channel.drop n = q.pending := by
      rw [take_append_drop, pending, hidle.1.1.1.1, nil_append]
    exact hq.handed hsame
  | commit ok =>
    obtain ⟨-, ⟨⟩⟩ := ite_none_left_eq_some.mp hstep
    cases ok with
    | true => exact hq.commit_true
    | false => exact hq.commit_false
  | send =>
    unfold WriteQueue.step at hstep
    cases hreplies : q.replies with
    | nil =>
      rw [hreplies] at hstep
      cases hstep
    | cons x replies =>
      obtain ⟨c, i, a⟩ := x
      rw [hreplies] at hstep
      cases hstep
      have hfirst : q.Tells i a := hq.replied (c, i, a) (hreplies ▸ mem_cons_self)
      have hlt : i < q.next := hq.replies_lt (c, i, a) (hreplies ▸ mem_cons_self)
      have hrest : Sound s₀ { q with replies := replies } :=
        { hq with
          replied := fun x hx => hq.replied x (hreplies ▸ mem_cons_of_mem _ hx)
          replies_lt := fun x hx => hq.replies_lt x (hreplies ▸ mem_cons_of_mem _ hx) }
      unfold deliver
      split
      · exact hrest.answer hfirst hlt (hq.gone hfirst)
      · exact hrest
  | timeout c =>
    simp only [WriteQueue.step] at hstep
    split at hstep
    · cases hstep
    rename_i d i hfind
    cases hstep
    have hmem := mem_of_find?_eq_some hfind
    obtain rfl : d = c := by simpa using find?_some hfind
    -- The batch failed: the write is neither in the log nor on its way.
    have hfailed : q.Tells i .failed := hq.replied (d, i, .failed) (hok i hmem)
    exact hq.answer (a := .throttled) hfailed (hq.waiting_lt _ hmem) hfailed.2

end Sound

end WriteQueue

/-- **Queued writes are applied once, in order, or not at all**, where a wait runs out only after
the batch has failed.  The writes that took effect are a run of their commands one at a time, each
once, a connection's in the order sent and the queue's in the order entered; a reply is that of a
write that took effect; and a write answered otherwise has not and is not on its way. -/
theorem queued_writes_exact {s₀ : KvRows} {q : WriteQueue ρ} (h : (writeQueue s₀).Reach patient q) :
    Sequential s₀ q.log q.store ∧ q.log.Pairwise WriteQueue.Before ∧
      ∀ x ∈ q.answers, q.Tells x.1 x.2 := by
  have hsound : q.Sound s₀ := by
    refine Machine.Reach.invariant ?_ ?_ h
    · rintro _ ⟨hard, soft, rfl⟩
      exact ⟨rfl, .nil, .nil, nofun, nofun, nofun, nofun, nofun, nofun, nofun, nofun, nofun, nofun⟩
    · intro q e q' _ hq hok hstep
      exact hq.step hok hstep
  exact ⟨hsound.sequential, hsound.ordered, hsound.told⟩

def putOne : RowCommand Unit := ⟨.put [1] [2] (.ret ()), trivial⟩

/-- Two writes in a batch that commits; then one in a batch that fails, whose wait runs out before
the answer is sent, and which its connection sends again. -/
theorem queued_writes_exact_retry :
    ∃ q, (writeQueue .empty).exec ⟨.empty, 8, 8, 0, [], [], [], [], 0, [], []⟩
        [.submit 0 putOne, .submit 1 putOne, .drain 2, .commit true, .send, .send, .submit 0 putOne,
          .drain 1, .commit false, .timeout 0, .send, .submit 0 putOne, .drain 1, .commit true] =
        some q ∧
      q.log.Pairwise WriteQueue.Before ∧ q.log.map AppliedWrite.id = [0, 1, 3] := by
  have hrun : (writeQueue .empty).exec ⟨.empty, 8, 8, 0, [], [], [], [], 0, [], []⟩
      [.submit 0 putOne, .submit 1 putOne, .drain 2, .commit true, .send, .send, .submit 0 putOne,
        .drain 1, .commit false, .timeout 0, .send, .submit 0 putOne, .drain 1, .commit true] =
      some _ := rfl
  have hfailed : ∀ i, (0, i) ∈ [((0 : ℕ), 2)] →
      ((0 : ℕ), i, (WriteAnswer.failed : WriteAnswer Unit)) ∈ [(0, 2, .failed)] := fun i hi => by
    obtain ⟨-, rfl⟩ := Prod.mk.injEq .. ▸ mem_singleton.mp hi
    exact mem_singleton_self _
  have hpatient : (writeQueue .empty).Guarded patient ⟨.empty, 8, 8, 0, [], [], [], [], 0, [], []⟩
      [.submit 0 putOne, .submit 1 putOne, .drain 2, .commit true, .send, .send, .submit 0 putOne,
        .drain 1, .commit false, .timeout 0, .send, .submit 0 putOne, .drain 1, .commit true] :=
    ⟨trivial, trivial, trivial, trivial, trivial, trivial, trivial, trivial, trivial, hfailed,
      trivial, trivial, trivial, trivial, trivial⟩
  refine ⟨_, hrun, ?_, rfl⟩
  exact (queued_writes_exact (Machine.Reach.of_exec (.init ⟨8, 8, rfl⟩) hpatient hrun)).2.1

/-- **A connection that gives up**: it is told `THROTTLED`, writes again in place, and then what it
gave up on is applied. -/
theorem queue_gives_up :
    ((writeQueue .empty).exec ⟨.empty, 8, 8, 0, [], [], [], [], 0, [], []⟩
        [.submit 0 putOne, .timeout 0, .write 0 putOne, .drain 1, .commit true, .send]).map
      (fun q => (q.log.map AppliedWrite.id,
        q.answers.map fun x => (x.1, match x.2 with | .throttled => true | _ => false))) =
      some ([1, 0], [(0, true), (1, false)]) := by
  rfl

end Flint
