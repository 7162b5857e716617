import FlintCache.Lib.Concurrent
import FlintCache.Lib.Machine

/-!
# Server/WriteLocks — the write locks, and the batch that holds them across commands

A single-key write takes the lock over every writer shared and then its key's stripe: exclusively if
it reads what it writes, shared if not.  A write to more keys takes the first lock exclusively.  A
run of pipelined plain `SET`s takes each key's stripe as the key arrives, and holds all until it is
flushed; a command that came as an inline line does not flush it.
-/

namespace Flint

section

open List Option Bool Machine.Reach

/-- The lock over every writer, and one for each stripe of keys. -/
inductive WriteLock
  | global
  | stripe (n : Fin 128)
  deriving DecidableEq, Repr

def WriteLock.rank : WriteLock → ℕ
  | global => 0
  | stripe n => n.val + 1

/-- What a command locks: one key it reads and writes, one key it only writes, or every writer. -/
inductive LockPlan
  | key (stripe : Fin 128)
  | keyPure (stripe : Fin 128)
  | all
  deriving DecidableEq, Repr

def LockPlan.guards : LockPlan → List (WriteLock × LockMode)
  | key n => [(.global, .shared), (.stripe n, .exclusive)]
  | keyPure n => [(.global, .shared), (.stripe n, .shared)]
  | all => [(.global, .exclusive)]

/-- A connection: the guards of its batch, of its command, and those still to take. -/
structure WriterConn where
  batch : List (WriteLock × LockMode)
  own : List (WriteLock × LockMode)
  todo : List (WriteLock × LockMode)
  staging : Bool
  deriving DecidableEq, Repr

namespace WriterConn

def idle : WriterConn := ⟨[], [], [], false⟩

def free (c : WriterConn) : Bool := c.own.isEmpty && c.todo.isEmpty

def lockUser (c : WriterConn) : LockUser WriteLock := ⟨c.batch ++ c.own, c.todo.head?⟩

def stage (c : WriterConn) (n : Fin 128) : WriterConn :=
  if c.batch.isEmpty then
    { c with todo := [(.global, .shared), (.stripe n, .shared)], staging := true }
  else if c.batch.contains (.stripe n, .shared) then c
  else { c with todo := [(.stripe n, .shared)], staging := true }

def run (c : WriterConn) (plan : LockPlan) : WriterConn :=
  { c with todo := plan.guards, staging := false }

def acquire (c : WriterConn) : WriterConn :=
  match c.todo with
  | [] => c
  | lock :: todo =>
    if c.staging then { c with batch := c.batch ++ [lock], todo := todo }
    else { c with own := c.own ++ [lock], todo := todo }

end WriterConn

/-- One step of a writer. -/
inductive LockEvent
  | set (conn : ℕ) (stripe : Fin 128)
  | flush (conn : ℕ)
  | command (conn : ℕ) (plan : LockPlan)
  | inline (conn : ℕ) (plan : LockPlan)
  | grant (conn : ℕ)
  | finish (conn : ℕ)
  deriving DecidableEq, Repr

abbrev WriteConns := List WriterConn

namespace WriteConns

def conn (s : WriteConns) (t : ℕ) : WriterConn := s.getD t .idle

def users (s : WriteConns) (t : ℕ) : LockUser WriteLock := (conn s t).lockUser

def blocked (s : WriteConns) (t : ℕ) : Bool := s.any fun u => (users s t).blocks u.lockUser

def step (s : WriteConns) : LockEvent → Option WriteConns
  | .set t n => if (conn s t).free then some (s.set t ((conn s t).stage n)) else none
  | .flush t => if (conn s t).free then some (s.set t { conn s t with batch := [] }) else none
  -- A command of a pipeline runs once the batch has been flushed.
  | .command t plan =>
    if (conn s t).free && (conn s t).batch.isEmpty
        then some (s.set t ((conn s t).run plan)) else none
  | .inline t plan => if (conn s t).free then some (s.set t ((conn s t).run plan)) else none
  | .grant t =>
    if (conn s t).todo.isEmpty || blocked s t then none else some (s.set t (conn s t).acquire)
  | .finish t =>
    if (conn s t).todo.isEmpty then some (s.set t { conn s t with own := [] }) else none

end WriteConns

def writeLocks : Machine WriteConns LockEvent where
  init s := ∃ n, s = List.replicate n .idle
  step := WriteConns.step

/-- A batch takes its stripes in ascending order, and no inline command runs over a pending one. -/
def takesInOrder (s : WriteConns) : LockEvent → Prop
  | .set t n => (WriteLock.stripe n, LockMode.shared) ∈ (s.conn t).batch ∨
      ∀ lock ∈ (s.conn t).batch, lock.1.rank < n.val + 1
  | .inline t _ => (s.conn t).batch = []
  | _ => True

instance (s : WriteConns) (e : LockEvent) : Decidable (takesInOrder s e) := by
  cases e <;> (unfold takesInOrder; infer_instance)

/-! ## Locks in order -/

structure WriterConn.InOrder (c : WriterConn) : Prop where
  above : ∀ held ∈ c.batch ++ c.own, ∀ lock ∈ c.todo, held.1.rank < lock.1.rank
  ascends : c.todo.Pairwise fun a b => a.1.rank < b.1.rank

open WriteLock WriterConn

namespace WriterConn

variable {c : WriterConn}

theorem InOrder.ordered (h : c.InOrder) : c.lockUser.Ordered WriteLock.rank := by
  intro l m hwants held hheld
  exact h.above held hheld (l, m) (mem_of_head? hwants)

theorem InOrder.of_todo_nil (h : c.todo = []) : c.InOrder :=
  ⟨fun _ _ _ hlock => absurd (h ▸ hlock) not_mem_nil, h ▸ .nil⟩

theorem inOrder_idle : WriterConn.idle.InOrder := .of_todo_nil rfl

theorem own_eq_nil (h : c.free) : c.own = [] := by
  simp only [free, and_eq_true, List.isEmpty_iff] at h
  exact h.1

theorem todo_eq_nil (h : c.free) : c.todo = [] := by
  simp only [free, and_eq_true, List.isEmpty_iff] at h
  exact h.2

theorem ascends_guards (plan : LockPlan) : plan.guards.Pairwise fun a b => a.1.rank < b.1.rank := by
  cases plan with
  | key n | keyPure n => simp [LockPlan.guards, rank]
  | all => simp [LockPlan.guards]

theorem InOrder.run (hfree : c.free) (hbatch : c.batch = []) (plan : LockPlan) :
    (c.run plan).InOrder := by
  refine ⟨fun held hheld => ?_, ascends_guards plan⟩
  have hnil : c.batch ++ c.own = [] := by rw [hbatch, own_eq_nil hfree]; rfl
  exact absurd (hnil ▸ hheld) not_mem_nil

theorem InOrder.stage (hfree : c.free) {n : Fin 128}
    (h : (WriteLock.stripe n, LockMode.shared) ∈ c.batch ∨
      ∀ lock ∈ c.batch, lock.1.rank < n.val + 1) : (c.stage n).InOrder := by
  have hown := own_eq_nil hfree
  unfold WriterConn.stage
  split
  · rename_i hempty
    have hbatch := isEmpty_iff.mp hempty
    refine ⟨fun held hheld => ?_, by simp [rank]⟩
    simp only [hbatch, hown, append_nil] at hheld
    exact absurd hheld not_mem_nil
  split
  · exact .of_todo_nil (todo_eq_nil hfree)
  rename_i hnot
  have hnot : (stripe n, LockMode.shared) ∉ c.batch := by simpa using hnot
  refine ⟨fun held hheld lock hlock => ?_, pairwise_singleton _ _⟩
  simp only [hown, append_nil] at hheld
  rw [mem_singleton.mp hlock]
  exact h.resolve_left hnot held hheld

theorem InOrder.acquire (h : c.InOrder) : c.acquire.InOrder := by
  unfold WriterConn.acquire
  split
  · exact h
  rename_i lock todo htodo
  obtain ⟨hhead, htail⟩ := pairwise_cons.mp (htodo ▸ h.ascends)
  -- The lock taken is below those that are left.
  have hheld : ∀ held ∈ c.batch ++ c.own ++ [lock], ∀ l ∈ todo, held.1.rank < l.1.rank := by
    intro held hheld l hl
    exact of_mem_snoc hheld (fun hheld => h.above held hheld l (htodo ▸ mem_cons_of_mem _ hl))
      (hhead l hl)
  split
  · refine ⟨fun held hmem => hheld held ?_, htail⟩
    simp only [mem_append] at hmem ⊢
    obtain (hmem | hmem) | hmem := hmem
    · exact .inl (.inl hmem)
    · exact .inr hmem
    · exact .inl (.inr hmem)
  · refine ⟨fun held hmem => hheld held ?_, htail⟩
    rwa [append_assoc]

end WriterConn

namespace WriteConns

variable {s : WriteConns}

theorem conn_set (t u : ℕ) (c : WriterConn) :
    conn (List.set s t c) u = c ∨ conn (List.set s t c) u = conn s u := by
  unfold conn
  simp only [getD_eq_getElem?_getD]
  rw [getElem?_set]
  split
  · split
    · exact .inl rfl
    rename_i h hlt
    subst h
    rw [getElem?_eq_none (by omega)]
    exact .inr rfl
  · exact .inr rfl

theorem inOrder_set (hs : ∀ u, (conn s u).InOrder) {t : ℕ} {c : WriterConn}
    (hc : c.InOrder) (u : ℕ) :
    (conn (List.set s t c) u).InOrder := by
  obtain h | h := conn_set (s := s) t u c
  · rw [h]
    exact hc
  · rw [h]
    exact hs u

theorem inOrder_step {e : LockEvent} {s' : WriteConns} (hs : ∀ u, (conn s u).InOrder)
    (hok : takesInOrder s e) (hstep : step s e = some s') (u : ℕ) : (conn s' u).InOrder := by
  cases e with
  | set t n =>
    obtain ⟨hfree, ⟨⟩⟩ := ite_none_right_eq_some.mp hstep
    exact inOrder_set hs (.stage hfree hok) u
  | flush t =>
    obtain ⟨hfree, ⟨⟩⟩ := ite_none_right_eq_some.mp hstep
    refine inOrder_set hs (.of_todo_nil ?_) u
    exact todo_eq_nil hfree
  | command t plan =>
    obtain ⟨hfree, h⟩ := ite_none_right_eq_some.mp hstep
    obtain ⟨hfree, hbatch⟩ := and_eq_true _ _ ▸ hfree
    cases h
    exact inOrder_set hs (.run hfree (isEmpty_iff.mp hbatch) plan) u
  | inline t plan =>
    obtain ⟨hfree, ⟨⟩⟩ := ite_none_right_eq_some.mp hstep
    exact inOrder_set hs (.run hfree hok plan) u
  | grant t =>
    obtain ⟨-, ⟨⟩⟩ := ite_none_left_eq_some.mp hstep
    exact inOrder_set hs (hs t).acquire u
  | finish t =>
    obtain ⟨htodo, ⟨⟩⟩ := ite_none_right_eq_some.mp hstep
    refine inOrder_set hs (.of_todo_nil ?_) u
    exact isEmpty_iff.mp htodo

end WriteConns

open WriteConns

/-- **No deadlock where stripes are taken in order.** -/
theorem write_locks_progress {s : WriteConns} (h : writeLocks.Reach takesInOrder s) (D : Finset ℕ) :
    ¬ LockUser.Deadlock s.users D := by
  have hinv : ∀ u, (s.conn u).InOrder := by
    refine invariant (I := fun s => ∀ u, (conn s u).InOrder) ?_ ?_ h
    · rintro _ ⟨n, rfl⟩ u
      have hidle : conn (replicate n .idle) u = .idle := by
        unfold conn
        rw [getD_eq_getElem?_getD, getElem?_replicate]
        split
        · rfl
        · rfl
      rw [hidle]
      exact inOrder_idle
    · intro s e s' _ hs hok hstep u
      exact inOrder_step hs hok hstep u
  exact LockUser.not_deadlock_of_ordered rank (fun u => (hinv u).ordered) D

/-- Two batches and two writers: the first batch and the writers wait, and the second does not. -/
def waitingBehind : WriteConns :=
  [⟨[(.global, .shared), (.stripe 1, .shared)], [], [(.stripe 2, .shared)], true⟩,
    ⟨[(.global, .shared), (.stripe 2, .shared)], [], [], true⟩,
    ⟨[], [(.global, .shared)], [(.stripe 1, .exclusive)], false⟩,
    ⟨[], [(.global, .shared)], [(.stripe 2, .exclusive)], false⟩]

theorem write_locks_progress_batch :
    writeLocks.exec (List.replicate 4 .idle)
        [.set 0 1, .grant 0, .grant 0, .set 1 2, .grant 1, .grant 1, .command 2 (.key 1),
          .grant 2, .command 3 (.key 2), .grant 3, .set 0 2] = some waitingBehind ∧
      (∀ t ∈ [0, 2, 3], waitingBehind.blocked t = true) ∧
      ¬ LockUser.Deadlock waitingBehind.users {0, 1, 2, 3} := by
  have hexec : writeLocks.exec (List.replicate 4 .idle)
      [.set 0 1, .grant 0, .grant 0, .set 1 2, .grant 1, .grant 1, .command 2 (.key 1),
        .grant 2, .command 3 (.key 2), .grant 3, .set 0 2] = some waitingBehind := by
    decide +kernel
  exact ⟨hexec, by decide +kernel, write_locks_progress
    (of_exec (.init ⟨4, rfl⟩) (by decide +kernel) hexec) {0, 1, 2, 3}⟩

/-- **Two batches and two writers.**  The first batch holds stripe 1 and the second stripe 2; a
writer waits on each; then each batch asks for the stripe the other holds. -/
def crossedBatches : List LockEvent :=
  [.set 0 1, .grant 0, .grant 0, .set 1 2, .grant 1, .grant 1,
    .command 2 (.key 1), .grant 2, .command 3 (.key 2), .grant 3,
    .set 0 2, .set 1 1]

def crossed : WriteConns :=
  [⟨[(.global, .shared), (.stripe 1, .shared)], [], [(.stripe 2, .shared)], true⟩,
    ⟨[(.global, .shared), (.stripe 2, .shared)], [], [(.stripe 1, .shared)], true⟩,
    ⟨[], [(.global, .shared)], [(.stripe 1, .exclusive)], false⟩,
    ⟨[], [(.global, .shared)], [(.stripe 2, .exclusive)], false⟩]

theorem lt_of_blocks {s : WriteConns} {t u : ℕ} (h : (s.users t).blocks (s.users u)) :
    u < s.length := by
  by_contra hu
  have hidle : s.users u = idle.lockUser := by
    rw [users, conn, getD_eq_getElem?_getD,
      getElem?_eq_none (by omega), getD_none]
  rw [hidle] at h
  obtain ⟨l, m, -, ⟨held, hheld, -⟩ | ⟨-, hwants⟩⟩ := LockUser.wants_of_blocks h
  · exact not_mem_nil hheld
  · cases hwants

theorem write_locks_deadlock :
    writeLocks.exec (List.replicate 4 .idle) crossedBatches = some crossed ∧
      writeLocks.Reachable crossed ∧ LockUser.Deadlock crossed.users {0, 1, 2, 3} := by
  have hexec : writeLocks.exec (List.replicate 4 .idle) crossedBatches = some crossed := by
    decide +kernel
  refine ⟨hexec, Machine.reachable_of_exec _ ⟨4, rfl⟩ hexec, by decide, ?_, ?_⟩
  · simp only [Finset.mem_insert, Finset.mem_singleton]
    rintro t (rfl | rfl | rfl | rfl)
    · exact ⟨3, by decide +kernel⟩
    · exact ⟨2, by decide +kernel⟩
    · exact ⟨0, by decide +kernel⟩
    · exact ⟨1, by decide +kernel⟩
  intro t _ u hu
  have hlt : u < 4 := lt_of_blocks hu
  simp only [Finset.mem_insert, Finset.mem_singleton]
  omega

end

/-! ## What can change between a watched read and `EXEC`

A watch remembers the counter of its key's stripe, which a write bumps before it puts the row;
`EXEC` compares the counters, and then takes the lock over every writer. -/

section

open List Option Bool WriteLock Function Machine.Reach

/-- A watch: whose, of which key, the counter it saw, whether the key has been read since, and
whether another's write has taken effect since that read. -/
structure Watching where
  conn : ℕ
  key : ℕ
  seen : ℕ
  read : Bool
  dirty : Bool
  deriving DecidableEq, Repr

/-- The connections of a node and its write queue, as far as watches go. -/
structure WatchNode where
  counters : ℕ → ℕ
  holders : List (ℕ × WriteLock × LockMode)
  flight : List (ℕ × ℕ)
  watches : List Watching
  /-- The connections whose `EXEC` has compared its counters and goes on to apply. -/
  checked : List ℕ
  /-- Some `EXEC` applied over another's write to a key it had watched and read. -/
  lost : Bool

/-- One step of a client that watches keys, or of a writer. -/
inductive WatchStep
  | watch (c k : ℕ)
  | unwatch (c : ℕ)
  | read (c k : ℕ)
  | acquire (c : ℕ) (l : WriteLock) (m : LockMode)
  | release (c : ℕ)
  | bump (c k : ℕ)
  | put (c k : ℕ)
  | commit (c : ℕ)
  | check (c : ℕ)
  | exec (c : ℕ)
  | abort (c : ℕ)
  deriving DecidableEq, Repr

namespace WatchNode

def holdsGlobal (s : WatchNode) (c : ℕ) (m : LockMode) : Bool := s.holders.contains (c, .global, m)

def writing (s : WatchNode) (c : ℕ) : Bool := s.holdsGlobal c .shared || s.holdsGlobal c .exclusive

def keysOf (s : WatchNode) (c : ℕ) : List ℕ := (s.flight.filter fun f => f.1 == c).map Prod.snd

/-- Writes of one connection take effect: others that have read a key see it change under them. -/
def landed (c : ℕ) (keys : List ℕ) (w : Watching) : Watching :=
  if w.conn ≠ c ∧ w.read = true ∧ w.key ∈ keys then { w with dirty := true } else w

def readBy (c k : ℕ) (w : Watching) : Watching :=
  if w.conn = c ∧ w.key = k then { w with read := true } else w

def dropWatches (s : WatchNode) (c : ℕ) : List Watching := s.watches.filter fun w => w.conn != c

def dropFlight (s : WatchNode) (c : ℕ) : List (ℕ × ℕ) := s.flight.filter fun f => f.1 != c

def grants (s : WatchNode) (l : WriteLock) (m : LockMode) : Bool :=
  s.holders.all fun h => h.2.1 ≠ l || !m.conflicts h.2.2

variable (index : ℕ → ℕ)

def whole (s : WatchNode) (c : ℕ) : Bool :=
  s.watches.all fun w => w.conn ≠ c || w.seen = s.counters (index w.key)

def step (s : WatchNode) : WatchStep → Option WatchNode
  | .watch c k =>
    if s.checked.contains c then none
    else some { s with watches := ⟨c, k, s.counters (index k), false, false⟩ :: s.watches }
  | .unwatch c => if s.checked.contains c then none else some { s with watches := s.dropWatches c }
  | .read c k => some { s with watches := s.watches.map (readBy c k) }
  | .acquire c l m => if s.grants l m
      then some { s with holders := (c, l, m) :: s.holders } else none
  | .release c =>
    if s.checked.contains c then none
    else some { s with holders := s.holders.filter fun h => h.1 != c, flight := s.dropFlight c }
  | .bump c k =>
    if s.writing c then
      some { s with
        counters := Function.update s.counters (index k) (s.counters (index k) + 1),
        flight := (c, k) :: s.flight }
    else none
  | .put c k =>
    if s.writing c && s.flight.contains (c, k) then
      some { s with flight := s.flight.erase (c, k), watches := s.watches.map (landed c [k]) }
    else none
  | .commit c =>
    if s.writing c && !s.checked.contains c then
      some { s with flight := s.dropFlight c, watches := s.watches.map (landed c (s.keysOf c)) }
    else none
  -- `EXEC` compares the counters before it takes any lock.
  | .check c =>
    if s.checked.contains c || s.holders.any (fun h => h.1 == c) then none
    else if s.whole index c then some { s with checked := c :: s.checked }
    else some { s with watches := s.dropWatches c }
  | .exec c =>
    if s.checked.contains c && s.holdsGlobal c .exclusive then
      some { s with
        lost := s.lost || s.watches.any fun w => w.conn == c && w.dirty,
        watches := (s.dropWatches c).map (landed c (s.keysOf c)),
        flight := s.dropFlight c,
        checked := s.checked.filter (· != c) }
    else none
  | .abort c =>
    some { s with
      watches := s.dropWatches c, flight := s.dropFlight c, checked := s.checked.filter (· != c) }

end WatchNode

def watchNode (index : ℕ → ℕ) : Machine WatchNode WatchStep where
  init s := s.holders = [] ∧ s.flight = [] ∧ s.watches = [] ∧ s.checked = [] ∧ s.lost = false
  step := WatchNode.step index

/-- **A schedule without the two windows**: a key is watched while no write of its counter is
between bump and put, and no other connection bumps a watched counter between `EXEC`'s comparison
and its lock. -/
def watchedInTime (index : ℕ → ℕ) (s : WatchNode) : WatchStep → Prop
  | .watch _ k => ∀ f ∈ s.flight, index f.2 ≠ index k
  | .bump c k => ∀ w ∈ s.watches, w.conn ≠ c → w.conn ∈ s.checked →
      s.holdsGlobal w.conn .exclusive = false → index w.key ≠ index k
  | _ => True

instance watchedInTimeDecidable (index : ℕ → ℕ) (s : WatchNode) (e : WatchStep) :
    Decidable (watchedInTime index s e) := by
  cases e <;> unfold watchedInTime <;> infer_instance

/-! ## What stays true -/

namespace WatchNode

variable {index : ℕ → ℕ} {s : WatchNode}

structure Seen (index : ℕ → ℕ) (s : WatchNode) (w : Watching) : Prop where
  le : w.seen ≤ s.counters (index w.key)
  dirty : w.dirty = true → w.seen < s.counters (index w.key)
  flight : ∀ f ∈ s.flight, index f.2 = index w.key → w.seen < s.counters (index w.key)

structure Sound (index : ℕ → ℕ) (s : WatchNode) : Prop where
  seen : ∀ w ∈ s.watches, s.Seen index w
  alone : ∀ c, (c, WriteLock.global, LockMode.exclusive) ∈ s.holders →
    ∀ h ∈ s.holders, h.2.1 = .global → h.1 = c
  clean : ∀ w ∈ s.watches, w.conn ∈ s.checked → w.dirty = false
  /-- Once `EXEC` has compared, no other write of what it watches is between bump and put. -/
  quiet : ∀ w ∈ s.watches, w.conn ∈ s.checked →
    ∀ f ∈ s.flight, f.1 ≠ w.conn → index f.2 ≠ index w.key
  kept : s.lost = false

variable {c : ℕ}

theorem holder_of_writing (h : s.writing c) : ∃ m, (c, WriteLock.global, m) ∈ s.holders := by
  simp only [writing, holdsGlobal, or_eq_true, contains_iff_mem] at h
  obtain h | h := h
  · exact ⟨_, h⟩
  · exact ⟨_, h⟩

variable {keys : List ℕ} {w : Watching}

theorem landed_conn : (landed c keys w).conn = w.conn := by
  unfold landed
  split
  · rfl
  · rfl

theorem landed_key : (landed c keys w).key = w.key := by
  unfold landed
  split
  · rfl
  · rfl

theorem landed_seen : (landed c keys w).seen = w.seen := by
  unfold landed
  split
  · rfl
  · rfl

variable {t : WatchNode}

theorem Seen.landed (h : s.Seen index w)
    (hkeys : ∀ k ∈ keys, (c, k) ∈ s.flight) (hcounters : t.counters = s.counters)
    (hflight : ∀ f ∈ t.flight, f ∈ s.flight) : t.Seen index (landed c keys w) := by
  refine ⟨?_, fun hdirty => ?_, fun f hf hindex => ?_⟩
  · rw [landed_seen, landed_key, hcounters]
    exact h.le
  · rw [landed_seen, landed_key, hcounters]
    unfold WatchNode.landed at hdirty
    split at hdirty
    · next hin => exact h.flight _ (hkeys _ hin.2.2) rfl
    · exact h.dirty hdirty
  · rw [landed_seen, landed_key, hcounters] at *
    exact h.flight f (hflight f hf) hindex

variable {c k : ℕ}

theorem mem_flight_of_mem_keysOf (h : k ∈ s.keysOf c) : (c, k) ∈ s.flight := by
  obtain ⟨f, hf, rfl⟩ := mem_map.mp h
  obtain ⟨hf, hc⟩ := mem_filter.mp hf
  rwa [← beq_iff_eq.mp hc]

theorem mem_of_mem_dropFlight {f : ℕ × ℕ} (h : f ∈ s.dropFlight c) : f ∈ s.flight :=
  (mem_filter.mp h).1

theorem mem_of_mem_dropWatches (h : w ∈ s.dropWatches c) : w ∈ s.watches :=
  (mem_filter.mp h).1

theorem seen_of_whole (hwhole : s.whole index c) (hw : w ∈ s.watches) (hconn : w.conn = c) :
    w.seen = s.counters (index w.key) := by
  simpa [hconn] using all_eq_true.mp hwhole w hw

namespace Sound

variable (hs : s.Sound index)
include hs

theorem landed_eq (hw : w ∈ s.watches) (hkeys : ∀ k ∈ keys, (c, k) ∈ s.flight)
    (hchecked : w.conn ∈ s.checked) : landed c keys w = w := by
  refine if_neg ?_
  rintro ⟨hconn, -, hkey⟩
  exact hs.quiet w hw hchecked _ (hkeys _ hkey) (Ne.symm hconn) rfl

theorem shrink (hcounters : t.counters = s.counters)
    (hflight : ∀ f ∈ t.flight, f ∈ s.flight) (hholders : ∀ h ∈ t.holders, h ∈ s.holders)
    (hwatches : ∀ w ∈ t.watches, w ∈ s.watches) (hchecked : ∀ c ∈ t.checked, c ∈ s.checked)
    (hlost : t.lost = s.lost) : t.Sound index := by
  refine ⟨fun w hw => ?_, fun c hc h hh => hs.alone c (hholders _ hc) h (hholders h hh),
    fun w hw hc => hs.clean w (hwatches w hw) (hchecked _ hc),
    fun w hw hc f hf => hs.quiet w (hwatches w hw) (hchecked _ hc) f (hflight f hf),
    hlost.trans hs.kept⟩
  obtain ⟨hle, hdirty, hfl⟩ := hs.seen w (hwatches w hw)
  exact ⟨hcounters ▸ hle, hcounters ▸ hdirty, fun f hf => hcounters ▸ hfl f (hflight f hf)⟩

theorem lands (hkeys : ∀ k ∈ keys, (c, k) ∈ s.flight)
    (hcounters : t.counters = s.counters) (hflight : ∀ f ∈ t.flight, f ∈ s.flight)
    (hholders : t.holders = s.holders)
    (hwatches : ∀ w ∈ t.watches, ∃ w' ∈ s.watches, landed c keys w' = w)
    (hchecked : ∀ d ∈ t.checked, d ∈ s.checked) (hlost : t.lost = false) : t.Sound index := by
  refine ⟨fun w hw => ?_, hholders ▸ hs.alone, fun w hw hc => ?_, fun w hw hc f hf => ?_, hlost⟩
  · obtain ⟨w, hin, rfl⟩ := hwatches w hw
    exact (hs.seen w hin).landed hkeys hcounters hflight
  · obtain ⟨w, hin, rfl⟩ := hwatches w hw
    rw [landed_conn] at hc
    rw [hs.landed_eq hin hkeys (hchecked _ hc)]
    exact hs.clean w hin (hchecked _ hc)
  · obtain ⟨w, hin, rfl⟩ := hwatches w hw
    rw [landed_conn] at hc ⊢
    rw [landed_key]
    exact hs.quiet w hin (hchecked _ hc) f (hflight f hf)

theorem watch (hc : c ∉ s.checked) (hok : ∀ f ∈ s.flight, index f.2 ≠ index k) :
    Sound index { s with watches := ⟨c, k, s.counters (index k), false, false⟩ :: s.watches } := by
  refine ⟨fun w hw => ?_, hs.alone, fun w hw hchecked => ?_, fun w hw hchecked => ?_, hs.kept⟩
  · obtain rfl | hw := mem_cons.mp hw
    · exact ⟨le_rfl, nofun, fun f hf hindex => absurd hindex (hok f hf)⟩
    · exact ⟨(hs.seen w hw).le, (hs.seen w hw).dirty, (hs.seen w hw).flight⟩
  · obtain rfl | hw := mem_cons.mp hw
    · rfl
    · exact hs.clean w hw hchecked
  · obtain rfl | hw := mem_cons.mp hw
    · exact absurd hchecked hc
    · exact hs.quiet w hw hchecked

end Sound

theorem readBy_fields (w : Watching) : (readBy c k w).conn = w.conn ∧
    (readBy c k w).key = w.key ∧ (readBy c k w).seen = w.seen ∧ (readBy c k w).dirty = w.dirty := by
  unfold readBy
  split
  · exact ⟨rfl, rfl, rfl, rfl⟩
  · exact ⟨rfl, rfl, rfl, rfl⟩

namespace Sound

variable (hs : s.Sound index)
include hs

theorem readBy : Sound index { s with watches := s.watches.map (readBy c k) } := by
  refine ⟨fun w hw => ?_, hs.alone, fun w hw hchecked => ?_, fun w hw hchecked f hf => ?_, hs.kept⟩
  · obtain ⟨w, hin, rfl⟩ := mem_map.mp hw
    obtain ⟨-, hkey, hseen, hdirty⟩ := readBy_fields (c := c) (k := k) w
    obtain ⟨hle, hd, hfl⟩ := hs.seen w hin
    refine ⟨?_, ?_, ?_⟩
    · rw [hseen, hkey]
      exact hle
    · rw [hseen, hkey, hdirty]
      exact hd
    · rw [hseen, hkey]
      exact hfl
  · obtain ⟨w, hin, rfl⟩ := mem_map.mp hw
    obtain ⟨hc, -, -, hdirty⟩ := readBy_fields (c := c) (k := k) w
    rw [hdirty]
    exact hs.clean w hin (hc ▸ hchecked)
  · obtain ⟨w, hin, rfl⟩ := mem_map.mp hw
    obtain ⟨hc, hkey, -, -⟩ := readBy_fields (c := c) (k := k) w
    rw [hc, hkey]
    exact hs.quiet w hin (hc ▸ hchecked) f hf

variable {l : WriteLock} {m : LockMode}

theorem alone_acquire (hgrants : s.grants l m) {d : ℕ}
    (hd : (d, WriteLock.global, LockMode.exclusive) ∈ (c, l, m) :: s.holders)
    {held : ℕ × WriteLock × LockMode} (hh : held ∈ (c, l, m) :: s.holders)
    (hl : held.2.1 = .global) : held.1 = d := by
  have hnone : ∀ h ∈ s.holders, h.2.1 = l → m.conflicts h.2.2 = false := by
    intro h hh hl
    have hall := all_eq_true.mp hgrants h hh
    simpa [hl] using hall
  obtain hd | hd := mem_cons.mp hd
  · obtain ⟨rfl, rfl, rfl⟩ : d = c ∧ global = l ∧ LockMode.exclusive = m := by
      simpa using hd
    obtain rfl | hh := mem_cons.mp hh
    · rfl
    have hcon := hnone held hh hl
    cases hm : held.2.2 with
    | _ => rw [hm] at hcon; cases hcon
  obtain rfl | hh := mem_cons.mp hh
  · have hcon := hnone _ hd hl.symm
    cases m with
    | _ => cases hcon
  · exact hs.alone d hd held hh hl

theorem acquire (hgrants : s.grants l m) :
    Sound index { s with holders := (c, l, m) :: s.holders } :=
  { hs with
    seen := fun w hw => ⟨(hs.seen w hw).le, (hs.seen w hw).dirty, (hs.seen w hw).flight⟩
    alone := fun _ hd _ hh hl => hs.alone_acquire hgrants hd hh hl }

/-- A connection that holds the lock over every writer is the only one that writes. -/
theorem eq_of_writing {d : ℕ} (hlock : s.holdsGlobal c .exclusive = true) (hwriting : s.writing d) :
    d = c := by
  obtain ⟨m, hm⟩ := holder_of_writing hwriting
  exact hs.alone c (contains_iff_mem.mp hlock) _ hm rfl

theorem bump (hwriting : s.writing c) (hok : watchedInTime index s (.bump c k)) :
    Sound index { s with
      counters := Function.update s.counters (index k) (s.counters (index k) + 1),
      flight := (c, k) :: s.flight } := by
  have hmono : ∀ i, s.counters i ≤
      update s.counters (index k) (s.counters (index k) + 1) i := fun i => by
    by_cases hi : i = index k
    · rw [hi, update_self]
      exact Nat.le_succ _
    · rw [update_of_ne hi]
  refine { hs with seen := fun w hw => ?_, quiet := fun w hw hchecked f hf hne => ?_ }
  · obtain ⟨hle, hdirty, hfl⟩ := hs.seen w hw
    refine ⟨hle.trans (hmono _), fun h => (hdirty h).trans_le (hmono _), fun f hf hindex => ?_⟩
    obtain rfl | hf := mem_cons.mp hf
    · have hself : update s.counters (index k) (s.counters (index k) + 1) (index w.key) =
          s.counters (index w.key) + 1 := by
        rw [← hindex, update_self]
      exact (Nat.lt_succ_of_le hle).trans_eq hself.symm
    · exact (hfl f hf hindex).trans_le (hmono _)
  · obtain rfl | hf := mem_cons.mp hf
    · -- Before the lock this is the schedule's, under the lock it is the lock's doing.
      cases hlock : s.holdsGlobal w.conn .exclusive with
      | false => exact (hok w hw (Ne.symm hne) hchecked hlock).symm
      | true => exact absurd (hs.eq_of_writing hlock hwriting) hne
    · exact hs.quiet w hw hchecked f hf hne

/-- The comparison is what makes a connection's watches clean and quiet. -/
theorem check (hwhole : s.whole index c) : Sound index { s with checked := c :: s.checked } := by
  refine ⟨fun w hw => ⟨(hs.seen w hw).le, (hs.seen w hw).dirty, (hs.seen w hw).flight⟩, hs.alone,
    fun w hw hd => ?_, fun w hw hd f hf hne hindex => ?_, hs.kept⟩
  · obtain hd | hd := mem_cons.mp hd
    · by_contra hdirty
      have hlt := (hs.seen w hw).dirty (by simpa using hdirty)
      exact hlt.ne (seen_of_whole hwhole hw hd)
    · exact hs.clean w hw hd
  · obtain hd | hd := mem_cons.mp hd
    · exact ((hs.seen w hw).flight f hf hindex).ne (seen_of_whole hwhole hw hd)
    · exact hs.quiet w hw hd f hf hne hindex

theorem none_dirty (hchecked : c ∈ s.checked) :
    (s.watches.any fun w => w.conn == c && w.dirty) = false := by
  refine any_eq_false.mpr fun w hw hboth => ?_
  obtain ⟨hconn, hdirty⟩ := and_eq_true _ _ ▸ hboth
  have hclean := hs.clean w hw (beq_iff_eq.mp hconn ▸ hchecked)
  exact false_ne_true (hclean.symm.trans hdirty)

theorem step {e : WatchStep} {s' : WatchNode}
    (hok : watchedInTime index s e) (hstep : s.step index e = some s') : s'.Sound index := by
  cases e with
  | watch c k =>
    obtain ⟨hc, ⟨⟩⟩ := ite_none_left_eq_some.mp hstep
    exact hs.watch (fun hin => hc (contains_iff_mem.mpr hin)) hok
  | unwatch c =>
    obtain ⟨-, ⟨⟩⟩ := ite_none_left_eq_some.mp hstep
    exact hs.shrink rfl (fun _ => id) (fun _ => id)
        (fun _ => mem_of_mem_dropWatches) (fun _ => id) rfl
  | read c k =>
    cases hstep
    exact hs.readBy
  | acquire c l m =>
    obtain ⟨hgrants, ⟨⟩⟩ := ite_none_right_eq_some.mp hstep
    exact hs.acquire hgrants
  | release c =>
    obtain ⟨-, ⟨⟩⟩ := ite_none_left_eq_some.mp hstep
    exact hs.shrink rfl (fun _ => mem_of_mem_dropFlight) (fun h hh => (mem_filter.mp hh).1)
      (fun _ => id) (fun _ => id) rfl
  | bump c k =>
    obtain ⟨hwriting, ⟨⟩⟩ := ite_none_right_eq_some.mp hstep
    exact hs.bump hwriting hok
  | put c k =>
    obtain ⟨hc, h⟩ := ite_none_right_eq_some.mp hstep
    obtain ⟨-, hk⟩ := and_eq_true _ _ ▸ hc
    cases h
    have hkeys : ∀ k' ∈ [k], (c, k') ∈ s.flight := fun k' hk' => by
      rw [mem_singleton.mp hk']
      exact contains_iff_mem.mp hk
    exact hs.lands hkeys rfl (fun _ => mem_of_mem_erase) rfl
      (fun _ => mem_map.mp) (fun _ => id) hs.kept
  | commit c =>
    obtain ⟨-, h⟩ := ite_none_right_eq_some.mp hstep
    cases h
    exact hs.lands (fun _ => mem_flight_of_mem_keysOf) rfl (fun _ => mem_of_mem_dropFlight)
      rfl (fun _ => mem_map.mp) (fun _ => id) hs.kept
  | check c =>
    obtain ⟨-, h⟩ := ite_none_left_eq_some.mp hstep
    split at h
    · next hwhole =>
      cases h
      exact hs.check hwhole
    · cases h
      exact hs.shrink rfl (fun _ => id) (fun _ => id)
          (fun _ => mem_of_mem_dropWatches) (fun _ => id)
        rfl
  | exec c =>
    obtain ⟨hc, h⟩ := ite_none_right_eq_some.mp hstep
    obtain ⟨hchecked, -⟩ := and_eq_true _ _ ▸ hc
    cases h
    refine hs.lands (c := c) (fun _ => mem_flight_of_mem_keysOf) rfl
      (fun _ => mem_of_mem_dropFlight) rfl (fun w hw => ?_) (fun d hd => (mem_filter.mp hd).1) ?_
    · obtain ⟨w', hin, hw'⟩ := mem_map.mp hw
      exact ⟨w', mem_of_mem_dropWatches hin, hw'⟩
    · show (s.lost || _) = false
      rw [hs.none_dirty (contains_iff_mem.mp hchecked), hs.kept]
      rfl
  | abort c =>
    cases hstep
    exact hs.shrink rfl (fun _ => mem_of_mem_dropFlight) (fun _ => id)
      (fun _ => mem_of_mem_dropWatches) (fun d hd => (mem_filter.mp hd).1) rfl

end Sound

end WatchNode

def WatchNode.start : WatchNode := ⟨fun _ => 0, [], [], [], [], false⟩

end

end Flint
