import FlintCache.Resp.Commands

/-!
# Server/Txn — a node's connection, and the transaction on it

`MULTI` opens a transaction on one connection, commands are queued instead of run, and `EXEC` runs
the queue as one unit — unless a queued command was refused, or a watched key has moved.  A watch is
the version its key's stripe had when the key was watched; every write moves its key's stripe before
it lands.  `EXEC` compares the versions before it takes the lock over all writers, so writes of
others may land between the two.
-/

namespace Flint

inductive Verb
  | multi
  | exec
  | discard
  | watch
  | unwatch
  | keyspace
  | subscription
  | publish
  | other
  deriving DecidableEq, Repr

def verbOf (args : Args) : Verb :=
  match (args.headD "").toUpper with
  | "MULTI" => .multi
  | "EXEC" => .exec
  | "DISCARD" => .discard
  | "WATCH" => .watch
  | "UNWATCH" => .unwatch
  | "DBSIZE" => .keyspace
  | "SCAN" => .keyspace
  | "FLUSHALL" => .keyspace
  | "FLUSHDB" => .keyspace
  | "SUBSCRIBE" => .subscription
  | "PSUBSCRIBE" => .subscription
  | "UNSUBSCRIBE" => .subscription
  | "PUNSUBSCRIBE" => .subscription
  | "PUBLISH" => .publish
  | _ => .other

inductive Ran
  | alone (args : Args)
  | unit (cmds : List Args)
  deriving DecidableEq, Repr

/-- A transaction, as the node keeps it. -/
structure NodeTxn where
  queued : List Args
  poisoned : Bool
  deriving DecidableEq, Repr

/-- A connection at the node. -/
structure NodeConn where
  txn : Option NodeTxn
  /-- The watched keys, each with its stripe's version when it was watched. -/
  watches : List (String × ℕ)
  deriving DecidableEq, Repr

structure NodeTurn where
  queueError : Option PlainReply
  alone : Value
  /-- Why the queue may not run: a demoted master, a slot on its way, a full disk. -/
  refusal : Option Value
  results : List Value
  /-- The keys that others write between `EXEC`'s comparison and its lock. -/
  during : List String

/-- The command is one a transaction queues. -/
abbrev Queues (args : Args) : Prop :=
  verbOf args ≠ .multi ∧ verbOf args ≠ .watch ∧ verbOf args ≠ .discard ∧ verbOf args ≠ .exec

namespace NodeConn

def fresh : NodeConn := ⟨none, []⟩

def ended : NodeConn := ⟨none, []⟩

def watchesBroken (version : String → ℕ) (conn : NodeConn) : Bool :=
  conn.watches.any fun watch => version watch.1 ≠ watch.2

/-- **A command on a connection**: the connection after it, what ran, and the reply. -/
def control (version : String → ℕ) (conn : NodeConn) (args : Args) (turn : NodeTurn) :
    NodeConn × List Ran × Value :=
  match verbOf args with
  | .multi =>
    match conn.txn with
    | some _ => (conn, [], .error "ERR Command 'multi' not allowed inside a transaction")
    | none => ({ conn with txn := some ⟨[], false⟩ }, [], .simple "OK")
  | .watch =>
    match conn.txn with
    | some _ => (conn, [], .error "ERR Command 'watch' not allowed inside a transaction")
    | none =>
      if args.length < 2 then (conn, [], .error "ERR wrong number of arguments for 'watch' command")
      else
        ({ conn with watches := conn.watches ++ (args.drop 1).map fun k => (k, version k) }, [],
          .simple "OK")
  | .unwatch =>
    if args.length ≠ 1 then
      ({ conn with txn := conn.txn.map fun t => { t with poisoned := true } }, [],
        .error "ERR wrong number of arguments for 'unwatch' command")
    else
      match conn.txn with
      | some t => ({ conn with txn := some { t with queued := t.queued ++ [args] } }, [],
          .simple "QUEUED")
      | none => ({ conn with watches := [] }, [], .simple "OK")
  | .discard =>
    (ended, [], if conn.txn.isSome then .simple "OK" else .error "ERR DISCARD without MULTI")
  | .exec =>
    match conn.txn with
    | none => (conn, [], .error "ERR EXEC without MULTI")
    | some t =>
      if t.poisoned then
        (ended, [], .error "EXECABORT Transaction discarded because of previous errors.")
      else if conn.watchesBroken version then (ended, [], .array none)
      else if t.queued.isEmpty then (ended, [], .array (some []))
      else
        match turn.refusal with
        | some v => (ended, [], v)
        | none => (ended, [.unit t.queued], .array (some turn.results))
  | _ =>
    match conn.txn with
    | some t =>
      match turn.queueError with
      | some v => ({ conn with txn := some { t with poisoned := true } }, [], v.1)
      | none => ({ conn with txn := some { t with queued := t.queued ++ [args] } }, [],
          .simple "QUEUED")
    | none => (conn, [.alone args], turn.alone)

/-! ## What a command can do -/

section Control

variable {version : String → ℕ} {conn : NodeConn} {args : Args} {turn : NodeTurn} {t : NodeTxn}

theorem ran_of_txn (ht : conn.txn = some t) (hexec : verbOf args ≠ .exec) :
    (conn.control version args turn).2.1 = [] := by
  unfold control
  split
  · rw [ht]
  · rw [ht]
  · split
    · rfl
    · rw [ht]
  · rfl
  · exact absurd ‹_› hexec
  · rw [ht]
    cases turn.queueError <;> rfl

theorem ran_multi (hv : verbOf args = .multi) : (conn.control version args turn).2.1 = [] := by
  simp only [control, hv]
  cases conn.txn <;> rfl

theorem ran_discard (hv : verbOf args = .discard) : (conn.control version args turn).2.1 = [] := by
  simp only [control, hv]

theorem ran_exec (hv : verbOf args = .exec) : (conn.control version args turn).2.1 = [] ∨
      ∃ t, conn.txn = some t ∧ t.poisoned = false ∧ conn.watchesBroken version = false ∧
        (conn.control version args turn).2.1 = [.unit t.queued] := by
  simp only [control, hv]
  cases ht : conn.txn with
  | none => exact .inl rfl
  | some t =>
    simp only
    cases hp : t.poisoned with
    | true => exact .inl rfl
    | false =>
      cases hb : conn.watchesBroken version with
      | true => exact .inl rfl
      | false =>
        cases hq : t.queued.isEmpty with
        | true => exact .inl rfl
        | false =>
          cases turn.refusal with
          | some v => exact .inl rfl
          | none => exact .inr ⟨t, rfl, hp, rfl, rfl⟩

theorem control_multi (hv : verbOf args = .multi)
    (hok : (conn.control version args turn).2.2.isOk = true) : conn.txn = none ∧
      (conn.control version args turn).1 = { conn with txn := some ⟨[], false⟩ } := by
  simp only [control, hv] at hok ⊢
  cases ht : conn.txn with
  | some t =>
    rw [ht] at hok
    exact absurd hok Bool.false_ne_true
  | none => exact ⟨rfl, rfl⟩

theorem control_queue (ht : conn.txn = some t) (hv : Queues args) :
    ((conn.control version args turn).1 =
          { conn with txn := some { t with queued := t.queued ++ [args] } } ∧
        (conn.control version args turn).2.2 = .simple "QUEUED") ∨
      ((conn.control version args turn).1 = { conn with txn := some { t with poisoned := true } } ∧
        (conn.control version args turn).2.2.isQueued = false) := by
  unfold control
  split
  · exact absurd ‹_› hv.1
  · exact absurd ‹_› hv.2.1
  · split
    · exact .inr ⟨by rw [ht]; rfl, rfl⟩
    · rw [ht]
      exact .inl ⟨rfl, rfl⟩
  · exact absurd ‹_› hv.2.2.1
  · exact absurd ‹_› hv.2.2.2
  rw [ht]
  cases turn.queueError with
  | some v => exact .inr ⟨rfl, v.2⟩
  | none => exact .inl ⟨rfl, rfl⟩

theorem control_txn_none (ht : conn.txn = none) (hv : Queues args) :
    (conn.control version args turn).1.txn = none := by
  unfold control
  split
  · exact absurd ‹_› hv.1
  · exact absurd ‹_› hv.2.1
  · split
    · rw [ht]
      rfl
    · rw [ht]
  · exact absurd ‹_› hv.2.2.1
  · exact absurd ‹_› hv.2.2.2
  · rw [ht]
    exact ht

theorem control_watch (hv : verbOf args = .watch) :
    ((conn.control version args turn).2.2.isOk = true ∧ (conn.control version args turn).1.watches =
          conn.watches ++ (args.drop 1).map fun k => (k, version k)) ∨
      ((conn.control version args turn).2.2.isOk = false ∧
        (conn.control version args turn).1 = conn) := by
  simp only [control, hv]
  cases ht : conn.txn with
  | some t => exact .inr ⟨rfl, rfl⟩
  | none =>
    simp only
    split
    · exact .inr ⟨rfl, rfl⟩
    · exact .inl ⟨rfl, rfl⟩

theorem control_unwatch (hv : verbOf args = .unwatch) (hlen : args.length = 1) :
    (conn.control version args turn).2.2.isError = false := by
  simp only [control, hv, hlen, ne_eq, not_true_eq_false, if_false]
  cases conn.txn <;> rfl

end Control

end NodeConn

end Flint
