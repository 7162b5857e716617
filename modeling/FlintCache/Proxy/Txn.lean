import FlintCache.Lib.Machine
import FlintCache.Proxy.Forward
import FlintCache.Server.Txn

/-!
# Proxy/Txn — a client's transaction through the proxy

The proxy binds a transaction to one node, by `WATCH` or by the first command that names a key, and
sends everything of it on one connection of its own.  Nothing of it is retried: a refusal or a lost
reply aborts it, and the client's next commands are answered `QUEUED` and go nowhere until it ends.
A connection that is found dead is replaced without a word.
-/

namespace Flint

open Function (update)

abbrev Addr := String

/-! ## The proxy's record -/

inductive QueuedItem
  | backend (nullArray : Bool)
  | here (v : Value)

/-- A client transaction, as the proxy keeps it. -/
structure ProxyTxn where
  /-- `MULTI` was sent, and neither `EXEC` nor `DISCARD`. -/
  isOpen : Bool
  addr : Option Addr
  opened : Bool
  queued : List QueuedItem
  doomed : Bool

def ProxyTxn.none : ProxyTxn := ⟨false, Option.none, false, [], false⟩

/-- What became of one command on the private connection. -/
inductive Hop
  | unsent (why : String)
  /-- It was sent and its reply was not had in time; the connection is given up. -/
  | lost (processed : Bool) (why : String)
  /-- The node answered that it does not serve, before it looked at the frame. -/
  | refused (e : String)
  | answered
  deriving DecidableEq, Repr

structure TxnTurn where
  /-- The proxy's own answer, before anything is forwarded: a name that is not for clients, an
  authentication, a script it does not know. -/
  own : Option PlainReply
  /-- The co-processor's answer, where one is registered for the name. -/
  family : Option Value
  shed : Option PlainReply
  /-- The node of the command's key, where it has one and routing knows it. -/
  routed : Option Addr
  keyless : Option Addr
  onePair : Bool
  openHop : Hop
  hop : Hop
  node : NodeTurn
  nullArray : Bool

/-! ## The world -/

structure TxnConfig where
  stripe : String → ℕ
  owner : String → Addr

/-- The client, the proxy and the node that has the transaction. -/
structure TxnWorld where
  txn : ProxyTxn
  conns : Addr → Option NodeConn
  versions : Addr → ℕ → ℕ
  /-- The writes of others that have moved their stripe and not landed. -/
  pending : Addr → List String
  log : List Ran
  sent : List (Args × Value)
  armed : List String
  touched : Bool

namespace TxnWorld

variable (cfg : TxnConfig)

def start : TxnWorld := ⟨.none, fun _ => none, fun _ _ => 0, fun _ => [], [], [], [], false⟩

def version (w : TxnWorld) (a : Addr) (k : String) : ℕ := w.versions a (cfg.stripe k)

def bump (w : TxnWorld) (a : Addr) (keys : List String) : TxnWorld :=
  { w with
    versions := update w.versions a fun s =>
      w.versions a s + (keys.filter fun k => cfg.stripe k = s).length }

def dropConn (w : TxnWorld) (a : Addr) : TxnWorld :=
  { w with conns := update w.conns a none }

def conn (w : TxnWorld) (a : Addr) : NodeConn := (w.conns a).getD .fresh

/-- A node takes a frame: the world after it, and the reply.  The writes of others that fall into
`EXEC` fall into it. -/
def process (w : TxnWorld) (a : Addr) (args : Args) (turn : NodeTurn) : TxnWorld × Value :=
  let r := (w.conn a).control (w.version cfg a) args turn
  let w' := { w with conns := update w.conns a (some r.1), log := w.log ++ r.2.1 }
  (if verbOf args = .exec then w'.bump cfg a turn.during else w', r.2.2)

/-- **Send one frame on the client's own connection**, with no retry and no rerouting. -/
def callPinned (w : TxnWorld) (a : Addr) (args : Args) (hop : Hop) (turn : NodeTurn) :
    TxnWorld × Except String Value :=
  match hop with
  | .unsent why => (w, .error ("backend unavailable (" ++ why ++ ")"))
  | .lost processed why =>
    ((if processed then (w.process cfg a args turn).1 else w).dropConn a,
      .error ("backend unavailable (" ++ why ++ ")"))
  | .refused e =>
    ({ w with conns := update w.conns a (some (w.conn a)) },
      .error ("backend no longer owns this transaction (" ++ e ++ ")"))
  | .answered =>
    let r := w.process cfg a args turn
    match refusalOf r.2 with
    | some _ => (r.1, .error "backend no longer owns this transaction")
    | none => (r.1, .ok r.2)

/-- **Abort a transaction**: its connection is closed; one the client has open stays, doomed. -/
def abort (w : TxnWorld) : TxnWorld :=
  let w' := w.txn.addr.elim w w.dropConn
  { w' with txn := { ProxyTxn.none with isOpen := w.txn.isOpen, doomed := w.txn.isOpen } }

def abortReply (why : String) : Value :=
  .error ("EXECABORT Transaction discarded: " ++ why ++ ". Retry the transaction.")

/-! ## The transaction's commands -/

def doomedStep (w : TxnWorld) (args : Args) : TxnWorld × Value :=
  match verbOf args with
  | .exec =>
    ({ w with txn := .none },
      .error "EXECABORT Transaction discarded because of previous errors.")
  | .discard => ({ w with txn := .none }, .simple "OK")
  | .multi => (w, .error "ERR Command 'multi' not allowed inside a transaction")
  | .watch => (w, .error "ERR Command 'watch' not allowed inside a transaction")
  | _ => (w, .simple "QUEUED")

/-- `WATCH`: it goes to the node of its first key, and binds the transaction there. -/
def watchStep (w : TxnWorld) (args : Args) (turn : TxnTurn) : Option (TxnWorld × Value) :=
  if w.txn.isOpen then some (w, .error "ERR Command 'watch' not allowed inside a transaction")
  else
    turn.routed.map fun a =>
      match w.callPinned cfg a args turn.hop turn.node with
      | (w', .ok v) => ({ w' with txn := { w'.txn with addr := some a } }, v)
      | (w', .error why) => (w'.abort, abortReply why)

/-- Send `MULTI` to a node: `none` in the second place where it is open there. -/
def openOn (w : TxnWorld) (a : Addr) (turn : TxnTurn) : TxnWorld × Option Value :=
  match w.callPinned cfg a ["MULTI"] turn.openHop turn.node with
  | (w', .ok v) =>
    if v.isOk then ({ w' with txn := { w'.txn with opened := true } }, none)
    else (w'.abort, some (abortReply "backend refused MULTI"))
  | (w', .error why) => (w'.abort, some (abortReply why))

def multiStep (w : TxnWorld) (turn : TxnTurn) : TxnWorld × Value :=
  if w.txn.isOpen then (w, .error "ERR Command 'multi' not allowed inside a transaction")
  else
    let w := { w with txn := { w.txn with isOpen := true } }
    match w.txn.addr with
    | some a =>
      match w.openOn cfg a turn with
      | (w', none) => (w', .simple "OK")
      | (w', some v) => (w', v)
    | none => ({ w with txn := { w.txn with opened := false } }, .simple "OK")

/-- The node that a command of the transaction goes to, where it is the transaction's. -/
def routedOf (w : TxnWorld) (args : Args) (turn : TxnTurn) : Option Addr :=
  if verbOf args = .publish ∧ w.txn.addr.isSome then none else turn.routed

def queueOn (w : TxnWorld) (a : Addr) (args : Args) (turn : TxnTurn) : TxnWorld × Value :=
  match w.callPinned cfg a args turn.hop turn.node with
  | (w', .ok v) =>
    (if v.isQueued then
        { w' with txn := { w'.txn with queued := w'.txn.queued ++ [.backend turn.nullArray] } }
      else w', v)
  | (w', .error why) => (w'.abort, abortReply why)

/-- **A command to queue**: it binds the transaction where nothing has, and opens it there. -/
def queueStep (w : TxnWorld) (args : Args) (turn : TxnTurn) : Option (TxnWorld × Value) :=
  let routed := w.routedOf args turn
  if w.txn.addr.isSome ∧ routed.isSome ∧ w.txn.addr ≠ routed then
    some (w.abort, abortReply "a key in this transaction belongs to a different shard")
  else
    ((w.txn.addr.or routed).or turn.keyless).map fun a =>
      let w := { w with txn := { w.txn with addr := some a } }
      if w.txn.opened then w.queueOn cfg a args turn
      else
        match w.openOn cfg a turn with
        | (w', none) => w'.queueOn cfg a args turn
        | (w', some v) => (w', v)

def unwatchStep (w : TxnWorld) (args : Args) (turn : TxnTurn) : Option (TxnWorld × Value) :=
  if w.txn.isOpen then
    if w.txn.addr.isNone then
      if args.length ≠ 1 then
        some (w.abort, .error "ERR wrong number of arguments for 'unwatch' command")
      else
        some ({ w with txn := { w.txn with queued := w.txn.queued ++ [.here (.simple "OK")] } },
          .simple "QUEUED")
    else w.queueStep cfg args turn
  else if args.length ≠ 1 then
    some (w, .error "ERR wrong number of arguments for 'unwatch' command")
  else
    match w.txn.addr with
    | none => some (w, .simple "OK")
    | some a =>
      match w.callPinned cfg a args turn.hop turn.node with
      | (w', .ok v) => some ({ w' with txn := { w'.txn with addr := none } }, v)
      | (w', .error why) => some (w'.abort, abortReply why)

def pendingAddr (w : TxnWorld) : Option Addr := if w.txn.opened then w.txn.addr else none

def discardStep (w : TxnWorld) (args : Args) (turn : TxnTurn) : TxnWorld × Value :=
  if w.txn.isOpen then
    match w.pendingAddr with
    | none => ({ w with txn := .none }, .simple "OK")
    | some a =>
      match ({ w with txn := .none } : TxnWorld).callPinned cfg a args turn.hop turn.node with
      | (w', .ok v) => (w', v)
      | (w', .error _) => (w', .simple "OK")
  else (w, .error "ERR DISCARD without MULTI")

def execItems : List QueuedItem → List Value → List Value
  | [], _ => []
  | .here v :: items, vs => v :: execItems items vs
  | .backend _ :: items, [] => .null :: execItems items []
  | .backend nullArray :: items, v :: vs =>
    (match v, nullArray with
      | .null, true => .array none
      | _, _ => v) :: execItems items vs

def execReply (queued : List QueuedItem) : Value → Value
  | .null => .array none
  | .array (some items) =>
    if items.length = queued.countP (fun q => match q with
        | .backend _ => true
        | .here _ => false) then
      .array (some (execItems queued items))
    else .array (some items)
  | v => v

/-- **`EXEC`.** -/
def execStep (w : TxnWorld) (args : Args) (turn : TxnTurn) : TxnWorld × Value :=
  if w.txn.isOpen then
    match w.pendingAddr with
    | none =>
      ({ w with txn := .none },
        .array (some (w.txn.queued.filterMap fun q => match q with
          | .here v => some v
          | .backend _ => none)))
    | some a =>
      match w.callPinned cfg a args turn.hop turn.node with
      | (w', .ok v) => ({ w' with txn := .none }, execReply w.txn.queued v)
      | (w', .error why) => ({ w'.abort with txn := .none }, abortReply why)
  else (w, .error "ERR EXEC without MULTI")

def refuseStep (w : TxnWorld) (why : String) : TxnWorld × Value := (w.abort, .error why)

/-- **What a transaction does with a command**: `none` where it is not its business. -/
def transactionStep (w : TxnWorld) (args : Args) (turn : TxnTurn) : Option (TxnWorld × Value) :=
  if args.isEmpty then none
  else if w.txn.doomed then some (w.doomedStep args)
  else
    match verbOf args with
    | .watch => w.watchStep cfg args turn
    | .unwatch => w.unwatchStep cfg args turn
    | .multi => some (w.multiStep cfg turn)
    | .discard => some (w.discardStep cfg args turn)
    | .exec => some (w.execStep cfg args turn)
    | .keyspace =>
      if w.txn.isOpen then
        if turn.onePair then w.queueStep cfg args turn
        else some (w.refuseStep
            ("ERR " ++ (args.headD "").toUpper ++ " inside a transaction would " ++
          "answer for one shard of this keyspace; send it outside MULTI"))
      else none
    | .subscription =>
      if w.txn.isOpen then
        some (w.refuseStep ("ERR " ++ (args.headD "").toUpper ++
          " inside a transaction is not served; send it outside MULTI"))
      else none
    | .publish => if w.txn.isOpen then w.queueStep cfg args turn else none
    | .other => if w.txn.isOpen then w.queueStep cfg args turn else none

/-- **A command of the client, through the proxy.**  What is no transaction's business runs at its
own node, on a connection shared with others. -/
def dataCommand (w : TxnWorld) (args : Args) (turn : TxnTurn) : TxnWorld × Value :=
  match turn.own with
  | some v => (w, v)
  | none =>
    match turn.family with
    | some v => ({ w with log := w.log ++ [.alone args] }, v)
    | none =>
      match turn.shed with
      | some v => (w, v)
      | none =>
        match w.transactionStep cfg args turn with
        | some r => r
        | none =>
          if args.isEmpty then (w, .error "ERR empty command")
          else ({ w with log := w.log ++ [.alone args] }, turn.node.alone)

/-! ## What the client was told -/

def isAbort : Value → Bool
  | .error e => startsWith e "EXECABORT"
  | _ => false

/-- The watches the client holds after a command: those that were answered `OK` since it last ended
a transaction, dropped its watches or was told that they are gone. -/
def armedAfter (w w' : TxnWorld) (args : Args) (v : Value) : List String :=
  match verbOf args with
  | .watch =>
    if w.txn.isOpen then w.armed
    else if v.isOk then w.armed ++ args.drop 1
    else if isAbort v then [] else w.armed
  | .unwatch =>
    if w.txn.isOpen then w.armed
    else if v.isError && !isAbort v then w.armed else []
  | _ => if w.txn.isOpen && !w'.txn.isOpen then [] else w.armed

def noteSent (w w' : TxnWorld) (args : Args) (v : Value) : TxnWorld :=
  let armed := w.armedAfter w' args v
  { w' with
    sent := if w.txn.isOpen && w'.txn.isOpen then w.sent ++ [(args, v)] else []
    armed := armed
    touched := w.touched && !armed.isEmpty }

end TxnWorld

/-- What may happen in a transaction. -/
inductive TxnEvent
  | command (args : Args) (turn : TxnTurn)
  /-- A connection of the client dies, or is given up for another command's sake. -/
  | drop (a : Addr)
  | bump (a : Addr) (k : String)
  | land (a : Addr) (k : String)

def TxnWorld.machine (cfg : TxnConfig) : Machine TxnWorld TxnEvent where
  init w := w = .start
  step w
    | .command args turn =>
      let r := w.dataCommand cfg args turn
      some (w.noteSent r.1 args r.2)
    | .drop a => some (w.dropConn a)
    | .bump a k =>
      some { w.bump cfg a [k] with pending := update w.pending a (k :: w.pending a) }
    | .land a k =>
      if k ∈ w.pending a then
        some { w with
          pending := update w.pending a ((w.pending a).erase k)
          touched := w.touched || (w.armed.contains k && cfg.owner k == a) }
      else none

/-! ## What a call can do -/

namespace TxnWorld

variable {cfg : TxnConfig} {w w' : TxnWorld} {a : Addr} {args : Args} {hop : Hop} {turn : NodeTurn}

abbrev controlled (cfg : TxnConfig) (w : TxnWorld) (a : Addr) (args : Args) (turn : NodeTurn) :
    NodeConn × List Ran × Value :=
  (w.conn a).control (w.version cfg a) args turn

theorem process_eq : ∃ versions, w.process cfg a args turn = ({ w with
          conns := update w.conns a (some (w.controlled cfg a args turn).1)
          log := w.log ++ (w.controlled cfg a args turn).2.1
          versions := versions },
        (w.controlled cfg a args turn).2.2) := by
  unfold process
  split
  · exact ⟨_, rfl⟩
  · exact ⟨w.versions, rfl⟩

theorem callPinned_eq : ∃ conns versions ran, (w.callPinned cfg a args hop turn).1 =
        { w with conns := conns, versions := versions, log := w.log ++ ran } ∧
      (ran = [] ∨ ran = (w.controlled cfg a args turn).2.1) := by
  obtain ⟨versions, hp⟩ := @process_eq cfg w a args turn
  cases hop with
  | unsent why => exact ⟨w.conns, w.versions, [], by simp [callPinned], .inl rfl⟩
  | refused e =>
    exact ⟨update w.conns a (some (w.conn a)), w.versions, [], by simp [callPinned],
      .inl rfl⟩
  | lost processed why =>
    cases processed with
    | true => exact ⟨_, versions, _,
        by simp only [callPinned, if_true, hp, dropConn]; rfl, .inr rfl⟩
    | false =>
      exact ⟨update w.conns a none, w.versions, [], by simp [callPinned, dropConn],
        .inl rfl⟩
  | answered =>
    refine ⟨update w.conns a (some (w.controlled cfg a args turn).1), versions, _, ?_,
      .inr rfl⟩
    simp only [callPinned, hp]
    split <;> rfl

theorem callPinned_ok {v : Value} (h : w.callPinned cfg a args hop turn = (w', .ok v)) :
    (∃ versions, w' = { w with
        conns := update w.conns a (some (w.controlled cfg a args turn).1)
        log := w.log ++ (w.controlled cfg a args turn).2.1
        versions := versions }) ∧
      v = (w.controlled cfg a args turn).2.2 := by
  obtain ⟨versions, hp⟩ := @process_eq cfg w a args turn
  cases hop with
  | answered =>
    simp only [callPinned, hp] at h
    split at h
    · exact absurd h (by simp)
    · simp only [Prod.mk.injEq, Except.ok.injEq] at h
      exact ⟨⟨versions, h.1.symm⟩, h.2.symm⟩
  | _ => exact absurd h (by simp [callPinned])

@[simp] theorem callPinned_txn : (w.callPinned cfg a args hop turn).1.txn = w.txn := by
  obtain ⟨_, _, _, hw, -⟩ := @callPinned_eq cfg w a args hop turn
  rw [hw]

theorem callPinned_versions (hv : verbOf args ≠ .exec) :
    (w.callPinned cfg a args hop turn).1.versions = w.versions := by
  cases hop with
  | unsent why | refused e => rfl
  | lost processed why =>
    cases processed with
    | true => simp [callPinned, process, dropConn, hv]
    | false => rfl
  | answered =>
    simp only [callPinned, process, if_neg hv]
    split <;> rfl

theorem verbOf_multi : verbOf ["MULTI"] = .multi := by decide +kernel

theorem openOn_eq (cfg : TxnConfig) (w : TxnWorld) (a : Addr) (turn : TxnTurn) :
    (∃ (w₁ : TxnWorld) (v : Value), w.openOn cfg a turn = (w₁.abort, some v) ∧ w₁.log = w.log ∧
        w₁.txn = w.txn) ∨ w.openOn cfg a turn = ({ w with
            txn := { w.txn with opened := true }
            conns := update w.conns a
              (some { w.conn a with txn := some ⟨[], false⟩ }) },
          none) := by
  have hversions := @callPinned_versions cfg w a ["MULTI"] turn.openHop turn.node
    (by rw [verbOf_multi]; exact nofun)
  have hran : (w.controlled cfg a ["MULTI"] turn.node).2.1 = [] := NodeConn.ran_multi verbOf_multi
  obtain ⟨conns, versions, ran, hw, hran'⟩ :=
    @callPinned_eq cfg w a ["MULTI"] turn.openHop turn.node
  have hnil : ran = [] := hran'.elim id fun h => h.trans hran
  unfold openOn
  rcases hcall : w.callPinned cfg a ["MULTI"] turn.openHop turn.node with ⟨w', res⟩
  rw [hcall, hnil, List.append_nil] at hw
  simp only at hw
  cases res with
  | error why => exact .inl ⟨w', _, rfl, by rw [hw], by rw [hw]⟩
  | ok v =>
    simp only
    cases hok : v.isOk with
    | false => exact .inl ⟨w', _, rfl, by rw [hw], by rw [hw]⟩
    | true =>
      obtain ⟨⟨versions', rfl⟩, rfl⟩ := callPinned_ok hcall
      obtain ⟨-, hconn⟩ := NodeConn.control_multi verbOf_multi hok
      rw [hcall] at hversions
      simp only at hversions
      simp only [if_true, hconn, hran, List.append_nil, hversions, or_true]

theorem abort_txn_eq (w : TxnWorld) :
    w.abort.txn = { ProxyTxn.none with isOpen := w.txn.isOpen, doomed := w.txn.isOpen } := rfl

@[simp] theorem abort_log (w : TxnWorld) : w.abort.log = w.log := by
  unfold abort
  cases w.txn.addr <;> rfl

variable {P : TxnWorld × Value → Prop} {turn : TxnTurn}

theorem transactionStep_cases {r : TxnWorld × Value} (hr : w.transactionStep cfg args turn = some r)
    (doomed : w.txn.doomed = true → P (w.doomedStep args))
    (watch : w.txn.doomed = false → verbOf args = .watch → w.watchStep cfg args turn = some r → P r)
    (unwatch : w.txn.doomed = false → verbOf args = .unwatch →
      w.unwatchStep cfg args turn = some r → P r)
    (multi : w.txn.doomed = false → verbOf args = .multi → P (w.multiStep cfg turn))
    (discard : verbOf args = .discard → P (w.discardStep cfg args turn))
    (exec : verbOf args = .exec → P (w.execStep cfg args turn))
    (refuse : w.txn.isOpen = true → ∀ why, P (w.refuseStep why))
    (queue : w.txn.doomed = false → w.txn.isOpen = true → Queues args →
      w.queueStep cfg args turn = some r → P r) : P r := by
  unfold transactionStep at hr
  split at hr
  · cases hr
  split at hr
  · cases hr
    exact doomed ‹_›
  rename_i hd
  have hd : w.txn.doomed = false := Bool.not_eq_true _ ▸ hd
  split at hr
  · exact watch hd ‹_› hr
  · exact unwatch hd ‹_› hr
  · cases hr
    exact multi hd ‹_›
  · cases hr
    exact discard ‹_›
  · cases hr
    exact exec ‹_›
  · rename_i hv
    split at hr
    · split at hr
      · exact queue hd ‹_› (by simp [Queues, hv]) hr
      · cases hr
        exact refuse ‹_› _
    · cases hr
  · split at hr
    · cases hr
      exact refuse ‹_› _
    · cases hr
  · rename_i hv
    split at hr
    · exact queue hd ‹_› (by simp [Queues, hv]) hr
    · cases hr
  rename_i hv
  split at hr
  · exact queue hd ‹_› (by simp [Queues, hv]) hr
  · cases hr

theorem dataCommand_cases
    (refused : ∀ v, turn.own = some v ∨ turn.family = none ∧ turn.own.or turn.shed = some v →
      P (w, v.1))
    (family : ∀ v, turn.family = some v → P ({ w with log := w.log ++ [.alone args] }, v))
    (txn : turn.own = none → turn.family = none → turn.shed = none →
      ∀ r, w.transactionStep cfg args turn = some r → P r)
    (empty : args = [] → P (w, .error "ERR empty command"))
    (alone : turn.family = none → turn.own.or turn.shed = none → args ≠ [] →
      w.transactionStep cfg args turn = none →
      P ({ w with log := w.log ++ [.alone args] }, turn.node.alone)) :
    P (w.dataCommand cfg args turn) := by
  unfold dataCommand
  split
  · exact refused _ (.inl ‹_›)
  rename_i hown
  split
  · exact family _ ‹_›
  rename_i hfamily
  split
  · next v hshed => exact refused v (.inr ⟨hfamily, by rw [hown, hshed]; rfl⟩)
  rename_i hshed
  split
  · next r hr => exact txn hown hfamily hshed r hr
  rename_i hnone
  split
  · next hempty => exact empty (List.isEmpty_iff.mp hempty)
  · rename_i hnamed
    exact alone hfamily (by rw [hown, hshed]; rfl)
      (fun he => hnamed (List.isEmpty_iff.mpr he)) hnone

end TxnWorld

/-! ## A fleet of two pairs -/

def twoPairs : TxnConfig where
  stripe k := k.length
  owner k := if startsWith k "a" then "10.0.0.1:6401" else "10.0.0.2:6401"

def answeredAt (a : Addr) : TxnTurn where
  own := none
  family := none
  shed := none
  routed := some a
  keyless := some a
  onePair := false
  openHop := .answered
  hop := .answered
  node := ⟨none, .simple "OK", none, [.simple "OK"], []⟩
  nullArray := false

def TxnWorld.after (cfg : TxnConfig) (es : List TxnEvent) : TxnWorld :=
  ((TxnWorld.machine cfg).exec .start es).getD .start

end Flint
