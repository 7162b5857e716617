import FlintCache.Proxy.Txn

/-!
# Proxy/TxnAtomic — all or nothing

`AllOrNothing` is what a client relies on: between `MULTI` and `EXEC` nothing runs, and `EXEC` runs
exactly the commands that were answered `QUEUED`, as one unit, or nothing — nothing, where one of
them was answered with an error.
-/

namespace Flint

open List TxnWorld Option Bool Value Function TxnEvent

/-! ## The property -/

/-- The commands but `UNWATCH`, which does nothing in `EXEC` and may be kept at the proxy. -/
def notUnwatch (cmds : List Args) : List Args := cmds.filter fun c => verbOf c ≠ .unwatch

def queuedOf (sent : List (Args × Value)) : List Args :=
  (sent.filter fun s => s.2.isQueued).map Prod.fst

def anyError (sent : List (Args × Value)) : Bool := sent.any fun s => s.2.isError

/-- **What a command of an open transaction may run**: nothing before `EXEC`, which runs the
commands answered `QUEUED` as one unit, where none was answered with an error — or nothing. -/
def AllOrNothing (w w' : TxnWorld) (args : Args) : Prop :=
  w.txn.isOpen = true →
    (verbOf args ≠ .exec → w'.log = w.log) ∧
    (verbOf args = .exec → w'.log = w.log ∨
      anyError w.sent = false ∧ ∃ cmds, w'.log = w.log ++ [.unit cmds] ∧
        notUnwatch cmds = notUnwatch (queuedOf w.sent))

/-! ## Runs that keep to the transaction -/

namespace TxnWorld

/-- **The command reaches the transaction**: it passes the proxy, is neither `MULTI` nor `WATCH`, a
node is known for it, and the connection with the queue is there. -/
def reaches (w : TxnWorld) (args : Args) (turn : TxnTurn) : Bool :=
  let ends := verbOf args = .exec || verbOf args = .discard
  !args.isEmpty && turn.own.all (fun v => !v.1.isError) && turn.shed.isNone &&
    verbOf args ≠ .multi && verbOf args ≠ .watch &&
    (ends || verbOf args = .unwatch || w.txn.addr.isSome || turn.routed.isSome ||
      turn.keyless.isSome) &&
    (ends || !w.txn.opened || w.txn.addr.any fun a => (w.conns a).isSome)

/-- **No command of an open transaction goes past it**: to a co-processor, or undoomed elsewhere. -/
def undisturbed (w : TxnWorld) : TxnEvent → Bool
  | .command args turn =>
    !w.txn.isOpen || (turn.family.isNone && (w.txn.doomed || w.reaches args turn))
  | _ => true

end TxnWorld

/-! ## The invariant -/

structure NodeTxn.Holds (t : NodeTxn) (sent : List (Args × Value)) : Prop where
  queue : notUnwatch t.queued = notUnwatch (queuedOf sent)
  poison : anyError sent = true → t.poisoned = true

theorem queuedOf_append (sent : List (Args × Value)) (args : Args) (v : Value) :
    queuedOf (sent ++ [(args, v)]) = queuedOf sent ++ if v.isQueued then [args] else [] := by
  unfold queuedOf
  cases hv : v.isQueued <;> simp [filter_append, hv]

theorem anyError_append (sent : List (Args × Value)) (args : Args) (v : Value) :
    anyError (sent ++ [(args, v)]) = (anyError sent || v.isError) := by
  simp [anyError]

theorem notUnwatch_append (cmds cmds' : List Args) :
    notUnwatch (cmds ++ cmds') = notUnwatch cmds ++ notUnwatch cmds' := filter_append ..

variable {v : Value}

namespace NodeTxn.Holds

variable {t : NodeTxn} {sent : List (Args × Value)} {args : Args}

theorem nil : Holds ⟨[], false⟩ [] := ⟨rfl, fun h => absurd h false_ne_true⟩

section

variable (h : t.Holds sent)
include h

theorem append_plain (hq : v.isQueued = false) (he : v.isError = false) :
    t.Holds (sent ++ [(args, v)]) := by
  refine ⟨?_, ?_⟩
  · rw [queuedOf_append, hq]
    simpa using h.queue
  · rw [anyError_append, he, Bool.or_false]
    exact h.poison

theorem append_queued :
    Holds { t with queued := t.queued ++ [args] } (sent ++ [(args, .simple "QUEUED")]) := by
  refine ⟨?_, ?_⟩
  · rw [queuedOf_append, notUnwatch_append, h.queue, ← notUnwatch_append]
    rfl
  · rw [anyError_append]
    simpa [isError] using h.poison

theorem append_poisoned (hq : v.isQueued = false) :
    Holds { t with poisoned := true } (sent ++ [(args, v)]) := by
  refine ⟨?_, fun _ => rfl⟩
  rw [queuedOf_append, hq]
  simpa using h.queue

theorem append_unwatch (hv : verbOf args = .unwatch) :
    t.Holds (sent ++ [(args, .simple "QUEUED")]) := by
  refine ⟨?_, ?_⟩
  · rw [queuedOf_append, notUnwatch_append, h.queue]
    simp [notUnwatch, hv, isQueued]
  · rw [anyError_append]
    simpa [isError] using h.poison

end

end NodeTxn.Holds

/-- **The proxy's record, the connections and what the client was told fit together.** -/
structure TxnSound (txn : ProxyTxn) (conns : Addr → Option NodeConn)
    (sent : List (Args × Value)) : Prop where
  closed : txn.isOpen = false → txn.opened = false ∧ txn.doomed = false
  doomed : txn.doomed = true → txn.opened = false
  bound : txn.opened = true → ∃ a, txn.addr = some a ∧
    ∀ c, conns a = some c → ∃ t, c.txn = some t ∧ t.Holds sent
  unbound : txn.isOpen = true → txn.opened = false → txn.doomed = false →
    NodeTxn.Holds ⟨[], false⟩ sent

namespace TxnSound

variable {txn : ProxyTxn} {conns conns' : Addr → Option NodeConn} {sent sent' : List (Args × Value)}

theorem of_closed (ho : txn.isOpen = false) (hopened : txn.opened = false)
    (hdoomed : txn.doomed = false) : TxnSound txn conns sent where
  closed _ := ⟨hopened, hdoomed⟩
  doomed h := absurd (hdoomed.symm.trans h) false_ne_true
  bound h := absurd (hopened.symm.trans h) false_ne_true
  unbound h := absurd (ho.symm.trans h) false_ne_true

theorem of_doomed (ho : txn.isOpen) (hopened : txn.opened = false)
    (hdoomed : txn.doomed) : TxnSound txn conns sent where
  closed h := absurd (h.symm.trans ho) false_ne_true
  doomed _ := hopened
  bound h := absurd (hopened.symm.trans h) false_ne_true
  unbound _ _ h := absurd (h.symm.trans hdoomed) false_ne_true

theorem abort (w : TxnWorld) : TxnSound w.abort.txn conns sent := by
  rw [abort_txn_eq]
  cases ho : w.txn.isOpen with
  | true => exact .of_doomed rfl rfl rfl
  | false => exact .of_closed rfl rfl rfl

theorem drop (h : TxnSound txn conns sent) (a : Addr) :
    TxnSound txn (update conns a none) sent where
  __ := h
  bound hopened := by
    obtain ⟨b, hb, hc⟩ := h.bound hopened
    refine ⟨b, hb, fun c hconn => hc c ?_⟩
    obtain ⟨-, ⟨⟩⟩ | ⟨-, hconn⟩ := update_eq_some_iff.mp hconn
    exact hconn

variable {args : Args}

theorem append_plain {v : Value} (h : TxnSound txn conns sent)
    (hq : v.isQueued = false) (he : v.isError = false) :
    TxnSound txn conns (sent ++ [(args, v)]) where
  __ := h
  bound hopened := by
    obtain ⟨b, hb, hc⟩ := h.bound hopened
    refine ⟨b, hb, fun c hconn => ?_⟩
    obtain ⟨t, ht, hholds⟩ := hc c hconn
    exact ⟨t, ht, hholds.append_plain hq he⟩
  unbound ho hopened hdoomed := (h.unbound ho hopened hdoomed).append_plain hq he

end TxnSound

/-! ## One command -/

/-- **What one command keeps**: the property, and the invariant with the answer noted. -/
structure StepSound (w : TxnWorld) (args : Args) (r : TxnWorld × Value) : Prop where
  atomic : AllOrNothing w r.1 args
  sound : TxnSound r.1.txn r.1.conns
    (if w.txn.isOpen && r.1.txn.isOpen then w.sent ++ [(args, r.2)] else [])

variable {w w' : TxnWorld}

theorem allOrNothing_of_log_eq (h : w'.log = w.log) : AllOrNothing w w' args :=
  fun _ => ⟨fun _ => h, fun _ => .inl h⟩

theorem allOrNothing_of_closed (h : w.txn.isOpen = false) : AllOrNothing w w' args :=
  fun ho => nomatch h.symm.trans ho

open TxnWorld

variable {cfg : TxnConfig}

namespace StepSound

variable {w w' : TxnWorld} {args : Args} {turn : TxnTurn} {a : Addr}

theorem of_abort (hlog : w'.log = w.log) : StepSound w args (w'.abort, v) :=
  ⟨allOrNothing_of_log_eq ((abort_log w').trans hlog), .abort w'⟩

theorem of_end (hlog : w'.log = w.log) (htxn : w'.txn = .none) : StepSound w args (w', v) := by
  refine ⟨allOrNothing_of_log_eq hlog, ?_⟩
  rw [htxn]
  exact .of_closed rfl rfl rfl

theorem log_callPinned {hop : Hop} {node : NodeTurn} (h : (w.controlled cfg a args node).2.1 = []) :
    (w.callPinned cfg a args hop node).1.log = w.log := by
  obtain ⟨conns, versions, ran, hw, hran | hran⟩ := @callPinned_eq cfg w a args hop node
  · rw [hw, hran]
    exact append_nil _
  · rw [hw, hran, h]
    exact append_nil _

theorem queueOn {c : NodeConn} {t : NodeTxn} (ho : w.txn.isOpen)
    (hopened : w.txn.opened) (hdoomed : w.txn.doomed = false) (haddr : w.txn.addr = some a)
    (hc : w.conns a = some c) (ht : c.txn = some t) (hh : t.Holds w.sent)
    (hv : Queues args) : StepSound w args (w.queueOn cfg a args turn) := by
  have hconn : w.conn a = c := by rw [conn, hc]; rfl
  have hran : (w.controlled cfg a args turn.node).2.1 = [] := by
    rw [controlled, hconn]
    exact NodeConn.ran_of_txn ht hv.2.2.2
  have hlog := @log_callPinned cfg w args a turn.hop turn.node hran
  unfold TxnWorld.queueOn
  rcases hcall : w.callPinned cfg a args turn.hop turn.node with ⟨w', res⟩
  rw [hcall] at hlog
  cases res with
  | error why => exact of_abort hlog
  | ok v =>
    obtain ⟨⟨versions, rfl⟩, rfl⟩ := callPinned_ok hcall
    have hbound : ∀ {t' : NodeTxn}, (w.controlled cfg a args turn.node).1.txn = some t' →
        t'.Holds (w.sent ++ [(args, (w.controlled cfg a args turn.node).2.2)]) →
        ∀ txn : ProxyTxn, txn.isOpen → txn.opened → txn.doomed = false →
        txn.addr = some a →
        TxnSound txn (update w.conns a (some (w.controlled cfg a args turn.node).1))
          (w.sent ++ [(args, (w.controlled cfg a args turn.node).2.2)]) := by
      intro t' ht' hh' txn h₁ h₂ h₃ h₄
      refine ⟨fun h => (nomatch h.symm.trans h₁),
        fun h => (nomatch h₃.symm.trans h), fun _ => ⟨a, h₄, fun c' hc' => ?_⟩,
        fun _ h => nomatch h.symm.trans h₂⟩
      rw [update_self] at hc'
      cases hc'
      exact ⟨t', ht', hh'⟩
    have hq := @NodeConn.control_queue (w.version cfg a) c args turn.node t ht hv
    rw [controlled, hconn] at hbound hlog ⊢
    rcases hq with ⟨hconn', hreply⟩ | ⟨hconn', hreply⟩
    · rw [hconn', hreply] at hbound
      have hsound := hbound rfl hh.append_queued
      simp only [hconn', hreply]
      refine ⟨allOrNothing_of_log_eq hlog, ?_⟩
      simp only [Value.isQueued, BEq.rfl, if_true, ho, Bool.and_self]
      exact hsound _ rfl hopened hdoomed haddr
    rw [hconn'] at hbound
    have hsound := hbound rfl (hh.append_poisoned hreply)
    simp only [hconn', hreply]
    refine ⟨allOrNothing_of_log_eq hlog, ?_⟩
    simp only [ho, Bool.and_self, if_true, Bool.false_eq_true, if_false]
    exact hsound _ ho hopened hdoomed haddr

variable {r : TxnWorld × Value}

theorem queueStep (h : TxnSound w.txn w.conns w.sent)
    (ho : w.txn.isOpen) (hdoomed : w.txn.doomed = false) (hv : Queues args)
    (halive : w.txn.opened → ∀ a, w.txn.addr = some a → (w.conns a).isSome)
    (hr : w.queueStep cfg args turn = some r) : StepSound w args r := by
  unfold TxnWorld.queueStep at hr
  simp only at hr
  split at hr
  · cases hr
    exact of_abort rfl
  obtain ⟨b, hb, rfl⟩ := map_eq_some_iff.mp hr
  have hsame : ∀ a, w.txn.addr = some a → a = b := by
    intro a ha
    rw [ha, some_or, some_or] at hb
    exact some.inj hb
  split
  · rename_i hopened
    have hopened : w.txn.opened := hopened
    obtain ⟨a, ha, hconn⟩ := h.bound hopened
    obtain rfl := hsame a ha
    obtain ⟨c, hc⟩ := isSome_iff_exists.mp (halive hopened a ha)
    obtain ⟨t, ht, hh⟩ := hconn c hc
    have hw : { w with txn := { w.txn with addr := some a } } = w := by rw [← ha]
    rw [hw]
    exact queueOn ho hopened hdoomed ha hc ht hh hv
  rename_i hopened
  have hopened : w.txn.opened = false := not_eq_true _ ▸ hopened
  have hh := h.unbound ho hopened hdoomed
  rcases openOn_eq cfg { w with txn := { w.txn with addr := some b } } b turn with
    ⟨w₁, v, hopen, hlog, -⟩ | hopen
  · rw [hopen]
    exact of_abort hlog
  rw [hopen]
  have hstep := @queueOn cfg
    { w with
      txn := { w.txn with addr := some b, opened := true }
      conns := update w.conns b (some { w.conn b with txn := some ⟨[], false⟩ }) }
    args turn b _ ⟨[], false⟩ ho rfl hdoomed rfl (update_self ..) rfl hh hv
  exact ⟨hstep.atomic, hstep.sound⟩

section

variable (h : TxnSound w.txn w.conns w.sent)
include h

theorem execStep (hv : verbOf args = .exec) : StepSound w args (w.execStep cfg args turn) := by
  unfold TxnWorld.execStep
  split
  · rename_i ho
    unfold pendingAddr
    cases hopened : w.txn.opened with
    | false => exact of_end rfl rfl
    | true =>
      obtain ⟨a, ha, hconn⟩ := h.bound hopened
      have hrun : ∀ w' : TxnWorld,
          w'.log = (w.callPinned cfg a args turn.hop turn.node).1.log → w'.txn = .none →
          ∀ v, StepSound w args (w', v) := by
        intro w' hlog' htxn v
        obtain ⟨conns, versions, ran, hw, hran⟩ :=
          @callPinned_eq cfg w a args turn.hop turn.node
        rw [hw] at hlog'
        have hnone : ran = [] → StepSound w args (w', v) :=
          fun hnil => of_end (by rw [hlog', hnil, append_nil]) htxn
        rcases hran with hnil | hran
        · exact hnone hnil
        rcases @NodeConn.ran_exec (w.version cfg a) (w.conn a) args turn.node hv with
          hnil | ⟨t, ht, hp, -, hunit⟩
        · exact hnone (hran.trans hnil)
        refine ⟨fun _ => ⟨fun hne => absurd hv hne, fun _ => .inr ?_⟩, ?_⟩
        · have hh : t.Holds w.sent := by
            cases hc : w.conns a with
            | none =>
              rw [conn, hc] at ht
              cases ht
            | some c =>
              rw [conn, hc, getD_some] at ht
              obtain ⟨t', ht', hh⟩ := hconn c hc
              obtain rfl := some.inj (ht.symm.trans ht')
              exact hh
          refine ⟨?_, t.queued, by rw [hlog', hran, ← hunit], hh.queue⟩
          cases he : anyError w.sent with
          | false => rfl
          | true => exact nomatch hp.symm.trans (hh.poison he)
        · rw [htxn]
          exact .of_closed rfl rfl rfl
      simp only [if_true, ha]
      rcases hcall : w.callPinned cfg a args turn.hop turn.node with ⟨w', res⟩
      rw [hcall] at hrun
      cases res with
      | ok v => exact hrun { w' with txn := .none } rfl rfl _
      | error why => exact hrun { w'.abort with txn := .none } (abort_log w') rfl _
  rename_i ho
  have ho : w.txn.isOpen = false := not_eq_true _ ▸ ho
  obtain ⟨hopened, hdoomed⟩ := h.closed ho
  exact ⟨allOrNothing_of_closed ho, .of_closed ho hopened hdoomed⟩

theorem discardStep (hv : verbOf args = .discard) :
    StepSound w args (w.discardStep cfg args turn) := by
  unfold TxnWorld.discardStep
  split
  · split
    · exact of_end rfl rfl
    rename_i a _
    obtain ⟨conns, versions, ran, hw, hran⟩ :=
      @callPinned_eq cfg { w with txn := .none } a args turn.hop turn.node
    have hnil : ran = [] := hran.elim id fun hran => hran.trans (NodeConn.ran_discard hv)
    rcases hcall : ({ w with txn := .none } : TxnWorld).callPinned cfg a args turn.hop
        turn.node with ⟨w', res⟩
    rw [hcall, hnil, append_nil] at hw
    simp only at hw
    cases res with
    | _ => exact of_end (by rw [hw]) (by rw [hw])
  rename_i ho
  have ho : w.txn.isOpen = false := not_eq_true _ ▸ ho
  obtain ⟨hopened, hdoomed⟩ := h.closed ho
  exact ⟨allOrNothing_of_closed ho, .of_closed ho hopened hdoomed⟩

theorem multiStep (ho : w.txn.isOpen = false) : StepSound w args (w.multiStep cfg turn) := by
  refine ⟨allOrNothing_of_closed ho, ?_⟩
  obtain ⟨hopened, hdoomed⟩ := h.closed ho
  rw [ho, Bool.false_and, if_neg Bool.false_ne_true]
  unfold TxnWorld.multiStep
  rw [if_neg (by rw [ho]; exact Bool.false_ne_true)]
  simp only
  cases haddr : w.txn.addr with
  | none =>
    exact ⟨nofun, fun hd => (nomatch hdoomed.symm.trans hd), nofun,
      fun _ _ _ => .nil⟩
  | some a =>
    simp only
    rcases openOn_eq cfg
        { w with txn := { w.txn with isOpen := true, addr := some a } } a turn with
      ⟨w₁, v, hopen, -, -⟩ | hopen
    · rw [hopen]
      exact .abort w₁
    rw [hopen]
    refine ⟨nofun, fun hd => (nomatch hdoomed.symm.trans hd),
      fun _ => ⟨a, rfl, fun c hc => ?_⟩, nofun⟩
    simp only [Function.update_self] at hc
    cases hc
    exact ⟨_, rfl, .nil⟩

end

theorem of_closed (ho : w.txn.isOpen = false) (hr : TxnSound w'.txn w'.conns []) :
    StepSound w args (w', v) := by
  refine ⟨allOrNothing_of_closed ho, ?_⟩
  rw [ho, Bool.false_and, if_neg Bool.false_ne_true]
  exact hr

section

variable (h : TxnSound w.txn w.conns w.sent)
include h

theorem watchStep
    (ho : w.txn.isOpen = false) (hr : w.watchStep cfg args turn = some r) : StepSound w args r := by
  obtain ⟨hopened, hdoomed⟩ := h.closed ho
  unfold TxnWorld.watchStep at hr
  rw [if_neg (by rw [ho]; exact false_ne_true)] at hr
  obtain ⟨a, -, rfl⟩ := map_eq_some_iff.mp hr
  rcases hcall : w.callPinned cfg a args turn.hop turn.node with ⟨w', res⟩
  cases res with
  | error why => exact of_closed ho (.abort w')
  | ok v =>
    obtain ⟨⟨versions, rfl⟩, -⟩ := callPinned_ok hcall
    exact of_closed ho (.of_closed ho hopened hdoomed)

theorem unwatchStep (hdoomed : w.txn.doomed = false) (hv : verbOf args = .unwatch)
    (halive : w.txn.opened → ∀ a, w.txn.addr = some a → (w.conns a).isSome)
    (hr : w.unwatchStep cfg args turn = some r) : StepSound w args r := by
  unfold TxnWorld.unwatchStep at hr
  split at hr
  · rename_i ho
    split at hr
    · rename_i haddr
      have hopened : w.txn.opened = false := by
        cases hopened : w.txn.opened with
        | false => rfl
        | true =>
          obtain ⟨a, ha, -⟩ := h.bound hopened
          rw [ha] at haddr
          exact absurd haddr false_ne_true
      split at hr
      · cases hr
        exact of_abort rfl
      cases hr
      refine ⟨allOrNothing_of_log_eq rfl, ?_⟩
      simp only [ho, Bool.and_self, if_true]
      exact ⟨nofun, fun hd => (nomatch hdoomed.symm.trans hd),
        fun hb => (nomatch hopened.symm.trans hb),
        fun _ _ _ => (h.unbound ho hopened hdoomed).append_unwatch hv⟩
    · exact queueStep h ho hdoomed (by simp [Queues, hv]) halive hr
  rename_i ho
  have ho : w.txn.isOpen = false := not_eq_true _ ▸ ho
  obtain ⟨hopened, -⟩ := h.closed ho
  have hsame : ∀ v, StepSound w args (w, v) := fun v => of_closed ho (.of_closed ho hopened hdoomed)
  split at hr
  · cases hr
    exact hsame _
  split at hr
  · cases hr
    exact hsame _
  rename_i a _
  split at hr
  · rename_i w' v hcall
    cases hr
    obtain ⟨⟨versions, rfl⟩, -⟩ := callPinned_ok hcall
    exact of_closed ho (.of_closed ho hopened hdoomed)
  · rename_i w' why hcall
    cases hr
    exact of_closed ho (.abort w')

theorem doomedStep (hdoomed : w.txn.doomed) : StepSound w args (w.doomedStep args) := by
  have ho : w.txn.isOpen := by
    cases ho : w.txn.isOpen with
    | true => rfl
    | false => exact nomatch (h.closed ho).2.symm.trans hdoomed
  have hsame : ∀ v, StepSound w args (w, v) := fun v =>
    ⟨allOrNothing_of_log_eq rfl, .of_doomed ho (h.doomed hdoomed) hdoomed⟩
  unfold TxnWorld.doomedStep
  split
  · exact of_end rfl rfl
  · exact of_end rfl rfl
  · exact hsame _
  · exact hsame _
  · exact hsame _

end

end StepSound

structure TxnWorld.Reaches (w : TxnWorld) (args : Args) (turn : TxnTurn) : Prop where
  named : args.isEmpty = false
  own : ∀ v, turn.own = some v → v.1.isError = false
  shed : turn.shed = none
  not_multi : verbOf args ≠ .multi
  not_watch : verbOf args ≠ .watch
  placed : verbOf args ≠ .exec → verbOf args ≠ .discard → verbOf args ≠ .unwatch →
    w.txn.addr = none → turn.routed = none → turn.keyless ≠ none
  alive : verbOf args ≠ .exec → verbOf args ≠ .discard → w.txn.opened = true →
    ∀ a, w.txn.addr = some a → (w.conns a).isSome = true

theorem TxnWorld.reaches_spec {w : TxnWorld} {turn : TxnTurn}
    (h : w.reaches args turn) : w.Reaches args turn := by
  simp only [reaches, and_eq_true, or_eq_true, not_eq_true',
    decide_eq_true_eq, isNone_iff_eq_none, isSome_iff_ne_none] at h
  obtain ⟨⟨⟨⟨⟨⟨hnamed, hown⟩, hshed⟩, hmulti⟩, hwatch⟩, hplaced⟩, halive⟩ := h
  refine ⟨hnamed, ?_, hshed, hmulti, hwatch, ?_, ?_⟩
  · intro v hv
    rw [hv] at hown
    simpa using hown
  · intro hexec hdiscard hunwatch haddr hrouted hkeyless
    simp [hexec, hdiscard, hunwatch, haddr, hrouted, hkeyless] at hplaced
  · intro hexec hdiscard hopened a ha
    simpa [hexec, hdiscard, hopened, ha] using halive

section Steps

variable {w w' : TxnWorld} {args : Args} {turn : TxnTurn} {e : TxnEvent}

section

variable (h : TxnSound w.txn w.conns w.sent)
include h

theorem StepSound.transactionStep (hg : w.txn.isOpen → w.txn.doomed = false → w.Reaches args turn)
    (hr : w.transactionStep cfg args turn = some r) : StepSound w args r := by
  have hclosed : verbOf args = .multi ∨ verbOf args = .watch → w.txn.doomed = false →
      w.txn.isOpen = false := by
    intro hv hdoomed
    cases ho : w.txn.isOpen with
    | false => rfl
    | true =>
      rcases hv with hv | hv
      · exact absurd hv (hg ho hdoomed).not_multi
      · exact absurd hv (hg ho hdoomed).not_watch
  have halive : w.txn.doomed = false → verbOf args ≠ .exec → verbOf args ≠ .discard →
      w.txn.opened → ∀ a, w.txn.addr = some a → (w.conns a).isSome := by
    intro hdoomed hexec hdiscard hopened
    cases ho : w.txn.isOpen with
    | false => exact nomatch (h.closed ho).1.symm.trans hopened
    | true => exact (hg ho hdoomed).alive hexec hdiscard hopened
  refine transactionStep_cases hr ?_ ?_ ?_ ?_ ?_ ?_ ?_ ?_
  · exact fun hdoomed => doomedStep h hdoomed
  · exact fun hdoomed hv hr => watchStep h (hclosed (.inr hv) hdoomed) hr
  · exact fun hdoomed hv hr =>
      unwatchStep h hdoomed hv (halive hdoomed (by simp [hv]) (by simp [hv])) hr
  · exact fun hdoomed hv => multiStep h (hclosed (.inl hv) hdoomed)
  · exact fun hv => discardStep h hv
  · exact fun hv => execStep h hv
  · exact fun _ _ => of_abort rfl
  · exact fun hdoomed ho hv hr => queueStep h ho hdoomed hv (halive hdoomed hv.2.2.2 hv.2.2.1) hr

omit h in
theorem TxnWorld.Reaches.transactionStep_ne_none (h : w.Reaches args turn)
    (ho : w.txn.isOpen) (hdoomed : w.txn.doomed = false) :
    w.transactionStep cfg args turn ≠ none := by
  have hqueue : verbOf args ≠ .exec → verbOf args ≠ .discard → verbOf args ≠ .unwatch →
      w.queueStep cfg args turn ≠ none := by
    intro hexec hdiscard hunwatch hnone
    unfold queueStep at hnone
    simp only at hnone
    split at hnone
    · cases hnone
    rw [map_eq_none_iff, or_eq_none_iff, or_eq_none_iff] at hnone
    obtain ⟨⟨haddr, hrouted⟩, hkeyless⟩ := hnone
    refine h.placed hexec hdiscard hunwatch haddr ?_ hkeyless
    simpa [routedOf, haddr] using hrouted
  intro hnone
  unfold transactionStep at hnone
  rw [h.named, hdoomed] at hnone
  simp only [false_eq_true, if_false, ho, if_true] at hnone
  split at hnone
  · exact h.not_watch ‹_›
  · rename_i hv
    unfold unwatchStep at hnone
    rw [ho] at hnone
    simp only [if_true] at hnone
    split at hnone
    · split at hnone <;> cases hnone
    rename_i haddr
    unfold queueStep at hnone
    simp only at hnone
    split at hnone
    · cases hnone
    · rw [map_eq_none_iff, or_eq_none_iff, or_eq_none_iff] at hnone
      rw [hnone.1.1] at haddr
      exact haddr rfl
  · cases hnone
  · cases hnone
  · cases hnone
  · rename_i hv
    split at hnone
    · exact hqueue (by simp [hv]) (by simp [hv]) (by simp [hv]) hnone
    · cases hnone
  · cases hnone
  · next hv => exact hqueue (by simp [hv]) (by simp [hv]) (by simp [hv]) hnone
  · next hv => exact hqueue (by simp [hv]) (by simp [hv]) (by simp [hv]) hnone

theorem StepSound.dataCommand
    (hg : w.undisturbed (.command args turn)) : StepSound w args (w.dataCommand cfg args turn) := by
  simp only [TxnWorld.undisturbed, Bool.or_eq_true, Bool.not_eq_true', Bool.and_eq_true,
    isNone_iff_eq_none] at hg
  have hreach : w.txn.isOpen → w.txn.doomed = false → w.Reaches args turn := by
    intro ho hdoomed
    rcases hg with hc | ⟨-, hd | hr⟩
    · exact nomatch hc.symm.trans ho
    · exact nomatch hdoomed.symm.trans hd
    · exact TxnWorld.reaches_spec hr
  -- A world that is left as it is, whether the transaction is closed, doomed or open.
  have hsame : ∀ {w' : TxnWorld} {v : Value}, w'.txn = w.txn → w'.conns = w.conns →
      (w.txn.isOpen → w'.log = w.log) →
      (w.txn.isOpen → w.txn.doomed = false → v.isQueued = false ∧ v.isError = false) →
      StepSound w args (w', v) := by
    intro w' v htxn hconns hlog hv
    refine ⟨fun ho => allOrNothing_of_log_eq (hlog ho) ho, ?_⟩
    simp only [htxn, hconns, Bool.and_self]
    cases ho : w.txn.isOpen with
    | false => exact .of_closed ho (h.closed ho).1 (h.closed ho).2
    | true =>
      rw [if_pos rfl]
      cases hdoomed : w.txn.doomed with
      | true => exact .of_doomed ho (h.doomed hdoomed) hdoomed
      | false => exact h.append_plain (hv ho hdoomed).1 (hv ho hdoomed).2
  have hpast : w.transactionStep cfg args turn = none → w.txn.isOpen →
      w.txn.doomed = false → False :=
    fun hnone ho hd => (hreach ho hd).transactionStep_ne_none ho hd hnone
  refine dataCommand_cases ?_ ?_ ?_ ?_ ?_
  · intro v hv
    refine hsame rfl rfl (fun _ => rfl) fun ho hd => ⟨v.2, (hreach ho hd).own v ?_⟩
    rcases hv with hown | ⟨-, hv⟩
    · exact hown
    · rwa [(hreach ho hd).shed, or_none] at hv
  · intro v hfamily
    have hc : w.txn.isOpen = false := by
      rcases hg with hc | ⟨hnone, -⟩
      · exact hc
      · exact nomatch hfamily.symm.trans hnone
    exact hsame rfl rfl (fun ho => nomatch hc.symm.trans ho)
      fun ho => nomatch hc.symm.trans ho
  · exact fun _ _ _ r hr => StepSound.transactionStep h hreach hr
  · intro hempty
    have hnone : w.transactionStep cfg args turn = none := by
      rw [hempty]
      rfl
    exact hsame rfl rfl (fun _ => rfl) fun ho hd => (hpast hnone ho hd).elim
  intro _ _ hnamed hnone
  refine hsame rfl rfl (fun ho => ?_) fun ho hd => (hpast hnone ho hd).elim
  cases hd : w.txn.doomed with
  | false => exact (hpast hnone ho hd).elim
  | true =>
    unfold TxnWorld.transactionStep at hnone
    rw [if_neg (by simpa using hnamed), if_pos hd] at hnone
    cases hnone

theorem txnSound_step (hg : w.undisturbed e)
    (hstep : (machine cfg).step w e = some w') : TxnSound w'.txn w'.conns w'.sent ∧
      ∀ args turn, e = .command args turn → AllOrNothing w w' args := by
  cases e with
  | command args turn =>
    cases hstep
    have hs := @StepSound.dataCommand cfg w args turn h hg
    refine ⟨hs.sound, fun args' turn' he => ?_⟩
    obtain ⟨rfl, -⟩ := command.inj he
    exact hs.atomic
  | drop a =>
    cases hstep
    exact ⟨h.drop a, fun _ _ he => TxnEvent.noConfusion he⟩
  | bump a k =>
    simp only [machine, some.injEq] at hstep
    subst hstep
    refine ⟨?_, fun _ _ he => TxnEvent.noConfusion he⟩
    simp only [TxnWorld.bump]
    exact h
  | land a k =>
    obtain ⟨-, ⟨⟩⟩ := ite_none_right_eq_some.mp hstep
    exact ⟨h, fun _ _ he => TxnEvent.noConfusion he⟩

end

/-- **Transactions through the proxy are all or nothing, along every run whose commands inside
`MULTI` keep to the transaction.** -/
theorem all_or_nothing (cfg : TxnConfig) (w w' : TxnWorld) (args : Args) (turn : TxnTurn)
    (h : (TxnWorld.machine cfg).Reach (fun w e => w.undisturbed e = true) w)
    (hg : w.undisturbed (.command args turn) = true)
    (hstep : (TxnWorld.machine cfg).step w (.command args turn) = some w') :
    AllOrNothing w w' args := by
  have hsound : TxnSound w.txn w.conns w.sent := by
    refine Machine.Reach.invariant (I := fun w => TxnSound w.txn w.conns w.sent) ?_ ?_ h
    · rintro s rfl
      exact .of_closed rfl rfl rfl
    · intro s e s' _ hs hok hst
      exact (txnSound_step hs hok hst).1
  exact (txnSound_step hsound hg hstep).2 args turn rfl

end Steps

def oneQueued : List TxnEvent :=
  [.command ["MULTI"] (answeredAt "10.0.0.1:6401"),
    .command ["SET", "a", "1"] (answeredAt "10.0.0.1:6401")]

theorem all_or_nothing_one_queued :
    AllOrNothing (.after twoPairs oneQueued)
        (.after twoPairs (oneQueued ++ [.command ["EXEC"] (answeredAt "10.0.0.1:6401")]))
        ["EXEC"] ∧
      (TxnWorld.after twoPairs
        (oneQueued ++ [.command ["EXEC"] (answeredAt "10.0.0.1:6401")])).log =
          [.unit [["SET", "a", "1"]]] := by
  have hguard : (machine twoPairs).Guarded (fun w e => w.undisturbed e = true) .start
      oneQueued := by decide +kernel
  have hexec : (machine twoPairs).exec .start oneQueued =
      some (.after twoPairs oneQueued) := rfl
  have hreach : (machine twoPairs).Reach (fun w e => w.undisturbed e = true)
      (.after twoPairs oneQueued) := .of_exec (.init rfl) hguard hexec
  exact ⟨all_or_nothing twoPairs _ _ ["EXEC"] (answeredAt "10.0.0.1:6401") hreach
    (by decide +kernel) rfl, by decide +kernel⟩

def thenDropped : List TxnEvent := oneQueued ++ [.drop "10.0.0.1:6401"]

def thenShed : List TxnEvent :=
  oneQueued ++ [.command ["SET", "ab", "2"]
    { answeredAt "10.0.0.1:6401" with shed := some ⟨.error "THROTTLED", rfl⟩ }]

theorem reachable_after {cfg : TxnConfig} {es : List TxnEvent}
    (h : (machine cfg).exec .start es = some (.after cfg es)) :
    (machine cfg).Reachable (.after cfg es) :=
  Machine.reachable_of_exec _ rfl h

/-- **Three ways past the transaction**: a write sent after its connection died and a co-processor's
command run at once, and `EXEC` runs the rest after a write was refused. -/
theorem runs_before_exec :
    (∃ w w', (TxnWorld.machine twoPairs).Reachable w ∧
      (TxnWorld.machine twoPairs).step w
        (.command ["SET", "ab", "2"] (answeredAt "10.0.0.1:6401")) = some w' ∧
      ¬ AllOrNothing w w' ["SET", "ab", "2"]) ∧
    (∃ w w', (TxnWorld.machine twoPairs).Reachable w ∧
      (TxnWorld.machine twoPairs).step w (.command ["VEC.SET", "a", "1"]
        { answeredAt "10.0.0.1:6401" with family := some (.simple "OK") }) = some w' ∧
      ¬ AllOrNothing w w' ["VEC.SET", "a", "1"]) ∧
    (∃ w w', (TxnWorld.machine twoPairs).Reachable w ∧
      (TxnWorld.machine twoPairs).step w (.command ["EXEC"] (answeredAt "10.0.0.1:6401")) =
        some w' ∧
      ¬ AllOrNothing w w' ["EXEC"]) := by
  refine ⟨⟨.after twoPairs thenDropped, _, reachable_after rfl, rfl, fun h => ?_⟩,
    ⟨.after twoPairs oneQueued, _, reachable_after rfl, rfl, fun h => ?_⟩,
    ⟨.after twoPairs thenShed, _, reachable_after rfl, rfl, fun h => ?_⟩⟩
  · exact absurd ((h (by decide +kernel)).1 (by decide +kernel)) (by decide +kernel)
  · exact absurd ((h (by decide +kernel)).1 (by decide +kernel)) (by decide +kernel)
  · rcases (h (by decide +kernel)).2 (by decide +kernel) with hlog | ⟨herr, -⟩
    · exact absurd hlog (by decide +kernel)
    · exact absurd herr (by decide +kernel)

end Flint
