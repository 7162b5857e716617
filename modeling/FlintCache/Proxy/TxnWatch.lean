import FlintCache.Proxy.Txn

/-!
# Proxy/TxnWatch — a watch protects

A client that holds watches expects its `EXEC` not to apply once another client has written a
watched key at its owner.  This needs every watch to be held by the connection that will run `EXEC`,
at the node that owns its key, and the node to see the write (`TxnWorld.watchful`).
-/

namespace Flint

open List TxnWorld Bool Nat
open Function (update update_of_ne update_self)
open Bool (and_eq_true not_eq_true' or_eq_true)

/-! ## The property -/

/-- A watched key was written at its owner after it was watched and before `EXEC` took effect. -/
def TxnWorld.overwritten (cfg : TxnConfig) (w : TxnWorld) (turn : TxnTurn) : Bool :=
  w.touched || turn.node.during.any fun k => w.armed.contains k && w.txn.addr == some (cfg.owner k)

/-- **`EXEC` does not apply over another's write of a watched key.** -/
def Protects (cfg : TxnConfig) (w w' : TxnWorld) (args : Args) (turn : TxnTurn) : Prop :=
  verbOf args = .exec → w.overwritten cfg turn = true → w'.log = w.log

/-! ## Runs in which the watches are where they should be -/

variable (cfg : TxnConfig)

namespace TxnWorld

/-- **A watch set where it protects**: it is refused, or goes to the node that owns all its keys and
has the client's other watches, with no write of the keys on its way there. -/
def setsWell (w : TxnWorld) (args : Args) (turn : TxnTurn) : Bool :=
  turn.family.isNone &&
    match turn.own.or turn.shed with
    | some v => !v.1.isOk
    | none =>
      turn.routed.any fun a =>
        (args.drop 1).all (fun k => cfg.owner k == a && !(w.pending a).contains k) &&
          (w.armed.isEmpty || w.txn.addr == some a)

/-- **The watches stay with the transaction**: set where they protect, not lost before `MULTI`, and
no watched key written between `EXEC`'s comparison and its lock. -/
def watchful (w : TxnWorld) : TxnEvent → Bool
  | .command args turn =>
    match verbOf args with
    | .watch => w.txn.isOpen || w.setsWell cfg args turn
    | .exec => turn.family.isNone && turn.node.during.all fun k => !w.armed.contains k
    | _ => true
  | .drop a => w.armed.isEmpty || w.txn.isOpen || w.txn.addr != some a
  | _ => true

end TxnWorld

/-! ## The invariant -/

structure ProxyTxn.Shaped (txn : ProxyTxn) : Prop where
  closed : txn.isOpen = false → txn.opened = false ∧ txn.doomed = false
  doomed : txn.doomed = true → txn.opened = false

/-- **The connection holds the watches**: each as old as its key or older — older, where a write of
the key is on its way — and one of them behind, where a watched key was written. -/
structure NodeConn.Guards (c : NodeConn) (version : String → ℕ) (pending armed : List String)
    (touched : Bool) : Prop where
  armed : ∀ k ∈ armed, ∃ v, (k, v) ∈ c.watches ∧ v ≤ version k ∧ (k ∈ pending → v < version k)
  broken : touched = true → ∃ k v, (k, v) ∈ c.watches ∧ v < version k

namespace TxnWorld

/-- **The watches are held at the bound node**, which owns their keys; a connection there holds them
all, or has lost its transaction with them. -/
def Held (w : TxnWorld) (armed : List String) (touched : Bool) : Prop :=
  w.txn.doomed = false → ∃ a, w.txn.addr = some a ∧ (w.txn.isOpen = true → w.txn.opened = true) ∧
    (∀ k ∈ armed, cfg.owner k = a) ∧ (w.txn.isOpen = false → (w.conns a).isSome = true) ∧
    ∀ c, w.conns a = some c → (w.txn.isOpen = true ∧ c.txn = none) ∨
      c.Guards (w.version cfg a) (w.pending a) armed touched

structure Watchful (w : TxnWorld) : Prop where
  shaped : w.txn.Shaped
  armed : w.touched = true → w.armed ≠ []
  held : w.armed ≠ [] → w.Held cfg w.armed w.touched

end TxnWorld

namespace NodeConn.Guards

variable {c c' : NodeConn} {version version' : String → ℕ} {pending pending' armed : List String}
  {touched : Bool}

theorem watchesBroken (h : c.Guards version pending armed true) : c.watchesBroken version := by
  obtain ⟨k, v, hmem, hlt⟩ := h.broken rfl
  exact any_eq_true.mpr ⟨(k, v), hmem, by simpa using ne_of_gt hlt⟩

variable {k : String}

theorem nil (c : NodeConn) : c.Guards version pending [] false := ⟨nofun, nofun⟩

section

variable (h : c.Guards version pending armed touched)
include h

theorem mono_watches
    (hw : ∀ x ∈ c.watches, x ∈ c'.watches) : c'.Guards version pending armed touched where
  armed k hk := by
    obtain ⟨v, hmem, hv⟩ := h.armed k hk
    exact ⟨v, hw _ hmem, hv⟩
  broken ht := by
    obtain ⟨k, v, hmem, hv⟩ := h.broken ht
    exact ⟨k, v, hw _ hmem, hv⟩

theorem watch {keys : List String} (hw : c'.watches = c.watches ++ keys.map fun k => (k, version k))
    (hfree : ∀ k ∈ keys, k ∉ pending) : c'.Guards version pending (armed ++ keys) touched := by
  have hold := @mono_watches c c' version pending armed touched h fun x hx => by
    rw [hw]
    exact mem_append_left _ hx
  refine ⟨fun k hk => ?_, hold.broken⟩
  rcases mem_append.mp hk with hk | hk
  · exact hold.armed k hk
  · refine ⟨version k, ?_, le_refl _, fun hp => absurd hp (hfree k hk)⟩
    rw [hw]
    exact mem_append_right _ (mem_map_of_mem hk)

theorem bump (hver : ∀ k, version k ≤ version' k)
    (hpend : ∀ k ∈ pending', k ∈ pending ∨ version k < version' k) :
    c.Guards version' pending' armed touched where
  armed k hk := by
    obtain ⟨v, hmem, hle, hlt⟩ := h.armed k hk
    refine ⟨v, hmem, le_trans hle (hver k), fun hp => ?_⟩
    rcases hpend k hp with hp | hmoved
    · exact lt_of_lt_of_le (hlt hp) (hver k)
    · exact lt_of_le_of_lt hle hmoved
  broken ht := by
    obtain ⟨k, v, hmem, hlt⟩ := h.broken ht
    exact ⟨k, v, hmem, lt_of_lt_of_le hlt (hver k)⟩

theorem touch (hk : k ∈ armed) (hp : k ∈ pending) : c.Guards version pending armed true where
  armed := h.armed
  broken _ := by
    obtain ⟨v, hmem, -, hlt⟩ := h.armed k hk
    exact ⟨k, v, hmem, hlt hp⟩

end

end NodeConn.Guards

/-! ## The proxy's record after a command -/

open TxnWorld

variable {cfg : TxnConfig} {r : TxnWorld × Value}

namespace ProxyTxn.Shaped

variable {w : TxnWorld} {a : Addr} {args : Args} {turn : TxnTurn}

theorem none : ProxyTxn.none.Shaped := ⟨fun _ => ⟨rfl, rfl⟩, nofun⟩

theorem of_open {txn : ProxyTxn} (ho : txn.isOpen) (hd : txn.doomed = false) : txn.Shaped :=
  ⟨fun h => (nomatch h.symm.trans ho),
    fun h => nomatch hd.symm.trans h⟩

theorem abort (w : TxnWorld) : w.abort.txn.Shaped := by
  rw [abort_txn_eq]
  cases ho : w.txn.isOpen with
  | true => exact ⟨nofun, fun _ => rfl⟩
  | false => exact .none

theorem queueOn (h : w.txn.Shaped) : (w.queueOn cfg a args turn).1.txn.Shaped := by
  have htxn := @callPinned_txn cfg w a args turn.hop turn.node
  unfold TxnWorld.queueOn
  rcases hcall : w.callPinned cfg a args turn.hop turn.node with ⟨w', res⟩
  rw [hcall] at htxn
  simp only at htxn
  rw [← htxn] at h
  cases res with
  | error why => exact abort w'
  | ok v =>
    simp only
    split
    · exact ⟨h.closed, h.doomed⟩
    · exact h

theorem openOn (ho : w.txn.isOpen) (hd : w.txn.doomed = false) :
    (w.openOn cfg a turn).1.txn.Shaped := by
  rcases openOn_eq cfg w a turn with ⟨w₁, v, hopen, -, -⟩ | hopen
  · rw [hopen]
    exact abort w₁
  · rw [hopen]
    exact of_open ho hd

theorem queueStep (ho : w.txn.isOpen) (hd : w.txn.doomed = false)
    (hr : w.queueStep cfg args turn = some r) : r.1.txn.Shaped := by
  unfold TxnWorld.queueStep at hr
  simp only at hr
  split at hr
  · cases hr
    exact abort w
  obtain ⟨b, -, rfl⟩ := Option.map_eq_some_iff.mp hr
  split
  · exact queueOn (of_open ho hd)
  rcases openOn_eq cfg { w with txn := { w.txn with addr := some b } } b turn with
    ⟨w₁, v, hopen, -, -⟩ | hopen
  · rw [hopen]
    exact abort w₁
  · rw [hopen]
    exact queueOn (of_open ho hd)

section

variable (h : w.txn.Shaped)
include h

theorem unwatchStep (hd : w.txn.doomed = false)
    (hr : w.unwatchStep cfg args turn = some r) : r.1.txn.Shaped := by
  unfold TxnWorld.unwatchStep at hr
  split at hr
  · rename_i ho
    split at hr
    · split at hr
      · cases hr
        exact abort w
      · cases hr
        exact of_open ho hd
    · exact queueStep ho hd hr
  split at hr
  · cases hr
    exact h
  split at hr
  · cases hr
    exact h
  rename_i a _
  have htxn := @callPinned_txn cfg w a args turn.hop turn.node
  split at hr
  · rename_i w' v hcall
    cases hr
    rw [hcall] at htxn
    simp only at htxn
    rw [← htxn] at h
    exact ⟨h.closed, h.doomed⟩
  · rename_i w' why hcall
    cases hr
    exact abort w'

theorem multiStep (hd : w.txn.doomed = false) : (w.multiStep cfg turn).1.txn.Shaped := by
  unfold TxnWorld.multiStep
  split
  · exact h
  simp only
  split
  · rename_i a _
    have hopen := @openOn cfg { w with txn := { w.txn with isOpen := true } } a turn rfl hd
    split
    · rename_i w' hw
      rw [hw] at hopen
      exact hopen
    · rename_i w' v hw
      rw [hw] at hopen
      exact hopen
  · exact of_open rfl hd

theorem watchStep (hr : w.watchStep cfg args turn = some r) : r.1.txn.Shaped := by
  unfold TxnWorld.watchStep at hr
  split at hr
  · cases hr
    exact h
  obtain ⟨a, -, rfl⟩ := Option.map_eq_some_iff.mp hr
  have htxn := @callPinned_txn cfg w a args turn.hop turn.node
  rcases hcall : w.callPinned cfg a args turn.hop turn.node with ⟨w', res⟩
  rw [hcall] at htxn
  simp only at htxn
  rw [← htxn] at h
  cases res with
  | error why => exact abort w'
  | ok v => exact ⟨h.closed, h.doomed⟩

theorem discardStep : (w.discardStep cfg args turn).1.txn.Shaped := by
  unfold TxnWorld.discardStep
  split
  · split
    · exact .none
    rename_i a _
    have htxn := @callPinned_txn cfg { w with txn := .none } a args turn.hop turn.node
    rcases hcall : ({ w with txn := .none } : TxnWorld).callPinned cfg a args turn.hop
        turn.node with ⟨w', res⟩
    rw [hcall] at htxn
    simp only at htxn
    cases res with
    | _ => rw [htxn]; exact .none
  · exact h

theorem execStep : (w.execStep cfg args turn).1.txn.Shaped := by
  unfold TxnWorld.execStep
  split
  · split
    · exact .none
    · split
      · exact .none
      · exact .none
  · exact h

theorem doomedStep : (w.doomedStep args).1.txn.Shaped := by
  unfold TxnWorld.doomedStep
  split
  · exact .none
  · exact .none
  · exact h
  · exact h
  · exact h

theorem transactionStep (hr : w.transactionStep cfg args turn = some r) : r.1.txn.Shaped := by
  refine transactionStep_cases (P := fun r => r.1.txn.Shaped) hr ?_ ?_ ?_ ?_ ?_ ?_ ?_ ?_
  · exact fun _ => h.doomedStep
  · exact fun _ _ hr => h.watchStep hr
  · exact fun hd _ hr => h.unwatchStep hd hr
  · exact fun hd _ => h.multiStep hd
  · exact fun _ => h.discardStep
  · exact fun _ => h.execStep
  · exact fun _ _ => abort w
  · exact fun hd ho _ hr => queueStep ho hd hr

end

end ProxyTxn.Shaped

/-! ## The watches after a command -/

open NodeConn

namespace TxnWorld

variable {w w' : TxnWorld} {a : Addr} {args : Args} {turn : TxnTurn} {armed : List String}
  {touched : Bool}

theorem Held.abort (ho : w.txn.isOpen) : w.abort.Held cfg armed touched := by
  intro hd
  rw [abort_txn_eq, ho] at hd
  cases hd

theorem version_congr (hver : w'.versions = w.versions) : w'.version cfg a = w.version cfg a := by
  unfold version
  rw [hver]

namespace Held

variable (h : w.Held cfg armed touched)
include h

theorem same (htxn : w'.txn = w.txn) (hconns : w'.conns = w.conns)
    (hver : w'.versions = w.versions) (hpend : w'.pending = w.pending) :
    w'.Held cfg armed touched := by
  unfold Held version at *
  rw [htxn, hconns, hver, hpend]
  exact h

theorem queueOn (ho : w.txn.isOpen)
    (hd : w.txn.doomed = false) (haddr : w.txn.addr = some a) (hv : Queues args) :
    (w.queueOn cfg a args turn).1.Held cfg armed touched := by
  obtain ⟨b, hb, hopened, howner, -, hconn⟩ := h hd
  obtain rfl := Option.some.inj (hb.symm.trans haddr)
  have htxn := @callPinned_txn cfg w b args turn.hop turn.node
  have hver := @callPinned_versions cfg w b args turn.hop turn.node hv.2.2.2
  unfold queueOn
  rcases hcall : w.callPinned cfg b args turn.hop turn.node with ⟨w', res⟩
  rw [hcall] at htxn hver
  cases res with
  | error why => exact .abort (by rw [htxn]; exact ho)
  | ok v =>
    have hversion := @version_congr cfg w w' b hver
    obtain ⟨⟨versions, rfl⟩, -⟩ := callPinned_ok hcall
    -- The connection keeps its watches with its transaction, or has neither.
    have hafter : (w.txn.isOpen ∧ (w.controlled cfg b args turn.node).1.txn = none) ∨
        (w.controlled cfg b args turn.node).1.Guards (w.version cfg b) (w.pending b) armed
          touched := by
      cases ht : (w.conn b).txn with
      | none => exact .inl ⟨ho, control_txn_none ht hv⟩
      | some t =>
        have hc : w.conns b = some (w.conn b) := by
          cases hc : w.conns b with
          | none => exact absurd ht (by simp [conn, hc, fresh])
          | some c => simp [conn, hc]
        rcases hconn _ hc with ⟨-, hnone⟩ | hguards
        · exact nomatch hnone.symm.trans ht
        refine .inr (hguards.mono_watches fun x hx => ?_)
        rcases control_queue ht hv with ⟨hq, -⟩ | ⟨hq, -⟩
        · rw [hq]; exact hx
        · rw [hq]; exact hx
    simp only
    split
    all_goals
      intro _
      refine ⟨b, hb, hopened, howner, fun hc => (nomatch hc.symm.trans ho),
        fun c hc => ?_⟩
      simp only [update_self, Option.some.injEq] at hc
      subst hc
      rw [← hversion] at hafter
      exact hafter

theorem queueStep (ho : w.txn.isOpen) (hd : w.txn.doomed = false) (hv : Queues args)
    (hr : w.queueStep cfg args turn = some r) : r.1.Held cfg armed touched := by
  obtain ⟨a, ha, hopened, -⟩ := h hd
  unfold TxnWorld.queueStep at hr
  simp only at hr
  split at hr
  · cases hr
    exact .abort ho
  obtain ⟨b, hb, rfl⟩ := Option.map_eq_some_iff.mp hr
  rw [ha] at hb
  cases hb
  rw [if_pos (hopened ho)]
  have hsame : ({ w with txn := { w.txn with addr := some a } } : TxnWorld) = w := by rw [← ha]
  rw [hsame]
  exact h.queueOn ho hd ha hv

theorem multiStep (hd : w.txn.doomed = false) :
    (w.multiStep cfg turn).1.Held cfg armed touched := by
  obtain ⟨a, ha, -, howner, hsome, hconn⟩ := h hd
  unfold TxnWorld.multiStep
  split
  · exact h
  rename_i hclosed
  have hclosed : w.txn.isOpen = false := not_eq_true _ ▸ hclosed
  simp only
  split
  · rename_i b hb
    obtain rfl := Option.some.inj (ha.symm.trans hb)
    rcases openOn_eq cfg { w with txn := { w.txn with isOpen := true } } a turn with
      ⟨w₁, v, hopen, -, htxn⟩ | hopen
    · rw [hopen]
      exact .abort (by rw [htxn])
    rw [hopen]
    intro _
    refine ⟨a, ha, fun _ => rfl, howner, nofun, fun c hc => .inr ?_⟩
    simp only [update_self, Option.some.injEq] at hc
    subst hc
    obtain ⟨c, hc⟩ := Option.isSome_iff_exists.mp (hsome hclosed)
    rcases hconn c hc with ⟨ho, -⟩ | hguards
    · exact nomatch hclosed.symm.trans ho
    · refine hguards.mono_watches fun x hx => ?_
      simpa [conn, hc] using hx
  · next hnone => exact nomatch ha.symm.trans hnone

theorem unwatchStep (ho : w.txn.isOpen) (hd : w.txn.doomed = false) (hv : verbOf args = .unwatch)
    (hr : w.unwatchStep cfg args turn = some r) : r.1.Held cfg armed touched := by
  obtain ⟨a, ha, -⟩ := h hd
  unfold TxnWorld.unwatchStep at hr
  rw [if_pos ho, ha] at hr
  exact h.queueStep ho hd (by simp [Queues, hv]) hr

end Held

/-! ### The client's record -/

variable {v : Value}

theorem armedAfter_open (ho : w.txn.isOpen) : w.armedAfter w' args v = [] ∨
      w.armedAfter w' args v = w.armed ∧
        (verbOf args ≠ .watch → verbOf args ≠ .unwatch → w'.txn.isOpen) := by
  unfold armedAfter
  split
  · rename_i hv
    rw [if_pos ho]
    exact .inr ⟨rfl, fun hv' => absurd hv hv'⟩
  · rename_i hv
    rw [if_pos ho]
    exact .inr ⟨rfl, fun _ hv' => absurd hv hv'⟩
  · cases ho' : w'.txn.isOpen with
    | false => exact .inl (by rw [ho]; rfl)
    | true => exact .inr ⟨by rw [ho]; rfl, fun _ _ => rfl⟩

theorem armedAfter_closed (ho : w.txn.isOpen = false)
    (hv : verbOf args ≠ .watch ∧ verbOf args ≠ .unwatch) : w.armedAfter w' args v = w.armed := by
  unfold armedAfter
  split
  · exact absurd ‹_› hv.1
  · exact absurd ‹_› hv.2
  · rw [ho]
    rfl

theorem armedAfter_same (htxn : w'.txn = w.txn)
    (hv : verbOf args = .watch → w.txn.isOpen = false → v.isOk = false) :
    w.armedAfter w' args v = [] ∨ w.armedAfter w' args v = w.armed := by
  cases ho : w.txn.isOpen with
  | true => exact (armedAfter_open ho).imp_right And.left
  | false =>
    unfold armedAfter
    split
    · rename_i hwatch
      rw [ho, hv hwatch ho]
      cases isAbort v
      · exact .inr rfl
      · exact .inl rfl
    · rw [ho]
      cases v.isError && !isAbort v
      · exact .inl rfl
      · exact .inr rfl
    · rw [htxn, ho]
      exact .inr rfl

@[simp] theorem isAbort_abortReply (why : String) : isAbort (abortReply why) := by
  simp [isAbort, abortReply, startsWith, String.toList_append, isPrefixOf]

@[simp] theorem isOk_abortReply (why : String) : (abortReply why).isOk = false := rfl

def Keeps (cfg : TxnConfig) (w : TxnWorld) (args : Args) (r : TxnWorld × Value) : Prop :=
  w.armedAfter r.1 args r.2 ≠ [] → r.1.Held cfg (w.armedAfter r.1 args r.2) w.touched

theorem Keeps.of_open (ho : w.txn.isOpen)
    (h : w.armed ≠ [] → r.1.Held cfg w.armed w.touched) : Keeps cfg w args r := by
  intro hne
  rcases @armedAfter_open w r.1 args r.2 ho with harmed | ⟨harmed, -⟩
  · exact absurd harmed hne
  · rw [harmed] at hne ⊢
    exact h hne

theorem Keeps.of_ended (ho : w.txn.isOpen)
    (hended : r.1.txn = .none) (hv : verbOf args = .exec ∨ verbOf args = .discard) :
    Keeps cfg w args r := by
  intro hne
  rcases @armedAfter_open w r.1 args r.2 ho with harmed | ⟨-, hopen⟩
  · exact absurd harmed hne
  · have := hopen (by rcases hv with hv | hv <;> simp [hv])
      (by rcases hv with hv | hv <;> simp [hv])
    rw [hended] at this
    exact absurd this false_ne_true

namespace Keeps

variable (h : w.armed ≠ [] → w.Held cfg w.armed w.touched)
include h

theorem same (hsame : ∃ log, r.1 = { w with log := log })
    (harmed : w.armedAfter r.1 args r.2 = [] ∨ w.armedAfter r.1 args r.2 = w.armed) :
    Keeps cfg w args r := by
  intro hne
  rcases harmed with harmed | harmed
  · exact absurd harmed hne
  · obtain ⟨log, hlog⟩ := hsame
    rw [harmed] at hne ⊢
    exact (h hne).same (by rw [hlog]) (by rw [hlog]) (by rw [hlog]) (by rw [hlog])

theorem unwatchStep (hv : verbOf args = .unwatch) (hclosed : w.txn.isOpen = false)
    (hr : w.unwatchStep cfg args turn = some r) : Keeps cfg w args r := by
  unfold TxnWorld.unwatchStep at hr
  rw [if_neg (by simp [hclosed])] at hr
  split at hr
  · cases hr
    refine .same h ⟨_, rfl⟩ (.inr ?_)
    simp [armedAfter, hv, hclosed, Value.isError, isAbort, startsWith]
  rename_i hlen
  split at hr
  · cases hr
    exact .same h ⟨_, rfl⟩ (.inl (by simp [armedAfter, hv, hclosed, Value.isError]))
  split at hr
  · rename_i w' v hcall
    cases hr
    obtain ⟨-, rfl⟩ := callPinned_ok hcall
    have herr := @NodeConn.control_unwatch (w.version cfg ‹_›) (w.conn ‹_›) args turn.node hv
      (not_not.mp hlen)
    exact fun hne => absurd (by simp [armedAfter, hv, hclosed, herr]) hne
  · cases hr
    exact fun hne => absurd (by simp [armedAfter, hv, hclosed]) hne

theorem discardStep
    (hv : verbOf args = .discard) : Keeps cfg w args (w.discardStep cfg args turn) := by
  have htxn : ∀ b, (({ w with txn := .none } : TxnWorld).callPinned cfg b args turn.hop
      turn.node).1.txn = .none := fun b => callPinned_txn
  cases ho : w.txn.isOpen with
  | true =>
    refine .of_ended ho ?_ (.inr hv)
    unfold TxnWorld.discardStep
    rw [if_pos ho]
    split
    · rfl
    rename_i b _
    have htxn := htxn b
    split
    · next w' v hcall => rwa [hcall] at htxn
    · next w' why hcall => rwa [hcall] at htxn
  | false =>
    unfold TxnWorld.discardStep
    rw [if_neg (by simp [ho])]
    exact .same h ⟨_, rfl⟩ (.inr (armedAfter_closed ho (by simp [hv])))

theorem execStep (hv : verbOf args = .exec) : Keeps cfg w args (w.execStep cfg args turn) := by
  cases ho : w.txn.isOpen with
  | true =>
    refine .of_ended ho ?_ (.inl hv)
    unfold TxnWorld.execStep
    rw [if_pos ho]
    split
    · rfl
    · split <;> rfl
  | false =>
    unfold TxnWorld.execStep
    rw [if_neg (by simp [ho])]
    exact .same h ⟨_, rfl⟩ (.inr (armedAfter_closed ho (by simp [hv])))

end Keeps

theorem Keeps.doomedStep (ho : w.txn.isOpen) (hd : w.txn.doomed) :
    Keeps cfg w args (w.doomedStep args) := by
  have hheld : w.armed ≠ [] → w.Held cfg w.armed w.touched :=
    fun _ hd' => nomatch hd'.symm.trans hd
  unfold TxnWorld.doomedStep
  split
  · exact .of_ended ho rfl (.inl ‹_›)
  · exact .of_ended ho rfl (.inr ‹_›)
  · exact .of_open ho hheld
  · exact .of_open ho hheld
  · exact .of_open ho hheld

theorem setsWell_iff (hset : w.setsWell cfg args turn) (hown : turn.own = none)
    (hshed : turn.shed = none) :
    ∃ a, turn.routed = some a ∧ (∀ k ∈ args.drop 1, cfg.owner k = a ∧ k ∉ w.pending a) ∧
      (w.armed = [] ∨ w.txn.addr = some a) := by
  simp only [setsWell, hown, hshed, Option.or_none, and_eq_true, Option.any_eq_true_iff_get,
    all_eq_true, beq_iff_eq, not_eq_true', contains_eq_mem, decide_eq_false_iff_not,
    or_eq_true, List.isEmpty_iff] at hset
  obtain ⟨-, hsome, hkeys, hbound⟩ := hset
  exact ⟨_, (Option.some_get hsome).symm, hkeys, hbound⟩

theorem Held.ran_exec (h : w.Held cfg armed true) (hd : w.txn.doomed = false)
    (haddr : w.txn.addr = some a) (hv : verbOf args = .exec) (turn : NodeTurn) :
    (w.controlled cfg a args turn).2.1 = [] := by
  obtain ⟨b, hb, -, -, -, hconn⟩ := h hd
  obtain rfl := Option.some.inj (hb.symm.trans haddr)
  rcases @NodeConn.ran_exec (w.version cfg b) (w.conn b) args turn hv with
    hnil | ⟨t, ht, -, hwhole, -⟩
  · exact hnil
  unfold conn at ht hwhole
  cases hc : w.conns b with
  | none =>
    rw [hc] at ht
    cases ht
  | some c =>
    rw [hc] at ht hwhole
    rcases hconn c hc with ⟨-, hnone⟩ | hguards
    · exact nomatch hnone.symm.trans ht
    · exact nomatch hwhole.symm.trans hguards.watchesBroken

theorem Held.execStep_log (h : w.Held cfg armed true) (hd : w.txn.doomed = false)
    (hv : verbOf args = .exec) : (w.execStep cfg args turn).1.log = w.log := by
  unfold execStep
  split
  · split
    · rfl
    rename_i a ha
    have haddr : w.txn.addr = some a := by
      unfold pendingAddr at ha
      split at ha
      · exact ha
      · cases ha
    obtain ⟨conns, versions, ran, hw, hran⟩ := @callPinned_eq cfg w a args turn.hop turn.node
    have hnil : ran = [] := hran.elim id fun hran => hran.trans (h.ran_exec hd haddr hv turn.node)
    rw [hnil, append_nil] at hw
    split
    · rename_i w' v hcall
      rw [hcall] at hw
      simp only at hw
      rw [hw]
    rename_i w' why hcall
    rw [hcall] at hw
    simp only at hw
    rw [abort_log, hw]
  · rfl

section

variable (h : w.Watchful cfg)
include h

theorem Watchful.guards_conn (hclosed : w.txn.isOpen = false)
    (hbound : w.armed = [] ∨ w.txn.addr = some a) : (∀ k ∈ w.armed, cfg.owner k = a) ∧
      (w.conn a).Guards (w.version cfg a) (w.pending a) w.armed w.touched := by
  by_cases hne : w.armed = []
  · have htouched : w.touched = false := eq_false_iff.mpr fun ht => h.armed ht hne
    rw [hne, htouched]
    exact ⟨nofun, .nil _⟩
  obtain ⟨b, hb, -, hkeys, hsome, hconn⟩ := h.held hne (h.shaped.closed hclosed).2
  obtain rfl := Option.some.inj (hb.symm.trans (hbound.resolve_left hne))
  obtain ⟨c, hc⟩ := Option.isSome_iff_exists.mp (hsome hclosed)
  rw [conn, hc]
  refine ⟨hkeys, (hconn c hc).resolve_left fun hopen => ?_⟩
  exact nomatch hclosed.symm.trans hopen.1

theorem Watchful.guards_watch (hv : verbOf args = .watch)
    (hclosed : w.txn.isOpen = false) (hbound : w.armed = [] ∨ w.txn.addr = some a)
    (howner : ∀ k ∈ args.drop 1, cfg.owner k = a ∧ k ∉ w.pending a)
    (hne : w.armedAfter w' args (w.controlled cfg a args turn.node).2.2 ≠ []) :
    (∀ k ∈ w.armedAfter w' args (w.controlled cfg a args turn.node).2.2, cfg.owner k = a) ∧
      (w.controlled cfg a args turn.node).1.Guards (w.version cfg a) (w.pending a)
        (w.armedAfter w' args (w.controlled cfg a args turn.node).2.2) w.touched := by
  obtain ⟨hkeys, hguards⟩ := h.guards_conn hclosed hbound
  simp only [armedAfter, hv, hclosed, Bool.false_eq_true, if_false] at hne ⊢
  rcases @NodeConn.control_watch (w.version cfg a) (w.conn a) args turn.node hv with
    ⟨hok, hwatches⟩ | ⟨hok, hsame⟩
  · rw [hok, if_pos rfl]
    refine ⟨fun k hk => ?_, hguards.watch hwatches fun k hk => (howner k hk).2⟩
    rcases mem_append.mp hk with hk | hk
    · exact hkeys k hk
    · exact (howner k hk).1
  rw [hok, if_neg Bool.false_ne_true] at hne ⊢
  split
  · next habort => exact absurd (if_pos habort) hne
  · rw [hsame]
    exact ⟨hkeys, hguards⟩

theorem Keeps.watchStep (hv : verbOf args = .watch)
    (hclosed : w.txn.isOpen = false) (hrouted : turn.routed = some a)
    (howner : ∀ k ∈ args.drop 1, cfg.owner k = a ∧ k ∉ w.pending a)
    (hbound : w.armed = [] ∨ w.txn.addr = some a)
    (hr : w.watchStep cfg args turn = some r) : Keeps cfg w args r := by
  have hver := @callPinned_versions cfg w a args turn.hop turn.node (by simp [hv])
  unfold TxnWorld.watchStep at hr
  rw [if_neg (by simp [hclosed]), hrouted, Option.map_some] at hr
  rcases hcall : w.callPinned cfg a args turn.hop turn.node with ⟨w', res⟩
  rw [hcall] at hver
  simp only [hcall] at hr
  cases res with
  | error why =>
    cases hr
    exact fun hne => absurd (by simp [armedAfter, hv, hclosed]) hne
  | ok v =>
    cases hr
    have hversion := @version_congr cfg w w' a hver
    obtain ⟨⟨versions, rfl⟩, rfl⟩ := callPinned_ok hcall
    intro hne _
    obtain ⟨hkeys, hguards⟩ := h.guards_watch hv hclosed hbound howner hne
    refine ⟨a, rfl, fun ho => (nomatch hclosed.symm.trans ho), hkeys,
      fun _ => by simp, fun c hc => .inr ?_⟩
    simp only [update_self, Option.some.injEq] at hc
    subst hc
    rw [← hversion] at hguards
    exact hguards

theorem Keeps.transactionStep
    (hown : turn.own = none) (hshed : turn.shed = none) (hg : w.watchful cfg (.command args turn))
    (hr : w.transactionStep cfg args turn = some r) : Keeps cfg w args r := by
  refine transactionStep_cases (P := Keeps cfg w args) hr ?_ ?_ ?_ ?_ ?_ ?_ ?_ ?_
  · intro hd
    refine .doomedStep ?_ hd
    cases ho : w.txn.isOpen with
    | true => rfl
    | false => exact nomatch (h.shaped.closed ho).2.symm.trans hd
  · intro _ hv hr
    cases ho : w.txn.isOpen with
    | true =>
      unfold TxnWorld.watchStep at hr
      rw [if_pos ho] at hr
      cases hr
      exact .of_open ho h.held
    | false =>
      simp only [watchful, hv, ho, Bool.false_or] at hg
      obtain ⟨a, hrouted, howner, hbound⟩ := setsWell_iff hg hown hshed
      exact .watchStep h hv ho hrouted howner hbound hr
  · intro hd hv hr
    cases ho : w.txn.isOpen with
    | true => exact .of_open ho fun hne => (h.held hne).unwatchStep ho hd hv hr
    | false => exact .unwatchStep h.held hv ho hr
  · intro hd hv hne
    cases ho : w.txn.isOpen with
    | true =>
      exact Keeps.of_open (r := w.multiStep cfg turn) ho (fun hne => (h.held hne).multiStep hd) hne
    | false =>
      rw [armedAfter_closed ho (by simp [hv])] at hne ⊢
      exact (h.held hne).multiStep hd
  · exact fun hv => .discardStep h.held hv
  · exact fun hv => .execStep h.held hv
  · exact fun ho _ => .of_open ho fun _ => .abort ho
  · exact fun hd ho hv hr => .of_open ho fun hne => (h.held hne).queueStep ho hd hv hr

omit h in
theorem transactionStep_watch (hv : verbOf args = .watch) (hrouted : turn.routed = some a) :
    w.transactionStep cfg args turn ≠ none := by
  have hnamed : args.isEmpty = false := by
    cases args with
    | nil => exact absurd hv (by decide +kernel)
    | cons _ _ => rfl
  unfold transactionStep
  rw [if_neg (by simp [hnamed])]
  split
  · exact nofun
  simp only [hv]
  unfold watchStep
  rw [hrouted]
  split <;> exact nofun

theorem Keeps.dataCommand (hg : w.watchful cfg (.command args turn)) :
    Keeps cfg w args (w.dataCommand cfg args turn) := by
  have hset : verbOf args = .watch → w.txn.isOpen = false → w.setsWell cfg args turn := by
    intro hv ho
    simpa [watchful, hv, ho] using hg
  refine dataCommand_cases ?_ ?_ ?_ ?_ ?_
  · intro v hown
    refine .same h.held ⟨_, rfl⟩ (armedAfter_same rfl fun hv ho => ?_)
    have hset := hset hv ho
    have hor : turn.own.or turn.shed = some v := by
      rcases hown with hown | ⟨-, hor⟩
      · rw [hown]; rfl
      · exact hor
    simp only [setsWell, hor, and_eq_true, not_eq_true'] at hset
    exact hset.2
  · intro v hfamily
    refine .same h.held ⟨_, rfl⟩ (armedAfter_same rfl fun hv ho => ?_)
    exact absurd (hset hv ho) (by simp [setsWell, hfamily])
  · exact fun hown _ hshed r hr => .transactionStep h hown hshed hg hr
  · intro hempty
    exact .same h.held ⟨_, rfl⟩ (armedAfter_same rfl fun _ _ => rfl)
  intro _ hor _ hnone
  refine .same h.held ⟨_, rfl⟩ (armedAfter_same rfl fun hv ho => ?_)
  obtain ⟨hown, hshed⟩ := Option.or_eq_none_iff.mp hor
  obtain ⟨a, hrouted, -⟩ := setsWell_iff (hset hv ho) hown hshed
  exact absurd hnone (transactionStep_watch hv hrouted)

omit h in
theorem shaped_dataCommand (h : w.txn.Shaped) : (w.dataCommand cfg args turn).1.txn.Shaped :=
  dataCommand_cases (P := fun r => r.1.txn.Shaped) (fun _ _ => h) (fun _ _ => h)
    (fun _ _ _ _ hr => h.transactionStep hr) (fun _ => h) fun _ _ _ _ => h

/-! ## The invariant along a run -/

namespace Watchful

theorem noteSent (hg : w.watchful cfg (.command args turn)) :
    (w.noteSent (w.dataCommand cfg args turn).1 args (w.dataCommand cfg args turn).2).Watchful
      cfg where
  shaped := shaped_dataCommand h.shaped
  armed ht := by
    simp only [TxnWorld.noteSent, and_eq_true, not_eq_true', isEmpty_eq_false_iff]
      at ht
    exact ht.2
  held hne := by
    have hkept := Keeps.dataCommand h hg hne
    have htouched : (w.touched && !(w.armedAfter (w.dataCommand cfg args turn).1 args
        (w.dataCommand cfg args turn).2).isEmpty) = w.touched := by
      have hne' : (w.armedAfter (w.dataCommand cfg args turn).1 args
          (w.dataCommand cfg args turn).2).isEmpty = false := isEmpty_eq_false_iff.mpr hne
      rw [hne', Bool.not_false, Bool.and_true]
    simp only [TxnWorld.noteSent, htouched]
    exact hkept.same rfl rfl rfl rfl

theorem drop (hg : w.watchful cfg (.drop a)) : (w.dropConn a).Watchful cfg := by
  simp only [watchful, or_eq_true, List.isEmpty_iff, bne_iff_ne, ne_eq] at hg
  refine ⟨h.shaped, h.armed, fun hne hd => ?_⟩
  obtain ⟨b, hb, hopened, howner, hsome, hconn⟩ := h.held hne hd
  refine ⟨b, hb, hopened, howner, fun hclosed => ?_, fun c hc => ?_⟩
  · have hba : b ≠ a := by
      rintro rfl
      rcases hg with (hnil | hopen) | haddr
      · exact hne hnil
      · exact nomatch hclosed.symm.trans hopen
      · exact haddr hb
    simpa [dropConn, update_of_ne hba] using hsome hclosed
  by_cases hba : b = a
  · subst hba
    exact absurd hc (by simp [dropConn])
  · simp only [dropConn, update_of_ne hba] at hc
    exact hconn c hc

theorem bump : ({ w.bump cfg a [k] with
      pending := update w.pending a (k :: w.pending a) } : TxnWorld).Watchful cfg := by
  refine ⟨h.shaped, h.armed, fun hne hd => ?_⟩
  obtain ⟨b, hb, hopened, howner, hsome, hconn⟩ := h.held hne hd
  refine ⟨b, hb, hopened, howner, hsome, fun c hc => (hconn c hc).imp_right fun hguards => ?_⟩
  by_cases hba : b = a
  · subst hba
    refine hguards.bump (fun k' => ?_) fun k' hk' => ?_
    · simp [version, bump]
    simp only [update_self, mem_cons] at hk'
    rcases hk' with rfl | hk'
    · exact .inr (by simp [version, bump])
    · exact .inl hk'
  · refine hguards.bump (fun k' => ?_) fun k' hk' => .inl ?_
    · simp [version, TxnWorld.bump, update_of_ne hba]
    · simpa only [update_of_ne hba] using hk'

theorem land (hk : k ∈ w.pending a) : ({ w with
      pending := update w.pending a ((w.pending a).erase k)
      touched := w.touched || (w.armed.contains k && cfg.owner k == a) } : TxnWorld).Watchful
      cfg := by
  refine ⟨h.shaped, fun ht => ?_, fun hne hd => ?_⟩
  · simp only [or_eq_true, and_eq_true, contains_eq_mem, decide_eq_true_eq] at ht
    rcases ht with ht | ⟨hmem, -⟩
    · exact h.armed ht
    · exact ne_nil_of_mem hmem
  obtain ⟨b, hb, hopened, howner, hsome, hconn⟩ := h.held hne hd
  refine ⟨b, hb, hopened, howner, hsome, fun c hc => (hconn c hc).imp_right fun hguards => ?_⟩
  -- The write is seen: its key's stripe has moved since the key was watched.
  have hseen : c.Guards (w.version cfg b) (w.pending b) w.armed
      (w.touched || (w.armed.contains k && cfg.owner k == a)) := by
    cases hhit : w.armed.contains k && cfg.owner k == a with
    | false => simpa using hguards
    | true =>
      simp only [and_eq_true, contains_eq_mem, decide_eq_true_eq, beq_iff_eq] at hhit
      obtain rfl : b = a := (howner k hhit.1).symm.trans hhit.2
      simpa using hguards.touch hhit.1 hk
  refine hseen.bump (fun _ => le_refl _) fun k' hk' => .inl ?_
  by_cases hba : b = a
  · subst hba
    simp only [update_self] at hk'
    exact mem_of_mem_erase hk'
  · simpa only [update_of_ne hba] using hk'

theorem step {e : TxnEvent} (hg : w.watchful cfg e)
    (hstep : (machine cfg).step w e = some w') : w'.Watchful cfg := by
  cases e with
  | command args turn =>
    cases hstep
    exact h.noteSent hg
  | drop a =>
    cases hstep
    exact h.drop hg
  | bump a k =>
    cases hstep
    exact h.bump
  | land a k =>
    simp only [machine] at hstep
    split at hstep
    · cases hstep
      exact h.land ‹_›
    · cases hstep

/-! ## `EXEC` -/

theorem exec_log (hg : w.watchful cfg (.command args turn))
    (hv : verbOf args = .exec) (htouched : w.touched) :
    (w.dataCommand cfg args turn).1.log = w.log := by
  have hheld := h.held (h.armed htouched)
  rw [htouched] at hheld
  simp only [watchful, hv, and_eq_true, Option.isNone_iff_eq_none] at hg
  refine dataCommand_cases (P := fun r => r.1.log = w.log) ?_ ?_ ?_ ?_ ?_
  · exact fun _ _ => rfl
  · exact fun v hfamily => nomatch hg.1.symm.trans hfamily
  · intro _ _ _ r hr
    unfold transactionStep at hr
    split at hr
    · cases hr
    split at hr
    · cases hr
      simp only [doomedStep, hv]
    rename_i hd
    simp only [hv] at hr
    cases hr
    exact hheld.execStep_log (not_eq_true _ ▸ hd) hv
  · exact fun _ => rfl
  intro _ _ hnamed hnone
  unfold transactionStep at hnone
  rw [if_neg (by simpa using hnamed)] at hnone
  split at hnone
  · cases hnone
  · simp only [hv] at hnone
    cases hnone

end Watchful

end

end TxnWorld

/-- **A watch protects, along every run in which the watches stay with the transaction.** -/
theorem watch_protects (cfg : TxnConfig) (w w' : TxnWorld) (args : Args) (turn : TxnTurn)
    (h : (TxnWorld.machine cfg).Reach (fun w e => w.watchful cfg e = true) w)
    (hg : w.watchful cfg (.command args turn) = true)
    (hstep : (TxnWorld.machine cfg).step w (.command args turn) = some w') :
    Protects cfg w w' args turn := by
  have hw : w.Watchful cfg := by
    refine Machine.Reach.invariant (I := fun w => w.Watchful cfg) ?_ ?_ h
    · rintro s rfl
      exact ⟨.none, nofun, fun hne => absurd rfl hne⟩
    · exact fun s e s' _ hs hok hst => hs.step hok hst
  intro hv hover
  cases hstep
  refine hw.exec_log hg hv ?_
  -- No write falls between the comparison and the lock, so the write was before `EXEC`.
  simp only [watchful, hv, and_eq_true, all_eq_true, not_eq_true'] at hg
  simp only [overwritten, or_eq_true, any_eq_true, and_eq_true] at hover
  rcases hover with ht | ⟨k, hk, hmem, -⟩
  · exact ht
  · exact nomatch (hg.2 k hk).symm.trans hmem

def writtenAt (a : Addr) (k : String) : List TxnEvent := [.bump a k, .land a k]

def queuedAt (a : Addr) (k : String) : List TxnEvent :=
  [.command ["MULTI"] (answeredAt a), .command ["SET", k, "1"] (answeredAt a)]

def watchedThenWritten : List TxnEvent :=
  .command ["WATCH", "a"] (answeredAt "10.0.0.1:6401") ::
    (writtenAt "10.0.0.1:6401" "a" ++ queuedAt "10.0.0.1:6401" "a")

theorem watch_protects_written :
    Protects twoPairs (.after twoPairs watchedThenWritten)
        (.after twoPairs
          (watchedThenWritten ++ [.command ["EXEC"] (answeredAt "10.0.0.1:6401")]))
        ["EXEC"] (answeredAt "10.0.0.1:6401") ∧
      (TxnWorld.after twoPairs watchedThenWritten).overwritten twoPairs
        (answeredAt "10.0.0.1:6401") = true := by
  have hguard : (machine twoPairs).Guarded (fun w e => w.watchful twoPairs e = true) .start
      watchedThenWritten := by decide +kernel
  have hexec : (machine twoPairs).exec .start watchedThenWritten =
      some (.after twoPairs watchedThenWritten) := rfl
  have hreach : (machine twoPairs).Reach (fun w e => w.watchful twoPairs e = true)
      (.after twoPairs watchedThenWritten) := .of_exec (.init rfl) hguard hexec
  exact ⟨watch_protects twoPairs _ _ ["EXEC"] (answeredAt "10.0.0.1:6401") hreach
    (by decide +kernel) rfl, by decide +kernel⟩

def watchedTwice : List TxnEvent :=
  [.command ["WATCH", "a"] (answeredAt "10.0.0.1:6401"),
    .command ["WATCH", "b"] (answeredAt "10.0.0.2:6401")] ++
    writtenAt "10.0.0.1:6401" "a" ++ queuedAt "10.0.0.2:6401" "b"

def watchedBoth : List TxnEvent :=
  .command ["WATCH", "a", "b"] (answeredAt "10.0.0.1:6401") ::
    (writtenAt "10.0.0.2:6401" "b" ++ queuedAt "10.0.0.1:6401" "a")

def watchLost : List TxnEvent :=
  [.command ["WATCH", "a"] (answeredAt "10.0.0.1:6401"), .drop "10.0.0.1:6401"] ++
    writtenAt "10.0.0.1:6401" "a" ++ queuedAt "10.0.0.1:6401" "a"

def watchedTooLate : List TxnEvent :=
  [.bump "10.0.0.1:6401" "a", .command ["WATCH", "a"] (answeredAt "10.0.0.1:6401"),
    .land "10.0.0.1:6401" "a"] ++ queuedAt "10.0.0.1:6401" "a"

def watchedOnly : List TxnEvent :=
  .command ["WATCH", "a"] (answeredAt "10.0.0.1:6401") :: queuedAt "10.0.0.1:6401" "a"

def writtenDuring (a : Addr) (k : String) : TxnTurn :=
  { answeredAt a with node := { (answeredAt a).node with during := [k] } }

/-- `EXEC` after a run applies over a write of a watched key. -/
def Misses (es : List TxnEvent) (turn : TxnTurn) : Prop :=
  ∃ w w', (TxnWorld.machine twoPairs).exec .start es = some w ∧
    (TxnWorld.machine twoPairs).step w (.command ["EXEC"] turn) = some w' ∧
    ¬ Protects twoPairs w w' ["EXEC"] turn

theorem Misses.of_run {es : List TxnEvent} {turn : TxnTurn}
    (hrun : ((machine twoPairs).exec .start es).isSome)
    (hover : (after twoPairs es).overwritten twoPairs turn)
    (hlog : ((after twoPairs es).dataCommand twoPairs ["EXEC"] turn).1.log ≠
      (after twoPairs es).log) : Misses es turn := by
  exact ⟨_, _, Machine.exec_eq_some_getD _ hrun, rfl,
    fun h => hlog (h (by decide +kernel) hover)⟩

/-- **Five ways to lose an update**: watches at two nodes, a watch with keys of two, a lost
connection, a write on its way, and one between the comparison and the lock. -/
theorem watch_misses :
    Misses watchedTwice (answeredAt "10.0.0.2:6401") ∧
      Misses watchedBoth (answeredAt "10.0.0.1:6401") ∧
      Misses watchLost (answeredAt "10.0.0.1:6401") ∧
      Misses watchedTooLate (answeredAt "10.0.0.1:6401") ∧
      Misses watchedOnly (writtenDuring "10.0.0.1:6401" "a") := by
  refine ⟨.of_run ?_ ?_ ?_, .of_run ?_ ?_ ?_, .of_run ?_ ?_ ?_, .of_run ?_ ?_ ?_, .of_run ?_ ?_ ?_⟩
  all_goals decide +kernel

end Flint
