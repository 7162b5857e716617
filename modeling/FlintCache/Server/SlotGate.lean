import FlintCache.Migrate.Slot
import FlintCache.Server.Keys

/-!
# Server/SlotGate — a unit of work and the slots that are moving

A node that hands a slot over keeps a record of it.  Before a command or a transaction runs, the
gate looks up the slot of one key, that of the first command which has one, and refuses the unit
where the record says so.  That is not enough for a command over many slots or over the namespace.
-/

namespace Flint

open List Asking

variable {d : Dispatcher} {args : Args} {arm rest : Arm} {keys : List String} {q : Access}

/-! ## What a node does for a unit of work -/

/-- What a script's calls ask: keys in the slot of those it declared, or any where the namespace
lives wholly here.  A call that reaches past them is refused, and the script goes on. -/
def confined (d : Dispatcher) (declared : List String) : Arm → Arm
  | .done => .done
  | .ask q next =>
    if q.slot = d.slotOf q.key ∧ declared ≠ [] ∧
        (d.whole = true ∨ q.slot = d.slotOf (declared.headD "")) then
      .ask q fun a => confined d declared (next a)
    else confined d declared (next .refused)

/-- A node: its records of moving slots, its rows and the scripts it runs. -/
structure SlotNode where
  phase : ℕ → Option MigrationPhase
  rows : List String
  expired : String → Bool
  readOnly : Bool
  script : Args → Arm

namespace SlotNode

variable (n : SlotNode)

def looked (q : Access) : Access := { q with write := q.write || (!n.readOnly && n.expired q.key) }

def Asked (d : Dispatcher) (args : Args) (q : Access) : Prop :=
  match effect d args with
  | .asks arm => arm.Asks q
  | .sweep _ => False
  | .script declared => (confined d declared (n.script args)).Asks q

def Touches (d : Dispatcher) (args : Args) (q : Access) : Prop :=
  (∃ p, n.Asked d args p ∧ q = n.looked p) ∨
    ∃ write, effect d args = .sweep write ∧ ∃ k ∈ n.rows, q = ⟨d.slotOf k, k, write⟩

def Spares (q : Access) : Prop :=
  n.phase q.slot ≠ some .moved ∧ (n.phase q.slot = some .migrating → q.write = false)

def unitWrites (unit : List Args) : Bool := unit.any fun args => isWriteCommand (args.headD "")

def gateSlot (d : Dispatcher) (unit : List Args) : Option ℕ :=
  (unit.findSome? commandKey).map d.slotOf

def gateRefuses (d : Dispatcher) (unit : List Args) : Bool :=
  match (gateSlot d unit).bind n.phase with
  | some .moved => true
  | some .importing => true
  | some .aborted => true
  | some .migrating => unitWrites unit
  | none => false

def accepts (d : Dispatcher) (unit : List Args) : Bool :=
  !(n.readOnly && unitWrites unit) && !n.gateRefuses d unit

end SlotNode

/-- An open transaction at the node, with the slot it is pinned to. -/
structure Queue where
  queued : List Args
  slot : Option ℕ
  poisoned : Bool
  deriving DecidableEq, Repr

def queueKeys (d : Dispatcher) (args : Args) : List String :=
  if d.whole then []
  else if takesAnySlot args then args.drop 1
  else (commandKey args).toList

def pin (d : Dispatcher) : Option ℕ → List String → Option (Option ℕ)
  | slot, [] => some slot
  | none, k :: keys => pin d (some (d.slotOf k)) keys
  | some slot, k :: keys => if d.slotOf k ≠ slot then none else pin d (some slot) keys

/-- A command inside an open transaction; `refused` is what queueing it finds wrong. -/
def enqueue (d : Dispatcher) (refused : Args → Bool) (txn : Queue) (args : Args) : Queue :=
  if refused args then { txn with poisoned := true }
  else match pin d txn.slot (queueKeys d args) with
    | none => { txn with poisoned := true }
    | some slot => { txn with queued := txn.queued ++ [args], slot := slot }

/-- What a client submits as one unit. -/
inductive Submission
  | command (args : Args)
  | transaction (cmds : List Args)
  deriving DecidableEq, Repr

def Submission.unit (d : Dispatcher) (refused : Args → Bool) : Submission → Option (List Args)
  | .command args => some [args]
  | .transaction cmds =>
    let txn := cmds.foldl (enqueue d refused) ⟨[], none, false⟩
    if txn.poisoned then none else some txn.queued

/-! ## Where a command's lookups are -/

variable {declared : List String}

theorem slotOf_of_confined {arm : Arm} (h : (confined d declared arm).Asks q) :
    declared ≠ [] ∧ (d.whole ∨ q.slot = d.slotOf (declared.headD "")) := by
  induction arm with
  | done => exact absurd h (not_asks_done q)
  | ask p next ih =>
    rw [confined] at h
    split at h
    · rename_i hin
      obtain rfl | ⟨a, h⟩ := asks_ask.mp h
      · exact hin.2
      · exact ih a h
    · exact ih .refused h

theorem commandKey_of_script (h : effect d args = .script declared)
    (hne : declared ≠ []) : commandKey args = some (declared.headD "") := by
  have hfam : familyOf (commandName args) = .eval := by
    unfold effect at h
    revert h
    cases familyOf (commandName args) with
    | eval => exact fun _ => rfl
    | flush | scan => simp only; split <;> exact nofun
    | _ => exact nofun
  have hname : saysWord (args.headD "") "EVAL" || saysWord (args.headD "") "EVALSHA" := by
    obtain ⟨names, hmem, hname⟩ := mem_of_familyOf hfam nofun
    have htable : ∀ entry ∈ commandTable, entry.1 = .eval →
        ∀ name ∈ entry.2, (name == "EVAL" || name == "EVALSHA") := by decide +kernel
    exact htable _ hmem rfl _ hname
  have h : cmdEval d args = .script declared := by simpa only [effect, hfam] using h
  rw [commandKey, gateKeyOf_eq hfam nofun]
  unfold cmdEval at h
  split at h
  · rename_i n hn
    obtain ⟨word, hword, hparse⟩ := Option.bind_eq_some_iff.mp hn
    split at h
    · rename_i hle
      simp only at h
      split at h
      · cases h
      split at h
      · cases h
      obtain rfl := Effect.script.inj h
      have hlen : 3 + n.toNat ≤ args.length := by
        have := hle.2
        rw [length_drop] at this
        have hpos : 2 < args.length := (List.getElem?_eq_some_iff.mp hword).1
        omega
      show (evalKeys args).bind List.head? = _
      rw [evalKeys, if_pos hname, hword, Option.bind_some,
        parseUnsigned_of_parseRedisI64 hparse hle.1, Option.bind_some, if_pos hlen]
      cases hkeys : (args.drop 3).take n.toNat with
      | nil => exact absurd hkeys hne
      | cons first others => rfl
    · cases h
  · cases h

variable {n : SlotNode}

theorem SlotNode.Asked.slot (h : n.Asked d args q) (hwhole : d.whole = false)
    (hany : takesAnySlot args = false) : ∃ k, commandKey args = some k ∧ q.slot = d.slotOf k := by
  unfold SlotNode.Asked at h
  split at h
  · rename_i arm harm
    obtain ⟨hkey, hslot⟩ := asks_within harm q h
    obtain rfl | ⟨first, hfirst, hkeys⟩ := colocated hwhole hany harm
    · exact absurd h (not_asks_done q)
    · exact ⟨first, hfirst, hslot.trans (hkeys _ hkey)⟩
  · exact h.elim
  rename_i declared hscript
  obtain ⟨hne, hwhole' | hslot⟩ := slotOf_of_confined h
  · exact nomatch hwhole.symm.trans hwhole'
  · exact ⟨_, commandKey_of_script hscript hne, hslot⟩

theorem SlotNode.asked_any (hany : takesAnySlot args) :
    n.Asked d args q ↔ ∃ k ∈ args.drop 1, q = ⟨d.slotOf k, k, isWriteCommand (args.headD "")⟩ := by
  unfold SlotNode.Asked effect
  rw [familyOf_of_takesAnySlot hany]
  show (multiKey d args _).Asks q ↔ _
  rw [multiKey, asks_walk goOn_go, mem_map]
  simp only [not_asks_done, or_false]
  exact exists_congr fun k => and_congr_right fun _ => eq_comm

/-! ## Only a write command writes -/

theorem SlotNode.Asked.isWrite (h : n.Asked d args q) (hwrite : q.write) :
    isWriteCommand (args.headD "") := by
  by_cases honly : writesOnly (familyOf (commandName args))
  · exact isWriteCommand_of_writesOnly honly
  unfold SlotNode.Asked effect at h
  revert h
  revert honly
  have hread : ∀ {arm : Arm}, OnlyReads arm → arm.Asks q → isWriteCommand (args.headD "") :=
    fun honlyReads h => nomatch (honlyReads q h).symm.trans hwrite
  have hone : ∀ {key : Option String}, (oneKey d args key).Asks q →
      isWriteCommand (args.headD "") := fun h => (write_of_oneKey h).symm.trans hwrite
  cases familyOf (commandName args) with
  | keyless => exact fun _ => hread onlyReads_done
  | dbsize => exact fun _ h => h.elim
  | scan =>
    intro _ h
    by_cases hrefused : (decide (args.length < 2) || !d.restOk args)
    · simp only [hrefused, if_true] at h
      exact hread onlyReads_done h
    · simp only [hrefused] at h
      exact h.elim
  | single | jsonDebug | subcommand => exact fun _ => hone
  | every write =>
    cases write with
    | true => exact fun honly => absurd rfl honly
    | false => exact fun _ => hread (.walk goOn_go (fun _ => rfl) onlyReads_done)
  | mget => exact fun _ => hread (.ite (.ite (.walk goOn_go (fun _ => rfl) onlyReads_done)))
  | sop => exact fun _ => hread onlyReads_cmdSop
  | sintercard => exact fun _ => hread onlyReads_cmdSintercard
  | zalgebra store =>
    cases store with
    | true => exact fun honly => absurd rfl honly
    | false => exact fun _ => hread onlyReads_cmdZalgebra
  | xread => exact fun _ => hread onlyReads_cmdXread
  | jsonMget => exact fun _ => hread onlyReads_cmdJsonMget
  | _ => exact fun honly => absurd rfl honly

/-! ## A transaction is of one slot -/

variable {refused : Args → Bool} {unit : List Args} {n : SlotNode}

theorem pin_eq_some {slot slot' : Option ℕ} (h : pin d slot keys = some slot') :
    (∀ k ∈ keys, slot' = some (d.slotOf k)) ∧ ∀ s, slot = some s → slot' = some s := by
  induction keys generalizing slot with
  | nil =>
    cases h
    exact ⟨nofun, fun _ hs => hs⟩
  | cons k keys ih =>
    cases slot with
    | none =>
      obtain ⟨hkeys, hslot⟩ := ih h
      refine ⟨fun k' hk' => ?_, nofun⟩
      obtain rfl | hk' := mem_cons.mp hk'
      · exact hslot _ rfl
      · exact hkeys k' hk'
    | some s =>
      rw [pin] at h
      split at h
      · cases h
      rename_i hsame
      obtain ⟨hkeys, hslot⟩ := ih h
      refine ⟨fun k' hk' => ?_, hslot⟩
      obtain rfl | hk' := mem_cons.mp hk'
      · rw [not_not.mp hsame]
        exact hslot s rfl
      · exact hkeys k' hk'

def Queue.Pinned (d : Dispatcher) (txn : Queue) : Prop :=
  ∀ args ∈ txn.queued, ∀ k ∈ queueKeys d args, txn.slot = some (d.slotOf k)

variable {txn : Queue}

theorem Queue.Pinned.enqueue (h : txn.Pinned d) : (enqueue d refused txn args).Pinned d := by
  unfold Flint.enqueue
  split
  · exact h
  split
  · exact h
  rename_i slot hpin
  obtain ⟨hkeys, hslot⟩ := pin_eq_some hpin
  intro args' hargs' k hk
  obtain hargs' | hargs' := mem_append.mp hargs'
  · exact hslot _ (h args' hargs' k hk)
  · rw [mem_singleton.mp hargs'] at hk
    exact hkeys k hk

theorem pinned_foldl (cmds : List Args) (h : txn.Pinned d) :
    (cmds.foldl (enqueue d refused) txn).Pinned d := by
  induction cmds generalizing txn with
  | nil => exact h
  | cons args cmds ih => exact ih h.enqueue

theorem commandKey_of_takesAnySlot (hany : takesAnySlot args) : commandKey args = args[1]? := by
  rw [commandKey, gateKeyOf_eq (familyOf_of_takesAnySlot hany) nofun]
  rfl

theorem commandKey_mem_queueKeys (hwhole : d.whole = false) {k : String}
    (hkey : commandKey args = some k) : k ∈ queueKeys d args := by
  rw [queueKeys, hwhole, if_neg Bool.false_ne_true]
  split
  · rename_i hany
    rw [commandKey_of_takesAnySlot hany, ← head?_drop] at hkey
    exact mem_of_mem_head? hkey
  · rw [hkey]
    exact mem_singleton_self k

theorem exists_gateSlot {slot : ℕ} (h : SlotNode.gateSlot d unit = some slot) :
    ∃ args ∈ unit, ∃ k, commandKey args = some k ∧ d.slotOf k = slot := by
  obtain ⟨k, hk, hslot⟩ := Option.map_eq_some_iff.mp h
  obtain ⟨args, hargs, hkey⟩ := exists_of_findSome?_eq_some hk
  exact ⟨args, hargs, k, hkey, hslot⟩

open SlotNode

theorem gateSlot_isSome {k : String} (hargs : args ∈ unit) (hkey : commandKey args = some k) :
    ∃ slot, gateSlot d unit = some slot := by
  cases hfind : unit.findSome? commandKey with
  | none => exact absurd (findSome?_eq_none_iff.mp hfind args hargs) (by rw [hkey]; nofun)
  | some k₀ => exact ⟨_, by rw [gateSlot, hfind]; rfl⟩

theorem gateSlot_of_transaction {cmds : List Args} (hwhole : d.whole = false)
    (hunit : (Submission.transaction cmds).unit d refused = some unit) (hargs : args ∈ unit)
    {k₀ k : String} (hkey : commandKey args = some k₀) (hk : k ∈ queueKeys d args) :
    gateSlot d unit = some (d.slotOf k) := by
  have hpinned : (cmds.foldl (enqueue d refused) ⟨[], none, false⟩).Pinned d :=
    pinned_foldl cmds nofun
  obtain ⟨-, ⟨⟩⟩ := Option.ite_none_left_eq_some.mp hunit
  obtain ⟨slot, hslot⟩ := @gateSlot_isSome d _ _ _ hargs hkey
  obtain ⟨args', hargs', k', hkey', rfl⟩ := exists_gateSlot hslot
  have hfirst := hpinned args' hargs' k' (commandKey_mem_queueKeys hwhole hkey')
  rw [hslot, ← hfirst]
  exact hpinned args hargs k hk

/-! ## The gate -/

/-- The lookups the gate does not answer for: of a command over any slots, every key but the first,
and where the namespace lives wholly here, every key outside the slot looked up. -/
def SlotNode.Ungated (n : SlotNode) (d : Dispatcher) (s : Submission) (unit : List Args)
    (q : Access) : Prop :=
  if d.whole then ∃ args ∈ unit, n.Asked d args q ∧ SlotNode.gateSlot d unit ≠ some q.slot
  else match s with
    | .command args => takesAnySlot args = true ∧
        ∃ k ∈ args.drop 2, q = ⟨d.slotOf k, k, isWriteCommand (args.headD "")⟩
    | .transaction _ => False

theorem gated_or_ungated {s : Submission} (hunit : s.unit d refused = some unit)
    (hargs : args ∈ unit) (hq : n.Asked d args q) :
    gateSlot d unit = some q.slot ∨ n.Ungated d s unit q := by
  unfold SlotNode.Ungated
  cases hwhole : d.whole with
  | true =>
    by_cases hslot : gateSlot d unit = some q.slot
    · exact .inl hslot
    · exact .inr ⟨args, hargs, hq, hslot⟩
  | false =>
    cases s with
    | command args' =>
      cases hunit
      obtain rfl := mem_singleton.mp hargs
      cases hany : takesAnySlot args with
      | false =>
        obtain ⟨k, hkey, hslot⟩ := hq.slot hwhole hany
        refine .inl ?_
        rw [gateSlot, findSome?_singleton, hkey, hslot]
        rfl
      | true =>
        obtain ⟨k, hk, rfl⟩ := (asked_any hany).mp hq
        obtain hk | hk := first_or_drop hk
        · refine .inl ?_
          rw [gateSlot, findSome?_singleton, commandKey_of_takesAnySlot hany,
            Option.mem_toList.mp hk]
          rfl
        · exact .inr ⟨hany, k, hk, rfl⟩
    | transaction cmds =>
      refine .inl ?_
      cases hany : takesAnySlot args with
      | false =>
        obtain ⟨k, hkey, hslot⟩ := hq.slot hwhole hany
        rw [hslot]
        exact gateSlot_of_transaction hwhole hunit hargs hkey
          (commandKey_mem_queueKeys hwhole hkey)
      | true =>
        obtain ⟨k, hk, rfl⟩ := (asked_any hany).mp hq
        obtain ⟨first, hfirst⟩ := Option.isSome_iff_exists.mp
          (isSome_head?.mpr (ne_nil_of_mem hk))
        rw [head?_drop, ← commandKey_of_takesAnySlot hany] at hfirst
        refine gateSlot_of_transaction hwhole hunit hargs hfirst ?_
        rwa [queueKeys, hwhole, hany]

theorem phase_of_accepts {slot : ℕ} (hacc : n.accepts d unit)
    (hslot : gateSlot d unit = some slot) : n.phase slot ≠ some .moved ∧
      (n.phase slot = some .migrating → unitWrites unit = false) := by
  have hpass : n.gateRefuses d unit = false := by simpa using (Bool.and_eq_true_iff.mp hacc).2
  rw [gateRefuses, hslot, Option.bind_some] at hpass
  refine ⟨fun h => ?_, fun h => ?_⟩
  · rw [h] at hpass
    cases hpass
  · rw [h] at hpass
    exact hpass

theorem unitWrites_of_mem (hargs : args ∈ unit) (h : isWriteCommand (args.headD "")) :
    unitWrites unit := any_eq_true.mpr ⟨args, hargs, h⟩

/-- **What an accepted unit must keep to, for the moving slots to be left alone**, and no more: a
sweep finds no row of a moved slot, nor a flush one of a frozen slot; the lookups the gate does not
answer for are in neither; and no row of a frozen slot is found expired. -/
theorem slot_gate {s : Submission} (hunit : s.unit d refused = some unit)
    (hacc : n.accepts d unit = true) :
    (∀ args ∈ unit, ∀ q, n.Touches d args q → n.Spares q) ↔
      (∀ args ∈ unit, ∀ write, effect d args = .sweep write →
        ∀ k ∈ n.rows, n.Spares ⟨d.slotOf k, k, write⟩) ∧
      (∀ q, n.Ungated d s unit q → n.Spares (n.looked q)) ∧
      (∀ args ∈ unit, ∀ q, n.Asked d args q → SlotNode.gateSlot d unit = some q.slot →
        n.phase q.slot = some .migrating → n.readOnly = true ∨ n.expired q.key = false) := by
  refine ⟨fun h => ⟨fun args hargs write hsweep k hk => h args hargs _ (.inr ⟨write, hsweep, k, hk,
    rfl⟩), fun q hq => ?_, fun args hargs q hq _ hphase => ?_⟩, ?_⟩
  · obtain ⟨args, hargs, hasked⟩ : ∃ args ∈ unit, n.Asked d args q := by
      unfold SlotNode.Ungated at hq
      split at hq
      · obtain ⟨args, hargs, hasked, -⟩ := hq
        exact ⟨args, hargs, hasked⟩
      cases s with
      | command args =>
        obtain ⟨hany, k, hk, rfl⟩ := hq
        cases hunit
        refine ⟨args, mem_singleton_self args, (asked_any hany).mpr ⟨k, ?_, rfl⟩⟩
        rw [drop_two] at hk
        exact mem_of_mem_tail hk
      | transaction cmds => exact hq.elim
    exact h args hargs _ (.inl ⟨q, hasked, rfl⟩)
  · have hwrite := (h args hargs _ (.inl ⟨q, hq, rfl⟩)).2 hphase
    cases hro : n.readOnly with
    | true => exact .inl rfl
    | false =>
      refine .inr ?_
      simp only [looked, hro, Bool.not_false, Bool.true_and, Bool.or_eq_false_iff] at hwrite
      exact hwrite.2
  rintro ⟨hsweeps, hungated, hexpired⟩ args hargs q
    (⟨p, hp, rfl⟩ | ⟨write, hsweep, k, hk, rfl⟩)
  · obtain hslot | hfree := gated_or_ungated hunit hargs hp
    · obtain ⟨hmoved, hfrozen⟩ := phase_of_accepts hacc hslot
      refine ⟨hmoved, fun hphase => ?_⟩
      have hreads : p.write = false := by
        cases hwrite : p.write with
        | false => rfl
        | true =>
          exact absurd ((hfrozen hphase).symm.trans
            (unitWrites_of_mem hargs (hp.isWrite hwrite))) Bool.false_ne_true
      obtain hro | hlive := hexpired args hargs p hp hslot hphase
      · simp [looked, hreads, hro]
      · simp [looked, hreads, hlive]
    · exact hungated p hfree
  · exact hsweeps args hargs write hsweep k hk

/-! ## What gets past it -/

/-- A node with a record of the slot of `b`, and a row there. -/
def recorded (phase : MigrationPhase) (expired : Bool) : SlotNode :=
  ⟨fun slot => if slot = 3300 then some phase else none, ["b"], fun _ => expired, false,
    fun _ => .done⟩

theorem slot_gate_del : (recorded .moved false).accepts bySlot [["DEL", "a", "c"]] = true ∧
    ∀ args ∈ [["DEL", "a", "c"]], ∀ q,
      (recorded .moved false).Touches bySlot args q → (recorded .moved false).Spares q := by
  have hany : takesAnySlot ["DEL", "a", "c"] = true := by decide +kernel
  have hacc : (recorded .moved false).accepts bySlot [["DEL", "a", "c"]] = true := by
    decide +kernel
  refine ⟨hacc, (@slot_gate _ (fun _ => false) _ _ (.command ["DEL", "a", "c"]) rfl hacc).mpr
      ⟨fun args hargs write hsweep => ?_,
    fun q hq => ?_, fun args hargs q hq hslot hphase => ?_⟩⟩
  · rw [mem_singleton.mp hargs, effect, familyOf_of_takesAnySlot hany] at hsweep
    cases hsweep
  · obtain ⟨-, k, hk, rfl⟩ := hq
    rw [mem_singleton.mp hk]
    exact ⟨by decide +kernel, by decide +kernel⟩
  · have hgate : gateSlot bySlot [["DEL", "a", "c"]] = some 15495 := by decide +kernel
    rw [← Option.some.inj (hgate.symm.trans hslot)] at hphase
    cases hphase

/-- **A command over any slots, and one over the namespace, pass with rows of a moved or frozen
slot**; so does a read that finds a row of a frozen slot expired. -/
theorem slot_gate_passes :
    ((recorded .moved false).accepts bySlot [["DEL", "a", "b"]] = true ∧
      ∃ q, (recorded .moved false).Touches bySlot ["DEL", "a", "b"] q ∧
        ¬ (recorded .moved false).Spares q) ∧
    ((recorded .migrating false).accepts bySlot [["FLUSHALL"]] = true ∧
      ∃ q, (recorded .migrating false).Touches bySlot ["FLUSHALL"] q ∧
        ¬ (recorded .migrating false).Spares q) ∧
    ((recorded .migrating true).accepts bySlot [["EXISTS", "b"]] = true ∧
      ∃ q, (recorded .migrating true).Touches bySlot ["EXISTS", "b"] q ∧
        ¬ (recorded .migrating true).Spares q) := by
  have hdel : takesAnySlot ["DEL", "a", "b"] = true := by decide +kernel
  have hexists : takesAnySlot ["EXISTS", "b"] = true := by decide +kernel
  have hflush : familyOf (commandName ["FLUSHALL"]) = .flush := by decide +kernel
  refine ⟨⟨by decide +kernel, _, .inl ⟨_, (asked_any hdel).mpr ⟨"b", by simp, rfl⟩, rfl⟩,
    fun h => h.1 (by decide +kernel)⟩, ⟨by decide +kernel, ⟨3300, "b", true⟩, .inr ⟨true, ?_, "b",
      by simp [recorded], by decide +kernel⟩, fun h => nomatch h.2 rfl⟩,
    ⟨by decide +kernel, _, .inl ⟨_, (asked_any hexists).mpr ⟨"b", by simp, rfl⟩, rfl⟩,
      fun h => absurd (h.2 (by decide +kernel)) (by decide +kernel)⟩⟩
  rw [effect, hflush]
  rfl

end Flint
