import FlintCache.Server.Keys
import FlintCache.Storage.Rows

/-!
# Server/KeyCeiling — the longest key a command may name

The dispatcher refuses a command with a key past the configured limit before any arm runs.  Which
arguments it measures is a table of its own (`keyCheckOf`), with the first argument where the table
has no entry; `uncheckedKeys` are the places an arm takes a key from and the table does not look at,
and `admits` is what such an arm asks of its words before it turns to a store.
-/

namespace Flint

open List

/-! ## The check -/

def effectiveMaxKey (maxKeyBytes : ℕ) : ℕ :=
  if maxKeyBytes = 0 then frameMax else min maxKeyBytes frameMax

theorem effectiveMaxKey_le (maxKeyBytes : ℕ) : effectiveMaxKey maxKeyBytes ≤ frameMax := by
  unfold effectiveMaxKey
  split
  · exact le_rfl
  · exact min_le_right _ _

/-- Which arguments are measured. -/
inductive KeyCheck
  | nothing
  | every
  | step (n : ℕ)
  | butLast
  | jsonDebug
  | eval
  | xread
  | xreadgroup
  | subcommand
  | first
  deriving DecidableEq, Repr

def keyCheckTable : List (KeyCheck × List String) :=
  [(.nothing, ["PING", "ECHO", "DBSIZE", "FLUSHALL", "FLUSHDB", "COMMAND", "CLUSTER", "INFO",
      "SELECT", "QUIT", "HELLO", "SCAN", "SCRIPT", "PUBLISH", "PUBSUB"]),
    (.every, ["DEL", "EXISTS"]), (.step 2, ["MSET"]), (.butLast, ["JSON.MGET"]),
    (.step 3, ["JSON.MSET"]), (.jsonDebug, ["JSON.DEBUG"]), (.eval, ["EVAL", "EVALSHA"]),
    (.xread, ["XREAD"]), (.xreadgroup, ["XREADGROUP", "FLINTXREADGROUP"]),
    (.subcommand, ["XGROUP", "XINFO"])]

def keyCheckOf (name : String) : KeyCheck :=
  ((keyCheckTable.find? fun entry => entry.2.contains name).map Prod.fst).getD .first

def checkedKeys (args : Args) : List String :=
  match keyCheckOf (commandName args) with
  | .nothing => []
  | .every => args.drop 1
  | .step n => stepBy n (args.drop 1)
  | .butLast => (args.drop 1).dropLast
  | .jsonDebug => (jsonDebugKey args).join.toList
  | .eval => (evalKeys args).getD []
  | .xread => (xreadStreams (args.drop 1)).getD []
  | .xreadgroup => (streamsFrom (args.drop 1)).getD []
  | .subcommand => (subcommandKey args).join.toList
  | .first => (args[1]?).toList

def hasOversizedKey (maxKeyBytes : ℕ) (args : Args) : Bool :=
  (checkedKeys args).any fun k => effectiveMaxKey maxKeyBytes < k.length

/-- What a command does with the stores, past the check. -/
def dispatch (maxKeyBytes : ℕ) (d : Dispatcher) (args : Args) : Effect :=
  if hasOversizedKey maxKeyBytes args then .asks .done else effect d args

def Effect.Reaches (e : Effect) (k : String) : Prop :=
  match e with
  | .asks arm => ∃ q, arm.Asks q ∧ q.key = k
  | _ => False

/-- Nothing is asked of a store: the command was refused first, or has no keys. -/
def Effect.Idle (e : Effect) : Prop :=
  match e with
  | .asks .done => True
  | _ => False

/-! ## The places left out -/

def uncheckedKeys (d : Dispatcher) (args : Args) : List String :=
  match familyOf (commandName args) with
  | .every _ => if keyCheckOf (commandName args) = .every then [] else args.drop 2
  | .mget => args.drop 2
  | .pfcount => args.drop 2
  | .pfmerge => args.drop 2
  | .sop => args.drop 2
  | .sstore => args.drop 2
  | .sintercard => ((counted 1 args).map Prod.fst).getD []
  | .smove => (args[2]?).toList
  | .listMove _ _ _ => (args[2]?).toList
  | .bpop => (args.drop 2).dropLast
  | .mpop _ blocking => ((counted (if blocking then 2 else 1) args).map Prod.fst).getD []
  | .zalgebra store => ((counted (if store then 2 else 1) args).map Prod.fst).getD []
  | .zrangestore => (args[2]?).toList
  | .georadius base => if d.restOk args then (storeKey (args.drop base)).toList else []
  | .geosearchstore => (args[2]?).toList
  | .bitop => args.drop 2
  | .copy => (args[2]?).toList
  | .rename _ => (args[2]?).toList
  | _ => []

/-- **What an arm that takes keys from there looks at first**: the number of words, the slots of the
keys, the options and the timeout. -/
def admits (d : Dispatcher) (args : Args) : Bool :=
  match familyOf (commandName args) with
  | .every _ => 1 < args.length
  | .mget => 1 < args.length && !d.crossslot ((args.drop 1).headD "") (args.drop 1).tail
  | .pfcount => 1 < args.length && !d.crossslot ((args.drop 1).headD "") (args.drop 1).tail
  | .pfmerge => 1 < args.length && !d.crossslot ((args.drop 1).headD "") (args.drop 1).tail
  | .sop => 1 < args.length && !d.crossslot ((args.drop 1).headD "") (args.drop 1).tail
  | .sstore => 2 < args.length && !d.crossslot ((args.drop 1).headD "") (args.drop 1).tail
  | .sintercard =>
    (counted 1 args).any fun p => limitsOk p.2 && !d.crossslot (p.1.headD "") p.1
  | .smove => args.length = 4 && !d.crossslot (args.getD 1 "") [args.getD 2 ""]
  | .listMove arity sided timed =>
    2 < args.length && args.length = arity &&
      (!sided || isSide ((args.drop 3).getD 0 "") && isSide ((args.drop 3).getD 1 "")) &&
      (!timed || d.timeoutOk ((args.drop 3).getLastD "")) &&
      (d.whole || !d.crossslot (args.getD 1 "") [args.getD 2 ""])
  | .bpop =>
    2 < args.length && d.timeoutOk (args.getLastD "") &&
      !d.crossslot ((args.drop 1).dropLast.headD "") (args.drop 1).dropLast.tail
  | .mpop zset blocking =>
    (counted (if blocking then 2 else 1) args).any fun p =>
      p.2.head?.any (fun side => if zset then saysWord side "MIN" ||
          saysWord side "MAX" else isSide side) &&
        countOk p.2.tail && (!blocking || d.timeoutOk (args.getD 1 "")) &&
        !d.crossslot (p.1.headD "") p.1.tail
  | .zalgebra store =>
    (counted (if store then 2 else 1) args).any fun p =>
      !d.crossslot (if store then args.getD 1 "" else p.1.headD "") p.1
  | .zrangestore =>
    4 < args.length && !d.crossslot (args.getD 1 "") [args.getD 2 ""] && d.restOk args
  | .georadius base =>
    base ≤ args.length &&
      !(storeKey (args.drop base)).toList.any fun k => d.slotOf k ≠ d.slotOf (args.getD 1 "")
  | .geosearchstore => 8 ≤ args.length && d.slotOf (args.getD 1 "") = d.slotOf (args.getD 2 "")
  | .bitop =>
    3 < args.length && !d.crossslot (args.getD 2 "") (args.drop 3) &&
      ["AND", "OR", "XOR", "NOT", "DIFF", "DIFF1", "ANDOR", "ONE"].contains
          (args.getD 1 "").toUpper &&
      !(saysWord (args.getD 1 "") "NOT" && (args.drop 4).length ≠ 0) &&
      !(["DIFF", "DIFF1", "ANDOR"].contains (args.getD 1 "").toUpper && (args.drop 4).length < 1)
  | .copy =>
    2 < args.length && (copyReplaces (args.drop 3) false).isSome &&
      !d.crossslot (args.getD 1 "") [args.getD 2 ""] && args.getD 1 "" ≠ args.getD 2 ""
  | .rename _ => args.length = 3 && !d.crossslot (args.getD 1 "") [args.getD 2 ""]
  | _ => true

def checksOf : Family → List KeyCheck
  | .every _ => [.every, .first]
  | .mset => [.step 2]
  | .xread => [.xread]
  | .xreadgroup => [.xreadgroup]
  | .jsonMget => [.butLast]
  | .jsonMset => [.step 3]
  | .jsonDebug => [.jsonDebug]
  | .subcommand => [.subcommand]
  | .eval => [.eval]
  | .flush => [.nothing]
  | .dbsize => [.nothing]
  | .scan => [.nothing]
  | _ => [.first]

theorem keyCheckOf_mem_table :
    ∀ entry ∈ commandTable, ∀ name ∈ entry.2, keyCheckOf name ∈ checksOf entry.1 := by
  decide +kernel

variable {name : String}

theorem keyCheckOf_mem (hf : familyOf name ≠ .keyless) :
    keyCheckOf name ∈ checksOf (familyOf name) := by
  obtain ⟨names, hmem, hname⟩ := mem_of_familyOf rfl hf
  exact keyCheckOf_mem_table _ hmem name hname

/-! ## The arms that ask, ask for all of them -/

variable {d : Dispatcher} {args : Args} {arm : Arm} {q : Access} {k : String}

theorem full_uncheckedKeys (harm : effect d args = .asks arm) :
    Full (uncheckedKeys d args) arm := by
  unfold effect at harm
  unfold uncheckedKeys
  revert harm
  cases hfam : familyOf (commandName args) with
  | every write =>
    rintro ⟨⟩
    simp only
    split
    · exact full_nil
    · exact full_multiKey write
  | mget => rintro ⟨⟩; exact sited_cmdMget.full
  | pfcount => rintro ⟨⟩; exact sited_cmdPfcount.full
  | pfmerge => rintro ⟨⟩; exact sited_cmdPfmerge.full
  | sop => rintro ⟨⟩; exact sited_cmdSop.full
  | sstore => rintro ⟨⟩; exact sited_cmdSstore.full
  | sintercard => rintro ⟨⟩; exact sited_cmdSintercard.full
  | smove => rintro ⟨⟩; exact sited_cmdSmove.full
  | listMove arity sided timed => rintro ⟨⟩; exact (sited_listMove arity sided timed).full
  | bpop => rintro ⟨⟩; exact sited_cmdBpop.full
  | mpop zset blocking => rintro ⟨⟩; exact (sited_cmdMpop zset blocking).full
  | zalgebra store => rintro ⟨⟩; exact (sited_cmdZalgebra store).full
  | zrangestore => rintro ⟨⟩; exact sited_cmdZrangestore.full
  | georadius base => rintro ⟨⟩; exact (sited_cmdGeoradius (base_of_familyOf hfam)).full
  | geosearchstore => rintro ⟨⟩; exact sited_cmdGeosearchstore.full
  | bitop => rintro ⟨⟩; exact sited_cmdBitop.full
  | copy => rintro ⟨⟩; exact sited_cmdCopy.full
  | rename nx => rintro ⟨⟩; exact (sited_cmdRename nx).full
  | _ => exact fun _ => full_nil

/-! ## …and ask, exactly if they admit their words -/

@[simp] theorem walk_eq_done {act : StoreAnswer → WalkStep} {qs : List Access} {rest : Arm} :
    Asking.walk act qs rest = .done ↔ qs = [] ∧ rest = .done := by
  cases qs with
  | _ => simp [Asking.walk]

theorem counted_ne_nil {place : ℕ} {inputs rest : List String}
    (h : counted place args = some (inputs, rest)) : inputs ≠ [] := by
  unfold counted at h
  split at h
  · obtain ⟨hn, heq⟩ := Option.ite_none_right_eq_some.mp h
    obtain ⟨rfl, -⟩ := Prod.mk.inj (Option.some.inj heq)
    rw [← length_pos_iff, length_take]
    omega
  · cases h

theorem idle_asks : (Effect.asks arm).Idle ↔ arm = .done := by
  cases arm with
  | done => exact iff_of_true trivial rfl
  | ask q next => exact iff_of_false id nofun

theorem idle_iff_admits (hk : k ∈ uncheckedKeys d args) :
    (effect d args).Idle ↔ admits d args = false := by
  unfold uncheckedKeys at hk
  unfold effect admits
  revert hk
  cases familyOf (commandName args) with
  | every write =>
    rintro -
    rw [idle_asks]
    obtain _ | ⟨name, _ | ⟨first, others⟩⟩ := args
    · simp [multiKey]
    · simp [multiKey]
    · simp [multiKey]
  | mget =>
    rintro -
    rw [idle_asks]
    obtain _ | ⟨name, _ | ⟨first, others⟩⟩ := args
    · simp [cmdMget]
    · simp [cmdMget]
    · simp [cmdMget]
  | pfcount =>
    rintro -
    rw [idle_asks]
    obtain _ | ⟨name, _ | ⟨first, _ | ⟨second, others⟩⟩⟩ := args
    · simp [cmdPfcount]
    · simp [cmdPfcount]
    · simp [cmdPfcount, Dispatcher.crossslot]
    · simp [cmdPfcount]
  | pfmerge =>
    rintro -
    rw [idle_asks]
    obtain _ | ⟨name, _ | ⟨first, others⟩⟩ := args
    · simp [cmdPfmerge]
    · simp [cmdPfmerge]
    · simp [cmdPfmerge]
  | sop =>
    rintro -
    rw [idle_asks]
    obtain _ | ⟨name, _ | ⟨first, others⟩⟩ := args
    · simp [cmdSop]
    · simp [cmdSop]
    · simp [cmdSop, sop]
  | sstore =>
    rintro -
    rw [idle_asks]
    obtain _ | ⟨name, _ | ⟨dst, _ | ⟨first, others⟩⟩⟩ := args
    · simp [cmdSstore]
    · simp [cmdSstore]
    · simp [cmdSstore]
    · simp [cmdSstore, sop]
  | sintercard =>
    rintro -
    rw [idle_asks]
    obtain hcounted | ⟨⟨inputs, rest⟩, hcounted⟩ := (counted 1 args).eq_none_or_eq_some
    · simp [cmdSintercard, hcounted]
    · obtain ⟨first, others, rfl⟩ := exists_cons_of_ne_nil (counted_ne_nil hcounted)
      simp [cmdSintercard, hcounted, sop]
  | smove =>
    rintro -
    rw [idle_asks]
    rcases args with _ | ⟨name, _ | ⟨src, _ | ⟨dst, _ | ⟨member, _ | ⟨extra, rest⟩⟩⟩⟩⟩
    · simp [cmdSmove]
    · simp [cmdSmove]
    · simp [cmdSmove]
    · simp [cmdSmove]
    · simp [cmdSmove]
    · simp [cmdSmove]
  | listMove arity sided timed =>
    rintro -
    rw [idle_asks]
    rcases args with _ | ⟨name, _ | ⟨src, _ | ⟨dst, rest⟩⟩⟩
    · simp [listMove]
    · simp [listMove]
    · simp [listMove]
    · cases sided with
      | _ => cases timed with
        | _ => simp [listMove, cmdLmove]
  | bpop =>
    rintro -
    rw [idle_asks]
    rw [cmdBpop]
    cases hkeys : (args.drop 1).dropLast with
    | nil =>
      have hlen := congrArg length hkeys
      simp at hlen
      simp; omega
    | cons first others =>
      have hlen := congrArg length hkeys
      simp at hlen
      simp; omega
  | mpop zset blocking =>
    rintro -
    rw [idle_asks]
    obtain hcounted | ⟨⟨inputs, rest⟩, hcounted⟩ :=
      (counted (if blocking then 2 else 1) args).eq_none_or_eq_some
    · simp [cmdMpop, hcounted]
    · obtain ⟨first, others, rfl⟩ := exists_cons_of_ne_nil (counted_ne_nil hcounted)
      cases rest with
      | nil => simp [cmdMpop, hcounted]
      | cons side rest =>
        simp only [cmdMpop, hcounted, Option.any_some, head?_cons, tail_cons]
        cases zset with
        | _ => cases blocking with
          | _ => cases saysWord side "MIN" with
            | _ => simp
  | zalgebra store =>
    rintro -
    rw [idle_asks]
    obtain hcounted | ⟨⟨inputs, rest⟩, hcounted⟩ :=
      (counted (if store then 2 else 1) args).eq_none_or_eq_some
    · simp [cmdZalgebra, hcounted]
    · obtain ⟨first, others, rfl⟩ := exists_cons_of_ne_nil (counted_ne_nil hcounted)
      simp [cmdZalgebra, hcounted]
  | zrangestore =>
    rintro -
    rw [idle_asks]
    rcases args with _ | ⟨name, _ | ⟨dst, _ | ⟨src, rest⟩⟩⟩
    · simp [cmdZrangestore]
    · simp [cmdZrangestore]
    · simp [cmdZrangestore]
    · simp [cmdZrangestore, Nat.lt_iff_add_one_le]
  | georadius base =>
    rintro -
    rw [idle_asks]
    simp [cmdGeoradius, cmdGeosearch]
  | geosearchstore =>
    rintro -
    rw [idle_asks]
    simp [cmdGeosearchstore, cmdGeosearch]
  | bitop =>
    rintro -
    rw [idle_asks]
    rcases args with _ | ⟨name, _ | ⟨op, _ | ⟨dst, _ | ⟨first, others⟩⟩⟩⟩
    · simp [cmdBitop]
    · simp [cmdBitop]
    · simp [cmdBitop]
    · simp [cmdBitop]
    · simp only [cmdBitop, getD_cons_succ, getD_cons_zero, drop_succ_cons, drop_zero]
      generalize ["AND", "OR", "XOR", "NOT", "DIFF", "DIFF1", "ANDOR",
          "ONE"].contains op.toUpper = known
      generalize ["DIFF", "DIFF1", "ANDOR"].contains op.toUpper = several
      cases known with
      | _ => cases several with
        | _ => cases saysWord op "NOT" with
          | _ => simp
  | copy =>
    rintro -
    rw [idle_asks]
    rcases args with _ | ⟨name, _ | ⟨src, _ | ⟨dst, rest⟩⟩⟩
    · simp [cmdCopy]
    · simp [cmdCopy]
    · simp [cmdCopy]
    · cases hreplace : copyReplaces rest false with
      | none => simp [cmdCopy, hreplace]
      | some replace => simp [cmdCopy, hreplace, copyRow]
  | rename nx =>
    rintro -
    rw [idle_asks]
    rcases args with _ | ⟨name, _ | ⟨src, _ | ⟨dst, _ | ⟨extra, rest⟩⟩⟩⟩
    · simp [cmdRename]
    · simp [cmdRename]
    · simp [cmdRename]
    · simp [cmdRename]
    · simp [cmdRename]
  | _ => exact fun hk => absurd hk not_mem_nil

/-! ## …and for no others -/

theorem first_or_dropLast (hk : k ∈ (args.drop 1).dropLast) :
    k ∈ (args[1]?).toList ∨ k ∈ (args.drop 2).dropLast := by
  rw [drop_two, ← tail_dropLast, ← head?_drop]
  cases hargs : args.drop 1 with
  | nil =>
    rw [hargs] at hk
    exact absurd hk not_mem_nil
  | cons first others =>
    rw [hargs] at hk
    cases others with
    | nil => exact absurd hk not_mem_nil
    | cons second others => simpa using hk

theorem first_or_second (hk : k ∈ (args.drop 1).take 2) :
    k ∈ (args[1]?).toList ∨ k ∈ (args[2]?).toList := by
  rw [← head?_drop, ← head?_drop, drop_two]
  match hargs : args.drop 1, hk with
  | [], hk => exact absurd hk not_mem_nil
  | [first], hk => exact .inl (by simpa using hk)
  | first :: second :: others, hk => simpa using hk

theorem within_cmdGeoradius_refused {base : ℕ} (hbase : 2 ≤ base) (hrest : d.restOk args = false) :
    Within d (args[1]?).toList (cmdGeoradius d args base) := by
  refine .ite fun hlen => .ite fun _ => ?_
  rw [getD_eq_of_lt (by omega)]
  refine .ask (by simp [Dispatcher.read]) rfl fun a => ?_
  cases a with
  | refused => exact within_done
  | _ => exact .ite fun h => absurd (by rw [hrest]; rfl) h

theorem keyCheckOf_eq {f : Family} {c : KeyCheck} (hfam : familyOf name = f)
    (hf : f ≠ .keyless) (hc : checksOf f = [c]) : keyCheckOf name = c := by
  have hmem := keyCheckOf_mem (hfam ▸ hf)
  rw [hfam, hc] at hmem
  exact mem_singleton.mp hmem

theorem mem_streams {xreadgroup : Bool} {words : List String}
    (h : k ∈ ((parseRead xreadgroup false words).map Prod.fst).getD []) :
    k ∈ (if xreadgroup then streamsFrom words else xreadStreams words).getD [] := by
  cases hread : parseRead xreadgroup false words with
  | none =>
    rw [hread] at h
    exact absurd h not_mem_nil
  | some read =>
    rw [hread] at h
    rwa [streams_of_parseRead hread]

theorem checked_or_unchecked (harm : effect d args = .asks arm) (hq : arm.Asks q) :
    q.key ∈ checkedKeys args ∨ q.key ∈ uncheckedKeys d args := by
  have hkey := (asks_within harm q hq).1
  unfold effect at harm
  unfold keyPositions at hkey
  unfold checkedKeys uncheckedKeys
  revert harm hkey
  cases hfam : familyOf (commandName args) with
  | single | jsonDebug | subcommand | mset | jsonMget | jsonMset =>
    rw [keyCheckOf_eq hfam nofun rfl]
    exact fun _ hkey => .inl hkey
  | every write =>
    have hmem := @keyCheckOf_mem (commandName args) (by rw [hfam]; nofun)
    rw [hfam] at hmem
    intro _ hkey
    obtain hcheck | hcheck := mem_pair.mp hmem
    · rw [hcheck]
      exact .inl hkey
    · rw [hcheck]
      exact first_or_drop hkey
  | mget | pfcount | pfmerge | sop | sstore =>
    rw [keyCheckOf_eq hfam nofun rfl]
    exact fun _ => first_or_drop
  | sintercard | mpop zset blocking | bitop => exact fun _ => .inr
  | smove | listMove arity sided timed | zrangestore | geosearchstore | copy | rename nx =>
    rw [keyCheckOf_eq hfam nofun rfl]
    exact fun _ => first_or_second
  | bpop =>
    rw [keyCheckOf_eq hfam nofun rfl]
    exact fun _ => first_or_dropLast
  | zalgebra store =>
    rw [keyCheckOf_eq hfam nofun rfl]
    cases store with
    | true => exact fun _ => mem_append.mp
    | false => exact fun _ => .inr
  | georadius base =>
    rw [keyCheckOf_eq hfam nofun rfl]
    rintro ⟨⟩ hkey
    cases hrest : d.restOk args with
    | true => exact mem_append.mp hkey
    | false => exact .inl (within_cmdGeoradius_refused (base_of_familyOf hfam) hrest q hq).1
  | xread | xreadgroup =>
    rw [keyCheckOf_eq hfam nofun rfl]
    exact fun _ hkey => .inl (mem_streams hkey)
  | _ => exact fun _ hkey => absurd hkey not_mem_nil

/-! ## The ceiling -/

@[simp] theorem length_keyBytes (k : String) : (keyBytes k).length = k.length := by
  rw [keyBytes, length_map, String.length_toList]

variable {maxKeyBytes : ℕ}

section

variable (h : hasOversizedKey maxKeyBytes args = false)
include h

theorem length_of_checked (hk : k ∈ checkedKeys args) : k.length ≤ effectiveMaxKey maxKeyBytes := by
  have hle := any_eq_false.mp h k hk
  simpa using hle

theorem dispatch_of_sized : dispatch maxKeyBytes d args = effect d args := by
  rw [dispatch, h]
  rfl

end

theorem Effect.not_reaches_of_idle {e : Effect} (h : e.Idle) (k : String) : ¬ e.Reaches k := by
  match e, h with
  | .asks .done, _ =>
    rintro ⟨q, hq, -⟩
    exact Asking.not_asks_done q hq

theorem reaches_of_unchecked (hadmits : admits d args = true)
    (hk : k ∈ uncheckedKeys d args) (hasks : ∃ arm, effect d args = .asks arm) :
    (effect d args).Reaches k := by
  have hbusy : ¬ (effect d args).Idle := by
    rw [idle_iff_admits hk, hadmits]
    exact nofun
  obtain ⟨arm, harm⟩ := hasks
  rw [harm] at hbusy ⊢
  obtain rfl | hcovers := full_uncheckedKeys harm
  · exact absurd trivial hbusy
  · exact hcovers k hk

theorem exists_asks_of_unchecked (hk : k ∈ uncheckedKeys d args) :
    ∃ arm, effect d args = .asks arm := by
  unfold uncheckedKeys at hk
  unfold effect
  revert hk
  cases familyOf (commandName args) with
  | flush | dbsize | scan | eval => exact fun hk => absurd hk not_mem_nil
  | _ => exact fun _ => ⟨_, rfl⟩

/-- **A command keeps to the limit exactly when the keys the check leaves out do**, or when its
words are refused before it asks a store for anything.  Either way a key within the limit has rows,
each of the whole of its key. -/
theorem key_ceiling (maxKeyBytes : ℕ) (d : Dispatcher) (args : Args) :
    ((∀ k, (dispatch maxKeyBytes d args).Reaches k → k.length ≤ effectiveMaxKey maxKeyBytes) ↔
      hasOversizedKey maxKeyBytes args = true ∨ admits d args = false ∨
        ∀ k ∈ uncheckedKeys d args, k.length ≤ effectiveMaxKey maxKeyBytes) ∧
    ∀ u : SlotUnit, u.ns.length ≤ 255 → ∀ cf ≠ Cf.metadata, ∀ k version,
      (k.length ≤ effectiveMaxKey maxKeyBytes →
        (subkeyPrefix u cf (keyBytes k) version).isSome = true) ∧
      ∀ row, subkeyPrefix u cf (keyBytes k) version = some row →
        ∀ field, rowOwner (row ++ field) = some (u.ns, keyBytes k) := by
  refine ⟨⟨fun hkeeps => ?_, fun h k hreach => ?_⟩, fun u hns cf hcf k version => ⟨fun hk => ?_,
    fun row hrow field => rowOwner_subkeyPrefix hns hcf hrow field⟩⟩
  · by_cases hover : hasOversizedKey maxKeyBytes args = true
    · exact .inl hover
    rw [dispatch_of_sized (Bool.not_eq_true _ ▸ hover)] at hkeeps
    cases hadmits : admits d args with
    | false => exact .inr (.inl rfl)
    | true =>
      exact .inr (.inr fun k hk =>
        hkeeps k (reaches_of_unchecked hadmits hk (exists_asks_of_unchecked hk)))
  · by_cases hover : hasOversizedKey maxKeyBytes args = true
    · rw [dispatch, hover] at hreach
      exact absurd hreach (@Effect.not_reaches_of_idle (.asks .done) trivial k)
    have hsized : hasOversizedKey maxKeyBytes args = false := Bool.not_eq_true _ ▸ hover
    rw [dispatch_of_sized hsized] at hreach
    cases he : effect d args with
    | asks arm =>
      have hbusy := hreach
      rw [he] at hreach
      obtain ⟨q, hq, rfl⟩ := hreach
      obtain hk | hk := checked_or_unchecked he hq
      · exact length_of_checked hsized hk
      obtain h | hrefused | hunchecked := h
      · exact absurd h hover
      · exact absurd hbusy (Effect.not_reaches_of_idle ((idle_iff_admits hk).mpr hrefused) _)
      · exact hunchecked _ hk
    | _ =>
      rw [he] at hreach
      exact hreach.elim
  · rw [subkeyPrefix_isSome, length_keyBytes]
    exact hk.trans (effectiveMaxKey_le _)

theorem key_ceiling_rename : hasOversizedKey 4 ["RENAME", "a", "\x7ba\x7d"] = false ∧
    admits bySlot ["RENAME", "a", "\x7ba\x7d"] = true ∧
    ∀ k, (dispatch 4 bySlot ["RENAME", "a", "\x7ba\x7d"]).Reaches k →
      k.length ≤ effectiveMaxKey 4 :=
  ⟨by decide +kernel, by decide +kernel, (key_ceiling 4 bySlot ["RENAME", "a", "\x7ba\x7d"]).1.mpr
    (.inr (.inr (by decide +kernel)))⟩

/-- A key in the slot of `a`. -/
def tagged (rest : List Char) : String := String.ofList ('\x7b' :: 'a' :: '\x7d' :: rest)

theorem slotOf_tagged (rest : List Char) : bySlot.slotOf (tagged rest) = bySlot.slotOf "a" := by
  have hbytes : keyBytes (tagged rest) =
      0x7b :: 0x61 :: 0x7d :: rest.map fun c => UInt8.ofNat c.toNat := by
    rw [keyBytes, tagged, String.toList_ofList]
    rfl
  have htag : hashTag (keyBytes (tagged rest)) = hashTag (keyBytes "a") := by
    rw [hbytes]
    rfl
  show slotForKey _ = slotForKey _
  rw [slotForKey, htag]
  rfl

theorem smove_reaches (rest : List Char) :
    (effect bySlot ["SMOVE", "a", tagged rest, "m"]).Reaches (tagged rest) := by
  have hfam : familyOf (commandName ["SMOVE", "a", tagged rest, "m"]) = .smove := by
    show familyOf "SMOVE".toUpper = _
    decide +kernel
  have hslot : bySlot.crossslot "a" [tagged rest] = false := by
    simp [Dispatcher.crossslot, slotOf_tagged]
  rw [effect, hfam]
  simp only [cmdSmove, hslot]
  exact ⟨⟨bySlot.slotOf "a", tagged rest, false⟩, .later (a := .found) .here, rfl⟩

theorem smove_sized (dst : String) : hasOversizedKey maxKeyBytes ["SMOVE", "a", dst, "m"] =
    decide (effectiveMaxKey maxKeyBytes < 1) := by
  have hcheck : keyCheckOf (commandName ["SMOVE", "a", dst, "m"]) = .first := by
    show keyCheckOf "SMOVE".toUpper = _
    decide +kernel
  rw [hasOversizedKey, checkedKeys, hcheck]
  exact Bool.or_false _

/-- The destination of a move, and one past the frame. -/
def destination : String := tagged "destination".toList

def unframeable : String := tagged (List.replicate frameMax 'k')

theorem length_unframeable : unframeable.length = frameMax + 3 := by
  rw [unframeable, tagged, String.length_ofList, length_cons, length_cons, length_cons,
    length_replicate]

/-- **The destination of a move is not measured**: past a limit of four bytes it is taken, and past
the frame its rows cannot be built. -/
theorem key_ceiling_exceeded :
    (hasOversizedKey 4 ["SMOVE", "a", destination, "m"] = false ∧
      (dispatch 4 bySlot ["SMOVE", "a", destination, "m"]).Reaches destination ∧
      effectiveMaxKey 4 < destination.length) ∧
    (hasOversizedKey 0 ["SMOVE", "a", unframeable, "m"] = false ∧
      (dispatch 0 bySlot ["SMOVE", "a", unframeable, "m"]).Reaches unframeable ∧
      ∀ u version, subkeyPrefix u .subkey (keyBytes unframeable) version = none) := by
  have hsmall : hasOversizedKey 4 ["SMOVE", "a", destination, "m"] = false :=
    (smove_sized _).trans (by decide +kernel)
  have hlarge : hasOversizedKey 0 ["SMOVE", "a", unframeable, "m"] = false :=
    (smove_sized _).trans (by decide +kernel)
  refine ⟨⟨hsmall, ?_, by decide +kernel⟩, hlarge, ?_, fun u version => ?_⟩
  · rw [dispatch_of_sized hsmall]
    exact smove_reaches _
  · rw [dispatch_of_sized hlarge]
    exact smove_reaches _
  have hlong : frameMax < (keyBytes unframeable).length := by
    rw [length_keyBytes, length_unframeable]
    omega
  rw [subkeyPrefix, if_neg (Nat.not_le.mpr hlong)]

end Flint
