import FlintCache.Server.Arms

/-!
# Server/Keys — where a command's keys are

The keys an arm hands to the stores stand at fixed places of its arguments (`keyPositions`), and
each is looked up in its own slot.  An arm is followed question by question: one lemma says where
its keys are, that they share a slot, and which are all asked for (`Sited`), and leaves what the
answers lead to behind.
-/

namespace Flint

section

open List Asking Dispatcher Effect

variable {d : Dispatcher} {args : Args} {arm rest : Arm} {keys : List String} {q : Access}

/-! ## Arms within some keys -/

def Within (d : Dispatcher) (keys : List String) (arm : Arm) : Prop :=
  ∀ q, arm.Asks q → q.key ∈ keys ∧ q.slot = d.slotOf q.key

def Covers (keys : List String) (arm : Arm) : Prop := ∀ k ∈ keys, ∃ q, arm.Asks q ∧ q.key = k

theorem within_done : Within d keys .done := fun q h => absurd h (Asking.not_asks_done q)

theorem Within.ite {c : Prop} [Decidable c] (h : ¬ c → Within d keys arm) :
    Within d keys (if c then .done else arm) := by
  split
  · exact within_done
  · next hc => exact h hc

variable {act : StoreAnswer → WalkStep} {qs : List Access}

theorem Within.walk
    (hqs : ∀ q ∈ qs, q.key ∈ keys ∧ q.slot = d.slotOf q.key) (hgo : ∃ a, act a = .go)
    (hrest : Within d keys rest) : Within d keys (Asking.walk act qs rest) := by
  intro q h
  obtain h | h := (asks_walk hgo).mp h
  · exact hqs q h
  · exact hrest q h

theorem Covers.walk (hgo : ∃ a, act a = .go)
    (hqs : ∀ k ∈ keys, (∃ q ∈ qs, q.key = k) ∨ ∃ q, rest.Asks q ∧ q.key = k) :
    Covers keys (Asking.walk act qs rest) := by
  intro k hk
  obtain ⟨q, hq, rfl⟩ | ⟨q, hq, rfl⟩ := hqs k hk
  · exact ⟨q, (asks_walk hgo).mpr (.inl hq), rfl⟩
  · exact ⟨q, (asks_walk hgo).mpr (.inr hq), rfl⟩

@[simp] theorem goOn_go : ∃ a, goOn a = .go := ⟨.found, rfl⟩

@[simp] theorem goUnlessRefused_go : ∃ a, goUnlessRefused a = .go := ⟨.found, rfl⟩

@[simp] theorem goWhileMissing_go : ∃ a, goWhileMissing a = .go := ⟨.missing, rfl⟩

@[simp] theorem goUntilSettled_go : ∃ a, goUntilSettled a = .go := ⟨.found, rfl⟩

variable {others : List String} {first : String} {k : String}

theorem slotOf_of_not_crossslot (h : ¬ d.crossslot first others) (hk : k ∈ others) :
    d.slotOf k = d.slotOf first := by
  simp only [crossslot, any_eq_true, decide_eq_true_eq, not_exists, not_and,
    not_not] at h
  exact h k hk

theorem slotOf_of_mem_cons (h : ¬ d.crossslot first others) (hk : k ∈ first :: others) :
    d.slotOf k = d.slotOf first := by
  obtain rfl | hk := mem_cons.mp hk
  · rfl
  · exact slotOf_of_not_crossslot h hk

theorem mem_map_access {slot : ℕ} {write : Bool} (hsub : ∀ k ∈ keys, d.slotOf k = slot)
    {all : List String} (hall : ∀ k ∈ keys, k ∈ all) :
    ∀ q ∈ keys.map (fun k => (⟨slot, k, write⟩ : Access)), q.key ∈ all ∧
        q.slot = d.slotOf q.key := by
  rintro q hq
  obtain ⟨k, hk, rfl⟩ := mem_map.mp hq
  exact ⟨hall k hk, (hsub k hk).symm⟩

theorem mem_map_read {all : List String} (hall : ∀ k ∈ keys, k ∈ all) :
    ∀ q ∈ keys.map d.read, q.key ∈ all ∧ q.slot = d.slotOf q.key := by
  rintro q hq
  obtain ⟨k, hk, rfl⟩ := mem_map.mp hq
  exact ⟨hall k hk, rfl⟩

theorem mem_map_write {all : List String} (hall : ∀ k ∈ keys, k ∈ all) :
    ∀ q ∈ keys.map d.write, q.key ∈ all ∧ q.slot = d.slotOf q.key := by
  rintro q hq
  obtain ⟨k, hk, rfl⟩ := mem_map.mp hq
  exact ⟨hall k hk, rfl⟩

theorem Within.ask {next : StoreAnswer → Arm} (hkey : q.key ∈ keys)
    (hslot : q.slot = d.slotOf q.key) (h : ∀ a, Within d keys (next a)) :
    Within d keys (.ask q next) := by
  intro q' hq'
  obtain rfl | ⟨a, hq'⟩ := asks_ask.mp hq'
  · exact ⟨hkey, hslot⟩
  · exact h a q' hq'

theorem within_ask_done (hkey : q.key ∈ keys) (hslot : q.slot = d.slotOf q.key) :
    Within d keys (.ask q fun _ => .done) := .ask hkey hslot fun _ => within_done

/-! ## Arms of one slot -/

/-- Either it asks nothing, or all of these are in the slot of the command's key. -/
def Colocated (d : Dispatcher) (key : Option String) (keys : List String) (arm : Arm) : Prop :=
  arm = .done ∨ ∃ first, key = some first ∧ ∀ k ∈ keys, d.slotOf k = d.slotOf first

def Full (keys : List String) (arm : Arm) : Prop := arm = .done ∨ Covers keys arm

/-- **Where an arm's keys are**: all among `keys`, those in the slot of the command's key, and all
of `left` asked for by an arm that asks at all. -/
structure Sited (d : Dispatcher) (key : Option String) (keys left : List String) (arm : Arm) :
    Prop where
  within : Within d keys arm
  colocated : d.whole = false → Colocated d key keys arm
  full : Full left arm

variable {key : Option String} {left : List String}

theorem colocated_done : Colocated d key keys .done := .inl rfl

theorem full_done : Full keys .done := .inl rfl

theorem full_nil : Full [] arm := .inr nofun

theorem sited_done : Sited d key keys left .done :=
  ⟨within_done, fun _ => colocated_done, full_done⟩

section

variable {c : Prop} [Decidable c]

theorem Colocated.ite (h : ¬ c → Colocated d key keys arm) :
    Colocated d key keys (if c then .done else arm) := by
  split
  · exact colocated_done
  · next hc => exact h hc

theorem Full.ite (h : Full keys arm) : Full keys (if c then .done else arm) := by
  split
  · exact full_done
  · exact h

theorem Sited.ite (h : ¬ c → Sited d key keys left arm) :
    Sited d key keys left (if c then .done else arm) := by
  split
  · exact sited_done
  · next hc => exact h hc

end

theorem colocated_cons (hkeys : keys = first :: others)
    (hkey : key = some first) (hslot : ¬ d.crossslot first others) : Colocated d key keys arm :=
  .inr ⟨first, hkey, fun _ hk => slotOf_of_mem_cons hslot (hkeys ▸ hk)⟩

theorem Sited.cons (hkey : key = some first) (hslot : ¬ d.crossslot first others)
    (hwithin : (∀ k ∈ first :: others, d.slotOf k = d.slotOf first) →
        Within d (first :: others) arm)
    (hfull : Covers left arm) : Sited d key (first :: others) left arm :=
  ⟨hwithin fun _ hk => slotOf_of_mem_cons hslot hk, fun _ =>
      colocated_cons rfl hkey hslot, .inr hfull⟩

theorem Sited.pair {name src dst : String} {words : List String} (hslot : ¬ d.crossslot src [dst])
    (hwithin : d.slotOf dst = d.slotOf src → Within d [src, dst] arm) (hfull : Covers [dst] arm) :
    Sited d (name :: src :: dst :: words)[1]? (((name :: src :: dst :: words).drop 1).take 2)
      ((name :: src :: dst :: words)[2]?).toList arm :=
  .cons rfl hslot (fun h => hwithin (h dst (by simp))) hfull

variable {next : StoreAnswer → Arm}

theorem Covers.ask {a : StoreAnswer} (h : Covers keys (next a)) :
    Covers keys (.ask q next) := fun k hk => by
  obtain ⟨q', hq', rfl⟩ := h k hk
  exact ⟨q', .later hq', rfl⟩

theorem covers_ask (hkey : q.key = k) : Covers [k] (.ask q next) := fun k' hk' => by
  rw [mem_singleton.mp hk']
  exact ⟨q, .here, hkey⟩

theorem Covers.over {act : StoreAnswer → WalkStep} (hgo : ∃ a, act a = .go) {all : List String}
    {access : String → Access} (haccess : ∀ k, (access k).key = k) (hsub : ∀ k ∈ keys, k ∈ all) :
    Covers keys (Asking.walk act (all.map access) rest) :=
  .walk hgo fun k hk => .inl ⟨access k, mem_map_of_mem (hsub k hk), haccess k⟩

/-! ## Places of keys -/

theorem drop_two : args.drop 2 = (args.drop 1).tail := by rw [tail_drop]

theorem first_or_drop (hk : k ∈ args.drop 1) : k ∈ (args[1]?).toList ∨ k ∈ args.drop 2 := by
  rw [drop_two]
  rw [← head?_drop]
  cases hargs : args.drop 1 with
  | nil =>
    rw [hargs] at hk
    exact absurd hk not_mem_nil
  | cons first others =>
    rw [hargs] at hk
    simpa using hk

theorem mem_drop_one (hk : k ∈ args.drop 2) : k ∈ args.drop 1 := by
  rw [drop_two] at hk
  exact mem_of_mem_tail hk

theorem getElem_one_of_drop (h : args.drop 1 = first :: others) : args[1]? = some first := by
  rw [← head?_drop, h]
  rfl

theorem getElem_one_of_dropLast
    (h : (args.drop 1).dropLast = first :: others) : args[1]? = some first := by
  cases hargs : args.drop 1 with
  | nil => rw [hargs] at h; cases h
  | cons word words =>
    rw [hargs] at h
    cases words with
    | nil => cases h
    | cons second words =>
      rw [dropLast_cons_cons] at h
      rw [getElem_one_of_drop hargs, (List.cons.inj h).1]

variable {step : ℕ}

theorem stepBy_cons (word : String) (words : List String) :
    ∃ others, stepBy step (word :: words) = word :: others := by
  refine ⟨((words.zipIdx 1).filter fun w => w.2 % step = 0).map Prod.fst, ?_⟩
  rw [stepBy, zipIdx_cons, filter_cons_of_pos (by simp)]
  rfl

theorem colocated_stepBy (hlen : 1 < args.length)
    (hslot : ¬ d.crossslot ((stepBy step (args.drop 1)).headD "")
      (stepBy step (args.drop 1)).tail) : Colocated d args[1]? (stepBy step (args.drop 1)) arm := by
  cases hargs : args.drop 1 with
  | nil =>
    have hnil := congrArg List.length hargs
    simp at hnil
    omega
  | cons first others =>
    obtain ⟨rest, hrest⟩ := @stepBy_cons step first others
    rw [hargs, hrest] at hslot
    exact colocated_cons hrest (getElem_one_of_drop hargs) hslot

theorem counted_length {at_ : ℕ} {inputs rest : List String}
    (h : counted at_ args = some (inputs, rest)) : at_ < args.length := by
  unfold counted at h
  split at h
  · rename_i n hn
    obtain ⟨word, hword, -⟩ := Option.bind_eq_some_iff.mp hn
    exact (List.getElem?_eq_some_iff.mp hword).1
  · cases h

theorem counted_head {place : ℕ} {others rest : List String}
    (h : counted place args = some (first :: others, rest)) : args[place + 1]? = some first := by
  unfold counted at h
  split at h
  · split at h
    · rename_i n hn hle
      have hhead := congrArg List.head? (Prod.mk.inj (Option.some.inj h)).1
      rw [head?_take, if_neg (by omega), head?_drop] at hhead
      exact hhead
    · cases h
  · cases h

theorem getD_eq_of_lt {n : ℕ} (h : n < args.length) : (args[n]?).toList = [args.getD n ""] := by
  rw [getD_eq_getElem?_getD, getElem?_eq_getElem h]
  rfl

theorem slotOf_of_stored {src : String} {dst : Option String}
    (h : ¬ (dst.toList.any fun k => d.slotOf k ≠ d.slotOf src)) {k : String}
    (hk : k ∈ dst.toList) : d.slotOf k = d.slotOf src := by
  simp only [any_eq_true, decide_eq_true_eq, not_exists, not_and, not_not] at h
  exact h k hk

/-! ## The streams of a read

Two readings of the same options: the tables read them to find the keys, and the arm to run. -/

def xreadStreams : List String → Option (List String)
  | [] => none
  | word :: rest =>
    if saysWord word "STREAMS" then
      if rest = [] || rest.length % 2 = 1 then none else some (rest.take (rest.length / 2))
    else match rest with
      | [] => none
      | _ :: rest => xreadStreams rest

theorem saysWord_of_ne {word name name' : String} (h : saysWord word name)
    (hne : name ≠ name') : saysWord word name' = false := by
  rw [saysWord, beq_iff_eq] at h
  rw [saysWord, h, beq_eq_false_iff_ne]
  exact hne

theorem streamsFrom_cons (o v : String) (rest : List String) : streamsFrom (o :: v :: rest) =
    if saysWord o "BLOCK" || saysWord o "COUNT" then streamsFrom rest
    else if saysWord o "STREAMS" then if (v :: rest).length % 2 = 1 then none
      else some ((v :: rest).take ((v :: rest).length / 2))
    else if saysWord o "GROUP" then rest.tail?.bind streamsFrom
    else if saysWord o "NOACK" then streamsFrom (v :: rest) else none := by
  rw [streamsFrom.eq_def]
  cases rest with
  | _ => rfl

theorem streams_of_parseRead {xreadgroup group : Bool} {words ids : List String}
    (h : parseRead xreadgroup group words = some (keys, ids)) :
    (if xreadgroup then streamsFrom words else xreadStreams words) = some keys := by
  fun_induction parseRead xreadgroup group words with
  | case1 group word value rest hblock _ ih =>
    have hstreams : saysWord word "STREAMS" = false := saysWord_of_ne hblock (by decide)
    simpa [streamsFrom_cons, xreadStreams, hblock, hstreams] using ih h
  | case3 group word value rest _ hcount _ ih =>
    have hstreams : saysWord word "STREAMS" = false := saysWord_of_ne hcount (by decide)
    simpa [streamsFrom_cons, xreadStreams, hcount, hstreams] using ih h
  | case6 group word value rest hblock hcount hstreams hodd =>
    rw [Bool.or_eq_true, not_or, decide_eq_true_eq] at hodd
    simp only [splitAt_eq, Option.some.injEq, Prod.mk.injEq] at h
    simp only [streamsFrom_cons, xreadStreams, hblock, hcount, hstreams, hodd.1, ← h.1]
    simp
  | case7 group word value hblock hcount hstreams hgroup name rest hread ih =>
    simp only [hread, if_true] at ih h ⊢
    simpa [streamsFrom_cons, hblock, hcount, hstreams, hgroup] using ih h
  | case10 group word value rest hblock hcount hstreams hgroup hnoack hread ih =>
    simp only [hread, if_true] at ih h ⊢
    simpa [streamsFrom_cons word, hblock, hcount, hstreams, hgroup, hnoack] using ih h
  | _ => cases h

/-! ## Arm by arm -/

def keyPositions (args : Args) : List String :=
  match familyOf (commandName args) with
  | .single => (args[1]?).toList
  | .jsonDebug => (jsonDebugKey args).join.toList
  | .subcommand => (subcommandKey args).join.toList
  | .every _ => args.drop 1
  | .mset => stepBy 2 (args.drop 1)
  | .mget => args.drop 1
  | .pfcount => args.drop 1
  | .pfmerge => args.drop 1
  | .sop => args.drop 1
  | .sstore => args.drop 1
  | .sintercard => ((counted 1 args).map Prod.fst).getD []
  | .smove => (args.drop 1).take 2
  | .listMove _ _ _ => (args.drop 1).take 2
  | .bpop => (args.drop 1).dropLast
  | .mpop _ blocking => ((counted (if blocking then 2 else 1) args).map Prod.fst).getD []
  | .zalgebra true => (args[1]?).toList ++ ((counted 2 args).map Prod.fst).getD []
  | .zalgebra false => ((counted 1 args).map Prod.fst).getD []
  | .zrangestore => (args.drop 1).take 2
  | .georadius base => (args[1]?).toList ++ (storeKey (args.drop base)).toList
  | .geosearchstore => (args.drop 1).take 2
  | .bitop => args.drop 2
  | .copy => (args.drop 1).take 2
  | .rename _ => (args.drop 1).take 2
  | .xread => ((parseRead false false (args.drop 1)).map Prod.fst).getD []
  | .xreadgroup => ((parseRead true false (args.drop 1)).map Prod.fst).getD []
  | .jsonMget => (args.drop 1).dropLast
  | .jsonMset => stepBy 3 (args.drop 1)
  | _ => []

theorem sited_oneKey : Sited d key key.toList [] (oneKey d args key) := by
  cases key with
  | none => exact sited_done
  | some k => exact ⟨.ite fun _ => within_ask_done (by simp) rfl,
      fun _ => .inr ⟨_, rfl, fun _ hk => by rw [mem_singleton.mp hk]⟩, full_nil⟩

theorem within_multiKey (write : Bool) : Within d (args.drop 1) (multiKey d args write) := by
  refine .walk (fun q hq => ?_) goOn_go within_done
  obtain ⟨k, hk, rfl⟩ := mem_map.mp hq
  exact ⟨hk, rfl⟩

theorem full_multiKey (write : Bool) : Full (args.drop 2) (multiKey d args write) :=
  .inr (.over goOn_go (fun _ => rfl) fun _ => mem_drop_one)

theorem sited_cmdMset : Sited d args[1]? (stepBy 2 (args.drop 1)) [] (cmdMset d args) :=
  .ite fun hlen => .ite fun hslot =>
    ⟨.walk (mem_map_write fun _ hk => hk) goUnlessRefused_go within_done,
      fun _ => colocated_stepBy (by simp at hlen; omega) hslot, full_nil⟩

theorem sited_cmdJsonMset : Sited d args[1]? (stepBy 3 (args.drop 1)) [] (cmdJsonMset d args) :=
  .ite fun hlen => .ite fun hslot => ⟨.walk (mem_map_read fun _ hk => hk) goUnlessRefused_go
    (.ite fun _ => .walk (mem_map_write fun _ hk => hk) goUnlessRefused_go within_done),
    fun _ => colocated_stepBy (by simp at hlen; omega) hslot, full_nil⟩

theorem sited_cmdMget : Sited d args[1]? (args.drop 1) (args.drop 2) (cmdMget d args) := by
  refine .ite fun hlen => .ite fun hslot =>
      ⟨.walk (mem_map_read fun _ hk => hk) goOn_go within_done,
    fun _ => ?_, .inr (.over goOn_go (fun _ => rfl) fun _ => mem_drop_one)⟩
  cases hargs : args.drop 1 with
  | nil =>
    have hnil := congrArg List.length hargs
    simp at hnil
    omega
  | cons first others =>
    rw [hargs] at hslot
    exact colocated_cons rfl (getElem_one_of_drop hargs) hslot

theorem sited_cmdPfcount : Sited d args[1]? (args.drop 1) (args.drop 2) (cmdPfcount d args) := by
  rw [drop_two]
  unfold cmdPfcount
  split
  · exact sited_done
  · rename_i key hargs
    rw [hargs]
    refine ⟨.ask (by simp [Dispatcher.read]) rfl fun a => ?_,
      fun _ => colocated_cons rfl (getElem_one_of_drop hargs) nofun, full_nil⟩
    cases a with
    | found => exact within_ask_done (by simp [Dispatcher.write]) rfl
    | _ => exact within_done
  rename_i key others _ hargs
  rw [hargs]
  exact .ite fun hslot => .cons (getElem_one_of_drop hargs) hslot
    (fun h => .walk (mem_map_access h fun _ hk => hk) goUnlessRefused_go within_done)
    (.over goUnlessRefused_go (fun _ => rfl) fun _ => mem_cons_of_mem _)

theorem sited_cmdPfmerge : Sited d args[1]? (args.drop 1) (args.drop 2) (cmdPfmerge d args) := by
  rw [drop_two]
  unfold cmdPfmerge
  split
  · exact sited_done
  rename_i dst sources hargs
  rw [hargs]
  exact .ite fun hslot => .cons (getElem_one_of_drop hargs) hslot
    (fun h => .walk (mem_map_access h fun _ hk => hk) goUnlessRefused_go
      (within_ask_done (by simp [write]) rfl))
    (.over goUnlessRefused_go (fun _ => rfl) fun _ => mem_cons_of_mem _)

theorem Within.sop {slot : ℕ} {inputs : List String} (hslot : ∀ k ∈ inputs, d.slotOf k = slot)
    (hkeys : ∀ k ∈ inputs, k ∈ keys) (hrest : Within d keys rest) :
    Within d keys (sop slot inputs rest) :=
  .walk (mem_map_access hslot hkeys) goUnlessRefused_go
    (.walk (mem_map_access hslot hkeys) goUntilSettled_go hrest)

variable {slot : ℕ}

theorem Covers.sop {inputs : List String} (hsub : ∀ k ∈ keys, k ∈ inputs) :
    Covers keys (sop slot inputs rest) := .over goUnlessRefused_go (fun _ => rfl) hsub

theorem sited_cmdSop : Sited d args[1]? (args.drop 1) (args.drop 2) (cmdSop d args) := by
  rw [drop_two]
  unfold cmdSop
  split
  · exact sited_done
  rename_i first others hargs
  rw [hargs]
  exact .ite fun hslot => .cons (getElem_one_of_drop hargs) hslot
    (fun h => .sop h (fun _ hk => hk) within_done) (.sop fun _ => mem_cons_of_mem _)

theorem sited_cmdSstore : Sited d args[1]? (args.drop 1) (args.drop 2) (cmdSstore d args) := by
  rw [drop_two]
  unfold cmdSstore
  split
  · rename_i dst key keys hargs
    rw [hargs]
    exact .ite fun hslot => .cons (getElem_one_of_drop hargs) hslot
      (fun h => .sop (fun k hk => h k (mem_cons_of_mem _ hk)) (fun _ => mem_cons_of_mem _)
        (within_ask_done (by simp [write]) rfl)) (.sop fun _ hk => hk)
  · exact sited_done

theorem sited_cmdSintercard : Sited d args[2]? (((counted 1 args).map Prod.fst).getD [])
    (((counted 1 args).map Prod.fst).getD []) (cmdSintercard d args) := by
  unfold cmdSintercard
  split
  · rename_i first others rest hcounted
    rw [hcounted]
    refine .ite fun hslot => ?_
    rw [Bool.or_eq_true, not_or] at hslot
    have hslots : ∀ k ∈ first :: others, d.slotOf k = d.slotOf first := fun k hk =>
      slotOf_of_not_crossslot hslot.2 hk
    exact ⟨.sop hslots (fun _ hk => hk) within_done,
      fun _ => .inr ⟨first, counted_head hcounted, hslots⟩, .inr (.sop fun _ hk => hk)⟩
  · exact sited_done

variable {src dst : String}

theorem sited_cmdSmove :
    Sited d args[1]? ((args.drop 1).take 2) (args[2]?).toList (cmdSmove d args) := by
  unfold cmdSmove
  split
  · rename_i name src dst member
    refine .ite fun hslot =>
        .pair hslot (fun hdst => .ask (by simp [Dispatcher.read]) rfl fun a => ?_)
      (.ask (a := .found) (covers_ask rfl))
    cases a with
    | found =>
      refine .ask (by simp) hdst.symm fun a => ?_
      cases a
      case refused => exact within_done
      all_goals
        refine .ask (by simp [Dispatcher.read]) rfl fun a => ?_
        cases a with
        | found =>
          refine .ite fun _ => .ask (by simp) hdst.symm fun a => ?_
          cases a with
          | refused => exact within_done
          | _ => exact within_ask_done (by simp [Dispatcher.write]) rfl
        | _ => exact within_done
    | _ => exact within_done
  · exact sited_done

theorem sited_cmdLmove (src dst : String) :
    Sited d (some src) [src, dst] [dst] (cmdLmove d src dst) := by
  refine .ite fun hslot => ⟨.ask (by simp [Dispatcher.read]) rfl fun a => ?_, fun hwhole => ?_,
    .inr (.ask (a := .found) ?_)⟩
  · cases a with
    | found =>
      simp only
      split
      on_goal 2 =>
        refine .ask (by simp [Dispatcher.read]) rfl fun a => ?_
        cases a
        case refused => exact within_done
      -- the move, whether or not the destination was read
      all_goals
        refine .ask (by simp [Dispatcher.write]) rfl fun a => ?_
        cases a with
        | found =>
          refine .ask (by simp [Dispatcher.write]) rfl fun a => ?_
          cases a with
          | refused => exact within_ask_done (by simp [Dispatcher.write]) rfl
          | _ => exact within_done
        | _ => exact within_done
    | _ => exact within_done
  · rw [hwhole] at hslot
    exact colocated_cons rfl rfl hslot
  · simp only
    split
    · exact .ask (a := .found) (covers_ask rfl)
    · exact covers_ask rfl

theorem sited_listMove (arity : ℕ) (sided timed : Bool) : Sited d args[1]? ((args.drop 1).take 2)
    (args[2]?).toList (listMove d args arity sided timed) := by
  unfold listMove
  split
  · exact .ite fun _ => .ite fun _ => .ite fun _ => sited_cmdLmove _ _
  · exact sited_done

theorem sited_cmdBpop : Sited d args[1]? (args.drop 1).dropLast (args.drop 2).dropLast
    (cmdBpop d args) := by
  have hsub : ∀ k ∈ (args.drop 2).dropLast, k ∈ (args.drop 1).dropLast := fun k hk => by
    rw [drop_two, ← tail_dropLast] at hk
    exact mem_of_mem_tail hk
  unfold cmdBpop
  split
  · exact sited_done
  rename_i first others hargs
  rw [hargs] at hsub ⊢
  exact .ite fun _ => .ite fun hslot => .cons (getElem_one_of_dropLast hargs) hslot
    (fun _ => .walk (mem_map_write fun _ hk => hk) goWhileMissing_go within_done)
    (.over goWhileMissing_go (fun _ => rfl) hsub)

theorem sited_cmdMpop (zset blocking : Bool) : Sited d args[if blocking then 3 else 2]?
    (((counted (if blocking then 2 else 1) args).map Prod.fst).getD [])
    (((counted (if blocking then 2 else 1) args).map Prod.fst).getD [])
    (cmdMpop d args zset blocking) := by
  have hplace : (if blocking then 3 else 2) = (if blocking then 2 else 1) + 1 := by
    cases blocking with
    | _ => rfl
  rw [hplace]
  unfold cmdMpop
  generalize (if blocking then 2 else 1) = place
  split
  · rename_i first others side rest hcounted
    rw [hcounted]
    exact .ite fun _ => .ite fun hslot => .cons (counted_head hcounted) hslot
      (fun _ => .walk (mem_map_write fun _ hk => hk) goWhileMissing_go within_done)
      (.over goWhileMissing_go (fun _ => rfl) fun _ hk => hk)
  · exact sited_done

def zalgebraKeys (args : Args) (store : Bool) : List String :=
  (if store then (args[1]?).toList else [])
    ++ ((counted (if store then 2 else 1) args).map Prod.fst).getD []

theorem sited_cmdZalgebra (store : Bool) : Sited d args[if store then 1 else 2]?
    (zalgebraKeys args store) (((counted (if store then 2 else 1) args).map Prod.fst).getD [])
    (cmdZalgebra d args store) := by
  generalize hgate : args[if store then 1 else 2]? = gate
  unfold cmdZalgebra
  generalize hcounted : counted (if store then 2 else 1) args = inputs
  split
  · rename_i key others rest
    have hkeys : ∀ k ∈ key :: others, k ∈ zalgebraKeys args store := fun k hk =>
      mem_append_right _ (by rwa [hcounted])
    refine .ite fun hslot => ?_
    have hslots := fun k (hk : k ∈ key :: others) => slotOf_of_not_crossslot hslot hk
    have hasks := @mem_map_access d (key :: others) _ false hslots _ hkeys
    have hlen := counted_length hcounted
    refine ⟨.walk hasks goUnlessRefused_go (.ite fun _ => .walk hasks goUnlessRefused_go
      (.walk hasks goUntilSettled_go ?_)), fun _ => .inr ?_,
      .inr (.over goUnlessRefused_go (fun _ => rfl) fun _ hk => hk)⟩
    · cases store with
      | false => exact within_done
      | true =>
        refine within_ask_done (mem_append_left _ ?_) rfl
        simp [write, show 1 < args.length by simp at hlen; omega]
    rw [zalgebraKeys, hcounted, ← hgate]
    cases store with
    | false => exact ⟨key, counted_head hcounted, hslots⟩
    | true =>
      have hfirst : args[1]? = some (args.getD 1 "") := by
        simp [show 1 < args.length by simp at hlen; omega]
      rw [if_pos rfl, hfirst]
      refine ⟨_, rfl, fun k hk => ?_⟩
      obtain hk | hk := mem_append.mp hk
      · rw [mem_singleton.mp hk]
      · exact hslots k hk
  · exact sited_done

theorem sited_cmdZrangestore :
    Sited d args[1]? ((args.drop 1).take 2) (args[2]?).toList (cmdZrangestore d args) := by
  unfold cmdZrangestore
  split
  · rename_i name dst src rest
    refine .ite fun _ => .ite fun hslot => .ite fun _ => .pair hslot
      (fun hsrc => .ask (by simp [Dispatcher.read]) rfl fun a => ?_) (covers_ask rfl)
    cases a with
    | refused => exact within_done
    | _ => exact within_ask_done (by simp) hsrc
  · exact sited_done

theorem within_cmdGeosearch (src : String) (dst : Option String) :
    Within d (src :: dst.toList) (cmdGeosearch d args src dst) := by
  unfold cmdGeosearch
  refine .ite fun _ => .ask (by simp [Dispatcher.read]) rfl fun a => ?_
  cases a with
  | refused => exact within_done
  | _ =>
    refine .ite fun _ => ?_
    cases dst with
    | none => exact within_done
    | some dst => exact within_ask_done (by simp [Dispatcher.write]) rfl

theorem sited_cmdGeoradius {base : ℕ} (hbase : 2 ≤ base) :
    Sited d args[1]? ((args[1]?).toList ++ (storeKey (args.drop base)).toList)
      (if d.restOk args then (storeKey (args.drop base)).toList else [])
          (cmdGeoradius d args base) := by
  refine .ite fun hlen => ?_
  have hfirst : args[1]? = some (args.getD 1 "") := by simp [show 1 < args.length by omega]
  rw [hfirst]
  refine ⟨within_cmdGeosearch _ _, fun _ => .ite fun hslot => .inr ⟨_, rfl, fun k hk => ?_⟩, ?_⟩
  · obtain hk | hk := mem_append.mp hk
    · rw [mem_singleton.mp hk]
    · exact slotOf_of_stored hslot hk
  split
  · rename_i hrest
    refine .ite (.inr (.ask (a := .found) ?_))
    simp only [hrest]
    cases storeKey (args.drop base) with
    | none => exact nofun
    | some dst => exact covers_ask rfl
  · exact full_nil

theorem sited_cmdGeosearchstore :
    Sited d args[1]? ((args.drop 1).take 2) (args[2]?).toList (cmdGeosearchstore d args) := by
  refine .ite fun hlen => ?_
  match args, hlen with
  | name :: dst :: src :: words, _ =>
    refine ⟨fun q hq => ?_, fun _ => .ite fun hslot => .inr ⟨dst, rfl, fun k hk => ?_⟩,
      .ite (.inr (covers_ask rfl))⟩
    · obtain ⟨hkey, hslot⟩ := within_cmdGeosearch _ _ q hq
      exact ⟨mem_pair.mpr (mem_pair.mp hkey).symm, hslot⟩
    · obtain rfl | rfl := mem_pair.mp hk
      · rfl
      · exact (slotOf_of_stored hslot (mem_singleton_self _)).symm
  | [], hlen | [_], hlen | [_, _], hlen => exact absurd (by simp) hlen

theorem sited_cmdBitop : Sited d args[2]? (args.drop 2) (args.drop 2) (cmdBitop d args) := by
  unfold cmdBitop
  split
  · rename_i name op dst key keys
    refine .ite fun hslot => .ite fun _ => .ite fun _ => .ite fun _ => .cons rfl hslot
      (fun h => .walk (mem_map_access (fun k hk => h k (mem_cons_of_mem _ hk))
        fun _ => mem_cons_of_mem _) goUnlessRefused_go (within_ask_done (by simp [write]) rfl))
      (.walk goUnlessRefused_go fun k hk => ?_)
    obtain rfl | hk := mem_cons.mp hk
    · exact .inr ⟨_, .here, rfl⟩
    · exact .inl ⟨_, mem_map_of_mem hk, rfl⟩
  · exact sited_done

theorem Within.copyRow {replace : Bool} (hslot : d.slotOf dst = d.slotOf src)
    (hrest : Within d [src, dst] rest) :
    Within d [src, dst] (copyRow (d.slotOf src) src dst replace rest) := by
  refine .ask (by simp) rfl fun a => ?_
  cases a with
  | found =>
    have hput : Within d [src, dst] (.ask ⟨d.slotOf src, dst, true⟩ fun _ => rest) :=
      .ask (by simp) hslot.symm fun _ => hrest
    refine .ask (by simp) hslot.symm fun a => ?_
    cases a with
    | found =>
      cases replace with
      | false => exact within_done
      | true => exact hput
    | _ => exact hput
  | _ => exact within_done

theorem covers_copyRow {replace : Bool} :
    Covers [dst] (copyRow slot src dst replace rest) := .ask (a := .found) (covers_ask rfl)

theorem sited_cmdCopy :
    Sited d args[1]? ((args.drop 1).take 2) (args[2]?).toList (cmdCopy d args) := by
  unfold cmdCopy
  split
  · rename_i name src dst rest
    split
    · exact .ite fun hslot => .ite fun _ =>
        .pair hslot (fun hdst => .copyRow hdst within_done) covers_copyRow
    · exact sited_done
  · exact sited_done

theorem sited_cmdRename (nx : Bool) :
    Sited d args[1]? ((args.drop 1).take 2) (args[2]?).toList (cmdRename d args nx) := by
  unfold cmdRename
  split
  · rename_i name src dst
    refine .ite fun hslot => .pair hslot
      (fun hdst => .ask (by simp [Dispatcher.read]) rfl fun a => ?_) ?_
    · have hrenamed : Within d [src, dst]
          (copyRow (d.slotOf src) src dst true (.ask (d.write src) fun _ => .done)) :=
        .copyRow hdst (within_ask_done (by simp [Dispatcher.write]) rfl)
      cases a with
      | found =>
        refine .ite fun _ => ?_
        cases nx with
        | false => exact hrenamed
        | true =>
          refine .ask (by simp) hdst.symm fun a => ?_
          cases a with
          | found => exact within_done
          | _ => exact hrenamed
      | _ => exact within_done
    by_cases hsame : src = dst
    · subst hsame
      exact covers_ask rfl
    refine .ask (a := .found) ?_
    simp only [if_neg hsame]
    cases nx with
    | false => exact covers_copyRow
    | true => exact covers_ask rfl
  · exact sited_done

theorem Within.startPoints {reads : List (String × String)}
    (hreads : ∀ r ∈ reads, r.1 ∈ keys) (hrest : Within d keys rest) :
    Within d keys (startPoints d act reads rest) := by
  induction reads with
  | nil => exact hrest
  | cons r reads ih =>
    have ih := ih fun r hr => hreads r (mem_cons_of_mem _ hr)
    refine .ask (hreads r mem_cons_self) rfl fun a => ?_
    split
    · split
      · exact ih
      · exact within_done
    · exact hrest
    · exact within_done

theorem Sited.streams {streams ids : List String} {ask : String → Access}
    (hslot : ¬ (!d.whole && d.crossslot (streams.headD "") streams.tail))
    (hwalk : Within d streams (walk goUnlessRefused (streams.map ask) .done)) :
    Sited d streams.head? streams [] (startPoints d act (streams.zip ids)
      (walk goUnlessRefused (streams.map ask) .done)) := by
  refine ⟨.startPoints (fun r hr => (of_mem_zip hr).1) hwalk, fun hwhole => ?_, full_nil⟩
  cases streams with
  | nil => exact colocated_done
  | cons first others =>
    rw [hwhole] at hslot
    exact colocated_cons rfl rfl hslot

theorem sited_cmdXread : Sited d ((xreadStreams (args.drop 1)).bind List.head?)
    (((parseRead false false (args.drop 1)).map Prod.fst).getD []) [] (cmdXread d args) := by
  refine .ite fun _ => ?_
  split
  · rename_i streams ids hparse
    have hstreams : xreadStreams (args.drop 1) = some streams := streams_of_parseRead hparse
    rw [hparse, hstreams]
    exact .ite fun hslot => .streams hslot
      (.walk (mem_map_read fun _ hk => hk) goUnlessRefused_go within_done)
  · exact sited_done

theorem sited_cmdXreadgroup : Sited d ((streamsFrom (args.drop 1)).bind List.head?)
    (((parseRead true false (args.drop 1)).map Prod.fst).getD []) [] (cmdXreadgroup d args) := by
  refine .ite fun _ => ?_
  split
  · rename_i streams ids hparse
    have hstreams : streamsFrom (args.drop 1) = some streams := streams_of_parseRead hparse
    rw [hparse, hstreams]
    exact .ite fun hslot => .streams hslot
      (.walk (mem_map_write fun _ hk => hk) goUnlessRefused_go within_done)
  · exact sited_done

theorem sited_cmdJsonMget : Sited d args[1]? (args.drop 1).dropLast [] (cmdJsonMget d args) := by
  unfold cmdJsonMget
  split
  · exact sited_done
  · rename_i first others hargs
    rw [hargs]
    exact .ite fun hslot => .ite fun _ => .cons (getElem_one_of_dropLast hargs) hslot
      (fun _ => .walk (mem_map_read fun _ hk => hk) goOn_go within_done) nofun

/-! ## The keys of a script

The table counts them as the proxy does, and the arm as Redis does. -/

variable {digits : List Char}

theorem le_of_parseDigits {acc n : ℕ} (h : parseDigits acc digits = some n) : acc ≤ n := by
  induction digits generalizing acc with
  | nil => exact (Option.some.inj h).le
  | cons c digits ih =>
    rw [parseDigits] at h
    split at h
    · have := ih h
      omega
    · cases h

theorem pos_of_parseDigits {c : Char} {n : ℕ} (hc : '1' ≤ c)
    (h : parseDigits 0 (c :: digits) = some n) : 0 < n := by
  have hc : '1'.toNat ≤ c.toNat := hc
  rw [parseDigits] at h
  split at h
  · have hle := le_of_parseDigits h
    have h1 : '1'.toNat = '0'.toNat + 1 := rfl
    omega
  · cases h

theorem parseUnsigned_of_parseRedisI64 {raw : String} {n : ℤ} (h : parseRedisI64 raw = some n)
    (hn : 0 ≤ n) : parseUnsigned 64 raw = some n.toNat := by
  unfold parseRedisI64 at h
  unfold parseUnsigned
  generalize raw.toList = cs at h ⊢
  cases cs with
  | nil => cases h
  | cons c cs =>
    by_cases hneg : c = '-'
    · -- Below zero: the digits behind the sign start with one that is not zero.
      subst hneg
      simp only [head?_cons, beq_self_eq_true, if_true, tail_cons, Bool.not_true] at h
      split at h
      · cases h
      · rename_i c cs _
        split at h
        · rename_i hcanonical
          obtain ⟨m, hm, hsigned⟩ := Option.bind_eq_some_iff.mp h
          have hpos := pos_of_parseDigits
              (of_decide_eq_true (Bool.and_eq_true_iff.mp hcanonical).1) hm
          split at hsigned
          · have hneg : -(m : ℤ) = n := Option.some.inj hsigned
            omega
          · cases hsigned
        · cases h
      · cases h
    have hsign : ((c :: cs).head? == some '-') = false := by simpa using hneg
    simp only [hsign, Bool.false_eq_true, if_false, Bool.not_false] at h
    have hread : c ≠ '+' ∧ ((parseDigits 0 (c :: cs)).bind fun m =>
        if m < 2 ^ 63 then some (m : ℤ) else none) = some n := by
      split at h
      · rename_i heq
        obtain ⟨rfl, rfl⟩ := cons.inj heq
        exact ⟨by decide, h⟩
      · rename_i c cs _ heq
        obtain ⟨rfl, rfl⟩ := cons.inj heq
        split at h
        · rename_i hcanonical
          refine ⟨?_, h⟩
          rintro rfl
          revert hcanonical
          decide
        · cases h
      · cases h
    obtain ⟨hplus, hread⟩ := hread
    obtain ⟨m, hm, hsigned⟩ := Option.bind_eq_some_iff.mp hread
    split at hsigned
    · cases hsigned
      simp only
      split
      · next heq => exact absurd (cons.inj heq).1 hplus
      rw [hm, if_neg (by simp), Option.filter_some, if_pos]
      · rfl
      · simp only [decide_eq_true_eq]
        omega
    · cases hsigned

/-! ## Every command -/

variable {name : String}

theorem mem_of_familyOf {f : Family} (h : familyOf name = f) (hf : f ≠ .keyless) :
    ∃ names, (f, names) ∈ commandTable ∧ name ∈ names := by
  unfold familyOf at h
  cases hfind : commandTable.find? fun entry => entry.2.contains name with
  | none =>
    rw [hfind] at h
    exact absurd h.symm hf
  | some entry =>
    rw [hfind] at h
    have hmem := mem_of_find?_eq_some hfind
    have hname : entry.2.contains name :=
      @find?_some _ (fun entry : Family × List String => entry.2.contains name) _ _ hfind
    refine ⟨entry.2, ?_, by simpa using hname⟩
    rwa [← h]

theorem base_of_familyOf {base : ℕ} (h : familyOf name = .georadius base) : 2 ≤ base := by
  obtain ⟨names, hmem, -⟩ := mem_of_familyOf h nofun
  simp only [commandTable, mem_cons, Prod.mk.injEq, Family.georadius.injEq, reduceCtorEq,
    false_and, false_or, not_mem_nil, or_false] at hmem
  omega

theorem eq_done_of_cmdEval (h : cmdEval d args = .asks arm) : arm = .done := by
  unfold cmdEval at h
  split at h
  · split at h
    · simp only at h
      split at h
      · exact (asks.inj h).symm
      · split at h
        · exact (asks.inj h).symm
        · cases h
    · exact (asks.inj h).symm
  · exact (asks.inj h).symm

end

/-! ## The key a command is placed by

Sound where all of a command's keys share their slot, and the arms see to it (`placed`); only `DEL`
and its like take keys of any slots. -/

section

open List Asking

/-! ## The key -/

/-- Where the gate finds the key of a command. -/
inductive GateKey
  | nothing
  | eval
  | jsonDebug
  | place (n : ℕ)
  | xread
  | xreadgroup
  | subcommand
  deriving DecidableEq, Repr

def gateTable : List (GateKey × List String) :=
  [(.nothing, ["PING", "ECHO", "DBSIZE", "FLUSHALL", "FLUSHDB", "COMMAND", "CLUSTER", "INFO",
      "SELECT", "QUIT", "HELLO", "SCRIPT", "KEYS", "TIME", "SCAN", "PUBLISH", "PUBSUB"]),
    (.eval, ["EVAL", "EVALSHA"]), (.jsonDebug, ["JSON.DEBUG"]),
    (.place 2, ["ZUNION", "ZINTER", "ZDIFF", "ZINTERCARD", "SINTERCARD", "LMPOP", "ZMPOP"]),
    (.place 3, ["BLMPOP", "BZMPOP"]), (.place 2, ["BITOP"]), (.xread, ["XREAD"]),
    (.xreadgroup, ["XREADGROUP", "FLINTXREADGROUP"]), (.subcommand, ["XGROUP", "XINFO"])]

def gateKeyOf (name : String) : GateKey :=
  ((gateTable.find? fun entry => entry.2.contains name).map Prod.fst).getD (.place 1)

def commandKey (args : Args) : Option String :=
  match gateKeyOf (commandName args) with
  | .nothing => none
  | .eval => (evalKeys args).bind List.head?
  | .jsonDebug => (jsonDebugKey args).join
  | .place n => args[n]?
  | .xread => (xreadStreams (args.drop 1)).bind List.head?
  | .xreadgroup => (streamsFrom (args.drop 1)).bind List.head?
  | .subcommand => (subcommandKey args).join

def gatePlace : Family → GateKey
  | .flush => .nothing
  | .dbsize => .nothing
  | .scan => .nothing
  | .eval => .eval
  | .jsonDebug => .jsonDebug
  | .subcommand => .subcommand
  | .sintercard => .place 2
  | .mpop _ blocking => .place (if blocking then 3 else 2)
  | .zalgebra store => .place (if store then 1 else 2)
  | .bitop => .place 2
  | .xread => .xread
  | .xreadgroup => .xreadgroup
  | _ => .place 1

theorem gateKeyOf_table :
    ∀ entry ∈ commandTable, ∀ name ∈ entry.2, gateKeyOf name = gatePlace entry.1 := by
  decide +kernel

theorem gateKeyOf_eq {name : String} {f : Family} (hfam : familyOf name = f)
    (hf : f ≠ .keyless) : gateKeyOf name = gatePlace f := by
  obtain ⟨names, hmem, hname⟩ := mem_of_familyOf hfam hf
  exact gateKeyOf_table _ hmem name hname

/-! ## Every command -/

variable {d : Dispatcher} {args : Args} {arm rest : Arm} {keys left : List String} {q : Access}
  {key : Option String} {act : StoreAnswer → WalkStep}

def anySlotNames : List String := ["DEL", "UNLINK", "EXISTS", "TOUCH"]

def takesAnySlot (args : Args) : Bool := anySlotNames.contains (commandName args)

theorem isWriteCommand_headD :
    isWriteCommand (args.headD "") = writeNames.contains (commandName args) := rfl

theorem takesAnySlot_of_every {write : Bool}
    (hfam : familyOf (commandName args) = .every write) : takesAnySlot args := by
  have htable : ∀ entry ∈ commandTable, entry.1 = .every true ∨ entry.1 = .every false →
      ∀ name ∈ entry.2, anySlotNames.contains name := by decide +kernel
  obtain ⟨names, hmem, hname⟩ := mem_of_familyOf hfam nofun
  refine htable _ hmem ?_ _ hname
  cases write with
  | true => exact .inl rfl
  | false => exact .inr rfl

theorem familyOf_of_takesAnySlot (h : takesAnySlot args) :
    familyOf (commandName args) = .every (isWriteCommand (args.headD "")) := by
  have htable : ∀ name ∈ anySlotNames, familyOf name = .every (writeNames.contains name) := by
    decide +kernel
  rw [isWriteCommand_headD]
  exact htable _ (by simpa [takesAnySlot] using h)

theorem Sited.placed {p : Prop} (h : Sited d key keys left arm) :
    Within d keys arm ∧ (d.whole = false → p → Colocated d key keys arm) :=
  ⟨h.within, fun hwhole _ => h.colocated hwhole⟩

theorem placed (harm : effect d args = .asks arm) : Within d (keyPositions args) arm ∧
    (d.whole = false → takesAnySlot args = false →
      Colocated d (commandKey args) (keyPositions args) arm) := by
  by_cases hdone : arm = .done
  · rw [hdone]
    exact ⟨within_done, fun _ _ => colocated_done⟩
  unfold effect at harm
  unfold keyPositions commandKey
  by_cases hkeyless : familyOf (commandName args) = .keyless
  · rw [hkeyless] at harm
    exact absurd (Effect.asks.inj harm).symm hdone
  rw [gateKeyOf_eq rfl hkeyless]
  revert harm
  cases hfam : familyOf (commandName args) with
  | keyless => exact absurd hfam hkeyless
  | flush =>
    simp only
    split
    · exact nofun
    · rintro ⟨⟩; exact absurd rfl hdone
  | dbsize => exact nofun
  | scan =>
    simp only
    split
    · rintro ⟨⟩; exact absurd rfl hdone
    · exact nofun
  | eval => exact fun harm => absurd (eq_done_of_cmdEval harm) hdone
  | every write =>
    rintro ⟨⟩
    exact ⟨within_multiKey write,
        fun _ hany => nomatch hany.symm.trans (takesAnySlot_of_every hfam)⟩
  | single | jsonDebug | subcommand => rintro ⟨⟩; exact sited_oneKey.placed
  | mset => rintro ⟨⟩; exact sited_cmdMset.placed
  | mget => rintro ⟨⟩; exact sited_cmdMget.placed
  | pfcount => rintro ⟨⟩; exact sited_cmdPfcount.placed
  | pfmerge => rintro ⟨⟩; exact sited_cmdPfmerge.placed
  | sop => rintro ⟨⟩; exact sited_cmdSop.placed
  | sstore => rintro ⟨⟩; exact sited_cmdSstore.placed
  | sintercard => rintro ⟨⟩; exact sited_cmdSintercard.placed
  | smove => rintro ⟨⟩; exact sited_cmdSmove.placed
  | listMove arity sided timed => rintro ⟨⟩; exact (sited_listMove arity sided timed).placed
  | bpop => rintro ⟨⟩; exact sited_cmdBpop.placed
  | mpop zset blocking => rintro ⟨⟩; exact (sited_cmdMpop zset blocking).placed
  | zalgebra store =>
    rintro ⟨⟩
    cases store with
    | true => exact (sited_cmdZalgebra true).placed
    | false => exact (sited_cmdZalgebra false).placed
  | zrangestore => rintro ⟨⟩; exact sited_cmdZrangestore.placed
  | georadius base => rintro ⟨⟩; exact (sited_cmdGeoradius (base_of_familyOf hfam)).placed
  | geosearchstore => rintro ⟨⟩; exact sited_cmdGeosearchstore.placed
  | bitop => rintro ⟨⟩; exact sited_cmdBitop.placed
  | copy => rintro ⟨⟩; exact sited_cmdCopy.placed
  | rename nx => rintro ⟨⟩; exact (sited_cmdRename nx).placed
  | xread => rintro ⟨⟩; exact sited_cmdXread.placed
  | xreadgroup => rintro ⟨⟩; exact sited_cmdXreadgroup.placed
  | jsonMget => rintro ⟨⟩; exact sited_cmdJsonMget.placed
  | jsonMset => rintro ⟨⟩; exact sited_cmdJsonMset.placed

theorem asks_within (harm : effect d args = .asks arm) : Within d (keyPositions args) arm :=
  (placed harm).1

theorem colocated (hwhole : d.whole = false) (hany : takesAnySlot args = false)
    (harm : effect d args = .asks arm) : Colocated d (commandKey args) (keyPositions args) arm :=
  (placed harm).2 hwhole hany

/-! ## Arms that only read -/

def OnlyReads (arm : Arm) : Prop := ∀ q, arm.Asks q → q.write = false

theorem onlyReads_done : OnlyReads .done := fun q h => absurd h (Asking.not_asks_done q)

theorem OnlyReads.ite {c : Prop} [Decidable c] (h : OnlyReads arm) :
    OnlyReads (if c then .done else arm) := by
  split
  · exact onlyReads_done
  · exact h

theorem OnlyReads.walk {access : String → Access}
    (hgo : ∃ a, act a = .go) (haccess : ∀ k, (access k).write = false) (hrest : OnlyReads rest) :
    OnlyReads (walk act (keys.map access) rest) := by
  intro q h
  obtain h | h := (asks_walk hgo).mp h
  · obtain ⟨k, -, rfl⟩ := mem_map.mp h
    exact haccess k
  · exact hrest q h

theorem OnlyReads.sop {slot : ℕ} (hrest : OnlyReads rest) : OnlyReads (sop slot keys rest) :=
  .walk goUnlessRefused_go (fun _ => rfl) (.walk goUntilSettled_go (fun _ => rfl) hrest)

theorem onlyReads_cmdSop : OnlyReads (cmdSop d args) := by
  unfold cmdSop
  split
  · exact onlyReads_done
  · exact .ite (.sop onlyReads_done)

theorem onlyReads_cmdSintercard : OnlyReads (cmdSintercard d args) := by
  unfold cmdSintercard
  split
  · exact .ite (.sop onlyReads_done)
  · exact onlyReads_done

theorem onlyReads_cmdZalgebra : OnlyReads (cmdZalgebra d args false) := by
  unfold cmdZalgebra
  split
  · exact .ite (.walk goUnlessRefused_go (fun _ => rfl) (.ite (.walk goUnlessRefused_go
      (fun _ => rfl) (.walk goUntilSettled_go (fun _ => rfl) onlyReads_done))))
  · exact onlyReads_done

theorem OnlyReads.startPoints {reads : List (String × String)}
    (hrest : OnlyReads rest) : OnlyReads (startPoints d act reads rest) := by
  induction reads with
  | nil => exact hrest
  | cons r reads ih =>
    intro q h
    obtain rfl | ⟨a, h⟩ := asks_ask.mp h
    · rfl
    split at h
    · split at h
      · exact ih q h
      · exact onlyReads_done q h
    · exact hrest q h
    · exact onlyReads_done q h

theorem onlyReads_cmdXread : OnlyReads (cmdXread d args) := by
  refine .ite ?_
  split
  · exact .ite (.startPoints (.walk goUnlessRefused_go (fun _ => rfl) onlyReads_done))
  · exact onlyReads_done

theorem onlyReads_cmdJsonMget : OnlyReads (cmdJsonMget d args) := by
  unfold cmdJsonMget
  split
  · exact onlyReads_done
  · exact .ite (.ite (.walk goOn_go (fun _ => rfl) onlyReads_done))

theorem write_of_oneKey (h : (oneKey d args key).Asks q) :
    q.write = isWriteCommand (args.headD "") := by
  unfold oneKey at h
  split at h
  · split at h
    · exact absurd h (not_asks_done q)
    · obtain rfl | ⟨a, h⟩ := asks_ask.mp h
      · rfl
      · exact absurd h (not_asks_done q)
  · exact absurd h (not_asks_done q)

def writesOnly : Family → Bool
  | .keyless => false
  | .flush => true
  | .dbsize => false
  | .scan => false
  | .single => false
  | .jsonDebug => false
  | .subcommand => false
  | .every write => write
  | .mget => false
  | .sop => false
  | .sintercard => false
  | .zalgebra store => store
  | .xread => false
  | .jsonMget => false
  | _ => true

theorem isWriteCommand_of_writesOnly (h : writesOnly (familyOf (commandName args))) :
    isWriteCommand (args.headD "") := by
  have htable : ∀ entry ∈ commandTable, writesOnly entry.1 →
      ∀ name ∈ entry.2, writeNames.contains name := by decide +kernel
  obtain ⟨names, hmem, hname⟩ := mem_of_familyOf rfl fun hf => by rw [hf] at h; cases h
  exact htable _ hmem h _ hname

end

end Flint
