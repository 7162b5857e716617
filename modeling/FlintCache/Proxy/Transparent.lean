import FlintCache.Proxy.Repair

/-!
# Proxy/Transparent — the bytes behind a proxy are the bytes of the node

A reply crosses to the proxy in RESP3, is decoded, repaired by its command and encoded for the
client (`viaProxy`); the replies of a transaction cross together, inside `EXEC`'s (`viaExec`).
-/

namespace Flint

open List RespFrame Value
open Value (reread rereadAll wire)

variable {sp : Spelling}

section

variable (json : JsonSpelling sp) (trim : String → String)

/-! ## One command -/

/-- **What a RESP2 client is owed is restored**: of the JSON numbers, when the path reads the same
trimmed; of the commands with a repair of their own, always; of the others, when no array of the
reply looks like a scored result. -/
def restorable (args : Args) (v : Value) : Bool :=
  v.isError
    || (if resp3DiffersInKind args then
        startsWith (trim (args.getD 2 ".")) "$" == startsWith (args.getD 2 ".") "$"
      else needsRepair args || !v.lookalike)

def hop (sp : Spelling) (v : Value) : Option Value :=
  match decode sp.parseF64 (encodeProto sp .resp3 v) with
  | .complete w _ => some w
  | _ => none

def viaProxy (proto : Proto) (args : Args) (v : Value) : Option (List Char) :=
  (hop sp v).map fun w => encodeProto sp proto (nullAsArray args (repairReply json args w))

/-! ## A transaction -/

/-- A command of a transaction and its reply; an `UNWATCH` may be the proxy's own. -/
structure Answered where
  args : Args
  here : Bool
  reply : Value

def Answered.queued (a : Answered) : QueuedReply :=
  if a.here then .here a.reply else queuedBackend a.args

def backendItems (txn : List Answered) : List Value := (txn.filter (!·.here)).map (·.reply)

def viaExec (proto : Proto) (txn : List Answered) (v : Value) : Option (List Char) :=
  if txn.all (·.here) then some (encodeProto sp proto (.array (some (txn.map (·.reply)))))
  else (hop sp v).map fun w => encodeProto sp proto (repairExec json (txn.map (·.queued)) w)

/-- The same for `EXEC`.  Its array must not look like a scored result, unless the client speaks
RESP3 and nothing was queued at the proxy; for a RESP2 client every reply in it must be
restorable. -/
def execRestorable (proto : Proto) (txn : List Answered) : Bool :=
  (!looksScored (backendItems txn) || (proto == .resp3 && txn.all (!·.here)))
    && (proto == .resp3 || txn.all fun a => a.here || restorable trim a.args a.reply)

/-- The replies of a transaction: the node's to what was sent there, `OK` to the rest. -/
def Answered.Built (a : Answered) : Prop :=
  if a.here then a.reply = .simple "OK" else Builds json trim a.args a.reply

end

open Answered

section

variable {json : JsonSpelling sp} {trim : String → String} {args : Args}

/-! ## Restored, by shape -/

theorem restorable_of_needsRepair (hneeds : needsRepair args)
    (hname : commandName args = "JSON.NUMINCRBY" ∨ commandName args = "JSON.NUMMULTBY" → False)
    (v : Value) : restorable trim args v := by
  have hkind : resp3DiffersInKind args = false := by
    rw [← Bool.not_eq_true, resp3DiffersInKind, Bool.or_eq_true, beq_iff_eq, beq_iff_eq]
    exact hname
  simp [restorable, hkind, hneeds]

theorem restorable_nullArray (h : nullIsArray args) : restorable trim args (.array none) := by
  have hkind : resp3DiffersInKind args = false := by
    rw [← Bool.not_eq_true, resp3DiffersInKind, Bool.or_eq_true, beq_iff_eq, beq_iff_eq]
    rintro (hname | hname) <;> simp [nullIsArray, hname] at h
  simp [restorable, hkind, lookalike]

variable {v w : Value}

theorem SameWire.restored_iff (h : SameWire sp w v)
    (hrest : restorable trim args v) (proto : Proto) :
    w.wire sp proto = v.wire sp proto ↔ proto = .resp3 ∨ restorable trim args v :=
  iff_of_true (h proto) (.inr hrest)

theorem SameWire.repaired_iff (h : SameWire sp w v)
    (hargs : (resp3NestsReply args || hrandfieldWithvalues args || zmpopCommand args ||
      geoCoordinates args || bfInfoField args || isXread args || groupNulls args)) (proto : Proto) :
    w.wire sp proto = v.wire sp proto ↔ proto = .resp3 ∨ restorable trim args v := by
  refine h.restored_iff (restorable_of_needsRepair (by grind [needsRepair, isXread]) ?_ v) proto
  rintro (hname | hname) <;> simp [resp3NestsReply, hrandfieldWithvalues, zmpopCommand,
    geoCoordinates, bfInfoField, isXread, groupNulls, hname] at hargs

variable {v : Value}

theorem restored_ordinary (hargs : needsRepair args = false) (hv : v.Ordinary)
    (hnull : nullIsArray args → v.isNothing = false) : restored json args v = v.reread sp := by
  rw [restored, repairReply_of_not_needsRepair hargs]
  cases hn : nullIsArray args with
  | false => exact nullAsArray_of_not hn _
  | true => exact nullAsArray_of_ne (reread_ne_null hv (hnull hn))

theorem restored_error (e : String) : SameWire sp (restored json args (.error e)) (.error e) := by
  intro proto
  rw [restored, reread, wire_repairReply_error, wire, String.toList_ofList, pushLine_pushLine, wire]

theorem restorable_ordinary (hargs : needsRepair args = false) :
    restorable trim args v = (v.isError || !v.lookalike) := by
  have hkind : resp3DiffersInKind args = false := by
    simp only [needsRepair, Bool.or_eq_false_iff] at hargs
    exact hargs.1.1.1.1.1.1.2
  simp [restorable, hkind, hargs]

theorem lookalike_of_isError (h : v.isError) : v.lookalike = false := by
  cases v with
  | error e => rfl
  | _ => cases h

theorem restored_iff (h : Builds json trim args v) (proto : Proto) :
    (restored json args v).wire sp proto = v.wire sp proto ↔
      proto = .resp3 ∨ restorable trim args v := by
  cases h with
  | @error e => exact (restored_error e).restored_iff rfl proto
  | ordinary hargs hv hnull =>
    rw [restored_ordinary hargs hv hnull]
    cases proto with
    | resp3 => exact iff_of_true (wire_reread_resp3 hv) (.inl rfl)
    | resp2 =>
      rw [wire_reread_resp2 hv, restorable_ordinary hargs, Bool.or_eq_true, Bool.not_eq_true']
      exact ⟨fun hlook => .inr (.inr hlook), fun hrest => by
        obtain hproto | herr | hlook := hrest
        · cases hproto
        · exact lookalike_of_isError herr
        · exact hlook⟩
  | nullArray hargs =>
      exact (restored_nullArray hargs).restored_iff (restorable_nullArray hargs) proto
  | jsonType hargs => exact (restored_jsonType hargs).repaired_iff (by simp [hargs]) proto
  | jsonTypes hargs => exact (restored_jsonTypes hargs).repaired_iff (by simp [hargs]) proto
  | @numop path found hargs hpath =>
    have hpath' : args.getD 2 "." = path := by
      rw [getD_eq_getElem?_getD, hpath, Option.getD_some]
    have hrest : restorable trim args (numopReply json trim path found) =
        (startsWith (trim path) "$" == startsWith path "$") := by
      rw [restorable, if_pos hargs, hpath']
      rfl
    rw [restored_numop hargs hpath, hrest, beq_iff_eq]
  | hrandfield hargs => exact (restored_hrandfield hargs).repaired_iff (by simp [hargs]) proto
  | zmpop hargs hpairs => exact (restored_zmpop hargs hpairs).repaired_iff (by simp [hargs]) proto
  | geopos hargs => exact (restored_geopos hargs).repaired_iff (by simp [hargs]) proto
  | geosearch hargs => exact (restored_geosearch hargs).repaired_iff (by simp [hargs]) proto
  | geostore hargs => exact (restored_geostore hargs).repaired_iff (by simp [hargs]) proto
  | @bfInfo name n hargs =>
    refine (restored_bfInfo hargs ?_).repaired_iff (by simp [hargs]) proto
    cases n with
    | none => exact .null
    | some n => exact .refl _
  | xread hargs hlive =>
    exact (restored_xread hargs hlive).repaired_iff (by simp [isXread, hargs]) proto
  | xreadgroup hargs =>
    exact (restored_xreadgroup hargs).repaired_iff (by simp [isXread, hargs]) proto
  | summary hname hlen =>
    exact (restored_summary hname hlen).repaired_iff (by simp [groupNulls, hname, hlen]) proto
  | emptySummary hname hlen =>
    exact (restored_emptySummary hname hlen).repaired_iff (by simp [groupNulls, hname, hlen]) proto

/-! ## Replies inside `EXEC`'s -/

variable {w : Value}

theorem peelNested_eq_null (h : peelNested w = .null) : w = .null := by
  unfold peelNested at h
  split at h
  · cases h
  · exact h

theorem zmpopNested_eq_null (h : zmpopNested w = .null) : w = .null := by
  unfold zmpopNested at h
  split at h
  · cases h
  · exact h

theorem geoReply_eq_null (h : geoReply w = .null) : w = .null := by
  unfold geoReply at h
  split at h
  · cases h
  · exact h

theorem groupNullsReply_eq_null (h : groupNullsReply w = .null) : w = .null := by
  unfold groupNullsReply at h
  split at h
  · cases h
  · cases h
  · cases h
  · exact h

theorem repairReply_eq_null (h : repairReply json args w = .null) : w = .null := by
  unfold repairReply at h
  split at h
  · exact peelNested_eq_null h
  split at h
  · cases h
  split at h
  · cases h
  split at h
  · exact zmpopNested_eq_null h
  split at h
  · exact geoReply_eq_null h
  split at h
  · cases h
  simp only at h
  split at h
  · split at h
    · cases h
    · exact groupNullsReply_eq_null h
  · split at h
    · cases h
    · exact h

theorem execItem_eq (w : Value) :
    execItem json (nullIsArray args) (if needsRepair args then some args else none) (some w) =
      nullAsArray args (repairReply json args w) := by
  unfold execItem
  simp only
  split
  · next hnull => rw [repairReply_null hnull, nullAsArray, if_pos hnull]
  rename_i v _ _ hne
  refine Eq.trans (b := repairReply json args v) ?_ ?_
  · cases hneeds : needsRepair args with
    | true => rfl
    | false => exact (repairReply_of_not_needsRepair hneeds v).symm
  cases hnull : nullIsArray args with
  | false => exact (nullAsArray_of_not hnull _).symm
  | true =>
    refine (nullAsArray_of_ne fun hw => ?_).symm
    exact hne (repairReply_eq_null hw) hnull

def Answered.restored (json : JsonSpelling sp) (a : Answered) : Value :=
  if a.here then a.reply else Flint.restored json a.args a.reply

theorem backendItems_cons (a : Answered) (txn : List Answered) :
    backendItems (a :: txn) = if a.here then backendItems txn else a.reply :: backendItems txn := by
  cases h : a.here <;> simp [backendItems, h]

theorem repairItems_queued (txn : List Answered) :
    repairItems json (txn.map (·.queued)) ((backendItems txn).map (reread sp)) =
      txn.map (Answered.restored json) := by
  induction txn with
  | nil => rfl
  | cons a txn ih =>
    rw [map_cons, map_cons, backendItems_cons, Answered.queued, Answered.restored]
    cases h : a.here with
    | true => rw [if_pos rfl, if_pos rfl, if_pos rfl, repairItems, ih]
    | false =>
      rw [if_neg Bool.false_ne_true, if_neg Bool.false_ne_true, if_neg Bool.false_ne_true,
        queuedBackend, map_cons, repairItems, tail_cons, ih, head?_cons, execItem_eq]
      rfl

theorem countP_queued (txn : List Answered) :
    (txn.map (·.queued)).countP (·.isBackend) = (backendItems txn).length := by
  induction txn with
  | nil => rfl
  | cons a txn ih =>
    rw [map_cons, countP_cons, ih, backendItems_cons, queued]
    cases a.here <;> rfl

variable {txn : List Answered}

theorem repairExec_of_not_looksScored
    (h : looksScored ((backendItems txn).map (reread sp)) = false) :
    repairExec json (txn.map (·.queued)) ((array (some (backendItems txn))).reread sp) =
      .array (some (txn.map (Answered.restored json))) := by
  rw [reread, rereadAll_eq, scoredOrArray_of_not_looksScored h, repairExec, countP_queued,
    length_map, if_pos rfl, repairItems_queued]

theorem repairExec_of_looksScored (h : looksScored ((backendItems txn).map (reread sp))) :
    repairExec json (txn.map (·.queued)) ((array (some (backendItems txn))).reread sp) =
      scoredOrArray ((backendItems txn).map (reread sp)) := by
  rw [reread, rereadAll_eq, scoredOrArray_of_looksScored h]
  rfl

/-! ### Which replies look like a scored pair -/

variable {items : List Value}

theorem asScorePair_of_no_double (h : ∀ v ∈ items, ∀ d, v ≠ .double d) :
    (array (some items)).asScorePair = none :=
  asScorePair_eq_none fun _ d heq => h (.double d) (by simp [heq]) d rfl

theorem asScorePair_of_no_bulk (h : ∀ v ∈ items, ∀ m, v ≠ .bulk m) :
    (array (some items)).asScorePair = none :=
  asScorePair_eq_none fun m _ heq => h (.bulk (some m)) (by simp [heq]) (some m) rfl

theorem asScorePair_map {α : Type} {l : List α} {f : α → Value}
    (hpair : ∀ a ∈ l, ((f a).reread sp).asScorePair = none)
    (hdouble : ∀ a ∈ l, ∀ d, (f a).reread sp ≠ .double d) :
    ((array (some (l.map f))).reread sp).asScorePair = none ∧
      (array (some (l.map f))).asScorePair = none := by
  have hnone : ∀ v ∈ l.map (reread sp ∘ f), v.asScorePair = none :=
    forall_mem_map.mpr hpair
  refine ⟨?_, asScorePair_of_no_double (forall_mem_map.mpr fun a ha d hd => ?_)⟩
  · rw [reread, rereadAll_eq, map_map, scoredOrArray_of_none hnone]
    exact asScorePair_of_no_double (forall_mem_map.mpr hdouble)
  · refine hdouble a ha (sp.readBack sp.fmtDouble d) ?_
    rw [hd, reread]

theorem asScorePair_geopos (points : List (Option (UInt64 × UInt64))) :
    ((geoposReply points).reread sp).asScorePair = none ∧
      (geoposReply points).asScorePair = none := by
  refine asScorePair_map (fun p _ => ?_) fun p _ d => ?_
  · cases p with
    | none => rfl
    | some xy =>
      simp only
      rw [reread_point]
      rfl
  cases p with
  | none => exact nofun
  | some xy =>
    simp only
    rw [reread_point]
    exact nofun

theorem asScorePair_geosearch (withDist withHash withCoord : Bool) (hits : List GeoHit) :
    ((geosearchReply withDist withHash withCoord hits).reread sp).asScorePair = none ∧
      (geosearchReply withDist withHash withCoord hits).asScorePair = none := by
  refine asScorePair_map (fun hit _ => ?_) fun hit _ d => ?_
  · split
    · exact (geoInner_hit (geoInner_details _ _ _ hit)).1
    · rfl
  split
  · rw [reread_member_cons]
    exact nofun
  · exact nofun

theorem Builds.asScorePair (h : Builds json trim args v) :
    (v.reread sp).asScorePair.isSome = v.asScorePair.isSome ∧
      (v.asScorePair.isSome → v.Ordinary) := by
  have hnone {v : Value} (h : (v.reread sp).asScorePair = none ∧ v.asScorePair = none) :
      (v.reread sp).asScorePair.isSome = v.asScorePair.isSome ∧
        (v.asScorePair.isSome → v.Ordinary) := by
    rw [h.1, h.2]
    exact ⟨rfl, fun hsome => absurd hsome Bool.false_ne_true⟩
  cases h with
  | ordinary _ hv _ => exact ⟨asScorePair_reread hv, fun _ => hv⟩
  | @jsonType b =>
    refine hnone ⟨?_, rfl⟩
    cases b <;> rfl
  | @jsonTypes names =>
    refine hnone ⟨?_, rfl⟩
    rw [reread, (Value.Texts.bulks names).reread,
      scoredOrArray_of_none (by simp [(Value.Texts.bulks names).asScorePair])]
    rfl
  | @numop path found =>
    refine hnone ⟨?_, rfl⟩
    unfold numopReply
    rw [reread, reread_matches]
    refine asScorePair_of_no_bulk (forall_mem_map.mpr fun n _ m heq => ?_)
    cases n with
    | none => exact Value.noConfusion heq
    | some n => cases n <;> exact Value.noConfusion heq
  | @hrandfield picks =>
    have htexts : (array (some (picks.map fun fv =>
        .array (some [bulkOf fv.1, bulkOf fv.2])))).Texts :=
      .array (forall_mem_map.mpr fun _ _ => .pair)
    refine hnone ⟨?_, rfl⟩
    rw [hrandfieldReply, reread, htexts.reread, htexts.asScorePair]
  | @zmpop key pairs _ hpairs =>
    refine hnone ⟨?_, rfl⟩
    rw [zmpopReply, reread, rereadAll, rereadAll, rereadAll, reread_nested_pairs hpairs]
    rfl
  | @geopos points => exact hnone (asScorePair_geopos points)
  | geosearch => exact hnone (asScorePair_geosearch _ _ _ _)
  | @xread found | @xreadgroup found =>
    refine hnone ⟨?_, rfl⟩
    rw [reread_perStream]
    rfl
  | summary =>
    refine hnone ⟨?_, rfl⟩
    rw [reread_summary]
    rfl
  | _ => exact hnone ⟨rfl, rfl⟩

/-! ### The array of a transaction -/

theorem looksScored_map_reread
    (h : ∀ v ∈ items, (v.reread sp).asScorePair.isSome = v.asScorePair.isSome) :
    looksScored (items.map (reread sp)) = looksScored items := by
  rw [looksScored, looksScored, isEmpty_map, all_map]
  refine congrArg (!items.isEmpty && ·) ?_
  rw [Bool.eq_iff_iff, all_eq_true, all_eq_true]
  exact forall₂_congr fun v hv => by rw [Function.comp_apply, h v hv]

theorem mem_backendItems : v ∈ backendItems txn ↔ ∃ a ∈ txn, a.here = false ∧ a.reply = v := by
  simp [backendItems, and_assoc]

theorem Answered.restored_iff {a : Answered} (h : a.Built json trim) (proto : Proto) :
    (a.restored json).wire sp proto = a.reply.wire sp proto ↔
      proto = .resp3 ∨ (a.here || restorable trim a.args a.reply) := by
  rw [Answered.Built] at h
  rw [restored]
  cases hhere : a.here with
  | true => exact iff_of_true rfl (.inr rfl)
  | false =>
    rw [hhere, if_neg Bool.false_ne_true] at h
    rw [if_neg Bool.false_ne_true, Flint.restored_iff h, Bool.false_or]

theorem backendItems_length_lt (h : txn.all (!·.here) = false) :
    (backendItems txn).length < txn.length := by
  have hne : ∃ a ∈ txn, a.here := by simpa using h
  obtain ⟨a, ha, hhere⟩ := hne
  rw [backendItems, length_map]
  exact length_filter_lt_length_iff_exists.mpr ⟨a, ha, by simp [hhere]⟩

theorem backendItems_of_all (h : txn.all (!·.here)) : backendItems txn = txn.map (·.reply) := by
  rw [backendItems, filter_eq_self.mpr (all_eq_true.mp h)]

theorem bulk_of_scored (h : looksScored items) {fs : List RespFrame}
    (hwire : (scoredOrArray items).wire sp .resp2 = .aggregate '*' fs) :
    ∀ f ∈ fs, ∃ data, f = .bulk data := by
  rw [scoredOrArray_of_looksScored h, wire, aggregate.injEq] at hwire
  rw [← hwire.2]
  intro f hf
  obtain ⟨ms, -, hms⟩ := mem_flatMap.mp hf
  simp only [pick_resp2, wireNumber, mem_cons, not_mem_nil, or_false] at hms
  obtain rfl | rfl := hms
  · exact ⟨_, rfl⟩
  · exact ⟨_, rfl⟩

theorem exists_pair_of_looksScored (h : looksScored items) :
    ∃ v ∈ items, ∃ ms, v.asScorePair = some ms := by
  rw [looksScored, Bool.and_eq_true, Bool.not_eq_true', isEmpty_eq_false_iff_exists_mem] at h
  obtain ⟨⟨v, hv⟩, hall⟩ := h
  exact ⟨v, hv, Option.isSome_iff_exists.mp (all_eq_true.mp hall v hv)⟩

theorem scored_resp2_ne (hitems : looksScored items) (h : looksScored (backendItems txn)) :
    (scoredOrArray items).wire sp .resp2 ≠ (array (some (txn.map (·.reply)))).wire sp .resp2 := by
  intro hwire
  obtain ⟨v, hv, ms, hms⟩ := exists_pair_of_looksScored h
  obtain ⟨a, ha, -, rfl⟩ := mem_backendItems.mp hv
  rw [wire, wireAll_eq, map_map] at hwire
  obtain ⟨data, hdata⟩ := bulk_of_scored hitems hwire (a.reply.wire sp .resp2)
    (mem_map.mpr ⟨a, ha, rfl⟩)
  rw [asScorePair_eq_some.mp hms, wire] at hdata
  cases hdata

section

variable (h : ∀ a ∈ txn, a.Built json trim)
include h

theorem builds_of_mem_backendItems
    (hv : v ∈ backendItems txn) : ∃ args, Builds json trim args v := by
  obtain ⟨a, ha, hhere, rfl⟩ := mem_backendItems.mp hv
  refine ⟨a.args, ?_⟩
  have hbuilt := h a ha
  rwa [Answered.Built, hhere, if_neg Bool.false_ne_true] at hbuilt

theorem looksScored_backendItems :
    looksScored ((backendItems txn).map (reread sp)) = looksScored (backendItems txn) :=
  looksScored_map_reread fun _ hv =>
    let ⟨_, hbuilds⟩ := builds_of_mem_backendItems h hv
    hbuilds.asScorePair.1

theorem scored_resp3_iff (hlook : looksScored (backendItems txn)) :
    (scoredOrArray ((backendItems txn).map (reread sp))).wire sp .resp3 =
      (array (some (txn.map (·.reply)))).wire sp .resp3 ↔ txn.all (!·.here) := by
  have hsame : ∀ v ∈ backendItems txn, (v.reread sp).wire sp .resp3 = v.wire sp .resp3 := by
    intro v hv
    obtain ⟨args, hbuilds⟩ := builds_of_mem_backendItems h hv
    rw [looksScored, Bool.and_eq_true] at hlook
    exact wire_reread_resp3 (hbuilds.asScorePair.2 (all_eq_true.mp hlook.2 v hv))
  have hmap : (backendItems txn).map (wire sp .resp3 ∘ reread sp) =
      (backendItems txn).map (wire sp .resp3) := map_congr_left hsame
  rw [wire_scoredOrArray_resp3, wire, wireAll_eq, wireAll_eq, aggregate.injEq,
    map_map, hmap]
  refine ⟨fun heq => ?_, fun hall => ⟨rfl, by rw [backendItems_of_all hall]⟩⟩
  by_contra hne
  have hlt := backendItems_length_lt (Bool.not_eq_true _ ▸ hne)
  have hlen := congrArg List.length heq.2
  simp only [length_map] at hlen
  omega

theorem wire_repairExec_iff (proto : Proto) : (repairExec json (txn.map (·.queued))
        ((array (some (backendItems txn))).reread sp)).wire sp proto =
      (array (some (txn.map (·.reply)))).wire sp proto ↔ execRestorable trim proto txn := by
  have hscored := looksScored_backendItems h
  cases hlook : looksScored (backendItems txn) with
  | false =>
    rw [hlook] at hscored
    have hall : (∀ a ∈ txn, (a.restored json).wire sp proto = a.reply.wire sp proto) ↔
        ∀ a ∈ txn, proto = .resp3 ∨ (a.here || restorable trim a.args a.reply) :=
      forall₂_congr fun a ha => Answered.restored_iff (h a ha) proto
    rw [repairExec_of_not_looksScored hscored, wire, wire, wireAll_eq, wireAll_eq,
      aggregate.injEq, map_map, map_map, map_inj_left, execRestorable, hlook]
    refine (and_iff_right rfl).trans (hall.trans ?_)
    cases proto <;> simp
  | true =>
    rw [hlook] at hscored
    rw [repairExec_of_looksScored hscored, execRestorable, hlook]
    cases proto with
    | resp2 => exact iff_of_false (scored_resp2_ne hscored hlook) (by simp)
    | resp3 => simpa using scored_resp3_iff h hlook

end

/-! ## Through the proxy -/

theorem hop_of_fits (h : v.WellTyped) (hfits : v.fits .resp3 (maxDepth + 1)) :
    hop sp v = some (v.reread sp) := by
  obtain ⟨w, hw, hdecode⟩ := decodeAt_encodeProto_of_fits h hfits []
  rw [append_nil] at hdecode
  rw [read_wire_resp3 h hfits, Except.ok.injEq] at hw
  rw [hop, decode, hdecode, hw]

theorem hop_of_not_fits (h : v.WellTyped) (hfits : v.fits .resp3 (maxDepth + 1) = false) :
    hop sp v = none := by
  obtain ⟨e, he⟩ := @decode_of_not_fits sp _ _ h hfits
  rw [hop, he]

theorem encodeProto_inj {proto : Proto} :
    encodeProto sp proto w = encodeProto sp proto v ↔ w.wire sp proto = v.wire sp proto := by
  rw [encodeProto_eq, encodeProto_eq]
  exact bytes_inj (wire_wellFormed _) (wire_wellFormed _)

theorem hop_map_iff {v direct : Value} (h : v.WellTyped) (repair : Value → Value) (proto : Proto) :
    (hop sp v).map (fun w => encodeProto sp proto (repair w)) = some (encodeProto sp proto direct) ↔
      v.fits .resp3 (maxDepth + 1) ∧
        (repair (v.reread sp)).wire sp proto = direct.wire sp proto := by
  cases hfits : v.fits .resp3 (maxDepth + 1) with
  | false =>
    rw [hop_of_not_fits h hfits]
    exact iff_of_false nofun fun hboth => Bool.false_ne_true hboth.1
  | true =>
    rw [hop_of_fits h hfits, Option.map_some, Option.some.injEq, encodeProto_inj]
    exact (and_iff_right rfl).symm

theorem viaProxy_iff (hbuilds : Builds json trim args v) (h : v.WellTyped) (proto : Proto) :
    viaProxy json proto args v = some (encodeProto sp proto v) ↔
      v.fits .resp3 (maxDepth + 1) ∧ (proto = .resp3 ∨ restorable trim args v) := by
  rw [viaProxy, hop_map_iff h (fun w => nullAsArray args (repairReply json args w))]
  exact and_congr_right fun _ => restored_iff hbuilds proto

theorem wellTyped_backendItems (h : ∀ a ∈ txn, a.reply.WellTyped) :
    (array (some (backendItems txn))).WellTyped := by
  refine .array fun v hv => ?_
  obtain ⟨a, ha, -, rfl⟩ := mem_backendItems.mp hv
  exact h a ha

theorem viaExec_iff (hbuilt : ∀ a ∈ txn, a.Built json trim)
    (h : ∀ a ∈ txn, a.reply.WellTyped) (proto : Proto) :
    viaExec json proto txn (.array (some (backendItems txn))) =
        some (encodeProto sp proto (.array (some (txn.map (·.reply))))) ↔ txn.all (·.here) ∨
        (array (some (backendItems txn))).fits .resp3 (maxDepth + 1) ∧
          execRestorable trim proto txn := by
  rw [viaExec]
  cases hhere : txn.all (·.here) with
  | true => exact iff_of_true (if_pos rfl) (.inl rfl)
  | false =>
    rw [if_neg Bool.false_ne_true, hop_map_iff (wellTyped_backendItems h),
      wire_repairExec_iff hbuilt]
    simp

theorem viaExec_refused (hhere : txn.all (·.here) = false)
    (h : v.WellTyped) (hv : v = .array none ∨ ∃ e, v = .error e) (proto : Proto) :
    viaExec json proto txn v = some (encodeProto sp proto v) := by
  rw [viaExec, hhere, if_neg Bool.false_ne_true, hop_map_iff h]
  obtain rfl | ⟨e, rfl⟩ := hv
  · exact ⟨rfl, rfl⟩
  · refine ⟨rfl, ?_⟩
    simp only [reread, repairExec, wire, String.toList_ofList, pushLine_pushLine]

/-- **When the proxy is transparent.**  A client receives the node's bytes exactly when the reply
crosses the hop and, to a RESP2 client, is restorable; and so for a transaction, whose refusals
always arrive as they are. -/
theorem proxy_transparent (json : JsonSpelling sp) (trim : String → String) (proto : Proto) :
    (∀ args v, Builds json trim args v → v.WellTyped →
      (viaProxy json proto args v = some (encodeProto sp proto v) ↔
        v.fits .resp3 (maxDepth + 1) = true ∧ (proto = .resp3 ∨ restorable trim args v = true))) ∧
    (∀ txn : List Answered, (∀ a ∈ txn, a.Built json trim) → (∀ a ∈ txn, a.reply.WellTyped) →
      (viaExec json proto txn (.array (some (backendItems txn))) =
          some (encodeProto sp proto (.array (some (txn.map (·.reply))))) ↔
        txn.all (·.here) = true ∨
          (Value.array (some (backendItems txn))).fits .resp3 (maxDepth + 1) = true ∧
            execRestorable trim proto txn = true)) ∧
    (∀ (txn : List Answered) v, txn.all (·.here) = false → v.WellTyped →
      (v = .array none ∨ ∃ e, v = .error e) →
      viaExec json proto txn v = some (encodeProto sp proto v)) :=
  ⟨fun _ _ hbuilds h => viaProxy_iff hbuilds h proto,
    fun _ hbuilt h => viaExec_iff hbuilt h proto,
    fun _ _ hhere h hv => viaExec_refused hhere h hv proto⟩

end

def JsonSpelling.ofBits : JsonSpelling .ofBits where
  fmt d := Spelling.ofBits.fmtDouble d
  fmt_eq h := h
  fmt_free d := free_repr (by decide) d.toNat

def trimLeft (s : String) : String := String.ofList (s.toList.dropWhile (· == ' '))

open JsonSpelling

theorem proxy_transparent_blpop :
    viaProxy JsonSpelling.ofBits .resp2 ["BLPOP", "q", "1"] (.array none) =
      some (encodeProto .ofBits .resp2 (.array none)) :=
  ((proxy_transparent ofBits trimLeft .resp2).1 ["BLPOP", "q", "1"] (.array none)
    (.nullArray (by decide +kernel)) .nullArray).mpr (by decide +kernel)

def poppedReply : Value := .array (some [.bulk (some "m"), .double 7])

theorem poppedReply_ordinary : poppedReply.Ordinary := by
  refine .array fun v hv => ?_
  simp only [mem_cons, not_mem_nil, or_false] at hv
  obtain rfl | rfl := hv
  · exact .bulk
  · exact .double

/-- The transaction `ZPOPMIN z`, or `UNWATCH` and it, the first answered at the proxy. -/
def popTxn (unwatch : Bool) : List Answered :=
  (if unwatch then [{ args := ["UNWATCH"], here := true, reply := .simple "OK" }] else [])
    ++ [{ args := ["ZPOPMIN", "z"], here := false, reply := poppedReply }]

theorem popTxn_built (unwatch : Bool) :
    ∀ a ∈ popTxn unwatch, a.Built JsonSpelling.ofBits trimLeft := by
  have hpop : Builds ofBits trimLeft ["ZPOPMIN", "z"] poppedReply :=
    .ordinary (by decide +kernel) poppedReply_ordinary fun _ => rfl
  intro a ha
  cases unwatch with
  | false =>
    obtain rfl := mem_singleton.mp ha
    exact hpop
  | true =>
    obtain rfl | ha := mem_cons.mp ha
    · exact rfl
    · obtain rfl := mem_singleton.mp ha
      exact hpop

/-- **Where it is not.**  A `ZPOPMIN` in a transaction is taken for a scored result: RESP2's `EXEC`
loses its array, RESP3's the `UNWATCH` before it.  A script's pairs reach a RESP2 client flat.  And
`JSON.NUMINCRBY` on a path with a space before its `$` is answered in the other dialect. -/
theorem proxy_not_transparent :
    ((∀ a ∈ popTxn false, a.Built JsonSpelling.ofBits trimLeft) ∧
      viaExec JsonSpelling.ofBits .resp2 (popTxn false)
          (.array (some (backendItems (popTxn false)))) =
        some "*2\r\n$1\r\nm\r\n$1\r\n7\r\n".toList ∧
      encodeProto .ofBits .resp2 (.array (some ((popTxn false).map (·.reply)))) =
        "*1\r\n*2\r\n$1\r\nm\r\n$1\r\n7\r\n".toList) ∧
    ((∀ a ∈ popTxn true, a.Built JsonSpelling.ofBits trimLeft) ∧
      viaExec JsonSpelling.ofBits .resp3 (popTxn true)
          (.array (some (backendItems (popTxn true)))) =
        some "*1\r\n*2\r\n$1\r\nm\r\n,7\r\n".toList ∧
      encodeProto .ofBits .resp3 (.array (some ((popTxn true).map (·.reply)))) =
        "*2\r\n+OK\r\n*2\r\n$1\r\nm\r\n,7\r\n".toList) ∧
    (Builds JsonSpelling.ofBits trimLeft
        ["EVAL", "return \x7b\x7b'm', \x7bdouble=7\x7d\x7d\x7d", "0"]
        (.array (some [poppedReply])) ∧
      viaProxy JsonSpelling.ofBits .resp2
          ["EVAL", "return \x7b\x7b'm', \x7bdouble=7\x7d\x7d\x7d", "0"]
          (.array (some [poppedReply])) = some "*2\r\n$1\r\nm\r\n$1\r\n7\r\n".toList ∧
      encodeProto .ofBits .resp2 (.array (some [poppedReply])) =
        "*1\r\n*2\r\n$1\r\nm\r\n$1\r\n7\r\n".toList) ∧
    (Builds JsonSpelling.ofBits trimLeft ["JSON.NUMINCRBY", "d", " $.a", "1"]
        (numopReply JsonSpelling.ofBits trimLeft " $.a" [some (.int 2)]) ∧
      viaProxy JsonSpelling.ofBits .resp2 ["JSON.NUMINCRBY", "d", " $.a", "1"]
          (numopReply JsonSpelling.ofBits trimLeft " $.a" [some (.int 2)]) =
        some "$1\r\n2\r\n".toList ∧
      encodeProto .ofBits .resp2 (numopReply JsonSpelling.ofBits trimLeft " $.a" [some (.int 2)]) =
        "$3\r\n[2]\r\n".toList) :=
  ⟨⟨popTxn_built false, by decide +kernel⟩, ⟨popTxn_built true, by decide +kernel⟩,
    ⟨.ordinary (by decide +kernel) (.array (by simpa using poppedReply_ordinary)) fun _ => rfl,
      by decide +kernel⟩,
    ⟨.numop (by decide +kernel) rfl, by decide +kernel⟩⟩

end Flint
