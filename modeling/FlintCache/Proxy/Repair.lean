import FlintCache.Server.Reply

/-!
# Proxy/Repair — a reply read in RESP3, owed in the client's protocol

The proxy speaks RESP3 to the nodes whatever its client speaks, and restores by command what that
protocol merges: `repairReply` for one reply, `execItem` for each position of an `EXEC`'s.  For each
shape of reply a lemma says what of it is `restored` after the hop: mostly the frames of the
original (`SameWire`), and for the JSON numbers those of the dialect the proxy takes the path to be
in.
-/

namespace Flint

open List
open Value (rereadAll wire wireAll)

variable {sp : Spelling}

section

variable (json : JsonSpelling sp)

def isXread (args : Args) : Bool := commandName args == "XREAD" || commandName args == "XREADGROUP"

def Value.isMap : Value → Bool
  | .map _ => true
  | _ => false

def peelNested : Value → Value
  | .array (some [inner]) => .resp3Nested inner
  | v => v

def repairReply (args : Args) (v : Value) : Value :=
  if resp3NestsReply args then peelNested v
  else if resp3DiffersInKind args && !v.isError then
    .byProto (jsonNumincrbyResp2 json v (args.getD 2 ".")) v
  else if hrandfieldWithvalues args then .byProto (flattenPairs v) v
  else if zmpopCommand args then zmpopNested v
  else if geoCoordinates args then geoReply v
  else if bfInfoField args then .byProto (bfInfoFieldResp2 v) v
  else
    let v := if groupNulls args then groupNullsReply v else v
    if isXread args && v.isMap then .byProto (xreadResp2 v) v else v

def nullAsArray (args : Args) (v : Value) : Value :=
  match v with
  | .null => if nullIsArray args then .array none else .null
  | other => other

def execItem (nullArray : Bool) (repair : Option Args) : Option Value → Value
  | some v =>
    match v, nullArray with
    | .null, true => .array none
    | v, _ =>
      match repair with
      | some args => repairReply json args v
      | none => v
  | none => .null

/-- A command in an open transaction: queued at the node, or here with the reply it is owed. -/
inductive QueuedReply
  | backend (nullArray : Bool) (repair : Option Args)
  | here (v : Value)

def queuedBackend (args : Args) : QueuedReply :=
  .backend (nullIsArray args) (if needsRepair args then some args else none)

def QueuedReply.isBackend : QueuedReply → Bool
  | .backend _ _ => true
  | .here _ => false

def repairItems : List QueuedReply → List Value → List Value
  | [], _ => []
  | .here v :: queue, items => v :: repairItems queue items
  | .backend nullArray repair :: queue, items =>
    execItem json nullArray repair items.head? :: repairItems queue items.tail

def repairExec (queue : List QueuedReply) (v : Value) : Value :=
  match v with
  | .null => .array none
  | .array (some items) =>
    if items.length = queue.countP (·.isBackend) then .array (some (repairItems json queue items))
    else .array (some items)
  | other => other

end

/-! ## Commands and their families -/

open Value

section

variable {json : JsonSpelling sp} {args : Args}

theorem repairReply_of_not_needsRepair (h : needsRepair args = false) (v : Value) :
    repairReply json args v = v := by
  simp only [needsRepair, Bool.or_eq_false_iff] at h
  obtain ⟨⟨⟨⟨⟨⟨⟨hnest, hkind⟩, hbf⟩, hrand⟩, hzmpop⟩, hgeo⟩, hnulls⟩, hxread⟩ := h
  have hxread' : isXread args = false := Bool.or_eq_false_iff.mpr hxread
  simp [repairReply, hnest, hkind, hbf, hrand, hzmpop, hgeo, hnulls, hxread']

theorem repairReply_jsonType (h : resp3NestsReply args) (v : Value) :
    repairReply json args v = peelNested v := by
  rw [repairReply, if_pos h]

variable {v : Value}

theorem repairReply_numop (h : resp3DiffersInKind args) (hv : v.isError = false) :
    repairReply json args v = .byProto (jsonNumincrbyResp2 json v (args.getD 2 ".")) v := by
  have hname : commandName args = "JSON.NUMINCRBY" ∨ commandName args = "JSON.NUMMULTBY" := by
    simpa [resp3DiffersInKind] using h
  have hnest : resp3NestsReply args = false := by
    obtain hname | hname := hname <;> simp [resp3NestsReply, hname]
  simp [repairReply, hnest, h, hv]

theorem repairReply_hrandfield (h : hrandfieldWithvalues args) (v : Value) :
    repairReply json args v = .byProto (flattenPairs v) v := by
  have hname : commandName args = "HRANDFIELD" := by
    simp only [hrandfieldWithvalues, Bool.and_eq_true, beq_iff_eq] at h
    exact h.1.2
  simp [repairReply, resp3NestsReply, resp3DiffersInKind, hname, h]

theorem repairReply_zmpop (h : zmpopCommand args) (v : Value) :
    repairReply json args v = zmpopNested v := by
  have hname : commandName args = "ZMPOP" ∨ commandName args = "BZMPOP" := by
    simpa [zmpopCommand] using h
  obtain hname | hname := hname <;>
    simp [repairReply, resp3NestsReply, resp3DiffersInKind, hrandfieldWithvalues, hname, h]

theorem repairReply_geo (h : geoCoordinates args) (v : Value) :
    repairReply json args v = geoReply v := by
  have hname : commandName args ∈ ["GEOPOS", "GEORADIUS", "GEORADIUS_RO", "GEORADIUSBYMEMBER",
      "GEORADIUSBYMEMBER_RO", "GEOSEARCH"] := by
    simpa [geoCoordinates] using h
  simp only [mem_cons, not_mem_nil, or_false] at hname
  obtain hname | hname | hname | hname | hname | hname := hname <;>
    simp [repairReply, resp3NestsReply, resp3DiffersInKind, hrandfieldWithvalues, zmpopCommand,
      hname, h]

theorem repairReply_bfInfo (h : bfInfoField args) (v : Value) :
    repairReply json args v = .byProto (bfInfoFieldResp2 v) v := by
  have hname : commandName args = "BF.INFO" := by
    simp only [bfInfoField, Bool.and_eq_true, beq_iff_eq] at h
    exact h.2
  simp [repairReply, resp3NestsReply, resp3DiffersInKind, hrandfieldWithvalues, zmpopCommand,
    geoCoordinates, hname, h]

theorem repairReply_xread (h : commandName args = "XREAD") (v : Value) :
    repairReply json args v = if v.isMap then .byProto (xreadResp2 v) v else v := by
  simp [repairReply, resp3NestsReply, resp3DiffersInKind, hrandfieldWithvalues, zmpopCommand,
    geoCoordinates, bfInfoField, groupNulls, isXread, h]

theorem repairReply_xreadgroup (h : commandName args = "XREADGROUP") (v : Value) :
    repairReply json args v = if (groupNullsReply v).isMap then
      .byProto (xreadResp2 (groupNullsReply v)) (groupNullsReply v) else groupNullsReply v := by
  simp [repairReply, resp3NestsReply, resp3DiffersInKind, hrandfieldWithvalues, zmpopCommand,
    geoCoordinates, bfInfoField, groupNulls, isXread, h]

theorem repairReply_xpending (h : commandName args = "XPENDING") (hlen : args.length = 3)
    (v : Value) : repairReply json args v = groupNullsReply v := by
  simp [repairReply, resp3NestsReply, resp3DiffersInKind, hrandfieldWithvalues, zmpopCommand,
    geoCoordinates, bfInfoField, groupNulls, isXread, h, hlen]

theorem wire_repairReply_error (proto : Proto) (args : Args) (e : String) :
    (nullAsArray args (repairReply json args (.error e))).wire sp proto =
      (error e).wire sp proto := by
  cases hneeds : needsRepair args with
  | false =>
    rw [repairReply_of_not_needsRepair hneeds]
    rfl
  | true =>
    unfold repairReply
    split
    · rfl
    split
    · next h => exact absurd h (by simp [isError])
    split
    · cases proto <;> rfl
    split
    · rfl
    split
    · rfl
    · split
      · cases proto <;> rfl
      · cases hnulls : groupNulls args <;> simp [groupNullsReply, isMap, nullAsArray]

/-! ## Replies that are the same on the wire -/

def SameWire (sp : Spelling) (v w : Value) : Prop := ∀ proto, v.wire sp proto = w.wire sp proto

namespace SameWire

theorem refl (v : Value) : SameWire sp v v := fun _ => rfl

variable {v w : Value}

theorem of_eq (h : v = w) : SameWire sp v w := h ▸ refl v

theorem null : SameWire sp .null (.bulk none) := fun proto => by cases proto <;> rfl

theorem double (d : UInt64) : SameWire sp (.double (sp.readBack sp.fmtDouble d)) (.double d) :=
  fun _ => wire_double_readBack sp.double_spells d

theorem humanDouble (d : UInt64) :
    SameWire sp (.humanDouble (sp.readBack sp.fmtHumanDouble d)) (.humanDouble d) :=
  fun _ => wire_double_readBack sp.human_spells d

theorem simple (s : String) :
    SameWire sp (.simple (String.ofList (pushLine s.toList))) (.simple s) := fun proto => by
  rw [wire, String.toList_ofList, pushLine_pushLine, wire]

theorem nested (h : SameWire sp v w) :
    SameWire sp (.resp3Nested v) (.resp3Nested w) := fun proto => by
  rw [wire, wire, h proto]

theorem byProto {v v' w w' : Value} (h2 : SameWire sp v w) (h3 : SameWire sp v' w') :
    SameWire sp (.byProto v v') (.byProto w w') := fun proto => by
  rw [wire, wire, h2 proto, h3 proto]

theorem array_map {α : Type} {l : List α} {f g : α → Value} (h : ∀ a ∈ l, SameWire sp (f a) (g a)) :
    SameWire sp (.array (some (l.map f))) (.array (some (l.map g))) := fun proto => by
  rw [wire, wire, wireAll_eq, wireAll_eq, map_map, map_map]
  exact congrArg _ (map_congr_left fun a ha => h a ha proto)

theorem array_cons {vs ws : List Value} (h : SameWire sp v w)
    (hrest : SameWire sp (.array (some vs)) (.array (some ws))) :
    SameWire sp (.array (some (v :: vs))) (.array (some (w :: ws))) := fun proto => by
  have hws := hrest proto
  rw [wire, wire, RespFrame.aggregate.injEq] at hws
  rw [wire, wire, wireAll, wireAll, h proto, hws.2]

theorem map_one {k k' v v' : Value} (hk : SameWire sp k k') (hv : SameWire sp v v') :
    SameWire sp (.map [(k, v)]) (.map [(k', v')]) := fun proto => by
  rw [wire, wire, wirePairs_eq, wirePairs_eq]
  simp only [flatMap_cons, flatMap_nil, hk proto, hv proto]

end SameWire

/-! ## What the hop leaves of each shape -/

theorem scoredOrArray_of_none {items : List Value} (h : ∀ v ∈ items, v.asScorePair = none) :
    scoredOrArray items = .array (some items) := by
  refine scoredOrArray_of_not_looksScored ?_
  cases items with
  | nil => rfl
  | cons v vs => simp [looksScored, h v mem_cons_self]

/-- Bulk strings and arrays of them, however nested. -/
inductive Value.Texts : Value → Prop
  | bulk {s : String} : Texts (bulkOf s)
  | array {items : List Value} (h : ∀ v ∈ items, Texts v) : Texts (.array (some items))

namespace Value.Texts

theorem asScorePair (h : v.Texts) : v.asScorePair = none := by
  cases h with
  | bulk => rfl
  | @array items h =>
    refine asScorePair_eq_none fun m d heq => ?_
    have hdouble : (double d).Texts := h _ (by simp [heq])
    cases hdouble

theorem reread (h : v.Texts) : v.reread sp = v := by
  induction h with
  | bulk => rfl
  | @array items h ih =>
    rw [Value.reread, rereadAll_eq, map_congr_left ih, map_id',
      scoredOrArray_of_none fun v hv => (h v hv).asScorePair]

theorem bulks (l : List String) : (Value.array (some (l.map bulkOf))).Texts :=
  .array (forall_mem_map.mpr fun _ _ => .bulk)

theorem pair {a b : String} : (Value.array (some [bulkOf a, bulkOf b])).Texts :=
  .array (by simpa using ⟨.bulk, .bulk⟩)

end Value.Texts

theorem reread_ne_null (h : v.Ordinary) (hv : v.isNothing = false) : v.reread sp ≠ .null := by
  intro hnull
  cases h with
  | @bulk b =>
    cases b with
    | none => cases hv
    | some data => cases hnull
  | null => cases hv
  | @array items _ | @scorePairs pairs =>
    rw [reread, scoredOrArray] at hnull
    split at hnull <;> cases hnull
  | _ => cases hnull

theorem nullAsArray_of_ne (h : v ≠ .null) : nullAsArray args v = v := by
  unfold nullAsArray
  split
  · exact absurd rfl h
  · rfl

theorem nullAsArray_of_not (h : nullIsArray args = false) (v : Value) : nullAsArray args v = v := by
  unfold nullAsArray
  split
  · rw [h]
    rfl
  · rfl

theorem repairReply_null (h : nullIsArray args) : repairReply json args .null = .null := by
  have hkind : resp3DiffersInKind args = false := by
    cases hk : resp3DiffersInKind args with
    | false => rfl
    | true =>
      have hname : commandName args = "JSON.NUMINCRBY" ∨ commandName args = "JSON.NUMMULTBY" := by
        simpa [resp3DiffersInKind] using hk
      obtain hname | hname := hname <;> simp [nullIsArray, hname] at h
  have hrand : hrandfieldWithvalues args = false := by
    cases hk : hrandfieldWithvalues args with
    | false => rfl
    | true =>
      simp only [hrandfieldWithvalues, Bool.and_eq_true, beq_iff_eq] at hk
      simp [nullIsArray, hk.1.2] at h
  have hbf : bfInfoField args = false := by
    cases hk : bfInfoField args with
    | false => rfl
    | true =>
      simp only [bfInfoField, Bool.and_eq_true, beq_iff_eq] at hk
      simp [nullIsArray, hk.2] at h
  simp [repairReply, hkind, hrand, hbf, peelNested, zmpopNested, geoReply, groupNullsReply,
    isMap]

/-! ## Restored -/

variable (json) in
def restored (args : Args) (v : Value) : Value :=
  nullAsArray args (repairReply json args (v.reread sp))

theorem restored_jsonType {b : Option String} (h : resp3NestsReply args) :
    SameWire sp (restored json args (.resp3Nested (.bulk b))) (.resp3Nested (.bulk b)) := by
  have hrestored : restored json args (.resp3Nested (.bulk b)) =
      .resp3Nested ((bulk b).reread sp) := by
    rw [restored, reread, scoredOrArray_of_none (by cases b <;> simp [reread,
      asScorePair]), repairReply_jsonType h]
    rfl
  rw [hrestored]
  cases b with
  | none => exact .nested .null
  | some data => exact .refl _

theorem restored_jsonTypes {names : List String} (h : resp3NestsReply args) :
    SameWire sp (restored json args (.resp3Nested (.array (some (names.map bulkOf)))))
      (.resp3Nested (.array (some (names.map bulkOf)))) := by
  have htexts := Value.Texts.bulks names
  refine .of_eq ?_
  rw [restored, reread, htexts.reread, scoredOrArray_of_none (by simp [htexts.asScorePair]),
    repairReply_jsonType h]
  rfl

theorem restored_hrandfield {picks : List (String × String)} (h : hrandfieldWithvalues args) :
    SameWire sp (restored json args (hrandfieldReply picks)) (hrandfieldReply picks) := by
  have htexts : (array (some (picks.map fun fv =>
      .array (some [bulkOf fv.1, bulkOf fv.2])))).Texts :=
    .array (forall_mem_map.mpr fun _ _ => .pair)
  have hflat : flattenPairs (.array (some (picks.map fun fv =>
      .array (some [bulkOf fv.1, bulkOf fv.2])))) =
      .array (some (picks.flatMap fun fv => [bulkOf fv.1, bulkOf fv.2])) := by
    rw [flattenPairs, flatMap_map]
  refine .of_eq ?_
  rw [restored, hrandfieldReply, reread, htexts.reread, repairReply_hrandfield h, hflat]
  rfl

variable {pairs : List (String × UInt64)}

theorem reread_nested_pairs (h : pairs ≠ []) :
    (array (some (pairs.map fun ms => .array (some [bulkOf ms.1, .double ms.2])))).reread sp =
      .scorePairs (pairs.map fun ms => (ms.1, sp.readBack sp.fmtDouble ms.2)) := by
  have hitem (ms : String × UInt64) :
      (array (some [bulkOf ms.1, .double ms.2])).reread sp =
        .array (some [bulkOf ms.1, .double (sp.readBack sp.fmtDouble ms.2)]) := by
    rw [reread, rereadAll, rereadAll, rereadAll, scoredOrArray_of_none]
    · rfl
    · simp [bulkOf, reread, asScorePair]
  have hpair (ms : String × UInt64) :
      ((array (some [bulkOf ms.1, .double ms.2])).reread sp).asScorePair =
        some (ms.1, sp.readBack sp.fmtDouble ms.2) := by
    rw [hitem]
    rfl
  have hscored : looksScored ((pairs.map fun ms =>
      array (some [bulkOf ms.1, .double ms.2])).map (reread sp)) := by
    simp [looksScored, h, hpair]
  rw [reread, rereadAll_eq, scoredOrArray_of_looksScored hscored, map_map, filterMap_map]
  refine congrArg scorePairs ?_
  rw [← filterMap_eq_map]
  exact congrArg (fun f => List.filterMap f pairs) (funext hpair)

theorem restored_zmpop {key : String} (h : zmpopCommand args) (hpairs : pairs ≠ []) :
    SameWire sp (restored json args (zmpopReply key pairs)) (zmpopReply key pairs) := by
  have hrestored : restored json args (zmpopReply key pairs) =
      .array (some [bulkOf key, .array (some (pairs.map fun ms =>
        .array (some [bulkOf ms.1, .double (sp.readBack sp.fmtDouble ms.2)])))]) := by
    rw [restored, zmpopReply, reread, rereadAll, rereadAll, rereadAll,
      reread_nested_pairs hpairs, scoredOrArray_of_none, repairReply_zmpop h]
    · simp only [bulkOf, reread, zmpopNested, map_map]
      rfl
    · simp [bulkOf, reread, asScorePair]
  rw [hrestored]
  exact .array_cons (.refl _) (.array_cons (.array_map fun ms _ =>
    .array_cons (.refl _) (.array_cons (.double ms.2) (.refl _))) (.refl _))

theorem reread_point (xy : UInt64 × UInt64) :
    (pointReply xy).reread sp = .array (some [.double (sp.readBack sp.fmtHumanDouble xy.1),
      .double (sp.readBack sp.fmtHumanDouble xy.2)]) := by
  rw [pointReply, reread, rereadAll, rereadAll, rereadAll, scoredOrArray_of_none]
  · rfl
  · simp [reread, asScorePair]

theorem geoInner_point (xy : UInt64 × UInt64) :
    SameWire sp (geoInner ((pointReply xy).reread sp)) (pointReply xy) := by
  rw [reread_point]
  exact .array_cons (.humanDouble xy.1) (.array_cons (.humanDouble xy.2) (.refl _))

theorem reread_member_cons (m : String) (rest : List Value) :
    (array (some (bulkOf m :: rest))).reread sp =
      .array (some (bulkOf m :: rest.map (reread sp))) := by
  rw [reread, rereadAll, rereadAll_eq]
  exact scoredOrArray_of_not_looksScored rfl

theorem geoInner_hit {m : String} {rest : List Value}
    (h : ∀ r ∈ rest, SameWire sp (geoInner (r.reread sp)) r ∧ ∀ d, r.reread sp ≠ .double d) :
    ((array (some (bulkOf m :: rest))).reread sp).asScorePair = none ∧
      SameWire sp (geoInner ((array (some (bulkOf m :: rest))).reread sp))
        (.array (some (bulkOf m :: rest))) := by
  have hsame := SameWire.array_map (f := fun r => geoInner (r.reread sp)) (g := fun r => r)
    fun r hr => (h r hr).1
  rw [map_id'] at hsame
  rw [reread_member_cons]
  refine ⟨?_, ?_⟩
  · refine asScorePair_eq_none fun _ d heq => ?_
    obtain ⟨r, hr, hd⟩ := mem_map.mp
      (show double d ∈ rest.map (reread sp) by simp [(List.cons.inj heq).2])
    exact absurd hd ((h r hr).2 d)
  · rw [geoInner, geoInnerAll, geoInnerAll_eq, map_map]
    exact .array_cons (.refl _) hsame

theorem geoInner_details (withDist withHash withCoord : Bool) (hit : GeoHit) :
    ∀ r ∈ (if withDist then [bulkOf hit.dist] else [])
        ++ (if withHash then [.integer hit.hash.toInt] else [])
        ++ (if withCoord then [pointReply hit.point] else []),
      SameWire sp (geoInner (r.reread sp)) r ∧ ∀ d, r.reread sp ≠ .double d := by
  intro r hr
  simp only [mem_append, mem_ite_nil_right, mem_singleton] at hr
  obtain (⟨-, rfl⟩ | ⟨-, rfl⟩) | ⟨-, rfl⟩ := hr
  · exact ⟨.refl _, fun _ => nofun⟩
  · exact ⟨.refl _, fun _ => nofun⟩
  · refine ⟨geoInner_point hit.point, fun d => ?_⟩
    rw [reread_point]
    exact nofun

section

variable (h : geoCoordinates args)
include h

theorem restored_geo {α : Type} {l : List α} {f : α → Value}
    (hpair : ∀ a ∈ l, ((f a).reread sp).asScorePair = none)
    (hf : ∀ a ∈ l, SameWire sp (geoInner ((f a).reread sp)) (f a)) :
    SameWire sp (restored json args (.array (some (l.map f)))) (.array (some (l.map f))) := by
  have hrestored : restored json args (.array (some (l.map f))) =
      .array (some (l.map fun a => geoInner ((f a).reread sp))) := by
    have hnone : ∀ v ∈ l.map (reread sp ∘ f), v.asScorePair = none :=
      forall_mem_map.mpr hpair
    rw [restored, reread, rereadAll_eq, map_map, scoredOrArray_of_none hnone,
      repairReply_geo h, geoReply, geoInnerAll_eq, map_map]
    rfl
  rw [hrestored]
  exact .array_map hf

theorem restored_geopos {points : List (Option (UInt64 × UInt64))} :
    SameWire sp (restored json args (geoposReply points)) (geoposReply points) := by
  refine restored_geo h (fun p _ => ?_) fun p _ => ?_
  · cases p with
    | none => rfl
    | some xy =>
      simp only
      rw [reread_point]
      rfl
  · cases p with
    | none => exact .refl _
    | some xy => exact geoInner_point xy

theorem restored_geosearch {withDist withHash withCoord : Bool} {hits : List GeoHit} :
    SameWire sp (restored json args (geosearchReply withDist withHash withCoord hits))
      (geosearchReply withDist withHash withCoord hits) := by
  refine restored_geo h (fun hit _ => ?_) fun hit _ => ?_
  · split
    · exact (geoInner_hit (geoInner_details _ _ _ hit)).1
    · rfl
  · split
    · exact (geoInner_hit (geoInner_details _ _ _ hit)).2
    · exact .refl _

theorem restored_geostore {n : ℤ} : SameWire sp (restored json args (.integer n)) (.integer n) := by
  refine .of_eq ?_
  rw [restored, reread, repairReply_geo h]
  rfl

end

theorem restored_bfInfo {name : String} {one : Value} (h : bfInfoField args)
    (hone : SameWire sp (one.reread sp) one) :
    SameWire sp (restored json args (bfInfoReply name one)) (bfInfoReply name one) := by
  have hrestored : restored json args (bfInfoReply name one) =
      .byProto (.array (some [one.reread sp]))
        (.map [(.simple (String.ofList (pushLine name.toList)), one.reread sp)]) := by
    rw [restored, bfInfoReply, repairReply_bfInfo h]
    rfl
  rw [hrestored]
  exact .byProto (.array_cons hone (.refl _)) (.map_one (.simple name) hone)

/-! ### Streams -/

theorem reread_entry (entry : String × Option (List String)) :
    (entryReply entry).reread sp = .array (some [bulkOf entry.1, match entry.2 with
      | some fields => .array (some (fields.map bulkOf))
      | none => .null]) := by
  rw [entryReply, reread, rereadAll, rereadAll, rereadAll]
  refine (scoredOrArray_of_not_looksScored rfl).trans ?_
  cases entry.2 with
  | none => rfl
  | some fields =>
    simp only
    rw [(Value.Texts.bulks fields).reread]
    rfl

theorem reread_entries (entries : List (String × Option (List String))) :
    (entriesReply entries).reread sp =
      .array (some (entries.map fun e => (entryReply e).reread sp)) := by
  rw [entriesReply, reread, rereadAll_eq, map_map]
  refine scoredOrArray_of_none (forall_mem_map.mpr fun e _ => ?_)
  rw [Function.comp_apply, reread_entry]
  cases e.2 <;> rfl

theorem reread_entries_of_live {entries : List (String × Option (List String))}
    (h : ∀ e ∈ entries, e.2.isSome) : (entriesReply entries).reread sp = entriesReply entries := by
  rw [reread_entries, entriesReply, map_congr_left fun e he => ?_]
  obtain ⟨fields, hfields⟩ := Option.isSome_iff_exists.mp (h e he)
  rw [reread_entry, entryReply, hfields]

theorem restoreEntries_reread (entries : List (String × Option (List String))) :
    restoreEntries ((entriesReply entries).reread sp) = entriesReply entries := by
  rw [reread_entries, restoreEntries, entriesReply, map_map]
  refine congrArg (fun l => array (some l)) (map_congr_left fun e _ => ?_)
  rw [Function.comp_apply, reread_entry, entryReply]
  cases e.2 <;> rfl

section

variable (found : List (String × List (String × Option (List String))))

theorem reread_perStream : (perStream found).reread sp =
      .map (found.map fun ke => (bulkOf ke.1, (entriesReply ke.2).reread sp)) := by
  rw [perStream, reread, reread, rereadPairs_eq, map_map]
  rfl

theorem xreadResp2_map :
    byProto (xreadResp2 (.map (found.map fun ke => (bulkOf ke.1, entriesReply ke.2))))
      (.map (found.map fun ke => (bulkOf ke.1, entriesReply ke.2))) = perStream found := by
  rw [xreadResp2, map_map]
  rfl

end

variable {found : List (String × List (String × Option (List String)))}

theorem restored_xread
    (h : commandName args = "XREAD") (hlive : ∀ ke ∈ found, ∀ e ∈ ke.2, e.2.isSome) :
    SameWire sp (restored json args (perStream found)) (perStream found) := by
  have hmap : (found.map fun ke => (bulkOf ke.1, (entriesReply ke.2).reread sp)) =
      found.map fun ke => (bulkOf ke.1, entriesReply ke.2) :=
    map_congr_left fun ke hke => by rw [reread_entries_of_live (hlive ke hke)]
  refine .of_eq ?_
  rw [restored, reread_perStream, hmap, repairReply_xread h, isMap, if_pos rfl,
    xreadResp2_map]
  rfl

theorem restored_xreadgroup (h : commandName args = "XREADGROUP") :
    SameWire sp (restored json args (perStream found)) (perStream found) := by
  have hmap : groupNullsReply (.map (found.map fun ke =>
      (bulkOf ke.1, (entriesReply ke.2).reread sp))) =
      .map (found.map fun ke => (bulkOf ke.1, entriesReply ke.2)) := by
    rw [groupNullsReply, map_map]
    refine congrArg Value.map (map_congr_left fun ke _ => ?_)
    rw [Function.comp_apply, restoreEntries_reread]
  refine .of_eq ?_
  rw [restored, reread_perStream, repairReply_xreadgroup h, hmap, isMap, if_pos rfl,
    xreadResp2_map]
  rfl

theorem reread_summary (count : Int64) (first last : String) (consumers : List (String × String)) :
    (summaryReply count first last consumers).reread sp =
      summaryReply count first last consumers := by
  have htexts : (array (some (consumers.map fun c =>
      .array (some [bulkOf c.1, bulkOf c.2])))).Texts :=
    .array (forall_mem_map.mpr fun _ _ => .pair)
  rw [summaryReply, reread, rereadAll, rereadAll, rereadAll,
    rereadAll, rereadAll, htexts.reread]
  exact scoredOrArray_of_not_looksScored rfl

theorem restored_summary {count : Int64} {first last : String} {consumers : List (String × String)}
    (hname : commandName args = "XPENDING") (hlen : args.length = 3) :
    SameWire sp (restored json args (summaryReply count first last consumers))
      (summaryReply count first last consumers) := by
  refine .of_eq ?_
  rw [restored, reread_summary, repairReply_xpending hname hlen]
  rfl

theorem restored_emptySummary (hname : commandName args = "XPENDING") (hlen : args.length = 3) :
    SameWire sp (restored json args emptySummaryReply) emptySummaryReply := by
  have hrestored : restored json args emptySummaryReply =
      .array (some [.integer 0, .null, .null, .array none]) := by
    rw [restored, repairReply_xpending hname hlen]
    rfl
  rw [hrestored]
  exact .array_cons (.refl _) (.array_cons .null (.array_cons .null (.refl _)))

theorem restored_nullArray (h : nullIsArray args) :
    SameWire sp (restored json args (.array none)) (.array none) := by
  refine .of_eq ?_
  rw [restored, reread, repairReply_null h, nullAsArray, if_pos h]

/-! ### JSON numbers -/

theorem reread_matches (found : List (Option JsonNumber)) :
    (array (some (found.map numericReply))).reread sp =
      .array (some (found.map fun n => (numericReply n).reread sp)) := by
  rw [reread, rereadAll_eq, map_map]
  refine scoredOrArray_of_none (forall_mem_map.mpr fun n _ => ?_)
  cases n with
  | none => rfl
  | some n => cases n <;> rfl

theorem renderJson_reread (n : Option JsonNumber) :
    renderJson json ((numericReply n).reread sp) = jsonText json n := by
  match n with
  | some (.int _) => rfl
  | some (.float d) => exact json.fmt_eq (fmt_readBack sp.double_spells d)
  | none => rfl

theorem sameWire_matches (found : List (Option JsonNumber)) :
    SameWire sp (.array (some (found.map fun n => (numericReply n).reread sp)))
      (.array (some (found.map numericReply))) := by
  refine .array_map fun n _ => ?_
  match n with
  | some (.int _) => exact .refl _
  | some (.float d) => exact .double d
  | none => exact .refl _

def dialectReply (json : JsonSpelling sp) (dollar : Bool) (path : String)
    (found : List (Option JsonNumber)) : Value :=
  if dollar then bulkOf ("[" ++ joinWith ',' (found.map (jsonText json)) ++ "]")
  else match found with
    | some n :: _ => bulkOf (jsonText json (some n))
    | _ => .error (notANumber path)

theorem jsonNumincrbyResp2_matches (path : String) (found : List (Option JsonNumber)) :
    jsonNumincrbyResp2 json (.array (some (found.map fun n => (numericReply n).reread sp))) path =
      dialectReply json (startsWith path "$") path found := by
  unfold jsonNumincrbyResp2 dialectReply
  simp only
  split
  · rw [map_map]
    exact congrArg (fun l => bulkOf ("[" ++ joinWith ',' l ++ "]"))
      (map_congr_left fun n _ => renderJson_reread n)
  match found with
  | [] => rfl
  | none :: _ => rfl
  | some (.int _) :: _ => rfl
  | some (.float d) :: _ => exact congrArg bulkOf (renderJson_reread (some (.float d)))

theorem free_bracket_intRepr (n : ℤ) : Free '[' n.repr := by
  cases n with
  | ofNat m => exact free_repr (by decide) m
  | negSucc m =>
    rw [Free, Int.repr, String.toList_append, mem_append]
    rintro (h | h)
    · exact absurd h (by decide)
    · exact free_repr (by decide) (m + 1) h

theorem free_bracket_jsonText (n : Option JsonNumber) : Free '[' (jsonText json n) := by
  match n with
  | some (.int n) => exact free_bracket_intRepr n.toInt
  | some (.float d) => exact json.fmt_free d
  | none => exact (by decide : Free '[' "null")

theorem wire_dialectReply_ne (path : String) (found : List (Option JsonNumber)) :
    (dialectReply json true path found).wire sp .resp2 ≠
      (dialectReply json false path found).wire sp .resp2 := by
  intro h
  unfold dialectReply at h
  rw [if_pos rfl, if_neg Bool.false_ne_true] at h
  split at h
  · rename_i n _
    simp only [bulkOf, wire, RespFrame.bulk.injEq] at h
    refine @free_bracket_jsonText _ json (some n) (h ▸ ?_)
    simp
  · simp only [bulkOf, wire] at h
    cases h

theorem restored_numop {path : String} {found : List (Option JsonNumber)} {trim : String → String}
    (h : resp3DiffersInKind args) (hpath : args[2]? = some path) (proto : Proto) :
    (restored json args (numopReply json trim path found)).wire sp proto =
        (numopReply json trim path found).wire sp proto ↔
      proto = .resp3 ∨ startsWith (trim path) "$" = startsWith path "$" := by
  have hpath' : args.getD 2 "." = path := by rw [getD_eq_getElem?_getD, hpath, Option.getD_some]
  have hrestored : restored json args (numopReply json trim path found) =
      .byProto (dialectReply json (startsWith path "$") path found)
        (.array (some (found.map fun n => (numericReply n).reread sp))) := by
    unfold restored numopReply
    rw [reread, reread_matches, repairReply_numop h rfl, hpath', jsonNumincrbyResp2_matches]
    rfl
  have hnumop : numopReply json trim path found =
      .byProto (dialectReply json (startsWith (trim path) "$") path found)
        (.array (some (found.map numericReply))) := rfl
  rw [hrestored, hnumop, wire, wire]
  cases proto with
  | resp3 => exact iff_of_true (sameWire_matches found .resp3) (.inl rfl)
  | resp2 =>
    simp only [pick_resp2, reduceCtorEq, false_or]
    have hne := @wire_dialectReply_ne _ json path found
    cases startsWith path "$" <;> cases startsWith (trim path) "$"
    · exact iff_of_true rfl rfl
    · exact iff_of_false hne.symm (by decide)
    · exact iff_of_false hne (by decide)
    · exact iff_of_true rfl rfl

end

end Flint
