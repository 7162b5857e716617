import FlintCache.Resp.Reread

/-!
# Server/Reply — replies as the node builds them

The dispatcher answers a collection with all its elements, and a script with whatever its Lua value
converts to (`toReply`): tables nest, up to a thousand and one levels.  Neither asks what the
decoder at the other end accepts.
-/

namespace Flint

section

/-! ## Scripts -/

/-- A Lua value as the engine hands it over, a table in the order `next` walks it. -/
inductive LuaValue
  | nil
  | boolean (b : Bool)
  | integer (n : Int64)
  | number (bits : UInt64)
  | string (s : String)
  | table (entries : List (LuaValue × LuaValue))
  | other

/-- How the engine's numbers and strings convert: `as i64`, `as f64` and `to_string_lossy`. -/
structure LuaConversions where
  toI64 : UInt64 → Int64
  ofI64 : Int64 → UInt64
  lossy : String → String
  lossy_utf8 : ∀ s, isUtf8 (lossy s).toList = true

def rawGetName (entries : List (LuaValue × LuaValue)) (name : String) : LuaValue :=
  match entries.find? fun e => match e.1 with
    | .string s => s == name
    | _ => false with
  | some e => e.2
  | none => .nil

def rawGetIndex (entries : List (LuaValue × LuaValue)) (i : Int64) : LuaValue :=
  match entries.find? fun e => match e.1 with
    | .integer n => n == i
    | _ => false with
  | some e => e.2
  | none => .nil

/-- The elements from an index up to the first nil, of which there are at most as many as
entries. -/
def elementsFrom (entries : List (LuaValue × LuaValue)) : ℕ → Int64 → List LuaValue
  | 0, _ => []
  | fuel + 1, i =>
    match rawGetIndex entries i with
    | .nil => []
    | item => item :: elementsFrom entries fuel (i + 1)

section

variable (conv : LuaConversions)

def doubleField (entries : List (LuaValue × LuaValue)) : Option UInt64 :=
  match rawGetName entries "double" with
  | .number n => some n
  | .integer i => some (conv.ofI64 i)
  | _ => none

def verbatimField (entries : List (LuaValue × LuaValue)) : Option String :=
  match rawGetName entries "verbatim_string" with
  | .table v =>
    match rawGetName v "format", rawGetName v "string" with
    | .string _, .string text => some text
    | _, _ => none
  | _ => none

/-- The reply a table is, its parts converted by `inner`: an error, a status, one of the typed
replies, or an array of its elements. -/
def tableReply (inner : LuaValue → Value) (entries : List (LuaValue × LuaValue)) : Value :=
  match rawGetName entries "err" with
  | .string e => .error (if (conv.lossy e).isEmpty then "ERR " else conv.lossy e)
  | _ =>
    match rawGetName entries "ok" with
    | .string s => .simple (conv.lossy s)
    | _ =>
      match doubleField conv entries with
      | some d => .double d
      | none =>
        match rawGetName entries "big_number" with
        | .string n => .bulk (some (String.ofList (n.toList.map flatChar)))
        | _ =>
          match verbatimField entries with
          | some text => .bulk (some text)
          | none =>
            match rawGetName entries "map" with
            | .table m => .map (m.map fun e => (inner e.1, inner e.2))
            | _ =>
              match rawGetName entries "set" with
              | .table set => .set (set.map fun e => inner e.1)
              | _ => .array (some ((elementsFrom entries entries.length 1).map inner))

def toReply : ℕ → LuaValue → Value
  | 0, _ => .error "ERR reached lua stack limit"
  | room + 1, v =>
    match v with
    | .boolean true => .integer 1
    | .boolean false => .bulk none
    | .nil => .bulk none
    | .integer i => .integer i.toInt
    | .number n => .integer (conv.toI64 n).toInt
    | .string s => .bulk (some s)
    | .table entries => tableReply conv (toReply room) entries
    | .other => .bulk none

def maxReplyDepth : ℕ := 1000

def scriptReply (v : LuaValue) : Value := toReply conv (maxReplyDepth + 1) v

end

/-! ## Collections -/

def smembersReply (members : List String) : Value := .set (members.map fun m => .bulk (some m))

def hgetallReply (pairs : List (String × String)) : Value :=
  .map (pairs.map fun fv => (.bulk (some fv.1), .bulk (some fv.2)))

/-! ## Well typed -/

variable {conv : LuaConversions}

theorem wellTyped_int64 (n : Int64) : (Value.integer n.toInt).WellTyped :=
  .integer n.le_toInt n.toInt_lt

theorem tableReply_wellTyped {inner : LuaValue → Value} (h : ∀ v, (inner v).WellTyped)
    (entries : List (LuaValue × LuaValue)) : (tableReply conv inner entries).WellTyped := by
  unfold tableReply
  split
  · split
    · exact .error (isUtf8_of_all (by decide +kernel))
    · exact .error (conv.lossy_utf8 _)
  split
  · exact .simple (conv.lossy_utf8 _)
  split
  · exact .double
  split
  · exact .bulk
  split
  · exact .bulk
  split
  · refine .map (List.forall_mem_map.mpr fun e _ => h e.1)
      (List.forall_mem_map.mpr fun e _ => h e.2)
  · split
    · exact .set (List.forall_mem_map.mpr fun e _ => h e.1)
    · exact .array (List.forall_mem_map.mpr fun v _ => h v)

theorem toReply_wellTyped (room : ℕ) (v : LuaValue) : (toReply conv room v).WellTyped := by
  induction room generalizing v with
  | zero => exact .error (isUtf8_of_all (by decide +kernel))
  | succ room ih =>
    unfold toReply
    split
    · exact .integer (by omega) (by omega)
    · exact .bulk
    · exact .bulk
    · exact wellTyped_int64 _
    · exact wellTyped_int64 _
    · exact .bulk
    · exact tableReply_wellTyped ih _
    · exact .bulk

theorem smembersReply_wellTyped (members : List String) : (smembersReply members).WellTyped :=
  .set (List.forall_mem_map.mpr fun _ _ => .bulk)

theorem hgetallReply_wellTyped (pairs : List (String × String)) : (hgetallReply pairs).WellTyped :=
  .map (List.forall_mem_map.mpr fun _ _ => .bulk) (List.forall_mem_map.mpr fun _ _ => .bulk)

/-! ## One frame -/

/-- **A reply is one frame to the decoder exactly when it fits**: at most 33 levels deep, no
aggregate past a million, no bulk string past half a gigabyte.  What follows it plays no part. -/
theorem reply_one_frame (sp : Spelling) (proto : Proto) (v : Value) (h : v.WellTyped)
    (s : List Char) :
    (∃ w, decode sp.parseF64 (encodeProto sp proto v ++ s) =
      .complete w (encodeProto sp proto v).length) ↔ v.fits proto (maxDepth + 1) = true := by
  refine ⟨fun ⟨w, hw⟩ => ?_, fun hfits => ?_⟩
  · by_contra hfits
    obtain ⟨e, he⟩ := decodeAt_encodeProto_of_not_fits h (Bool.not_eq_true _ ▸ hfits) s
    cases hw.symm.trans he
  · obtain ⟨w, -, hw⟩ := decodeAt_encodeProto_of_fits h hfits s
    exact ⟨w, hw⟩

theorem reply_one_frame_hash :
    ∃ w, decode Spelling.ofBits.parseF64
        (encodeProto .ofBits .resp3 (hgetallReply [("a", "1"), ("b", "2")]) ++ []) =
      .complete w (encodeProto .ofBits .resp3 (hgetallReply [("a", "1"), ("b", "2")])).length :=
  (reply_one_frame .ofBits .resp3 _ (hgetallReply_wellTyped _) []).mpr (by decide)

theorem decode_of_not_fits {sp : Spelling} {proto : Proto} {v : Value} (h : v.WellTyped)
    (hfits : v.fits proto (maxDepth + 1) = false) :
    ∃ e, decode sp.parseF64 (encodeProto sp proto v) = .error e := by
  obtain ⟨e, he⟩ := decodeAt_encodeProto_of_not_fits h hfits []
  rw [List.append_nil] at he
  exact ⟨e, he⟩

def nestedTables : ℕ → LuaValue
  | 0 => .table []
  | n + 1 => .table [(.integer 1, nestedTables n)]

/-- Strings converted as they are when they are UTF-8, and numbers as their bits. -/
def LuaConversions.plain : LuaConversions where
  toI64 n := n.toInt64
  ofI64 n := n.toUInt64
  lossy s := if isUtf8 s.toList then s else "?"
  lossy_utf8 s := by
    split
    · assumption
    · exact isUtf8_of_all (by decide +kernel)

/-- **Two replies that are not**: tables nested 34 deep, and a set past a million. -/
theorem reply_refused :
    (∀ proto, ∃ e, decode Spelling.ofBits.parseF64
      (encodeProto .ofBits proto (scriptReply .plain (nestedTables 33))) = .error e) ∧
    ∀ proto, ∃ e, decode Spelling.ofBits.parseF64
      (encodeProto .ofBits proto (smembersReply (List.replicate (maxArrayLen + 1) "m"))) =
        .error e := by
  refine ⟨fun proto => ?_, fun proto => ?_⟩
  · have hfits : (scriptReply .plain (nestedTables 33)).fits proto (maxDepth + 1) = false := by
      cases proto <;> decide +kernel
    exact decode_of_not_fits (toReply_wellTyped _ _) hfits
  have hfits : (smembersReply (List.replicate (maxArrayLen + 1) "m")).fits proto (maxDepth + 1) =
      false := by
    have hcount : ¬ maxArrayLen + 1 ≤ maxArrayLen := by omega
    rw [smembersReply, Value.fits, List.length_map, List.length_replicate,
      decide_eq_false hcount, Bool.and_false, Bool.false_and]
  exact decode_of_not_fits (smembersReply_wellTyped _) hfits

end

/-! ## The shape of a command's reply

Most replies are ordinary (`Value.Ordinary`); the others are listed with their builders. -/

section

def bulkOf (s : String) : Value := .bulk (some s)

/-! ## Builders -/

inductive JsonNumber
  | int (n : Int64)
  | float (d : UInt64)

def numericReply : Option JsonNumber → Value
  | some (.int n) => .integer n.toInt
  | some (.float d) => .double d
  | none => .null

section

variable {sp : Spelling} (json : JsonSpelling sp) (trim : String → String)

def jsonText : Option JsonNumber → String
  | some (.int n) => n.toInt.repr
  | some (.float d) => json.fmt d
  | none => "null"

/-- `JSON.NUMINCRBY` and `JSON.NUMMULTBY`: an array in RESP3; in RESP2, JSON text for the `$`
dialect and the value for the legacy one, as the trimmed path says. -/
def numopReply (path : String) (found : List (Option JsonNumber)) : Value :=
  .byProto
    (if startsWith (trim path) "$"
        then bulkOf ("[" ++ joinWith ',' (found.map (jsonText json)) ++ "]")
      else match found with
        | some n :: _ => bulkOf (jsonText json (some n))
        | _ => .error (notANumber path))
    (.array (some (found.map numericReply)))

end

def hrandfieldReply (picks : List (String × String)) : Value :=
  .byProto (.array (some (picks.flatMap fun fv => [bulkOf fv.1, bulkOf fv.2])))
    (.array (some (picks.map fun fv => .array (some [bulkOf fv.1, bulkOf fv.2]))))

def zmpopReply (key : String) (pairs : List (String × UInt64)) : Value :=
  .array (some [bulkOf key, .array (some (pairs.map fun ms =>
    .array (some [bulkOf ms.1, .double ms.2])))])

def pointReply (xy : UInt64 × UInt64) : Value :=
  .array (some [.humanDouble xy.1, .humanDouble xy.2])

def geoposReply (points : List (Option (UInt64 × UInt64))) : Value :=
  .array (some (points.map fun p => match p with
    | some xy => pointReply xy
    | none => .array none))

structure GeoHit where
  member : String
  dist : String
  hash : Int64
  point : UInt64 × UInt64

def geosearchReply (withDist withHash withCoord : Bool) (hits : List GeoHit) : Value :=
  .array (some (hits.map fun h =>
    if withDist || withHash || withCoord then
      .array (some (bulkOf h.member :: ((if withDist then [bulkOf h.dist] else [])
        ++ (if withHash then [.integer h.hash.toInt] else [])
        ++ (if withCoord then [pointReply h.point] else []))))
    else bulkOf h.member))

/-- `BF.INFO key field`: named in RESP3, alone in RESP2. -/
def bfInfoReply (name : String) (one : Value) : Value :=
  .byProto (.array (some [one])) (.map [(.simple name, one)])

def entryReply (entry : String × Option (List String)) : Value :=
  .array (some [bulkOf entry.1, match entry.2 with
    | some fields => .array (some (fields.map bulkOf))
    | none => .array none])

def entriesReply (entries : List (String × Option (List String))) : Value :=
  .array (some (entries.map entryReply))

def perStream (found : List (String × List (String × Option (List String)))) : Value :=
  .byProto (.array (some (found.map fun ke => .array (some [bulkOf ke.1, entriesReply ke.2]))))
    (.map (found.map fun ke => (bulkOf ke.1, entriesReply ke.2)))

def summaryReply (count : Int64) (first last : String) (consumers : List (String × String)) :
    Value :=
  .array (some [.integer count.toInt, bulkOf first, bulkOf last,
    .array (some (consumers.map fun c => .array (some [bulkOf c.1, bulkOf c.2])))])

def emptySummaryReply : Value := .array (some [.integer 0, .bulk none, .bulk none, .array none])

/-! ## Which command builds which -/

def needsRepair (args : Args) : Bool :=
  resp3NestsReply args || resp3DiffersInKind args || bfInfoField args || hrandfieldWithvalues args
    || zmpopCommand args || geoCoordinates args || groupNulls args
    || (commandName args == "XREAD" || commandName args == "XREADGROUP")

inductive Builds {sp : Spelling} (json : JsonSpelling sp) (trim : String → String) :
    Args → Value → Prop
  | error {args : Args} {e : String} : Builds json trim args (.error e)
  | ordinary {args : Args} {v : Value} (hargs : needsRepair args = false) (hv : v.Ordinary)
    (hnull : nullIsArray args = true → v.isNothing = false) : Builds json trim args v
  | nullArray {args : Args} (hargs : nullIsArray args = true) : Builds json trim args (.array none)
  | jsonType {args : Args} {b : Option String} (hargs : resp3NestsReply args = true) :
    Builds json trim args (.resp3Nested (.bulk b))
  | jsonTypes {args : Args} {names : List String} (hargs : resp3NestsReply args = true) :
    Builds json trim args (.resp3Nested (.array (some (names.map bulkOf))))
  | numop {args : Args} {path : String} {found : List (Option JsonNumber)}
    (hargs : resp3DiffersInKind args = true) (hpath : args[2]? = some path) :
    Builds json trim args (numopReply json trim path found)
  | hrandfield {args : Args} {picks : List (String × String)}
    (hargs : hrandfieldWithvalues args = true) : Builds json trim args (hrandfieldReply picks)
  | zmpop {args : Args} {key : String} {pairs : List (String × UInt64)}
    (hargs : zmpopCommand args = true) (hpairs : pairs ≠ []) :
    Builds json trim args (zmpopReply key pairs)
  | geopos {args : Args} {points : List (Option (UInt64 × UInt64))}
    (hargs : geoCoordinates args = true) : Builds json trim args (geoposReply points)
  | geosearch {args : Args} {withDist withHash withCoord : Bool} {hits : List GeoHit}
    (hargs : geoCoordinates args = true) :
    Builds json trim args (geosearchReply withDist withHash withCoord hits)
  | geostore {args : Args} {n : Int64} (hargs : geoCoordinates args = true) :
    Builds json trim args (.integer n.toInt)
  | bfInfo {args : Args} {name : String} {n : Option Int64} (hargs : bfInfoField args = true) :
    Builds json trim args (bfInfoReply name (match n with
      | some n => .integer n.toInt
      | none => .bulk none))
  | xread {args : Args} {found : List (String × List (String × Option (List String)))}
    (hargs : commandName args = "XREAD")
    (hlive : ∀ ke ∈ found, ∀ e ∈ ke.2, e.2.isSome = true) : Builds json trim args (perStream found)
  | xreadgroup {args : Args} {found : List (String × List (String × Option (List String)))}
    (hargs : commandName args = "XREADGROUP") : Builds json trim args (perStream found)
  | summary {args : Args} {count : Int64} {first last : String}
    {consumers : List (String × String)} (hname : commandName args = "XPENDING")
    (hlen : args.length = 3) : Builds json trim args (summaryReply count first last consumers)
  | emptySummary {args : Args} (hname : commandName args = "XPENDING") (hlen : args.length = 3) :
    Builds json trim args emptySummaryReply

end

end Flint
