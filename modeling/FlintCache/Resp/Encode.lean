import FlintCache.Resp.Decode

/-!
# Resp/Encode — replies written for either protocol

The encoder renders a value for the protocol the connection negotiated: `encodeProto`, byte by byte,
and `Value.wire`, the same as a tree of frames (`encodeProto_eq`).  It has no limits, while the
decoder has three — depth, element counts, bulk lengths: **a value decodes from its own bytes, all
of them and no more, exactly when it fits** (`decode_encodeProto`).
-/

namespace Flint

section

open List Int
open RespFrame (bytes bytesAll)
open Bool (and_eq_true)

inductive Proto
  | resp2
  | resp3
  deriving DecidableEq, Repr

def Proto.pick {α : Type} (proto : Proto) (resp2 resp3 : α) : α :=
  match proto with
  | .resp2 => resp2
  | .resp3 => resp3

/-- A rendering of numbers that reads back: one line, whose number is spelled the same. -/
def Spells (parseF64 : String → Option UInt64) (fmt : UInt64 → String) : Prop :=
  ∀ d, '\r' ∉ (fmt d).toList ∧ (fmt d).length ≤ maxBulkLen ∧
    ∃ d', parseDouble parseF64 (fmt d).toList = .ok d' ∧ fmt d' = fmt d

/-- How fractions are spelled and read: `fmt_double`, `fmt_human_double`, `str::parse::<f64>`. -/
structure Spelling where
  parseF64 : String → Option UInt64
  fmtDouble : UInt64 → String
  fmtHumanDouble : UInt64 → String
  double_spells : Spells parseF64 fmtDouble
  human_spells : Spells parseF64 fmtHumanDouble

theorem parseDouble_repr (parseF64 : String → Option UInt64) {n : ℕ} {d : UInt64}
    (h : parseF64 n.repr = some d) : parseDouble parseF64 n.repr.toList = .ok d := by
  rw [parseDouble, if_pos (isUtf8_repr n), String.ofList_toList]
  have hletter {text : String} (hne : 'n' ∈ text.toList) : n.repr ≠ text := fun heq =>
    free_repr (by decide) n (heq ▸ hne)
  split
  · next heq => exact absurd heq (hletter (by decide))
  · next heq => exact absurd heq (hletter (by decide))
  · rw [h]

def Spelling.ofBits : Spelling where
  parseF64 s := (parseUnsigned 64 s).map UInt64.ofNat
  fmtDouble d := d.toNat.repr
  fmtHumanDouble d := d.toNat.repr
  double_spells d := spells d
  human_spells d := spells d
where
  spells (d : UInt64) : '\r' ∉ d.toNat.repr.toList ∧ d.toNat.repr.length ≤ maxBulkLen ∧
      ∃ d', parseDouble (fun s => (parseUnsigned 64 s).map UInt64.ofNat) d.toNat.repr.toList =
        .ok d' ∧ d'.toNat.repr = d.toNat.repr := by
    refine ⟨not_cr_repr _, ?_, d, parseDouble_repr _ ?_, rfl⟩
    · have hlen : d.toNat.repr.length ≤ 20 :=
        Nat.repr_length _ _ (by decide) (Nat.lt_of_lt_of_le d.toNat_lt (by decide))
      exact Nat.le_trans hlen (by decide)
    · rw [parseUnsigned_repr d.toNat_lt, Option.map_some, UInt64.ofNat_toNat]

def pushLine (s : List Char) : List Char :=
  if s.any fun c => c = '\r' || c = '\n' then s.map fun c => if c = '\r' || c = '\n' then ' ' else c
  else s

/-! ## The encoder -/

section

variable (sp : Spelling) (proto : Proto)

def header (tag : Char) (n : ℕ) : List Char := tag :: (n.repr.toList ++ crlf)

def encodeBulk (data : List Char) : List Char := header '$' data.length ++ (data ++ crlf)

/-- A number with a fraction, by its text: a `,` frame in RESP3 and a bulk string in RESP2. -/
def encodeNumber (text : List Char) : List Char :=
  proto.pick (encodeBulk text) (',' :: (text ++ crlf))

mutual

def encodeProto : Value → List Char
  | .null => proto.pick ('$' :: (['-', '1'] ++ crlf)) ('_' :: crlf)
  | .double d => encodeNumber proto (sp.fmtDouble d).toList
  | .humanDouble d => encodeNumber proto (sp.fmtHumanDouble d).toList
  | .map pairs =>
    proto.pick (header '*' (pairs.length * 2)) (header '%' pairs.length) ++ encodePairs pairs
  | .push items => header (proto.pick '*' '>') items.length ++ encodeItems items
  | .set items => header (proto.pick '*' '~') items.length ++ encodeItems items
  | .byProto resp2 resp3 => proto.pick (encodeProto resp2) (encodeProto resp3)
  | .resp3Nested inner => proto.pick [] (header '*' 1) ++ encodeProto inner
  | .scorePairs pairs =>
    header '*' (proto.pick (pairs.length * 2) pairs.length) ++ pairs.flatMap fun ms =>
      proto.pick [] (header '*' 2) ++
        (encodeBulk ms.1.toList ++ encodeNumber proto (sp.fmtDouble ms.2).toList)
  | .simple s => '+' :: (pushLine s.toList ++ crlf)
  | .error s => '-' :: (pushLine s.toList ++ crlf)
  | .integer i => ':' :: (i.repr.toList ++ crlf)
  | .boolean true => proto.pick (':' :: (['1'] ++ crlf)) ('#' :: (['t'] ++ crlf))
  | .boolean false => proto.pick (':' :: (['0'] ++ crlf)) ('#' :: (['f'] ++ crlf))
  -- RESP3 has one null.
  | .bulk none => proto.pick ('$' :: (['-', '1'] ++ crlf)) ('_' :: crlf)
  | .bulk (some data) => encodeBulk data.toList
  | .array none => proto.pick ('*' :: (['-', '1'] ++ crlf)) ('_' :: crlf)
  | .array (some items) => header '*' items.length ++ encodeItems items

def encodeItems : List Value → List Char
  | [] => []
  | v :: vs => encodeProto v ++ encodeItems vs

def encodePairs : List (Value × Value) → List Char
  | [] => []
  | (k, v) :: rest => encodeProto k ++ (encodeProto v ++ encodePairs rest)

end

/-! ## The same as trees -/

def wireNumber (text : List Char) : RespFrame := proto.pick (.bulk text) (.line ',' text)

mutual

def Value.wire : Value → RespFrame
  | .null => proto.pick .nullBulk (.line '_' [])
  | .double d => wireNumber proto (sp.fmtDouble d).toList
  | .humanDouble d => wireNumber proto (sp.fmtHumanDouble d).toList
  | .map pairs => .aggregate (proto.pick '*' '%') (Value.wirePairs pairs)
  | .push items => .aggregate (proto.pick '*' '>') (Value.wireAll items)
  | .set items => .aggregate (proto.pick '*' '~') (Value.wireAll items)
  | .byProto resp2 resp3 => proto.pick resp2.wire resp3.wire
  | .resp3Nested inner => proto.pick inner.wire (.aggregate '*' [inner.wire])
  | .scorePairs pairs => .aggregate '*' (pairs.flatMap fun ms =>
      proto.pick [.bulk ms.1.toList, wireNumber proto (sp.fmtDouble ms.2).toList]
        [.aggregate '*' [.bulk ms.1.toList, wireNumber proto (sp.fmtDouble ms.2).toList]])
  | .simple s => .line '+' (pushLine s.toList)
  | .error s => .line '-' (pushLine s.toList)
  | .integer i => .line ':' i.repr.toList
  | .boolean true => proto.pick (.line ':' ['1']) (.line '#' ['t'])
  | .boolean false => proto.pick (.line ':' ['0']) (.line '#' ['f'])
  | .bulk none => proto.pick .nullBulk (.line '_' [])
  | .bulk (some data) => .bulk data.toList
  | .array none => proto.pick .nullArray (.line '_' [])
  | .array (some items) => .aggregate '*' (Value.wireAll items)

def Value.wireAll : List Value → List RespFrame
  | [] => []
  | v :: vs => v.wire :: Value.wireAll vs

def Value.wirePairs : List (Value × Value) → List RespFrame
  | [] => []
  | (k, v) :: rest => k.wire :: v.wire :: Value.wirePairs rest

end

end

/-! ## What fits -/

section

variable (proto : Proto)

mutual

/-- **The value stays inside the decoder's limits**, with `room` levels of nesting left. -/
def Value.fits : Value → ℕ → Bool
  | .map pairs, room =>
    0 < room && proto.pick (pairs.length * 2) pairs.length ≤ maxArrayLen
      && Value.fitsPairs pairs (room - 1)
  | .push items, room => 0 < room && items.length ≤ maxArrayLen && Value.fitsAll items (room - 1)
  | .set items, room => 0 < room && items.length ≤ maxArrayLen && Value.fitsAll items (room - 1)
  | .array (some items), room =>
    0 < room && items.length ≤ maxArrayLen && Value.fitsAll items (room - 1)
  | .byProto resp2 resp3, room => proto.pick (resp2.fits room) (resp3.fits room)
  | .resp3Nested inner, room => proto.pick (inner.fits room) (0 < room && inner.fits (room - 1))
  | .scorePairs pairs, room =>
    0 < room && proto.pick (pairs.length * 2) pairs.length ≤ maxArrayLen
      && pairs.all fun ms => proto.pick 2 3 ≤ room && ms.1.length ≤ maxBulkLen
  | .bulk (some data), room => 0 < room && data.length ≤ maxBulkLen
  | .bulk none, room => 0 < room
  | .array none, room => 0 < room
  | .null, room => 0 < room
  | .double _, room => 0 < room
  | .humanDouble _, room => 0 < room
  | .simple _, room => 0 < room
  | .error _, room => 0 < room
  | .integer _, room => 0 < room
  | .boolean _, room => 0 < room

def Value.fitsAll : List Value → ℕ → Bool
  | [], _ => true
  | v :: vs, room => v.fits room && Value.fitsAll vs room

@[inherit_doc Value.fitsAll]
def Value.fitsPairs : List (Value × Value) → ℕ → Bool
  | [], _ => true
  | (k, v) :: rest, room => k.fits room && v.fits room && Value.fitsPairs rest room

end

end

/-- What the types of the source guarantee: texts are UTF-8 and integers have 64 bits. -/
inductive Value.WellTyped : Value → Prop
  | simple {s : String} (h : isUtf8 s.toList = true) : WellTyped (.simple s)
  | error {s : String} (h : isUtf8 s.toList = true) : WellTyped (.error s)
  | integer {n : ℤ} (hlo : -2 ^ 63 ≤ n) (hhi : n < 2 ^ 63) : WellTyped (.integer n)
  | boolean {b : Bool} : WellTyped (.boolean b)
  | bulk {b : Option String} : WellTyped (.bulk b)
  | nullArray : WellTyped (.array none)
  | array {items : List Value} (h : ∀ v ∈ items, WellTyped v) : WellTyped (.array (some items))
  | null : WellTyped .null
  | double {d : UInt64} : WellTyped (.double d)
  | humanDouble {d : UInt64} : WellTyped (.humanDouble d)
  | map {items : List (Value × Value)} (hk : ∀ kv ∈ items, WellTyped kv.1)
    (hv : ∀ kv ∈ items, WellTyped kv.2) : WellTyped (.map items)
  | set {items : List Value} (h : ∀ v ∈ items, WellTyped v) : WellTyped (.set items)
  | resp3Nested {v : Value} (h : WellTyped v) : WellTyped (.resp3Nested v)
  | byProto {resp2 resp3 : Value} (h2 : WellTyped resp2) (h3 : WellTyped resp3) :
    WellTyped (.byProto resp2 resp3)
  | scorePairs {items : List (String × UInt64)} : WellTyped (.scorePairs items)
  | push {items : List Value} (h : ∀ v ∈ items, WellTyped v) : WellTyped (.push items)

/-! ## Bytes and trees -/

open Value

section

variable {sp : Spelling} {proto : Proto} {α : Type}

@[simp] theorem pick_resp2 (a b : α) : Proto.resp2.pick a b = a := rfl

@[simp] theorem pick_resp3 (a b : α) : Proto.resp3.pick a b = b := rfl

theorem bytes_wireNumber (text : List Char) :
    (wireNumber proto text).bytes = encodeNumber proto text := by
  cases proto with
  | resp2 => simp [wireNumber, encodeNumber, bytes, encodeBulk, header]
  | resp3 => simp [wireNumber, encodeNumber, bytes]

theorem wirePairs_length (pairs : List (Value × Value)) :
    (wirePairs sp proto pairs).length = pairs.length * 2 := by
  induction pairs with
  | nil => rfl
  | cons kv rest ih =>
    rw [wirePairs, length_cons, length_cons, ih, length_cons]
    omega

theorem wireAll_eq (items : List Value) : wireAll sp proto items = items.map (wire sp proto) := by
  induction items with
  | nil => rfl
  | cons v vs ih => rw [wireAll, ih, map_cons]

theorem wirePairs_eq (pairs : List (Value × Value)) : Value.wirePairs sp proto pairs =
      pairs.flatMap fun kv => [kv.1.wire sp proto, kv.2.wire sp proto] := by
  induction pairs with
  | nil => rfl
  | cons kv rest ih =>
    rw [wirePairs, ih, flatMap_cons]
    rfl

theorem wireAll_length (items : List Value) : (wireAll sp proto items).length = items.length := by
  rw [wireAll_eq, length_map]

theorem bytesAll_append (fs gs : List RespFrame) :
    bytesAll (fs ++ gs) = bytesAll fs ++ bytesAll gs := by
  induction fs with
  | nil => rfl
  | cons f fs ih => rw [cons_append, bytesAll, ih, bytesAll, append_assoc]

theorem bytesAll_flatMap (g : α → List RespFrame) (l : List α) :
    bytesAll (l.flatMap g) = l.flatMap fun a => bytesAll (g a) := by
  induction l with
  | nil => rfl
  | cons a l ih => rw [flatMap_cons, bytesAll_append, ih, flatMap_cons]

theorem bytes_aggregate (tag : Char) (items : List RespFrame) :
    (RespFrame.aggregate tag items).bytes =
      header tag (declaredCount tag items.length) ++ bytesAll items := by
  rw [bytes, header, cons_append]

mutual

theorem encodeProto_eq : (v : Value) → encodeProto sp proto v = (v.wire sp proto).bytes
  | .null | .boolean true | .boolean false | .bulk none | .array none => by cases proto <;> rfl
  | .double d | .humanDouble d => by rw [encodeProto, wire, bytes_wireNumber]
  | .map pairs => by
    have hcount : header (proto.pick '*' '%')
        (declaredCount (proto.pick '*' '%') (pairs.length * 2)) =
        proto.pick (header '*' (pairs.length * 2)) (header '%' pairs.length) := by
      cases proto <;> simp [declaredCount]
    rw [encodeProto, wire, bytes_aggregate, wirePairs_length, hcount, encodePairs_eq pairs]
  | .push items | .set items => by
    rw [encodeProto, wire, bytes_aggregate, wireAll_length, encodeItems_eq items]
    cases proto <;> rfl
  | .byProto resp2 resp3 => by
    rw [encodeProto, wire, encodeProto_eq resp2, encodeProto_eq resp3]
    cases proto <;> rfl
  | .resp3Nested inner => by
    rw [encodeProto, wire, encodeProto_eq inner]
    cases proto with
    | resp2 => rfl
    | resp3 => simp [bytes_aggregate, bytesAll, declaredCount]
  | .scorePairs pairs => by
    rw [encodeProto, wire, bytes_aggregate, bytesAll_flatMap, length_flatMap]
    cases proto with
    | _ =>
      simp [declaredCount, bytesAll, bytes_wireNumber, bytes, encodeBulk, header]
  | .simple s | .error s | .integer s => by rw [encodeProto, wire, bytes]
  | .bulk (some data) => by
    rw [encodeProto, wire, bytes, encodeBulk, header, cons_append]
  | .array (some items) => by
    rw [encodeProto, wire, bytes_aggregate, wireAll_length, encodeItems_eq items]
    rfl

theorem encodeItems_eq : (items : List Value) →
    encodeItems sp proto items = bytesAll (wireAll sp proto items)
  | [] => rfl
  | v :: vs => by rw [encodeItems, wireAll, bytesAll, encodeProto_eq v, encodeItems_eq vs]

theorem encodePairs_eq : (pairs : List (Value × Value)) →
    encodePairs sp proto pairs = bytesAll (wirePairs sp proto pairs)
  | [] => rfl
  | (k, v) :: rest => by rw [encodePairs, wirePairs, bytesAll, bytesAll, encodeProto_eq k,
      encodeProto_eq v, encodePairs_eq rest]

end

/-! ## Lines as the encoder writes them -/

def flatChar (c : Char) : Char := if c = '\r' || c = '\n' then ' ' else c

theorem pushLine_eq_map (s : List Char) : pushLine s = s.map flatChar := by
  unfold pushLine
  split
  · rfl
  rename_i h
  have hflat : ∀ c ∈ s, flatChar c = c := fun c hc =>
    if_neg fun hcr => h (any_eq_true.mpr ⟨c, hc, hcr⟩)
  rw [map_congr_left hflat, map_id']

theorem flatChar_ne_cr (c : Char) : flatChar c ≠ '\r' := by
  unfold flatChar
  split
  · decide
  · rename_i h
    simp only [Bool.or_eq_true, decide_eq_true_eq, not_or] at h
    exact h.1

theorem not_cr_pushLine (s : List Char) : '\r' ∉ pushLine s := by
  rw [pushLine_eq_map]
  intro h
  obtain ⟨c, -, hc⟩ := mem_map.mp h
  exact flatChar_ne_cr c hc

variable {c : Char}

theorem flatChar_of_le (h : 0x80 ≤ c.toNat) : flatChar c = c := by
  refine if_neg fun hcr => ?_
  simp only [Bool.or_eq_true, decide_eq_true_eq] at hcr
  obtain rfl | rfl := hcr
  · exact absurd h (by decide)
  · exact absurd h (by decide)

theorem flatChar_lt (h : c.toNat < 0x80) : (flatChar c).toNat < 0x80 := by
  unfold flatChar
  split
  · decide
  · exact h

theorem flatChar_of_isCont {lo hi : ℕ} (hlo : 0x80 ≤ lo) (h : isCont lo hi c) : flatChar c = c := by
  simp only [isCont, and_eq_true, decide_eq_true_eq] at h
  exact flatChar_of_le (by omega)

theorem isUtf8_map_flatChar {s : List Char} (h : isUtf8 s) : isUtf8 (s.map flatChar) := by
  fun_induction isUtf8 s with
  | case1 => rfl
  | case2 b rest hb ih =>
    rw [map_cons, isUtf8.eq_def]
    simp only
    rw [if_pos (flatChar_lt hb)]
    exact ih h
  | case3 => cases h
  | case4 b hb c rest hb2 ih =>
    simp only [and_eq_true] at h
    rw [map_cons, map_cons, flatChar_of_le (by omega),
      flatChar_of_isCont (by decide) h.1, isUtf8.eq_def]
    simp only
    rw [if_neg hb, if_pos hb2, h.1, ih h.2]
    rfl
  | case5 => cases h
  | case6 b hb c hb2 d rest hb3 ih =>
    simp only [and_eq_true] at h
    obtain ⟨⟨hc, hd⟩, hrest⟩ := h
    have hlo : 0x80 ≤ (if b.toNat = 0xE0 then 0xA0 else 0x80) := by split <;> decide
    rw [map_cons, map_cons, map_cons, flatChar_of_le (by omega),
      flatChar_of_isCont hlo hc, flatChar_of_isCont (by decide) hd, isUtf8.eq_def]
    simp only
    rw [if_neg hb, if_neg hb2, if_pos hb3, hc, hd, ih hrest]
    rfl
  | case7 => cases h
  | case8 b hb c hb2 d hb3 e rest ih =>
    simp only [and_eq_true] at h
    obtain ⟨⟨⟨⟨hb4, hc⟩, hd⟩, he⟩, hrest⟩ := h
    have hlo : 0x80 ≤ (if b.toNat = 0xF0 then 0x90 else 0x80) := by split <;> decide
    rw [map_cons, map_cons, map_cons, map_cons, flatChar_of_le (by omega),
      flatChar_of_isCont hlo hc, flatChar_of_isCont (by decide) hd,
      flatChar_of_isCont (by decide) he, isUtf8.eq_def]
    simp only
    rw [if_neg hb, if_neg hb2, if_neg hb3, hc, hd, he, ih hrest]
    simpa using hb4

theorem toText_pushLine {s : String} (h : isUtf8 s.toList) :
    toText (pushLine s.toList) = .ok (String.ofList (pushLine s.toList)) := by
  rw [toText, if_pos (by rw [pushLine_eq_map]; exact isUtf8_map_flatChar h)]

theorem parseInt_intRepr {n : ℤ} (hlo : -2 ^ 63 ≤ n) (hhi : n < 2 ^ 63) :
    parseInt n.repr.toList = .ok n := by
  cases n with
  | ofNat m =>
    have hm : m < 2 ^ 63 := by
      rw [ofNat_eq_natCast] at hhi
      omega
    exact (parseInt_repr m).trans (if_pos hm)
  | negSucc m =>
    have hm : m + 1 ≤ 2 ^ 63 := by omega
    have htext : (negSucc m).repr.toList = '-' :: (m + 1).repr.toList := by
      rw [Int.repr, String.toList_append]
      rfl
    have hutf8 : isUtf8 ('-' :: (m + 1).repr.toList) :=
      isUtf8_of_ascii fun c hc => by
        obtain rfl | hc := mem_cons.mp hc
        · decide
        · exact toNat_lt_of_isDigit (isDigit_of_mem_repr hc)
    have hne : ¬ ((m + 1).repr.toList.isEmpty) := by
      rw [List.isEmpty_iff]
      exact repr_toList_ne_nil _
    rw [htext, parseInt, if_pos hutf8, parseI64, if_neg hne, parseDigits_repr, Option.filter_some,
      if_pos (by simpa using hm)]
    rfl

theorem not_cr_intRepr (n : ℤ) : '\r' ∉ n.repr.toList := by
  cases n with
  | ofNat m => exact not_cr_repr m
  | negSucc m =>
    rw [Int.repr, String.toList_append, mem_append]
    rintro (h | h)
    · exact absurd h (by decide)
    · exact not_cr_repr (m + 1) h

/-! ## What the decoder makes of it -/

variable {text : List Char}

theorem wireNumber_wellFormed (h : '\r' ∉ text) : (wireNumber proto text).WellFormed := by
  cases proto with
  | resp2 => exact .bulk
  | resp3 => exact .line (by decide) h

variable {items : List RespFrame} {tag : Char}

theorem pick_aggregate_wellFormed (htag : tag ∈ ['~', '>'])
    (h : ∀ f ∈ items, f.WellFormed) :
    (RespFrame.aggregate (proto.pick '*' tag) items).WellFormed := by
  have hne : proto.pick '*' tag ≠ '%' := by
    cases proto with
    | resp2 =>
      rw [pick_resp2]
      decide
    | resp3 =>
      rintro rfl
      exact absurd htag (by decide)
  refine .aggregate ?_ (fun hmap => absurd hmap hne) h
  cases proto with
  | resp2 => exact mem_cons_self
  | resp3 =>
    simp only [mem_cons, not_mem_nil, or_false] at htag
    obtain rfl | rfl := htag <;> decide

theorem array_wellFormed (h : ∀ f ∈ items, f.WellFormed) :
    (RespFrame.aggregate '*' items).WellFormed :=
  .aggregate (by decide) (fun hmap => absurd hmap (by decide)) h

variable {P : RespFrame → Prop}

theorem forall_mem_wireAll {items : List Value} :
    (∀ f ∈ wireAll sp proto items, P f) ↔ ∀ v ∈ items, P (v.wire sp proto) := by
  rw [wireAll_eq, forall_mem_map]

variable {pairs : List (Value × Value)}

theorem forall_mem_wirePairs : (∀ f ∈ Value.wirePairs sp proto pairs, P f) ↔
      ∀ kv ∈ pairs, P (kv.1.wire sp proto) ∧ P (kv.2.wire sp proto) := by
  rw [wirePairs_eq, forall_mem_flatMap]
  simp

theorem wire_wellFormed (v : Value) : (v.wire sp proto).WellFormed := by
  induction v using ind with
  | simple s | error s => exact .line (by decide) (not_cr_pushLine _)
  | integer n => exact .line (by decide) (not_cr_intRepr _)
  | boolean b => cases b <;> cases proto <;> exact .line (by decide) (by decide)
  | bulk b =>
    cases b with
    | some data => exact .bulk
    | none =>
      cases proto with
      | resp2 => exact .nullBulk
      | resp3 => exact .line (by decide) (by decide)
  | nullArray =>
    cases proto with
    | resp2 => exact .nullArray
    | resp3 => exact .line (by decide) (by decide)
  | array items ih => exact array_wellFormed (forall_mem_wireAll.mpr ih)
  | null =>
    cases proto with
    | resp2 => exact .nullBulk
    | resp3 => exact .line (by decide) (by decide)
  | double d => exact wireNumber_wellFormed (sp.double_spells d).1
  | humanDouble d => exact wireNumber_wellFormed (sp.human_spells d).1
  | map pairs ihk ihv =>
    refine .aggregate (by cases proto <;> decide) (fun _ => ?_)
      (forall_mem_wirePairs.mpr fun kv hkv => ⟨ihk kv hkv, ihv kv hkv⟩)
    rw [wirePairs_length]
    exact Nat.dvd_mul_left 2 _
  | set items ih | push items ih =>
    exact pick_aggregate_wellFormed (by decide) (forall_mem_wireAll.mpr ih)
  | resp3Nested v ih =>
    cases proto with
    | resp2 => exact ih
    | resp3 => exact array_wellFormed (by simpa using ih)
  | byProto resp2 resp3 ih2 ih3 =>
    cases proto with
    | resp2 => exact ih2
    | resp3 => exact ih3
  | scorePairs pairs =>
    have hpair (ms : String × UInt64) :
        ∀ f ∈ [.bulk ms.1.toList, wireNumber proto (sp.fmtDouble ms.2).toList], f.WellFormed := by
      simpa using ⟨.bulk, wireNumber_wellFormed (sp.double_spells ms.2).1⟩
    refine array_wellFormed (forall_mem_flatMap.mpr fun ms _ => ?_)
    cases proto with
    | resp2 => exact hpair ms
    | resp3 => simpa using array_wellFormed (hpair ms)

def RespFrame.Readable (parseF64 : String → Option UInt64) (room : ℕ) (f : RespFrame) : Prop :=
  ∃ v, f.read parseF64 room = .ok v

variable {room : ℕ}

section

variable {parseF64 : String → Option UInt64}

theorem readable_line_iff (h : ∃ v, readLine parseF64 tag text = .ok v) :
    (RespFrame.line tag text).Readable parseF64 room ↔ 0 < room := by
  cases room with
  | zero => simp [RespFrame.Readable, RespFrame.read]
  | succ room => simpa [RespFrame.Readable, RespFrame.read] using h

variable {limit n : ℕ}

theorem withinLimit_eq_ok {u : Unit} : withinLimit limit n = .ok u ↔ n ≤ limit := by
  unfold withinLimit
  by_cases h : n ≤ limit
  · simp [h]
  · rw [if_neg h]
    refine iff_of_false (fun hok => ?_) h
    split at hok <;> cases hok

theorem withinLimit_of_le (h : n ≤ limit) : withinLimit limit n = .ok () := if_pos h

theorem readable_bulk_iff {data : List Char} :
    (RespFrame.bulk data).Readable parseF64 room ↔ 0 < room ∧ data.length ≤ maxBulkLen := by
  cases room with
  | zero => simp [RespFrame.Readable, RespFrame.read]
  | succ room =>
    rw [RespFrame.Readable, RespFrame.read, ← withinLimit_eq_ok (u := ())]
    cases withinLimit maxBulkLen data.length with
    | ok u => exact iff_of_true ⟨_, rfl⟩ ⟨Nat.succ_pos _, rfl⟩
    | error e => exact iff_of_false (by rintro ⟨_, ⟨⟩⟩) (by rintro ⟨_, ⟨⟩⟩)

variable {α β ε : Type}

theorem exists_bind_eq_ok {x : Except ε α} {f : α → Except ε β} :
    (∃ b, (x >>= f) = .ok b) ↔ ∃ a, x = .ok a ∧ ∃ b, f a = .ok b := by
  cases x with
  | error e => exact iff_of_false nofun nofun
  | ok a => exact ⟨fun h => ⟨a, rfl, h⟩, fun ⟨_, rfl, h⟩ => h⟩

theorem mapM_eq_ok_iff {f : α → Except ε β} {l : List α} :
    (∃ bs, l.mapM f = .ok bs) ↔ ∀ a ∈ l, ∃ b, f a = .ok b := by
  induction l with
  | nil => simpa using ⟨[], rfl⟩
  | cons a l ih =>
    rw [forall_mem_cons, ← ih, mapM_cons]
    simp [exists_bind_eq_ok, pure, Except.pure]

theorem readable_aggregate_iff : (RespFrame.aggregate tag items).Readable parseF64 room ↔
      0 < room ∧ declaredCount tag items.length ≤ maxArrayLen ∧
        ∀ f ∈ items, f.Readable parseF64 (room - 1) := by
  cases room with
  | zero => simp [RespFrame.Readable, RespFrame.read]
  | succ room =>
    have hitems : (∃ vs, items.mapM (RespFrame.read parseF64 room) = .ok vs) ↔
        ∀ f ∈ items, f.Readable parseF64 room := mapM_eq_ok_iff
    rw [Nat.add_sub_cancel, ← hitems, RespFrame.Readable, RespFrame.read]
    simp [exists_bind_eq_ok, withinLimit_eq_ok, pure, Except.pure]

theorem readable_nullBulk_iff : RespFrame.nullBulk.Readable parseF64 room ↔ 0 < room := by
  cases room <;> simp [RespFrame.Readable, RespFrame.read]

theorem readable_nullArray_iff : RespFrame.nullArray.Readable parseF64 room ↔ 0 < room := by
  cases room <;> simp [RespFrame.Readable, RespFrame.read]

theorem readable_null_iff : (RespFrame.line '_' []).Readable parseF64 room ↔ 0 < room :=
  readable_line_iff ⟨.null, rfl⟩

end

theorem readable_wireNumber_iff {fmt : UInt64 → String} (h : Spells sp.parseF64 fmt)
    (d : UInt64) : (wireNumber proto (fmt d).toList).Readable sp.parseF64 room ↔ 0 < room := by
  obtain ⟨-, hlen, d', hread, -⟩ := h d
  cases proto with
  | resp2 =>
    have hle : (fmt d).toList.length ≤ maxBulkLen := by rwa [String.length_toList]
    exact readable_bulk_iff.trans (and_iff_left hle)
  | resp3 => exact readable_line_iff ⟨.double d', by rw [readLine, hread]; rfl⟩

variable {items : List Value}

theorem fitsAll_iff : fitsAll proto items room ↔ ∀ v ∈ items, v.fits proto room := by
  induction items with
  | nil => simp [fitsAll]
  | cons v vs ih => rw [fitsAll, and_eq_true, ih, forall_mem_cons]

theorem fitsPairs_iff : Value.fitsPairs proto pairs room ↔
      ∀ kv ∈ pairs, kv.1.fits proto room ∧ kv.2.fits proto room := by
  induction pairs with
  | nil => simp [fitsPairs]
  | cons kv rest ih =>
    rw [fitsPairs, and_eq_true, and_eq_true, ih, forall_mem_cons]

theorem readable_items_iff (htag : tag ≠ '%')
    (ih : ∀ v ∈ items, ∀ {room}, (v.wire sp proto).Readable sp.parseF64 room ↔ v.fits proto room) :
    (RespFrame.aggregate tag (wireAll sp proto items)).Readable sp.parseF64 room ↔
      (0 < room && items.length ≤ maxArrayLen && fitsAll proto items (room - 1)) := by
  have hall : (∀ v ∈ items, (v.wire sp proto).Readable sp.parseF64 (room - 1)) ↔
      ∀ v ∈ items, v.fits proto (room - 1) :=
    forall₂_congr fun v hv => ih v hv
  rw [readable_aggregate_iff, forall_mem_wireAll, hall, wireAll_length, declaredCount, if_neg htag,
    and_eq_true, and_eq_true, fitsAll_iff, decide_eq_true_iff, decide_eq_true_iff, and_assoc]

variable {v : Value}

theorem readable_wire_iff (h : v.WellTyped) :
    (v.wire sp proto).Readable sp.parseF64 room ↔ v.fits proto room := by
  induction h generalizing room with
  | simple h | error h =>
    rw [wire, fits, decide_eq_true_iff]
    exact readable_line_iff ⟨_, by rw [readLine, toText_pushLine h]; rfl⟩
  | integer hlo hhi =>
    rw [wire, fits, decide_eq_true_iff]
    exact readable_line_iff ⟨_, by rw [readLine, parseInt_intRepr hlo hhi]; rfl⟩
  | @boolean b =>
    rw [fits, decide_eq_true_iff]
    cases b <;> cases proto <;> exact readable_line_iff ⟨_, rfl⟩
  | @bulk b =>
    cases b with
    | none =>
      rw [fits, decide_eq_true_iff]
      cases proto with
      | resp2 => exact readable_nullBulk_iff
      | resp3 => exact readable_null_iff
    | some data =>
      rw [wire, fits, readable_bulk_iff, and_eq_true, decide_eq_true_iff,
        decide_eq_true_iff, String.length_toList]
  | nullArray =>
    rw [fits, decide_eq_true_iff]
    cases proto with
    | resp2 => exact readable_nullArray_iff
    | resp3 => exact readable_null_iff
  | array _ ih =>
    rw [wire, fits]
    exact readable_items_iff (by decide) ih
  | null =>
    rw [fits, decide_eq_true_iff]
    cases proto with
    | resp2 => exact readable_nullBulk_iff
    | resp3 => exact readable_null_iff
  | double =>
    rw [wire, fits, decide_eq_true_iff]
    exact readable_wireNumber_iff sp.double_spells _
  | humanDouble =>
    rw [wire, fits, decide_eq_true_iff]
    exact readable_wireNumber_iff sp.human_spells _
  | @map pairs _ _ ihk ihv =>
    have hall : (∀ kv ∈ pairs, (kv.1.wire sp proto).Readable sp.parseF64 (room - 1) ∧
        (kv.2.wire sp proto).Readable sp.parseF64 (room - 1)) ↔
        ∀ kv ∈ pairs, kv.1.fits proto (room - 1) ∧ kv.2.fits proto (room - 1) :=
      forall₂_congr fun kv hkv => and_congr (ihk kv hkv) (ihv kv hkv)
    have hcount : declaredCount (proto.pick '*' '%') (pairs.length * 2) =
        proto.pick (pairs.length * 2) pairs.length := by
      cases proto <;> simp [declaredCount]
    rw [wire, fits, readable_aggregate_iff, forall_mem_wirePairs, hall,
      wirePairs_length, hcount, and_eq_true, and_eq_true, fitsPairs_iff,
      decide_eq_true_iff, decide_eq_true_iff, and_assoc]
  | set _ ih | push _ ih =>
    rw [wire, fits]
    exact readable_items_iff (by cases proto <;> decide) ih
  | resp3Nested _ ih =>
    rw [wire, fits]
    cases proto with
    | resp2 => exact ih
    | resp3 =>
      rw [pick_resp3, pick_resp3, readable_aggregate_iff, and_eq_true, decide_eq_true_iff, ← ih]
      simp [declaredCount, maxArrayLen]
  | byProto _ _ ih2 ih3 =>
    rw [wire, fits]
    cases proto with
    | resp2 => exact ih2
    | resp3 => exact ih3
  | @scorePairs pairs =>
    have hpair (ms : String × UInt64) (room : ℕ) :
        (∀ f ∈ [.bulk ms.1.toList, wireNumber proto (sp.fmtDouble ms.2).toList],
          f.Readable sp.parseF64 room) ↔ 0 < room ∧ ms.1.length ≤ maxBulkLen := by
      simp only [forall_mem_cons, not_mem_nil, false_implies, implies_true, and_true,
        readable_bulk_iff, readable_wireNumber_iff sp.double_spells, String.length_toList]
      tauto
    rw [wire, fits, readable_aggregate_iff, forall_mem_flatMap, length_flatMap,
      and_eq_true, and_eq_true, decide_eq_true_iff, decide_eq_true_iff, and_assoc, all_eq_true]
    simp only [and_eq_true, decide_eq_true_eq]
    cases proto with
    | resp2 =>
      have hcount : declaredCount '*' (pairs.map fun _ => 2).sum = pairs.length * 2 := by
        simp [declaredCount]
      simp only [pick_resp2, hpair, length_cons, length_nil]
      refine and_congr_right fun hroom => and_congr (by rw [hcount]) (forall₂_congr fun ms _ => ?_)
      omega
    | resp3 =>
      have hcount : declaredCount '*' (pairs.map fun _ => 1).sum = pairs.length := by
        simp [declaredCount]
      have htwo : declaredCount '*' 2 ≤ maxArrayLen := by decide
      simp only [pick_resp3, forall_mem_singleton, readable_aggregate_iff, hpair,
        length_cons, length_nil, htwo, true_and]
      refine and_congr_right fun hroom => and_congr (by rw [hcount]) (forall₂_congr fun ms _ => ?_)
      omega

theorem decodeAt_encodeProto_of_fits (h : v.WellTyped) (hfits : v.fits proto room) (s : List Char) :
    ∃ w, (v.wire sp proto).read sp.parseF64 room = .ok w ∧
      decodeAt sp.parseF64 room (encodeProto sp proto v ++ s) =
        .complete w (encodeProto sp proto v).length := by
  obtain ⟨w, hw⟩ := (readable_wire_iff h).mpr hfits
  refine ⟨w, hw, ?_⟩
  rw [encodeProto_eq, decodeAt_bytes (wire_wellFormed v), hw]
  rfl

theorem decodeAt_encodeProto_of_not_fits (h : v.WellTyped)
    (hfits : v.fits proto room = false) (s : List Char) :
    ∃ e, decodeAt sp.parseF64 room (encodeProto sp proto v ++ s) = .error e := by
  rw [encodeProto_eq, decodeAt_bytes (wire_wellFormed v)]
  cases hread : (v.wire sp proto).read sp.parseF64 room with
  | ok w =>
    have hok := (readable_wire_iff h).mp ⟨w, hread⟩
    exact nomatch hfits.symm.trans hok
  | error e => exact ⟨e, rfl⟩

end

end

/-! ## What a command says about its reply

RESP3 merges what RESP2 keeps apart: which nulls are arrays, which doubles are coordinates, which
pairs stay pairs.  Whoever owes a RESP3 reply to a RESP2 client restores it from the command. -/

section

def commandName (args : Args) : String := (args.headD "").toUpper

/-! ## Nulls -/

def nullIsArray (args : Args) : Bool :=
  ["BLPOP", "BRPOP", "BZPOPMIN", "BZPOPMAX", "LMPOP", "ZMPOP", "BLMPOP", "BZMPOP", "XREAD",
      "XREADGROUP", "XRANGE", "XREVRANGE"].contains (commandName args)
    || ["LPOP", "RPOP"].contains (commandName args) && args.length == 3
    || ["ZRANK", "ZREVRANK"].contains (commandName args) && args.length == 4

def groupNulls (args : Args) : Bool :=
  commandName args == "XREADGROUP" || commandName args == "XPENDING" && args.length == 3

def restoreNullArray : Value → Value
  | .null => .array none
  | .bulk none => .array none
  | v => v

def restoreEntry : Value → Value
  | .array (some [id, fields]) => .array (some [id, restoreNullArray fields])
  | v => v

def restoreEntries : Value → Value
  | .array (some items) => .array (some (items.map restoreEntry))
  | v => v

def groupNullsReply : Value → Value
  | .map streams => .map (streams.map fun ke => (ke.1, restoreEntries ke.2))
  | .array (some [.integer n, first, last, consumers]) =>
    .array (some [.integer n, first, last, restoreNullArray consumers])
  | .array (some pairs) => .array (some (pairs.map fun p => match p with
      | .array (some [k, e]) => .array (some [k, restoreEntries e])
      | other => other))
  | v => v

/-! ## Streams -/

def xreadResp2 : Value → Value
  | .map pairs => .array (some (pairs.map fun ke => .array (some [ke.1, ke.2])))
  | v => v

/-! ## JSON -/

def resp3NestsReply (args : Args) : Bool := commandName args == "JSON.TYPE"

def resp3DiffersInKind (args : Args) : Bool :=
  commandName args == "JSON.NUMINCRBY" || commandName args == "JSON.NUMMULTBY"

def jsonFixedPath (path : String) : String :=
  if startsWith path "$" then path
  else if path == "." then "$"
  else if startsWith path "." then "$" ++ path
  else "$." ++ path

def notANumber (path : String) : String :=
  "ERR Path '" ++ jsonFixedPath path ++ "' does not exist or does not contains a number"

/-- Numbers with a fraction as JSON writes them: the same text for numbers that are spelled the
same, and a number's. -/
structure JsonSpelling (sp : Spelling) where
  fmt : UInt64 → String
  fmt_eq : ∀ {d d'}, sp.fmtDouble d = sp.fmtDouble d' → fmt d = fmt d'
  fmt_free : ∀ d, Free '[' (fmt d)

section

variable {sp : Spelling} (json : JsonSpelling sp)

def renderJson : Value → String
  | .integer n => n.repr
  | .double d => json.fmt d
  | _ => "null"

/-- The RESP2 reply, rebuilt from the array of matches: JSON text for a path in the `$` dialect and
the value itself for a legacy one. -/
def jsonNumincrbyResp2 (v : Value) (path : String) : Value :=
  match v with
  | .array (some items) =>
    if startsWith path "$" then
      .bulk (some ("[" ++ joinWith ',' (items.map (renderJson json)) ++ "]"))
    else
      match items with
      | .integer n :: _ => .bulk (some (renderJson json (.integer n)))
      | .double d :: _ => .bulk (some (renderJson json (.double d)))
      | _ => .error (notANumber path)
  | other => other

end

/-! ## Pairs -/

def hrandfieldWithvalues (args : Args) : Bool :=
  args.length == 4 && commandName args == "HRANDFIELD" && saysWord (args.getD 3 "") "WITHVALUES"

def flattenPairs : Value → Value
  | .array (some items) => .array (some (items.flatMap fun pair => match pair with
      | .array (some p) => p
      | other => [other]))
  | v => v

def zmpopCommand (args : Args) : Bool := commandName args == "ZMPOP" || commandName args == "BZMPOP"

def zmpopNested : Value → Value
  | .array (some [key, .scorePairs pairs]) =>
    .array (some [key, .array (some (pairs.map fun ms =>
      .array (some [.bulk (some ms.1), .double ms.2])))])
  | v => v

def bfInfoField (args : Args) : Bool := args.length == 3 && commandName args == "BF.INFO"

def bfInfoFieldResp2 : Value → Value
  | .map [(_, one)] => .array (some [one])
  | v => v

/-! ## Coordinates -/

def geoCoordinates (args : Args) : Bool :=
  ["GEOPOS", "GEORADIUS", "GEORADIUS_RO", "GEORADIUSBYMEMBER", "GEORADIUSBYMEMBER_RO",
    "GEOSEARCH"].contains (commandName args)

mutual

def geoInner : Value → Value
  | .double d => .humanDouble d
  | .null => .array none
  | .bulk none => .array none
  | .array (some items) => .array (some (geoInnerAll items))
  | v => v

@[inherit_doc geoInner]
def geoInnerAll : List Value → List Value
  | [] => []
  | v :: vs => geoInner v :: geoInnerAll vs

end

def geoReply : Value → Value
  | .array (some items) => .array (some (geoInnerAll items))
  | v => v

theorem geoInnerAll_eq (items : List Value) : geoInnerAll items = items.map geoInner := by
  induction items with
  | nil => rfl
  | cons v vs ih => rw [geoInnerAll, ih, List.map_cons]

end

end Flint
