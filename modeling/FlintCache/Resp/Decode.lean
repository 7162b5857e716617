import FlintCache.Lib.Stream
import FlintCache.Resp.Commands

/-!
# Resp/Decode — frames read off the wire

The decoder of flint-resp: one frame from the front of what has arrived, with limits on the depth of
nesting and on the lengths a header may declare.  On the wire, as in the texts of a value, a byte is
the character of its code.  How a number with a fraction is read is left open.
-/

namespace Flint

section

open List Stable

inductive ProtocolError
  | unknownType (c : Char)
  | badInteger
  | badLength
  | missingCrlf
  | tooDeep
  deriving DecidableEq, Repr

def maxDepth : ℕ := 32

def maxBulkLen : ℕ := 512 * 1024 * 1024

def maxArrayLen : ℕ := 1024 * 1024

/-! ## Lines -/

def findCrlf : List Char → Option ℕ
  | c :: d :: rest => if c = '\r' ∧ d = '\n' then some 0 else (findCrlf (d :: rest)).map (· + 1)
  | _ => none

def line : Decoder Char ProtocolError (List Char) := fun input =>
  match findCrlf input with
  | some i => .complete (input.take i) (i + 2)
  | none => .needMore

/-- A continuation byte of UTF-8, at least `lo` and at most `hi`. -/
def isCont (lo hi : ℕ) (c : Char) : Bool := lo ≤ c.toNat && c.toNat ≤ hi

/-- Well-formed UTF-8: no overlong form, no surrogate, nothing past U+10FFFF. -/
def isUtf8 : List Char → Bool
  | [] => true
  | b :: rest =>
    if b.toNat < 0x80 then isUtf8 rest
    else match rest with
      | [] => false
      | c :: rest =>
        if 0xC2 ≤ b.toNat ∧ b.toNat ≤ 0xDF then isCont 0x80 0xBF c && isUtf8 rest
        else match rest with
          | [] => false
          | d :: rest =>
            if 0xE0 ≤ b.toNat ∧ b.toNat ≤ 0xEF then
              isCont (if b.toNat = 0xE0 then 0xA0 else 0x80)
                  (if b.toNat = 0xED then 0x9F else 0xBF) c
                && isCont 0x80 0xBF d && isUtf8 rest
            else match rest with
              | [] => false
              | e :: rest =>
                0xF0 ≤ b.toNat && b.toNat ≤ 0xF4
                  && isCont (if b.toNat = 0xF0 then 0x90 else 0x80)
                    (if b.toNat = 0xF4 then 0x8F else 0xBF) c
                  && isCont 0x80 0xBF d && isCont 0x80 0xBF e && isUtf8 rest

def parseI64 : List Char → Option ℤ
  | '-' :: digits =>
    if digits.isEmpty then none
    else ((parseDigits 0 digits).filter (· ≤ 2 ^ 63)).map fun n => -(n : ℤ)
  | '+' :: digits =>
    if digits.isEmpty then none
    else ((parseDigits 0 digits).filter (· < 2 ^ 63)).map fun n => (n : ℤ)
  | digits =>
    if digits.isEmpty then none
    else ((parseDigits 0 digits).filter (· < 2 ^ 63)).map fun n => (n : ℤ)

def toText (l : List Char) : Except ProtocolError String :=
  if isUtf8 l then .ok (String.ofList l) else .error .badInteger

def parseInt (l : List Char) : Except ProtocolError ℤ :=
  if isUtf8 l then
    match parseI64 l with
    | some n => .ok n
    | none => .error .badInteger
  else .error .badInteger

def checkLen (limit : ℕ) (len : ℤ) : Except ProtocolError ℕ :=
  if len < 0 then .error .badLength
  else if limit < len.toNat then .error .badLength
  else .ok len.toNat

/-! ## Aggregates -/

def pairUp {α : Type} : List α → List (α × α)
  | k :: v :: rest => (k, v) :: pairUp rest
  | _ => []

def Value.asScorePair : Value → Option (String × UInt64)
  | .array (some [.bulk (some m), .double s]) => some (m, s)
  | _ => none

/-- An array; one whose every element is a member with its score is a scored result. -/
def scoredOrArray (items : List Value) : Value :=
  if items ≠ [] ∧ items.all (·.asScorePair.isSome) then
    .scorePairs (items.filterMap (·.asScorePair))
  else .array (some items)

def aggregate (type : Char) (items : List Value) : Value :=
  match type with
  | '~' => .set items
  | '>' => .push items
  | '%' => .map (pairUp items)
  | _ => scoredOrArray items

def infinity : UInt64 := 0x7FF0000000000000

@[inherit_doc infinity]
def negInfinity : UInt64 := 0xFFF0000000000000

/-! ## Frames -/

section

variable (parseF64 : String → Option UInt64)

def parseDouble (l : List Char) : Except ProtocolError UInt64 :=
  if isUtf8 l then
    match String.ofList l with
    | "inf" => .ok infinity
    | "-inf" => .ok negInfinity
    | other =>
      match parseF64 other with
      | some d => .ok d
      | none => .error .badInteger
  else .error .badInteger

open Decoder in
def decodeBulk : Decoder Char ProtocolError Value := do
  let l ← line
  let len ← ofExcept (parseInt l)
  if len = -1 then return .bulk none
  else
    let len ← ofExcept (checkLen maxBulkLen len)
    let data ← take (len + 2)
    if data.drop len = ['\r', '\n'] then return .bulk (some (String.ofList (data.take len)))
    else
      fail .missingCrlf

open Decoder in
/-- An aggregate after its type byte.  A map has two elements for each it declares. -/
def decodeAggregate (element : Decoder Char ProtocolError Value) (type : Char) :
    Decoder Char ProtocolError Value := do
  let l ← line
  let len ← ofExcept (parseInt l)
  if len = -1 then return .array none
  else
    let len ← ofExcept (checkLen maxArrayLen len)
    let items ← element.times (len * if type = '%' then 2 else 1)
    return aggregate type items

open Decoder in
def decodeBody (element : Decoder Char ProtocolError Value) (type : Char) :
    Decoder Char ProtocolError Value :=
  match type with
  | '+' => do
    let l ← line
    let s ← ofExcept (toText l)
    return .simple s
  | '-' => do
    let l ← line
    let s ← ofExcept (toText l)
    return .error s
  | ':' => do
    let l ← line
    let n ← ofExcept (parseInt l)
    return .integer n
  | '$' => decodeBulk
  | '*' => decodeAggregate element '*'
  | '~' => decodeAggregate element '~'
  | '%' => decodeAggregate element '%'
  | '>' => decodeAggregate element '>'
  | '_' => do
    let l ← line
    -- A null carries nothing.
    if l = [] then return .null else fail .missingCrlf
  | ',' => do
    let l ← line
    let d ← ofExcept (parseDouble parseF64 l)
    return .double d
  | '#' => do
    let l ← line
    if l = ['t'] then return .boolean true
    else if l = ['f'] then return .boolean false
    else fail .badInteger
  | other => fail (.unknownType other)

/-- A frame with `room` levels of nesting left, its own among them. -/
def decodeAt : ℕ → Decoder Char ProtocolError Value
  | 0 => Decoder.fail .tooDeep
  | room + 1 => do
    let type ← Decoder.next
    decodeBody parseF64 (decodeAt room) type

def decode : Decoder Char ProtocolError Value := decodeAt parseF64 (maxDepth + 1)

end

/-! ## Stability -/

variable {b : List Char}

theorem findCrlf_eq_some {i : ℕ} (h : findCrlf b = some i) :
    i + 2 ≤ b.length ∧ (∀ s, findCrlf (b.take (i + 2) ++ s) = some i) ∧
      ∀ k < i + 2, findCrlf (b.take k) = none := by
  induction b generalizing i with
  | nil => cases h
  | cons c b ih =>
    cases b with
    | nil => cases h
    | cons d rest =>
      rw [findCrlf] at h
      by_cases hcd : c = '\r' ∧ d = '\n'
      · rw [if_pos hcd] at h
        cases h
        refine ⟨by simp, fun s => ?_, fun k hk => ?_⟩
        · simp [findCrlf, hcd]
        · obtain rfl | rfl : k = 0 ∨ k = 1 := by omega
          · rfl
          · rfl
      rw [if_neg hcd] at h
      obtain ⟨j, hj, rfl⟩ := Option.map_eq_some_iff.mp h
      obtain ⟨hle, hlocal, hshort⟩ := ih hj
      refine ⟨Nat.succ_le_succ hle, fun s => ?_, fun k hk => ?_⟩
      · have hrest := hlocal s
        rw [take_succ_cons, cons_append] at hrest
        rw [take_succ_cons, take_succ_cons, cons_append, cons_append, findCrlf, if_neg hcd, hrest]
        rfl
      match k, hk with
      | 0, _ => rfl
      | 1, _ => rfl
      | k + 2, hk =>
        have hrest := hshort (k + 1) (by omega)
        rw [take_succ_cons] at hrest
        rw [take_succ_cons, take_succ_cons, findCrlf, if_neg hcd, hrest]
        rfl

theorem line_eq_complete {b l : List Char} {n : ℕ} (h : line b = .complete l n) :
    ∃ i, findCrlf b = some i ∧ l = b.take i ∧ n = i + 2 := by
  unfold line at h
  split at h
  · rename_i i hi
    cases h
    exact ⟨i, hi, rfl, rfl⟩
  · cases h

theorem line_stable : Stable line where
  le_length h := by
    obtain ⟨i, hi, rfl, rfl⟩ := line_eq_complete h
    exact (findCrlf_eq_some hi).1
  local_ {b l n} h s := by
    obtain ⟨i, hi, rfl, rfl⟩ := line_eq_complete h
    obtain ⟨hle, hlocal, -⟩ := findCrlf_eq_some hi
    have hlen : i ≤ (b.take (i + 2)).length := by
      rw [length_take]
      omega
    rw [line, hlocal s]
    simp only
    rw [take_append_of_le_length hlen, take_take, Nat.min_eq_left (Nat.le_add_right i 2)]
  short {b l n} h k hk := by
    obtain ⟨i, hi, rfl, rfl⟩ := line_eq_complete h
    rw [line, (findCrlf_eq_some hi).2.2 k hk]
  error_append {b e} h := by
    unfold line at h
    split at h <;> cases h

theorem decodeBulk_stable : Stable decodeBulk :=
  line_stable.bind fun _ => (ofExcept _).bind fun _ =>
    .ite (.pure _) ((Stable.ofExcept _).bind fun _ => (Stable.take _).bind fun _ =>
      .ite (.pure _) (.fail _))

variable {parseF64 : String → Option UInt64} {element : Decoder Char ProtocolError Value}

theorem decodeAggregate_stable (h : Stable element)
    (type : Char) : Stable (decodeAggregate element type) :=
  line_stable.bind fun _ => (ofExcept _).bind fun _ =>
    .ite (.pure _) ((ofExcept _).bind fun _ => (h.times _).bind fun _ => .pure _)

theorem line_ofExcept_stable {α : Type} (read : List Char → Except ProtocolError α)
    (value : α → Value) : Stable (line >>= fun l => Decoder.ofExcept (read l) >>= fun a =>
      (pure (value a) : Decoder Char ProtocolError Value)) :=
  line_stable.bind fun l => (ofExcept (read l)).bind fun a => .pure (value a)

theorem decodeBody_stable (h : Stable element)
    (type : Char) : Stable (decodeBody parseF64 element type) := by
  unfold decodeBody
  split
  · exact line_ofExcept_stable toText .simple
  · exact line_ofExcept_stable toText .error
  · exact line_ofExcept_stable parseInt .integer
  · exact decodeBulk_stable
  · exact decodeAggregate_stable h '*'
  · exact decodeAggregate_stable h '~'
  · exact decodeAggregate_stable h '%'
  · exact decodeAggregate_stable h '>'
  · exact line_stable.bind fun _ => .ite (.pure _) (.fail _)
  · exact line_ofExcept_stable (parseDouble parseF64) .double
  · exact line_stable.bind fun _ => .ite (.pure _) (.ite (.pure _) (.fail _))
  · exact .fail _

theorem decodeAt_stable : ∀ room, Stable (decodeAt parseF64 room)
  | 0 => .fail _
  | room + 1 => next.bind fun type => decodeBody_stable (decodeAt_stable room) type

theorem decodeAt_consumes {room : ℕ} {v : Value} {n : ℕ}
    (h : decodeAt parseF64 room b = .complete v n) : 0 < n := by
  cases room with
  | zero => cases h
  | succ room =>
    obtain ⟨c, m, k, hc, -, rfl⟩ := Decoder.bind_eq_complete h
    cases b with
    | nil => cases hc
    | cons x b =>
      cases hc
      omega

def respFramer (parseF64 : String → Option UInt64) : Framer Char ProtocolError Value where
  decode := decode parseF64
  stable := decodeAt_stable _
  consumes := decodeAt_consumes

/-- **Framing.**  A complete frame lies within the input, stays the same as more arrives, and its
proper beginnings ask for more; a malformed one stays malformed; and two ways of cutting one stream
into reads yield the same values and the same ending. -/
theorem resp_framing (parseF64 : String → Option UInt64) :
    (∀ b s v n, decode parseF64 b = .complete v n →
      n ≤ b.length ∧ decode parseF64 (b ++ s) = .complete v n ∧
        ∀ k < n, decode parseF64 (b.take k) = .needMore) ∧
    (∀ b s e, decode parseF64 b = .error e → decode parseF64 (b ++ s) = .error e) ∧
    ∀ reads reads' : List (Chunk Char), Framer.stream reads = Framer.stream reads' →
      (respFramer parseF64).readLoop [] reads = (respFramer parseF64).readLoop [] reads' := by
  have hstable : Stable (decode parseF64) := decodeAt_stable _
  refine ⟨fun b s v n h => ⟨hstable.le_length h, hstable.append h s, hstable.short h⟩,
    fun b s e h => hstable.error_append h s, fun reads reads' h => ?_⟩
  rw [Framer.readLoop_eq_drain, Framer.readLoop_eq_drain, h]

end

/-! ## Frames as trees

Lines, bulk strings, and aggregates of further frames.  **The decoder reads the bytes of a tree as
it reads the tree**, consuming exactly them, or fails as the tree does (`decodeAt_bytes`). -/

section

open List Nat
open Decoder (after bind_of_complete bind_of_error times)

/-- A frame of the protocol. -/
inductive RespFrame
  | line (tag : Char) (text : List Char)
  | bulk (data : List Char)
  | nullBulk
  | nullArray
  | aggregate (tag : Char) (items : List RespFrame)

def crlf : List Char := ['\r', '\n']

def declaredCount (tag : Char) (n : ℕ) : ℕ := if tag = '%' then n / 2 else n

mutual

def RespFrame.bytes : RespFrame → List Char
  | .line tag text => tag :: (text ++ crlf)
  | .bulk data => '$' :: (data.length.repr.toList ++ crlf ++ (data ++ crlf))
  | .nullBulk => '$' :: (['-', '1'] ++ crlf)
  | .nullArray => '*' :: (['-', '1'] ++ crlf)
  | .aggregate tag items =>
    tag :: ((declaredCount tag items.length).repr.toList ++ crlf ++ RespFrame.bytesAll items)

def RespFrame.bytesAll : List RespFrame → List Char
  | [] => []
  | f :: fs => f.bytes ++ RespFrame.bytesAll fs

end

/-- Frames as an encoder makes them: a line is a line, and an aggregate is of its type. -/
inductive RespFrame.WellFormed : RespFrame → Prop
  | line {tag : Char} {text : List Char} (htag : tag ∈ ['+', '-', ':', '_', ',', '#'])
    (htext : '\r' ∉ text) : WellFormed (.line tag text)
  | bulk {data : List Char} : WellFormed (.bulk data)
  | nullBulk : WellFormed .nullBulk
  | nullArray : WellFormed .nullArray
  | aggregate {tag : Char} {items : List RespFrame} (htag : tag ∈ ['*', '~', '%', '>'])
    (heven : tag = '%' → 2 ∣ items.length) (hitems : ∀ f ∈ items, WellFormed f) :
    WellFormed (.aggregate tag items)

/-! ## Reading a tree -/

/-- A length held against its limit; one past `i64` is no integer to begin with. -/
def withinLimit (limit n : ℕ) : Except ProtocolError Unit :=
  if n ≤ limit then .ok ()
  else if n < 2 ^ 63 then .error .badLength
  else .error .badInteger

section

variable (parseF64 : String → Option UInt64)

def readLine (tag : Char) (text : List Char) : Except ProtocolError Value :=
  match tag with
  | '+' => (toText text).map .simple
  | '-' => (toText text).map .error
  | ':' => (parseInt text).map .integer
  | '_' => if text = [] then .ok .null else .error .missingCrlf
  | ',' => (parseDouble parseF64 text).map .double
  | '#' =>
    if text = ['t'] then .ok (.boolean true)
    else if text = ['f'] then .ok (.boolean false)
    else .error .badInteger
  | other => .error (.unknownType other)

/-- What the decoder makes of a frame with `room` levels left. -/
def RespFrame.read : ℕ → RespFrame → Except ProtocolError Value
  | 0, _ => .error .tooDeep
  | _ + 1, .line tag text => readLine parseF64 tag text
  | _ + 1, .bulk data => (withinLimit maxBulkLen data.length).map fun _ =>
    .bulk (some (String.ofList data))
  | _ + 1, .nullBulk => .ok (.bulk none)
  | _ + 1, .nullArray => .ok (.array none)
  | room + 1, .aggregate tag items => do
    withinLimit maxArrayLen (declaredCount tag items.length)
    let values ← items.mapM (RespFrame.read room)
    return Flint.aggregate tag values

end

def Progress.ofExcept {ε α : Type} (n : ℕ) : Except ε α → Progress ε α
  | .ok a => .complete a n
  | .error e => .error e

/-! ## The texts of numbers -/

variable {l : List Char}

theorem isUtf8_of_ascii (h : ∀ c ∈ l, c.toNat < 0x80) : isUtf8 l := by
  induction l with
  | nil => rfl
  | cons c l ih =>
    rw [isUtf8.eq_def]
    simp only
    rw [if_pos (h c mem_cons_self)]
    exact ih fun d hd => h d (mem_cons_of_mem _ hd)

theorem isUtf8_of_all (h : (l.all fun c => decide (c.toNat < 0x80))) : isUtf8 l :=
  isUtf8_of_ascii fun c hc => of_decide_eq_true (all_eq_true.mp h c hc)

theorem toNat_lt_of_isDigit {c : Char} (h : c.isDigit) : c.toNat < 0x80 := by
  have hle : c.toNat ≤ 57 := by
    simp only [Char.isDigit, Bool.and_eq_true, decide_eq_true_eq] at h
    exact UInt32.le_iff_toNat_le.mp h.2
  omega

theorem isUtf8_repr (n : ℕ) : isUtf8 n.repr.toList :=
  isUtf8_of_ascii fun _ hc => toNat_lt_of_isDigit (isDigit_of_mem_repr hc)

theorem parseDigits_repr (n : ℕ) : parseDigits 0 n.repr.toList = some n := by
  rw [parseDigits_of_isDigit fun d hd => isDigit_of_mem_repr hd, toList_repr,
    ofDigitChars_ten_toDigits]

theorem repr_toList_ne_nil (n : ℕ) : n.repr.toList ≠ [] := by
  rw [toList_repr]
  exact toDigits_ne_nil

theorem parseI64_of_isDigit (hne : l ≠ []) (h : ∀ c ∈ l, c.isDigit) :
    parseI64 l = ((parseDigits 0 l).filter (· < 2 ^ 63)).map fun n => (n : ℤ) := by
  unfold parseI64
  split
  · exact absurd (h '-' mem_cons_self) (by decide)
  · exact absurd (h '+' mem_cons_self) (by decide)
  · rw [if_neg (by simpa using hne)]

theorem parseI64_repr (n : ℕ) :
    parseI64 n.repr.toList = if n < 2 ^ 63 then some (n : ℤ) else none := by
  rw [parseI64_of_isDigit (repr_toList_ne_nil n) fun c hc => isDigit_of_mem_repr hc,
    parseDigits_repr]
  by_cases h : n < 2 ^ 63
  · rw [if_pos h, Option.filter_some, if_pos (by simpa using h)]
    rfl
  · rw [if_neg h, Option.filter_some, if_neg (by simpa using h)]
    rfl

theorem parseInt_repr (n : ℕ) :
    parseInt n.repr.toList = if n < 2 ^ 63 then .ok (n : ℤ) else .error .badInteger := by
  rw [parseInt, if_pos (isUtf8_repr n), parseI64_repr]
  by_cases h : n < 2 ^ 63
  · simp only [if_pos h]
  · simp only [if_neg h]

/-! ## Decoding what was spelled -/

open RespFrame

open Progress

section

variable {parseF64 : String → Option UInt64}

theorem findCrlf_append (h : '\r' ∉ l) (s : List Char) :
    findCrlf (l ++ crlf ++ s) = some l.length := by
  induction l with
  | nil => rfl
  | cons c l ih =>
    have hc : c ≠ '\r' := fun hc => h (hc ▸ mem_cons_self)
    have hrest := ih fun hmem => h (mem_cons_of_mem _ hmem)
    obtain ⟨d, rest, hd⟩ : ∃ d rest, l ++ crlf ++ s = d :: rest := by
      cases l with
      | _ => exact ⟨_, _, rfl⟩
    rw [cons_append, cons_append, hd, findCrlf, if_neg fun hcd => hc hcd.1, ← hd, hrest]
    rfl

theorem line_append (h : '\r' ∉ l) (s : List Char) :
    line (l ++ crlf ++ s) = .complete l (l.length + 2) := by
  rw [line, findCrlf_append h s]
  simp only
  rw [append_assoc, take_left' rfl]

variable {α : Type}

theorem line_bind (h : '\r' ∉ l) (s : List Char) (f : List Char → Decoder Char ProtocolError α) :
    (line >>= f) (l ++ crlf ++ s) = after (l.length + 2) (f l s) := by
  rw [bind_of_complete (line_append h s), drop_left' (by simp [crlf])]

theorem after_ofExcept (m n : ℕ) (r : Except ProtocolError α) :
    after m (ofExcept n r) = ofExcept (m + n) r := by
  cases r with
  | _ => rfl

theorem ofExcept_bind {α β : Type} (r : Except ProtocolError α)
    (f : α → Decoder Char ProtocolError β) (s : List Char) :
    (Decoder.ofExcept r >>= f) s = match r with
      | .ok a => f a s
      | .error e => .error e := by
  cases r with
  | ok a =>
    show after 0 (f a (s.drop 0)) = f a s
    rw [drop_zero]
    cases f a s with
    | complete b n => exact congrArg _ (zero_add n)
    | _ => rfl
  | error e => rfl

theorem ofExcept_len_bind {limit : ℕ} (hlimit : limit < 2 ^ 63) (n : ℕ)
    (none : Decoder Char ProtocolError α) (f : ℕ → Decoder Char ProtocolError α) (s : List Char) :
    (Decoder.ofExcept (parseInt n.repr.toList) >>= fun len =>
      if len = -1 then none else Decoder.ofExcept (checkLen limit len) >>= f) s =
      match withinLimit limit n with
      | .ok _ => f n s
      | .error e => .error e := by
  rw [ofExcept_bind, parseInt_repr]
  by_cases h : n < 2 ^ 63
  · have hneg : ¬ ((n : ℤ) = -1) := by omega
    have hcheck : checkLen limit (n : ℤ) = if limit < n then .error .badLength else .ok n := by
      rw [checkLen, if_neg (by omega), Int.toNat_natCast]
    simp only [if_pos h, if_neg hneg]
    rw [ofExcept_bind, hcheck]
    by_cases hle : n ≤ limit
    · simp only [withinLimit, if_pos hle, if_neg (Nat.not_lt.mpr hle)]
    · simp only [withinLimit, if_neg hle, if_pos h, if_pos (Nat.lt_of_not_le hle)]
  · have hle : ¬ n ≤ limit := by omega
    simp only [withinLimit, if_neg h, if_neg hle]

theorem not_cr_repr (n : ℕ) : '\r' ∉ n.repr.toList := free_repr (by decide) n

theorem decodeBulk_bytes (data s : List Char) :
    decodeBulk (data.length.repr.toList ++ crlf ++ (data ++ crlf ++ s)) =
      ofExcept (data.length.repr.toList.length + 2 + (data.length + 2))
        ((withinLimit maxBulkLen data.length).map fun _ => .bulk (some (String.ofList data))) := by
  have hdata : (Decoder.take (data.length + 2) : Decoder Char ProtocolError (List Char))
      (data ++ crlf ++ s) = .complete (data ++ crlf) (data.length + 2) := by
    have hlen : (data ++ crlf).length = data.length + 2 := by simp [crlf]
    rw [Decoder.take, if_neg (by rw [length_append, hlen]; omega), take_left' hlen]
  have hdrop : (data ++ crlf).drop data.length = ['\r', '\n'] := drop_left' rfl
  rw [decodeBulk, line_bind (not_cr_repr _), ofExcept_len_bind (by decide)]
  cases withinLimit maxBulkLen data.length with
  | error e => rfl
  | ok _ =>
    simp only
    rw [bind_of_complete hdata, if_pos hdrop, take_left' rfl]
    rfl

variable {element : Decoder Char ProtocolError Value} {read : RespFrame →
    Except ProtocolError Value} {items : List RespFrame}

theorem times_bytesAll
    (h : ∀ f ∈ items, ∀ s, element (f.bytes ++ s) = ofExcept f.bytes.length (read f))
    (s : List Char) : element.times items.length (bytesAll items ++ s) =
      ofExcept (bytesAll items).length (items.mapM read) := by
  induction items with
  | nil => rfl
  | cons f fs ih =>
    have hf := h f mem_cons_self (bytesAll fs ++ s)
    have hfs := ih fun g hg => h g (mem_cons_of_mem _ hg)
    rw [length_cons, times, bytesAll, append_assoc, mapM_cons]
    cases hr : read f with
    | error e =>
      rw [hr] at hf
      rw [bind_of_error hf]
      rfl
    | ok v =>
      rw [hr] at hf
      rw [bind_of_complete hf, drop_left' rfl]
      cases hrs : fs.mapM read with
      | error e =>
        rw [hrs] at hfs
        rw [bind_of_error hfs]
        rfl
      | ok vs =>
        rw [hrs] at hfs
        rw [bind_of_complete hfs, length_append]
        rfl

variable {tag : Char}

theorem declaredCount_mul {n : ℕ} (h : tag = '%' → 2 ∣ n) :
    declaredCount tag n * (if tag = '%' then 2 else 1) = n := by
  unfold declaredCount
  by_cases htag : tag = '%'
  · rw [if_pos htag, if_pos htag]
    exact Nat.div_mul_cancel (h htag)
  · rw [if_neg htag, if_neg htag, mul_one]

theorem decodeAggregate_bytes (heven : tag = '%' → 2 ∣ items.length)
    (h : ∀ f ∈ items, ∀ s, element (f.bytes ++ s) = ofExcept f.bytes.length (read f))
    (s : List Char) : decodeAggregate element tag
        ((declaredCount tag items.length).repr.toList ++ crlf ++ (bytesAll items ++ s)) =
      ofExcept ((declaredCount tag items.length).repr.toList.length + 2
          + (bytesAll items).length) (do
        withinLimit maxArrayLen (declaredCount tag items.length) let values ← items.mapM read
        return Flint.aggregate tag values) := by
  rw [decodeAggregate, line_bind (not_cr_repr _), ofExcept_len_bind (by decide),
    declaredCount_mul heven]
  cases withinLimit maxArrayLen (declaredCount tag items.length) with
  | error e => rfl
  | ok _ =>
    have htimes := times_bytesAll h s
    simp only
    cases hr : items.mapM read with
    | error e =>
      rw [hr] at htimes
      rw [bind_of_error htimes]
      rfl
    | ok vs =>
      rw [hr] at htimes
      rw [bind_of_complete htimes]
      rfl

theorem line_ofExcept_append (read : List Char → Except ProtocolError α)
    (value : α → Value) (h : '\r' ∉ l) (s : List Char) :
    (line >>= fun l => Decoder.ofExcept (read l) >>= fun a =>
        (pure (value a) : Decoder Char ProtocolError Value)) (l ++ crlf ++ s) =
      ofExcept (l.length + 2) ((read l).map value) := by
  rw [line_bind h, ofExcept_bind]
  cases read l with
  | _ => rfl

theorem decodeBody_line
    {text : List Char} (htag : tag ∈ ['+', '-', ':', '_', ',', '#']) (htext : '\r' ∉ text)
    (s : List Char) : decodeBody parseF64 element tag (text ++ crlf ++ s) =
      ofExcept (text.length + 2) (readLine parseF64 tag text) := by
  simp only [mem_cons, not_mem_nil, or_false] at htag
  obtain rfl | rfl | rfl | rfl | rfl | rfl := htag
  · exact line_ofExcept_append toText .simple htext s
  · exact line_ofExcept_append toText .error htext s
  · exact line_ofExcept_append parseInt .integer htext s
  · show (line >>= _) _ = _
    rw [line_bind htext]
    by_cases h : text = []
    · rw [if_pos h, readLine, if_pos h]
      rfl
    · rw [if_neg h, readLine, if_neg h]
      rfl
  · exact line_ofExcept_append (parseDouble parseF64) .double htext s
  show (line >>= _) _ = _
  rw [line_bind htext]
  by_cases ht : text = ['t']
  · rw [if_pos ht, readLine, if_pos ht]
    rfl
  by_cases hf : text = ['f']
  · rw [if_neg ht, if_pos hf, readLine, if_neg ht, if_pos hf]
    rfl
  · rw [if_neg ht, if_neg hf, readLine, if_neg ht, if_neg hf]
    rfl

theorem decodeBody_aggregate (h : tag ∈ ['*', '~', '%', '>']) :
    decodeBody parseF64 element tag = decodeAggregate element tag := by
  simp only [mem_cons, not_mem_nil, or_false] at h
  obtain rfl | rfl | rfl | rfl := h <;> rfl

theorem decodeAt_bytes {f : RespFrame} (hf : f.WellFormed) (room : ℕ) (s : List Char) :
    decodeAt parseF64 room (f.bytes ++ s) = ofExcept f.bytes.length (f.read parseF64 room) := by
  -- By induction on the room left, which each level of the tree takes one of.
  induction room generalizing f s with
  | zero => rfl
  | succ room ih =>
    have hnext (c : Char) (rest : List Char) : decodeAt parseF64 (room + 1) (c :: rest) =
        after 1 (decodeBody parseF64 (decodeAt parseF64 room) c rest) := rfl
    cases hf with
    | @line tag text htag htext =>
      rw [bytes, cons_append, hnext, decodeBody_line htag htext, after_ofExcept]
      simp only [RespFrame.read, length_cons, length_append]
      rw [add_comm]
      rfl
    | @bulk data =>
      have hbody := decodeBulk_bytes data s
      rw [bytes, cons_append, hnext, append_assoc]
      rw [show decodeBody parseF64 (decodeAt parseF64 room) '$' = decodeBulk from rfl, hbody,
        after_ofExcept]
      simp only [RespFrame.read, length_cons, length_append]
      congr 1
      simp only [crlf, length_cons, length_nil]
      omega
    | nullBulk | nullArray => rfl
    | @aggregate tag items htag heven hitems =>
      have hbody := decodeAggregate_bytes heven (fun f hf s => ih (hitems f hf) s) s
      rw [bytes, cons_append, hnext, append_assoc, decodeBody_aggregate htag, hbody,
        after_ofExcept]
      simp only [RespFrame.read, length_cons, length_append]
      congr 1
      simp only [crlf, length_cons, length_nil]
      omega

end

end

end Flint
