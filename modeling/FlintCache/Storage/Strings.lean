import FlintCache.Lib.ChunkRows
import FlintCache.Storage.Units

/-!
# Storage/Strings — strings, in one row or in chunks

A string is one row, its payload behind its header; or, where writes may chunk and it is longer than
the inline limit, a row with its length and a version, and chunk rows under that version.  A write
in place (`StringTarget`) keeps a string chunked.  A command tests for expiry a fixed number of
times, each at its own reading of the clock (`StringClock`).
-/

namespace Flint

/-! ## Numbers -/

def decimalNat (n : ℕ) : Bytes :=
  if n = 0 then [48] else (Nat.digits 10 n).reverse.map fun d => UInt8.ofNat (48 + d)

def decimal (n : ℤ) : Bytes := if n < 0 then 45 :: decimalNat n.natAbs else decimalNat n.natAbs

def inI64 (n : ℤ) : Bool := -2 ^ 63 ≤ n && n < 2 ^ 63

def isDigit (b : UInt8) : Bool := 48 ≤ b && b ≤ 57

def digitsValue (ds : Bytes) : ℕ := ds.foldl (fun n d => n * 10 + (d.toNat - 48)) 0

def canonicalDigits (neg : Bool) : Bytes → Bool
  | [] => false
  | 48 :: [] => !neg
  | d :: rest => 49 ≤ d && d ≤ 57 && rest.all isDigit

/-- `parse_redis_i64`: an integer as Redis reads one, from the bytes of a value. -/
def parseRedisBytes (raw : Bytes) : Option ℤ :=
  let neg := raw.head? = some 45
  let digits := if neg then raw.tail else raw
  if canonicalDigits neg digits then
    let n : ℤ := if neg then -(digitsValue digits : ℤ) else digitsValue digits
    if inI64 n then some n else none
  else none

/-! ## Bits -/

def countOnes (b : UInt8) : ℕ := ((List.range 8).filter fun i => b.toNat.testBit i).length

def popcount (l : Bytes) : ℕ := (l.map countOnes).sum

def bitMask (i : ℕ) : UInt8 := 1 <<< UInt8.ofNat (7 - i % 8)

def bitAt (l : Bytes) (i : ℕ) : Bool := l.getD (i / 8) 0 &&& bitMask i ≠ 0

def bitWindow (len start stop : ℤ) : ℤ × ℤ :=
  let start := max (if start < 0 then len + start else start) 0
  let stop := max (if stop < 0 then len + stop else stop) 0
  (start, if len ≤ stop then len - 1 else stop)

def bitcountIn (len : ℕ) (window : ℕ → ℕ → Bytes) : Option (ℤ × ℤ × Bool) → ℕ
  | none => if len = 0 then 0 else popcount (window 0 (len - 1))
  | some (start, stop, bits) =>
    if start < 0 ∧ stop < 0 ∧ stop < start then 0
    else
      let w := bitWindow (if bits then len * 8 else len) start stop
      if w.2 < w.1 then 0
      else if bits = false then popcount (window w.1.toNat w.2.toNat)
      else
        let bytes := window (w.1.toNat / 8) (w.2.toNat / 8)
        let before := bytes.getD 0 0 &&& ~~~(0xff >>> UInt8.ofNat (w.1.toNat % 8))
        let after := bytes.getD (bytes.length - 1) 0 &&& UInt8.ofNat (255 / 2 ^ (w.2.toNat % 8 + 1))
        popcount bytes - countOnes before - countOnes after

def bitposIn (len : ℕ) (window : ℕ → ℕ → Bytes) (bit : Bool)
    (range : Option (ℤ × Option ℤ × Bool)) : ℤ :=
  let (start, stop, bits, endGiven) : ℤ × ℤ × Bool × Bool := match range with
    | none => (0, (len : ℤ) - 1, false, false)
    | some (start, stop, bits) =>
      let units : ℤ := if bits then len * 8 else len
      let w := bitWindow units start (stop.getD (units - 1))
      (w.1, w.2, bits, stop.isSome)
  if stop < start then -1
  else
    let lo := if bits then start.toNat else start.toNat * 8
    let hi := if bits then stop.toNat else stop.toNat * 8 + 7
    let base := lo / 8
    let bytes := window base (hi / 8)
    let skip : UInt8 := if bit then 0x00 else 0xff
    let found := (List.range' base (hi / 8 + 1 - base)).findSome? fun j =>
      if lo ≤ j * 8 ∧ j * 8 + 7 ≤ hi ∧ bytes.getD (j - base) 0 = skip then none
      else ((List.range' (j * 8) 8).filter fun i => lo ≤ i && i ≤ hi).find? fun i =>
        bitAt bytes (i - base * 8) = bit
    match found with
    | some i => i
    | none => if bit = false ∧ endGiven = false then hi + 1 else -1

inductive BitfieldOverflow
  | wrap
  | sat
  | fail
  deriving DecidableEq

inductive BitfieldKind
  | get
  | set (value : Int64) (overflow : BitfieldOverflow)
  | incrBy (value : Int64) (overflow : BitfieldOverflow)

structure BitfieldOp where
  signed : Bool
  bits : ℕ
  offset : ℕ
  kind : BitfieldKind

def BitfieldOp.isGet (op : BitfieldOp) : Bool :=
  match op.kind with
  | .get => true
  | _ => false

def BitfieldOp.read (op : BitfieldOp) (byte : ℕ → UInt8) : Int64 :=
  let v := (List.range op.bits).foldl (fun (v : UInt64) i =>
    let bit := op.offset + i
    (v <<< 1) ||| ((byte (bit / 8) >>> UInt8.ofNat (7 - bit % 8)) &&& 1).toUInt64) 0
  if op.signed ∧ op.bits < 64 ∧ v &&& (1 <<< UInt64.ofNat (op.bits - 1)) ≠ 0 then
    (v ||| (0xffffffffffffffff <<< UInt64.ofNat op.bits)).toInt64
  else v.toInt64

def signedOverflow (value incr : Int64) (bits : ℕ) (overflow : BitfieldOverflow) : Option Int64 :=
  let max : Int64 := if bits = 64 then Int64.maxValue else (1 <<< Int64.ofNat (bits - 1)) - 1
  let min : Int64 := -max - 1
  let maxIncr := max - value
  let minIncr := min - value
  let wrapped : Int64 :=
    let c := value.toUInt64 + incr.toUInt64
    if bits < 64 then
      let mask : UInt64 := 0xffffffffffffffff <<< UInt64.ofNat bits
      if c &&& (1 <<< UInt64.ofNat (bits - 1)) ≠ 0 then (c ||| mask).toInt64
      else (c &&& ~~~mask).toInt64
    else c.toInt64
  let limit (bound : Int64) : Int64 :=
    match overflow with
    | .wrap => wrapped
    | .sat => bound
    | .fail => 0
  if max < value ∨ (bits ≠ 64 ∧ maxIncr < incr) ∨ (0 ≤ value ∧ 0 < incr ∧ maxIncr < incr) then
    some (limit max)
  else if value < min ∨ (bits ≠ 64 ∧ incr < minIncr) ∨ (value < 0 ∧ incr < 0 ∧ incr < minIncr) then
    some (limit min)
  else none

def unsignedOverflow (value : UInt64) (incr : Int64) (bits : ℕ) (overflow : BitfieldOverflow) :
    Option UInt64 :=
  let max : UInt64 := (1 <<< UInt64.ofNat bits) - 1
  let maxIncr := (max - value).toInt64
  let minIncr := (0 - value).toInt64
  let limit (bound : UInt64) : UInt64 :=
    match overflow with
    | .wrap => (value + incr.toUInt64) &&& ~~~(0xffffffffffffffff <<< UInt64.ofNat bits)
    | .sat => bound
    | .fail => 0
  if max < value ∨ (0 < incr ∧ maxIncr < incr) then some (limit max)
  else if incr < 0 ∧ incr < minIncr then some (limit 0)
  else none

def BitfieldOp.result (op : BitfieldOp) (incr : Bool) (old value : Int64)
    (overflow : BitfieldOverflow) : Int64 × Bool :=
  if op.signed then
    let start := if incr then old else value
    let step := if incr then value else 0
    match signedOverflow start step op.bits overflow with
    | some limit => (limit, true)
    | none => (start + step, false)
  else
    let start := if incr then old.toUInt64 else value.toUInt64
    let step := if incr then value else 0
    match unsignedOverflow start step op.bits overflow with
    | some limit => (limit.toInt64, true)
    | none => ((start + step.toUInt64).toInt64, false)

/-! ## Rows -/

inductive StoreError
  | notInteger
  | overflow
  | valueTooLarge
  deriving DecidableEq

structure StringConfig where
  maxValueBytes : ℕ
  chunkedWrites : Bool
  inlineMax : ℕ
  chunk : ℕ
  chunk_pos : 0 < chunk

def StringConfig.never (cfg : StringConfig) : StringConfig := { cfg with chunkedWrites := false }

def chunkLimit : ℕ := 2 ^ 32

/-- A string's metadata row: its payload, or the version of its chunks and its length. -/
inductive Stored
  | inline (payload : Bytes) (expireMs : ℕ)
  | chunked (version bytes expireMs : ℕ)

namespace Stored

def expireMs : Stored → ℕ
  | inline _ e => e
  | chunked _ _ e => e

def len : Stored → ℕ
  | inline p _ => p.length
  | chunked _ n _ => n

def withExpire (e : ℕ) : Stored → Stored
  | inline p _ => inline p e
  | chunked v n _ => chunked v n e

def isExpired (s : Stored) (now : ℕ) : Bool := s.expireMs ≠ 0 && s.expireMs ≤ now

end Stored

/-- The readings of one command: of its tests for expiry, in order, and for a new version. -/
structure StringClock where
  live : ℕ → ℕ
  mint : ℕ

variable {κ : Type} [DecidableEq κ]

/-- The rows of string keys: metadata and chunks. -/
structure StringRows (κ : Type) where
  metas : κ → Option Stored
  chunks : κ → ℕ → SortedRows ℕ Bytes
  last : ℕ

namespace StringRows

def fresh : StringRows κ := ⟨fun _ => none, fun _ _ => .empty, 0⟩

def setMeta (st : StringRows κ) (k : κ) (m : Option Stored) : StringRows κ :=
  { st with metas := Function.update st.metas k m }

def setChunks (st : StringRows κ) (k : κ) (v : ℕ) (rows : SortedRows ℕ Bytes) : StringRows κ :=
  { st with chunks := Function.update st.chunks k (Function.update (st.chunks k) v rows) }

def nextVersion (st : StringRows κ) (now : ℕ) : ℕ := max st.last (now * 2 ^ 20) + 1

def minted (st : StringRows κ) (now : ℕ) : StringRows κ := { st with last := st.nextVersion now }

def readLive (st : StringRows κ) (k : κ) (now : ℕ) : Option Stored × StringRows κ :=
  match st.metas k with
  | none => (none, st)
  | some s => if s.isExpired now then (none, st.setMeta k none) else (some s, st)

def readChunked (cfg : StringConfig) (st : StringRows κ) (k : κ) (version bytes start stop : ℕ) :
    Bytes :=
  readRows cfg.chunk (st.chunks k version) start (min stop bytes)

def valueOf (cfg : StringConfig) (st : StringRows κ) (k : κ) : Stored → Bytes
  | .inline p _ => p
  | .chunked v n _ => st.readChunked cfg k v n 0 n

def window (cfg : StringConfig) (st : StringRows κ) (k : κ) (s : Stored) (start stop : ℕ) : Bytes :=
  match s with
  | .inline p _ => (p.drop start).take (stop + 1 - start)
  | .chunked v n _ => st.readChunked cfg k v n start (stop + 1)

def putValue (cfg : StringConfig) (st : StringRows κ) (k : κ)
    (payload : Bytes) (expireMs mint : ℕ) :
    StringRows κ :=
  if cfg.chunkedWrites && decide (cfg.inlineMax < payload.length) then
    let v := st.nextVersion mint
    ((st.minted mint).setChunks k v
      (splitRows cfg.chunk chunkLimit (st.chunks k v) payload)).setMeta k
        (some (.chunked v payload.length expireMs))
  else st.setMeta k (some (.inline payload expireMs))

end StringRows

/-! ## Changing in place -/

structure InlineView where
  payload : Bytes
  expireMs : ℕ
  dirty : Bool

namespace InlineView

def setByte (w : InlineView) (i : ℕ) (v : UInt8) : InlineView :=
  let w := if w.payload.length ≤ i
      then { w with payload := resize w.payload (i + 1), dirty := true }
    else w
  if w.payload.getD i 0 ≠ v then { w with payload := w.payload.set i v, dirty := true } else w

def grow (w : InlineView) (n : ℕ) : InlineView :=
  if w.payload.length < n then { w with payload := resize w.payload n, dirty := true } else w

def write (w : InlineView) (pos : ℕ) (bytes : Bytes) : InlineView :=
  let stop := pos + bytes.length
  let payload := if w.payload.length < stop then resize w.payload stop else w.payload
  { w with payload := splice payload pos bytes, dirty := true }

end InlineView

/-- What a write in place works on: of chunks, those that have changed. -/
inductive StringTarget
  | inline (w : InlineView)
  | chunked (version expireMs : ℕ) (edit : ChunkEdit UInt8)

namespace StringTarget

def len : StringTarget → ℕ
  | inline w => w.payload.length
  | chunked _ _ e => e.length

def byte (cfg : StringConfig) (t : StringTarget) (i : ℕ) : UInt8 :=
  match t with
  | inline w => w.payload.getD i 0
  | chunked _ _ e => e.get cfg.chunk chunkLimit i

def setByte (cfg : StringConfig) (t : StringTarget) (i : ℕ) (b : UInt8) : StringTarget :=
  match t with
  | inline w => inline (w.setByte i b)
  | chunked v x e => chunked v x (e.set cfg.chunk chunkLimit i b)

def grow (t : StringTarget) (n : ℕ) : StringTarget :=
  match t with
  | inline w => inline (w.grow n)
  | chunked v x e => chunked v x (e.grow n)

def write (cfg : StringConfig) (t : StringTarget) (pos : ℕ) (bytes : Bytes) : StringTarget :=
  match t with
  | inline w => inline (w.write pos bytes)
  | chunked v x e => chunked v x (e.write cfg.chunk chunkLimit cfg.chunk_pos pos bytes)

def writeBits (cfg : StringConfig) (t : StringTarget) (offset bits : ℕ) (value : UInt64) :
    StringTarget :=
  (List.range bits).foldl (fun t i =>
    let bit := offset + i
    let set := (value >>> UInt64.ofNat (bits - 1 - i)) &&& 1 = 1
    let byte := t.byte cfg (bit / 8)
    t.setByte cfg (bit / 8) (if set then byte ||| bitMask bit else byte &&& ~~~bitMask bit)) t

/-- One operation of a `BITFIELD`: the field is read, and written unless that is refused. -/
def bitfieldOp (cfg : StringConfig) (t : StringTarget) (op : BitfieldOp) :
    StringTarget × Option Int64 :=
  let write (incr : Bool) (value : Int64) (overflow : BitfieldOverflow) :
      StringTarget × Option Int64 :=
    let old := op.read (t.byte cfg)
    let new := op.result incr old value overflow
    if new.2 ∧ overflow = .fail then (t, none)
    else (t.writeBits cfg op.offset op.bits new.1.toUInt64, some (if incr then new.1 else old))
  match op.kind with
  | .get => (t, some (op.read (t.byte cfg)))
  | .set value overflow => write false value overflow
  | .incrBy value overflow => write true value overflow

def bitfieldOps (cfg : StringConfig) : StringTarget → List BitfieldOp →
    StringTarget × List (Option Int64)
  | t, [] => (t, [])
  | t, op :: ops =>
    let (t, reply) := t.bitfieldOp cfg op
    let (t, replies) := bitfieldOps cfg t ops
    (t, reply :: replies)

end StringTarget

namespace StringRows

/-- What an in-place write works on, for a string that will be at least `need` bytes long. -/
def target (cfg : StringConfig) (st : StringRows κ) (k : κ) (need now mint : ℕ) :
    StringTarget × StringRows κ :=
  let (existing, st) := st.readLive k now
  let chunkNow := cfg.chunkedWrites && decide (cfg.inlineMax < need)
  let v := st.nextVersion mint
  match existing with
  | some (.chunked v n e) => (.chunked v e ⟨st.chunks k v, .empty, n, false⟩, st)
  | some (.inline p e) =>
    if chunkNow then
      let rows := splitRows cfg.chunk chunkLimit (st.chunks k v) p
      (.chunked v e ⟨rows, .empty, p.length, true⟩, (st.minted mint).setChunks k v rows)
    else (.inline ⟨p, e, false⟩, st)
  | none =>
    if chunkNow then (.chunked v 0 ⟨st.chunks k v, .empty, 0, true⟩, st.minted mint)
    else (.inline ⟨[], 0, true⟩, st)

def finish (cfg : StringConfig) (st : StringRows κ) (k : κ) : StringTarget → StringRows κ
  | .inline w => if w.dirty then st.setMeta k (some (.inline w.payload w.expireMs)) else st
  | .chunked v x e =>
    if e.clean then st
    else (st.setChunks k v (e.finish cfg.chunk chunkLimit)).setMeta k (some (.chunked v e.length x))

end StringRows

/-! ## Commands -/

inductive SetExpiry
  | clear
  | keep
  | atMs (ms : ℕ)

structure SetOptions where
  nx : Bool
  xx : Bool
  expiry : SetExpiry

inductive RenameOutcome
  | noSuchKey
  | destinationExists
  | renamed
  deriving DecidableEq

inductive StringReply
  | set (done : Bool)
  | value (v : Option Bytes)
  | bytes (v : Bytes)
  | len (n : ℕ)
  | int (n : ℤ)
  | flag (b : Bool)
  | fields (l : List (Option Int64))
  | rename (o : RenameOutcome)
  | expireTime (e : Option ℕ)
  | error (e : StoreError)

/-- A string command. -/
inductive StringOp (κ : Type)
  | set (k : κ) (v : Bytes) (opts : SetOptions)
  | get (k : κ)
  | append (k : κ) (suffix : Bytes)
  | strlen (k : κ)
  | getrange (k : κ) (start stop : ℤ)
  | setrange (k : κ) (offset : ℕ) (patch : Bytes)
  | setbit (k : κ) (offset : ℕ) (on : Bool)
  | getbit (k : κ) (offset : ℕ)
  | bitcount (k : κ) (range : Option (ℤ × ℤ × Bool))
  | bitpos (k : κ) (bit : Bool) (range : Option (ℤ × Option ℤ × Bool))
  | bitfield (k : κ) (ops : List BitfieldOp)
  | getDel (k : κ)
  | getex (k : κ) (expiry : SetExpiry)
  | incrBy (k : κ) (delta : ℤ)
  | copy (src dst : κ) (replace : Bool)
  | rename (src dst : κ) (nx : Bool)
  | expireAt (k : κ) (ms : ℕ)
  | expireTime (k : κ)
  | persist (k : κ)
  | del (k : κ)

namespace StringRows

variable (cfg : StringConfig) (clk : StringClock) (st : StringRows κ)

def set (k : κ) (v : Bytes) (opts : SetOptions) : StringReply × StringRows κ :=
  if cfg.maxValueBytes < v.length then (.error .valueTooLarge, st)
  else
    let needsExisting := opts.nx || opts.xx || (match opts.expiry with | .keep => true | _ => false)
    let (existing, st) := if needsExisting then st.readLive k (clk.live 0) else (none, st)
    if (opts.nx && existing.isSome) || (opts.xx && existing.isNone) then (.set false, st)
    else
      let expireMs := match opts.expiry with
        | .clear => 0
        | .keep => (existing.map Stored.expireMs).getD 0
        | .atMs ms => ms
      (.set true, st.putValue cfg k v expireMs clk.mint)

def get (k : κ) : StringReply × StringRows κ :=
  let (s, st) := st.readLive k (clk.live 0)
  (.value (s.map (st.valueOf cfg k)), st)

def append (k : κ) (suffix : Bytes) : StringReply × StringRows κ :=
  let (s, st) := st.readLive k (clk.live 0)
  let len := s.elim 0 Stored.len
  let stop := len + suffix.length
  if cfg.maxValueBytes < stop then (.error .valueTooLarge, st)
  else
    let (t, st) := st.target cfg k stop (clk.live 1) clk.mint
    (.len stop, st.finish cfg k (t.write cfg len suffix))

def strlen (k : κ) : StringReply × StringRows κ :=
  let (s, st) := st.readLive k (clk.live 0)
  (.len (s.elim 0 Stored.len), st)

def getrange (k : κ) (start stop : ℤ) : StringReply × StringRows κ :=
  let (s, st) := st.readLive k (clk.live 0)
  match s with
  | none => (.bytes [], st)
  | some s =>
    if start < 0 ∧ stop < 0 ∧ stop < start then (.bytes [], st)
    else
      let len : ℤ := s.len
      let first := max (if start < 0 then len + start else start) 0
      let last := min (max (if stop < 0 then len + stop else stop) 0) (len - 1)
      if len = 0 ∨ last < first then (.bytes [], st)
      else (.bytes (st.window cfg k s first.toNat last.toNat), st)

def setrange (k : κ) (offset : ℕ) (patch : Bytes) : StringReply × StringRows κ :=
  if patch.isEmpty then st.strlen clk k
  else
    let stop := offset + patch.length
    if cfg.maxValueBytes < stop then (.error .valueTooLarge, (st.readLive k (clk.live 0)).2)
    else
      let (t, st) := st.target cfg k stop (clk.live 0) clk.mint
      let t := t.write cfg offset patch
      (.len t.len, st.finish cfg k t)

def setbit (k : κ) (offset : ℕ) (on : Bool) : StringReply × StringRows κ :=
  let byte := offset / 8
  if cfg.maxValueBytes < byte + 1 then (.error .valueTooLarge, (st.readLive k (clk.live 0)).2)
  else
    let (t, st) := st.target cfg k (byte + 1) (clk.live 0) clk.mint
    let t := t.grow (byte + 1)
    let current := t.byte cfg byte
    let old : Bool := current &&& bitMask offset ≠ 0
    let t := if old ≠ on then t.setByte cfg byte (current ^^^ bitMask offset) else t
    (.flag old, st.finish cfg k t)

def getbit (k : κ) (offset : ℕ) : StringReply × StringRows κ :=
  let (s, st) := st.readLive k (clk.live 0)
  let byte := offset / 8
  let value := s.elim 0 fun s => (st.window cfg k s byte byte).getD 0 0
  (.flag (value &&& bitMask offset ≠ 0), st)

def bitcount (k : κ) (range : Option (ℤ × ℤ × Bool)) : StringReply × StringRows κ :=
  let (s, st) := st.readLive k (clk.live 0)
  (.len (s.elim 0 fun s => bitcountIn s.len (st.window cfg k s) range), st)

def bitpos (k : κ) (bit : Bool) (range : Option (ℤ × Option ℤ × Bool)) :
    StringReply × StringRows κ :=
  let (s, st) := st.readLive k (clk.live 0)
  (.int (s.elim (if bit then -1 else 0) fun s => bitposIn s.len (st.window cfg k s) bit range), st)

def readTarget (k : κ) : Stored → StringTarget
  | .inline p e => .inline ⟨p, e, false⟩
  | .chunked v n e => .chunked v e ⟨st.chunks k v, .empty, n, false⟩

def bitfield (k : κ) (ops : List BitfieldOp) : StringReply × StringRows κ :=
  match ((ops.filter fun op => !op.isGet).map fun op => op.offset + op.bits - 1).max? with
  | none =>
    let (s, st) := st.readLive k (clk.live 0)
    match s with
    | none => (.fields (ops.map fun _ => some 0), st)
    | some s => (.fields (ops.map fun op => some (op.read ((st.readTarget k s).byte cfg))), st)
  | some highest =>
    let need := highest / 8 + 1
    if cfg.maxValueBytes < need then (.error .valueTooLarge, (st.readLive k (clk.live 0)).2)
    else
      let (t, st) := st.target cfg k need (clk.live 0) clk.mint
      let (t, replies) := (t.grow need).bitfieldOps cfg ops
      (.fields replies, st.finish cfg k t)

def getDel (k : κ) : StringReply × StringRows κ :=
  let (s, st) := st.readLive k (clk.live 0)
  match s with
  | none => (.value none, st)
  | some s => (.value (some (st.valueOf cfg k s)), st.setMeta k none)

def getex (k : κ) (expiry : SetExpiry) : StringReply × StringRows κ :=
  let (s, st) := st.readLive k (clk.live 0)
  match s with
  | none => (.value none, st)
  | some s =>
    let rewrite (e : ℕ) : StringReply × StringRows κ :=
      (.value (some (st.valueOf cfg k s)),
        if e ≠ s.expireMs then st.setMeta k (some (s.withExpire e)) else st)
    match expiry with
    | .keep => (.value (some (st.valueOf cfg k s)), st)
    | .atMs ms => rewrite ms
    | .clear => rewrite 0

def incrBy (k : κ) (delta : ℤ) : StringReply × StringRows κ :=
  let (s, st) := st.readLive k (clk.live 0)
  let current : Option (ℤ × ℕ) := match s with
    | none => some (0, 0)
    | some (.chunked _ _ _) => none
    | some (.inline p e) => (parseRedisBytes p).map fun n => (n, e)
  match current with
  | none => (.error .notInteger, st)
  | some (n, e) =>
    if inI64 (n + delta) then
      (.int (n + delta), st.setMeta k (some (.inline (decimal (n + delta)) e)))
    else (.error .overflow, st)

def copy (src dst : κ) (replace : Bool) (i : ℕ) : Bool × StringRows κ :=
  let (s, st) := st.readLive src (clk.live i)
  match s with
  | none => (false, st)
  | some s =>
    let (d, st) := st.readLive dst (clk.live (i + 1))
    if d.isSome && !replace then (false, st)
    else
      let st := if d.isSome then st.setMeta dst none else st
      match s with
      | .inline p e => (true, st.setMeta dst (some (.inline p e)))
      | .chunked v n e =>
        let v' := st.nextVersion clk.mint
        let rows := (st.chunks dst v').putAll (st.chunks src v).rows
        (true, ((st.minted clk.mint).setChunks dst v' rows).setMeta dst (some (.chunked v' n e)))

def del (k : κ) (i : ℕ) : Bool × StringRows κ :=
  let (s, st) := st.readLive k (clk.live i)
  if s.isSome then (true, st.setMeta k none) else (false, st)

def rename (src dst : κ) (nx : Bool) : RenameOutcome × StringRows κ :=
  let (s, st) := st.readLive src (clk.live 0)
  if s.isNone then (.noSuchKey, st)
  else if src = dst then (if nx then .destinationExists else .renamed, st)
  else
    let (d, st) := if nx then st.readLive dst (clk.live 1) else (none, st)
    if d.isSome then (.destinationExists, st)
    else
      let (copied, st) := st.copy clk src dst true 2
      if copied then (.renamed, (st.del clk src 4).2) else (.noSuchKey, st)

def expireAt (k : κ) (ms : ℕ) : StringReply × StringRows κ :=
  let (s, st) := st.readLive k (clk.live 0)
  match s with
  | none => (.flag false, st)
  | some s =>
    if ms ≤ clk.live 1 then (.flag true, st.setMeta k none)
    else (.flag true, st.setMeta k (some (s.withExpire ms)))

def expireTime (k : κ) : StringReply × StringRows κ :=
  let (s, st) := st.readLive k (clk.live 0)
  (.expireTime (s.map Stored.expireMs), st)

def persist (k : κ) : StringReply × StringRows κ :=
  let (s, st) := st.readLive k (clk.live 0)
  match s with
  | none => (.flag false, st)
  | some s =>
    if s.expireMs = 0 then (.flag false, st)
    else (.flag true, st.setMeta k (some (s.withExpire 0)))

def step : StringOp κ → StringReply × StringRows κ
  | .set k v opts => st.set cfg clk k v opts
  | .get k => st.get cfg clk k
  | .append k suffix => st.append cfg clk k suffix
  | .strlen k => st.strlen clk k
  | .getrange k start stop => st.getrange cfg clk k start stop
  | .setrange k offset patch => st.setrange cfg clk k offset patch
  | .setbit k offset on => st.setbit cfg clk k offset on
  | .getbit k offset => st.getbit cfg clk k offset
  | .bitcount k range => st.bitcount cfg clk k range
  | .bitpos k bit range => st.bitpos cfg clk k bit range
  | .bitfield k ops => st.bitfield cfg clk k ops
  | .getDel k => st.getDel cfg clk k
  | .getex k expiry => st.getex cfg clk k expiry
  | .incrBy k delta => st.incrBy clk k delta
  | .copy src dst replace => let (b, st) := st.copy clk src dst replace 0; (.flag b, st)
  | .rename src dst nx => let (o, st) := st.rename clk src dst nx; (.rename o, st)
  | .expireAt k ms => st.expireAt clk k ms
  | .expireTime k => st.expireTime clk k
  | .persist k => st.persist clk k
  | .del k => let (b, st) := st.del clk k 0; (.flag b, st)

def run (cfg : StringConfig) : StringRows κ → List (StringClock × StringOp κ) →
    List StringReply × StringRows κ
  | st, [] => ([], st)
  | st, (clk, op) :: ops =>
    let (reply, st) := st.step cfg clk op
    let (replies, st) := run cfg st ops
    (reply :: replies, st)

def readable (now : ℕ) (k : κ) : Option (Bytes × ℕ) :=
  (st.readLive k now).1.map fun s => ((st.readLive k now).2.valueOf cfg k s, s.expireMs)

end StringRows

end Flint
