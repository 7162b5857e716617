import FlintCache.Lib.Text

/-!
# Resp/Commands — commands as words, replies by their meaning, and which commands write

One type for every reply, with the differences between the two protocols left to the encoder;
doubles are their bits.  The keys a write may write are a superset, made for the guard over the
prefixes of a search index.
-/

namespace Flint

section Value

open List

abbrev Args := List String

inductive Value
  | simple (s : String)
  | error (s : String)
  | integer (n : Int)
  | boolean (b : Bool)
  | bulk (b : Option String)
  | array (items : Option (List Value))
  | null
  | double (bits : UInt64)
  | humanDouble (bits : UInt64)
  | map (items : List (Value × Value))
  | set (items : List Value)
  | resp3Nested (v : Value)
  | byProto (resp2 resp3 : Value)
  | scorePairs (items : List (String × UInt64))
  | push (items : List Value)

@[elab_as_elim]
theorem Value.ind {P : Value → Prop} (simple : ∀ s, P (.simple s)) (error : ∀ s, P (.error s))
    (integer : ∀ n, P (.integer n)) (boolean : ∀ b, P (.boolean b)) (bulk : ∀ b, P (.bulk b))
    (nullArray : P (.array none))
    (array : ∀ items : List Value, (∀ v ∈ items, P v) → P (.array (some items)))
    (null : P .null) (double : ∀ d, P (.double d)) (humanDouble : ∀ d, P (.humanDouble d))
    (map : ∀ pairs : List (Value × Value), (∀ kv ∈ pairs, P kv.1) → (∀ kv ∈ pairs, P kv.2) →
      P (.map pairs)) (set : ∀ items : List Value, (∀ v ∈ items, P v) → P (.set items))
    (resp3Nested : ∀ v, P v → P (.resp3Nested v))
    (byProto : ∀ resp2 resp3, P resp2 → P resp3 → P (.byProto resp2 resp3))
    (scorePairs : ∀ pairs, P (.scorePairs pairs))
    (push : ∀ items : List Value, (∀ v ∈ items, P v) → P (.push items)) (v : Value) : P v :=
  @Value.rec P (fun items => P (.array items)) (fun pairs => ∀ kv ∈ pairs, P kv.1 ∧ P kv.2)
    (fun items => ∀ v ∈ items, P v) (fun kv => P kv.1 ∧ P kv.2)
    simple error integer boolean bulk (fun _ h => h) null double humanDouble
    (fun pairs h => map pairs (fun kv hkv => (h kv hkv).1) fun kv hkv => (h kv hkv).2)
    set resp3Nested byProto scorePairs push nullArray array
    (fun _ h => absurd h not_mem_nil)
    (fun _ _ hhead htail => forall_mem_cons.mpr ⟨hhead, htail⟩)
    (fun _ h => absurd h not_mem_nil)
    (fun _ _ hhead htail => forall_mem_cons.mpr ⟨hhead, htail⟩)
    (fun _ _ hk hv => ⟨hk, hv⟩) v
def Value.isNull : Value → Bool
  | .null => true
  | .array none => true
  | _ => false

def Value.isNothing : Value → Bool
  | .null => true
  | .array none => true
  | .bulk none => true
  | _ => false

theorem Value.isNothing_of_isNull {v : Value} (h : v.isNull = true) : v.isNothing = true := by
  unfold Value.isNull at h
  split at h
  · rfl
  · rfl
  · exact absurd h Bool.false_ne_true

def Value.isError : Value → Bool
  | .error _ => true
  | _ => false

def Value.isOk : Value → Bool
  | .simple s => s == "OK"
  | _ => false

def Value.isQueued : Value → Bool
  | .simple s => s == "QUEUED"
  | _ => false

abbrev PlainReply := { v : Value // v.isQueued = false }

def startsWith (s start : String) : Bool := start.toList.isPrefixOf s.toList

end Value

def saysWord (word name : String) : Bool := word.toUpper == name

def writeNames : List String :=
  ["SET", "SETNX", "SETEX", "MSET", "COPY", "ZUNIONSTORE", "ZINTERSTORE", "ZDIFFSTORE",
    "ZRANGESTORE", "GEOADD", "GEORADIUS", "GEORADIUSBYMEMBER", "GEOSEARCHSTORE", "LMPOP", "ZMPOP",
    "BLMPOP", "BZMPOP", "SINTERSTORE", "SUNIONSTORE", "SDIFFSTORE", "ZREMRANGEBYLEX", "RENAME",
    "RENAMENX", "LMOVE", "RPOPLPUSH", "BLMOVE", "BRPOPLPUSH", "BLPOP", "BRPOP", "BZPOPMIN",
    "BZPOPMAX", "HINCRBYFLOAT", "DEL", "EXPIRE", "PEXPIRE", "EXPIREAT", "PEXPIREAT", "UNLINK",
    "GETDEL", "GETEX", "GETSET", "HSETNX", "PERSIST", "INCR", "DECR", "INCRBY", "DECRBY",
    "INCRBYFLOAT", "APPEND", "SETRANGE", "BITFIELD", "SETBIT", "PFADD", "PFMERGE", "PFCOUNT",
    "BITOP", "PSETEX", "LPUSHX", "RPUSHX", "SMOVE", "FLUSHALL", "FLUSHDB", "HSET", "HMSET", "EVAL",
    "EVALSHA", "HDEL", "HINCRBY", "SADD", "SREM", "SPOP", "LPUSH", "RPUSH", "LPOP", "RPOP", "LSET",
    "LTRIM", "LREM", "LINSERT", "ZADD", "ZREM", "ZINCRBY", "ZPOPMIN", "ZPOPMAX",
    "ZREMRANGEBYSCORE", "ZREMRANGEBYRANK", "JSON.SET", "JSON.DEL", "JSON.FORGET",
    "JSON.NUMINCRBY", "JSON.ARRAPPEND", "JSON.MSET", "JSON.MERGE", "JSON.NUMMULTBY",
    "JSON.STRAPPEND", "JSON.ARRINSERT", "JSON.ARRPOP", "JSON.ARRTRIM", "JSON.TOGGLE", "JSON.CLEAR",
    "BF.ADD", "BF.MADD", "BF.RESERVE", "BF.INSERT", "XADD", "XDEL", "XTRIM", "XGROUP",
    "XREADGROUP", "FLINTXREADGROUP", "XACK", "XCLAIM", "XAUTOCLAIM", "XSETID"]

def isWriteCommand (name : String) : Bool := writeNames.contains name.toUpper

def stepBy (step : ℕ) (words : List String) : List String :=
  (words.zipIdx.filter fun w => w.2 % step = 0).map Prod.fst

theorem take_one_drop (words : List String) (n : ℕ) : (words.drop n).take 1 = words[n]?.toList := by
  rw [← List.head?_drop]
  cases words.drop n <;> rfl

/-- The keys that `GEORADIUS` may store at: every word behind a `STORE` or `STOREDIST`. -/
def georadiusStoreKeys (args : Args) : List String :=
  let base :=
    match (args.headD "").toUpper with
    | "GEORADIUS" => some 6
    | "GEORADIUSBYMEMBER" => some 5
    | _ => none
  match base with
  | none => []
  | some base =>
    let opts := args.drop base
    ((opts.zip (opts.drop 1)).filter fun w =>
      saysWord w.1 "STORE" || saysWord w.1 "STOREDIST").map Prod.snd

/-- The words between the options of `XREADGROUP` and its positions. -/
def streamsFrom : List String → Option (List String)
  | [] => none
  | [_] => none
  | o :: v :: rest =>
    if saysWord o "BLOCK" || saysWord o "COUNT" then streamsFrom rest
    else if saysWord o "STREAMS" then
      if (v :: rest).length % 2 = 1 then none
      else some ((v :: rest).take ((v :: rest).length / 2))
    else if saysWord o "GROUP" then
      match rest with
      | [] => none
      | _ :: rest => streamsFrom rest
    else if saysWord o "NOACK" then streamsFrom (v :: rest)
    else none

def xreadgroupKeys (args : Args) : Option (List String) :=
  match args with
  | [] => none
  | name :: rest =>
    if saysWord name "XREADGROUP" || saysWord name "FLINTXREADGROUP" then streamsFrom rest else none

def subcommandKey (args : Args) : Option (Option String) :=
  if saysWord (args.headD "") "XGROUP" || saysWord (args.headD "") "XINFO" then
    some (match args[1]? with
      | some sub => if saysWord sub "HELP" then none else args[2]?
      | none => none)
  else none

def evalKeys (args : Args) : Option (List String) :=
  if saysWord (args.headD "") "EVAL" || saysWord (args.headD "") "EVALSHA" then
    (args[2]?.bind (parseUnsigned 64)).bind fun n =>
      if 3 + n ≤ args.length then some ((args.drop 3).take n) else none
  else none

def countedKeys (at_ : ℕ) (args : Args) : List String :=
  let keys := args.drop (at_ + 1)
  match args[at_]?.bind (parseUnsigned 64) with
  | some n => keys.take n
  | none => keys

inductive Written
  | keys (keys : List String)
  | all
  /-- Keys that a script declares; it may write others of their slot. -/
  | script (keys : List String)
  deriving DecidableEq, Repr

def writtenOf (args : Args) : Written :=
  match (args.headD "").toUpper with
  | "FLUSHALL" => .all
  | "FLUSHDB" => .all
  | "EVAL" => .script ((evalKeys args).getD [])
  | "EVALSHA" => .script ((evalKeys args).getD [])
  | "DEL" => .keys (args.drop 1)
  | "UNLINK" => .keys (args.drop 1)
  | "PFCOUNT" => .keys (args.drop 1)
  | "MSET" => .keys (stepBy 2 (args.drop 1))
  | "JSON.MSET" => .keys (stepBy 3 (args.drop 1))
  | "RENAME" => .keys ((args.drop 1).take 2)
  | "RENAMENX" => .keys ((args.drop 1).take 2)
  | "COPY" => .keys ((args.drop 1).take 2)
  | "SMOVE" => .keys ((args.drop 1).take 2)
  | "LMOVE" => .keys ((args.drop 1).take 2)
  | "BLMOVE" => .keys ((args.drop 1).take 2)
  | "RPOPLPUSH" => .keys ((args.drop 1).take 2)
  | "BRPOPLPUSH" => .keys ((args.drop 1).take 2)
  | "BLPOP" => .keys ((args.drop 1).take (args.length - 2))
  | "BRPOP" => .keys ((args.drop 1).take (args.length - 2))
  | "BZPOPMIN" => .keys ((args.drop 1).take (args.length - 2))
  | "BZPOPMAX" => .keys ((args.drop 1).take (args.length - 2))
  | "LMPOP" => .keys (countedKeys 1 args)
  | "ZMPOP" => .keys (countedKeys 1 args)
  | "BLMPOP" => .keys (countedKeys 2 args)
  | "BZMPOP" => .keys (countedKeys 2 args)
  | "BITOP" => .keys ((args.drop 2).take 1)
  | "GEORADIUS" => .keys (georadiusStoreKeys args)
  | "GEORADIUSBYMEMBER" => .keys (georadiusStoreKeys args)
  | "XREADGROUP" => .keys ((xreadgroupKeys args).getD [])
  | "FLINTXREADGROUP" => .keys ((xreadgroupKeys args).getD [])
  | "XGROUP" => .keys ((subcommandKey args).join.toList)
  | _ => .keys ((args.drop 1).take 1)

def writtenKeys (args : Args) : Option Written :=
  if isWriteCommand (args.headD "") then some (writtenOf args) else none

end Flint
