import FlintCache.Lib.Asking
import FlintCache.Resp.Encode
import FlintCache.Storage.Units

/-!
# Server/Arms — the keys a command hands to the stores

Each arm of the dispatcher as the questions it asks of the stores: which key, in which slot, to read
or to write, and how the answer leads on.  What it does with a value is left out, and of its
arguments only those are read that decide which keys it comes to.  A command over the namespace
(`flush`, `dbsize`, `scan`) and a script have no keys of their own, and are kept apart (`Effect`).
-/

namespace Flint

open Asking (walk)

/-! ## Asking the stores -/

/-- A lookup: the slot it is made under, the key, and whether it may write. -/
structure Access where
  slot : ℕ
  key : String
  write : Bool
  deriving DecidableEq, Repr

/-- What the store says of it.  A store refuses a value of another type, or one too large. -/
inductive StoreAnswer
  | missing
  | found
  | refused
  deriving DecidableEq, Repr

abbrev Arm := Asking Access StoreAnswer

/-- What a command does: ask stores for keys, go over the namespace, or run a script. -/
inductive Effect
  | asks (arm : Arm)
  | sweep (write : Bool)
  | script (declared : List String)

/-- What the arms take from outside: slots and the checks of options. -/
structure Dispatcher where
  slotOf : String → ℕ
  whole : Bool
  timeoutOk : String → Bool
  idOk : String → Bool
  /-- The arguments that decide no key pass: their number, options, bounds, weights, paths. -/
  restOk : Args → Bool

/-- Keys under their slots, with every option right. -/
def bySlot : Dispatcher where
  slotOf k := slotForKey (keyBytes k)
  whole := false
  timeoutOk _ := true
  idOk _ := true
  restOk _ := true

def parseRedisI64 (raw : String) : Option ℤ :=
  let neg := raw.toList.head? == some '-'
  let digits := if neg then raw.toList.tail else raw.toList
  let canonical := match digits with
    | ['0'] => !neg
    | c :: _ => '1' ≤ c && c ≤ '9'
    | [] => false
  if canonical then
    (parseDigits 0 digits).bind fun n =>
      if neg then if n ≤ 2 ^ 63 then some (-n) else none
      else if n < 2 ^ 63 then some n else none
  else none

variable (d : Dispatcher)

namespace Dispatcher

def read (key : String) : Access := ⟨d.slotOf key, key, false⟩

def write (key : String) : Access := ⟨d.slotOf key, key, true⟩

def crossslot (first : String) (others : List String) : Bool :=
  others.any fun k => d.slotOf k ≠ d.slotOf first

end Dispatcher

def goOn : StoreAnswer → WalkStep := fun _ => .go

def goUnlessRefused : StoreAnswer → WalkStep
  | .refused => .stop
  | _ => .go

def goWhileMissing : StoreAnswer → WalkStep
  | .missing => .go
  | _ => .stop

def goUntilSettled : StoreAnswer → WalkStep
  | .found => .go
  | .missing => .leave
  | .refused => .stop

/-! ## The arms -/

section Arms

variable (args : Args)

def oneKey (key : Option String) : Arm :=
  match key with
  | some k =>
    if !d.restOk args then .done
    else .ask ⟨d.slotOf k, k, isWriteCommand (args.headD "")⟩ fun _ => .done
  | none => .done

def multiKey (write : Bool) : Arm :=
  walk goOn ((args.drop 1).map fun k => ⟨d.slotOf k, k, write⟩) .done

def cmdMset : Arm :=
  let keys := stepBy 2 (args.drop 1)
  if args.length < 3 || (args.length - 1) % 2 ≠ 0 then .done
  else if d.crossslot (keys.headD "") keys.tail then .done
  else walk goUnlessRefused (keys.map d.write) .done

def cmdMget : Arm :=
  let keys := args.drop 1
  if args.length < 2 then .done
  else if d.crossslot (keys.headD "") keys.tail then .done
  else walk goOn (keys.map d.read) .done

def cmdPfcount : Arm :=
  match args.drop 1 with
  | [] => .done
  | [key] => .ask (d.read key) fun a => match a with
    | .found => .ask (d.write key) fun _ => .done
    | _ => .done
  | key :: others =>
    if d.crossslot key others then .done
    else walk goUnlessRefused ((key :: others).map fun k => ⟨d.slotOf key, k, false⟩) .done

def cmdPfmerge : Arm :=
  match args.drop 1 with
  | [] => .done
  | dst :: sources =>
    if d.crossslot dst sources then .done
    else walk goUnlessRefused
      ((dst :: sources).map fun k => ⟨d.slotOf dst, k, false⟩)
      (.ask (d.write dst) fun _ => .done)

def sop (slot : ℕ) (keys : List String) (rest : Arm) : Arm :=
  walk goUnlessRefused (keys.map fun k => ⟨slot, k, false⟩)
    (walk goUntilSettled (keys.map fun k => ⟨slot, k, false⟩) rest)

def cmdSop : Arm :=
  match args.drop 1 with
  | [] => .done
  | first :: others =>
    if d.crossslot first others then .done
    else sop (d.slotOf first) (first :: others) .done

def cmdSstore : Arm :=
  match args.drop 1 with
  | dst :: key :: keys =>
    if d.crossslot dst (key :: keys) then .done
    else sop (d.slotOf dst) (key :: keys) (.ask (d.write dst) fun _ => .done)
  | _ => .done

def counted (at_ : ℕ) (args : Args) : Option (List String × List String) :=
  match (args[at_]?).bind parseRedisI64 with
  | some n =>
    if 1 ≤ n ∧ n ≤ (args.drop (at_ + 1)).length then
      some ((args.drop (at_ + 1)).take n.toNat, (args.drop (at_ + 1)).drop n.toNat)
    else none
  | none => none

def limitsOk : List String → Bool
  | [] => true
  | word :: n :: rest => saysWord word "LIMIT" && (parseRedisI64 n).any (0 ≤ ·) && limitsOk rest
  | _ => false

def cmdSintercard : Arm :=
  match counted 1 args with
  | some (first :: others, rest) =>
    if !limitsOk rest || d.crossslot first (first :: others) then .done
    else sop (d.slotOf first) (first :: others) .done
  | _ => .done

def cmdSmove : Arm :=
  match args with
  | [_, src, dst, _] =>
    if d.crossslot src [dst] then .done
    else .ask (d.read src) fun a => match a with
      | .found => .ask ⟨d.slotOf src, dst, false⟩ fun a => match a with
        | .refused => .done
        | _ => .ask (d.read src) fun a => match a with
          | .found =>
            if src = dst then .done
            else .ask ⟨d.slotOf src, dst, true⟩ fun a => match a with
              | .refused => .done
              | _ => .ask (d.write src) fun _ => .done
          | _ => .done
      | _ => .done
  | _ => .done

def cmdLmove (src dst : String) : Arm :=
  if !d.whole && d.crossslot src [dst] then .done
  else .ask (d.read src) fun a => match a with
    | .found =>
      let move : Arm := .ask (d.write src) fun a => match a with
        | .found => .ask (d.write dst) fun a => match a with
          | .refused => .ask (d.write src) fun _ => .done
          | _ => .done
        | _ => .done
      if src = dst then move
      else .ask (d.read dst) fun a => match a with
        | .refused => .done
        | _ => move
    | _ => .done

def isSide (word : String) : Bool := saysWord word "LEFT" || saysWord word "RIGHT"

/-- `LMOVE`, `RPOPLPUSH`, `BLMOVE`, `BRPOPLPUSH`: of `arity` words, with the ends named or not, and
a timeout at the end or not. -/
def listMove (arity : ℕ) (sided timed : Bool) : Arm :=
  match args with
  | _ :: src :: dst :: rest =>
    if args.length ≠ arity then .done
    else if sided && !(isSide (rest.getD 0 "") && isSide (rest.getD 1 "")) then .done
    else if timed && !d.timeoutOk (rest.getLastD "") then .done
    else cmdLmove d src dst
  | _ => .done

def cmdBpop : Arm :=
  match (args.drop 1).dropLast with
  | [] => .done
  | first :: others =>
    if !d.timeoutOk (args.getLastD "") then .done
    else if d.crossslot first others then .done
    else walk goWhileMissing ((first :: others).map d.write) .done

def countOk : List String → Bool
  | [] => true
  | [word, n] => saysWord word "COUNT" && (parseRedisI64 n).any (1 ≤ ·)
  | _ => false

def cmdMpop (zset blocking : Bool) : Arm :=
  match counted (if blocking then 2 else 1) args with
  | some (first :: others, side :: rest) =>
    let sideOk := if zset then saysWord side "MIN" || saysWord side "MAX" else isSide side
    if !sideOk || !countOk rest || (blocking && !d.timeoutOk (args.getD 1 "")) then .done
    else if d.crossslot first others then .done
    else walk goWhileMissing ((first :: others).map d.write) .done
  | _ => .done

def cmdZalgebra (store : Bool) : Arm :=
  match counted (if store then 2 else 1) args with
  | some (key :: keys, _) =>
    let first := if store then args.getD 1 "" else key
    let slot := d.slotOf first
    let asks := (key :: keys).map fun k => (⟨slot, k, false⟩ : Access)
    if d.crossslot first (key :: keys) then .done
    else walk goUnlessRefused asks
      (if !d.restOk args then .done
        else walk goUnlessRefused asks
          (walk goUntilSettled asks
            (if store then .ask (d.write first) fun _ => .done else .done)))
  | _ => .done

def cmdZrangestore : Arm :=
  match args with
  | _ :: dst :: src :: rest =>
    if rest.length < 2 then .done
    else if d.crossslot dst [src] then .done
    else if !d.restOk args then .done
    else .ask (d.read src) fun a => match a with
      | .refused => .done
      | _ => .ask ⟨d.slotOf src, dst, true⟩ fun _ => .done
  | _ => .done

def storeKey : List String → Option String
  | [] => none
  | word :: rest =>
    if ["WITHDIST", "WITHHASH", "WITHCOORD", "ANY", "ASC", "DESC"].contains word.toUpper then
      storeKey rest
    else match rest with
      | [] => none
      | value :: rest =>
        if saysWord word "COUNT" then storeKey rest
        else if saysWord word "STORE" || saysWord word "STOREDIST" then
          (storeKey rest).or (some value)
        else none

def cmdGeosearch (src : String) (dst : Option String) : Arm :=
  if (dst.toList.any fun k => d.slotOf k ≠ d.slotOf src) then .done
  else .ask (d.read src) fun a => match a with
    | .refused => .done
    | _ =>
      if !d.restOk args then .done
      else match dst with
        | some dst => .ask (d.write dst) fun _ => .done
        | none => .done

def cmdGeoradius (base : ℕ) : Arm :=
  if args.length < base then .done
  else cmdGeosearch d args (args.getD 1 "") (storeKey (args.drop base))

def cmdGeosearchstore : Arm :=
  if args.length < 8 then .done
  else cmdGeosearch d args (args.getD 2 "") (some (args.getD 1 ""))

def cmdBitop : Arm :=
  match args with
  | _ :: op :: dst :: key :: keys =>
    if d.crossslot dst (key :: keys) then .done
    else if !(["AND", "OR", "XOR", "NOT", "DIFF", "DIFF1", "ANDOR", "ONE"].contains op.toUpper) then
      .done
    else if saysWord op "NOT" && keys.length ≠ 0 then .done
    else if ["DIFF", "DIFF1", "ANDOR"].contains op.toUpper && keys.length < 1 then .done
    else walk goUnlessRefused ((key :: keys).map fun k => ⟨d.slotOf dst, k, false⟩)
      (.ask (d.write dst) fun _ => .done)
  | _ => .done

def copyRow (slot : ℕ) (src dst : String) (replace : Bool) (rest : Arm) : Arm :=
  .ask ⟨slot, src, false⟩ fun a => match a with
    | .found => .ask ⟨slot, dst, false⟩ fun a => match a, replace with
      | .found, false => .done
      | _, _ => .ask ⟨slot, dst, true⟩ fun _ => rest
    | _ => .done

def copyReplaces : List String → Bool → Option Bool
  | [], replace => some replace
  | word :: rest, replace =>
    if saysWord word "REPLACE" then copyReplaces rest true
    else if saysWord word "DB" then
      match rest with
      | n :: rest => if parseRedisI64 n = some 0 then copyReplaces rest replace else none
      | [] => none
    else none

def cmdCopy : Arm :=
  match args with
  | _ :: src :: dst :: rest =>
    match copyReplaces rest false with
    | some replace =>
      if d.crossslot src [dst] then .done
      else if src = dst then .done
      else copyRow (d.slotOf src) src dst replace .done
    | none => .done
  | _ => .done

def cmdRename (nx : Bool) : Arm :=
  match args with
  | [_, src, dst] =>
    if d.crossslot src [dst] then .done
    else .ask (d.read src) fun a => match a with
      | .found =>
        if src = dst then .done
        else
          let renamed := copyRow (d.slotOf src) src dst true (.ask (d.write src) fun _ => .done)
          if nx then .ask ⟨d.slotOf src, dst, false⟩ fun a => match a with
            | .found => .done
            | _ => renamed
          else renamed
      | _ => .done
  | _ => .done

/-- `parse_read`: the streams and where to read each from.  `group` is whether a group was named. -/
def parseRead (xreadgroup : Bool) : Bool → List String → Option (List String × List String)
  | group, word :: value :: rest =>
    if saysWord word "BLOCK" then
      if (parseRedisI64 value).any (0 ≤ ·) then parseRead xreadgroup group rest else none
    else if saysWord word "COUNT" then
      if (parseRedisI64 value).isSome then parseRead xreadgroup group rest else none
    else if saysWord word "STREAMS" then
      if (value :: rest).length % 2 = 1 || (xreadgroup && !group) then none
      else some ((value :: rest).splitAt ((value :: rest).length / 2))
    else if saysWord word "GROUP" then
      match rest with
      | _ :: rest => if xreadgroup then parseRead xreadgroup true rest else none
      | [] => none
    else if saysWord word "NOACK" then
      if xreadgroup then parseRead xreadgroup group (value :: rest) else none
    else none
  | _, _ => none

def startPoints (act : StoreAnswer → WalkStep) : List (String × String) → Arm → Arm
  | [], rest => rest
  | (k, id) :: more, rest => .ask (d.read k) fun a => match act a with
    | .go => if d.idOk id then startPoints act more rest else .done
    | .leave => rest
    | .stop => .done

def cmdXread : Arm :=
  if args.length < 4 then .done
  else match parseRead false false (args.drop 1) with
    | some (keys, ids) =>
      if !d.whole && d.crossslot (keys.headD "") keys.tail then .done
      else startPoints d goUnlessRefused (keys.zip ids)
        (walk goUnlessRefused (keys.map d.read) .done)
    | none => .done

def goWhileFound : StoreAnswer → WalkStep
  | .found => .go
  | _ => .stop

def cmdXreadgroup : Arm :=
  if args.length < 7 then .done
  else match parseRead true false (args.drop 1) with
    | some (keys, ids) =>
      if !d.whole && d.crossslot (keys.headD "") keys.tail then .done
      else startPoints d goWhileFound (keys.zip ids)
        (walk goUnlessRefused (keys.map d.write) .done)
    | none => .done

def cmdJsonMget : Arm :=
  match (args.drop 1).dropLast with
  | [] => .done
  | first :: others =>
    if d.crossslot first others then .done
    else if !d.restOk args then .done
    else walk goOn ((first :: others).map d.read) .done

def cmdJsonMset : Arm :=
  let keys := stepBy 3 (args.drop 1)
  if args.length < 4 || (args.length - 1) % 3 ≠ 0 then .done
  else if d.crossslot (keys.headD "") keys.tail then .done
  else walk goUnlessRefused (keys.map d.read)
    (if !d.restOk args then .done
      else walk goUnlessRefused (keys.map d.write) .done)

def cmdEval : Effect :=
  match (args[2]?).bind parseRedisI64 with
  | some n =>
    if 0 ≤ n ∧ n ≤ (args.drop 3).length then
      let keys := (args.drop 3).take n.toNat
      if !d.whole && d.crossslot (keys.headD "") keys.tail then .asks .done
      else if !d.restOk args then .asks .done
      else .script keys
    else .asks .done
  | none => .asks .done

def flushArgsOk : Bool :=
  match args with
  | [_] => true
  | [_, mode] => saysWord mode "ASYNC" || saysWord mode "SYNC"
  | _ => false

def jsonDebugKey : Option (Option String) :=
  if saysWord (args.headD "") "JSON.DEBUG" then
    some (match args[1]? with
      | some sub => if saysWord sub "MEMORY" then args[2]? else none
      | none => none)
  else none

end Arms

/-! ## The table of commands -/

inductive Family
  | keyless
  | flush
  | dbsize
  | scan
  | eval
  | single
  | jsonDebug
  | subcommand
  | every (write : Bool)
  | mset
  | mget
  | pfcount
  | pfmerge
  | sop
  | sstore
  | sintercard
  | smove
  | listMove (arity : ℕ) (sided timed : Bool)
  | bpop
  | mpop (zset blocking : Bool)
  | zalgebra (store : Bool)
  | zrangestore
  | georadius (base : ℕ)
  | geosearchstore
  | bitop
  | copy
  | rename (nx : Bool)
  | xread
  | xreadgroup
  | jsonMget
  | jsonMset
  deriving DecidableEq, Repr

def singleNames : List String :=
  ["SET", "SETNX", "SETEX", "PSETEX", "GET", "GETDEL", "GETEX", "GETSET", "INCR", "DECR", "INCRBY",
    "DECRBY", "INCRBYFLOAT", "APPEND", "STRLEN", "GETRANGE", "BITFIELD", "BITFIELD_RO", "SETBIT",
    "GETBIT", "BITCOUNT", "BITPOS", "PFADD", "SETRANGE", "HSET", "XADD", "XLEN", "XRANGE",
    "XREVRANGE", "XDEL", "XTRIM", "XACK", "XCLAIM", "XAUTOCLAIM", "XSETID", "XPENDING", "HMSET",
    "HSETNX", "HSTRLEN", "HGET", "HDEL", "HINCRBY", "HINCRBYFLOAT", "HLEN", "HEXISTS", "HMGET",
    "HGETALL", "HKEYS", "HVALS", "SADD", "SREM", "SISMEMBER", "SMISMEMBER", "SMEMBERS", "SCARD",
    "SPOP", "SRANDMEMBER", "HRANDFIELD", "ZRANDMEMBER", "HSCAN", "SSCAN", "ZSCAN", "LPUSHX",
    "RPUSHX", "LPUSH", "RPUSH", "LPOP", "RPOP", "LINDEX", "LLEN", "LRANGE", "LSET", "LTRIM", "LPOS",
    "LREM", "LINSERT", "ZADD", "ZSCORE", "ZINCRBY", "ZREM", "ZCARD", "ZRANGE", "ZREVRANGE",
    "ZRANGEBYSCORE", "ZREVRANGEBYSCORE", "ZRANGEBYLEX", "ZREVRANGEBYLEX", "ZRANK", "ZREVRANK",
    "ZCOUNT", "ZMSCORE", "ZPOPMIN", "ZPOPMAX", "ZLEXCOUNT", "ZREMRANGEBYLEX", "GEOADD", "GEOPOS",
    "GEOHASH", "GEODIST", "GEORADIUS_RO", "GEORADIUSBYMEMBER_RO", "GEOSEARCH", "ZREMRANGEBYSCORE",
    "ZREMRANGEBYRANK", "TYPE", "EXPIRE", "PEXPIRE", "EXPIREAT", "PEXPIREAT", "TTL", "PTTL",
    "EXPIRETIME", "PEXPIRETIME", "PERSIST", "FLINTKEYSIZE", "FLINTKEYSTAMP", "JSON.SET", "JSON.GET",
    "JSON.DEL", "JSON.FORGET", "JSON.TYPE", "JSON.NUMINCRBY", "JSON.NUMMULTBY", "JSON.ARRAPPEND",
    "JSON.ARRLEN", "JSON.MERGE", "JSON.STRLEN", "JSON.STRAPPEND", "JSON.OBJLEN", "JSON.OBJKEYS",
    "JSON.TOGGLE", "JSON.ARRINDEX", "JSON.ARRINSERT", "JSON.ARRPOP", "JSON.ARRTRIM", "JSON.CLEAR",
    "JSON.RESP", "BF.RESERVE", "BF.ADD", "BF.EXISTS", "BF.MADD", "BF.MEXISTS", "BF.CARD", "BF.INFO",
    "BF.INSERT"]

/-- The dispatcher's arms by name.  What is not here has no key. -/
def commandTable : List (Family × List String) :=
  [(.single, singleNames), (.flush, ["FLUSHALL", "FLUSHDB"]), (.dbsize, ["DBSIZE"]),
    (.scan, ["SCAN"]), (.eval, ["EVAL", "EVALSHA"]), (.jsonDebug, ["JSON.DEBUG"]),
    (.subcommand, ["XGROUP", "XINFO"]), (.every true, ["DEL", "UNLINK"]),
    (.every false, ["EXISTS", "TOUCH"]), (.mset, ["MSET"]), (.mget, ["MGET"]),
    (.pfcount, ["PFCOUNT"]), (.pfmerge, ["PFMERGE"]), (.sop, ["SINTER", "SUNION", "SDIFF"]),
    (.sstore, ["SINTERSTORE", "SUNIONSTORE", "SDIFFSTORE"]), (.sintercard, ["SINTERCARD"]),
    (.smove, ["SMOVE"]), (.listMove 5 true false, ["LMOVE"]),
    (.listMove 3 false false, ["RPOPLPUSH"]), (.listMove 6 true true, ["BLMOVE"]),
    (.listMove 4 false true, ["BRPOPLPUSH"]), (.bpop, ["BLPOP", "BRPOP", "BZPOPMIN", "BZPOPMAX"]),
    (.mpop false false, ["LMPOP"]), (.mpop true false, ["ZMPOP"]), (.mpop false true, ["BLMPOP"]),
    (.mpop true true, ["BZMPOP"]),
    (.zalgebra true, ["ZUNIONSTORE", "ZINTERSTORE", "ZDIFFSTORE"]),
    (.zalgebra false, ["ZUNION", "ZINTER", "ZDIFF", "ZINTERCARD"]), (.zrangestore, ["ZRANGESTORE"]),
    (.georadius 6, ["GEORADIUS"]), (.georadius 5, ["GEORADIUSBYMEMBER"]),
    (.geosearchstore, ["GEOSEARCHSTORE"]), (.bitop, ["BITOP"]), (.copy, ["COPY"]),
    (.rename false, ["RENAME"]), (.rename true, ["RENAMENX"]), (.xread, ["XREAD"]),
    (.xreadgroup, ["XREADGROUP", "FLINTXREADGROUP"]), (.jsonMget, ["JSON.MGET"]),
    (.jsonMset, ["JSON.MSET"])]

def familyOf (name : String) : Family :=
  ((commandTable.find? fun entry => entry.2.contains name).map Prod.fst).getD .keyless

def effect (d : Dispatcher) (args : Args) : Effect :=
  match familyOf (commandName args) with
  | .keyless => .asks .done
  | .flush => if flushArgsOk args then .sweep true else .asks .done
  | .dbsize => .sweep false
  | .scan => if args.length < 2 || !d.restOk args then .asks .done else .sweep false
  | .eval => cmdEval d args
  | .single => .asks (oneKey d args args[1]?)
  | .jsonDebug => .asks (oneKey d args (jsonDebugKey args).join)
  | .subcommand => .asks (oneKey d args (subcommandKey args).join)
  | .every write => .asks (multiKey d args write)
  | .mset => .asks (cmdMset d args)
  | .mget => .asks (cmdMget d args)
  | .pfcount => .asks (cmdPfcount d args)
  | .pfmerge => .asks (cmdPfmerge d args)
  | .sop => .asks (cmdSop d args)
  | .sstore => .asks (cmdSstore d args)
  | .sintercard => .asks (cmdSintercard d args)
  | .smove => .asks (cmdSmove d args)
  | .listMove arity sided timed => .asks (listMove d args arity sided timed)
  | .bpop => .asks (cmdBpop d args)
  | .mpop zset blocking => .asks (cmdMpop d args zset blocking)
  | .zalgebra store => .asks (cmdZalgebra d args store)
  | .zrangestore => .asks (cmdZrangestore d args)
  | .georadius base => .asks (cmdGeoradius d args base)
  | .geosearchstore => .asks (cmdGeosearchstore d args)
  | .bitop => .asks (cmdBitop d args)
  | .copy => .asks (cmdCopy d args)
  | .rename nx => .asks (cmdRename d args nx)
  | .xread => .asks (cmdXread d args)
  | .xreadgroup => .asks (cmdXreadgroup d args)
  | .jsonMget => .asks (cmdJsonMget d args)
  | .jsonMset => .asks (cmdJsonMset d args)

end Flint
