import FlintCache.Lib.Machine
import FlintCache.Proxy.Cache
import FlintCache.Resp.Commands

/-!
# Proxy/NearCache — reading one's own writes through the cache

The clients of a proxy look keys up in its cache, fetch what they miss and fill the cache with it;
their writes drop what they may have changed once they are answered.  A write's answer is to be the
end of the older values.  A reading is told from others by the number of writes of its key that it
has seen.
-/

namespace Flint

open List Table Option ProxyCache Nat

/-- A value read, and how many writes of its key it has seen. -/
structure Reading where
  bytes : String
  writes : ℕ
  deriving DecidableEq, Repr

/-- A client connection: its tenant, its opt-in and its open transaction. -/
structure NearConn where
  ns : Ns
  /-- The tenant's opt-in, as it was when the connection was authenticated. -/
  localCache : Bool
  queued : List Args
  writes : List Args
  deriving DecidableEq, Repr

/-- A command under way. -/
inductive NearOp
  /-- A `GET` that missed; `reply` is what the node answered. -/
  | get (ns : Ns) (key : String) (localCache cacheable staged : Bool)
      (reply : Option (Option Reading))
  /-- A write; `seen` has the keys that it has changed, with the writes each has seen. -/
  | write (ns : Ns) (args : Args) (localCache handed : Bool) (seen : Table String ℕ)
  | exec (ns : Ns) (caching : Bool) (queued written : List Args) (seen : Table String ℕ)

structure NearConfig where
  slotOf : String → ℕ
  placed : Ns → Bool
  ttlMs : ℕ
  maxBytes : ℕ
  ttlMaxMs : ℕ

/-- The cache, the clients and their commands, and how often each key was written. -/
structure NearState where
  cache : ProxyCache Reading
  now : ℕ
  conns : Table ℕ NearConn
  ops : Table ℕ NearOp
  writes : Ns × String → ℕ
  answered : Ns × String → ℕ

variable (cfg : NearConfig)

namespace NearConfig

def covers (ns : Ns) (key : String) : Written → Bool
  | .keys keys => keys.contains key
  | .all => true
  | .script keys => cfg.placed ns || keys.head?.any fun k => cfg.slotOf k = cfg.slotOf key

/-- The keys that a command may change.  `COPY` reads its first key, and `PFCOUNT` keeps the count
of one key only. -/
def mayChange (ns : Ns) (args : Args) (key : String) : Bool :=
  match (args.headD "").toUpper with
  | "COPY" => args[2]? == some key
  | "PFCOUNT" => args.length == 2 && args[1]? == some key
  | _ => (writtenKeys args).any (cfg.covers ns key)

def dropKeys (cache : ProxyCache Reading) (ns : Ns) (keys : List String) : ProxyCache Reading :=
  keys.foldl (fun cache key => cache.invalidate ns key) cache

/-- A script may write any key of its keys' slot, and any at all where its tenant is on one pair. -/
def dropScript (now : ℕ) (cache : ProxyCache Reading) (ns : Ns) (args : Args) :
    ProxyCache Reading :=
  if cfg.placed ns then cache.invalidateNs ns
  else
    match ((evalKeys args).getD []).head? with
    | some first => cache.invalidateSlot now ns (cfg.slotOf first)
    | none => cache

def cacheInvalidateWritten (now : ℕ) (cache : ProxyCache Reading) (ns : Ns) (args : Args) :
    ProxyCache Reading :=
  match (args.headD "").toUpper with
  | "DEL" => dropKeys cache ns (args.drop 1)
  | "UNLINK" => dropKeys cache ns (args.drop 1)
  | "EVAL" => cfg.dropScript now cache ns args
  | "EVALSHA" => cfg.dropScript now cache ns args
  | "MSET" => dropKeys cache ns (stepBy 2 (args.drop 1))
  | "JSON.MSET" => dropKeys cache ns (stepBy 3 (args.drop 1))
  | "COPY" => dropKeys cache ns args[2]?.toList
  | "BITOP" => dropKeys cache ns args[2]?.toList
  | "RENAME" => dropKeys cache ns ((args.drop 1).take 2)
  | "RENAMENX" => dropKeys cache ns ((args.drop 1).take 2)
  | "LMOVE" => dropKeys cache ns ((args.drop 1).take 2)
  | "RPOPLPUSH" => dropKeys cache ns ((args.drop 1).take 2)
  | "BLMOVE" => dropKeys cache ns ((args.drop 1).take 2)
  | "BRPOPLPUSH" => dropKeys cache ns ((args.drop 1).take 2)
  | "SMOVE" => dropKeys cache ns ((args.drop 1).take 2)
  | "GEORADIUS" => dropKeys cache ns (georadiusStoreKeys args)
  | "GEORADIUSBYMEMBER" => dropKeys cache ns (georadiusStoreKeys args)
  | "FLUSHALL" => cache.invalidateNs ns
  | "FLUSHDB" => cache.invalidateNs ns
  | _ => dropKeys cache ns args[1]?.toList

def cacheWriteback (now : ℕ) (cache : ProxyCache Reading) (ns : Ns) (args : Args)
    (localCache : Bool) : ProxyCache Reading :=
  if localCache && cache.enabled && isWriteCommand (args.headD "") then
    cfg.cacheInvalidateWritten now cache ns args
  else cache

end NearConfig

/-- One step of a client, of a node or of the operator. -/
inductive NearEvent
  /-- A connection is authenticated, or opened as a co-processor's channel (without the opt-in). -/
  | auth (conn : ℕ) (ns : Ns) (localCache : Bool)
  | tick (ms : ℕ)
  | configure (ttlMs maxBytes : ℕ)
  | setNsTtl (ns : Ns) (ttlMs : ℕ)
  | look (op conn : ℕ) (key : String)
  /-- …in the staging pass of a pipeline, behind a write of it or not. -/
  | stage (op conn : ℕ) (key : String) (behind : Bool)
  /-- A node answers a `GET`; a replica may lag behind some writes. -/
  | fetch (op : ℕ) (reply : Option String) (lag : ℕ)
  | fill (op : ℕ)
  | send (op conn : ℕ) (args : Args) (handed : Bool)
  /-- A node refuses a write as a search index's, and it is handed to the co-processor. -/
  | hand (op : ℕ)
  | effect (op : ℕ) (key : String)
  | answer (op : ℕ)
  | queue (conn : ℕ) (args : Args)
  /-- A write inside a transaction that is not queued: its private connection was lost, and the new
  one runs it at once. -/
  | early (op conn : ℕ) (args : Args)
  /-- A write staged on a connection that holds a subscription: it is run, and then refused. -/
  | stageRefused (op conn : ℕ) (args : Args)
  | exec (op conn : ℕ)
  | discard (conn : ℕ)
  | elsewhere (ns : Ns) (key : String)

namespace NearState

def start : NearState :=
  ⟨.withCeiling cfg.ttlMs cfg.maxBytes cfg.ttlMaxMs, 0, ∅, ∅, fun _ => 0, fun _ => 0⟩

def bump (s : NearState) (c : Ns × String) : NearState :=
  { s with writes := Function.update s.writes c (s.writes c + 1) }

/-- A lookup: the reading it is answered with, and the state after it. -/
def lookUp (s : NearState) (op : ℕ) (conn : NearConn) (key : String) (behind staged : Bool) :
    Option Reading × NearState :=
  let cacheable := !behind && conn.localCache && s.cache.enabled
  let r := if cacheable then s.cache.get cfg.slotOf s.now conn.ns key else (none, s.cache)
  match r.1 with
  | some v => (some v, { s with cache := r.2 })
  | none =>
    (none,
      { s with
        cache := r.2
        ops := s.ops.insert op (.get conn.ns key conn.localCache cacheable staged none) })

def fillWith (s : NearState) (ns : Ns) (key : String) (localCache cacheable staged : Bool) :
    Option Reading → ProxyCache Reading
  | some v =>
    if (if staged then localCache && s.cache.enabled else cacheable) then
      s.cache.put (fun v => v.bytes.length) s.now ns key v
    else s.cache
  | none => s.cache

/-- A write that no one writes back to the cache: it is answered as what ran it says. -/
def sendPast (s : NearState) (op conn : ℕ) (args : Args) : Option NearState :=
  match s.conns.lookup conn, s.ops.lookup op with
  | some c, none =>
    if isWriteCommand (args.headD "") then
      some { s with ops := s.ops.insert op (.exec c.ns false [args] [] ∅) }
    else none
  | _, _ => none

def answeredWith (s : NearState) (ns : Ns) (seen : Table String ℕ) : Ns × String → ℕ :=
  fun c => if c.1 = ns then max (s.answered c) ((seen.lookup c.2).getD 0) else s.answered c

def opStep (s : NearState) (id : ℕ) (op : NearOp) : NearEvent → Option NearState
  | .fetch _ reply lag =>
    match op with
    | .get ns key localCache cacheable staged none =>
      some { s with
        ops := s.ops.insert id (.get ns key localCache cacheable staged
          (some (reply.map fun bytes => ⟨bytes, s.writes (ns, key) - lag⟩))) }
    | _ => none
  | .fill _ =>
    match op with
    | .get ns key localCache cacheable staged (some reply) =>
      some { s with
        cache := s.fillWith ns key localCache cacheable staged reply
        ops := s.ops.erase id }
    | _ => none
  | .hand _ =>
    match op with
    | .write ns args localCache false seen =>
      if seen.entries.isEmpty then
        some { s with
          cache := cfg.cacheWriteback s.now s.cache ns args localCache
          ops := s.ops.insert id (.write ns args localCache true seen) }
      else none
    | _ => none
  | .effect _ key =>
    match op with
    | .write ns args localCache handed seen =>
      if handed || cfg.mayChange ns args key then
        some { s.bump (ns, key) with
          ops := s.ops.insert id
            (.write ns args localCache handed (seen.insert key (s.writes (ns, key) + 1))) }
      else none
    | .exec ns caching queued written seen =>
      if queued.any fun args => cfg.mayChange ns args key then
        some { s.bump (ns, key) with
          ops := s.ops.insert id
            (.exec ns caching queued written (seen.insert key (s.writes (ns, key) + 1))) }
      else none
    | _ => none
  | .answer _ =>
    match op with
    | .write ns args localCache handed seen =>
      some { s with
        cache := if handed then s.cache else cfg.cacheWriteback s.now s.cache ns args localCache
        ops := s.ops.erase id
        answered := s.answeredWith ns seen }
    | .exec ns caching _ written seen =>
      some { s with
        cache :=
          if caching then
            written.foldl (fun cache args => cfg.cacheInvalidateWritten s.now cache ns args) s.cache
          else s.cache
        ops := s.ops.erase id
        answered := s.answeredWith ns seen }
    | _ => none
  | _ => none

def step (s : NearState) : NearEvent → Option NearState
  | .auth conn ns localCache =>
    match s.conns.lookup conn with
    | none => some { s with conns := s.conns.insert conn ⟨ns, localCache, [], []⟩ }
    | some c =>
      if c.ns = ns then some { s with conns := s.conns.insert conn { c with localCache } } else none
  | .tick ms => some { s with now := s.now + ms }
  | .configure ttlMs maxBytes => some { s with cache := s.cache.configure ttlMs maxBytes }
  | .setNsTtl ns ttlMs => some { s with cache := s.cache.setNsTtl ns ttlMs }
  | .look op conn key =>
    match s.conns.lookup conn, s.ops.lookup op with
    | some c, none => some (s.lookUp cfg op c key false false).2
    | _, _ => none
  | .stage op conn key behind =>
    match s.conns.lookup conn, s.ops.lookup op with
    | some c, none => some (s.lookUp cfg op c key behind true).2
    | _, _ => none
  | .send op conn args handed =>
    match s.conns.lookup conn, s.ops.lookup op with
    | some c, none =>
      if isWriteCommand (args.headD "") then
        some { s with ops := s.ops.insert op (.write c.ns args c.localCache handed ∅) }
      else none
    | _, _ => none
  | .queue conn args =>
    match s.conns.lookup conn with
    | some c =>
      if isWriteCommand (args.headD "") then
        some { s with
          conns := s.conns.insert conn
            { c with
              queued := c.queued ++ [args]
              writes := if c.localCache && s.cache.enabled then c.writes ++ [args] else c.writes } }
      else none
    | none => none
  | .early op conn args => s.sendPast op conn args
  | .stageRefused op conn args => s.sendPast op conn args
  | .exec op conn =>
    match s.conns.lookup conn, s.ops.lookup op with
    | some c, none =>
      some { s with
        conns := s.conns.insert conn { c with queued := [], writes := [] }
        ops := s.ops.insert op
          (.exec c.ns (c.localCache && s.cache.enabled) c.queued c.writes ∅) }
    | _, _ => none
  | .discard conn =>
    (s.conns.lookup conn).map fun c =>
      { s with conns := s.conns.insert conn { c with queued := [], writes := [] } }
  | .elsewhere ns key => some (s.bump (ns, key))
  | .fetch op reply lag => (s.ops.lookup op).bind fun o => s.opStep cfg op o (.fetch op reply lag)
  | .fill op => (s.ops.lookup op).bind fun o => s.opStep cfg op o (.fill op)
  | .hand op => (s.ops.lookup op).bind fun o => s.opStep cfg op o (.hand op)
  | .effect op key => (s.ops.lookup op).bind fun o => s.opStep cfg op o (.effect op key)
  | .answer op => (s.ops.lookup op).bind fun o => s.opStep cfg op o (.answer op)

def machine : Machine NearState NearEvent where
  init s := s = .start cfg
  step s e := s.step cfg e

def hit (s : NearState) : NearEvent → Option ((Ns × String) × Reading)
  | .look op conn key =>
    (s.conns.lookup conn).bind fun c =>
      ((s.lookUp cfg op c key false false).1).map fun v => ((c.ns, key), v)
  | .stage op conn key behind =>
    (s.conns.lookup conn).bind fun c =>
      ((s.lookUp cfg op c key behind true).1).map fun v => ((c.ns, key), v)
  | _ => none

end NearState

/-! ## What a write drops -/

/-- The commands that may change a key without dropping it: pops over several keys, and groups'. -/
def undropped : List String :=
  ["BLPOP", "BRPOP", "BZPOPMIN", "BZPOPMAX", "LMPOP", "ZMPOP", "BLMPOP", "BZMPOP", "XREADGROUP",
    "FLINTXREADGROUP", "XGROUP"]

variable {args : Args}

namespace NearConfig

variable {cfg : NearConfig} {now : ℕ} {cache cache' : ProxyCache Reading} {ns : Ns}
  {c : Ns × String} {e : Entry Reading}

/-- **Entries are dropped from a cache that is on**: none is added, and the clockwork is kept. -/
structure Dropped (cfg : NearConfig) (now : ℕ) (cache' cache : ProxyCache Reading) : Prop where
  knobs : cache'.SameKnobs cache
  timed : cache'.Timed cfg.slotOf now
  lives : ∀ c e, cache'.Lives cfg.slotOf now c e → cache.Lives cfg.slotOf now c e

theorem Dropped.trans {cache'' : ProxyCache Reading} (h' : Dropped cfg now cache'' cache')
    (h : Dropped cfg now cache' cache) : Dropped cfg now cache'' cache :=
  ⟨⟨h'.knobs.ttlMs.trans h.knobs.ttlMs, h'.knobs.nsTtlMs.trans h.knobs.nsTtlMs,
    h'.knobs.ttlMaxMs.trans h.knobs.ttlMaxMs⟩, h'.timed,
    fun c e hl => h.lives c e (h'.lives c e hl)⟩

theorem Dropped.refl (ht : cache.Timed cfg.slotOf now) : Dropped cfg now cache cache :=
  ⟨⟨rfl, rfl, rfl⟩, ht, fun _ _ h => h⟩

theorem Dropped.enabled (h : Dropped cfg now cache' cache) : cache'.enabled = cache.enabled := by
  unfold ProxyCache.enabled
  rw [h.knobs.ttlMs]

section

variable (ht : cache.Timed cfg.slotOf now) (hon : cache.enabled = true) (ns : Ns)
include ht hon

theorem dropped_invalidate (key : String) : Dropped cfg now (cache.invalidate ns key) cache := by
  refine ⟨?_, ht.invalidate ns key, fun c e h => (h.of_invalidate hon).2⟩
  unfold invalidate
  split <;> exact ⟨rfl, rfl, rfl⟩

theorem dropped_invalidateNs : Dropped cfg now (cache.invalidateNs ns) cache := by
  refine ⟨?_, ht.invalidateNs ns, fun c e h => (h.of_invalidateNs hon).2⟩
  unfold invalidateNs
  split <;> exact ⟨rfl, rfl, rfl⟩

theorem dropped_invalidateSlot (slot : ℕ) :
    Dropped cfg now (cache.invalidateSlot now ns slot) cache := by
  refine ⟨?_, ht.invalidateSlot ns, fun c e h => (h.of_invalidateSlot ht hon).2⟩
  unfold invalidateSlot
  split <;> exact ⟨rfl, rfl, rfl⟩

end

theorem dropped_dropKeys (keys : List String) (ht : cache.Timed cfg.slotOf now)
    (hon : cache.enabled) : Dropped cfg now (dropKeys cache ns keys) cache ∧
      ∀ c e, (dropKeys cache ns keys).Lives cfg.slotOf now c e → c.1 = ns → c.2 ∉ keys := by
  induction keys generalizing cache with
  | nil => exact ⟨.refl ht, fun _ _ _ _ => not_mem_nil⟩
  | cons key keys ih =>
    have hd := dropped_invalidate ht hon ns key
    obtain ⟨hrest, hgone⟩ := ih hd.timed (hd.enabled.trans hon)
    refine ⟨hrest.trans hd, fun c e h hns hmem => ?_⟩
    rcases mem_cons.mp hmem with hkey | hmem
    · exact ((hrest.lives c e h).of_invalidate hon).1 (Prod.ext hns hkey)
    · exact hgone c e h hns hmem

variable {key : String}

theorem covers_of_mayChange (h : cfg.mayChange ns args key) :
    (args.headD "").toUpper = "COPY" ∧ args[2]? = some key ∨
      (args.headD "").toUpper = "PFCOUNT" ∧ args[1]? = some key ∨
        ((args.headD "").toUpper ≠ "COPY" ∧ (args.headD "").toUpper ≠ "PFCOUNT") ∧
          cfg.covers ns key (writtenOf args) := by
  unfold mayChange at h
  split at h
  · next hverb => exact .inl ⟨hverb, beq_iff_eq.mp h⟩
  · next hverb => exact .inr (.inl ⟨hverb, beq_iff_eq.mp (Bool.and_eq_true_iff.mp h).2⟩)
  rename_i hcopy hcount
  obtain ⟨w, hw, hcovers⟩ := (any_eq_true _ _).mp h
  obtain ⟨-, ⟨⟩⟩ := ite_none_right_eq_some.mp hw
  exact .inr (.inr ⟨⟨hcopy, hcount⟩, hcovers⟩)

theorem writtenOf_other (hname : undropped.contains (args.headD "").toUpper = false)
    (hcount : (args.headD "").toUpper ≠ "PFCOUNT")
    (h : (args.headD "").toUpper ∉ ["DEL", "UNLINK", "EVAL", "EVALSHA", "MSET", "JSON.MSET", "COPY",
      "BITOP", "RENAME", "RENAMENX", "LMOVE", "RPOPLPUSH", "BLMOVE", "BRPOPLPUSH", "SMOVE",
      "GEORADIUS", "GEORADIUSBYMEMBER", "FLUSHALL", "FLUSHDB"]) :
    writtenOf args = .keys ((args.drop 1).take 1) := by
  unfold writtenOf
  split
  all_goals first
    | rfl
    | exact absurd ‹_› hcount
    | (rename_i hverb; rw [hverb] at h hname; exact absurd h (by decide))
    | (rename_i hverb; rw [hverb] at h hname; exact absurd hname (by decide))

section

variable (ht : cache.Timed cfg.slotOf now)
include ht

section

variable (hon : cache.enabled)
include hon

theorem dropped_dropScript (ns : Ns)
    (args : Args) : Dropped cfg now (cfg.dropScript now cache ns args) cache := by
  unfold dropScript
  split
  · exact dropped_invalidateNs ht hon ns
  · split
    · exact dropped_invalidateSlot ht hon ns _
    · exact .refl ht

theorem dropped_cacheInvalidateWritten (ns : Ns) (args : Args) :
    Dropped cfg now (cfg.cacheInvalidateWritten now cache ns args) cache := by
  unfold cacheInvalidateWritten
  split
  all_goals first
    | exact (dropped_dropKeys _ ht hon).1
    | exact dropped_dropScript ht hon ns args
    | exact dropped_invalidateNs ht hon ns

theorem not_covers_keys {keys dropped : List String} (hkeys : keys = dropped)
    (h : (dropKeys cache ns dropped).Lives cfg.slotOf now c e) (hns : c.1 = ns) :
    ¬ cfg.covers ns c.2 (.keys keys) := by
  subst hkeys
  intro hcovers
  exact (dropped_dropKeys keys ht hon).2 c e h hns (by simpa [covers] using hcovers)

theorem not_covers_script
    (h : (cfg.dropScript now cache ns args).Lives cfg.slotOf now c e) (hns : c.1 = ns) :
    ¬ cfg.covers ns c.2 (.script ((evalKeys args).getD [])) := by
  intro hcovers
  unfold dropScript at h
  split at h
  · exact (h.of_invalidateNs hon).1 hns
  rename_i hplaced
  simp only [covers, hplaced, Bool.false_or] at hcovers
  split at h
  · rename_i first hfirst
    rw [hfirst] at hcovers
    exact (h.of_invalidateSlot ht hon).1 hns (by simpa using Eq.symm (by simpa using hcovers))
  · rename_i hnone
    rw [hnone] at hcovers
    exact absurd hcovers Bool.false_ne_true

theorem mayChange_of_lives (hname : undropped.contains (args.headD "").toUpper = false)
    (h : (cfg.cacheInvalidateWritten now cache ns args).Lives cfg.slotOf now c e) (hns : c.1 = ns) :
    cfg.mayChange ns args c.2 = false := by
  refine Bool.eq_false_iff.mpr fun hchange => ?_
  unfold cacheInvalidateWritten at h
  rcases covers_of_mayChange hchange with ⟨hverb, hkey⟩ | ⟨hverb, hkey⟩ | ⟨⟨hcopy, hcount⟩, hcovers⟩
  iterate 2
    · simp only [hverb] at h
      exact (dropped_dropKeys _ ht hon).2 c e h hns (by simp [hkey])
  split at h
  case h_7 => exact hcopy ‹_›
  case h_20 =>
    rw [writtenOf_other hname hcount (by
      simp only [mem_cons, not_mem_nil, or_false, not_or]
      and_intros <;> assumption)] at hcovers
    exact not_covers_keys ht hon (take_one_drop _ _) h hns hcovers
  all_goals
    rename_i hverb
    simp only [writtenOf, hverb] at hcovers
  all_goals first
    | exact not_covers_keys ht hon rfl h hns hcovers
    | exact not_covers_keys ht hon (take_one_drop _ _) h hns hcovers
    | exact not_covers_script ht hon h hns hcovers
    | exact (h.of_invalidateNs hon).1 hns

end

end

theorem cacheInvalidateWritten_off (hoff : cache.enabled = false) (ns : Ns) (args : Args) :
    cfg.cacheInvalidateWritten now cache ns args = cache := by
  have hkey : ∀ key, cache.invalidate ns key = cache := fun key => by
    rw [invalidate, if_neg (by simp [hoff])]
  have hns : cache.invalidateNs ns = cache := by
    rw [invalidateNs, if_neg (by simp [hoff])]
  have hkeys : ∀ keys, dropKeys cache ns keys = cache := fun keys => by
    unfold dropKeys
    induction keys with
    | nil => rfl
    | cons key keys ih => rw [foldl_cons, hkey key, ih]
  have hscript : cfg.dropScript now cache ns args = cache := by
    unfold dropScript
    split
    · exact hns
    · split
      · rw [invalidateSlot, if_neg (by simp [hoff])]
      · rfl
  unfold cacheInvalidateWritten
  split
  all_goals first
    | exact hkeys _
    | exact hscript
    | exact hns

theorem dropped_written (written : List Args) (ht : cache.Timed cfg.slotOf now)
    (hon : cache.enabled) : Dropped cfg now
        (written.foldl (fun cache args => cfg.cacheInvalidateWritten now cache ns args) cache)
        cache ∧
      ∀ c e, (written.foldl (fun cache args => cfg.cacheInvalidateWritten now cache ns args)
          cache).Lives cfg.slotOf now c e → c.1 = ns → ∀ args ∈ written,
        undropped.contains (args.headD "").toUpper = false → cfg.mayChange ns args c.2 = false := by
  induction written generalizing cache with
  | nil => exact ⟨.refl ht, fun _ _ _ _ _ h => absurd h not_mem_nil⟩
  | cons args written ih =>
    have hd := dropped_cacheInvalidateWritten ht hon ns args
    obtain ⟨hrest, hgone⟩ := ih hd.timed (hd.enabled.trans hon)
    refine ⟨hrest.trans hd, fun c e h hns args' hmem hname => ?_⟩
    rcases mem_cons.mp hmem with rfl | hmem
    · exact mayChange_of_lives ht hon hname (hrest.lives c e h) hns
    · exact hgone c e h hns args' hmem hname

end NearConfig

open NearState

namespace NearState

/-! ## Runs in which every write drops what it changes -/

def drops (localCache : Bool) (args : Args) : Bool :=
  localCache && !undropped.contains (args.headD "").toUpper

/-- No fill with the command's keys is under way that was fetched before the command changed
them. -/
def noLateFill (s : NearState) (ns : Ns) (seen : Table String ℕ) : Bool :=
  s.ops.all fun _ op =>
    match op with
    | .get ns' key true _ _ (some (some v)) => ns' ≠ ns || (seen.lookup key).getD 0 ≤ v.writes
    | _ => true

def noTransaction (s : NearState) : Bool :=
  (s.conns.all fun _ c => c.queued.isEmpty) &&
    s.ops.all fun _ op =>
      match op with
      | .exec .. => false
      | _ => true

variable (optIn : Ns → Bool)

/-- **Every write of an opted-in tenant drops what it changes, and no fill is late**: its writes
come over connections with the opt-in, are no pops over several keys and not the co-processor's, and
none runs inside a transaction that is still open or on a connection that refuses it; its
cached readings come from masters, none fetched before a write that is answered meanwhile; the cache
is not turned on under a transaction; and the time-to-live is within the ceiling. -/
def careful (s : NearState) : NearEvent → Bool
  | .look _ conn _ => (s.conns.lookup conn).all fun c => !c.localCache || optIn c.ns
  | .stage _ conn _ _ => (s.conns.lookup conn).all fun c => !c.localCache || optIn c.ns
  | .fetch op _ lag =>
    (s.ops.lookup op).all fun o =>
      match o with
      | .get ns .. => !optIn ns || lag = 0
      | _ => true
  | .send _ conn args _ => (s.conns.lookup conn).all fun c => !optIn c.ns || drops c.localCache args
  | .queue conn args => (s.conns.lookup conn).all fun c => !optIn c.ns || drops c.localCache args
  | .early _ conn _ => (s.conns.lookup conn).all fun c => !optIn c.ns
  | .stageRefused _ conn _ => (s.conns.lookup conn).all fun c => !optIn c.ns
  | .exec _ conn => (s.conns.lookup conn).all fun c => !optIn c.ns || c.localCache
  | .effect op _ =>
    (s.ops.lookup op).all fun o =>
      match o with
      | .write ns _ _ handed _ => !optIn ns || !handed
      | _ => true
  | .answer op =>
    (s.ops.lookup op).all fun o =>
      match o with
      | .write ns _ _ _ seen => !optIn ns || s.noLateFill ns seen
      | .exec ns _ _ _ seen => !optIn ns || s.noLateFill ns seen
      | _ => true
  | .configure ttlMs _ =>
    ttlMs ≤ s.cache.ttlMaxMs && (ttlMs = 0 || s.cache.enabled || s.noTransaction)
  | _ => true

/-! ## The invariant -/

def OpSound (s : NearState) : NearOp → Prop
  | .get ns key localCache cacheable _ reply =>
    (cacheable = true → localCache = true) ∧ (localCache = true → optIn ns = true) ∧
      (localCache = true → ∀ v, reply = some (some v) → s.answered (ns, key) ≤ v.writes)
  | .write ns args localCache handed seen =>
    (∀ key n, seen.lookup key = some n → n ≤ s.writes (ns, key)) ∧
      (optIn ns = true → drops localCache args = true ∧ isWriteCommand (args.headD "") = true ∧
        ∀ key n, seen.lookup key = some n → handed = false ∧ cfg.mayChange ns args key = true)
  | .exec ns caching queued written seen =>
    (∀ key n, seen.lookup key = some n → n ≤ s.writes (ns, key)) ∧
      (optIn ns = true →
        (s.cache.enabled = true → caching = true ∧ ∀ args ∈ queued, args ∈ written) ∧
        (∀ args ∈ queued, drops true args = true) ∧
        ∀ key n, seen.lookup key = some n → ∃ args ∈ queued, cfg.mayChange ns args key = true)

def ConnSound (s : NearState) (c : NearConn) : Prop :=
  optIn c.ns = true → (∀ args ∈ c.queued, drops true args = true) ∧
    (s.cache.enabled = true → ∀ args ∈ c.queued, args ∈ c.writes)

structure Fresh (s : NearState) : Prop where
  timed : s.cache.Timed cfg.slotOf s.now
  answered : ∀ c, s.answered c ≤ s.writes c
  lives : ∀ c e, s.cache.Lives cfg.slotOf s.now c e → optIn c.1 = true ∧ s.answered c ≤ e.val.writes
  ops : ∀ id op, s.ops.lookup id = some op → OpSound cfg optIn s op
  conns : ∀ id c, s.conns.lookup id = some c → ConnSound optIn s c

variable {cfg optIn} {s s' : NearState} {id : ℕ} {op : NearOp} {conn : NearConn}

theorem OpSound.frame (h : OpSound cfg optIn s op) (hw : ∀ c, s.writes c ≤ s'.writes c)
    (ha : s'.answered = s.answered) (hon : s'.cache.enabled → s.cache.enabled) :
    OpSound cfg optIn s' op := by
  cases op with
  | get ns key localCache cacheable staged reply =>
    refine ⟨h.1, h.2.1, fun hl v hv => ?_⟩
    rw [ha]
    exact h.2.2 hl v hv
  | write ns args localCache handed seen =>
    exact ⟨fun key n hn => le_trans (h.1 key n hn) (hw _), h.2⟩
  | exec ns caching queued written seen =>
    refine ⟨fun key n hn => le_trans (h.1 key n hn) (hw _), fun ho => ?_⟩
    obtain ⟨htaken, hdrops, hseen⟩ := h.2 ho
    exact ⟨fun hen => htaken (hon hen), hdrops, hseen⟩

theorem ConnSound.frame (h : ConnSound optIn s conn)
    (hon : s'.cache.enabled → s.cache.enabled) : ConnSound optIn s' conn :=
  fun ho => ⟨(h ho).1, fun hen => (h ho).2 (hon hen)⟩

variable {cache : ProxyCache Reading} {ns : Ns} {localCache cacheable staged handed caching : Bool}
  {seen : Table String ℕ} {queued written : List Args} {e : NearEvent}

theorem cacheWriteback_dropped (ht : s.cache.Timed cfg.slotOf s.now) (ns : Ns) (args : Args)
    (localCache : Bool) :
    NearConfig.Dropped cfg s.now (cfg.cacheWriteback s.now s.cache ns args localCache) s.cache := by
  unfold NearConfig.cacheWriteback
  split
  · rename_i hupdate
    simp only [Bool.and_eq_true] at hupdate
    exact NearConfig.dropped_cacheInvalidateWritten ht hupdate.1.2 ns args
  · exact .refl ht

theorem le_bump (s : NearState) (c c' : Ns × String) : s.writes c' ≤ (s.bump c).writes c' := by
  unfold bump
  by_cases hc : c' = c
  · subst hc
    simp
  · simp [Function.update_of_ne hc]

theorem answeredWith_le {c : Ns × String} {b : ℕ}
    (hold : s.answered c ≤ b) (hnew : c.1 = ns → ∀ n, seen.lookup c.2 = some n → n ≤ b) :
    s.answeredWith ns seen c ≤ b := by
  unfold answeredWith
  split
  · rename_i hns
    refine Nat.max_le.mpr ⟨hold, ?_⟩
    cases hn : seen.lookup c.2 with
    | none => exact Nat.zero_le b
    | some n => exact hnew hns n hn
  · exact hold

theorem drops_iff : drops localCache args ↔
      localCache ∧ undropped.contains (args.headD "").toUpper = false := by
  simp only [drops, Bool.and_eq_true, Bool.not_eq_true']

theorem ConnSound.queue (h : ConnSound optIn s conn)
    (hg : optIn conn.ns → drops conn.localCache args) : ConnSound optIn s { conn with
        queued := conn.queued ++ [args]
        writes := if conn.localCache && s.cache.enabled then conn.writes ++ [args]
          else conn.writes } := by
  intro hopt
  obtain ⟨hdrops, htaken⟩ := h hopt
  obtain ⟨hl, hname⟩ := drops_iff.mp (hg hopt)
  refine ⟨fun args' hmem => ?_, fun hon args' hmem => ?_⟩
  · exact of_mem_snoc hmem (hdrops args') (drops_iff.mpr ⟨rfl, hname⟩)
  simp only [hl, hon, Bool.and_self, if_true]
  rcases mem_append.mp hmem with hmem | hmem
  · exact mem_append_left _ (htaken hon args' hmem)
  · exact mem_append_right _ hmem

variable {c : NearConn}

theorem optIn_of_careful {n : ℕ} (hc : s.conns.lookup n = some c)
    (hg : ((s.conns.lookup n).all fun c => !c.localCache || optIn c.ns)) :
    c.localCache → optIn c.ns := by
  intro hl
  simpa [hc, hl] using hg

theorem of_careful {n : ℕ} {p : NearConn → Bool} (hc : s.conns.lookup n = some c)
    (hg : ((s.conns.lookup n).all fun c => !optIn c.ns || p c)) : optIn c.ns → p c := by
  intro hopt
  simpa [hc, hopt] using hg

section

variable (h : Fresh cfg optIn s)
include h

namespace Fresh

theorem of_step (htimed : s'.cache.Timed cfg.slotOf s'.now)
    (hw : ∀ c, s.writes c ≤ s'.writes c) (ha : s'.answered = s.answered)
    (hon : s'.cache.enabled → s.cache.enabled)
    (hlives : ∀ c e, s'.cache.Lives cfg.slotOf s'.now c e →
      s.cache.Lives cfg.slotOf s.now c e ∨ optIn c.1 ∧ s.answered c ≤ e.val.writes)
    (hops : ∀ id op, s'.ops.lookup id = some op →
      OpSound cfg optIn s' op ∨ s.ops.lookup id = some op)
    (hconns : ∀ id c, s'.conns.lookup id = some c →
      ConnSound optIn s' c ∨ s.conns.lookup id = some c) : Fresh cfg optIn s' where
  timed := htimed
  answered c := by
    rw [ha]
    exact le_trans (h.answered c) (hw c)
  lives c e hl := by
    rw [ha]
    exact (hlives c e hl).elim (h.lives c e) fun h => h
  ops id op ho := (hops id op ho).elim (fun h => h) fun ho => (h.ops id op ho).frame hw ha hon
  conns id c hc := (hconns id c hc).elim (fun h => h) fun hc => (h.conns id c hc).frame hon

/-! ## Lookups and fills -/

theorem drop
    (hd : NearConfig.Dropped cfg s.now cache s.cache) : Fresh cfg optIn { s with cache := cache } :=
  h.of_step hd.timed (fun _ => le_refl _) rfl (fun hon => hd.enabled.symm.trans hon)
    (fun c e hl => .inl (hd.lives c e hl)) (fun _ _ ho => .inr ho) fun _ _ hc => .inr hc

theorem begin (hop : OpSound cfg optIn s op) :
    Fresh cfg optIn { s with ops := s.ops.insert id op } := by
  refine h.of_step h.timed (fun _ => le_refl _) rfl (fun hon => hon) (fun _ _ hl => .inl hl)
    (fun id' op' ho => ?_) fun _ _ hc => .inr hc
  rcases lookup_insert_eq_some.mp ho with ⟨-, rfl⟩ | ⟨-, hold⟩
  · exact .inl (hop.frame (fun _ => le_refl _) rfl fun hon => hon)
  · exact .inr hold

theorem sendPast {n : ℕ} (hg : (s.conns.lookup n).all fun c => !optIn c.ns)
    (hstep : s.sendPast id n args = some s') : Fresh cfg optIn s' := by
  unfold NearState.sendPast at hstep
  split at hstep
  · rename_i c hc _
    obtain ⟨-, ⟨⟩⟩ := ite_none_right_eq_some.mp hstep
    have hout : optIn c.ns = false := by simpa [hc] using hg
    refine h.begin ⟨nofun, fun hopt => ?_⟩
    rw [hout] at hopt
    cases hopt
  · cases hstep

theorem lookUp (id : ℕ) (key : String) (behind staged : Bool)
    (hopt : conn.localCache → optIn conn.ns) :
    Fresh cfg optIn (s.lookUp cfg id conn key behind staged).2 := by
  unfold NearState.lookUp
  dsimp only
  have hd : NearConfig.Dropped cfg s.now
      (if (!behind && conn.localCache && s.cache.enabled) then
        s.cache.get cfg.slotOf s.now conn.ns key else (none, s.cache)).2 s.cache := by
    split
    · exact ⟨get_knobs .., h.timed.get _ _,
        fun c e hl => hl.of_within (get_within _ _ _)⟩
    · exact .refl h.timed
  split
  · exact h.drop hd
  · refine (h.drop hd).begin ⟨fun hcacheable => ?_, hopt, fun _ v hv => absurd hv nofun⟩
    simp only [Bool.and_eq_true] at hcacheable
    exact hcacheable.1.2

theorem fetch {reply : Option String} {lag : ℕ}
    (hop : s.ops.lookup id = some (.get ns key localCache cacheable staged none))
    (hlag : optIn ns → lag = 0) : Fresh cfg optIn { s with
      ops := s.ops.insert id (.get ns key localCache cacheable staged
        (some (reply.map fun bytes => ⟨bytes, s.writes (ns, key) - lag⟩))) } := by
  obtain ⟨hcacheable, hopt, -⟩ := h.ops id _ hop
  refine h.begin ⟨hcacheable, hopt, fun hl v hv => ?_⟩
  obtain ⟨bytes, -, rfl⟩ := map_eq_some_iff.mp (some.inj hv)
  rw [hlag (hopt hl)]
  exact h.answered (ns, key)

theorem fill {reply : Option Reading}
    (hop : s.ops.lookup id = some (.get ns key localCache cacheable staged (some reply))) :
    Fresh cfg optIn { s with
      cache := s.fillWith ns key localCache cacheable staged reply
      ops := s.ops.erase id } := by
  obtain ⟨hcacheable, hopt, hnew⟩ := h.ops id _ hop
  have hcache : ((s.fillWith ns key localCache cacheable staged reply).Timed cfg.slotOf s.now) ∧
      (s.fillWith ns key localCache cacheable staged reply).enabled = s.cache.enabled ∧
      ∀ c e, (s.fillWith ns key localCache cacheable staged reply).Lives cfg.slotOf s.now c e →
        s.cache.Lives cfg.slotOf s.now c e ∨ optIn c.1 ∧ s.answered c ≤ e.val.writes := by
    unfold fillWith
    cases reply with
    | none => exact ⟨h.timed, rfl, fun _ _ hl => .inl hl⟩
    | some v =>
      by_cases hput : (if staged then localCache && s.cache.enabled else cacheable)
      · simp only [hput, if_true]
        have hl : localCache := by
          cases staged with
          | true => exact (Bool.and_eq_true_iff.mp hput).1
          | false => exact hcacheable hput
        refine ⟨h.timed.put _ _ _, ?_, fun c e he => ?_⟩
        · unfold enabled
          rw [(put_knobs s.cache ns key v).ttlMs]
        · rcases he.of_put with ⟨rfl, rfl⟩ | hold
          · exact .inr ⟨hopt hl, hnew hl _ rfl⟩
          · exact .inl hold
      · simp only [hput]
        exact ⟨h.timed, rfl, fun _ _ hl => .inl hl⟩
  exact h.of_step hcache.1 (fun _ => le_refl _) rfl (fun hon => hcache.2.1.symm.trans hon)
    hcache.2.2 (fun id' op' ho => .inr (lookup_erase_eq_some.mp ho).2) fun _ _ hc => .inr hc

/-! ## Writes -/

theorem bump (c : Ns × String) : Fresh cfg optIn (s.bump c) :=
  h.of_step h.timed (s.le_bump c) rfl (fun hon => hon) (fun _ _ hl => .inl hl)
    (fun _ _ ho => .inr ho) fun _ _ hc => .inr hc

theorem hand (hop : s.ops.lookup id = some (.write ns args localCache false seen))
    (hseen : seen.entries.isEmpty) : Fresh cfg optIn { s with
      cache := cfg.cacheWriteback s.now s.cache ns args localCache
      ops := s.ops.insert id (.write ns args localCache true seen) } := by
  have hd := cacheWriteback_dropped h.timed ns args localCache
  have hnone : ∀ key n, seen.lookup key ≠ some n := by
    intro key n hn
    have := AList.mem_lookup_iff.mp hn
    rw [List.isEmpty_iff.mp hseen] at this
    exact absurd this not_mem_nil
  obtain ⟨hle, hsound⟩ := h.ops id _ hop
  refine (h.drop hd).begin ⟨hle, fun hopt => ⟨(hsound hopt).1, (hsound hopt).2.1, ?_⟩⟩
  exact fun key n hn => absurd hn (hnone key n)

end Fresh

omit h in
theorem seen_le (hle : ∀ k n, seen.lookup k = some n → n ≤ s.writes (ns, k)) :
    ∀ k n, (seen.insert key (s.writes (ns, key) + 1)).lookup k = some n →
      n ≤ (s.bump (ns, key)).writes (ns, k) := by
  intro k n hn
  rcases lookup_insert_eq_some.mp hn with ⟨rfl, rfl⟩ | ⟨-, hold⟩
  · simp [bump]
  · exact le_trans (hle k n hold) (s.le_bump _ _)

theorem Fresh.effect_exec (hop : s.ops.lookup id = some (.exec ns caching queued written seen))
    (hchange : (queued.any fun args => cfg.mayChange ns args key)) :
    Fresh cfg optIn { s.bump (ns, key) with
      ops := s.ops.insert id
        (.exec ns caching queued written (seen.insert key (s.writes (ns, key) + 1))) } := by
  obtain ⟨hle, hsound⟩ := h.ops id _ hop
  refine (h.bump (ns, key)).begin
    ⟨seen_le hle, fun hopt => ⟨(hsound hopt).1, (hsound hopt).2.1, fun k n hn => ?_⟩⟩
  rcases lookup_insert_eq_some.mp hn with ⟨rfl, -⟩ | ⟨-, hold⟩
  · exact any_eq_true.mp hchange
  · exact (hsound hopt).2.2 k n hold

theorem Fresh.answer (hd : NearConfig.Dropped cfg s.now cache s.cache)
    (hle : ∀ key n, seen.lookup key = some n → n ≤ s.writes (ns, key))
    (hgone : optIn ns → ∀ c e, cache.Lives cfg.slotOf s.now c e → c.1 = ns →
      seen.lookup c.2 = none) (hlate : optIn ns → s.noLateFill ns seen) : Fresh cfg optIn { s with
      cache := cache
      ops := s.ops.erase id
      answered := s.answeredWith ns seen } := by
  have hon : cache.enabled → s.cache.enabled := fun hon => hd.enabled.symm.trans hon
  refine ⟨hd.timed, fun c => ?_, fun c e hl => ?_, fun id' op' ho => ?_, fun id' c hc => ?_⟩
  · refine answeredWith_le (h.answered c) fun hns n hn => ?_
    subst hns
    exact hle c.2 n hn
  · obtain ⟨hopt, hfresh⟩ := h.lives c e (hd.lives c e hl)
    refine ⟨hopt, answeredWith_le hfresh fun hns n hn => ?_⟩
    subst hns
    exact nomatch (hgone hopt c e hl rfl).symm.trans hn
  · have hold := (lookup_erase_eq_some.mp ho).2
    have hsound := h.ops id' op' hold
    cases op' with
    | get ns' key localCache cacheable staged reply =>
      refine ⟨hsound.1, hsound.2.1, fun hl v hv => answeredWith_le (hsound.2.2 hl v hv) ?_⟩
      rintro rfl n hn
      have := all_of_lookup (hlate (hsound.2.1 hl)) hold
      subst hl hv
      simpa [hn] using this
    | write ns' args localCache handed seen' => exact hsound
    | exec ns' caching queued written seen' =>
      refine ⟨hsound.1, fun hopt => ?_⟩
      obtain ⟨htaken, hdrops, hseen⟩ := hsound.2 hopt
      exact ⟨fun hen => htaken (hon hen), hdrops, hseen⟩
  · exact (h.conns id' c hc).frame hon

section

variable (hop : s.ops.lookup id = some (.write ns args localCache handed seen))
include hop

theorem Fresh.effect_write
    (hdirect : optIn ns → handed = false) (hchange : (handed || cfg.mayChange ns args key)) :
    Fresh cfg optIn { s.bump (ns, key) with
      ops := s.ops.insert id
        (.write ns args localCache handed (seen.insert key (s.writes (ns, key) + 1))) } := by
  obtain ⟨hle, hsound⟩ := h.ops id _ hop
  refine (h.bump (ns, key)).begin
    ⟨seen_le hle, fun hopt => ⟨(hsound hopt).1, (hsound hopt).2.1, fun k n hn => ?_⟩⟩
  rcases lookup_insert_eq_some.mp hn with ⟨rfl, -⟩ | ⟨-, hold⟩
  · refine ⟨hdirect hopt, ?_⟩
    rwa [hdirect hopt, Bool.false_or] at hchange
  · exact (hsound hopt).2.2 k n hold

theorem Fresh.answer_write (hlate : optIn ns → s.noLateFill ns seen) : Fresh cfg optIn { s with
      cache := if handed then s.cache else cfg.cacheWriteback s.now s.cache ns args localCache
      ops := s.ops.erase id
      answered := s.answeredWith ns seen } := by
  obtain ⟨hle, hsound⟩ := h.ops id _ hop
  have hd : NearConfig.Dropped cfg s.now
      (if handed then s.cache else cfg.cacheWriteback s.now s.cache ns args localCache)
      s.cache := by
    split
    · exact .refl h.timed
    · exact cacheWriteback_dropped h.timed ns args localCache
  refine h.answer hd hle (fun hopt c e hl hns => ?_) hlate
  obtain ⟨hdrops, hwrite, hseen⟩ := hsound hopt
  cases hn : seen.lookup c.2 with
  | none => rfl
  | some n =>
    obtain ⟨rfl, hchange⟩ := hseen c.2 n hn
    obtain ⟨rfl, hname⟩ := drops_iff.mp hdrops
    cases hon : s.cache.enabled with
    | false => exact absurd (hd.lives c e (by simpa using hl)) (h.timed.not_lives hon)
    | true =>
      simp only [NearConfig.cacheWriteback, hon, hwrite, Bool.and_self, if_true] at hl
      have hkept := NearConfig.mayChange_of_lives h.timed hon hname hl hns
      exact nomatch hkept.symm.trans hchange

end

theorem Fresh.answer_exec (hop : s.ops.lookup id = some (.exec ns caching queued written seen))
    (hlate : optIn ns → s.noLateFill ns seen) : Fresh cfg optIn { s with
      cache :=
        if caching then
          written.foldl (fun cache args => cfg.cacheInvalidateWritten s.now cache ns args) s.cache
        else s.cache
      ops := s.ops.erase id
      answered := s.answeredWith ns seen } := by
  obtain ⟨hle, hsound⟩ := h.ops id _ hop
  cases hon : s.cache.enabled with
  | false =>
    -- The cache was turned off under the transaction: there is nothing to drop.
    have hfold : written.foldl (fun cache args => cfg.cacheInvalidateWritten s.now cache ns args)
        s.cache = s.cache := by
      clear hop hsound
      induction written with
      | nil => rfl
      | cons args written ih => rw [foldl_cons, NearConfig.cacheInvalidateWritten_off hon, ih]
    rw [hfold, ite_self]
    exact h.answer (.refl h.timed) hle (fun _ c e hl => absurd hl (h.timed.not_lives hon)) hlate
  | true =>
    obtain ⟨hd, hgone⟩ := @NearConfig.dropped_written cfg s.now s.cache ns written h.timed hon
    have hdropped : NearConfig.Dropped cfg s.now
        (if caching then
          written.foldl (fun cache args => cfg.cacheInvalidateWritten s.now cache ns args) s.cache
        else s.cache) s.cache := by
      split
      · exact hd
      · exact .refl h.timed
    refine h.answer hdropped hle (fun hopt c e hl hns => ?_) hlate
    obtain ⟨htaken, hdrops, hseen⟩ := hsound hopt
    obtain ⟨hcaching, hqueued⟩ := htaken hon
    cases hn : seen.lookup c.2 with
    | none => rfl
    | some n =>
      obtain ⟨args, hargs, hchange⟩ := hseen c.2 n hn
      rw [if_pos hcaching] at hl
      have hkept := hgone c e hl hns args (hqueued args hargs) (drops_iff.mp (hdrops args hargs)).2
      exact nomatch hkept.symm.trans hchange

/-! ## Connections and knobs -/

theorem Fresh.connect (hconn : ConnSound optIn s conn) :
    Fresh cfg optIn { s with conns := s.conns.insert id conn } := by
  refine h.of_step h.timed (fun _ => le_refl _) rfl (fun hon => hon) (fun _ _ hl => .inl hl)
    (fun _ _ ho => .inr ho) fun id' c hc => ?_
  rcases lookup_insert_eq_some.mp hc with ⟨-, rfl⟩ | ⟨-, hold⟩
  · exact .inl hconn
  · exact .inr hold

theorem Fresh.configure {ttlMs maxBytes : ℕ} (hg : s.careful optIn (.configure ttlMs maxBytes)) :
    Fresh cfg optIn { s with cache := s.cache.configure ttlMs maxBytes } := by
  simp only [careful, Bool.and_eq_true, Bool.or_eq_true, decide_eq_true_eq] at hg
  obtain ⟨hle, hg⟩ := hg
  -- Turned on from off, it finds no transaction.
  have hon : (s.cache.configure ttlMs maxBytes).enabled →
      s.cache.enabled ∨ s.noTransaction := by
    intro hon
    rcases hg with (hzero | hon) | hnone
    · exact absurd hon (by simp [ProxyCache.enabled, ProxyCache.configure, hzero])
    · exact .inl hon
    · exact .inr hnone
  refine ⟨h.timed.configure hle, h.answered, fun c e hl => h.lives c e hl.of_configure,
    fun id op ho => ?_, fun id c hc hopt => ?_⟩
  · have hsound := h.ops id op ho
    cases op with
    | exec ns caching queued written seen =>
      refine ⟨hsound.1, fun hopt => ⟨fun hen => ?_, (hsound.2 hopt).2⟩⟩
      rcases hon hen with hon | hnone
      · exact (hsound.2 hopt).1 hon
      · exact absurd (all_of_lookup (Bool.and_eq_true_iff.mp hnone).2 ho) Bool.false_ne_true
    | _ => exact hsound
  obtain ⟨hdrops, htaken⟩ := h.conns id c hc hopt
  refine ⟨hdrops, fun hen args hmem => ?_⟩
  rcases hon hen with hon | hnone
  · exact htaken hon args hmem
  · have := all_of_lookup (Bool.and_eq_true_iff.mp hnone).1 hc
    rw [List.isEmpty_iff.mp this] at hmem
    exact absurd hmem not_mem_nil

theorem Fresh.opStep (hop : s.ops.lookup id = some op) (he : match e with
      | .fetch id' .. => id' = id
      | .fill id' => id' = id
      | .hand id' => id' = id
      | .effect id' _ => id' = id
      | .answer id' => id' = id
      | _ => True) (hg : s.careful optIn e) (hstep : s.opStep cfg id op e = some s') :
    Fresh cfg optIn s' := by
  unfold NearState.opStep at hstep
  split at hstep
  · subst he
    split at hstep
    · cases hstep
      refine h.fetch hop fun hopt => ?_
      simpa [careful, hop, hopt] using hg
    · cases hstep
  · split at hstep
    · cases hstep
      exact h.fill hop
    · cases hstep
  · subst he
    split at hstep
    · split at hstep
      · cases hstep
        exact h.hand hop ‹_›
      · cases hstep
    · cases hstep
  · subst he
    split at hstep
    · split at hstep
      · cases hstep
        refine h.effect_write hop (fun hopt => ?_) ‹_›
        simpa [careful, hop, hopt] using hg
      · cases hstep
    · split at hstep
      · cases hstep
        exact h.effect_exec hop ‹_›
      · cases hstep
    · cases hstep
  · subst he
    split at hstep
    · cases hstep
      refine h.answer_write hop fun hopt => ?_
      simpa [careful, hop, hopt] using hg
    · cases hstep
      refine h.answer_exec hop fun hopt => ?_
      simpa [careful, hop, hopt] using hg
    · cases hstep
  · cases hstep

theorem Fresh.step (hg : s.careful optIn e)
    (hstep : (machine cfg).step s e = some s') : Fresh cfg optIn s' := by
  simp only [machine] at hstep
  cases e with
  | auth n ns localCache =>
    simp only [step] at hstep
    split at hstep
    · cases hstep
      exact h.connect fun _ => ⟨nofun, fun _ => nofun⟩
    rename_i c hc
    obtain ⟨-, ⟨⟩⟩ := ite_none_right_eq_some.mp hstep
    exact h.connect (h.conns n c hc)
  | tick ms =>
    cases hstep
    exact h.of_step (h.timed.mono (le_add_right _ _)) (fun _ => le_refl _) rfl
      (fun hon => hon) (fun _ _ hl => .inl (hl.mono (le_add_right _ _))) (fun _ _ ho => .inr ho)
      fun _ _ hc => .inr hc
  | configure ttlMs maxBytes =>
    cases hstep
    exact h.configure hg
  | setNsTtl ns ttlMs =>
    cases hstep
    exact h.of_step (h.timed.setNsTtl ns ttlMs) (fun _ => le_refl _) rfl (fun hon => hon)
      (fun _ _ hl => .inl ⟨hl.lookup, hl.fresh, hl.shown⟩) (fun _ _ ho => .inr ho)
      fun _ _ hc => .inr hc
  | look id n key =>
    simp only [step] at hstep
    split at hstep
    · rename_i c hc _
      cases hstep
      exact h.lookUp id key false false (optIn_of_careful hc hg)
    · cases hstep
  | stage id n key behind =>
    simp only [step] at hstep
    split at hstep
    · rename_i c hc _
      cases hstep
      exact h.lookUp id key behind true (optIn_of_careful hc hg)
    · cases hstep
  | fetch id reply lag | fill id | hand id | effect id key | answer id =>
    obtain ⟨op, hop, hstep⟩ := bind_eq_some_iff.mp hstep
    exact h.opStep hop rfl hg hstep
  | send id n args handed =>
    simp only [step] at hstep
    split at hstep
    · rename_i c hc _
      obtain ⟨hwrite, ⟨⟩⟩ := ite_none_right_eq_some.mp hstep
      exact h.begin ⟨nofun, fun hopt => ⟨of_careful hc hg hopt, hwrite, nofun⟩⟩
    · cases hstep
  | queue n args =>
    simp only [step] at hstep
    split at hstep
    · rename_i c hc
      obtain ⟨-, ⟨⟩⟩ := ite_none_right_eq_some.mp hstep
      exact h.connect ((h.conns n c hc).queue (of_careful hc hg))
    · cases hstep
  | early id n args | stageRefused id n args => exact h.sendPast hg hstep
  | exec id n =>
    simp only [step] at hstep
    split at hstep
    · rename_i c hc _
      cases hstep
      have hsound := h.conns n c hc
      have hop : OpSound cfg optIn s
          (.exec c.ns (c.localCache && s.cache.enabled) c.queued c.writes ∅) := by
        refine ⟨nofun, fun hopt => ⟨fun hon => ⟨?_, (hsound hopt).2 hon⟩, (hsound hopt).1, nofun⟩⟩
        rw [of_careful hc hg hopt, hon, Bool.and_self]
      exact (h.begin hop).connect fun _ => ⟨nofun, fun _ => nofun⟩
    · cases hstep
  | discard n =>
    obtain ⟨c, -, rfl⟩ := map_eq_some_iff.mp hstep
    exact h.connect fun _ => ⟨nofun, fun _ => nofun⟩
  | elsewhere ns key =>
    cases hstep
    exact h.bump (ns, key)

end

theorem lives_of_lookUp {behind staged : Bool} {v : Reading}
    (h : (s.lookUp cfg id conn key behind staged).1 = some v) :
    ∃ e, s.cache.Lives cfg.slotOf s.now (conn.ns, key) e ∧ e.val = v := by
  unfold lookUp at h
  dsimp only at h
  by_cases hcacheable : (!behind && conn.localCache && s.cache.enabled)
  · rw [if_pos hcacheable] at h
    refine get_eq_some ?_
    split at h
    · rename_i v' hv
      rw [hv]
      exact h
    · cases h
  · rw [if_neg hcacheable] at h
    cases h

end NearState

/-- **One reads one's own writes**: where every write drops what it changes and no fill is late, a
`GET` answered from the cache has seen every answered write of its key. -/
theorem near_cache_fresh (cfg : NearConfig) (optIn : Ns → Bool) (s : NearState) (e : NearEvent)
    (c : Ns × String) (v : Reading) (hceiling : cfg.ttlMs ≤ cfg.ttlMaxMs)
    (h : (NearState.machine cfg).Reach (fun s e => s.careful optIn e = true) s)
    (hhit : s.hit cfg e = some (c, v)) : s.answered c ≤ v.writes := by
  have hfresh : s.Fresh cfg optIn := by
    refine Machine.Reach.invariant (I := fun s => s.Fresh cfg optIn) ?_ ?_ h
    · rintro s rfl
      exact ⟨timed_withCeiling hceiling, fun _ => le_refl _,
        fun c e hl => absurd hl.lookup nofun, nofun, nofun⟩
    · exact fun s e s' _ hs hg hst => hs.step hg hst
  unfold hit at hhit
  split at hhit
  case h_3 => cases hhit
  all_goals
    obtain ⟨conn, -, hhit⟩ := Option.bind_eq_some_iff.mp hhit
    obtain ⟨v', hv, hcv⟩ := Option.map_eq_some_iff.mp hhit
    obtain ⟨rfl, rfl⟩ := Prod.mk.inj hcv
    obtain ⟨e, hl, rfl⟩ := lives_of_lookUp hv
    exact (hfresh.lives _ e hl).2

/-! ## A read that is right, and six that are not -/

def fiveSeconds : NearConfig where
  slotOf key := key.length
  placed _ := false
  ttlMs := 5000
  maxBytes := 1000
  ttlMaxMs := 30000

def NearState.after (cfg : NearConfig) (es : List NearEvent) : NearState :=
  ((NearState.machine cfg).exec (.start cfg) es).getD (.start cfg)

def cached (id conn : ℕ) (bytes : String) : List NearEvent :=
  [.look id conn "k", .fetch id (some bytes) 0, .fill id]

def overwrites (id conn : ℕ) (handed : Bool) : List NearEvent :=
  [.send id conn ["SET", "k", "new"] handed, .effect id "k", .answer id]

def readBack : List NearEvent :=
  .auth 1 "t" true :: (cached 1 1 "old" ++ overwrites 2 1 false ++ cached 3 1 "new")

theorem near_cache_fresh_read_back :
    (NearState.after fiveSeconds readBack).hit fiveSeconds (.look 4 1 "k") =
        some (("t", "k"), ⟨"new", 1⟩) ∧
      (NearState.after fiveSeconds readBack).answered ("t", "k") ≤ 1 := by
  have hguard : (machine fiveSeconds).Guarded
      (fun s e => s.careful (fun _ => true) e = true) (.start fiveSeconds) readBack := by
    decide +kernel
  have hexec : (machine fiveSeconds).exec (.start fiveSeconds) readBack =
      some (.after fiveSeconds readBack) := Machine.exec_eq_some_getD _ (by decide +kernel)
  have hreach : (machine fiveSeconds).Reach
      (fun s e => s.careful (fun _ => true) e = true) (.after fiveSeconds readBack) :=
    .of_exec (.init rfl) hguard hexec
  have hhit : (after fiveSeconds readBack).hit fiveSeconds (.look 4 1 "k") =
      some (("t", "k"), ⟨"new", 1⟩) := by decide +kernel
  exact ⟨hhit, near_cache_fresh fiveSeconds (fun _ => true) _ (.look 4 1 "k") ("t", "k") ⟨"new", 1⟩
    (by decide) hreach hhit⟩

def lateFill : List NearEvent :=
  [.auth 1 "t" true, .auth 2 "t" true, .look 1 1 "k", .fetch 1 (some "old") 0] ++
    overwrites 2 2 false ++ [.fill 1]

def handedOver : List NearEvent := .auth 1 "t" true :: (cached 1 1 "old" ++ overwrites 2 1 true)

def authedBefore : List NearEvent :=
  [.auth 2 "t" false, .auth 1 "t" true] ++ cached 1 1 "old" ++ overwrites 2 2 false

def turnedOn : List NearEvent :=
  [.configure 0 1000, .auth 1 "t" true, .auth 2 "t" true, .queue 1 ["SET", "k", "new"],
    .configure 5000 1000] ++ cached 1 2 "old" ++ [.exec 2 1, .effect 2 "k", .answer 2]

def ranEarly : List NearEvent :=
  [.auth 1 "t" true] ++ cached 1 1 "old" ++
    [.queue 1 ["SET", "a", "1"], .early 2 1 ["SET", "k", "new"], .effect 2 "k", .answer 2]

def ranRefused : List NearEvent :=
  [.auth 1 "t" true, .auth 2 "t" true] ++ cached 1 1 "old" ++
    [.stageRefused 2 2 ["SET", "k", "new"], .effect 2 "k", .answer 2]

/-- After a run a `GET` is answered from the cache with a reading from before an answered write. -/
def Stale (es : List NearEvent) (e : NearEvent) : Prop :=
  ∃ s c v, (NearState.machine fiveSeconds).exec (.start fiveSeconds) es = some s ∧
    s.hit fiveSeconds e = some (c, v) ∧ v.writes < s.answered c

/-- **Six ways to read a value one has overwritten**: a late fill, the co-processor, a writer
without the opt-in, a cache turned on under a transaction, a write that runs before its transaction
does, and one staged on a connection that refuses it. -/
theorem near_cache_stale :
    Stale lateFill (.look 3 2 "k") ∧ Stale handedOver (.look 3 1 "k") ∧
      Stale authedBefore (.look 3 1 "k") ∧ Stale turnedOn (.look 3 1 "k") ∧
      Stale ranEarly (.look 3 1 "k") ∧ Stale ranRefused (.look 3 1 "k") := by
  have hold : ∀ es e, ((machine fiveSeconds).exec (.start fiveSeconds) es).isSome = true →
      (after fiveSeconds es).hit fiveSeconds e = some (("t", "k"), ⟨"old", 0⟩) →
      0 < (after fiveSeconds es).answered ("t", "k") → Stale es e :=
    fun _ _ hrun hhit hlt => ⟨_, _, _, Machine.exec_eq_some_getD _ hrun, hhit, hlt⟩
  refine ⟨hold _ _ ?_ ?_ ?_, hold _ _ ?_ ?_ ?_, hold _ _ ?_ ?_ ?_, hold _ _ ?_ ?_ ?_,
    hold _ _ ?_ ?_ ?_, hold _ _ ?_ ?_ ?_⟩
  all_goals decide +kernel

end Flint
