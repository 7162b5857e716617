import FlintCache.Lib.Lists

/-!
# Proxy/Cache — the proxy's cache of `GET` replies

Entries live for a time under a byte budget that the namespaces share: the oldest go first, and a
namespace over its share loses its own.  A write drops its key's entry, and a script its slot: an
entry at or below its slot's **floor** is as good as absent.  What each operation can do to the
entries is `ProxyCache.Lives`.
-/

namespace Flint

open AList
open Table
open Option

abbrev Ns := String

/-- A cached value, with when it runs out. -/
structure Entry (V : Type) where
  val : V
  expiresAt : ℕ
  /-- Counts the fills: a key filled again leaves its old place in the queue behind. -/
  generation : ℕ
  cost : ℕ
  deriving DecidableEq, Repr

structure Inner (V : Type) where
  map : Table (Ns × String) (Entry V)
  fifo : List ((Ns × String) × ℕ)
  bytes : ℕ
  nsBytes : Table Ns ℕ
  generation : ℕ
  slotFloors : Table Ns (Table ℕ (ℕ × ℕ))

/-- The cache of a proxy, with its knobs. -/
structure ProxyCache (V : Type) where
  inner : Inner V
  /-- The fleet's time-to-live; with 0 the cache is off for everyone. -/
  ttlMs : ℕ
  nsTtlMs : Table Ns ℕ
  ttlMaxMs : ℕ
  maxBytes : ℕ

variable {V : Type}

namespace Inner

def empty : Inner V := ⟨∅, [], 0, ∅, 0, ∅⟩

def remove (inner : Inner V) (c : Ns × String) : Inner V :=
  match inner.map.lookup c with
  | none => inner
  | some e =>
    { inner with
      map := inner.map.erase c
      bytes := inner.bytes - e.cost
      nsBytes :=
        match inner.nsBytes.lookup c.1 with
        | none => inner.nsBytes
        | some b =>
          if b - e.cost = 0 then inner.nsBytes.erase c.1
          else inner.nsBytes.insert c.1 (b - e.cost) }

def isLive (inner : Inner V) (c : Ns × String) (generation : ℕ) : Bool :=
  (inner.map.lookup c).any fun e => e.generation = generation

/-- Take entries off the front of the queue while the table is over its budget. -/
def evictFrom (budget : ℕ) : List ((Ns × String) × ℕ) → Inner V → Inner V
  | [], inner => { inner with fifo := [] }
  | (c, generation) :: rest, inner =>
    if inner.bytes > budget then
      evictFrom budget rest (if inner.isLive c generation then inner.remove c else inner)
    else { inner with fifo := (c, generation) :: rest }

def evictToBudget (inner : Inner V) (budget : ℕ) : Inner V := evictFrom budget inner.fifo inner

def nsTotal (inner : Inner V) (ns : Ns) : ℕ := (inner.nsBytes.lookup ns).getD 0

def removeWhileOver (ns : Ns) (share : ℕ) : List (Ns × String) → Inner V → Inner V
  | [], inner => inner
  | c :: cs, inner =>
    if inner.nsTotal ns ≤ share then inner else removeWhileOver ns share cs (inner.remove c)

/-- **Fairness**: a namespace over its share loses its own oldest entries, the newest apart. -/
def enforceNsShare (inner : Inner V) (ns : Ns) (budget : ℕ) (newest : Ns × String) : Inner V :=
  let share := budget / max inner.nsBytes.size 1
  if inner.nsTotal ns ≤ share then inner
  else
    removeWhileOver ns share
      ((inner.fifo.filter fun place =>
        place.1 ≠ newest && place.1.1 = ns && inner.isLive place.1 place.2).map Prod.fst)
      inner

/-- The ledgers after a fill: the old entry is replaced, the new one at the end of the queue. -/
def insert (inner : Inner V) (c : Ns × String) (e : Entry V) : Inner V :=
  let old := (inner.map.lookup c).elim 0 Entry.cost
  { inner with
    map := inner.map.insert c e
    generation := e.generation
    bytes := inner.bytes - old + e.cost
    nsBytes := inner.nsBytes.insert c.1 (inner.nsTotal c.1 - old + e.cost)
    fifo := inner.fifo ++ [(c, e.generation)] }

def floor (inner : Inner V) (ns : Ns) (slot : ℕ) : Option (ℕ × ℕ) :=
  (inner.slotFloors.lookup ns).bind fun floors => floors.lookup slot

def hides (inner : Inner V) (ns : Ns) (slot : ℕ) (e : Entry V) : Bool :=
  (inner.floor ns slot).any fun f => e.generation ≤ f.1

end Inner

namespace ProxyCache

variable (slotOf : String → ℕ) (size : V → ℕ) (now : ℕ)

def withCeiling (ttlMs maxBytes ttlMaxMs : ℕ) : ProxyCache V :=
  ⟨.empty, ttlMs, ∅, ttlMaxMs, maxBytes⟩

def enabled (cache : ProxyCache V) : Bool := 0 < cache.ttlMs

def ttlFor (cache : ProxyCache V) (ns : Ns) : ℕ :=
  if cache.ttlMs = 0 then 0 else (cache.nsTtlMs.lookup ns).getD cache.ttlMs

def setNsTtl (cache : ProxyCache V) (ns : Ns) (want : ℕ) : ProxyCache V :=
  { cache with nsTtlMs := cache.nsTtlMs.insert ns (min want cache.ttlMaxMs) }

def configure (cache : ProxyCache V) (ttlMs maxBytes : ℕ) : ProxyCache V :=
  { cache with
    ttlMs := ttlMs
    maxBytes := maxBytes
    inner := if ttlMs = 0 then .empty else cache.inner.evictToBudget maxBytes }

/-- **A lookup**: the value of a fresh entry.  One that is not goes. -/
def get (cache : ProxyCache V) (ns : Ns) (key : String) : Option V × ProxyCache V :=
  if cache.enabled then
    match cache.inner.map.lookup (ns, key) with
    | some e =>
      if now < e.expiresAt ∧ cache.inner.hides ns (slotOf key) e = false then (some e.val, cache)
      else (none, { cache with inner := cache.inner.remove (ns, key) })
    | none => (none, cache)
  else (none, cache)

/-- **A fill** with a `GET`'s reply, unless it is larger than the whole budget. -/
def put (cache : ProxyCache V) (ns : Ns) (key : String) (val : V) : ProxyCache V :=
  let ttl := cache.ttlFor ns
  let cost := 4 + ns.length + key.length + size val
  if ttl = 0 ∨ cost > cache.maxBytes then cache
  else
    let inner := cache.inner.insert (ns, key) ⟨val, now + ttl, cache.inner.generation + 1, cost⟩
    { cache with
      inner := (inner.evictToBudget cache.maxBytes).enforceNsShare ns cache.maxBytes (ns, key) }

def invalidate (cache : ProxyCache V) (ns : Ns) (key : String) : ProxyCache V :=
  if cache.enabled then { cache with inner := cache.inner.remove (ns, key) } else cache

def invalidateSlot (cache : ProxyCache V) (ns : Ns) (slot : ℕ) : ProxyCache V :=
  if cache.enabled then
    let floors :=
      ((cache.inner.slotFloors.lookup ns).getD ∅).insert slot (cache.inner.generation, now)
    let kept :=
      if Table.size floors > 1024 then Table.retain (fun _ f => now - f.2 ≤ cache.ttlMaxMs) floors
      else floors
    { cache with inner := { cache.inner with slotFloors := cache.inner.slotFloors.insert ns kept } }
  else cache

def invalidateNs (cache : ProxyCache V) (ns : Ns) : ProxyCache V :=
  if cache.enabled then
    let inner := (cache.inner.map.keys.filter fun c => c.1 = ns).foldl Inner.remove cache.inner
    { cache with inner := { inner with slotFloors := inner.slotFloors.erase ns } }
  else cache

end ProxyCache

/-! ## Removing entries -/

open Inner

variable {e : Entry V} {ns : Ns}

namespace Inner

variable {inner inner' inner'' : Inner V} {c c' : Ns × String}

/-- **Some entries are gone and nothing else is different**, the ledgers apart. -/
structure Within (inner' inner : Inner V) : Prop where
  map : ∀ c e, inner'.map.lookup c = some e → inner.map.lookup c = some e
  generation : inner'.generation = inner.generation
  slotFloors : inner'.slotFloors = inner.slotFloors

theorem Within.refl (inner : Inner V) : inner.Within inner := ⟨fun _ _ h => h, rfl, rfl⟩

theorem Within.trans (h' : inner''.Within inner') (h : inner'.Within inner) :
    inner''.Within inner :=
  ⟨fun c e he => h.map c e (h'.map c e he), h'.generation.trans h.generation,
    h'.slotFloors.trans h.slotFloors⟩

theorem Within.hides (h : inner'.Within inner) (ns : Ns) (slot : ℕ) (e : Entry V) :
    inner'.hides ns slot e = inner.hides ns slot e := by
  rw [Inner.hides, Inner.floor, h.slotFloors]
  rfl

theorem remove_within (inner : Inner V) (c : Ns × String) : (inner.remove c).Within inner := by
  unfold remove
  split
  · exact .refl inner
  · exact ⟨fun c' e he => (lookup_erase_eq_some.mp he).2, rfl, rfl⟩

theorem lookup_remove (inner : Inner V) (c : Ns × String) :
    (inner.remove c).map.lookup c = none := by
  unfold remove
  split
  · assumption
  · exact lookup_erase c inner.map

theorem foldl_remove_within (cs : List (Ns × String)) (inner : Inner V) :
    (cs.foldl remove inner).Within inner := by
  induction cs generalizing inner with
  | nil => exact .refl inner
  | cons c cs ih => exact (ih (inner.remove c)).trans (remove_within inner c)

theorem lookup_foldl_remove {cs : List (Ns × String)} (hc : c ∈ cs) (inner : Inner V) :
    (cs.foldl remove inner).map.lookup c = none := by
  induction cs generalizing inner with
  | nil => exact absurd hc List.not_mem_nil
  | cons c' cs ih =>
    rcases List.mem_cons.mp hc with rfl | hc
    · -- Nothing comes back once it is gone.
      cases hlookup : ((c :: cs).foldl remove inner).map.lookup c with
      | none => rfl
      | some e =>
        have := (foldl_remove_within cs (inner.remove c)).map c e hlookup
        exact nomatch (lookup_remove inner c).symm.trans this
    · exact ih hc (inner.remove c')

theorem evictFrom_within (budget : ℕ) (places : List ((Ns × String) × ℕ)) (inner : Inner V) :
    (evictFrom budget places inner).Within inner := by
  induction places generalizing inner with
  | nil => exact ⟨fun _ _ h => h, rfl, rfl⟩
  | cons place rest ih =>
    obtain ⟨c, generation⟩ := place
    unfold evictFrom
    split
    · split
      · exact (ih _).trans (remove_within inner c)
      · exact ih inner
    · exact ⟨fun _ _ h => h, rfl, rfl⟩

theorem evictToBudget_within (inner : Inner V) (budget : ℕ) :
    (inner.evictToBudget budget).Within inner := evictFrom_within budget inner.fifo inner

theorem removeWhileOver_within (ns : Ns) (share : ℕ) (cs : List (Ns × String)) (inner : Inner V) :
    (removeWhileOver ns share cs inner).Within inner := by
  induction cs generalizing inner with
  | nil => exact .refl inner
  | cons c cs ih =>
    unfold removeWhileOver
    split
    · exact .refl inner
    · exact (ih _).trans (remove_within inner c)

theorem enforceNsShare_within (inner : Inner V) (ns : Ns) (budget : ℕ) (newest : Ns × String) :
    (inner.enforceNsShare ns budget newest).Within inner := by
  unfold enforceNsShare
  simp only
  split
  · exact .refl inner
  · exact removeWhileOver_within ns _ _ inner

end Inner

/-! ## What a lookup answers from -/

namespace ProxyCache

variable {slotOf : String → ℕ} {size : V → ℕ} {now now' : ℕ} {cache cache' : ProxyCache V}
  {c : Ns × String} {key : String} {v : V}

structure Lives (slotOf : String → ℕ) (now : ℕ) (cache : ProxyCache V) (c : Ns × String)
    (e : Entry V) : Prop where
  lookup : cache.inner.map.lookup c = some e
  fresh : now < e.expiresAt
  shown : cache.inner.hides c.1 (slotOf c.2) e = false

theorem get_eq_some (h : (cache.get slotOf now ns key).1 = some v) :
    ∃ e, cache.Lives slotOf now (ns, key) e ∧ e.val = v := by
  unfold get at h
  split at h
  · split at h
    · rename_i e he
      split at h
      · next hfresh => exact ⟨e, ⟨he, hfresh.1, hfresh.2⟩, some.inj h⟩
      · cases h
    · cases h
  · cases h

structure SameKnobs (cache' cache : ProxyCache V) : Prop where
  ttlMs : cache'.ttlMs = cache.ttlMs
  nsTtlMs : cache'.nsTtlMs = cache.nsTtlMs
  ttlMaxMs : cache'.ttlMaxMs = cache.ttlMaxMs

theorem Lives.of_within (hw : cache'.inner.Within cache.inner)
    (h : cache'.Lives slotOf now c e) : cache.Lives slotOf now c e :=
  ⟨hw.map c e h.lookup, h.fresh, (hw.hides _ _ e).symm.trans h.shown⟩

theorem Lives.mono (hle : now ≤ now') (h : cache.Lives slotOf now' c e) :
    cache.Lives slotOf now c e := ⟨h.lookup, Nat.lt_of_le_of_lt hle h.fresh, h.shown⟩

theorem get_within (cache : ProxyCache V) (ns : Ns) (key : String) :
    (cache.get slotOf now ns key).2.inner.Within cache.inner := by
  unfold get
  split
  · split
    · split
      · exact .refl _
      · exact remove_within _ _
    · exact .refl _
  · exact .refl _

theorem get_knobs (cache : ProxyCache V) (ns : Ns) (key : String) :
    (cache.get slotOf now ns key).2.SameKnobs cache := by
  unfold get
  split
  · split
    · split <;> exact ⟨rfl, rfl, rfl⟩
    · exact ⟨rfl, rfl, rfl⟩
  · exact ⟨rfl, rfl, rfl⟩

theorem Lives.of_put (h : (cache.put size now ns key v).Lives slotOf now' c e) :
    c = (ns, key) ∧ e.val = v ∨ cache.Lives slotOf now' c e := by
  unfold put at h
  simp only at h
  split at h
  · exact .inr h
  set filled := cache.inner.insert (ns, key)
    ⟨v, now + cache.ttlFor ns, cache.inner.generation + 1, _⟩ with hfilled
  have hw : ((filled.evictToBudget cache.maxBytes).enforceNsShare ns cache.maxBytes
      (ns, key)).Within filled :=
    (enforceNsShare_within _ _ _ _).trans (evictToBudget_within _ _)
  have hlookup := hw.map c e h.lookup
  rw [hfilled] at hlookup
  rcases lookup_insert_eq_some.mp hlookup with ⟨rfl, rfl⟩ | ⟨-, hold⟩
  · exact .inl ⟨rfl, rfl⟩
  · exact .inr ⟨hold, h.fresh, (hw.hides _ _ e).symm.trans h.shown⟩

theorem put_knobs (cache : ProxyCache V) (ns : Ns) (key : String) (v : V) :
    (cache.put size now ns key v).SameKnobs cache := by
  unfold put
  simp only
  split <;> exact ⟨rfl, rfl, rfl⟩

theorem Lives.of_invalidate (hon : cache.enabled)
    (h : (cache.invalidate ns key).Lives slotOf now c e) :
    c ≠ (ns, key) ∧ cache.Lives slotOf now c e := by
  unfold invalidate at h
  rw [if_pos hon] at h
  refine ⟨?_, h.of_within (remove_within _ _)⟩
  rintro rfl
  exact nomatch (lookup_remove _ _).symm.trans h.lookup

theorem Lives.of_invalidateNs (hon : cache.enabled)
    (h : (cache.invalidateNs ns).Lives slotOf now c e) : c.1 ≠ ns ∧ cache.Lives slotOf now c e := by
  unfold invalidateNs at h
  rw [if_pos hon] at h
  have hw := foldl_remove_within (cache.inner.map.keys.filter fun c => c.1 = ns) cache.inner
  have hmem := hw.map c e h.lookup
  have hne : c.1 ≠ ns := by
    intro hns
    have hc : c ∈ cache.inner.map.keys.filter fun c => c.1 = ns := by
      refine List.mem_filter.mpr ⟨mem_keys.mp (lookup_isSome.mp ?_), by simpa using hns⟩
      rw [hmem]
      rfl
    exact nomatch (lookup_foldl_remove hc cache.inner).symm.trans h.lookup
  refine ⟨hne, hmem, h.fresh, ?_⟩
  have hshown := h.shown
  simp only [hides, floor, lookup_erase_ne hne, hw.slotFloors] at hshown
  exact hshown

theorem Lives.of_configure {ttlMs maxBytes : ℕ}
    (h : (cache.configure ttlMs maxBytes).Lives slotOf now c e) : cache.Lives slotOf now c e := by
  have hlookup := h.lookup
  unfold configure at h hlookup
  by_cases hzero : ttlMs = 0
  · simp only [hzero, if_true] at hlookup
    exact absurd hlookup (by simp [empty])
  · simp only [hzero, if_false] at h
    exact h.of_within (evictToBudget_within _ _)

/-! ## Floors and their times -/

/-- **The cache's clockwork**: no time-to-live is over the ceiling, a cache that is off is empty,
and an entry below its slot's floor dies in time. -/
structure Timed (slotOf : String → ℕ) (now : ℕ) (cache : ProxyCache V) : Prop where
  ttl : cache.ttlMs ≤ cache.ttlMaxMs
  nsTtl : ∀ ns t, cache.nsTtlMs.lookup ns = some t → t ≤ cache.ttlMaxMs
  off : cache.ttlMs = 0 → ∀ c, cache.inner.map.lookup c = none
  entry : ∀ c e, cache.inner.map.lookup c = some e →
    e.generation ≤ cache.inner.generation ∧ e.expiresAt ≤ now + cache.ttlMaxMs
  floor : ∀ ns slot f, cache.inner.floor ns slot = some f → f.1 ≤ cache.inner.generation
  hidden : ∀ c e f, cache.inner.map.lookup c = some e →
    cache.inner.floor c.1 (slotOf c.2) = some f → e.generation ≤ f.1 →
    e.expiresAt ≤ f.2 + cache.ttlMaxMs

theorem Timed.not_lives (ht : cache.Timed slotOf now) (hoff : cache.enabled = false) :
    ¬ cache.Lives slotOf now c e := fun h =>
  absurd ((ht.off (by simpa [enabled] using hoff) c).symm.trans h.lookup) nofun

theorem timed_withCeiling {ttlMs maxBytes ttlMaxMs : ℕ} (h : ttlMs ≤ ttlMaxMs) :
    (withCeiling ttlMs maxBytes ttlMaxMs : ProxyCache V).Timed slotOf now :=
  ⟨h, nofun, fun _ _ => rfl, nofun, nofun, nofun⟩

theorem Timed.mono (hle : now ≤ now') (ht : cache.Timed slotOf now) : cache.Timed slotOf now' :=
  { ht with entry := fun c e he => ⟨(ht.entry c e he).1,
    Nat.le_trans (ht.entry c e he).2 (Nat.add_le_add_right hle _)⟩ }

namespace Timed

variable (ht : cache.Timed slotOf now)
include ht

theorem of_fewer (hk : cache'.SameKnobs cache)
    (hmap : ∀ c e, cache'.inner.map.lookup c = some e → cache.inner.map.lookup c = some e)
    (hgen : cache'.inner.generation = cache.inner.generation)
    (hfloor : ∀ ns slot f, cache'.inner.floor ns slot = some f →
      f = (cache.inner.generation, now) ∨ cache.inner.floor ns slot = some f) :
    cache'.Timed slotOf now := by
  refine ⟨?_, ?_, ?_, ?_, ?_, ?_⟩
  · rw [hk.ttlMs, hk.ttlMaxMs]
    exact ht.ttl
  · rw [hk.nsTtlMs, hk.ttlMaxMs]
    exact ht.nsTtl
  · intro hzero c
    rw [hk.ttlMs] at hzero
    cases he : cache'.inner.map.lookup c with
    | none => rfl
    | some e => exact nomatch (ht.off hzero c).symm.trans (hmap c e he)
  · intro c e he
    rw [hgen, hk.ttlMaxMs]
    exact ht.entry c e (hmap c e he)
  · intro ns slot f hf
    rw [hgen]
    rcases hfloor ns slot f hf with rfl | hold
    · exact Nat.le_refl _
    · exact ht.floor ns slot f hold
  · intro c e f he hf hle
    rw [hk.ttlMaxMs]
    rcases hfloor _ _ f hf with rfl | hold
    · -- A new floor is above every entry.
      exact (ht.entry c e (hmap c e he)).2
    · exact ht.hidden c e f (hmap c e he) hold hle

theorem of_within (hk : cache'.SameKnobs cache)
    (hw : cache'.inner.Within cache.inner) : cache'.Timed slotOf now :=
  ht.of_fewer hk hw.map hw.generation fun ns slot f hf =>
    .inr (by rwa [Inner.floor, hw.slotFloors] at hf)

theorem get (ns : Ns) (key : String) : (cache.get slotOf now ns key).2.Timed slotOf now :=
  ht.of_within (get_knobs cache ns key) (get_within cache ns key)

theorem invalidate (ns : Ns) (key : String) : (cache.invalidate ns key).Timed slotOf now := by
  unfold ProxyCache.invalidate
  split
  · exact ht.of_within ⟨rfl, rfl, rfl⟩ (remove_within _ _)
  · exact ht

theorem ttlFor_le (ns : Ns) : cache.ttlFor ns ≤ cache.ttlMaxMs := by
  unfold ttlFor
  split
  · exact Nat.zero_le _
  · cases h : cache.nsTtlMs.lookup ns with
    | none => exact ht.ttl
    | some t => exact ht.nsTtl ns t h

theorem put (ns : Ns) (key : String) (v : V) : (cache.put size now ns key v).Timed slotOf now := by
  unfold ProxyCache.put
  simp only
  split
  · exact ht
  rename_i hput
  set e₀ : Entry V := ⟨v, now + cache.ttlFor ns, cache.inner.generation + 1, _⟩ with he₀
  have htimed : ({ cache with inner := cache.inner.insert (ns, key) e₀ } : ProxyCache V).Timed
      slotOf now := by
    refine ⟨ht.ttl, ht.nsTtl, fun hzero => ?_, fun c e he => ?_, fun ns' slot f hf => ?_,
      fun c e f he hf hle => ?_⟩
    · exact absurd (.inl (if_pos hzero)) hput
    · rcases lookup_insert_eq_some.mp he with ⟨rfl, rfl⟩ | ⟨-, hold⟩
      · exact ⟨Nat.le_refl _, Nat.add_le_add_left (ht.ttlFor_le ns) now⟩
      · exact ⟨Nat.le_succ_of_le (ht.entry c e hold).1, (ht.entry c e hold).2⟩
    · exact Nat.le_succ_of_le (ht.floor ns' slot f hf)
    rcases lookup_insert_eq_some.mp he with ⟨rfl, rfl⟩ | ⟨-, hold⟩
    · -- A new entry is above every floor.
      exact absurd hle (Nat.not_le.mpr (Nat.lt_succ_of_le (ht.floor _ _ f hf)))
    · exact ht.hidden c e f hold hf hle
  exact htimed.of_within ⟨rfl, rfl, rfl⟩
    ((enforceNsShare_within _ _ _ _).trans (evictToBudget_within _ _))

theorem setNsTtl (ns : Ns) (want : ℕ) : (cache.setNsTtl ns want).Timed slotOf now := by
  refine { ht with nsTtl := fun ns' t h => ?_ }
  rcases lookup_insert_eq_some.mp h with ⟨-, rfl⟩ | ⟨-, hold⟩
  · exact Nat.min_le_right _ _
  · exact ht.nsTtl ns' t hold

end Timed

theorem floors_getD (ns : Ns) (s : ℕ) :
    ((cache.inner.slotFloors.lookup ns).getD ∅).lookup s = cache.inner.floor ns s := by
  unfold floor
  cases cache.inner.slotFloors.lookup ns <;> rfl

variable {f : ℕ × ℕ}

theorem lookup_kept {floors : Table ℕ (ℕ × ℕ)} {slot s ttlMaxMs : ℕ} (g : ℕ)
    (kept : Table ℕ (ℕ × ℕ)) (hkept : kept = if Table.size (floors.insert slot (g, now)) > 1024 then
      retain (fun _ f => now - f.2 ≤ ttlMaxMs) (floors.insert slot (g, now))
      else floors.insert slot (g, now)) : kept.lookup s = some f ↔
      (s = slot ∧ f = (g, now) ∨ s ≠ slot ∧ floors.lookup s = some f) ∧
        (Table.size (floors.insert slot (g, now)) > 1024 → now - f.2 ≤ ttlMaxMs) := by
  subst hkept
  split
  · rename_i hmany
    rw [lookup_retain, lookup_insert_eq_some, decide_eq_true_eq]
    exact ⟨fun h => ⟨h.1, fun _ => h.2⟩, fun h => ⟨h.1, h.2 hmany⟩⟩
  · rename_i hfew
    rw [lookup_insert_eq_some]
    exact ⟨fun h => ⟨h, fun hmany => absurd hmany hfew⟩, fun h => h.1⟩

variable {slot s : ℕ}

theorem floor_invalidateSlot (hon : cache.enabled)
    (hyoung : now - f.2 ≤ cache.ttlMaxMs) (h : s = slot ∧ f = (cache.inner.generation, now) ∨
      s ≠ slot ∧ cache.inner.floor ns s = some f) :
    (cache.invalidateSlot now ns slot).inner.floor ns s = some f := by
  unfold invalidateSlot
  rw [if_pos hon]
  simp only [floor, lookup_insert, bind_some]
  rw [← floors_getD] at h
  exact (lookup_kept cache.inner.generation _ rfl).mpr ⟨h, fun _ => hyoung⟩

theorem floor_invalidateSlot_of_ne {ns' : Ns} (hne : ns' ≠ ns) (slot s : ℕ) :
    (cache.invalidateSlot now ns slot).inner.floor ns' s = cache.inner.floor ns' s := by
  unfold invalidateSlot
  split
  · simp only [floor, lookup_insert_ne hne]
  · rfl

theorem floor_of_invalidateSlot {ns' : Ns}
    (h : (cache.invalidateSlot now ns slot).inner.floor ns' s = some f) :
    f = (cache.inner.generation, now) ∨ cache.inner.floor ns' s = some f := by
  by_cases hns : ns' = ns
  · subst hns
    unfold invalidateSlot at h
    split at h
    · simp only [floor, lookup_insert, bind_some] at h
      rw [← floors_getD]
      exact ((lookup_kept cache.inner.generation _ rfl).mp h).1.imp And.right And.right
    · exact .inr h
  · rw [floor_invalidateSlot_of_ne hns] at h
    exact .inr h

section

variable (ht : cache.Timed slotOf now)
include ht

theorem Timed.configure {ttlMs maxBytes : ℕ}
    (hle : ttlMs ≤ cache.ttlMaxMs) : (cache.configure ttlMs maxBytes).Timed slotOf now := by
  unfold ProxyCache.configure
  by_cases hzero : ttlMs = 0
  · simp only [hzero, if_true]
    exact ⟨Nat.zero_le _, ht.nsTtl, fun _ _ => rfl, nofun, nofun, nofun⟩
  simp only [hzero, if_false]
  have hw := evictToBudget_within cache.inner maxBytes
  have htimed : ({ cache with ttlMs := ttlMs } : ProxyCache V).Timed slotOf now :=
    { ht with ttl := hle, off := fun h => absurd h hzero }
  exact htimed.of_within ⟨rfl, rfl, rfl⟩ hw

theorem Timed.invalidateNs (ns : Ns) : (cache.invalidateNs ns).Timed slotOf now := by
  unfold ProxyCache.invalidateNs
  split
  · have hw := foldl_remove_within (cache.inner.map.keys.filter fun c => c.1 = ns) cache.inner
    refine ht.of_fewer ⟨rfl, rfl, rfl⟩ hw.map hw.generation fun ns' slot f hf => ?_
    obtain ⟨floors, hfloors, hf⟩ := bind_eq_some_iff.mp hf
    have hold := (lookup_erase_eq_some.mp hfloors).2
    rw [hw.slotFloors] at hold
    exact .inr (bind_eq_some_iff.mpr ⟨floors, hold, hf⟩)
  · exact ht

/-! ## A dropped slot -/

variable {slot : ℕ}

theorem Lives.of_invalidateSlot
    (hon : cache.enabled) (h : (cache.invalidateSlot now ns slot).Lives slotOf now c e) :
    (c.1 = ns → slotOf c.2 ≠ slot) ∧ cache.Lives slotOf now c e := by
  have hlookup : cache.inner.map.lookup c = some e := by
    have := h.lookup
    unfold invalidateSlot at this
    rwa [if_pos hon] at this
  have hshown : ∀ f, (cache.invalidateSlot now ns slot).inner.floor c.1 (slotOf c.2) = some f →
      f.1 < e.generation := by
    intro f hf
    have := h.shown
    rw [hides, hf] at this
    simpa using this
  by_cases hns : c.1 = ns
  · rw [hns] at hshown
    have hslot : slotOf c.2 ≠ slot := by
      intro hslot
      have hlt := hshown _ (floor_invalidateSlot hon (by simp) (.inl ⟨hslot, rfl⟩))
      exact absurd (ht.entry c e hlookup).1 (Nat.not_le.mpr hlt)
    refine ⟨fun _ => hslot, hlookup, h.fresh, Bool.eq_false_iff.mpr fun hhides => ?_⟩
    rw [hns, hides, any_eq_true] at hhides
    obtain ⟨f, hf, hle⟩ := hhides
    have hle : e.generation ≤ f.1 := by simpa using hle
    by_cases hyoung : now - f.2 ≤ cache.ttlMaxMs
    · have hlt := hshown f (floor_invalidateSlot hon hyoung (.inr ⟨hslot, hf⟩))
      exact absurd hlt (Nat.not_lt.mpr hle)
    -- The entries below a floor that is let go have expired.
    have hdead := ht.hidden c e f hlookup (by rw [hns]; exact hf) hle
    have hfresh := h.fresh
    omega
  · refine ⟨fun h => absurd h hns, hlookup, h.fresh, ?_⟩
    have := h.shown
    rwa [hides, floor_invalidateSlot_of_ne hns, ← hides] at this

theorem Timed.invalidateSlot (ns : Ns) : (cache.invalidateSlot now ns slot).Timed slotOf now := by
  have hsame : (cache.invalidateSlot now ns slot).SameKnobs cache ∧
      (cache.invalidateSlot now ns slot).inner.map = cache.inner.map ∧
      (cache.invalidateSlot now ns slot).inner.generation = cache.inner.generation := by
    unfold ProxyCache.invalidateSlot
    split <;> exact ⟨⟨rfl, rfl, rfl⟩, rfl, rfl⟩
  obtain ⟨hk, hmap, hgen⟩ := hsame
  exact ht.of_fewer hk (fun c e he => hmap ▸ he) hgen fun _ _ _ => floor_of_invalidateSlot

end

end ProxyCache

end Flint
