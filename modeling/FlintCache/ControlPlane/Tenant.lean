import FlintCache.Lib.Text

/-!
# ControlPlane/Tenant — tenants, slot runs, and the mutations of the registry

The part of the registry a proxy is told about: the fleet, the pairs with their slot ranges, the
tenants by name, and the runs of slots whose owner differs from the default.  `RegistryState.apply`
is the one meaning of each mutation, for both control planes.
-/

namespace Flint

section

open List

/-! ## Names

`clean` is the one check names, tokens, namespaces and addresses pass, and `canonicalMembers` reads
a pair's membership: split at commas, and sorted, so that one set of members is one registration. -/

def cleanChar (c : Char) : Bool :=
  c.isAlphanum || c = '-' || c = '_' || c = '.' || c = ':' || c = ','

def clean (s : String) : Bool := s ≠ "" && s.utf8ByteSize ≤ 128 && s.toList.all cleanChar

def canonicalMembers (raw : String) : Option (List String) :=
  if clean raw then some ((splitAtChar ',' raw).insertionSort (· ≤ ·)) else none

theorem ne_nil_of_canonicalMembers {raw : String} {nodes : List String}
    (h : canonicalMembers raw = some nodes) : nodes ≠ [] := by
  obtain ⟨-, ⟨⟩⟩ := Option.ite_none_right_eq_some.mp h
  intro hnil
  have hlen := congrArg length hnil
  rw [length_insertionSort, length_nil] at hlen
  exact splitAtChar_ne_nil _ _ (length_eq_zero_iff.mp hlen)

/-! ## Tenants -/

/-- A tenant as it is registered. -/
structure Tenant where
  name : String
  token : String
  ns : String
  subset : List String
  prevToken : Option String := none
  replicaReads : Bool := false
  localCache : Bool := false
  /-- The fleet's quota of commands a second; `0` is no quota. -/
  opsPerSec : ℕ := 0
  /-- The quota of stored bytes; `0` is no quota. -/
  maxBytes : ℕ := 0
  overQuota : Bool := false
  federated : Bool := false
  asyncWrites : Bool := false
  pair : Option ℕ := none
  deriving DecidableEq, Repr

def Tenant.digests (t : Tenant) : List String := t.token :: t.prevToken.toList

def tenantNamed (ts : List Tenant) (name : String) : Option Tenant := ts.find? (·.name = name)

def insertTenant (t : Tenant) : List Tenant → List Tenant
  | [] => [t]
  | u :: us =>
    if t.name < u.name then t :: u :: us
    else if t.name = u.name then t :: us
    else u :: insertTenant t us

def modifyTenant (name : String) (f : Tenant → Tenant) (ts : List Tenant) : List Tenant :=
  ts.map fun t => if t.name = name then f t else t

def SortedByName (ts : List Tenant) : Prop := ts.Pairwise (·.name < ·.name)

variable {ts : List Tenant} {t u : Tenant}

theorem mem_of_mem_insertTenant (h : u ∈ insertTenant t ts) : u = t ∨ u ∈ ts := by
  induction ts with
  | nil => exact .inl (mem_singleton.mp h)
  | cons v ts ih =>
    rw [insertTenant] at h
    split at h
    · exact mem_cons.mp h
    split at h
    · exact (mem_cons.mp h).imp_right (mem_cons_of_mem _)
    · rcases mem_cons.mp h with rfl | h
      · exact .inr mem_cons_self
      · exact (ih h).imp_right (mem_cons_of_mem _)

theorem mem_insertTenant_self (t : Tenant) (ts : List Tenant) : t ∈ insertTenant t ts := by
  induction ts with
  | nil => exact mem_singleton_self t
  | cons v ts ih =>
    rw [insertTenant]
    split
    · exact mem_cons_self
    · split
      · exact mem_cons_self
      · exact mem_cons_of_mem _ ih

theorem mem_insertTenant_of_ne (h : u ∈ ts) (hne : u.name ≠ t.name) : u ∈ insertTenant t ts := by
  induction ts with
  | nil => cases h
  | cons v ts ih =>
    rw [insertTenant]
    split
    · exact mem_cons_of_mem _ h
    split
    · rename_i heq
      rcases mem_cons.mp h with rfl | h
      · exact absurd heq.symm hne
      · exact mem_cons_of_mem _ h
    · rcases mem_cons.mp h with rfl | h
      · exact mem_cons_self
      · exact mem_cons_of_mem _ (ih h)

theorem SortedByName.insertTenant (h : SortedByName ts) (t : Tenant) :
    SortedByName (insertTenant t ts) := by
  induction ts with
  | nil => exact pairwise_singleton _ _
  | cons v ts ih =>
    obtain ⟨hfirst, hrest⟩ := pairwise_cons.mp h
    rw [Flint.insertTenant]
    split
    · rename_i hlt
      refine pairwise_cons.mpr ⟨fun u hu => ?_, h⟩
      rcases mem_cons.mp hu with rfl | hu
      · exact hlt
      · exact hlt.trans (hfirst u hu)
    split
    · next heq => exact pairwise_cons.mpr ⟨fun u hu => heq ▸ hfirst u hu, hrest⟩
    rename_i hnlt hne
    refine pairwise_cons.mpr ⟨fun u hu => ?_, ih hrest⟩
    rcases mem_of_mem_insertTenant hu with rfl | hu
    · exact lt_of_le_of_ne (not_lt.mp hnlt) (Ne.symm hne)
    · exact hfirst u hu

theorem SortedByName.eq_of_name_eq (h : SortedByName ts) (ht : t ∈ ts) (hu : u ∈ ts)
    (hname : t.name = u.name) : t = u := by
  have hnodup : (ts.map Tenant.name).Nodup := pairwise_map.mpr (h.imp ne_of_lt)
  exact inj_on_of_nodup_map hnodup ht hu hname

variable {name : String}

theorem tenantNamed_eq_none : tenantNamed ts name = none ↔ ∀ t ∈ ts, t.name ≠ name := by
  simp [tenantNamed]

theorem mem_of_tenantNamed (h : tenantNamed ts name = some t) : t ∈ ts ∧ t.name = name :=
  ⟨mem_of_find?_eq_some h, by simpa using find?_some h⟩

theorem SortedByName.tenantNamed_of_mem (h : SortedByName ts) (ht : t ∈ ts) :
    tenantNamed ts t.name = some t := by
  cases hfind : tenantNamed ts t.name with
  | none => exact absurd rfl (tenantNamed_eq_none.mp hfind t ht)
  | some u =>
    obtain ⟨hu, hname⟩ := mem_of_tenantNamed hfind
    rw [h.eq_of_name_eq hu ht hname]

/-! ## Placing tenants on proxies -/

def fnv1a (data : List UInt8) : UInt64 :=
  data.foldl (fun h b => (h ^^^ b.toUInt64) * 0x100000001b3) 0xcbf29ce484222325

def pickProxies : ℕ → UInt64 → List String → List String
  | 0, _, _ => []
  | k + 1, seed, fleet =>
    let seed := (seed + 0x9E3779B97F4A7C15) * 0xBF58476D1CE4E5B9
    let idx := (seed >>> 33).toNat % fleet.length
    match fleet[idx]? with
    | some p => p :: pickProxies k seed (fleet.eraseIdx idx)
    | none => []

/-- **The proxies of a tenant**: the same wherever they are computed. -/
def shuffleShard (name : String) (fleet : List String) (k : ℕ) : List String :=
  let sorted := fleet.insertionSort (· ≤ ·)
  (pickProxies (min k sorted.length) (fnv1a name.toUTF8.toList) sorted).insertionSort (· ≤ ·)

def widen (want : ℕ) (subset candidates : List String) : List String :=
  candidates.foldl (fun s c => if want ≤ s.length ∨ c ∈ s then s else s ++ [c]) subset

/-- **A retired proxy leaves every subset**, and each hole is refilled. -/
def refillAfterRetire (proxies : List String) (retired : String) (t : Tenant) : Tenant :=
  let want := t.subset.length
  let kept := t.subset.filter (· ≠ retired)
  if kept.length = want then { t with subset := kept }
  else
    let ideal := widen want kept (shuffleShard t.name proxies want)
    { t with subset := (widen want ideal proxies).insertionSort (· ≤ ·) }

/-! ## Slot runs -/

/-- A run of slots of a namespace whose owner is not the default. -/
structure SlotRun where
  ns : String
  lo : ℕ
  hi : ℕ
  pair : ℕ
  deriving DecidableEq, Repr

namespace SlotRun

def covers (r : SlotRun) (ns : String) (slot : ℕ) : Bool := r.ns = ns && r.lo ≤ slot && slot ≤ r.hi

def le (r r' : SlotRun) : Prop :=
  r.ns < r'.ns ∨ r.ns = r'.ns ∧ (r.lo < r'.lo ∨ r.lo = r'.lo ∧
    (r.hi < r'.hi ∨ r.hi = r'.hi ∧ r.pair ≤ r'.pair))

instance : DecidableRel le := fun _ _ => inferInstanceAs (Decidable (_ ∨ _))

end SlotRun

def coversSlot (runs : List SlotRun) (ns : String) (slot : ℕ) : Bool :=
  runs.any fun r => r.covers ns slot

def SlotRun.carve (ns : String) (slot : ℕ) (r : SlotRun) : List SlotRun :=
  if r.covers ns slot then
    (if r.lo < slot then [{ r with hi := slot - 1 }] else []) ++
      (if slot < r.hi then [{ r with lo := slot + 1 }] else [])
  else [r]

def clearSlotOwner (runs : List SlotRun) (ns : String) (slot : ℕ) : List SlotRun :=
  runs.flatMap (SlotRun.carve ns slot)

def defaultPair (slot : ℕ) (ranges : List (Option (ℕ × ℕ))) (pairCount : ℕ) : Option ℕ :=
  if pairCount = 0 then none
  else
    match ranges.findIdx? (fun r => r.any fun ab => ab.1 ≤ slot && slot ≤ ab.2) with
    | some i => some i
    | none =>
      let ranged := (ranges.filter Option.isSome).length
      let n := if 0 < ranged then ranged else pairCount
      some (slot * n / 16384)

def mergeRun (out : List SlotRun) (r : SlotRun) : List SlotRun :=
  match out.getLast? with
  | some l =>
    if l.ns = r.ns ∧ l.pair = r.pair ∧ l.hi + 1 = r.lo then out.dropLast ++ [{ l with hi := r.hi }]
    else out ++ [r]
  | none => out ++ [r]

def SlotRun.redundant (ranges : List (Option (ℕ × ℕ))) (pairCount : ℕ) (r : SlotRun) : Bool :=
  (List.range' r.lo (r.hi + 1 - r.lo)).all fun s => defaultPair s ranges pairCount = some r.pair

/-- **The consolidation sweep**: sort, join, and drop what is redundant. -/
def normalize (runs : List SlotRun) (ranges : List (Option (ℕ × ℕ))) (pairCount : ℕ) :
    List SlotRun :=
  ((runs.insertionSort SlotRun.le).foldl mergeRun []).filter fun r => !r.redundant ranges pairCount

def setSlotOwner (runs : List SlotRun) (ns : String) (slot pair : ℕ)
    (ranges : List (Option (ℕ × ℕ))) (pairCount : ℕ) : List SlotRun :=
  normalize (clearSlotOwner runs ns slot ++ [⟨ns, slot, slot, pair⟩]) ranges pairCount

/-! ## The runs stay apart -/

section Runs

structure GoodRun (run : SlotRun) : Prop where
  le : run.lo ≤ run.hi
  hi : run.hi < 2 ^ 16
  pair : run.pair < 2 ^ 16

def SlotRun.Apart (r r' : SlotRun) : Prop := ∀ ns slot, ¬ (r.covers ns slot ∧ r'.covers ns slot)

instance : Std.Symm SlotRun.Apart := ⟨fun _ _ h ns slot hc => h ns slot hc.symm⟩

structure Tidy (runs : List SlotRun) : Prop where
  good : ∀ run ∈ runs, GoodRun run
  apart : runs.Pairwise SlotRun.Apart

variable {run l : SlotRun} {runs out rest : List SlotRun} {ns : String} {slot : ℕ}

open SlotRun

theorem SlotRun.covers_iff : run.covers ns slot ↔ run.ns = ns ∧ run.lo ≤ slot ∧ slot ≤ run.hi := by
  simp [covers, and_assoc]

theorem Tidy.nil : Tidy [] := ⟨nofun, .nil⟩

theorem SlotRun.covers_of_mem_carve {slot' : ℕ} {ns' : String} (h : l ∈ run.carve ns slot)
    (hc : l.covers ns' slot') : run.covers ns' slot' ∧ ¬ (ns' = ns ∧ slot' = slot) := by
  rw [carve] at h
  split at h
  · rename_i hcovers
    rw [covers_iff] at hcovers hc ⊢
    rcases mem_append.mp h with h | h <;> split at h
    · obtain rfl := mem_singleton.mp h
      change run.ns = ns' ∧ run.lo ≤ slot' ∧ slot' ≤ slot - 1 at hc
      exact ⟨⟨hc.1, hc.2.1, by omega⟩, fun heq => by omega⟩
    · cases h
    · obtain rfl := mem_singleton.mp h
      change run.ns = ns' ∧ slot + 1 ≤ slot' ∧ slot' ≤ run.hi at hc
      exact ⟨⟨hc.1, by omega, hc.2.2⟩, fun heq => by omega⟩
    · cases h
  · rename_i hcovers
    obtain rfl := mem_singleton.mp h
    exact ⟨hc, fun ⟨hns, hslot⟩ => hcovers (hns ▸ hslot ▸ hc)⟩

theorem GoodRun.carve (h : GoodRun run) (hl : l ∈ run.carve ns slot) : GoodRun l := by
  have hle := h.le
  have hhi := h.hi
  rw [SlotRun.carve] at hl
  split at hl
  · rename_i hcovers
    rw [covers_iff] at hcovers
    rcases mem_append.mp hl with hl | hl <;> split at hl
    · obtain rfl := mem_singleton.mp hl
      exact ⟨by change run.lo ≤ slot - 1; omega, by change slot - 1 < 2 ^ 16; omega, h.pair⟩
    · cases hl
    · obtain rfl := mem_singleton.mp hl
      exact ⟨by change slot + 1 ≤ run.hi; omega, h.hi, h.pair⟩
    · cases hl
  · obtain rfl := mem_singleton.mp hl
    exact h

theorem SlotRun.pairwise_carve (run : SlotRun) (ns : String) (slot : ℕ) :
    (run.carve ns slot).Pairwise SlotRun.Apart := by
  rw [carve]
  split
  · refine pairwise_append.mpr ⟨?_, ?_, fun a ha b hb ns' slot' ⟨hca, hcb⟩ => ?_⟩
    · split
      · exact pairwise_singleton _ _
      · exact .nil
    · split
      · exact pairwise_singleton _ _
      · exact .nil
    rw [covers_iff] at hca hcb
    split at ha
    · split at hb
      · obtain rfl := mem_singleton.mp ha
        obtain rfl := mem_singleton.mp hb
        change run.ns = ns' ∧ run.lo ≤ slot' ∧ slot' ≤ slot - 1 at hca
        change run.ns = ns' ∧ slot + 1 ≤ slot' ∧ slot' ≤ run.hi at hcb
        omega
      · cases hb
    · cases ha
  · exact pairwise_singleton _ _

theorem SlotRun.covers_join (hns : l.ns = run.ns) (htouch : l.hi + 1 = run.lo)
    (h : ({ l with hi := run.hi } : SlotRun).covers ns slot) :
    l.covers ns slot ∨ run.covers ns slot := by
  rw [covers_iff] at h
  rw [covers_iff, covers_iff]
  obtain ⟨heq, hlo, hhi⟩ := h
  rcases Nat.lt_or_ge slot run.lo with hlt | hge
  · exact .inl ⟨heq, hlo, by omega⟩
  · exact .inr ⟨hns ▸ heq, hge, hhi⟩

theorem Tidy.mergeRun (h : Tidy (out ++ run :: rest)) : Tidy (mergeRun out run ++ rest) := by
  have hsame : Tidy (out ++ [run] ++ rest) := by rwa [append_assoc, singleton_append]
  rw [Flint.mergeRun]
  split
  · rename_i l hlast
    split
    · rename_i hjoin
      obtain ⟨hns, hpair, htouch⟩ := hjoin
      obtain ⟨init, rfl⟩ : ∃ init, out = init ++ [l] := getLast?_eq_some_iff.mp hlast
      rw [dropLast_concat]
      simp only [append_assoc, singleton_append] at h ⊢
      obtain ⟨hinit, hlrest, hcross⟩ := pairwise_append.mp h.apart
      obtain ⟨hl, hrrest⟩ := pairwise_cons.mp hlrest
      obtain ⟨hr, hrest⟩ := pairwise_cons.mp hrrest
      have hgoodl : GoodRun l := h.good l (by simp)
      have hgoodr : GoodRun run := h.good run (by simp)
      refine ⟨fun x hx => ?_, pairwise_append.mpr ⟨hinit,
        pairwise_cons.mpr ⟨fun x hx ns slot ⟨hc, hcx⟩ => ?_, hrest⟩, fun a ha x hx => ?_⟩⟩
      · rcases mem_append.mp hx with hx | hx
        · exact h.good x (mem_append_left _ hx)
        rcases mem_cons.mp hx with rfl | hx
        · have := hgoodl.le
          have := hgoodr.le
          exact ⟨by change l.lo ≤ run.hi; omega, hgoodr.hi, hgoodl.pair⟩
        · exact h.good x (by simp [hx])
      · rcases covers_join hns htouch hc with hc | hc
        · exact hl x (mem_cons_of_mem _ hx) ns slot ⟨hc, hcx⟩
        · exact hr x hx ns slot ⟨hc, hcx⟩
      rcases mem_cons.mp hx with rfl | hx
      · rintro ns slot ⟨hca, hc⟩
        rcases covers_join hns htouch hc with hc | hc
        · exact hcross a ha l mem_cons_self ns slot ⟨hca, hc⟩
        · exact hcross a ha run (by simp) ns slot ⟨hca, hc⟩
      · exact hcross a ha x (by simp [hx])
    · exact hsame
  · exact hsame

theorem Tidy.foldl_mergeRun (h : Tidy (out ++ runs)) : Tidy (runs.foldl Flint.mergeRun out) := by
  induction runs generalizing out with
  | nil => rwa [append_nil] at h
  | cons run runs ih => exact ih h.mergeRun

section

variable (h : Tidy runs)
include h

theorem Tidy.filter (p : SlotRun → Bool) : Tidy (runs.filter p) :=
  ⟨fun run hrun => h.good run (mem_of_mem_filter hrun), h.apart.filter p⟩

theorem Tidy.perm {runs' : List SlotRun} (hperm : runs.Perm runs') : Tidy runs' :=
  ⟨fun run hrun => h.good run (hperm.mem_iff.mpr hrun), h.apart.perm hperm fun h => symm h⟩

theorem Tidy.eq_of_covers {run' : SlotRun} (hrun : run ∈ runs) (hrun' : run' ∈ runs)
    (hc : run.covers ns slot) (hc' : run'.covers ns slot) : run = run' := by
  by_contra hne
  exact h.apart.forall hrun hrun' hne ns slot ⟨hc, hc'⟩

/-! ## Carving -/

theorem Tidy.clearSlotOwner (ns : String) (slot : ℕ) : Tidy (clearSlotOwner runs ns slot) where
  good l hl := by
    obtain ⟨run, hrun, hl⟩ := mem_flatMap.mp hl
    exact (h.good run hrun).carve hl
  apart := by
    refine pairwise_flatMap.mpr ⟨fun run _ => run.pairwise_carve ns slot, ?_⟩
    refine h.apart.imp fun hapart a ha b hb ns' slot' ⟨hca, hcb⟩ => hapart ns' slot' ?_
    exact ⟨(covers_of_mem_carve ha hca).1, (covers_of_mem_carve hb hcb).1⟩

omit h in
theorem not_covers_clearSlotOwner (hl : l ∈ clearSlotOwner runs ns slot) :
    l.covers ns slot = false := by
  obtain ⟨run, -, hl⟩ := mem_flatMap.mp hl
  rw [← Bool.not_eq_true]
  exact fun hc => (covers_of_mem_carve hl hc).2 ⟨rfl, rfl⟩

/-! ## Joining -/

theorem Tidy.normalize (ranges : List (Option (ℕ × ℕ))) (pairCount : ℕ) :
    Tidy (normalize runs ranges pairCount) :=
  have hsort : Tidy ([] ++ runs.insertionSort le) :=
    h.perm (perm_insertionSort _ _).symm
  hsort.foldl_mergeRun.filter _

theorem Tidy.place {pair : ℕ} (hslot : slot < 2 ^ 16) (hpair : pair < 2 ^ 16) (ns : String) :
    Tidy (Flint.clearSlotOwner runs ns slot ++ [⟨ns, slot, slot, pair⟩]) := by
  have hclear := h.clearSlotOwner ns slot
  refine ⟨fun run hrun => ?_, ?_⟩
  · rcases mem_append.mp hrun with hrun | hrun
    · exact hclear.good run hrun
    · obtain rfl := mem_singleton.mp hrun
      exact ⟨le_rfl, hslot, hpair⟩
  refine pairwise_append.mpr ⟨hclear.apart, pairwise_singleton _ _, ?_⟩
  rintro a ha b hb ns' slot' ⟨hca, hcb⟩
  obtain rfl := mem_singleton.mp hb
  obtain ⟨hns, hlo, hhi⟩ := covers_iff.mp hcb
  change ns = ns' at hns
  change slot ≤ slot' at hlo
  change slot' ≤ slot at hhi
  obtain rfl : slot = slot' := by omega
  obtain rfl := hns
  rw [not_covers_clearSlotOwner ha] at hca
  cases hca

theorem Tidy.setSlotOwner {pair : ℕ} (hslot : slot < 2 ^ 16) (hpair : pair < 2 ^ 16)
    (ns : String) (ranges : List (Option (ℕ × ℕ))) (pairCount : ℕ) :
    Tidy (setSlotOwner runs ns slot pair ranges pairCount) :=
  (h.place hslot hpair ns).normalize ranges pairCount

end

/-! ## Who has a slot -/

/-- The pair of the first run over a slot. -/
def pairAt (runs : List SlotRun) (ns : String) (slot : ℕ) : Option ℕ :=
  (runs.find? (·.covers ns slot)).map pair

section Owners

variable {ns' : String} {slot' p n : ℕ} {ranges : List (Option (ℕ × ℕ))}

theorem pairAt_cons : pairAt (run :: runs) ns slot =
    if run.covers ns slot then some run.pair else pairAt runs ns slot := by
  rw [pairAt, find?_cons]
  cases run.covers ns slot <;> rfl

theorem pairAt_append :
    pairAt (out ++ runs) ns slot = (pairAt out ns slot).or (pairAt runs ns slot) := by
  rw [pairAt, find?_append, Option.map_or, pairAt, pairAt]

theorem pairAt_clearSlotOwner : pairAt (clearSlotOwner runs ns slot) ns' slot' =
    if ns' = ns ∧ slot' = slot then none else pairAt runs ns' slot' := by
  induction runs with
  | nil => simp [clearSlotOwner, pairAt]
  | cons run runs ih =>
    rw [clearSlotOwner, flatMap_cons, pairAt_append, ← clearSlotOwner, ih, carve]
    split_ifs <;> simp [covers, pairAt] at * <;> grind

theorem pairAt_mergeRun (hout : ∀ l ∈ out, l.lo ≤ l.hi) (hrun : run.lo ≤ run.hi) :
    pairAt (mergeRun out run) ns slot = pairAt (out ++ [run]) ns slot := by
  unfold mergeRun
  split
  · rename_i l hlast
    obtain ⟨init, rfl⟩ : ∃ init, out = init ++ [l] := getLast?_eq_some_iff.mp hlast
    have := hout l (by simp)
    split_ifs
    · simp [covers, pairAt_append, pairAt_cons]
      grind
    · rfl
  · rfl

theorem pairAt_foldl_mergeRun (h : Tidy (out ++ runs)) :
    pairAt (runs.foldl mergeRun out) ns slot = pairAt (out ++ runs) ns slot := by
  induction runs generalizing out with
  | nil => rw [append_nil, foldl_nil]
  | cons run runs ih =>
    rw [foldl_cons, ih h.mergeRun, pairAt_append, append_cons, pairAt_append]
    rw [pairAt_mergeRun (fun l hl => (h.good l (by simp [hl])).le) (h.good run (by simp)).le]

theorem Tidy.pairAt_eq_some (h : Tidy runs) :
    pairAt runs ns slot = some p ↔ ∃ run ∈ runs, run.covers ns slot ∧ run.pair = p := by
  refine Option.map_eq_some_iff.trans ⟨?_, ?_⟩
  · rintro ⟨run, hfind, hpair⟩
    exact ⟨run, mem_of_find?_eq_some hfind, by simpa using find?_some hfind, hpair⟩
  · rintro ⟨run, hrun, hcov, hpair⟩
    cases hfind : runs.find? (·.covers ns slot) with
    | none => exact absurd hcov (find?_eq_none.mp hfind run hrun)
    | some l =>
      have hl := find?_some hfind
      exact ⟨l, rfl, h.eq_of_covers (mem_of_find?_eq_some hfind) hrun hl hcov ▸ hpair⟩

/-- **The sweep changes no owner**: a run it drops says what the default says. -/
theorem pairAt_normalize (h : Tidy runs) :
    (pairAt (normalize runs ranges n) ns slot).or (defaultPair slot ranges n) =
      (pairAt runs ns slot).or (defaultPair slot ranges n) := by
  have hsort : Tidy ([] ++ runs.insertionSort le) := h.perm (perm_insertionSort _ _).symm
  have hsame : pairAt ((runs.insertionSort le).foldl mergeRun []) ns slot =
      pairAt runs ns slot := by
    ext p
    rw [pairAt_foldl_mergeRun hsort, hsort.pairAt_eq_some, h.pairAt_eq_some]
    simp
  have hnorm := h.normalize ranges n
  rw [← hsame]
  cases hkept : pairAt (normalize runs ranges n) ns slot with
  | some p =>
    obtain ⟨run, hrun, hsays⟩ := hnorm.pairAt_eq_some.mp hkept
    rw [hsort.foldl_mergeRun.pairAt_eq_some.mpr ⟨run, mem_of_mem_filter hrun, hsays⟩]
  | none =>
    cases hall : pairAt ((runs.insertionSort le).foldl mergeRun []) ns slot with
    | none => rfl
    | some p =>
      obtain ⟨run, hrun, hcov, hpair⟩ := hsort.foldl_mergeRun.pairAt_eq_some.mp hall
      have hred : run.redundant ranges n := by
        by_contra hred
        have hmem : run ∈ normalize runs ranges n := mem_filter.mpr ⟨hrun, by simp [hred]⟩
        cases hkept.symm.trans (hnorm.pairAt_eq_some.mpr ⟨run, hmem, hcov, hpair⟩)
      rw [covers_iff] at hcov
      simpa [hpair] using all_eq_true.mp hred slot (mem_range'_1.mpr (by omega))

end Owners

end Runs

/-! ## The registry -/

/-- What the registry knows of pairs, proxies, tenants and placements. -/
structure RegistryState where
  proxies : List String := []
  pairs : List (List String) := []
  ranges : List (Option (ℕ × ℕ)) := []
  tenants : List Tenant := []
  exceptions : List SlotRun := []
  deriving DecidableEq, Repr

inductive TenantFlag
  | replicaReads
  | localCache
  | federated
  | asyncWrites
  | overQuota
  deriving DecidableEq, Repr

def Tenant.setFlag (on : Bool) (t : Tenant) : TenantFlag → Tenant
  | .replicaReads => { t with replicaReads := on }
  | .localCache => { t with localCache := on }
  | .federated => { t with federated := on }
  | .asyncWrites => { t with asyncWrites := on }
  | .overQuota => { t with overQuota := on }

/-- A change to the registry. -/
inductive RegistryMutation
  | addProxy (addr : String)
  | delProxy (addr : String)
  | addPair (nodes : List String) (range : Option (ℕ × ℕ))
  | setPair (idx : ℕ) (nodes : List String)
  | addTenant (name token ns : String) (subset : List String) (pair : Option ℕ)
  | delTenant (name : String)
  | setSubset (name : String) (subset : List String)
  | rotateToken (name new : String)
  | dropPrev (name : String)
  | setFlag (flag : TenantFlag) (name : String) (on : Bool)
  | setSlotOwner (ns : String) (slot pair : ℕ)
  | clearSlotOwner (ns : String) (slot : ℕ)
  | consolidateSlots
  | setQuota (name : String) (opsPerSec maxBytes : ℕ)
  deriving DecidableEq, Repr

local instance lawfulMembers : LawfulBEq (List String) := inferInstance

def RegistryState.apply (r : RegistryState) : RegistryMutation → RegistryState
  | .addProxy addr => if addr ∈ r.proxies then r else { r with proxies := r.proxies ++ [addr] }
  | .delProxy addr =>
    let proxies := r.proxies.filter (· ≠ addr)
    { r with proxies, tenants := r.tenants.map (refillAfterRetire proxies addr) }
  | .addPair nodes range =>
    if nodes ∈ r.pairs then r
    else
      { r with
        pairs := r.pairs ++ [nodes]
        ranges := r.ranges ++ List.replicate (r.pairs.length - r.ranges.length) none ++ [range] }
  | .setPair idx nodes => { r with pairs := r.pairs.set idx nodes }
  | .addTenant name token ns subset pair =>
    { r with tenants := insertTenant { name, token, ns, subset, pair } r.tenants }
  | .delTenant name =>
    match tenantNamed r.tenants name with
    | none => r
    | some t =>
      { r with
        tenants := r.tenants.filter (·.name ≠ name)
        exceptions := r.exceptions.filter (·.ns ≠ t.ns) }
  | .setSubset name subset =>
    { r with tenants := modifyTenant name (fun t => { t with subset }) r.tenants }
  | .rotateToken name new =>
    let rotate : Tenant → Tenant := fun t => { t with prevToken := some t.token, token := new }
    { r with tenants := modifyTenant name rotate r.tenants }
  | .dropPrev name =>
    { r with tenants := modifyTenant name (fun t => { t with prevToken := none }) r.tenants }
  | .setFlag flag name on =>
    { r with tenants := modifyTenant name (fun t => t.setFlag on flag) r.tenants }
  | .setSlotOwner ns slot pair =>
    { r with exceptions := setSlotOwner r.exceptions ns slot pair r.ranges r.pairs.length }
  | .clearSlotOwner ns slot => { r with exceptions := clearSlotOwner r.exceptions ns slot }
  | .consolidateSlots => { r with exceptions := normalize r.exceptions r.ranges r.pairs.length }
  | .setQuota name opsPerSec maxBytes =>
    { r with tenants := modifyTenant name (fun t => { t with opsPerSec, maxBytes }) r.tenants }

end

/-! ## Commands

A command is refused with an error, or stands for one mutation of the registry it was checked
against.  The hash of tokens is a parameter (`CpConfig.sha256`). -/

section

/-! ## Digests -/

structure CpConfig where
  sha256 : String → List UInt8
  placedTenants : Bool

def hexDigit (n : ℕ) : Char := if n < 10 then Char.ofNat (48 + n) else Char.ofNat (87 + n)

def hexBytes (bytes : List UInt8) : String :=
  String.ofList (bytes.flatMap fun b => [hexDigit (b.toNat / 16), hexDigit (b.toNat % 16)])

def CpConfig.sha256Hex (c : CpConfig) (token : String) : String := hexBytes (c.sha256 token)

def sampleSha256 : String → List UInt8
  | "red" => [177, 245, 26, 81, 31, 29, 160, 205, 52, 139, 143, 133, 152, 219, 50, 230,
      28, 185, 99, 229, 252, 105, 226, 180, 20, 133, 191, 153, 89, 14, 215, 90]
  | "blue" => [22, 71, 118, 136, 192, 224, 6, 153, 198, 207, 164, 73, 122, 54, 18, 215,
      232, 60, 83, 32, 98, 182, 75, 37, 15, 237, 137, 8, 18, 142, 213, 72]
  | _ => []

def sampleConfig : CpConfig := ⟨sampleSha256, false⟩

example : sampleConfig.sha256Hex "red" =
    "b1f51a511f1da0cd348b8f8598db32e61cb963e5fc69e2b41485bf99590ed75a" := by decide +kernel

/-! ## Registering a tenant -/

/-- The arguments of `CPADDTENANT` and `CPADDTENANTONPAIR`, checked as text. -/
structure TenantRequest where
  name : String
  token : String
  ns : String
  pair : Option ℕ
  k : ℕ
  deriving DecidableEq, Repr

def CpConfig.placementArg (c : CpConfig) (placed : Bool) (raw : Option String) :
    Except String (Option ℕ) :=
  if !placed then .ok none
  else if !c.placedTenants then
    .error "placed tenants are off: start the control plane with --placed-tenants (ADR-0053)"
  else
    match raw.bind (parseUnsigned 64) with
    | some p => .ok (some p)
    | none => .error "CPADDTENANTONPAIR <name> <token> <ns> <pair> [k]: <pair> is a pair index"

/-- **The checks made before the registry is read**; one refusal is worded differently. -/
def CpConfig.readTenant (c : CpConfig) (invalid : String) (placed : Bool) (args : List String) :
    Except String TenantRequest :=
  match args[0]?, args[1]?, args[2]? with
  | some name, some token, some ns =>
    if !clean name || !clean token || !clean ns then .error invalid
    else
      match c.placementArg placed args[3]? with
      | .error e => .error ("ERR " ++ e)
      | .ok pair =>
        let k := (args[if placed then 4 else 3]?.bind (parseUnsigned 64)).getD 2
        .ok ⟨name, c.sha256Hex token, ns, pair, k⟩
  | _, _, _ =>
    .error (if placed then "ERR CPADDTENANTONPAIR <name> <token> <ns> <pair> [k]"
      else "ERR CPADDTENANT <name> <token> <ns> [k]")

def placementAllowed (pair : Option ℕ) (ns : String) (pairs : ℕ) (tenants : List Tenant) :
    Except String Unit :=
  match pair.filter (pairs ≤ ·) with
  | some p => .error s!"no pair {p}: the fleet has {pairs}"
  | none =>
    match tenants.find? fun t => t.ns = ns && (pair.isSome || t.pair.isSome) with
    | none => .ok ()
    | some t =>
      .error (if pair.isSome
          then s!"namespace {ns} is already tenant {t.name}'s: a placed tenant's " ++
          "namespace is its alone"
        else s!"namespace {ns} belongs to placed tenant {t.name}, whose keys all live on one pair")

/-- **The checks made on a registry**, and the mutation they allow. -/
def TenantRequest.admission (q : TenantRequest) (r : RegistryState) :
    Except String RegistryMutation :=
  if (tenantNamed r.tenants q.name).isSome then .error "ERR tenant exists"
  else if r.tenants.any (·.token = q.token) then .error "ERR token already in use"
  else
    match placementAllowed q.pair q.ns r.pairs.length r.tenants with
    | .error e => .error ("ERR " ++ e)
    | .ok () => .ok (.addTenant q.name q.token q.ns (shuffleShard q.name r.proxies q.k) q.pair)

/-! ## The dispatch -/

/-- A command that changes the registry. -/
inductive CpVerb
  | addProxy
  | delProxy
  | addPair
  | setPair
  | addTenant
  | addTenantOnPair
  | delTenant
  | setSubset
  | setSlot
  | clearSlot
  | consolidate
  /-- `CPTENANTASYNC`, `CPTENANTFEDERATE`, `CPTENANTREADS`, `CPTENANTCACHE`, `CPTENANTOVERQUOTA`. -/
  | tenantFlag (flag : TenantFlag)
  | tenantQuota
  | rotateToken
  | dropPrev
  | myRotate (minted : String)
  | myConfig
  deriving DecidableEq, Repr

def isRustWhitespace (c : Char) : Bool :=
  let n := c.toNat
  (9 ≤ n && n ≤ 13) || n = 32 || n = 0x85 || n = 0xA0 || n = 0x1680 || (0x2000 ≤ n && n ≤ 0x200A) ||
    n = 0x2028 || n = 0x2029 || n = 0x202F || n = 0x205F || n = 0x3000

def trimRust (s : String) : String :=
  String.ofList (((s.toList.dropWhile isRustWhitespace).reverse.dropWhile isRustWhitespace).reverse)

def parseRange (raw : String) : Option (ℕ × ℕ) :=
  (splitOnce '-' raw).bind fun (a, b) =>
    (parseU16 (trimRust a)).bind fun a => (parseU16 (trimRust b)).map fun b => (a, b)

def parseMode : String → Option Bool
  | "on" => some true
  | "off" => some false
  | _ => none

def TenantFlag.usage : TenantFlag → String
  | .replicaReads => "ERR CPTENANTREADS <name> <on|off>"
  | .localCache => "ERR CPTENANTCACHE <name> <on|off>"
  | .federated => "ERR CPTENANTFEDERATE <name> <on|off>"
  | .asyncWrites => "ERR CPTENANTASYNC <name> <on|off>"
  | .overQuota => "ERR CPTENANTOVERQUOTA <name> <on|off>"

def RegistryState.onTenant (r : RegistryState) (name : String) (m : RegistryMutation) :
    Except String (Option RegistryMutation) :=
  if (tenantNamed r.tenants name).isSome then .ok (some m) else .error "ERR no such tenant"

def RegistryState.slotOwner (r : RegistryState) (owner : String) : Option ℕ :=
  ((parseU16 owner).or (r.pairs.findIdx? (owner ∈ ·) |>.map (· % 2 ^ 16))).filter
      (· < r.pairs.length)

def selfServiceFlag : String → Option TenantFlag
  | "replica-reads" => some .replicaReads
  | "near-cache" => some .localCache
  | "async-writes" => some .asyncWrites
  | _ => none

def RegistryState.subsetArg (r : RegistryState) : String → List String
  | "-" => []
  | "*" => r.proxies
  | list => splitAtChar ',' list

local instance lawfulNames : LawfulBEq (List String) := inferInstance

/-- **A command against a registry**: an error, or its mutation, none where nothing changes. -/
def CpConfig.command (c : CpConfig) (r : RegistryState) (verb : CpVerb) (args : List String) :
    Except String (Option RegistryMutation) :=
  match verb with
  | .addProxy =>
    match args with
    | addr :: _ =>
      if !clean addr then .error "ERR CPADDPROXY <addr>"
      else if addr ∈ r.proxies then .ok none
      else .ok (some (.addProxy addr))
    | [] => .error "ERR CPADDPROXY <addr>"
  | .delProxy =>
    match args with
    | addr :: _ =>
      if addr ∈ r.proxies then .ok (some (.delProxy addr)) else .error s!"ERR no such proxy {addr}"
    | [] => .error "ERR CPDELPROXY <addr>"
  | .addPair =>
    match args[0]?.bind canonicalMembers with
    | none => .error "ERR CPADDPAIR <a,b[,c]> [start-end|-]"
    | some nodes =>
      if nodes ∈ r.pairs then .ok none else .ok (some (.addPair nodes (args[1]?.bind parseRange)))
  | .setPair =>
    match args[0]?.bind (parseUnsigned 64), args[1]?.bind canonicalMembers with
    | some idx, some nodes =>
      if r.pairs.length ≤ idx then .error "ERR no such pair index"
      else .ok (some (.setPair idx nodes))
    | _, _ => .error "ERR CPSETPAIR <idx> <a,b[,c]>"
  | .addTenant =>
    (c.readTenant "ERR invalid name/token/ns (space-free, <=128 chars)" false args).bind fun q =>
      (q.admission r).map some
  | .addTenantOnPair =>
    (c.readTenant "ERR invalid name/token/ns (space-free, <=128 chars)" true args).bind fun q =>
      (q.admission r).map some
  | .delTenant =>
    match args with
    | name :: _ => r.onTenant name (.delTenant name)
    | [] => .error "ERR CPDELTENANT <name>"
  | .setSubset =>
    match args with
    | name :: subset :: _ => r.onTenant name (.setSubset name (r.subsetArg subset))
    | _ => .error "ERR CPSETSUBSET <name> <p1,p2|*|->"
  | .setSlot =>
    match args[0]?, args[1]?.bind parseU16, args[2]? with
    | some ns, some slot, some owner =>
      if 16384 ≤ slot then .error "ERR slot out of range"
      else
        match r.slotOwner owner with
        | some pair => .ok (some (.setSlotOwner ns slot pair))
        | none => .error "ERR owner is neither a pair index nor a member address"
    | _, _, _ => .error "ERR CPSETSLOT <ns> <slot> <pair-idx|member-addr>"
  | .clearSlot =>
    match args[0]?, args[1]?.bind parseU16 with
    | some ns, some slot =>
      if coversSlot r.exceptions ns slot then .ok (some (.clearSlotOwner ns slot))
      else .error "ERR no such exception"
    | _, _ => .error "ERR CPCLEARSLOT <ns> <slot>"
  | .consolidate => .ok (some .consolidateSlots)
  | .tenantFlag flag =>
    match args[0]?, args[1]?.bind parseMode with
    | some name, some on => r.onTenant name (.setFlag flag name on)
    | _, _ => .error flag.usage
  | .tenantQuota =>
    match args[0]?, args[1]?.bind (parseUnsigned 64), args[2]?.bind (parseUnsigned 64) with
    | some name, some ops, some bytes => r.onTenant name (.setQuota name ops bytes)
    | _, _, _ => .error "ERR CPTENANTQUOTA <name> <ops_per_sec> <max_bytes>"
  | .rotateToken =>
    match args with
    | name :: new :: _ =>
      if !clean new then .error "ERR invalid token"
      else if r.tenants.any fun t => c.sha256Hex new ∈ t.digests then
        .error "ERR token already in use"
      else r.onTenant name (.rotateToken name (c.sha256Hex new))
    | _ => .error "ERR CPROTATETOKEN <name> <new-token>"
  | .dropPrev =>
    match args with
    | name :: _ => r.onTenant name (.dropPrev name)
    | [] => .error "ERR CPDROPPREV <name>"
  | .myRotate minted =>
    match args with
    | token :: _ =>
      match r.tenants.find? (·.token = c.sha256Hex token) with
      | none => .error "WRONGPASS invalid token (rotation needs the CURRENT token)"
      | some t =>
        if t.prevToken.isSome then .error "ERR rotation in progress; previous token not yet drained"
        else .ok (some (.rotateToken t.name (c.sha256Hex minted)))
    | [] => .error "ERR CPMYROTATE <current-token>"
  | .myConfig =>
    match args[0]?, args[1]?, args[2]?.bind parseMode with
    | some token, some setting, some on =>
      match r.tenants.find? fun t => c.sha256Hex token ∈ t.digests with
      | none => .error "WRONGPASS invalid token"
      | some t =>
        match selfServiceFlag setting with
        | some flag => .ok (some (.setFlag flag t.name on))
        | none => .error "ERR unknown setting (replica-reads|near-cache|async-writes)"
    | _, _, _ => .error "ERR CPMYCONFIG <token> <replica-reads|near-cache|async-writes> <on|off>"

end

end Flint
