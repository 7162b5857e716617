import FlintCache.ControlPlane.Tenant
import FlintCache.Lib.Machine

/-!
# ControlPlane/Snapshot — what a proxy is sent, and what the registry it is written from looks like

A snapshot is text: the pairs with their ranges, the tenants the proxy serves, and the slot
exceptions of their namespaces, each a list with separators between and inside the entries.
`RegistryState.WellFormed` is what accepted commands leave of the registry.
-/

namespace Flint

open List CpConfig Except String
open Option (bind_eq_some_iff)
open CpConfig (command)

/-! ## Rendering -/

def Tenant.perProxyRate (t : Tenant) : ℕ :=
  if t.opsPerSec = 0 then 0
  else
    let n := max t.subset.length 1
    (t.opsPerSec + n - 1) / n

def Tenant.flags (t : Tenant) : String :=
  (if t.replicaReads then "r" else "") ++ (if t.localCache then "c" else "") ++
    (if t.overQuota then "q" else "") ++ (if t.federated then "f" else "") ++
    (if t.asyncWrites then "a" else "") ++ t.pair.elim "" fun p => "P" ++ p.repr

/-- **The flag suffix**, `#flags` with `@rate` where there is one. -/
def Tenant.flagsSuffix (t : Tenant) : String :=
  if t.perProxyRate = 0 then if t.flags = "" then "" else "#" ++ t.flags
  else "#" ++ t.flags ++ "@" ++ t.perProxyRate.repr

def pairEntry (nodes : List String) : Option (ℕ × ℕ) → String
  | some (a, b) => joinWith ',' nodes ++ "|" ++ (a.repr ++ "-" ++ b.repr)
  | none => joinWith ',' nodes

def Tenant.entries (t : Tenant) : List String :=
  t.digests.map fun d => d ++ "=" ++ (t.ns ++ t.flagsSuffix)

def RegistryState.served (r : RegistryState) (proxy : String) : List Tenant :=
  r.tenants.filter fun t => proxy ∈ t.subset

def RegistryState.pairsSpec (r : RegistryState) : String :=
  joinWith ';' (r.pairs.mapIdx fun i nodes => pairEntry nodes r.ranges[i]?.join)

def RegistryState.tenantsSpec (r : RegistryState) (proxy : String) : String :=
  joinWith ',' ((r.served proxy).flatMap Tenant.entries)

def SlotRun.entry (run : SlotRun) : String :=
  run.ns ++ ":" ++ (if run.lo = run.hi then run.lo.repr else run.lo.repr ++ "-" ++ run.hi.repr) ++
    ":" ++ run.pair.repr

def RegistryState.servedRuns (r : RegistryState) (proxy : String) : List SlotRun :=
  r.exceptions.filter fun run => (r.served proxy).any (·.ns = run.ns)

def RegistryState.exceptionsSpec (r : RegistryState) (proxy : String) : String :=
  joinWith ';' ((r.servedRuns proxy).map SlotRun.entry)

/-! ## Registries the commands reach -/

def registryMachine (c : CpConfig) : Machine RegistryState (CpVerb × List String) where
  init r := r = {}
  step r e :=
    match c.command r e.1 e.2 with
    | .ok (some m) => some (r.apply m)
    | .ok none => some r
    | .error _ => none

def GoodMember (m : String) : Prop := Free ',' m ∧ Free ';' m ∧ Free '|' m

structure GoodPair (nodes : List String) : Prop where
  nonempty : nodes ≠ []
  text : nodes ≠ [""]
  members : ∀ m ∈ nodes, GoodMember m

def GoodDigest (d : String) : Prop := Free ',' d ∧ Free '=' d

def GoodNs (ns : String) : Prop := Free '=' ns ∧ Free '#' ns ∧ Free '@' ns ∧ Free ';' ns

structure GoodTenant (t : Tenant) : Prop where
  ns : GoodNs t.ns
  digests : ∀ d ∈ t.digests, GoodDigest d
  rate : t.opsPerSec < 2 ^ 64
  pair : ∀ p ∈ t.pair, p < 2 ^ 64

structure RegistryState.WellFormed (r : RegistryState) : Prop where
  pairs : ∀ nodes ∈ r.pairs, GoodPair nodes
  lengths : r.ranges.length = r.pairs.length
  ranges : ∀ ab ∈ r.ranges.filterMap id, ab.1 < 2 ^ 16 ∧ ab.2 < 2 ^ 16
  tenants : ∀ t ∈ r.tenants, GoodTenant t
  exceptions : Tidy r.exceptions

def RegistryMutation.Checked : RegistryMutation → Prop
  | .addPair nodes range => GoodPair nodes ∧ ∀ ab ∈ range, ab.1 < 2 ^ 16 ∧ ab.2 < 2 ^ 16
  | .setPair _ nodes => GoodPair nodes
  | .addTenant _ token ns _ pair => GoodNs ns ∧ GoodDigest token ∧ ∀ p ∈ pair, p < 2 ^ 64
  | .rotateToken _ new => GoodDigest new
  | .setSlotOwner _ slot pair => slot < 2 ^ 16 ∧ pair < 2 ^ 16
  | .setQuota _ ops _ => ops < 2 ^ 64
  | _ => True

/-! ## The checks -/

variable {s : String}

theorem free_of_clean (h : clean s) {c : Char} (hc : cleanChar c = false) : Free c s := by
  intro hmem
  simp only [clean, Bool.and_eq_true, all_eq_true] at h
  rw [h.2 c hmem] at hc
  cases hc

theorem goodNs_of_clean (h : clean s) : GoodNs s :=
  ⟨free_of_clean h (by decide), free_of_clean h (by decide), free_of_clean h (by decide),
    free_of_clean h (by decide)⟩

variable {raw : String}

theorem goodPair_of_canonicalMembers {nodes : List String}
    (h : canonicalMembers raw = some nodes) : GoodPair nodes := by
  have hne := ne_nil_of_canonicalMembers h
  rw [canonicalMembers] at h
  split at h
  · rename_i hclean
    have hraw : raw ≠ "" := by
      simp only [clean, Bool.and_eq_true, decide_eq_true_eq] at hclean
      exact hclean.1.1
    cases h
    refine ⟨hne, fun htext => ?_, fun m hm => ?_⟩
    · have hperm := perm_insertionSort (· ≤ ·) (splitAtChar ',' raw)
      rw [htext] at hperm
      have hsplit : (raw.toList.splitOn ',').map ofList = [""] :=
        perm_singleton.mp hperm.symm
      have hpieces : raw.toList.splitOn ',' = [[]] := by
        have := congrArg (List.map toList) hsplit
        simpa using this
      have hjoin : [','].intercalate (raw.toList.splitOn ',') = raw.toList :=
        intercalate_splitOn ','
      refine hraw (toList_inj.mp ?_)
      rw [← hjoin, hpieces]
      rfl
    · obtain ⟨hcomma, hsub⟩ := mem_splitAtChar ((mem_insertionSort _).mp hm)
      exact ⟨hcomma, hsub _ (free_of_clean hclean (by decide)),
        hsub _ (free_of_clean hclean (by decide))⟩
  · cases h

theorem hexDigit_ne {n : ℕ} (h : n < 16) : hexDigit n ≠ ',' ∧ hexDigit n ≠ '=' := by decide +revert

theorem goodDigest_sha256Hex (c : CpConfig) (token : String) : GoodDigest (c.sha256Hex token) := by
  have hdigit : ∀ d ∈ (c.sha256Hex token).toList, d ≠ ',' ∧ d ≠ '=' := by
    intro d hd
    rw [sha256Hex, hexBytes, toList_ofList] at hd
    obtain ⟨b, -, hb⟩ := mem_flatMap.mp hd
    have hlt : b.toNat < 256 := b.toNat_lt
    rcases mem_cons.mp hb with rfl | hb
    · exact hexDigit_ne (by omega)
    · rw [mem_singleton.mp hb]
      exact hexDigit_ne (by omega)
  exact ⟨fun h => (hdigit _ h).1 rfl, fun h => (hdigit _ h).2 rfl⟩

theorem lt_of_parseUnsigned {bits n : ℕ} (h : parseUnsigned bits s = some n) : n < 2 ^ bits := by
  have hdigits : ∀ cs : List Char, (if cs.isEmpty then none
      else (parseDigits 0 cs).filter (· < 2 ^ bits)) = some n → n < 2 ^ bits := by
    intro cs hcs
    split at hcs
    · cases hcs
    · exact of_decide_eq_true (Option.filter_eq_some_iff.mp hcs).2
  rw [parseUnsigned] at h
  split at h <;> exact hdigits _ h

theorem lt_of_parseU16 {n : ℕ} (h : parseU16 s = some n) : n < 2 ^ 16 := lt_of_parseUnsigned h

theorem lt_of_parseRange {ab : ℕ × ℕ} (h : parseRange raw = some ab) :
    ab.1 < 2 ^ 16 ∧ ab.2 < 2 ^ 16 := by
  obtain ⟨⟨a, b⟩, -, h⟩ := bind_eq_some_iff.mp h
  obtain ⟨n, hn, h⟩ := bind_eq_some_iff.mp h
  obtain ⟨m, hm, rfl⟩ := Option.map_eq_some_iff.mp h
  exact ⟨lt_of_parseU16 hn, lt_of_parseU16 hm⟩

/-! ## Commands are checked -/

variable {c : CpConfig} {r : RegistryState} {m : RegistryMutation}

open RegistryState

theorem RegistryState.onTenant_eq_ok {name : String} {m' : RegistryMutation}
    (h : r.onTenant name m' = .ok (some m)) : m = m' := by
  rw [onTenant] at h
  split at h
  · exact (Option.some.inj (ok.inj h)).symm
  · cases h

variable {args : List String} {invalid : String} {placed : Bool} {q : TenantRequest}

theorem checked_readTenant (h : c.readTenant invalid placed args = .ok q) :
    GoodNs q.ns ∧ GoodDigest q.token ∧ ∀ p ∈ q.pair, p < 2 ^ 64 := by
  rw [readTenant] at h
  split at h
  · split at h
    · cases h
    rename_i hclean
    split at h
    · cases h
    rename_i pair hpair
    obtain rfl := ok.inj h
    simp only [Bool.or_eq_true, not_or, Bool.not_eq_true', Bool.not_eq_false] at hclean
    refine ⟨goodNs_of_clean hclean.2, goodDigest_sha256Hex _ _, fun p hp => ?_⟩
    rw [placementArg] at hpair
    split at hpair
    · obtain rfl := ok.inj hpair
      cases hp
    split at hpair
    · cases hpair
    split at hpair
    · rename_i n hn
      obtain rfl := ok.inj hpair
      cases hp
      obtain ⟨raw, -, hraw⟩ := bind_eq_some_iff.mp hn
      exact lt_of_parseUnsigned hraw
    · cases hpair
  · cases h

theorem checked_admission (h : q.admission r = .ok m)
    (hq : GoodNs q.ns ∧ GoodDigest q.token ∧ ∀ p ∈ q.pair, p < 2 ^ 64) : m.Checked := by
  rw [TenantRequest.admission] at h
  split at h
  · cases h
  split at h
  · cases h
  split at h
  · cases h
  · obtain rfl := ok.inj h
    exact hq

theorem checked_register
    (h : ((c.readTenant invalid placed args).bind fun q => (q.admission r).map some) =
        .ok (some m)) :
    m.Checked := by
  cases hread : c.readTenant invalid placed args with
  | error e => rw [hread] at h; cases h
  | ok q =>
    rw [hread] at h
    cases hadmit : q.admission r with
    | error e => simp [Except.bind, hadmit, Except.map] at h
    | ok m' =>
      simp only [Except.bind, hadmit, Except.map, Except.ok.injEq, Option.some.injEq] at h
      exact h ▸ checked_admission hadmit (checked_readTenant hread)

theorem lt_of_slotOwner {owner : String} {pair : ℕ} (h : r.slotOwner owner = some pair) :
    pair < 2 ^ 16 := by
  obtain ⟨hor, -⟩ := Option.filter_eq_some_iff.mp h
  rcases Option.or_eq_some_iff.mp hor with hparse | ⟨-, hidx⟩
  · exact lt_of_parseU16 hparse
  · obtain ⟨i, -, rfl⟩ := Option.map_eq_some_iff.mp hidx
    exact Nat.mod_lt _ (by decide)

theorem checked_command {verb : CpVerb} (h : c.command r verb args = .ok (some m)) : m.Checked := by
  cases verb with
  | addProxy | delProxy | delTenant | setSubset | clearSlot | consolidate | tenantFlag | dropPrev
  | myConfig =>
    -- Of these mutations nothing is to be checked.
    simp only [command, onTenant] at h
    repeat' split at h
    all_goals cases h
    all_goals trivial
  | addPair =>
    simp only [command] at h
    split at h
    · cases h
    rename_i nodes hnodes
    split at h <;> cases h
    obtain ⟨raw, -, hraw⟩ := bind_eq_some_iff.mp hnodes
    refine ⟨goodPair_of_canonicalMembers hraw, fun ab hab => ?_⟩
    obtain ⟨range, -, hrange⟩ := bind_eq_some_iff.mp hab
    exact lt_of_parseRange hrange
  | setPair =>
    simp only [command] at h
    split at h
    · rename_i idx nodes _ hnodes
      split at h <;> cases h
      obtain ⟨raw, -, hraw⟩ := bind_eq_some_iff.mp hnodes
      exact goodPair_of_canonicalMembers hraw
    · cases h
  | addTenant | addTenantOnPair => exact checked_register h
  | setSlot =>
    simp only [command] at h
    split at h
    · rename_i ns slot owner _ hslot _
      split at h
      · cases h
      split at h
      · rename_i pair hpair
        obtain rfl := Option.some.inj (ok.inj h)
        obtain ⟨raw, -, hraw⟩ := bind_eq_some_iff.mp hslot
        exact ⟨lt_of_parseU16 hraw, lt_of_slotOwner hpair⟩
      · cases h
    · cases h
  | tenantQuota =>
    simp only [command] at h
    split at h
    · rename_i name ops bytes _ hops _
      obtain ⟨raw, -, hraw⟩ := bind_eq_some_iff.mp hops
      rw [onTenant_eq_ok h]
      exact lt_of_parseUnsigned hraw
    · cases h
  | _ =>
    simp only [command, onTenant] at h
    repeat' split at h
    all_goals cases h
    all_goals exact goodDigest_sha256Hex _ _

/-! ## Mutations keep the registry well formed -/

theorem RegistryState.WellFormed.empty : RegistryState.WellFormed {} :=
  ⟨nofun, rfl, nofun, nofun, Tidy.nil⟩

theorem RegistryState.WellFormed.modifyTenant (h : r.WellFormed) {f : Tenant → Tenant}
    (hf : ∀ t, GoodTenant t → GoodTenant (f t)) (name : String) :
    RegistryState.WellFormed { r with tenants := modifyTenant name f r.tenants } where
  __ := h
  tenants t ht := by
    obtain ⟨u, hu, rfl⟩ := mem_map.mp ht
    split
    · exact hf u (h.tenants u hu)
    · exact h.tenants u hu

variable {t : Tenant}

namespace GoodTenant

variable (h : GoodTenant t)
include h

theorem withSubset (subset : List String) : GoodTenant { t with subset } := { h with }

theorem refillAfterRetire (proxies : List String)
    (retired : String) : GoodTenant (refillAfterRetire proxies retired t) := by
  rw [Flint.refillAfterRetire]
  split
  · exact h.withSubset _
  · exact h.withSubset _

theorem setFlag (on : Bool) (flag : TenantFlag) : GoodTenant (t.setFlag on flag) := by
  cases flag <;> exact { h with }

theorem rotate {new : String} (hnew : GoodDigest new) :
    GoodTenant { t with prevToken := some t.token, token := new } := by
  refine ⟨h.ns, fun d hd => ?_, h.rate, h.pair⟩
  rcases mem_cons.mp hd with rfl | hd
  · exact hnew
  · obtain rfl := mem_singleton.mp hd
    exact h.digests _ mem_cons_self

theorem dropPrev : GoodTenant { t with prevToken := none } := by
  refine ⟨h.ns, fun d hd => ?_, h.rate, h.pair⟩
  obtain rfl := mem_singleton.mp hd
  exact h.digests _ mem_cons_self

theorem withQuota {opsPerSec : ℕ}
    (hops : opsPerSec < 2 ^ 64) (maxBytes : ℕ) : GoodTenant { t with opsPerSec, maxBytes } :=
  { h with rate := hops }

end GoodTenant

theorem RegistryState.WellFormed.apply (h : r.WellFormed) (hm : m.Checked) :
    (r.apply m).WellFormed := by
  cases m with
  | addProxy addr =>
    rw [apply]
    split
    · exact h
    · exact { h with }
  | delProxy addr =>
    refine { h with tenants := fun t ht => ?_ }
    obtain ⟨u, hu, rfl⟩ := mem_map.mp ht
    exact (h.tenants u hu).refillAfterRetire _ _
  | addPair nodes range =>
    rw [apply]
    split
    · exact h
    have hlen := h.lengths
    refine ⟨fun x hx => ?_, ?_, fun ab hab => ?_, h.tenants, h.exceptions⟩
    · exact of_mem_snoc hx (h.pairs x) hm.1
    · simp [hlen]
    rw [hlen, Nat.sub_self, replicate_zero, append_nil, filterMap_append, mem_append] at hab
    rcases hab with hab | hab
    · exact h.ranges ab hab
    · obtain ⟨x, hx, hid⟩ := mem_filterMap.mp hab
      obtain rfl := mem_singleton.mp hx
      exact hm.2 ab hid
  | setPair idx nodes =>
    refine ⟨fun x hx => ?_, ?_, h.ranges, h.tenants, h.exceptions⟩
    · rcases mem_or_eq_of_mem_set hx with hx | rfl
      · exact h.pairs x hx
      · exact hm
    · rw [apply, length_set]
      exact h.lengths
  | addTenant name token ns subset pair =>
    refine { h with tenants := fun t ht => ?_ }
    rcases mem_of_mem_insertTenant ht with rfl | ht
    · refine ⟨hm.1, fun d hd => ?_, Nat.two_pow_pos 64, hm.2.2⟩
      obtain rfl := mem_singleton.mp hd
      exact hm.2.1
    · exact h.tenants t ht
  | delTenant name =>
    rw [apply]
    split
    · exact h
    · exact ⟨h.pairs, h.lengths, h.ranges, fun t ht => h.tenants t (mem_of_mem_filter ht),
        h.exceptions.filter _⟩
  | setSubset name subset => exact h.modifyTenant (fun t ht => ht.withSubset subset) name
  | rotateToken name new => exact h.modifyTenant (fun t ht => ht.rotate hm) name
  | dropPrev name => exact h.modifyTenant (fun t ht => ht.dropPrev) name
  | setFlag flag name on => exact h.modifyTenant (fun t ht => ht.setFlag on flag) name
  | setSlotOwner ns slot pair =>
    exact { h with exceptions := h.exceptions.setSlotOwner hm.1 hm.2 _ _ _ }
  | clearSlotOwner ns slot =>
    exact { h with exceptions := h.exceptions.clearSlotOwner _ _ }
  | consolidateSlots => exact { h with exceptions := h.exceptions.normalize _ _ }
  | setQuota name ops bytes => exact h.modifyTenant (fun t ht => ht.withQuota hm bytes) name

theorem RegistryState.wellFormed_of_reachable (h : (registryMachine c).Reachable r) :
    r.WellFormed := by
  refine Machine.Reach.invariant (fun s hs => ?_) (fun s e s' _ hs _ hstep => ?_) h
  · rw [show s = {} from hs]
    exact .empty
  simp only [registryMachine] at hstep
  split at hstep
  · rename_i m hcmd
    cases hstep
    exact hs.apply (checked_command hcmd)
  · cases hstep
    exact hs
  · cases hstep

/-- **Who has a slot**: the pair of the run over it, or the default one. -/
def RegistryState.ownerOf (r : RegistryState) (ns : String) (slot : ℕ) : Option ℕ :=
  (pairAt r.exceptions ns slot).or (defaultPair slot r.ranges r.pairs.length)

/-- **The runs are a map of slots**: a placement sets the owner of its slot and of no other, taking
one back leaves the default, and the sweep moves nothing. -/
theorem RegistryState.ownerOf_apply (h : (registryMachine c).Reachable r) {slot pair : ℕ}
    (hslot : slot < 2 ^ 16) (hpair : pair < 2 ^ 16) (ns ns' : String) (slot' : ℕ) :
    (r.apply (.setSlotOwner ns slot pair)).ownerOf ns' slot' =
        (if ns' = ns ∧ slot' = slot then some pair else r.ownerOf ns' slot') ∧
      (r.apply (.clearSlotOwner ns slot)).ownerOf ns' slot' =
        (if ns' = ns ∧ slot' = slot then defaultPair slot r.ranges r.pairs.length
          else r.ownerOf ns' slot') ∧
      (r.apply .consolidateSlots).ownerOf ns' slot' = r.ownerOf ns' slot' := by
  have ht := (wellFormed_of_reachable h).exceptions
  have hadd := ht.place hslot hpair ns
  refine ⟨(pairAt_normalize hadd).trans ?_, ?_, pairAt_normalize ht⟩
  · rw [pairAt_append, pairAt_clearSlotOwner, pairAt_cons]
    simp [SlotRun.covers, ownerOf, pairAt]
    grind
  · simp only [ownerOf, apply, pairAt_clearSlotOwner]
    grind

/-- Two pairs with a default range each, and exceptions of two namespaces in three runs. -/
def placements : List (CpVerb × List String) :=
  [(.addPair, ["a:1,b:1", "0-99"]), (.addPair, ["c:1,d:1", "100-16383"]),
    (.setSlot, ["n", "5", "1"]), (.setSlot, ["n", "6", "1"]), (.setSlot, ["n", "8", "1"]),
    (.setSlot, ["m", "6", "c:1"])]

def placedRegistry : RegistryState :=
  ((registryMachine ⟨fun _ => [], false⟩).exec {} placements).getD {}

theorem RegistryState.ownerOf_apply_placed :
    placedRegistry.exceptions.length = 3 ∧
    (placedRegistry.apply (.setSlotOwner "n" 7 1)).exceptions.length = 2 ∧
    (placedRegistry.apply (.setSlotOwner "n" 7 1)).ownerOf "n" 7 = some 1 ∧
    (placedRegistry.apply (.setSlotOwner "n" 7 1)).ownerOf "n" 9 = placedRegistry.ownerOf "n" 9 ∧
    (placedRegistry.apply (.clearSlotOwner "n" 6)).ownerOf "n" 6 = some 0 := by
  have hsome : ((registryMachine ⟨fun _ => [], false⟩).exec {} placements).isSome = true := by
    decide +kernel
  have hreach : (registryMachine ⟨fun _ => [], false⟩).Reachable placedRegistry :=
    Machine.reachable_of_exec _ rfl (Machine.exec_eq_some_getD {} hsome)
  have hdefault : defaultPair 6 placedRegistry.ranges placedRegistry.pairs.length = some 0 :=
    by decide +kernel
  refine ⟨by decide +kernel, by decide +kernel, ?_, ?_, ?_⟩
  · exact (ownerOf_apply hreach (by decide) (by decide) "n" "n" 7).1
  · exact (ownerOf_apply hreach (by decide) (by decide) "n" "n" 9).1
  · exact ((ownerOf_apply hreach (by decide) (by decide : 0 < 2 ^ 16) "n" "n" 6).2.1).trans hdefault

end Flint
