import FlintCache.ControlPlane.Snapshot

/-!
# Proxy/Snapshot — what a proxy makes of its snapshot

`applySnapshot` reads the three texts of a snapshot back: the pairs with their ranges, the slot
exceptions, and the tenant table, keyed by digest.  Entries that do not parse are skipped, and of
two entries under one key the later stays.
-/

namespace Flint

open List Machine String
open Option (bind_some map_some)

/-! ## Reading -/

def collectMap {κ ν : Type} [BEq κ] (entries : List (κ × ν)) (k : κ) : Option ν :=
  entries.reverse.lookup k

structure TenantGrant where
  ns : String
  replicaReads : Bool := false
  localCache : Bool := false
  federated : Bool := false
  overQuota : Bool := false
  asyncWrites : Bool := false
  /-- This proxy's share of the rate; `0` is no limit. -/
  rate : ℕ := 0
  pair : Option ℕ := none
  deriving DecidableEq, Repr

def placedPair (flags : String) : Option ℕ :=
  (splitOnce 'P' flags).bind fun (_, rest) =>
    parseUnsigned 64 (String.ofList (rest.toList.takeWhile Char.isDigit))

def readFlags (nsAndFlags : String) : String × String × ℕ :=
  match splitOnce '#' nsAndFlags with
  | some (ns, rest) =>
    match splitOnce '@' rest with
    | some (flags, rate) => (ns, flags, (parseUnsigned 64 rate).getD 0)
    | none => (ns, rest, 0)
  | none => (nsAndFlags, "", 0)

def readTenantEntry (entry : String) : Option (String × TenantGrant) :=
  (splitOnce '=' entry).map fun (token, nsAndFlags) =>
    let (ns, flags, rate) := readFlags nsAndFlags
    (token,
      { ns
        replicaReads := 'r' ∈ flags.toList
        localCache := 'c' ∈ flags.toList
        overQuota := 'q' ∈ flags.toList
        federated := 'f' ∈ flags.toList
        asyncWrites := 'a' ∈ flags.toList
        rate
        pair := placedPair flags })

def readTenants (spec : String) : List (String × TenantGrant) :=
  (splitAtChar ',' spec).filterMap readTenantEntry

def readPair (entry : String) : List String × Option (ℕ × ℕ) :=
  match splitOnce '|' entry with
  | some (nodes, range) =>
    (splitAtChar ',' nodes, (splitOnce '-' range).bind fun (a, b) =>
      (parseU16 a).bind fun a => (parseU16 b).map fun b => (a, b))
  | none => (splitAtChar ',' entry, none)

def readPairs (spec : String) : List (List String × Option (ℕ × ℕ)) :=
  if spec = "" then [] else (splitAtChar ';' spec).map readPair

def readSlots (mid : String) : Option (ℕ × ℕ) :=
  match splitOnce '-' mid with
  | some (a, b) =>
    (parseU16 a).bind fun a => (parseU16 b).bind fun b => if a ≤ b then some (a, b) else none
  | none => (parseU16 mid).map fun slot => (slot, slot)

def readRun (entry : String) : Option SlotRun :=
  (rsplitOnce ':' entry).bind fun (rest, pair) =>
    (rsplitOnce ':' rest).bind fun (ns, mid) =>
      (parseUnsigned 64 pair).bind fun pair =>
        (readSlots mid).map fun (lo, hi) => ⟨ns, lo, hi, pair⟩

def SlotRun.slots (run : SlotRun) : List ((String × ℕ) × ℕ) :=
  (List.range' run.lo (run.hi + 1 - run.lo)).map fun slot => ((run.ns, slot), run.pair)

def readRuns (spec : String) : List SlotRun :=
  ((splitAtChar ';' spec).filter (· ≠ "")).filterMap readRun

/-- What a proxy has taken over from snapshots. -/
structure ProxyView where
  pairs : List (List String)
  ranges : List (Option (ℕ × ℕ))
  exceptions : String × ℕ → Option ℕ
  tenants : String → Option TenantGrant

def applySnapshot (pairsSpec tenantsSpec excSpec : String) : ProxyView where
  pairs := (readPairs pairsSpec).map Prod.fst
  ranges := (readPairs pairsSpec).map Prod.snd
  exceptions := collectMap ((readRuns excSpec).flatMap SlotRun.slots)
  tenants := collectMap (readTenants tenantsSpec)

def ProxyView.lookupToken (v : ProxyView) (c : CpConfig) (token : String) : Option TenantGrant :=
  v.tenants (c.sha256Hex token)

def Tenant.grant (t : Tenant) : TenantGrant where
  ns := t.ns
  replicaReads := t.replicaReads
  localCache := t.localCache
  federated := t.federated
  overQuota := t.overQuota
  asyncWrites := t.asyncWrites
  rate := t.perProxyRate
  pair := t.pair

def RegistryState.viewOf (r : RegistryState) (proxy : String) : ProxyView :=
  applySnapshot r.pairsSpec (r.tenantsSpec proxy) (r.exceptionsSpec proxy)

open RegistryState

theorem RegistryState.viewOf_tenants (r : RegistryState) (proxy : String) :
    (r.viewOf proxy).tenants = collectMap (readTenants (r.tenantsSpec proxy)) := by
  rw [viewOf, applySnapshot]

theorem RegistryState.viewOf_exceptions (r : RegistryState) (proxy : String) :
    (r.viewOf proxy).exceptions =
      collectMap ((readRuns (r.exceptionsSpec proxy)).flatMap SlotRun.slots) := by
  rw [viewOf, applySnapshot]

/-! ## Maps -/

section CollectMap

variable {κ ν : Type} [BEq κ] [LawfulBEq κ] {entries : List (κ × ν)} {k : κ} {v : ν}

theorem mem_of_collectMap (h : collectMap entries k = some v) : (k, v) ∈ entries := by
  obtain ⟨l₁, l₂, hsplit, -⟩ := lookup_eq_some_iff.mp h
  rw [← mem_reverse, hsplit]
  simp

theorem exists_collectMap (h : (k, v) ∈ entries) : ∃ v', collectMap entries k = some v' := by
  rw [← Option.isSome_iff_exists, collectMap, lookup_isSome_iff]
  exact ⟨(k, v), mem_reverse.mpr h, beq_self_eq_true k⟩

theorem collectMap_eq_some_iff (hfun : ∀ v', (k, v) ∈ entries → (k, v') ∈ entries → v' = v) :
    collectMap entries k = some v ↔ (k, v) ∈ entries := by
  refine ⟨mem_of_collectMap, fun h => ?_⟩
  obtain ⟨v', hv'⟩ := exists_collectMap h
  rw [hv', hfun v' h (mem_of_collectMap hv')]

end CollectMap

/-! ## Pairs and ranges -/

variable {r : RegistryState} {proxy : String} {nodes : List String}

theorem readPair_pairEntry {range : Option (ℕ × ℕ)} (h : GoodPair nodes)
    (hrange : ∀ ab ∈ range, ab.1 < 2 ^ 16 ∧ ab.2 < 2 ^ 16) :
    readPair (pairEntry nodes range) = (nodes, range) := by
  have hsplit := splitAtChar_joinWith (fun m hm => (h.members m hm).1) h.nonempty
  have hbar : Free '|' (joinWith ',' nodes) :=
    free_joinWith (by decide) fun m hm => (h.members m hm).2.2
  cases range with
  | none =>
    rw [pairEntry, readPair, splitOnce_of_free hbar]
    change (splitAtChar ',' (joinWith ',' nodes), none) = _
    rw [hsplit]
  | some ab =>
    obtain ⟨a, b⟩ := ab
    obtain ⟨ha, hb⟩ := hrange (a, b) rfl
    have hparse : ∀ n < 2 ^ 16, parseU16 n.repr = some n := fun n hn => parseUnsigned_repr hn
    have hdash := splitOnce_append (free_repr (by decide) a)
        (show "-".toList = ['-'] from rfl) b.repr
    rw [pairEntry, readPair, splitOnce_append hbar rfl]
    simp only [hsplit, hdash, bind_some, hparse a ha, hparse b hb, map_some]

theorem pairEntry_ne_empty (h : GoodPair nodes) (range : Option (ℕ × ℕ)) :
    pairEntry nodes range ≠ "" := by
  cases range with
  | none => exact joinWith_ne_empty (fun m hm => (h.members m hm).1) h.nonempty h.text
  | some ab =>
    intro hempty
    have hbar : '|' ∈ (pairEntry nodes (some ab)).toList := by
      simp [pairEntry, toList_append]
    rw [hempty] at hbar
    cases hbar

theorem free_pairEntry (h : GoodPair nodes) (range : Option (ℕ × ℕ)) :
    Free ';' (pairEntry nodes range) := by
  have hnodes : Free ';' (joinWith ',' nodes) :=
    free_joinWith (by decide) fun m hm => (h.members m hm).2.1
  cases range with
  | none => exact hnodes
  | some ab =>
    refine free_append.mpr ⟨free_append.mpr ⟨hnodes, by decide⟩, ?_⟩
    exact free_append.mpr ⟨free_append.mpr ⟨free_repr (by decide) _, by decide⟩,
      free_repr (by decide) _⟩

theorem readPairs_pairsSpec (h : r.WellFormed) : readPairs r.pairsSpec = r.pairs.zip r.ranges := by
  have hentries : ∀ f ∈ r.pairs.mapIdx fun i nodes => pairEntry nodes r.ranges[i]?.join,
      Free ';' f ∧ f ≠ "" := by
    intro f hf
    obtain ⟨i, hi, rfl⟩ := mem_mapIdx.mp hf
    have hgood := h.pairs _ (getElem_mem hi)
    exact ⟨free_pairEntry hgood _, pairEntry_ne_empty hgood _⟩
  have hback : (r.pairs.mapIdx fun i nodes => pairEntry nodes r.ranges[i]?.join).map readPair =
      r.pairs.zip r.ranges := by
    refine ext_getElem (by simp [h.lengths]) fun i hi _ => ?_
    have hip : i < r.pairs.length := by simpa using hi
    have hir : i < r.ranges.length := h.lengths ▸ hip
    have hrange : ∀ ab ∈ r.ranges[i], ab.1 < 2 ^ 16 ∧ ab.2 < 2 ^ 16 := fun ab hab =>
      h.ranges ab (mem_filterMap.mpr ⟨_, getElem_mem hir, hab⟩)
    rw [getElem_map, getElem_mapIdx, getElem_zip, getElem?_eq_getElem hir,
      Option.join_some, readPair_pairEntry (h.pairs _ (getElem_mem hip)) hrange]
  rw [readPairs, pairsSpec]
  by_cases hnil : r.pairs = []
  · rw [hnil]
    rfl
  have hne : (r.pairs.mapIdx fun i nodes => pairEntry nodes r.ranges[i]?.join) ≠ [] := by
    simpa using hnil
  have hfree := fun f hf => (hentries f hf).1
  rw [if_neg (joinWith_ne_empty hfree hne fun hone => (hentries "" (by simp [hone])).2 rfl),
    splitAtChar_joinWith hfree hne, hback]

/-! ## Exceptions -/

theorem readSlots_text {lo hi : ℕ} (hle : lo ≤ hi) (hhi : hi < 2 ^ 16) :
    readSlots (if lo = hi then lo.repr else lo.repr ++ "-" ++ hi.repr) = some (lo, hi) := by
  have hparse : ∀ n < 2 ^ 16, parseU16 n.repr = some n := fun n hn => parseUnsigned_repr hn
  have hdash : Free '-' lo.repr := free_repr (by decide) lo
  by_cases heq : lo = hi
  · rw [if_pos heq, readSlots, splitOnce_of_free hdash]
    change (parseU16 lo.repr).map _ = _
    rw [hparse lo (heq ▸ hhi), map_some, ← heq]
  rw [if_neg heq, readSlots, splitOnce_append hdash rfl]
  change ((parseU16 lo.repr).bind fun a => (parseU16 hi.repr).bind fun b =>
    if a ≤ b then some (a, b) else none) = _
  rw [hparse lo (hle.trans_lt hhi), hparse hi hhi, bind_some, bind_some, if_pos hle]

open SlotRun

variable {run : SlotRun}

theorem readRun_entry (h : GoodRun run) : readRun run.entry = some run := by
  have hcolon : ∀ n : ℕ, Free ':' n.repr := free_repr (by decide)
  have hmid : Free ':' (if run.lo = run.hi then run.lo.repr
      else run.lo.repr ++ "-" ++ run.hi.repr) := by
    split
    · exact hcolon _
    · exact free_append.mpr ⟨free_append.mpr ⟨hcolon _, by decide⟩, hcolon _⟩
  have hpair : run.pair < 2 ^ 64 := h.pair.trans (by decide)
  have hcut := rsplitOnce_append hmid (show ":".toList = [':'] from rfl) run.ns
  rw [entry, readRun, rsplitOnce_append (hcolon _) rfl]
  simp only [bind_some, hcut, parseUnsigned_repr hpair, readSlots_text h.le h.hi, map_some]

theorem free_entry (h : Free ';' run.ns) : Free ';' run.entry := by
  have hnum : ∀ n : ℕ, Free ';' n.repr := free_repr (by decide)
  refine free_append.mpr ⟨free_append.mpr ⟨free_append.mpr ⟨free_append.mpr ⟨h, by decide⟩, ?_⟩,
    by decide⟩, hnum _⟩
  split
  · exact hnum _
  · exact free_append.mpr ⟨free_append.mpr ⟨hnum _, by decide⟩, hnum _⟩

theorem entry_ne_empty (run : SlotRun) : run.entry ≠ "" := by
  intro hempty
  have hcolon : ':' ∈ run.entry.toList := by simp [entry, toList_append]
  rw [hempty] at hcolon
  cases hcolon

theorem readRuns_exceptionsSpec (h : r.WellFormed) :
    readRuns (r.exceptionsSpec proxy) = r.servedRuns proxy := by
  have hfree : ∀ f ∈ (r.servedRuns proxy).map entry, Free ';' f := by
    intro f hf
    obtain ⟨run, hrun, rfl⟩ := mem_map.mp hf
    obtain ⟨t, ht, hns⟩ := any_eq_true.mp (mem_filter.mp hrun).2
    have hgood := (h.tenants t (mem_of_mem_filter ht)).ns
    exact free_entry (of_decide_eq_true hns ▸ hgood.2.2.2)
  have hback : ∀ run ∈ r.servedRuns proxy, (readRun ∘ entry) run = some run := fun run hrun =>
    readRun_entry (h.exceptions.good run (mem_of_mem_filter hrun))
  rw [readRuns, exceptionsSpec]
  by_cases hnil : r.servedRuns proxy = []
  · rw [hnil]
    rfl
  rw [splitAtChar_joinWith hfree (by simpa using hnil), filter_eq_self.mpr, filterMap_map,
    filterMap_congr hback, filterMap_some]
  intro f hf
  obtain ⟨run, -, rfl⟩ := mem_map.mp hf
  exact decide_eq_true (entry_ne_empty run)

theorem mem_slots {ns : String} {slot pair : ℕ} :
    ((ns, slot), pair) ∈ run.slots ↔ run.covers ns slot ∧ run.pair = pair := by
  rw [covers_iff, slots, mem_map]
  constructor
  · rintro ⟨s, hs, heq⟩
    obtain ⟨hkey, rfl⟩ := Prod.mk.inj heq
    obtain ⟨rfl, rfl⟩ := Prod.mk.inj hkey
    rw [mem_range'_1] at hs
    exact ⟨⟨rfl, hs.1, by omega⟩, rfl⟩
  · rintro ⟨⟨rfl, hlo, hhi⟩, rfl⟩
    exact ⟨slot, mem_range'_1.mpr ⟨hlo, by omega⟩, rfl⟩

theorem viewOf_exceptions_iff (h : r.WellFormed) (ns : String) (slot pair : ℕ) :
    (r.viewOf proxy).exceptions (ns, slot) = some pair ↔ (∃ t ∈ r.served proxy, t.ns = ns) ∧
        ∃ run ∈ r.exceptions, run.covers ns slot ∧ run.pair = pair := by
  rw [r.viewOf_exceptions, readRuns_exceptionsSpec h, collectMap_eq_some_iff, mem_flatMap]
  · simp only [mem_slots]
    constructor
    · rintro ⟨run, hrun, hc, hpair⟩
      obtain ⟨hmem, hany⟩ := mem_filter.mp hrun
      obtain ⟨t, ht, hns⟩ := any_eq_true.mp hany
      exact ⟨⟨t, ht, (of_decide_eq_true hns).trans (covers_iff.mp hc).1⟩, run, hmem, hc,
        hpair⟩
    · rintro ⟨⟨t, ht, hns⟩, run, hrun, hc, hpair⟩
      refine ⟨run, mem_filter.mpr ⟨hrun, any_eq_true.mpr ⟨t, ht, ?_⟩⟩, hc, hpair⟩
      exact decide_eq_true (hns.trans (covers_iff.mp hc).1.symm)
  intro pair' hmem hmem'
  obtain ⟨run, hrun, hin⟩ := mem_flatMap.mp hmem
  obtain ⟨run', hrun', hin'⟩ := mem_flatMap.mp hmem'
  obtain ⟨hc, rfl⟩ := mem_slots.mp hin
  obtain ⟨hc', rfl⟩ := mem_slots.mp hin'
  rw [h.exceptions.eq_of_covers (mem_of_mem_filter hrun) (mem_of_mem_filter hrun') hc hc']

/-! ## Tenants -/

variable {t : Tenant}

open Tenant

variable {c : Char}

theorem mem_flags : c ∈ t.flags.toList ↔
    t.replicaReads ∧ c = 'r' ∨ t.localCache ∧ c = 'c' ∨ t.overQuota ∧ c = 'q' ∨
      t.federated ∧ c = 'f' ∨ t.asyncWrites ∧ c = 'a' ∨
      ∃ p, t.pair = some p ∧ (c = 'P' ∨ c ∈ p.repr.toList) := by
  have hletter : ∀ (b : Bool) (s : String) (x : Char), s.toList = [x] →
      (c ∈ (if b then s else "").toList ↔ b ∧ c = x) := by
    intro b s x hs
    cases b with
    | false => simp
    | true => simp [hs]
  have hpair : c ∈ (t.pair.elim "" fun p => "P" ++ p.repr).toList ↔
      ∃ p, t.pair = some p ∧ (c = 'P' ∨ c ∈ p.repr.toList) := by
    cases t.pair with
    | none => simp
    | some p => simp [toList_append]
  simp only [flags, toList_append, mem_append, hpair, hletter _ "r" 'r' rfl,
    hletter _ "c" 'c' rfl, hletter _ "q" 'q' rfl, hletter _ "f" 'f' rfl, hletter _ "a" 'a' rfl,
    or_assoc]

theorem free_flags (hletters : c ∉ ['r', 'c', 'q', 'f', 'a', 'P'])
    (hdigit : c.isDigit = false) : Free c t.flags := by
  intro hmem
  simp only [mem_cons, not_mem_nil, or_false, not_or] at hletters
  rcases mem_flags.mp hmem with h | h | h | h | h | ⟨p, -, h | h⟩
  · exact hletters.1 h.2
  · exact hletters.2.1 h.2
  · exact hletters.2.2.1 h.2
  · exact hletters.2.2.2.1 h.2
  · exact hletters.2.2.2.2.1 h.2
  · exact hletters.2.2.2.2.2 h
  · exact free_repr hdigit p h

theorem letter_mem_flags (hdigit : c.isDigit = false) (hP : c ≠ 'P') : c ∈ t.flags.toList ↔
      t.replicaReads ∧ c = 'r' ∨ t.localCache ∧ c = 'c' ∨ t.overQuota ∧ c = 'q' ∨
        t.federated ∧ c = 'f' ∨ t.asyncWrites ∧ c = 'a' := by
  have hpair : ¬ ∃ p, t.pair = some p ∧ (c = 'P' ∨ c ∈ p.repr.toList) := by
    rintro ⟨p, -, hc | hc⟩
    · exact hP hc
    · exact free_repr hdigit p hc
  rw [mem_flags]
  simp only [hpair, or_false]

theorem placedPair_flags (h : ∀ p ∈ t.pair, p < 2 ^ 64) : placedPair t.flags = t.pair := by
  have hopt : ∀ (b : Bool) (s : String), Free 'P' s → Free 'P' (if b then s else "") := by
    intro b s hs
    split
    · exact hs
    · exact not_mem_nil
  obtain ⟨letters, hletters, hflags⟩ : ∃ letters, Free 'P' letters ∧
      t.flags = letters ++ t.pair.elim "" fun p => "P" ++ p.repr := by
    refine ⟨_, ?_, rfl⟩
    simp only [free_append]
    exact ⟨⟨⟨⟨hopt _ _ (by decide), hopt _ _ (by decide)⟩, hopt _ _ (by decide)⟩,
      hopt _ _ (by decide)⟩, hopt _ _ (by decide)⟩
  rw [placedPair, hflags]
  cases hpair : t.pair with
  | none =>
    rw [Option.elim_none, append_empty, splitOnce_of_free hletters]
    rfl
  | some p =>
    have hdigits : p.repr.toList.takeWhile Char.isDigit = p.repr.toList :=
      takeWhile_eq_self_iff.mpr fun d hd => isDigit_of_mem_repr hd
    rw [Option.elim_some, ← String.append_assoc, splitOnce_append hletters rfl]
    simp only [bind_some, hdigits, ofList_toList, parseUnsigned_repr (h p hpair)]

theorem Tenant.perProxyRate_le (t : Tenant) : t.perProxyRate ≤ t.opsPerSec := by
  rw [perProxyRate]
  split
  · exact Nat.zero_le _
  rename_i hops
  have hn : 1 ≤ max t.subset.length 1 := le_max_right _ _
  refine Nat.div_le_of_le_mul ?_
  obtain ⟨n, hn⟩ := Nat.exists_eq_add_of_le hn
  obtain ⟨ops, hops⟩ := Nat.exists_eq_add_of_le (Nat.one_le_iff_ne_zero.mpr hops)
  rw [hn, hops]
  simp only [Nat.add_mul, Nat.mul_add, Nat.one_mul, Nat.mul_one]
  omega

theorem readFlags_suffix (h : GoodTenant t) :
    readFlags (t.ns ++ t.flagsSuffix) = (t.ns, t.flags, t.perProxyRate) := by
  have hat : Free '@' t.flags := free_flags (by decide) (by decide)
  have hrate : t.perProxyRate < 2 ^ 64 := t.perProxyRate_le.trans_lt h.rate
  rw [flagsSuffix]
  split
  · rename_i hzero
    split
    · next hempty => rw [String.append_empty, readFlags, splitOnce_of_free h.ns.2.1, hzero, hempty]
    · rw [← String.append_assoc, readFlags, splitOnce_append h.ns.2.1 rfl]
      simp only [splitOnce_of_free hat, hzero]
  have hcut := splitOnce_append hat (show "@".toList = ['@'] from rfl) t.perProxyRate.repr
  have hsuffix : t.ns ++ ("#" ++ t.flags ++ "@" ++ t.perProxyRate.repr) =
      t.ns ++ "#" ++ (t.flags ++ "@" ++ t.perProxyRate.repr) := by
    simp only [String.append_assoc]
  rw [hsuffix, readFlags, splitOnce_append h.ns.2.1 rfl]
  simp only [hcut, parseUnsigned_repr hrate, Option.getD_some]

theorem readTenantEntry_entry (h : GoodTenant t) {d : String} (hd : d ∈ t.digests) :
    readTenantEntry (d ++ "=" ++ (t.ns ++ t.flagsSuffix)) = some (d, t.grant) := by
  rw [readTenantEntry, splitOnce_append (h.digests d hd).2 rfl, map_some]
  simp only [readFlags_suffix h, placedPair_flags h.pair]
  simp [grant, letter_mem_flags]

theorem Tenant.free_flagsSuffix (t : Tenant) (hc : c ∈ [',', '=']) : Free c t.flagsSuffix := by
  have hflags : Free c t.flags := by
    rcases mem_pair.mp hc with rfl | rfl
    · exact free_flags (by decide) (by decide)
    · exact free_flags (by decide) (by decide)
  have hsigns : Free c "" ∧ Free c "#" ∧ Free c "@" := by
    rcases mem_pair.mp hc with rfl | rfl
    · decide
    · decide
  have hrate : Free c t.perProxyRate.repr := by
    rcases mem_pair.mp hc with rfl | rfl
    · exact free_repr (by decide) _
    · exact free_repr (by decide) _
  rw [flagsSuffix]
  split
  · split
    · exact hsigns.1
    · exact free_append.mpr ⟨hsigns.2.1, hflags⟩
  · exact free_append.mpr
      ⟨free_append.mpr ⟨free_append.mpr ⟨hsigns.2.1, hflags⟩, hsigns.2.2⟩, hrate⟩

/-- What a proxy sees of a tenant: a namespace up to its first comma, then without flags. -/
def Tenant.seenGrant (t : Tenant) : TenantGrant :=
  match splitOnce ',' t.ns with
  | some (ns, _) => { ns }
  | none => t.grant

theorem Tenant.seenGrant_of_free (h : Free ',' t.ns) : t.seenGrant = t.grant := by
  rw [seenGrant, splitOnce_of_free h]

theorem Tenant.free_seenGrant (t : Tenant) : Free ',' t.seenGrant.ns := by
  rw [seenGrant]
  split
  · next ns _ hcut => exact (splitOnce_eq_some hcut).1
  · next hcut => exact free_of_splitOnce_eq_none hcut

theorem readTenants_of_comma (h : GoodTenant t) {d ns rest : String} (hd : d ∈ t.digests)
    (hcut : splitOnce ',' t.ns = some (ns, rest)) :
    readTenants (d ++ "=" ++ (t.ns ++ t.flagsSuffix)) = [(d, { ns })] := by
  obtain ⟨hcomma, hns⟩ := splitOnce_eq_some hcut
  obtain ⟨⟨hfirst, -⟩, hrest⟩ :
      (Free '=' ns ∧ Free '=' (String.singleton ',')) ∧ Free '=' rest := by
    rw [← free_append, ← free_append, ← hns]
    exact h.ns.1
  have hhash : Free '#' ns := by
    have := h.ns.2.1
    rw [hns, free_append, free_append] at this
    exact this.1.1
  have hentry : d ++ "=" ++ (t.ns ++ t.flagsSuffix) =
      d ++ "=" ++ ns ++ "," ++ (rest ++ t.flagsSuffix) := by
    rw [hns]
    simp only [String.append_assoc]
    rfl
  have hhead : splitAtChar ',' (d ++ "=" ++ ns) = [d ++ "=" ++ ns] :=
    splitAtChar_of_free (free_append.mpr ⟨free_append.mpr ⟨(h.digests d hd).1, by decide⟩, hcomma⟩)
  have htail : (splitAtChar ',' (rest ++ t.flagsSuffix)).filterMap readTenantEntry = [] := by
    refine filterMap_eq_nil_iff.mpr fun f hf => ?_
    have hf : Free '=' f :=
      (mem_splitAtChar hf).2 '=' (free_append.mpr ⟨hrest, t.free_flagsSuffix (by decide)⟩)
    rw [readTenantEntry, splitOnce_of_free hf]
    rfl
  rw [readTenants, hentry, splitAtChar_append rfl, hhead, filterMap_append, htail,
    append_nil, filterMap_cons_some, filterMap_nil]
  rw [readTenantEntry, splitOnce_append (h.digests d hd).2 rfl, map_some]
  simp only [readFlags, splitOnce_of_free hhash]
  rfl

theorem readTenants_tenantsSpec (h : r.WellFormed) : readTenants (r.tenantsSpec proxy) =
      (r.served proxy).flatMap fun t => t.digests.map fun d => (d, t.seenGrant) := by
  have hentry : ∀ t ∈ r.served proxy, ∀ d ∈ t.digests,
      readTenants (d ++ "=" ++ (t.ns ++ t.flagsSuffix)) = [(d, t.seenGrant)] := by
    intro t ht d hd
    have hgood : GoodTenant t := h.tenants t (mem_of_mem_filter ht)
    cases hcut : splitOnce ',' t.ns with
    | none =>
      have hns : Free ',' t.ns := free_of_splitOnce_eq_none hcut
      have hfree : Free ',' (d ++ "=" ++ (t.ns ++ t.flagsSuffix)) :=
        free_append.mpr ⟨free_append.mpr ⟨(hgood.digests d hd).1, by decide⟩,
          free_append.mpr ⟨hns, t.free_flagsSuffix (by decide)⟩⟩
      rw [readTenants, splitAtChar_of_free hfree, t.seenGrant_of_free hns,
        filterMap_cons_some (readTenantEntry_entry hgood hd), filterMap_nil]
    | some cut => rw [readTenants_of_comma hgood hd hcut, seenGrant, hcut]
  rw [tenantsSpec]
  by_cases hnil : (r.served proxy).flatMap entries = []
  · have hserved : r.served proxy = [] := eq_nil_iff_forall_not_mem.mpr fun t ht =>
      cons_ne_nil _ _ (flatMap_eq_nil_iff.mp hnil t ht)
    rw [hserved]
    rfl
  rw [readTenants, splitAtChar_joinWith_eq hnil, filterMap_flatMap, flatMap_assoc]
  refine flatMap_congr fun t ht => ?_
  rw [entries, flatMap_map, map_eq_flatMap]
  exact flatMap_congr fun d hd => hentry t ht d hd

/-! ## The view is the registry -/

/-- **A view that is exactly the registry**, as far as the proxy is concerned. -/
structure ProxyView.Exact (v : ProxyView) (r : RegistryState) (proxy : String) : Prop where
  pairs : v.pairs = r.pairs
  ranges : v.ranges = r.ranges
  exceptions : ∀ ns slot pair, v.exceptions (ns, slot) = some pair ↔
    (∃ t ∈ r.served proxy, t.ns = ns) ∧
      ∃ run ∈ r.exceptions, run.covers ns slot = true ∧ run.pair = pair
  tenants : ∀ d g, v.tenants d = some g ↔ ∃ t ∈ r.served proxy, d ∈ t.digests ∧ t.grant = g

def RegistryState.DigestsAgree (r : RegistryState) (proxy : String) : Prop :=
  ∀ t ∈ r.served proxy, ∀ t' ∈ r.served proxy, ∀ d ∈ t.digests, d ∈ t'.digests → t.grant = t'.grant

theorem mem_readTenants (h : r.WellFormed) (d : String) (g : TenantGrant) :
    (d, g) ∈ readTenants (r.tenantsSpec proxy) ↔
      ∃ t ∈ r.served proxy, d ∈ t.digests ∧ t.seenGrant = g := by
  rw [readTenants_tenantsSpec h]
  simp only [mem_flatMap, mem_map, Prod.mk.injEq]
  exact exists_congr fun t => and_congr_right fun _ =>
    ⟨fun ⟨d', hd', heq, hg⟩ => ⟨heq ▸ hd', hg⟩, fun ⟨hd, hg⟩ => ⟨d, hd, rfl, hg⟩⟩

theorem viewOf_exact_iff (h : r.WellFormed) : (r.viewOf proxy).Exact r proxy ↔
    (∀ t ∈ r.served proxy, Free ',' t.ns) ∧ r.DigestsAgree proxy := by
  constructor
  · intro hexact
    have hgrant : ∀ t ∈ r.served proxy, ∀ d ∈ t.digests,
        (r.viewOf proxy).tenants d = some t.grant := fun t ht d hd =>
      (hexact.tenants d t.grant).mpr ⟨t, ht, hd, rfl⟩
    refine ⟨fun t ht => ?_, fun t ht t' ht' d hd hd' => ?_⟩
    · have htoken := hgrant t ht t.token mem_cons_self
      rw [r.viewOf_tenants] at htoken
      obtain ⟨u, -, -, hseen⟩ := (mem_readTenants h _ _).mp (mem_of_collectMap htoken)
      have hfree := u.free_seenGrant
      rwa [hseen] at hfree
    · exact Option.some.inj ((hgrant t ht d hd).symm.trans (hgrant t' ht' d hd'))
  rintro ⟨hns, hagree⟩
  have hlen := h.lengths
  have hmem : ∀ d g, (d, g) ∈ readTenants (r.tenantsSpec proxy) ↔
      ∃ t ∈ r.served proxy, d ∈ t.digests ∧ t.grant = g := fun d g =>
    (mem_readTenants h d g).trans <| exists_congr fun t => and_congr_right fun ht => by
      rw [t.seenGrant_of_free (hns t ht)]
  refine ⟨?_, ?_, viewOf_exceptions_iff h, fun d g => ?_⟩
  · rw [viewOf, applySnapshot, readPairs_pairsSpec h, map_fst_zip hlen.ge]
  · rw [viewOf, applySnapshot, readPairs_pairsSpec h, map_snd_zip hlen.le]
  rw [r.viewOf_tenants, collectMap_eq_some_iff, hmem]
  intro g' hg hg'
  obtain ⟨t, ht, hd, rfl⟩ := (hmem d g).mp hg
  obtain ⟨t', ht', hd', rfl⟩ := (hmem d g').mp hg'
  exact hagree t' ht' t ht d hd' hd

/-- **Snapshots decode to the registry** exactly where no namespace served has a comma and shared
digests grant one thing; and there a token opens its own tenants' namespace only. -/
theorem applySnapshot_exact_iff {c : CpConfig} (h : (registryMachine c).Reachable r)
    (proxy : String) :
    ((r.viewOf proxy).Exact r proxy ↔
      (∀ t ∈ r.served proxy, Free ',' t.ns) ∧ r.DigestsAgree proxy) ∧
    ((r.viewOf proxy).Exact r proxy → ∀ token g, (r.viewOf proxy).lookupToken c token = some g →
      (∃ t ∈ r.served proxy, c.sha256Hex token ∈ t.digests) ∧
        ∀ t ∈ r.served proxy, c.sha256Hex token ∈ t.digests → g.ns = t.ns) := by
  refine ⟨viewOf_exact_iff (wellFormed_of_reachable h), fun hexact token g hg => ?_⟩
  obtain ⟨t, ht, hd, rfl⟩ := (hexact.tenants _ g).mp hg
  refine ⟨⟨t, ht, hd⟩, fun t' ht' hd' => ?_⟩
  have hg' := (hexact.tenants _ t'.grant).mpr ⟨t', ht', hd', rfl⟩
  exact congrArg TenantGrant.ns (Option.some.inj (hg.symm.trans hg'))

def sampleCommands : List (CpVerb × List String) :=
  [(.addProxy, ["p"]), (.addPair, ["m,n"]), (.addPair, ["k,l", "0-99"]),
    (.addTenant, ["a", "red", "x"]), (.addTenant, ["b", "blue", "y:z"]),
    (.setSlot, ["y:z", "5000", "k"]), (.tenantQuota, ["b", "10", "0"])]

def sampleRegistry : RegistryState :=
  ((registryMachine sampleConfig).exec {} sampleCommands).getD {}

theorem reachable_sampleRegistry : (registryMachine sampleConfig).Reachable sampleRegistry :=
  reachable_of_exec _ rfl (show (registryMachine sampleConfig).exec {} sampleCommands = _ by
    decide +kernel)

theorem applySnapshot_exact_sample : sampleRegistry.served "p" = sampleRegistry.tenants ∧
    (sampleRegistry.viewOf "p").Exact sampleRegistry "p" := by
  have hcond : (∀ t ∈ sampleRegistry.served "p", Free ',' t.ns) ∧
      sampleRegistry.DigestsAgree "p" := by
    unfold RegistryState.DigestsAgree
    decide +kernel
  exact ⟨by decide +kernel, (applySnapshot_exact_iff reachable_sampleRegistry "p").1.mpr hcond⟩

def commaCommands : List (CpVerb × List String) :=
  [(.addProxy, ["p"]), (.addTenant, ["a", "red", "x,y"]), (.addTenant, ["b", "blue", "x"])]

def rotatedCommands : List (CpVerb × List String) :=
  [(.addProxy, ["p"]), (.addTenant, ["a", "red", "x"]), (.rotateToken, ["a", "blue"]),
    (.addTenant, ["b", "red", "y"])]

/-- **Two ways into another tenant's namespace**: a comma in one's own, an unfinished rotation. -/
theorem snapshot_opens_other_namespace :
    (∃ r, (registryMachine sampleConfig).Reachable r ∧
      r.tenants.map (fun t => (t.name, t.token, t.ns)) =
        [("a", sampleConfig.sha256Hex "red", "x,y"), ("b", sampleConfig.sha256Hex "blue", "x")] ∧
      (r.viewOf "p").lookupToken sampleConfig "red" = some { ns := "x" }) ∧
    ∃ r, (registryMachine sampleConfig).Reachable r ∧
      (tenantNamed r.tenants "a").map (fun t => (t.prevToken, t.ns)) =
        some (some (sampleConfig.sha256Hex "red"), "x") ∧
      (tenantNamed r.tenants "b").map (fun t => (t.token, t.ns)) =
        some (sampleConfig.sha256Hex "red", "y") ∧
      (r.viewOf "p").lookupToken sampleConfig "red" = some { ns := "y" } := by
  have hreach : ∀ commands r, (registryMachine sampleConfig).exec {} commands = some r →
      (registryMachine sampleConfig).Reachable r := fun commands r h =>
    reachable_of_exec _ rfl h
  have hlook : ∀ r, (registryMachine sampleConfig).Reachable r →
      (r.viewOf "p").lookupToken sampleConfig "red" = collectMap ((r.served "p").flatMap fun t =>
        t.digests.map fun d => (d, t.seenGrant)) (sampleConfig.sha256Hex "red") := fun r h => by
    rw [ProxyView.lookupToken, r.viewOf_tenants,
      readTenants_tenantsSpec (wellFormed_of_reachable h)]
  constructor
  · have hrun := hreach commaCommands
      (((registryMachine sampleConfig).exec {} commaCommands).getD {}) (by decide +kernel)
    exact ⟨_, hrun, by decide +kernel, (hlook _ hrun).trans (by decide +kernel)⟩
  · have hrun := hreach rotatedCommands
      (((registryMachine sampleConfig).exec {} rotatedCommands).getD {}) (by decide +kernel)
    exact ⟨_, hrun, by decide +kernel, by decide +kernel, (hlook _ hrun).trans (by decide +kernel)⟩

/-! ## Edits of other tenants -/

def RegistryMutation.edited : RegistryMutation → Option String
  | .delTenant name | .rotateToken name _ | .dropPrev name | .setFlag _ name _ => some name
  | _ => none

/-- **A command that edits another tenant**, and deletes none that shares the namespace of `u`. -/
def EditsOther (c : CpConfig) (u : Tenant) (r : RegistryState) (e : CpVerb × List String) : Prop :=
  ∃ m name, c.command r e.1 e.2 = .ok (some m) ∧ m.edited = some name ∧ u.name ≠ name ∧
    (m = .delTenant name → ∀ t ∈ r.tenants, t.name = name → t.ns ≠ u.ns)

structure RegistryState.AgreesOn (u : Tenant) (r r' : RegistryState) : Prop where
  tenant : u ∈ r'.tenants
  pairs : r'.pairs = r.pairs
  ranges : r'.ranges = r.ranges
  runs : ∀ run, run.ns = u.ns → (run ∈ r'.exceptions ↔ run ∈ r.exceptions)

variable {c : CpConfig} {u : Tenant} {r' : RegistryState}

theorem agreesOn_apply {m : RegistryMutation} {name : String} (hu : u ∈ r.tenants)
    (hedit : m.edited = some name) (hne : u.name ≠ name)
    (hdel : m = .delTenant name → ∀ t ∈ r.tenants, t.name = name → t.ns ≠ u.ns) :
    r.AgreesOn u (r.apply m) := by
  have hmodify (f : Tenant → Tenant) :
      r.AgreesOn u { r with tenants := modifyTenant name f r.tenants } :=
    ⟨mem_map.mpr ⟨u, hu, if_neg hne⟩, rfl, rfl, fun _ _ => .rfl⟩
  cases m with
  | delTenant =>
    obtain rfl := Option.some.inj hedit
    rw [apply]
    split
    · exact ⟨hu, rfl, rfl, fun _ _ => .rfl⟩
    rename_i t ht
    obtain ⟨hmem, hname⟩ := mem_of_tenantNamed ht
    have hns := hdel rfl t hmem hname
    refine ⟨mem_filter.mpr ⟨hu, decide_eq_true hne⟩, rfl, rfl, fun run hrun => ?_⟩
    exact mem_filter.trans (and_iff_left (decide_eq_true (hrun ▸ hns.symm)))
  | rotateToken | dropPrev | setFlag =>
    obtain rfl := Option.some.inj hedit
    exact hmodify _
  | _ => cases hedit

theorem agreesOn_exec {es : List (CpVerb × List String)} (hu : u ∈ r.tenants)
    (hes : (registryMachine c).Guarded (EditsOther c u) r es)
    (hrun : (registryMachine c).exec r es = some r') : r.AgreesOn u r' := by
  induction es generalizing r with
  | nil =>
    obtain rfl := Option.some.inj hrun
    exact ⟨hu, rfl, rfl, fun _ _ => .rfl⟩
  | cons e es ih =>
    obtain ⟨⟨m, name, hcmd, hedit, hne, hdel⟩, hrest⟩ := hes
    have hstep : (registryMachine c).step r e = some (r.apply m) := by simp [registryMachine, hcmd]
    rw [exec_cons, hstep] at hrun
    rw [hstep] at hrest
    have hfirst := agreesOn_apply hu hedit hne hdel
    have hlater := ih hfirst.tenant hrest hrun
    exact ⟨hlater.tenant, hlater.pairs.trans hfirst.pairs, hlater.ranges.trans hfirst.ranges,
      fun run hns => (hlater.runs run hns).trans (hfirst.runs run hns)⟩

/-- **Tenant edits are local**: after any run of them a tenant edited by none has its row, is served
where it was, and every proxy that serves it is sent the same pairs and owners of its slots; one
whose view is exact grants its digests what the row says. -/
theorem tenant_edits_local (h : (registryMachine c).Reachable r) (hu : u ∈ r.tenants)
    (es : List (CpVerb × List String)) (hes : (registryMachine c).Guarded (EditsOther c u) r es)
    (hrun : (registryMachine c).exec r es = some r') (proxy : String) :
    (u ∈ r'.served proxy ↔ u ∈ r.served proxy) ∧ r'.pairsSpec = r.pairsSpec ∧
    (u ∈ r.served proxy → (∀ slot, (r'.viewOf proxy).exceptions (u.ns, slot) =
        (r.viewOf proxy).exceptions (u.ns, slot)) ∧
      ((r'.viewOf proxy).Exact r' proxy → ∀ d ∈ u.digests,
        (r'.viewOf proxy).tenants d = some u.grant)) := by
  have hagree := agreesOn_exec hu hes hrun
  have hserved : u ∈ r'.served proxy ↔ u ∈ r.served proxy := by
    simp [served, hagree.tenant, hu]
  have h' := h.of_exec (guarded_of_forall (fun _ _ _ => trivial) r) hrun
  refine ⟨hserved, ?_,
      fun hserves => ⟨fun slot => Option.ext fun pair => ?_, fun hexact d hd => ?_⟩⟩
  · rw [pairsSpec, hagree.pairs, hagree.ranges, pairsSpec]
  · rw [viewOf_exceptions_iff (wellFormed_of_reachable h'),
      viewOf_exceptions_iff (wellFormed_of_reachable h)]
    refine and_congr (iff_of_true ⟨u, hserved.mpr hserves, rfl⟩ ⟨u, hserves, rfl⟩)
      (exists_congr fun run => ?_)
    rw [← and_assoc, ← and_assoc]
    exact and_congr_left' (and_congr_left fun hc => hagree.runs run (covers_iff.mp hc).1)
  · exact (hexact.tenants d _).mpr ⟨u, hserved.mpr hserves, hd, rfl⟩

theorem tenant_edits_local_sample : ∃ u ∈ sampleRegistry.served "p", ∃ r',
    (registryMachine sampleConfig).exec sampleRegistry [(.delTenant, ["a"])] = some r' ∧
      u ∈ r'.served "p" := by
  have hget : sampleRegistry.tenants.getLast (by decide +kernel) ∈ sampleRegistry.served "p" := by
    decide +kernel
  refine ⟨_, hget, _, rfl, (tenant_edits_local reachable_sampleRegistry (getLast_mem _)
    [(.delTenant, ["a"])] ?_ rfl "p").1.mpr hget⟩
  exact ⟨⟨.delTenant "a", "a",
      by decide +kernel, rfl, by decide +kernel, fun _ => by decide +kernel⟩,
    trivial⟩

def sharedCommands : List (CpVerb × List String) :=
  [(.addProxy, ["p"]), (.addPair, ["m,n"]), (.addPair, ["k,l"]), (.addTenant, ["a", "red", "x"]),
    (.addTenant, ["b", "blue", "x"]), (.setSlot, ["x", "0", "1"])]

def sharedRegistry : RegistryState :=
  ((registryMachine sampleConfig).exec {} sharedCommands).getD {}

/-- **Deleting a tenant drops the slot exceptions of every tenant of its namespace.** -/
theorem delTenant_moves_shared_slots : (registryMachine sampleConfig).Reachable sharedRegistry ∧
    ∃ r', (registryMachine sampleConfig).step sharedRegistry (.delTenant, ["a"]) = some r' ∧
      (r'.served "p").map (fun t => (t.name, t.ns)) = [("b", "x")] ∧
      (sharedRegistry.viewOf "p").exceptions ("x", 0) = some 1 ∧
      (r'.viewOf "p").exceptions ("x", 0) = none ∧
      defaultPair 0 r'.ranges r'.pairs.length = some 0 := by
  have hrun : (registryMachine sampleConfig).Reachable sharedRegistry :=
    reachable_of_exec _ rfl (show (registryMachine sampleConfig).exec {} sharedCommands = _ by
      decide +kernel)
  have hview {r : RegistryState} (h : (registryMachine sampleConfig).Reachable r) (pair : ℕ) :
      (r.viewOf "p").exceptions ("x", 0) = some pair ↔ _ :=
    viewOf_exceptions_iff (wellFormed_of_reachable h) "x" 0 pair
  refine ⟨hrun, _, rfl, by decide +kernel, (hview hrun 1).mpr (by decide +kernel),
    Option.eq_none_iff_forall_ne_some.mpr fun pair hpair => ?_, by decide +kernel⟩
  obtain ⟨_, run, hmem, _⟩ := (hview (hrun.step (.delTenant, ["a"]) trivial rfl) pair).mp hpair
  rw [show (sharedRegistry.apply (.delTenant "a")).exceptions = [] by decide +kernel] at hmem
  cases hmem

end Flint
