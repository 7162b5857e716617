import FlintCache.Storage.RowKeys
import FlintCache.Storage.S3Fifo

/-!
# Storage/Eviction — the guard in front of the compaction filter

Under disk pressure the admission policies choose cold rows and mark them; compaction asks
`shouldDrop` of every row it rewrites.  A mark is a request: the guard reads the namespace out of
the row's own bytes and drops it only where that namespace is declared evictable.
-/

namespace Flint

section

open List

/-- A policy that tracks keys and chooses which to give up. -/
structure AdmissionPolicy (π : Type) where
  new : ℕ → π
  onAccess : Bytes → π → π
  onAdmit : Bytes → ℕ → π → π
  setCapacityBytes : ℕ → π → π
  residentBytes : π → ℕ
  reclaimTo : ℕ → π → π × List Bytes

/-- The evictable namespaces with their policies, and the marks. -/
structure EvictionState (π : Type) where
  evictable : Finset Bytes := ∅
  marks : Finset Bytes := ∅
  marksLen : ℕ := 0
  evictableCount : ℕ := 0
  policies : Bytes → Option π := fun _ => none
  /-- `0` until the disk is sampled. -/
  capacityHint : ℕ := 0

/-- A call.  `free`: the policies' lock is free; `order`: how their map is walked. -/
inductive EvictionCall
  | setEvictable (names : List Bytes)
  | mark (key : Bytes)
  | clearMarks
  | noteRead (key : Bytes) (free : Bool)
  | noteWrite (key : Bytes) (approxBytes : ℕ) (free : Bool)
  | reclaim (wantBytes : ℕ) (order : List Bytes)
  | setCapacityHint (bytes : ℕ) (free : Bool)
  deriving DecidableEq, Repr

def maxMarks : ℕ := 100000

variable {π : Type}

namespace EvictionState

variable (P : AdmissionPolicy π) (s : EvictionState π)

def isEvictableNs (ns : Bytes) : Bool := decide (ns ∈ s.evictable)

def clearMarks : EvictionState π := { s with marks := ∅, marksLen := 0 }

/-- **A change of the declaration discards every mark**, and every policy. -/
def setEvictable (names : List Bytes) : EvictionState π :=
  let t := { s with evictableCount := names.toFinset.card, evictable := names.toFinset }
  if s.evictable ≠ names.toFinset then { t.clearMarks with policies := fun _ => none } else t

def mark (key : Bytes) : EvictionState π :=
  if maxMarks ≤ s.marks.card ∧ key ∉ s.marks then s
  else if key ∈ s.marks then s
  else { s with marks := insert key s.marks, marksLen := (insert key s.marks).card }

def shouldDrop (key : Bytes) : Bool :=
  if s.marksLen = 0 then false
  else if key ∈ s.marks then
    match nsOfEnvelope key with
    | none => false
    | some ns => s.isEvictableNs ns
  else false

def notedNs (key : Bytes) : Option Bytes :=
  if s.evictableCount = 0 then none else (nsOfEnvelope key).filter s.isEvictableNs

def noteRead (key : Bytes) (free : Bool) : EvictionState π :=
  match s.notedNs key with
  | some ns =>
    if free then
      { s with policies := Function.update s.policies ns ((s.policies ns).map (P.onAccess key)) }
    else s
  | none => s

def noteWrite (key : Bytes) (approxBytes : ℕ) (free : Bool) : EvictionState π :=
  if s.capacityHint = 0 then s
  else
    match s.notedNs key with
    | some ns =>
      if free then
        { s with
          policies := Function.update s.policies ns
            (some (P.onAdmit key approxBytes ((s.policies ns).getD (P.new s.capacityHint)))) }
      else s
    | none => s

/-- The keys the policies give up, until there are as many as may be marked. -/
def chosen (want : ℕ) :
    List Bytes → (Bytes → Option π) → List Bytes → (Bytes → Option π) × List Bytes
  | [], policies, keys => (policies, keys)
  | ns :: order, policies, keys =>
    match policies ns with
    | none => chosen want order policies keys
    | some p =>
      let given := P.reclaimTo (P.residentBytes p - want) p
      let policies := Function.update policies ns (some given.1)
      if maxMarks ≤ (keys ++ given.2).length then (policies, keys ++ given.2)
      else chosen want order policies (keys ++ given.2)

def reclaim (want : ℕ) (order : List Bytes) : EvictionState π :=
  if s.evictableCount = 0 then s
  else
    let (policies, keys) := chosen P want order s.policies []
    keys.foldl mark { s with policies }

def setCapacityHint (bytes : ℕ) (free : Bool) : EvictionState π :=
  let t := { s with capacityHint := bytes }
  if free then { t with policies := fun ns => (s.policies ns).map (P.setCapacityBytes bytes) }
  else t

def call : EvictionCall → EvictionState π
  | .setEvictable names => s.setEvictable names
  | .mark key => s.mark key
  | .clearMarks => s.clearMarks
  | .noteRead key free => s.noteRead P key free
  | .noteWrite key approxBytes free => s.noteWrite P key approxBytes free
  | .reclaim want order => s.reclaim P want order
  | .setCapacityHint bytes free => s.setCapacityHint P bytes free

def after (calls : List EvictionCall) : EvictionState π := calls.foldl (call P) {}

def asked : EvictionCall → List Bytes
  | .mark key => [key]
  | .reclaim want order =>
    if s.evictableCount = 0 then [] else (chosen P want order s.policies []).2
  | _ => []

end EvictionState

def declared (calls : List EvictionCall) : Finset Bytes :=
  calls.foldl (fun names c => match c with
    | .setEvictable next => next.toFinset
    | _ => names) ∅

/-- **Marked since the declaration last changed**: a call had the row marked, and the declared
namespaces have been the same since. -/
def MarkedSinceChange {π : Type} (P : AdmissionPolicy π) (calls : List EvictionCall) (key : Bytes) :
    Prop :=
  ∃ pre c post, calls = pre ++ c :: post ∧ key ∈ (EvictionState.after P pre).asked P c ∧
    key ∈ (EvictionState.after P (pre ++ [c])).marks ∧
    ∀ p, p <+: post → declared (pre ++ c :: p) = declared pre

/-! ## What a call can do -/

namespace EvictionState

variable {P : AdmissionPolicy π} {s : EvictionState π} {key : Bytes}

theorem after_append_singleton (calls : List EvictionCall) (c : EvictionCall) :
    after P (calls ++ [c]) = (after P calls).call P c := by
  rw [after, foldl_append]
  rfl

theorem mark_eq (s : EvictionState π) (key : Bytes) :
    ∃ marks marksLen, s.mark key = { s with marks, marksLen } := by
  unfold mark
  split
  · exact ⟨_, _, rfl⟩
  · split
    · exact ⟨_, _, rfl⟩
    · exact ⟨_, _, rfl⟩

theorem mem_marks_mark {k : Bytes} (h : key ∈ (s.mark k).marks) : key = k ∨ key ∈ s.marks := by
  unfold mark at h
  split at h
  · exact .inr h
  · split at h
    · exact .inr h
    · exact Finset.mem_insert.mp h

theorem marks_eq (keys : List Bytes) (s : EvictionState π) :
    ∃ marks marksLen, keys.foldl mark s = { s with marks, marksLen } := by
  induction keys generalizing s with
  | nil => exact ⟨_, _, rfl⟩
  | cons k keys ih =>
    obtain ⟨marks, marksLen, h⟩ := mark_eq s k
    obtain ⟨marks', marksLen', h'⟩ := ih (s.mark k)
    exact ⟨marks', marksLen', by rw [foldl_cons, h', h]⟩

theorem mem_marks_marks {keys : List Bytes} (h : key ∈ (keys.foldl mark s).marks) :
    key ∈ keys ∨ key ∈ s.marks := by
  induction keys generalizing s with
  | nil => exact .inr h
  | cons k keys ih =>
    obtain hin | hin := ih h
    · exact .inl (mem_cons_of_mem k hin)
    · refine (mem_marks_mark hin).imp_left fun hk => ?_
      rw [hk]
      exact mem_cons_self

theorem reclaim_of_count {want : ℕ} {order : List Bytes} (h : s.evictableCount ≠ 0) :
    s.reclaim P want order = (chosen P want order s.policies []).2.foldl mark
      { s with policies := (chosen P want order s.policies []).1 } := if_neg h

section

variable (P : AdmissionPolicy π) (s : EvictionState π)

theorem noteRead_eq (key : Bytes) (free : Bool) :
    ∃ policies, s.noteRead P key free = { s with policies } := by
  unfold noteRead
  split
  · split
    · exact ⟨_, rfl⟩
    · exact ⟨s.policies, rfl⟩
  · exact ⟨s.policies, rfl⟩

theorem noteWrite_eq (key : Bytes) (approxBytes : ℕ)
    (free : Bool) : ∃ policies, s.noteWrite P key approxBytes free = { s with policies } := by
  unfold noteWrite
  split
  · exact ⟨s.policies, rfl⟩
  split
  · split
    · exact ⟨_, rfl⟩
    · exact ⟨s.policies, rfl⟩
  · exact ⟨s.policies, rfl⟩

/-- **What a call does to declaration and marks**: a marked row was asked for by it, or was marked
before and the declaration is as it was. -/
theorem call_spec (c : EvictionCall) : ((s.call P c).evictable = match c with
      | .setEvictable names => names.toFinset
      | _ => s.evictable) ∧
    ∀ key ∈ (s.call P c).marks, (key ∈ s.asked P c ∧ (s.call P c).evictable = s.evictable) ∨
      (key ∈ s.marks ∧ (s.call P c).evictable = s.evictable) := by
  cases c with
  | setEvictable names =>
    by_cases hsame : s.evictable = names.toFinset
    · have hcall : s.call P (.setEvictable names) = { s with
          evictableCount := names.toFinset.card, evictable := names.toFinset } :=
        if_neg (not_not_intro hsame)
      rw [hcall]
      exact ⟨rfl, fun key hkey => .inr ⟨hkey, hsame.symm⟩⟩
    have hcall : s.call P (.setEvictable names) = { s with
        evictableCount := names.toFinset.card, evictable := names.toFinset,
        marks := ∅, marksLen := 0, policies := fun _ => none } := if_pos hsame
    rw [hcall]
    exact ⟨rfl, fun key hkey => absurd hkey (Finset.notMem_empty key)⟩
  | mark k =>
    have hsame : (s.mark k).evictable = s.evictable := by
      obtain ⟨marks, marksLen, h⟩ := mark_eq s k
      rw [h]
    refine ⟨hsame, fun key hkey => ?_⟩
    obtain rfl | hkey := mem_marks_mark hkey
    · exact .inl ⟨mem_singleton_self key, hsame⟩
    · exact .inr ⟨hkey, hsame⟩
  | clearMarks => exact ⟨rfl, fun key hkey => absurd hkey (Finset.notMem_empty key)⟩
  | noteRead k free =>
    obtain ⟨policies, h⟩ := noteRead_eq P s k free
    rw [call, h]
    exact ⟨rfl, fun key hkey => .inr ⟨hkey, rfl⟩⟩
  | noteWrite k approxBytes free =>
    obtain ⟨policies, h⟩ := noteWrite_eq P s k approxBytes free
    rw [call, h]
    exact ⟨rfl, fun key hkey => .inr ⟨hkey, rfl⟩⟩
  | reclaim want order =>
    by_cases hcount : s.evictableCount = 0
    · have hcall : s.call P (.reclaim want order) = s := if_pos hcount
      rw [hcall]
      exact ⟨rfl, fun key hkey => .inr ⟨hkey, rfl⟩⟩
    have hcall : s.call P (.reclaim want order) = _ := reclaim_of_count hcount
    have hasked : s.asked P (.reclaim want order) = (chosen P want order s.policies []).2 :=
      if_neg hcount
    have hsame : (s.call P (.reclaim want order)).evictable = s.evictable := by
      obtain ⟨marks, marksLen, h⟩ := marks_eq (chosen P want order s.policies []).2
        { s with policies := (chosen P want order s.policies []).1 }
      rw [hcall, h]
    refine ⟨hsame, fun key hkey => ?_⟩
    rw [hcall] at hkey
    obtain hkey | hkey := mem_marks_marks hkey
    · exact .inl ⟨hasked ▸ hkey, hsame⟩
    · exact .inr ⟨hkey, hsame⟩
  | setCapacityHint bytes free =>
    cases free with
    | _ => exact ⟨rfl, fun key hkey => .inr ⟨hkey, rfl⟩⟩

end

/-! ## Whole runs -/

theorem declared_append_singleton (calls : List EvictionCall) (c : EvictionCall) :
    declared (calls ++ [c]) = match c with
      | .setEvictable names => names.toFinset
      | _ => declared calls := by
  rw [declared, foldl_append]
  rfl

theorem evictable_after (calls : List EvictionCall) :
    (after P calls).evictable = declared calls := by
  induction calls using List.reverseRecOn with
  | nil => rfl
  | append_singleton calls c ih =>
    rw [after_append_singleton, declared_append_singleton, (call_spec P _ c).1, ih]

theorem marks_licensed {calls : List EvictionCall} (h : key ∈ (after P calls).marks) :
    MarkedSinceChange P calls key := by
  induction calls using List.reverseRecOn with
  | nil => exact absurd h (Finset.notMem_empty key)
  | append_singleton calls c ih =>
    have hmarked := h
    rw [after_append_singleton] at h
    obtain ⟨hasked, hsame⟩ | ⟨hkept, hsame⟩ := (call_spec P _ c).2 key h
    all_goals rw [← after_append_singleton, evictable_after, evictable_after] at hsame
    · refine ⟨calls, c, [], rfl, hasked, hmarked, fun p hp => ?_⟩
      rw [prefix_nil.mp hp, hsame]
    obtain ⟨pre, c', post, rfl, hasked, hin, hstill⟩ := ih hkept
    refine ⟨pre, c', post ++ [c], by simp, hasked, hin, fun p hp => ?_⟩
    obtain rfl | hp := prefix_concat_iff.mp hp
    · have hlast := hstill post prefix_rfl
      rw [← hlast, ← hsame, append_assoc, cons_append]
    · exact hstill p hp

theorem of_shouldDrop (h : s.shouldDrop key) :
    key ∈ s.marks ∧ ∃ ns, nsOfEnvelope key = some ns ∧ ns ∈ s.evictable := by
  unfold shouldDrop at h
  split at h
  · cases h
  split at h
  · next hmark =>
    refine ⟨hmark, ?_⟩
    split at h
    · cases h
    · next ns hns => exact ⟨ns, hns, of_decide_eq_true h⟩
  · cases h

/-- **The guard lets go only of marked rows of declared namespaces**, whatever the policies choose:
the row's own bytes name a namespace declared now, and it was marked since the declaration last
changed. -/
theorem should_drop_licensed (P : AdmissionPolicy π) (calls : List EvictionCall) :
    (∀ key, (after P calls).shouldDrop key = true →
      (∃ ns, nsOfEnvelope key = some ns ∧ ns ∈ declared calls) ∧ MarkedSinceChange P calls key) ∧
    ∀ row : RowName, row.addr.unit.ns ∉ declared calls →
      (after P calls).shouldDrop row.encode = false := by
  have hguard : ∀ key, (after P calls).shouldDrop key = true →
      (∃ ns, nsOfEnvelope key = some ns ∧ ns ∈ declared calls) ∧
        MarkedSinceChange P calls key := fun key h => by
    obtain ⟨hmark, ns, hns, hin⟩ := of_shouldDrop h
    exact ⟨⟨ns, hns, evictable_after (P := P) calls ▸ hin⟩, marks_licensed hmark⟩
  refine ⟨hguard, fun row hrow => ?_⟩
  by_contra hdrop
  obtain ⟨⟨ns, hns, hin⟩, -⟩ := hguard row.encode (Bool.not_eq_false _ ▸ hdrop)
  rw [row.encode_eq, nsOfEnvelope_slotPrefix row.addr.ns_le] at hns
  exact hrow (Option.some.inj hns ▸ hin)

def keepAll : AdmissionPolicy Unit :=
  ⟨fun _ => (), fun _ p => p, fun _ _ p => p, fun _ p => p, fun _ => 0, fun _ p => (p, [])⟩

theorem should_drop_licensed_declared :
    (after keepAll [.setEvictable [[0x63]], .mark [0x4d, 1, 0x63, 0, 7, 0x6b]]).shouldDrop
        [0x4d, 1, 0x63, 0, 7, 0x6b] = true ∧
      MarkedSinceChange keepAll [.setEvictable [[0x63]], .mark [0x4d, 1, 0x63, 0, 7, 0x6b]]
        [0x4d, 1, 0x63, 0, 7, 0x6b] := by
  have hdrop : (after keepAll
      [.setEvictable [[0x63]], .mark [0x4d, 1, 0x63, 0, 7, 0x6b]]).shouldDrop
        [0x4d, 1, 0x63, 0, 7, 0x6b] = true := by decide
  exact ⟨hdrop, ((should_drop_licensed keepAll _).1 _ hdrop).2⟩

end EvictionState

end

/-! ## What a reclaim takes from the policies, and what it marks -/

section

open List S3Fifo
open Function (update update_of_ne update_self)

def s3fifo : AdmissionPolicy S3Fifo where
  new := .new
  onAccess key p := p.onAccess key
  onAdmit key bytes p := p.onAdmit key bytes
  setCapacityBytes bytes p := { p with capacityBytes := bytes }
  residentBytes p := p.residentBytes
  reclaimTo target p := p.reclaimTo target

namespace EvictionState

variable {s : EvictionState S3Fifo} {policies : Bytes → Option S3Fifo} {key ns : Bytes} {p : S3Fifo}
  {want : ℕ} {order : List Bytes}

def Tracks (policies : Bytes → Option S3Fifo) (ns key : Bytes) : Prop :=
  ∃ p, policies ns = some p ∧ p.contains key = true

def AllSound (policies : Bytes → Option S3Fifo) : Prop := ∀ ns p, policies ns = some p → p.Sound

/-! ## No candidate is lost -/

theorem AllSound.update (h : AllSound policies) (ns : Bytes) (hp : p.Sound) :
    AllSound (update policies ns (some p)) := fun ns' q hq => by
  obtain ⟨-, ⟨⟩⟩ | ⟨-, hq⟩ := update_eq_some_iff.mp hq
  · exact hp
  · exact h ns' q hq

theorem marks_mark (s : EvictionState π) (k : Bytes) :
    (s.mark k).marks = if (insert k s.marks).card ≤ max maxMarks s.marks.card then insert k s.marks
      else s.marks := by
  unfold mark
  by_cases hk : k ∈ s.marks
  · simp [hk]
  · rw [Finset.card_insert_of_notMem hk]
    by_cases hfull : maxMarks ≤ s.marks.card
    · rw [if_pos ⟨hfull, hk⟩, if_neg (by omega)]
    · rw [if_neg (by simp [hfull]), if_neg hk, if_pos (by omega)]

theorem card_marks_foldl {keys : List Bytes} (h : s.marks.card ≤ maxMarks) :
    (keys.foldl mark s).marks.card ≤ maxMarks := by
  induction keys generalizing s with
  | nil => exact h
  | cons k keys ih =>
    refine ih ?_
    rw [marks_mark]
    split
    · omega
    · exact h

theorem marks_subset_foldl (keys : List Bytes) (s : EvictionState π) :
    s.marks ⊆ (keys.foldl mark s).marks := by
  induction keys generalizing s with
  | nil => exact Finset.Subset.refl _
  | cons k keys ih =>
    refine Finset.Subset.trans ?_ (ih (s.mark k))
    rw [marks_mark]
    split
    · exact Finset.subset_insert k s.marks
    · exact Finset.Subset.refl _

/-- **With room for them, all keys are marked.** -/
theorem marks_of_room {keys : List Bytes} (h : (s.marks ∪ keys.toFinset).card ≤ maxMarks) :
    (keys.foldl mark s).marks = s.marks ∪ keys.toFinset := by
  induction keys generalizing s with
  | nil => simp
  | cons k keys ih =>
    rw [toFinset_cons, Finset.union_insert, ← Finset.insert_union] at h ⊢
    have hmark : (s.mark k).marks = insert k s.marks := by
      rw [marks_mark, if_pos]
      exact ((Finset.card_le_card Finset.subset_union_left).trans h).trans (le_max_left ..)
    rw [foldl_cons, ih (by rwa [hmark]), hmark]

theorem chosen_keeps (want : ℕ) (order keys : List Bytes) (hsound : AllSound policies)
    (hkey : Tracks policies ns key ∨ key ∈ keys) :
    Tracks (chosen s3fifo want order policies keys).1 ns key ∨
      key ∈ (chosen s3fifo want order policies keys).2 := by
  induction order generalizing policies keys with
  | nil => exact hkey
  | cons ns' order ih =>
    rw [chosen]
    cases hp : policies ns' with
    | none => exact ih _ hsound hkey
    | some p =>
      have hdone := reclaimWithin_spec (hsound ns' p hp)
        (p.residentBytes - want) (p.queue.length + 1)
      set given := s3fifo.reclaimTo (s3fifo.residentBytes p - want) p with hgiven
      have hkey' : Tracks (update policies ns' (some given.1)) ns key ∨ key ∈ keys ++ given.2 := by
        obtain ⟨q, hq, hin⟩ | hin := hkey
        · obtain rfl | hne := eq_or_ne ns ns'
          · obtain rfl : p = q := Option.some.inj (hp.symm.trans hq)
            obtain hout | hkept := mem_append.mp
              (hdone.queue.mem_iff.mp (((hsound ns p hp).sizes key).mp hin))
            · exact .inr (mem_append_right keys hout)
            · exact .inl ⟨given.1, update_self .., (hdone.sound.sizes key).mpr hkept⟩
          · exact .inl ⟨q, (update_of_ne hne ..).trans hq, hin⟩
        · exact .inr (mem_append_left _ hin)
      dsimp only
      split
      · exact hkey'
      · exact ih _ (hsound.update ns' hdone.sound) hkey'

/-- What is chosen was tracked, and its policy has let go of it. -/
theorem chosen_takes (want : ℕ) {order keys : List Bytes} (hsound : AllSound policies)
    {first : Bytes → Option S3Fifo} (hsub : ∀ ns key, Tracks policies ns key → Tracks first ns key)
    (hkeys : ∀ key ∈ keys, ∃ ns, Tracks first ns key ∧ ¬ Tracks policies ns key) :
    ∀ key ∈ (chosen s3fifo want order policies keys).2, ∃ ns, Tracks first ns key ∧
      ¬ Tracks (chosen s3fifo want order policies keys).1 ns key := by
  induction order generalizing policies keys with
  | nil => exact hkeys
  | cons ns' order ih =>
    rw [chosen]
    cases hp : policies ns' with
    | none => exact ih hsound hsub hkeys
    | some p =>
      have hdone := reclaimWithin_spec (hsound ns' p hp)
        (p.residentBytes - want) (p.queue.length + 1)
      set given := s3fifo.reclaimTo (s3fifo.residentBytes p - want) p with hgiven
      -- A policy that gives up keys tracks fewer, and none of those it gave up.
      have hless : ∀ ns key, Tracks (update policies ns' (some given.1)) ns key →
          Tracks policies ns key := by
        rintro ns key ⟨q, hupdate, hin⟩
        obtain ⟨rfl, hq⟩ | ⟨-, hq⟩ := update_eq_some_iff.mp hupdate
        · obtain rfl : given.1 = q := Option.some.inj hq
          have hkept := mem_append_right given.2 ((hdone.sound.sizes key).mp hin)
          exact ⟨p, hp, ((hsound ns p hp).sizes key).mpr (hdone.queue.mem_iff.mpr hkept)⟩
        · exact ⟨q, hq, hin⟩
      have hkeys' : ∀ key ∈ keys ++ given.2, ∃ ns, Tracks first ns key ∧
          ¬ Tracks (update policies ns' (some given.1)) ns key := fun key hkey => by
        obtain hkey | hkey := mem_append.mp hkey
        · obtain ⟨ns, htracked, hgone⟩ := hkeys key hkey
          exact ⟨ns, htracked, fun h => hgone (hless ns key h)⟩
        · have hqueue := hdone.queue.mem_iff.mpr (mem_append_left _ hkey)
          refine ⟨ns', hsub ns' key ⟨p, hp, ((hsound ns' p hp).sizes key).mpr hqueue⟩, ?_⟩
          rintro ⟨q, hq, hin⟩
          rw [update_self] at hq
          obtain rfl := Option.some.inj hq
          have hnodup := hdone.queue.nodup_iff.mp (hsound ns' p hp).nodup
          exact disjoint_of_nodup_append hnodup hkey ((hdone.sound.sizes key).mp hin)
      dsimp only
      split
      · exact hkeys'
      · exact ih (hsound.update ns' hdone.sound)
          (fun ns key h => hsub ns key (hless ns key h)) hkeys'

theorem policies_foldl_mark (keys : List Bytes) (s : EvictionState S3Fifo) :
    (keys.foldl mark s).policies = s.policies := by
  obtain ⟨marks, marksLen, h⟩ := marks_eq keys s
  rw [h]

def aKey : Bytes := [0x4d, 1, 0x63, 0, 7, 0x61]

/-- One namespace with one key, of five bytes. -/
def oneKey : EvictionState S3Fifo :=
  after s3fifo [.setEvictable [[0x63]], .setCapacityHint 100 true, .noteWrite aKey 5 true]

theorem sound_oneKey : ((S3Fifo.new 100).onAdmit aKey 5).Sound :=
  (sound_new 100).onAdmit _ 5 (by decide)

def markedKey (i : ℕ) : Bytes := [0x4d, 1, 0x63, 0, 7] ++ List.replicate i 0x6b

theorem markedKey_injective : Function.Injective markedKey := fun i j h => by
  simpa [markedKey] using congrArg List.length h

/-- As many marks as there may be. -/
@[irreducible] def fullMarks : List Bytes := (List.range maxMarks).map markedKey

theorem length_fullMarks : fullMarks.length = maxMarks := by
  unfold fullMarks
  rw [length_map, length_range]

theorem card_fullMarks : fullMarks.toFinset.card = maxMarks := by
  have hnodup : fullMarks.Nodup := by
    unfold fullMarks
    exact nodup_range.map markedKey_injective
  rw [toFinset_card_of_nodup hnodup, length_fullMarks]

theorem aKey_notMem_fullMarks : aKey ∉ fullMarks.toFinset := fun hin => by
  unfold fullMarks at hin
  obtain ⟨i, -, hi⟩ := mem_map.mp (mem_toFinset.mp hin)
  cases i with
  | zero => cases hi
  | succ i => cases hi

/-- The reclaim takes the key from its policy and does not mark it. -/
def Loses (s : EvictionState S3Fifo) : Prop :=
  Tracks s.policies [0x63] aKey ∧ ¬ Tracks (s.reclaim s3fifo 5 [[0x63]]).policies [0x63] aKey ∧
    aKey ∉ (s.reclaim s3fifo 5 [[0x63]]).marks

theorem loses_of_full {marks : Finset Bytes} (marksLen : ℕ) (hfull : maxMarks ≤ marks.card)
    (hnew : aKey ∉ marks) : Loses { oneKey with marks, marksLen } := by
  have hgone : (chosen s3fifo 5 [[0x63]] oneKey.policies []).2 = [aKey] ∧
      ((chosen s3fifo 5 [[0x63]] oneKey.policies []).1 [0x63]).map
          (·.contains aKey) = some false := by
    decide
  let s : EvictionState S3Fifo := { oneKey with marks, marksLen }
  have hcount : s.evictableCount ≠ 0 := show oneKey.evictableCount ≠ 0 by decide
  have hreclaim : s.reclaim s3fifo 5 [[0x63]] =
      { s with policies := (chosen s3fifo 5 [[0x63]] oneKey.policies []).1 } := by
    rw [reclaim_of_count hcount]
    simp only [s, hgone.1, foldl_cons, foldl_nil]
    exact if_pos ⟨hfull, hnew⟩
  change Loses s
  rw [Loses, hreclaim]
  refine ⟨⟨_, rfl, by decide⟩, fun ⟨p, hp, hin⟩ => ?_, hnew⟩
  dsimp only at hp
  rw [hp, Option.map_some, hin] at hgone
  cases hgone.2

def trackedBytes (s : EvictionState S3Fifo) (order : List Bytes) (key : Bytes) : ℕ :=
  (order.map fun ns => (s.policies ns).elim 0 fun p => (p.sizes.get key).getD 0).sum

/-- The tracked bytes a reclaim marks. -/
def markedBytes (s : EvictionState S3Fifo) (want : ℕ) (order : List Bytes) : ℕ :=
  (((chosen s3fifo want order s.policies []).2.filter
    (· ∈ (s.reclaim s3fifo want order).marks)).map (s.trackedBytes order)).sum

/-- The tracked bytes of the last key chosen. -/
def lastBytes (s : EvictionState S3Fifo) (want : ℕ) (order : List Bytes) : ℕ :=
  ((chosen s3fifo want order s.policies []).2.getLast?).elim 0 (s.trackedBytes order)

/-- The namespace's policy, if it has one, tracks nothing. -/
def Idle (policies : Bytes → Option S3Fifo) (ns : Bytes) : Prop :=
  ∀ p, policies ns = some p → p.queue = []

theorem reclaimTo_of_queue_nil (hp : p.Sound) (h : p.queue = []) (target : ℕ) :
    p.reclaimTo target = (p, []) := by
  rw [reclaimTo, reclaimWithin, if_neg]
  rw [hp.residentBytes_eq, h]
  exact Nat.not_lt_zero _

theorem chosen_idle {keys : List Bytes} (hsound : AllSound policies)
    (hidle : ∀ ns ∈ order, Idle policies ns) :
    (chosen s3fifo want order policies keys).2 = keys := by
  induction order with
  | nil => rfl
  | cons ns order ih =>
    obtain ⟨hns, horder⟩ := forall_mem_cons.mp hidle
    rw [chosen]
    cases hp : policies ns with
    | none => exact ih horder
    | some p =>
      have hgiven : s3fifo.reclaimTo (s3fifo.residentBytes p - want) p = (p, []) :=
        reclaimTo_of_queue_nil (hsound ns p hp) (hns p hp) _
      have hsame : update policies ns (some p) = policies := by
        rw [← hp, Function.update_eq_self]
      simp only [hgiven, append_nil, hsame]
      split
      · rfl
      · exact ih horder

/-- Where one policy tracks keys, those given up are its own. -/
theorem chosen_of_idle (hsound : AllSound policies) (hnodup : order.Nodup) (hns : ns ∈ order)
    (hp : policies ns = some p) (hidle : ∀ ns' ∈ order, ns' ≠ ns → Idle policies ns') :
    (chosen s3fifo want order policies []).2 = (p.reclaimTo (p.residentBytes - want)).2 := by
  induction order with
  | nil => cases hns
  | cons ns' order ih =>
    obtain ⟨hnot, hnodup⟩ := nodup_cons.mp hnodup
    obtain ⟨hfirst, hidle⟩ := forall_mem_cons.mp hidle
    rw [chosen]
    by_cases hhere : ns' = ns
    · subst hhere
      simp only [hp, nil_append]
      split
      · rfl
      · have hdone := reclaimWithin_spec (hsound ns' p hp)
          (p.residentBytes - want) (p.queue.length + 1)
        refine chosen_idle (hsound.update ns' hdone.sound) fun ns hin => ?_
        have hne : ns ≠ ns' := ne_of_mem_of_not_mem hin hnot
        intro q hq
        exact hidle ns hin hne q ((update_of_ne hne ..).symm.trans hq)
    · have hrest := ih hnodup ((mem_cons.mp hns).resolve_left (Ne.symm hhere)) hidle
      cases hp' : policies ns' with
      | none => exact hrest
      | some q =>
        have hgiven : s3fifo.reclaimTo (s3fifo.residentBytes q - want) q = (q, []) :=
          reclaimTo_of_queue_nil (hsound ns' q hp') (hfirst hhere q hp') _
        have hsame : update policies ns' (some q) = policies := by
          rw [← hp', Function.update_eq_self]
        simp only [hgiven, append_nil, hsame]
        exact hrest

theorem trackedBytes_of_idle (hsound : AllSound s.policies) (hnodup : order.Nodup)
    (hns : ns ∈ order) (hp : s.policies ns = some p)
    (hidle : ∀ ns' ∈ order, ns' ≠ ns → Idle s.policies ns') (key : Bytes) :
    s.trackedBytes order key = (p.sizes.get key).getD 0 := by
  have hother : ∀ ns' ∈ order, ns' ≠ ns →
      ((s.policies ns').elim 0 fun p => (p.sizes.get key).getD 0) = 0 := fun ns' hin hne => by
    cases hq : s.policies ns' with
    | none => rfl
    | some q =>
      have hgone : ¬ (q.sizes.get key).isSome = true := by
        rw [(hsound ns' q hq).sizes key, hidle ns' hin hne q hq]
        exact not_mem_nil
      rw [Option.elim_some, Option.not_isSome_iff_eq_none.mp hgone]
      rfl
  have hperm := (perm_cons_erase hns).map fun ns =>
    (s.policies ns).elim 0 fun p => (p.sizes.get key).getD 0
  rw [trackedBytes, hperm.sum_eq, map_cons, sum_cons, hp, Option.elim_some, Nat.add_eq_left,
    sum_eq_zero_iff]
  intro n hn
  obtain ⟨ns', hin, rfl⟩ := mem_map.mp hn
  obtain ⟨hne, hin⟩ := hnodup.mem_erase_iff.mp hin
  exact hother ns' hin hne

/-- A second namespace with a policy that tracks nothing. -/
def besideEmpty : EvictionState S3Fifo :=
  { oneKey with policies := update oneKey.policies [0x64] (some (.new 100)) }

/-- Two namespaces with two keys each, of a byte each. -/
def twoSpaces : EvictionState S3Fifo :=
  after s3fifo ([.setEvictable [[0x61], [0x62]], .setCapacityHint 100 true] ++
    [0x61, 0x62].flatMap fun ns => [.noteWrite [0x4d, 1, ns, 0, 7, 1] 1 true,
      .noteWrite [0x4d, 1, ns, 0, 7, 2] 1 true])

end EvictionState

end

end Flint
