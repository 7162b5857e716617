import FlintCache.Lib.Text
import FlintCache.Migrate.Slot

/-!
# Backup/Restore — what a restore writes, against what it verified

A restore reads its set twice: `loadVerified` hashes every listed object; then each object of a pair
is read again and copied, checked as it is written.  Every read may fail, end early or give other
bytes than the one before.  The control plane's state is copied last, and that copy is not checked.
-/

namespace Flint

section

open List

/-- What one read of an object gives: its bytes, and whether it then broke off with an error. -/
inductive Fetch
  | notFound
  | failed
  | stream (bytes : Bytes) (broken : Bool)
  deriving DecidableEq, Repr

/-- An object store; its answers depend on how many objects were read before. -/
structure FlakyStore where
  «open» : ℕ → String → Fetch
  list : Option (List String)

/-- One object of a backup set, as its manifest lists it. -/
structure ObjectRecord where
  key : String
  bytes : ℕ
  sha256 : String
  deriving DecidableEq, Repr

/-- What a set consists of; it is written last. -/
structure BackupManifest where
  pairs : List ℕ
  objects : List ObjectRecord
  deriving DecidableEq, Repr

/-- Why a restore fails. -/
inductive BackupError
  | malformed (what : String)
  | checksum (key expected found : String)
  | missing (key : String)
  | unlisted (key : String)
  | copy (key : String) (wrote : ℕ) (found : String) (bytes : ℕ) (expected : String)
  | io
  | scrub (pair : ℕ)
  deriving DecidableEq, Repr

/-- Where a restore writes: under a name in a pair's directory, or the control plane's state. -/
inductive RestorePath
  | pair (index : ℕ) (name : String)
  | cpState
  deriving DecidableEq, Repr

/-- What a restore runs on: store, digest, manifest reader, file names, and the scrub's verdict. -/
structure RestoreWorld (φ : Type) where
  store : FlakyStore
  sha256 : Bytes → String
  parse : Bytes → Except BackupError BackupManifest
  file : RestorePath → φ
  scrubbed : ℕ → Bool

def pairFile (index : ℕ) (key : String) : Option String :=
  let stem := s!"pairs/{index}/".toList
  if stem.isPrefixOf key.toList then some (String.ofList (key.toList.drop stem.length)) else none

namespace RestoreWorld

variable {φ : Type} [DecidableEq φ] (w : RestoreWorld φ)

def fetch (n : ℕ) (key : String) : Except BackupError Bytes :=
  match w.store.open n key with
  | .stream bytes false => .ok bytes
  | .notFound => .error (.missing key)
  | _ => .error .io

def verifyObjects : List ObjectRecord → ℕ → Except BackupError ℕ
  | [], n => .ok n
  | o :: objects, n => do
    let bytes ← w.fetch n o.key
    if w.sha256 bytes = o.sha256 then verifyObjects objects (n + 1)
    else .error (.checksum o.key o.sha256 (w.sha256 bytes))

def verify (m : BackupManifest) (n : ℕ) : Except BackupError ℕ := do
  let n ← w.verifyObjects m.objects n
  match w.store.list with
  | none => .error .io
  | some keys =>
    match keys.find? fun key => key ≠ "manifest" ∧ key ∉ m.objects.map ObjectRecord.key with
    | some key => .error (.unlisted key)
    | none => .ok n

def loadVerified : Except BackupError (BackupManifest × ℕ) := do
  let raw ← w.fetch 0 "manifest"
  let m ← w.parse raw
  let n ← w.verify m 1
  pure (m, n)

def copyVerified (n : ℕ) (o : ObjectRecord) : Except BackupError Bytes := do
  let bytes ← w.fetch n o.key
  if bytes.length ≠ o.bytes ∨ w.sha256 bytes ≠ o.sha256 then
    .error (.copy o.key bytes.length (w.sha256 bytes) o.bytes o.sha256)
  else .ok bytes

def copyPair (index : ℕ) :
    List ObjectRecord → ℕ → (φ → Option Bytes) → Except BackupError (ℕ × (φ → Option Bytes))
  | [], n, files => .ok (n, files)
  | o :: objects, n, files =>
    match pairFile index o.key with
    | none => copyPair index objects n files
    | some name => do
      let bytes ← w.copyVerified n o
      copyPair index objects (n + 1)
          (Function.update files (w.file (.pair index name)) (some bytes))

def copyPairs (m : BackupManifest) :
    List ℕ → ℕ → (φ → Option Bytes) → Except BackupError (ℕ × (φ → Option Bytes))
  | [], n, files => .ok (n, files)
  | index :: pairs, n, files => do
    let (n, files) ← w.copyPair index m.objects n files
    if w.scrubbed index then copyPairs m pairs n files else .error (.scrub index)

/-- **A restore**: the manifest it verified and the files it wrote. -/
def restore : Except BackupError (BackupManifest × (φ → Option Bytes)) := do
  let (m, n) ← w.loadVerified
  let (n, files) ← w.copyPairs m m.pairs n fun _ => none
  let state ← w.fetch n "cp-state"
  pure (m, Function.update files (w.file .cpState) (some state))

def Restores (m : BackupManifest) (path : φ) (o : ObjectRecord) : Prop :=
  (∃ index ∈ m.pairs, ∃ name, pairFile index o.key = some name ∧ w.file (.pair index name) = path) ∨
    (o.key = "cp-state" ∧ w.file .cpState = path)

def Installed (m : BackupManifest) (files : φ → Option Bytes) : Prop :=
  ∀ path bytes, files path = some bytes → ∃ o ∈ m.objects, w.Restores m path o ∧
    bytes.length = o.bytes ∧ w.sha256 bytes = o.sha256

/-- The control plane's state reads the same each time, and is listed with its length. -/
def StateSteady (m : BackupManifest) : Prop :=
  ∃ state, (∀ n bytes, w.store.open n "cp-state" = .stream bytes false → bytes = state) ∧
    ∃ o ∈ m.objects, o.key = "cp-state" ∧ o.bytes = state.length

/-! ## What is written -/

variable {w} {m : BackupManifest} {files files' : φ → Option Bytes} {n n' : ℕ}

theorem bind_eq_ok {α β : Type} {x : Except BackupError α} {f : α → Except BackupError β} {b : β} :
    (x >>= f) = .ok b ↔ ∃ a, x = .ok a ∧ f a = .ok b := by
  cases x with
  | error e => exact ⟨nofun, fun h => by cases h.choose_spec.1⟩
  | ok a =>
    refine ⟨fun h => ⟨a, rfl, h⟩, fun h => ?_⟩
    obtain ⟨_, ha, h⟩ := h
    cases ha
    exact h

variable {bytes : Bytes}

omit [DecidableEq φ] in
theorem open_of_fetch {key : String} (h : w.fetch n key = .ok bytes) :
    w.store.open n key = .stream bytes false := by
  unfold fetch at h
  split at h
  · next hopen =>
    cases h
    exact hopen
  · cases h
  · cases h

variable {o : ObjectRecord}

omit [DecidableEq φ] in
theorem of_copyVerified (h : w.copyVerified n o = .ok bytes) :
    bytes.length = o.bytes ∧ w.sha256 bytes = o.sha256 := by
  obtain ⟨fetched, -, h⟩ := bind_eq_ok.mp h
  split at h
  · cases h
  · next hsame =>
    cases h
    simpa using hsame

theorem Installed.update (h : w.Installed m files) (ho : o ∈ m.objects)
    {path : φ} (hpath : w.Restores m path o) (hlen : bytes.length = o.bytes)
    (hsha : w.sha256 bytes = o.sha256) :
    w.Installed m (Function.update files path (some bytes)) := by
  intro path' bytes' hfile
  obtain ⟨rfl, ⟨⟩⟩ | ⟨-, hfile⟩ := update_eq_some_iff.mp hfile
  · exact ⟨o, ho, hpath, hlen, hsha⟩
  · exact h path' bytes' hfile

variable {objects : List ObjectRecord}

theorem Installed.copyPair {index : ℕ} (hindex : index ∈ m.pairs)
    (hsub : objects ⊆ m.objects) (hin : w.Installed m files)
    (h : w.copyPair index objects n files = .ok (n', files')) : w.Installed m files' := by
  induction objects generalizing n files with
  | nil =>
    cases h
    exact hin
  | cons o objects ih =>
    obtain ⟨ho, hsub⟩ := cons_subset.mp hsub
    rw [RestoreWorld.copyPair] at h
    split at h
    · exact ih hsub hin h
    · next name hname =>
      obtain ⟨bytes, hcopy, h⟩ := bind_eq_ok.mp h
      obtain ⟨hlen, hsha⟩ := of_copyVerified hcopy
      exact ih hsub (hin.update ho (.inl ⟨index, hindex, name, hname, rfl⟩) hlen hsha) h

theorem Installed.copyPairs {pairs : List ℕ} (hsub : pairs ⊆ m.pairs) (hin : w.Installed m files)
    (h : w.copyPairs m pairs n files = .ok (n', files')) : w.Installed m files' := by
  induction pairs generalizing n files with
  | nil =>
    cases h
    exact hin
  | cons index pairs ih =>
    obtain ⟨hindex, hsub⟩ := cons_subset.mp hsub
    obtain ⟨⟨n₁, files₁⟩, hpair, h⟩ := bind_eq_ok.mp h
    have hin₁ := hin.copyPair hindex (List.Subset.refl _) hpair
    dsimp only at h
    split at h
    · exact ih hsub hin₁ h
    · cases h

omit [DecidableEq φ] in
theorem of_verifyObjects (h : w.verifyObjects objects n = .ok n') :
    ∀ o ∈ objects, ∃ i bytes, w.store.open i o.key = .stream bytes false ∧
      w.sha256 bytes = o.sha256 := by
  induction objects generalizing n with
  | nil => exact nofun
  | cons o objects ih =>
    obtain ⟨bytes, hfetch, h⟩ := bind_eq_ok.mp h
    split at h
    · next hsha =>
      intro o' ho'
      obtain rfl | ho' := mem_cons.mp ho'
      · exact ⟨n, bytes, open_of_fetch hfetch, hsha⟩
      · exact ih h o' ho'
    · cases h

/-- **A restore that succeeds has written what its manifest records**, where the control plane's
state is listed with its length and reads the same each time. -/
theorem restore_installs (w : RestoreWorld φ) (h : w.restore = .ok (m, files))
    (hsteady : w.StateSteady m) : w.Installed m files := by
  obtain ⟨⟨m₁, n₁⟩, hload, h⟩ := bind_eq_ok.mp h
  obtain ⟨⟨n₂, files₂⟩, hpairs, h⟩ := bind_eq_ok.mp h
  obtain ⟨state, hfetch, h⟩ := bind_eq_ok.mp h
  cases h
  obtain ⟨raw, -, hload⟩ := bind_eq_ok.mp hload
  obtain ⟨m₂, -, hload⟩ := bind_eq_ok.mp hload
  obtain ⟨n₃, hverify, hload⟩ := bind_eq_ok.mp hload
  cases hload
  obtain ⟨n₄, hobjects, -⟩ := bind_eq_ok.mp hverify
  have hin : w.Installed m files₂ :=
    Installed.copyPairs (List.Subset.refl _) (fun _ _ hfile => by cases hfile) hpairs
  obtain ⟨steady, hsame, o, ho, hkey, hlen⟩ := hsteady
  obtain ⟨i, bytes, hread, hsha⟩ := of_verifyObjects hobjects o ho
  obtain rfl := hsame n₂ state (open_of_fetch hfetch)
  obtain rfl := hsame i bytes (hkey ▸ hread)
  exact hin.update ho (.inr ⟨hkey, rfl⟩) hlen.symm hsha

/-! ## Sets of one file -/

/-- A set of nothing but the control plane's state, whose reads after the first give `later`. -/
def stateOnly (later : Bytes) : RestoreWorld RestorePath where
  store :=
    { «open» := fun n key =>
        if key = "cp-state" then .stream (if n = 1 then [1, 2] else later) false
        else .stream [] false
      list := some ["cp-state", "manifest"] }
  sha256 bytes := if bytes.length = 2 then "2" else ""
  parse _ := .ok ⟨[], [⟨"cp-state", 2, "2"⟩]⟩
  file := id
  scrubbed _ := true

theorem restore_stateOnly (later : Bytes) : (stateOnly later).restore =
    .ok (⟨[], [⟨"cp-state", 2, "2"⟩]⟩, Function.update (fun _ => none) .cpState (some later)) :=
  rfl

theorem restore_installs_state : (stateOnly [1, 2]).Installed ⟨[], [⟨"cp-state", 2, "2"⟩]⟩
    (Function.update (fun _ => none) .cpState (some [1, 2])) := by
  refine restore_installs _ (restore_stateOnly [1, 2]) ⟨[1, 2], fun n bytes h => ?_,
    _, mem_singleton_self _, rfl, rfl⟩
  have hread : (stateOnly [1, 2]).store.open n "cp-state" = .stream [1, 2] false := by
    show Fetch.stream (if n = 1 then [1, 2] else [1, 2]) false = _
    rw [ite_self]
  rw [hread] at h
  exact (Fetch.stream.inj h).1.symm

/-- **A state cut short on the way is installed as it is.** -/
theorem restore_installs_short_state : ∃ files,
    (stateOnly [1]).restore = .ok (⟨[], [⟨"cp-state", 2, "2"⟩]⟩, files) ∧
      ¬ (stateOnly [1]).Installed ⟨[], [⟨"cp-state", 2, "2"⟩]⟩ files := by
  refine ⟨_, restore_stateOnly [1], fun h => ?_⟩
  obtain ⟨o, ho, -, hlen, -⟩ := h .cpState [1] rfl
  obtain rfl := mem_singleton.mp ho
  exact absurd hlen (by decide)

end RestoreWorld

end

/-! ## Which sets a scheduled backup deletes

All completed sets but the newest `keep`, and a set without a manifest when its id is older than an
interval.  A listing that fails counts as empty. -/

section

open List
open String (ofList toList_append toList_ofList)

/-- Which listings, by prefix, and which deletions, by key, fail.  A sweep makes no call twice. -/
structure StoreFaults where
  list : String → Bool := fun _ => false
  delete : String → Bool := fun _ => false

def manifestKey : String := "manifest"

def under (p : String) (objects : List String) : List String :=
  objects.filter fun key => p.toList.isPrefixOf key.toList

def setOf (key : String) : String := ofList (key.toList.takeWhile (· ≠ '/'))

def isSetId (id : String) : Bool := "backup-".toList.isPrefixOf id.toList

def setIds (keys : List String) : List String :=
  (((keys.map setOf).filter isSetId).insertionSort (· ≤ ·)).dedup

def setIdMs (id : String) : Option ℕ :=
  if isSetId id then parseUnsigned 64 (ofList (id.toList.drop 7)) else none

def hasManifest (objects : List String) (id : String) : Bool :=
  under (id ++ "/" ++ manifestKey) objects ≠ []

/-- An id has the millisecond its backup started, so the newest are the last. -/
def newest (keep : ℕ) (objects : List String) : List String :=
  ((setIds objects).filter (hasManifest objects)).rtake keep

namespace StoreFaults

variable (f : StoreFaults)

def listed (objects : List String) (p : String) : List String :=
  if f.list p then [] else under p objects

def manifested (objects : List String) (id : String) : Bool :=
  f.listed objects (id ++ "/" ++ manifestKey) ≠ []

def deleteAll : List String → List String → List String × Bool
  | [], objects => (objects, true)
  | key :: keys, objects =>
    if f.delete key then (objects, false) else deleteAll keys (objects.filter (· ≠ key))

def wipe (objects : List String) (id : String) : List String × Bool :=
  f.deleteAll (f.listed objects (id ++ "/")) objects

/-- The completed sets and the objects left: dead partial sets are swept on the way. -/
def completed (deadBefore : ℕ) : List String → List String → List String × List String
  | [], objects => ([], objects)
  | id :: ids, objects =>
    if f.manifested objects id then
      let (done, left) := completed deadBefore ids objects
      (id :: done, left)
    else if (setIdMs id).any (· < deadBefore) then completed deadBefore ids (f.wipe objects id).1
    else completed deadBefore ids objects

def prune : List String → List String → List String
  | [], objects => objects
  | id :: ids, objects =>
    if (f.wipe objects id).2 then prune ids (f.wipe objects id).1 else (f.wipe objects id).1

def sweep (keep nowMs everyMs : ℕ) (objects : List String) : List String :=
  let (done, left) := f.completed (nowMs - everyMs) (setIds (f.listed objects "")) objects
  f.prune (done.rdrop keep) left

end StoreFaults

open StoreFaults

/-! ## Keys and their sets -/

variable {f : StoreFaults} {key id : String} {objects left keys ids : List String}

theorem setOf_eq (hid : Free '/' id) (h : (id ++ "/").toList <+: key.toList) : setOf key = id := by
  obtain ⟨rest, hrest⟩ := h
  rw [setOf, ← hrest, toList_append, append_assoc,
    takeWhile_append_of_pos fun c hc => by simpa using ne_of_mem_of_not_mem hc hid]
  simp

theorem free_setOf (key : String) : Free '/' (setOf key) := by
  rw [Free, setOf, toList_ofList]
  exact fun h => by simpa using mem_takeWhile_imp h

theorem free_of_mem_setIds (h : id ∈ setIds keys) : Free '/' id := by
  simp only [setIds, mem_dedup, mem_insertionSort, mem_filter, mem_map] at h
  obtain ⟨⟨key, -, rfl⟩, -⟩ := h
  exact free_setOf key

theorem hasManifest_iff : hasManifest objects id ↔
      ∃ key ∈ objects, (id ++ "/" ++ manifestKey).toList <+: key.toList := by
  simp [hasManifest, under, eq_nil_iff_forall_not_mem]

/-! ## What a sweep leaves -/

theorem deleteAll_subset : (f.deleteAll keys objects).1 ⊆ objects := by
  induction keys generalizing objects with
  | nil => exact fun _ => id
  | cons key keys ih =>
    rw [deleteAll]
    split
    · exact fun _ => id
    · exact fun _ h => mem_of_mem_filter (ih h)

theorem mem_deleteAll (hkey : key ∈ objects) (hkeys : key ∉ keys) :
    key ∈ (f.deleteAll keys objects).1 := by
  induction keys generalizing objects with
  | nil => exact hkey
  | cons key' keys ih =>
    obtain ⟨hne, hkeys⟩ := not_or.mp (mt mem_cons.mpr hkeys)
    rw [deleteAll]
    split
    · exact hkey
    · exact ih (mem_filter.mpr ⟨hkey, by simpa using hne⟩) hkeys

theorem mem_listed_wipe (h : key ∈ f.listed objects (id ++ "/")) :
    (id ++ "/").toList <+: key.toList := by
  rw [listed] at h
  split at h
  · cases h
  · simpa [under] using (mem_filter.mp h).2

theorem mem_wipe (hid : Free '/' id) (hkey : key ∈ objects) (hset : setOf key ≠ id) :
    key ∈ (f.wipe objects id).1 := by
  exact mem_deleteAll hkey fun h => hset (setOf_eq hid (mem_listed_wipe h))

theorem completed_subset {deadBefore : ℕ} : (f.completed deadBefore ids objects).2 ⊆ objects := by
  induction ids generalizing objects with
  | nil => exact fun _ => id
  | cons id ids ih =>
    rw [completed]
    split_ifs
    · exact ih
    · exact fun _ h => deleteAll_subset (ih h)
    · exact ih

theorem prune_subset : f.prune ids objects ⊆ objects := by
  induction ids generalizing objects with
  | nil => exact fun _ => id
  | cons id ids ih =>
    rw [prune]
    split
    · exact fun _ h => deleteAll_subset (ih h)
    · exact deleteAll_subset

theorem under_deleteAll {p : String} (h : ∀ key ∈ keys, ¬ p.toList <+: key.toList) :
    under p (f.deleteAll keys objects).1 = under p objects := by
  induction keys generalizing objects with
  | nil => rfl
  | cons key keys ih =>
    obtain ⟨hkey, hkeys⟩ := forall_mem_cons.mp h
    rw [deleteAll]
    split
    · rfl
    · rw [ih hkeys, under, under, filter_filter]
      refine filter_congr fun key' _ => ?_
      by_cases heq : key' = key
      · have hno : p.toList.isPrefixOf key.toList = false := by
          rwa [← Bool.not_eq_true, isPrefixOf_iff_prefix]
        simp [heq, hno]
      · simp [heq]

/-- To sweep one set does not touch another. -/
theorem under_wipe_of_ne (f : StoreFaults) (objects : List String) {id' : String}
    (hid : Free '/' id) (hid' : Free '/' id') (hne : id' ≠ id) :
    under (id ++ "/") (f.wipe objects id').1 = under (id ++ "/") objects := by
  refine under_deleteAll fun key hkey hin => hne ?_
  rw [← setOf_eq hid' (mem_listed_wipe hkey), setOf_eq hid hin]

theorem hasManifest_mono (h : left ⊆ objects) (hm : hasManifest left id) :
    hasManifest objects id := by
  obtain ⟨key, hkey, hp⟩ := hasManifest_iff.mp hm
  exact hasManifest_iff.mpr ⟨key, h hkey, hp⟩

theorem mem_under {p : String} :
    key ∈ under p objects ↔ key ∈ objects ∧ p.toList <+: key.toList := by
  rw [under, mem_filter, isPrefixOf_iff_prefix]

theorem mem_under_of_manifest (hkey : key ∈ objects)
    (h : (id ++ "/" ++ manifestKey).toList <+: key.toList) : key ∈ under (id ++ "/") objects := by
  rw [toList_append] at h
  exact mem_under.mpr ⟨hkey, (prefix_append _ _).trans h⟩

theorem hasManifest_of_under (h : under (id ++ "/") left = under (id ++ "/") objects)
    (hm : hasManifest objects id) : hasManifest left id := by
  obtain ⟨key, hkey, hp⟩ := hasManifest_iff.mp hm
  have hin := mem_under_of_manifest hkey hp
  rw [← h] at hin
  exact hasManifest_iff.mpr ⟨key, (mem_under.mp hin).1, hp⟩

/-- **What saves a completed set**: its manifest is listed, or its id is too young to be swept, or
the sweep of it fails before it has deleted anything. -/
def StoreFaults.Spares (f : StoreFaults) (deadBefore : ℕ) (objects : List String) (id : String) :
    Prop :=
  f.list (id ++ "/" ++ manifestKey) = false ∨ (setIdMs id).any (· < deadBefore) = false ∨
    f.list (id ++ "/") = true ∨ (under (id ++ "/") objects).head?.any f.delete = true

theorem wipe_of_fails (h : f.list (id ++ "/") = true ∨
    (under (id ++ "/") objects).head?.any f.delete = true) : (f.wipe objects id).1 = objects := by
  rw [wipe, listed]
  split
  · rfl
  next hlists =>
  have hfirst := h.resolve_left hlists
  cases hunder : under (id ++ "/") objects with
  | nil => rfl
  | cons key keys =>
    rw [hunder, head?_cons, Option.any_some] at hfirst
    rw [deleteAll, if_pos hfirst]

theorem completed_of_spares {deadBefore : ℕ} (hid : Free '/' id) (hids : ∀ id ∈ ids, Free '/' id)
    (hm : hasManifest objects id) (h : f.Spares deadBefore objects id) :
    under (id ++ "/") (f.completed deadBefore ids objects).2 = under (id ++ "/") objects := by
  induction ids generalizing objects with
  | nil => rfl
  | cons id' ids ih =>
    obtain ⟨hid', hids⟩ := forall_mem_cons.mp hids
    rw [completed]
    split_ifs with hdone hdead
    · exact ih hids hm h
    · by_cases heq : id' = id
      · subst heq
        -- The listing of its manifest failed, and the sweep of it fails too.
        have hlist : f.list (id' ++ "/" ++ manifestKey) ≠ false := fun hlist => hdone (by
          rw [manifested, listed, hlist]
          exact hm)
        have hsame : (f.wipe objects id').1 = objects :=
          wipe_of_fails ((h.resolve_left hlist).resolve_left (by rw [hdead]; exact nofun))
        rw [hsame]
        exact ih hids hm h
      · have hsame := under_wipe_of_ne f objects hid hid' heq
        rw [ih hids (hasManifest_of_under hsame hm) (by rwa [Spares, hsame]), hsame]
    · exact ih hids hm h

theorem completed_of_not_spares {deadBefore : ℕ} (hid : Free '/' id)
    (hids : ∀ id ∈ ids, Free '/' id) (hin : id ∈ ids) (h : ¬ f.Spares deadBefore objects id)
    (hkey : (under (id ++ "/") objects).head? = some key) :
    key ∉ (f.completed deadBefore ids objects).2 := by
  rw [Spares, not_or, not_or, not_or] at h
  obtain ⟨hlist, hold, hlists, hdeletes⟩ := h
  induction ids generalizing objects with
  | nil => cases hin
  | cons id' ids ih =>
    obtain ⟨hid', hids⟩ := forall_mem_cons.mp hids
    rw [completed]
    by_cases heq : id' = id
    · subst heq
      have hmissed : ¬ f.manifested objects id' = true := by
        rw [manifested, listed, if_pos ((Bool.not_eq_false _).mp hlist)]
        simp
      rw [if_neg hmissed, if_pos ((Bool.not_eq_false _).mp hold)]
      refine fun hleft => ?_
      have hwiped := completed_subset hleft
      obtain ⟨keys, hunder⟩ := head?_eq_some_iff.mp hkey
      rw [hkey, Option.any_some] at hdeletes
      rw [wipe, listed, if_neg hlists, hunder, deleteAll, if_neg hdeletes] at hwiped
      simpa using (mem_filter.mp (deleteAll_subset hwiped)).2
    · have hin : id ∈ ids := (mem_cons.mp hin).resolve_left (Ne.symm heq)
      split_ifs
      · exact ih hids hin hkey hdeletes
      · have hsame := under_wipe_of_ne f objects hid hid' heq
        exact ih hids hin (by rwa [hsame]) (by rwa [hsame])
      · exact ih hids hin hkey hdeletes

/-- What counts as completed is so, though some of it may be missed. -/
theorem completed_sublist (deadBefore : ℕ) :
    (f.completed deadBefore ids objects).1 <+ ids.filter (hasManifest objects) := by
  induction ids generalizing objects with
  | nil => exact Sublist.slnil
  | cons id ids ih =>
    rw [completed]
    split_ifs with hdone hdead
    · have hm : hasManifest objects id = true := by
        rw [manifested, listed] at hdone
        split at hdone
        · simp at hdone
        · exact hdone
      rw [filter_cons_of_pos hm]
      exact ih.cons_cons id
    · refine (ih.trans (monotone_filter_right ids fun id' =>
        hasManifest_mono deleteAll_subset)).trans ?_
      exact (sublist_cons_self id ids).filter _
    · exact ih.trans ((sublist_cons_self id ids).filter _)

theorem mem_prune (hids : ∀ id ∈ ids, Free '/' id) (hkey : key ∈ objects) (hset : setOf key ∉ ids) :
    key ∈ f.prune ids objects := by
  induction ids generalizing objects with
  | nil => exact hkey
  | cons id ids ih =>
    obtain ⟨hid, hids⟩ := forall_mem_cons.mp hids
    obtain ⟨hne, hset⟩ := not_or.mp (mt mem_cons.mpr hset)
    have hwipe := mem_wipe hid hkey hne (f := f)
    rw [prune]
    split
    · exact ih hids hwipe hset
    · exact hwipe

theorem rdrop_sublist {l l' : List String} (h : l <+ l') (n : ℕ) : l.rdrop n <+ l'.rdrop n := by
  rw [rdrop_eq_reverse_drop_reverse, rdrop_eq_reverse_drop_reverse]
  exact ((h.reverse).drop n).reverse

def twoObjects : List String := ["backup-1/data", "backup-1/manifest"]

end

end Flint
