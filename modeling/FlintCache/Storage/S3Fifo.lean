import FlintCache.Lib.Machine
import FlintCache.Storage.Batch

/-!
# Storage/S3Fifo — which keys the admission policy gives up

New keys enter `small`, reused ones go on to `main`, and `ghost` remembers the keys that left
`small` unused.  Sizes and byte counters are `u64`s that wrap.  `Sound` relates the queues, the two
maps and the counters; a turn of the eviction hand (`Turned`) drops a key or spends a use.
-/

namespace Flint

open Nat
open SortedRows
open List (append_assoc mem_append mem_cons mem_cons_self nodup_cons perm_middle)
open Option

/-- The two queues, the ghosts and the tracked keys. -/
structure S3Fifo where
  capacityBytes : ℕ
  small : List Bytes := []
  main : List Bytes := []
  ghost : List Bytes := []
  ghostSet : Finset Bytes := ∅
  sizes : SortedRows Bytes ℕ := .empty
  freq : SortedRows Bytes ℕ := .empty
  smallBytes : ℕ := 0
  mainBytes : ℕ := 0

inductive S3Call
  | onAdmit (key : Bytes) (bytes : ℕ)
  | onAccess (key : Bytes)
  | forget (key : Bytes)
  | evictOne
  | reclaimTo (target : ℕ)
  | setCapacityBytes (bytes : ℕ)
  deriving DecidableEq, Repr

def S3Call.bytes : S3Call → ℕ
  | .onAdmit _ bytes => bytes
  | _ => 0

namespace S3Fifo

def new (capacity : ℕ) : S3Fifo := { capacityBytes := capacity }

def freqMax : ℕ := 3

def ghostMin : ℕ := 16

variable (s : S3Fifo) (key : Bytes)

def residentBytes : ℕ := (s.smallBytes + s.mainBytes) % 2 ^ 64

def contains : Bool := (s.sizes.get key).isSome

def onAccess : S3Fifo :=
  match s.freq.get key with
  | some f => { s with freq := s.freq.put key (min (f + 1) freqMax) }
  | none => s

def onAdmit (bytes : ℕ) : S3Fifo :=
  if s.contains key then s.onAccess key
  else
    let t := { s with sizes := s.sizes.put key bytes, freq := s.freq.put key 0 }
    if key ∈ s.ghostSet then
      { t with
        ghostSet := s.ghostSet.erase key, ghost := s.ghost.erase key
        main := s.main ++ [key], mainBytes := (s.mainBytes + bytes) % 2 ^ 64 }
    else { t with small := s.small ++ [key], smallBytes := (s.smallBytes + bytes) % 2 ^ 64 }

local instance lawfulKeys : LawfulBEq Bytes := inferInstance

def forget : S3Fifo :=
  match s.sizes.get key with
  | none => s
  | some bytes =>
    let t := { s with sizes := s.sizes.erase key, freq := s.freq.erase key }
    if key ∈ s.small then
      { t with small := s.small.erase key, smallBytes := s.smallBytes - bytes }
    else if key ∈ s.main then
      { t with main := s.main.erase key, mainBytes := s.mainBytes - bytes }
    else t

def smallLimit : ℕ := s.capacityBytes * 10 % 2 ^ 64 / 100

/-- The oldest ghosts go while there are more than the limit. -/
def trimGhost (limit : ℕ) : List Bytes → Finset Bytes → List Bytes × Finset Bytes
  | [], set => ([], set)
  | old :: rest, set =>
    if limit < rest.length + 1 then trimGhost limit rest (set.erase old) else (old :: rest, set)

def pushGhost : S3Fifo :=
  let kept := trimGhost (max s.sizes.rows.length ghostMin) (s.ghost ++ [key])
      (insert key s.ghostSet)
  { s with ghost := kept.1, ghostSet := kept.2 }

def stepSmall : S3Fifo × Option Bytes :=
  match s.small with
  | [] => (s, none)
  | key :: rest =>
    match s.sizes.get key with
    | none => ({ s with small := rest }, none)
    | some bytes =>
      let t := { s with small := rest, smallBytes := s.smallBytes - bytes }
      if 0 < (s.freq.get key).getD 0 then
        ({ t with
          freq := s.freq.put key 0, main := s.main ++ [key]
          mainBytes := (s.mainBytes + bytes) % 2 ^ 64 }, none)
      else
        (pushGhost { t with sizes := s.sizes.erase key, freq := s.freq.erase key } key, some key)

def stepMain : S3Fifo × Option Bytes :=
  match s.main with
  | [] => (s, none)
  | key :: rest =>
    match s.sizes.get key with
    | none => ({ s with main := rest }, none)
    | some bytes =>
      let f := (s.freq.get key).getD 0
      if 0 < f then ({ s with main := rest ++ [key], freq := s.freq.put key (f - 1) }, none)
      else
        ({ s with
          main := rest, mainBytes := s.mainBytes - bytes
          sizes := s.sizes.erase key, freq := s.freq.erase key }, some key)

def evictStep : Option (S3Fifo × Option Bytes) :=
  if s.smallLimit < s.smallBytes ∧ s.small ≠ [] then some s.stepSmall
  else if s.main ≠ [] then some s.stepMain
  else if s.small ≠ [] then some s.stepSmall
  else none

def evictWithin : ℕ → S3Fifo → S3Fifo × Option Bytes
  | 0, s => (s, none)
  | budget + 1, s =>
    match s.evictStep with
    | none => (s, none)
    | some (t, some key) => (t, some key)
    | some (t, none) => evictWithin budget t

def evictOne : S3Fifo × Option Bytes := evictWithin (s.small.length + s.main.length + 1) s

abbrev queue : List Bytes := s.small ++ s.main

/-- The loop of `reclaimTo`; every turn gives up a queued key. -/
def reclaimWithin (target : ℕ) : ℕ → S3Fifo → S3Fifo × List Bytes
  | 0, s => (s, [])
  | turns + 1, s =>
    if target < s.residentBytes then
      match s.evictOne with
      | (t, none) => (t, [])
      | (t, some key) =>
        let rest := reclaimWithin target turns t
        (rest.1, key :: rest.2)
    else (s, [])

def reclaimTo (target : ℕ) : S3Fifo × List Bytes := reclaimWithin target (s.queue.length + 1) s

def call : S3Call → S3Fifo
  | .onAdmit key bytes => s.onAdmit key bytes
  | .onAccess key => s.onAccess key
  | .forget key => s.forget key
  | .evictOne => s.evictOne.1
  | .reclaimTo target => (s.reclaimTo target).1
  | .setCapacityBytes bytes => { s with capacityBytes := bytes }

def after (capacity : ℕ) (calls : List S3Call) : S3Fifo := calls.foldl call (new capacity)

/-- No call takes the tracked bytes past what a counter holds. -/
def Fits (s : S3Fifo) : List S3Call → Prop
  | [] => True
  | c :: calls => s.smallBytes + s.mainBytes + c.bytes < 2 ^ 64 ∧ (s.call c).Fits calls

/-- What a map has at some keys, added up. -/
def sumAt (m : SortedRows Bytes ℕ) (keys : List Bytes) : ℕ :=
  (keys.map fun k => (m.get k).getD 0).sum

def KeyedBy (m : SortedRows Bytes ℕ) (keys : List Bytes) : Prop :=
  ∀ k, (m.get k).isSome ↔ k ∈ keys

/-- **The queues, the maps and the counters agree.** -/
structure Sound : Prop where
  nodup : s.queue.Nodup
  sizes : KeyedBy s.sizes s.queue
  freq : KeyedBy s.freq s.queue
  small : s.smallBytes = sumAt s.sizes s.small
  main : s.mainBytes = sumAt s.sizes s.main
  fits : s.smallBytes + s.mainBytes < 2 ^ 64
  ghostNodup : s.ghost.Nodup
  ghostSet : ∀ k, k ∈ s.ghostSet ↔ k ∈ s.ghost
  ghostGone : ∀ k ∈ s.ghost, k ∉ s.queue

/-- The uses a key has to spend. -/
def uses : ℕ := (s.freq.get key).getD 0

/-- The share of `small` is exceeded, so that the eviction hand turns there. -/
abbrev OverSmall : Prop := s.smallLimit < s.smallBytes ∧ s.small ≠ []

/-- **The eviction hand is stuck**: it turns in `main`, and its budget ends before it comes to a key
of `main` for the time after its last use. -/
def Stuck : Prop := ¬ s.OverSmall ∧ s.main ≠ [] ∧ ∀ j k, s.main[j]? = some k →
  s.small.length + s.main.length < s.uses k * s.main.length + j

/-- **The states that reclaiming comes to**: while above the target, one key after another is given
up. -/
inductive Comes (target : ℕ) : S3Fifo → S3Fifo → Prop
  | here {s : S3Fifo} : Comes target s s
  | turn {s t u : S3Fifo} {key : Bytes} : target < s.residentBytes → s.evictOne = (t, some key) →
      Comes target t u → Comes target s u

/-- The eviction hand turned, and `gone` is the key it dropped. -/
structure Turned (t : S3Fifo) (gone : Option Bytes) : Prop where
  sound : t.Sound
  sizes : t.sizes = gone.elim s.sizes s.sizes.erase
  queue : s.queue.Perm (gone.toList ++ t.queue)

/-! ## Keys that come, go and move -/

section

variable {s : S3Fifo} {key : Bytes} {sizes sizes' freq : SortedRows Bytes ℕ} {l l' : List Bytes}

theorem sumAt_congr (h : ∀ k ∈ l, sizes'.get k = sizes.get k) : sumAt sizes' l = sumAt sizes l := by
  refine congrArg List.sum (List.map_congr_left fun k hk => ?_)
  rw [h k hk]

theorem sumAt_put (h : key ∉ l) (v : ℕ) : sumAt (sizes.put key v) l = sumAt sizes l :=
  sumAt_congr fun k hk => by rw [get_put, if_neg (ne_of_mem_of_not_mem hk h)]

theorem sumAt_erase (h : key ∉ l) : sumAt (sizes.erase key) l = sumAt sizes l :=
  sumAt_congr fun k hk => by rw [get_erase, if_neg (ne_of_mem_of_not_mem hk h)]

@[simp] theorem sumAt_nil : sumAt sizes [] = 0 := rfl

@[simp] theorem sumAt_cons : sumAt sizes (key :: l) = (sizes.get key).getD 0 + sumAt sizes l := rfl

@[simp] theorem sumAt_append : sumAt sizes (l ++ l') = sumAt sizes l + sumAt sizes l' := by
  rw [sumAt, List.map_append, List.sum_append]
  rfl

theorem sumAt_perm (h : l.Perm l') : sumAt sizes l = sumAt sizes l' := (h.map _).sum_eq

variable {m : SortedRows Bytes ℕ}

theorem KeyedBy.perm (h : KeyedBy m l) (hperm : l.Perm l') : KeyedBy m l' :=
  fun k => (h k).trans hperm.mem_iff

theorem KeyedBy.put (h : KeyedBy m l) (v : ℕ) : KeyedBy (m.put key v) (key :: l) := fun k => by
  rw [get_put, mem_cons, ← h k]
  split
  · next hk => simp [hk]
  · next hk => simp [hk]

theorem KeyedBy.put_of_mem (h : KeyedBy m l) (hkey : key ∈ l) (v : ℕ) :
    KeyedBy (m.put key v) l := fun k =>
  (h.put v k).trans (mem_cons.trans (or_iff_right_of_imp fun hk => hk ▸ hkey))

theorem KeyedBy.erase (h : KeyedBy m (key :: l)) (hkey : key ∉ l) :
    KeyedBy (m.erase key) l := fun k => by
  have hk := h k
  rw [mem_cons] at hk
  rw [get_erase]
  split
  · next heq => simp [heq, hkey]
  · next hne => simpa [hne] using hk

namespace Sound

variable {small main ghost : List Bytes} {ghostSet : Finset Bytes} {smallBytes mainBytes bytes : ℕ}

theorem mem_trimGhost (limit : ℕ) {l : List Bytes} {set : Finset Bytes} (hl : l.Nodup)
    (hset : ∀ k, k ∈ set ↔ k ∈ l) : (trimGhost limit l set).1 <:+ l ∧
      ∀ k, k ∈ (trimGhost limit l set).2 ↔ k ∈ (trimGhost limit l set).1 := by
  induction l generalizing set with
  | nil => exact ⟨List.suffix_rfl, hset⟩
  | cons old rest ih =>
    obtain ⟨hold, hrest⟩ := nodup_cons.mp hl
    rw [trimGhost]
    split
    · refine (ih hrest fun k => ?_).imp_left fun hsuf => hsuf.trans (List.suffix_cons old rest)
      rw [Finset.mem_erase, hset, mem_cons, and_or_left]
      simp only [ne_eq, not_and_self, false_or, and_iff_right_iff_imp]
      exact fun hk hkold => hold (hkold ▸ hk)
    · exact ⟨List.suffix_rfl, hset⟩

section

variable (h : s.Sound)
include h

theorem residentBytes_eq : s.residentBytes = sumAt s.sizes s.queue := by
  rw [residentBytes, mod_eq_of_lt h.fits, sumAt_append, h.small, h.main]

theorem mem_iff : s.contains key ↔ key ∈ s.queue := h.sizes key

/-- **A key comes** into one of the queues, and is no ghost any more. -/
theorem put (hkey : key ∉ s.queue) (hcome : (small ++ main).Perm (key :: s.queue))
    (hsmall : smallBytes = sumAt (s.sizes.put key bytes) small)
    (hmain : mainBytes = sumAt (s.sizes.put key bytes) main)
    (hfits : s.smallBytes + s.mainBytes + bytes < 2 ^ 64) (hghost : ghost.Nodup)
    (hset : ∀ k, k ∈ ghostSet ↔ k ∈ ghost) (hgone : ∀ k ∈ ghost, k ∈ s.ghost ∧ k ≠ key) :
    Sound { s with
      small, main, ghost, ghostSet, smallBytes, mainBytes
      sizes := s.sizes.put key bytes, freq := s.freq.put key 0 } := by
  refine ⟨hcome.nodup_iff.mpr (nodup_cons.mpr ⟨hkey, h.nodup⟩), (h.sizes.put bytes).perm hcome.symm,
    (h.freq.put 0).perm hcome.symm, hsmall, hmain, ?_, hghost, hset, fun k hk hin => ?_⟩
  · have hsum : sumAt (s.sizes.put key bytes) _ = _ := sumAt_perm hcome
    rw [sumAt_cons, sumAt_put hkey, get_put, if_pos rfl, sumAt_append,
      sumAt_append, ← hsmall, ← hmain, ← h.small, ← h.main, getD_some] at hsum
    show smallBytes + mainBytes < 2 ^ 64
    omega
  · obtain heq | hin := mem_cons.mp (hcome.mem_iff.mp hin)
    · exact (hgone k hk).2 heq
    · exact h.ghostGone k (hgone k hk).1 hin

/-- **A key goes** from its queue and from both maps. -/
theorem erase (hgo : s.queue.Perm (key :: (small ++ main)))
    (hsmall : smallBytes = sumAt s.sizes small) (hmain : mainBytes = sumAt s.sizes main) :
    Sound { s with
      small, main, smallBytes, mainBytes
      sizes := s.sizes.erase key, freq := s.freq.erase key } := by
  obtain ⟨hkey, hnodup⟩ := nodup_cons.mp (hgo.nodup_iff.mp h.nodup)
  refine ⟨hnodup, (h.sizes.perm hgo).erase hkey, (h.freq.perm hgo).erase hkey, ?_, ?_, ?_,
    h.ghostNodup, h.ghostSet, fun k hk hin => ?_⟩
  · exact hsmall.trans (sumAt_erase fun hk => hkey (List.mem_append_left _ hk)).symm
  · exact hmain.trans (sumAt_erase fun hk => hkey (List.mem_append_right _ hk)).symm
  · have hsum : sumAt s.sizes _ = _ := sumAt_perm hgo
    rw [sumAt_cons, sumAt_append, sumAt_append, ← hsmall, ← hmain, ← h.small, ← h.main] at hsum
    exact lt_of_le_of_lt (hsum ▸ le_add_left _ _) h.fits
  · exact h.ghostGone k hk (hgo.mem_iff.mpr (List.mem_cons_of_mem key hin))

/-- **A key moves** between the queues, or within one. -/
theorem move (hmove : s.queue.Perm (small ++ main)) (hfreq : KeyedBy freq s.queue)
    (hsmall : smallBytes = sumAt s.sizes small) (hmain : mainBytes = sumAt s.sizes main) :
    Sound { s with small, main, freq, smallBytes, mainBytes } := by
  refine ⟨hmove.nodup_iff.mp h.nodup, h.sizes.perm hmove, hfreq.perm hmove, hsmall, hmain, ?_,
    h.ghostNodup, h.ghostSet, fun k hk hin => h.ghostGone k hk (hmove.mem_iff.mpr hin)⟩
  have hsum : sumAt s.sizes _ = _ := sumAt_perm hmove
  rw [sumAt_append, sumAt_append, ← hsmall, ← hmain, ← h.small, ← h.main] at hsum
  exact hsum ▸ h.fits

theorem onAccess (key : Bytes) : (s.onAccess key).Sound := by
  unfold S3Fifo.onAccess
  split
  · next f hf =>
    exact h.move .rfl (h.freq.put_of_mem ((h.freq key).mp (by simp [hf])) _) h.small h.main
  · exact h

theorem onAdmit (key : Bytes) (bytes : ℕ)
    (hfits : s.smallBytes + s.mainBytes + bytes < 2 ^ 64) : (s.onAdmit key bytes).Sound := by
  unfold S3Fifo.onAdmit
  split
  · exact h.onAccess key
  next hnew =>
  have hout : key ∉ s.queue := fun hin => hnew (h.mem_iff.mpr hin)
  have hsmall : sumAt (s.sizes.put key bytes) s.small = sumAt s.sizes s.small :=
    sumAt_put (fun hin => hout (List.mem_append_left _ hin)) bytes
  have hmain : sumAt (s.sizes.put key bytes) s.main = sumAt s.sizes s.main :=
    sumAt_put (fun hin => hout (List.mem_append_right _ hin)) bytes
  have hlast : sumAt (s.sizes.put key bytes) [key] = bytes := by simp [sumAt]
  dsimp only
  split
  · have hmem : ∀ k, k ∈ s.ghost.erase key ↔ k ≠ key ∧ k ∈ s.ghost := fun k =>
      h.ghostNodup.mem_erase_iff
    refine h.put hout ?_ (h.small.trans hsmall.symm) ?_ hfits
      (h.ghostNodup.erase key) (fun k => ?_) fun k hk => ((hmem k).mp hk).symm
    · rw [← append_assoc]
      exact List.perm_append_singleton key _
    · rw [mod_eq_of_lt (by omega), sumAt_append, hmain, hlast, h.main]
    · rw [Finset.mem_erase, hmem, h.ghostSet]
  · next hghost =>
    refine h.put hout ?_ ?_ (h.main.trans hmain.symm) hfits h.ghostNodup h.ghostSet fun k hk =>
      ⟨hk, fun hkey => hghost ((h.ghostSet key).mpr (hkey ▸ hk))⟩
    · rw [append_assoc]
      exact perm_middle
    · rw [mod_eq_of_lt (by omega), sumAt_append, hsmall, hlast, h.small]

theorem forget (key : Bytes) : (s.forget key).Sound := by
  unfold S3Fifo.forget
  split
  · exact h
  next bytes hbytes =>
  have hin := mem_append.mp ((h.sizes key).mp (by simp [hbytes]))
  have hgone : ∀ {l : List Bytes}, key ∈ l →
      sumAt s.sizes l - bytes = sumAt s.sizes (l.erase key) :=
    fun hl => by rw [sumAt_perm (List.perm_cons_erase hl), sumAt_cons, hbytes]; simp
  dsimp only
  split
  · next hs =>
    refine h.erase ?_ (h.small ▸ hgone hs) h.main
    exact (List.perm_cons_erase hs).append_right _
  next hs =>
  have hm := hin.resolve_left hs
  rw [if_pos hm]
  refine h.erase ?_ h.small (h.main ▸ hgone hm)
  exact ((List.perm_cons_erase hm).append_left _).trans perm_middle

theorem pushGhost (hkey : key ∉ s.queue) (hnew : key ∉ s.ghost) : (s.pushGhost key).Sound := by
  have hnodup : (s.ghost ++ [key]).Nodup := List.nodup_append_comm.mp
    (nodup_cons.mpr ⟨hnew, h.ghostNodup⟩)
  obtain ⟨hsuf, hset⟩ := mem_trimGhost (max s.sizes.rows.length ghostMin) hnodup
    fun k => (show k ∈ insert key s.ghostSet ↔ _ by simp [h.ghostSet, or_comm])
  refine { h with
    ghostNodup := hnodup.sublist hsuf.sublist, ghostSet := hset, ghostGone := fun k hk => ?_ }
  exact of_mem_snoc (hsuf.mem hk) (h.ghostGone k) hkey

end

end Sound

/-! ## The eviction hand -/

variable {t u : S3Fifo} {gone : Option Bytes}

theorem Turned.refl (h : s.Sound) : s.Turned s none := ⟨h, rfl, .rfl⟩

theorem Turned.trans (h : s.Turned t none) (h' : t.Turned u gone) : s.Turned u gone :=
  ⟨h'.sound, h'.sizes.trans (by rw [h.sizes]; rfl), h.queue.trans h'.queue⟩

theorem uses_put {k : Bytes} {v : ℕ} (hne : k ≠ key) (hfreq : t.freq = s.freq.put key v) :
    t.uses k = s.uses k := by
  rw [uses, hfreq, get_put, if_neg hne]
  rfl

section

variable (h : s.Sound)
include h

theorem stepSmall_turned (hne : s.small ≠ []) : s.Turned s.stepSmall.1 s.stepSmall.2 := by
  obtain ⟨key, rest, hsmall⟩ := List.exists_cons_of_ne_nil hne
  have hqueue : s.queue = key :: (rest ++ s.main) := by rw [queue, hsmall, List.cons_append]
  have hin : key ∈ s.queue := hqueue ▸ mem_cons_self
  have hrest : key ∉ rest ++ s.main := (nodup_cons.mp (hqueue ▸ h.nodup)).1
  obtain ⟨bytes, hbytes⟩ := isSome_iff_exists.mp ((h.sizes key).mpr hin)
  have hall := h.small
  rw [hsmall, sumAt_cons, hbytes, getD_some] at hall
  have hless : s.smallBytes - bytes = sumAt s.sizes rest := by omega
  unfold stepSmall
  rw [hsmall]
  simp only [hbytes]
  split
  · have hmoved : s.queue.Perm (rest ++ (s.main ++ [key])) := by
      rw [hqueue, ← append_assoc]
      exact (List.perm_append_singleton key _).symm
    have hmore : (s.mainBytes + bytes) % 2 ^ 64 = sumAt s.sizes (s.main ++ [key]) := by
      have hfits := h.fits
      rw [mod_eq_of_lt (by omega), sumAt_append, h.main, sumAt_cons, hbytes]
      rfl
    exact ⟨h.move hmoved (h.freq.put_of_mem hin 0) hless hmore, rfl, hmoved⟩
  · refine ⟨(h.erase (.of_eq hqueue) hless h.main).pushGhost hrest fun hghost => ?_, rfl,
      .of_eq hqueue⟩
    exact h.ghostGone key hghost hin

theorem stepMain_turned (hne : s.main ≠ []) : s.Turned s.stepMain.1 s.stepMain.2 := by
  obtain ⟨key, rest, hmain⟩ := List.exists_cons_of_ne_nil hne
  have hqueue : s.queue.Perm (key :: (s.small ++ rest)) := by
    rw [queue, hmain]
    exact perm_middle
  have hin : key ∈ s.queue := hqueue.mem_iff.mpr mem_cons_self
  obtain ⟨bytes, hbytes⟩ := isSome_iff_exists.mp ((h.sizes key).mpr hin)
  have hturn : s.main.Perm (rest ++ [key]) := hmain ▸ (List.perm_append_singleton key rest).symm
  unfold stepMain
  rw [hmain]
  simp only [hbytes]
  split
  · exact ⟨h.move (hturn.append_left _) (h.freq.put_of_mem hin _) h.small
      (h.main.trans (sumAt_perm hturn)), rfl, hturn.append_left _⟩
  · refine ⟨h.erase hqueue h.small ?_, rfl, hqueue⟩
    rw [h.main, hmain, sumAt_cons, hbytes, getD_some, Nat.add_sub_cancel_left]

theorem evictStep_turned (hs : s.evictStep = some (t, gone)) : s.Turned t gone := by
  unfold evictStep at hs
  split at hs
  · next hsmall =>
    obtain ⟨rfl, rfl⟩ := Prod.ext_iff.mp (some.inj hs)
    exact stepSmall_turned h hsmall.2
  split at hs
  · next hmain =>
    obtain ⟨rfl, rfl⟩ := Prod.ext_iff.mp (some.inj hs)
    exact stepMain_turned h hmain
  split at hs
  · next hsmall =>
    obtain ⟨rfl, rfl⟩ := Prod.ext_iff.mp (some.inj hs)
    exact stepSmall_turned h hsmall
  · cases hs

theorem evictWithin_turned (budget : ℕ) :
    s.Turned (evictWithin budget s).1 (evictWithin budget s).2 := by
  induction budget generalizing s with
  | zero => exact .refl h
  | succ budget ih =>
    rw [evictWithin]
    cases hs : s.evictStep with
    | none => exact .refl h
    | some r =>
      obtain ⟨t, gone⟩ := r
      have hturned := evictStep_turned h hs
      cases gone with
      | some key => exact hturned
      | none => exact hturned.trans (ih hturned.sound)

/-! ## How far the hand comes -/

theorem stepSmall_spared {key : Bytes} {rest : List Bytes} (hsmall : s.small = key :: rest)
    (hnone : s.stepSmall.2 = none) : s.stepSmall.1.small = rest ∧
      s.stepSmall.1.main = s.main ++ [key] ∧ s.stepSmall.1.freq = s.freq.put key 0 := by
  have hin : key ∈ s.queue := List.mem_append_left _ (hsmall ▸ mem_cons_self)
  obtain ⟨bytes, hbytes⟩ := isSome_iff_exists.mp ((h.sizes key).mpr hin)
  unfold stepSmall at hnone ⊢
  simp only [hsmall, hbytes] at hnone ⊢
  split at hnone
  · next huse =>
    rw [if_pos huse]
    exact ⟨rfl, rfl, rfl⟩
  · cases hnone

theorem stepMain_eq {key : Bytes} {rest : List Bytes} (hmain : s.main = key :: rest) :
    (s.uses key = 0 → s.stepMain.2 = some key) ∧ (0 < s.uses key → s.stepMain =
      ({ s with main := rest ++ [key], freq := s.freq.put key (s.uses key - 1) }, none)) := by
  have hin : key ∈ s.queue := List.mem_append_right _ (hmain ▸ mem_cons_self)
  obtain ⟨bytes, hbytes⟩ := isSome_iff_exists.mp ((h.sizes key).mpr hin)
  unfold stepMain
  simp only [hmain, hbytes]
  refine ⟨fun hzero => ?_, fun hpos => if_pos hpos⟩
  have hnone : ¬ 0 < (s.freq.get key).getD 0 := Nat.not_lt.mpr (Nat.le_of_eq hzero)
  rw [if_neg hnone]

/-- **In `main` the hand drops the key at `j` with `f` uses at turn `f` times the length and `j`**,
if it drops no other before. -/
theorem evictWithin_main (hphase : ¬ s.OverSmall) (hne : s.main ≠ []) (budget : ℕ) :
    (evictWithin budget s).2.isSome = true ↔
      ∃ j k, s.main[j]? = some k ∧ s.uses k * s.main.length + j < budget := by
  induction budget generalizing s with
  | zero => simp [evictWithin]
  | succ budget ih =>
    obtain ⟨key, rest, hmain⟩ := List.exists_cons_of_ne_nil hne
    have hkey : key ∉ rest := by
      have hnodup := (List.nodup_append.mp h.nodup).2.1
      exact (nodup_cons.mp (hmain ▸ hnodup)).1
    have hstep : s.evictStep = some s.stepMain := by
      rw [evictStep, if_neg hphase, if_pos hne]
    obtain ⟨hdrops, hspares⟩ := stepMain_eq h hmain
    rw [evictWithin, hstep]
    obtain hzero | hpos := Nat.eq_zero_or_pos (s.uses key)
    · have hgone := hdrops hzero
      rcases hr : s.stepMain with ⟨t, gone⟩
      rw [hr] at hgone
      obtain rfl : gone = some key := hgone
      refine iff_of_true rfl ⟨0, key, by rw [hmain]; rfl, ?_⟩
      rw [hzero]
      omega
    have hturned := stepMain_turned h hne
    rw [hspares hpos] at hturned ⊢
    rw [ih hturned.sound hphase (by simp), hmain]
    obtain ⟨n, hn⟩ := Nat.exists_eq_succ_of_ne_zero hpos.ne'
    -- A turn takes the first key to the end, with one use less.
    have hself : uses { s with
        main := rest ++ [key], freq := s.freq.put key (s.uses key - 1) } key = n := by
      simp [uses, get_put, show (s.freq.get key).getD 0 = n + 1 from hn]
    have hother : ∀ k ∈ rest, uses { s with
        main := rest ++ [key], freq := s.freq.put key (s.uses key - 1) } k = s.uses k :=
      fun k hk => uses_put (ne_of_mem_of_not_mem hk hkey) rfl
    simp only [List.length_append, List.length_cons, List.length_nil, Nat.zero_add]
    constructor
    · rintro ⟨j, k, hj, hlt⟩
      rw [List.getElem?_append] at hj
      split at hj
      · rw [hother k (List.mem_of_getElem? hj)] at hlt
        exact ⟨j + 1, k, hj, by omega⟩
      · obtain ⟨hlast, hk⟩ := List.getElem?_eq_some_iff.mp hj
        obtain rfl : key = k := by simpa using hk
        rw [hself] at hlt
        refine ⟨0, key, rfl, ?_⟩
        rw [hn, Nat.succ_mul]
        omega
    · rintro ⟨j, k, hj, hlt⟩
      cases j with
      | zero =>
        obtain rfl : key = k := some.inj hj
        refine ⟨rest.length, key, by simp, ?_⟩
        rw [hself]
        rw [hn, Nat.succ_mul] at hlt
        omega
      | succ j =>
        have hj : rest[j]? = some k := hj
        have hlen := (List.getElem?_eq_some_iff.mp hj).1
        refine ⟨j, k, by rw [List.getElem?_append_left hlen, hj], ?_⟩
        rw [hother k (List.mem_of_getElem? hj)]
        omega

/-- A key of `main` without uses is dropped once the keys before it are passed by, if no other
is. -/
theorem evictWithin_unused {j budget : ℕ} {k : Bytes} (hk : s.main[j]? = some k)
    (hunused : s.uses k = 0) (hbudget : j + s.small.length < budget) :
    (evictWithin budget s).2.isSome = true := by
  induction budget generalizing s j with
  | zero => exact absurd hbudget (not_lt_zero _)
  | succ budget ih =>
    have hin : k ∈ s.main := List.mem_of_getElem? hk
    rw [evictWithin]
    by_cases hphase : s.OverSmall
    · have hstep : s.evictStep = some s.stepSmall := if_pos hphase
      have hturned := stepSmall_turned h hphase.2
      obtain ⟨key, rest, hsmall⟩ := List.exists_cons_of_ne_nil hphase.2
      have hspared := stepSmall_spared h hsmall
      rw [hstep]
      rcases hr : s.stepSmall with ⟨t, gone⟩
      rw [hr] at hturned hspared
      cases gone with
      | some key => rfl
      | none =>
        obtain ⟨hrest, hmain, hfreq⟩ := hspared rfl
        have hne : k ≠ key := fun heq => by
          have hdisjoint := (List.nodup_append.mp h.nodup).2.2
          exact hdisjoint key (hsmall ▸ mem_cons_self) k hin heq.symm
        have hlen := (List.getElem?_eq_some_iff.mp hk).1
        refine ih hturned.sound (j := j) ?_ ((uses_put hne hfreq).trans hunused) ?_
        · rw [show t.main = s.main ++ [key] from hmain, List.getElem?_append_left hlen, hk]
        · rw [show t.small = rest from hrest]
          rw [hsmall, List.length_cons] at hbudget
          omega
    · have hne : s.main ≠ [] := List.ne_nil_of_mem hin
      have hstep : s.evictStep = some s.stepMain := by
        rw [evictStep, if_neg hphase, if_pos hne]
      obtain ⟨key, rest, hmain⟩ := List.exists_cons_of_ne_nil hne
      obtain ⟨hdrops, hspares⟩ := stepMain_eq h hmain
      have hturned := stepMain_turned h hne
      rw [hstep]
      obtain hzero | hpos := Nat.eq_zero_or_pos (s.uses key)
      · have hgone := hdrops hzero
        rcases hr : s.stepMain with ⟨t, gone⟩
        rw [hr] at hgone
        obtain rfl : gone = some key := hgone
        rfl
      rw [hspares hpos] at hturned ⊢
      have hkey : k ≠ key := fun heq => by
        rw [← heq, hunused] at hpos
        exact Nat.lt_irrefl 0 hpos
      rw [hmain] at hk
      cases j with
      | zero => exact absurd (some.inj hk).symm hkey
      | succ j =>
        have hk : rest[j]? = some k := hk
        have hlen := (List.getElem?_eq_some_iff.mp hk).1
        refine ih hturned.sound (j := j) ?_ ((uses_put hkey rfl).trans hunused) ?_
        · show (rest ++ [key])[j]? = some k
          rw [List.getElem?_append_left hlen, hk]
        · show j + s.small.length < budget
          omega

/-- Where the hand turns in `small` it drops a key, there or the one it moved. -/
theorem evictOne_small (hstep : s.evictStep = some s.stepSmall) (hne : s.small ≠ []) :
    s.evictOne.2.isSome = true := by
  have hturned := stepSmall_turned h hne
  obtain ⟨key, rest, hsmall⟩ := List.exists_cons_of_ne_nil hne
  have hspared := stepSmall_spared h hsmall
  rw [evictOne, evictWithin, hstep]
  rcases hr : s.stepSmall with ⟨t, gone⟩
  rw [hr] at hturned hspared
  cases gone with
  | some key => rfl
  | none =>
    obtain ⟨hrest, hmain, hfreq⟩ := hspared rfl
    refine evictWithin_unused hturned.sound (j := s.main.length) (k := key) ?_ ?_ ?_
    · rw [show t.main = s.main ++ [key] from hmain]
      simp
    · rw [uses, show t.freq = s.freq.put key 0 from hfreq, get_put, if_pos rfl, getD_some]
    · rw [show t.small = rest from hrest, hsmall, List.length_cons]
      omega

/-- **A key is dropped exactly if one is tracked and the hand is not stuck.** -/
theorem evictOne_isSome_iff : s.evictOne.2.isSome = true ↔ s.queue ≠ [] ∧ ¬ s.Stuck := by
  by_cases hphase : s.OverSmall
  · refine iff_of_true (evictOne_small h (if_pos hphase) hphase.2)
      ⟨fun hnil => ?_, fun hstuck => ?_⟩
    · exact hphase.2 (List.append_eq_nil_iff.mp hnil).1
    · exact hstuck.1 hphase
  by_cases hmain : s.main = []
  · by_cases hsmall : s.small = []
    · have hstep : s.evictStep = none := by
        rw [evictStep, if_neg hphase, if_neg (not_not.mpr hmain), if_neg (not_not.mpr hsmall)]
      rw [evictOne, evictWithin, hstep]
      refine iff_of_false nofun fun hqueue => hqueue.1 ?_
      rw [queue, hsmall, hmain]
      rfl
    · have hstep : s.evictStep = some s.stepSmall := by
        rw [evictStep, if_neg hphase, if_neg (not_not.mpr hmain), if_pos hsmall]
      refine iff_of_true (evictOne_small h hstep hsmall) ⟨fun hnil => ?_, fun hstuck => ?_⟩
      · exact hsmall (List.append_eq_nil_iff.mp hnil).1
      · exact hstuck.2.1 hmain
  · have hqueue : s.queue ≠ [] := fun hnil => hmain (List.append_eq_nil_iff.mp hnil).2
    rw [evictOne, evictWithin_main h hphase hmain, and_iff_right hqueue, Stuck,
      and_iff_right hphase, and_iff_right hmain]
    simp only [not_forall, Nat.not_lt, Nat.lt_succ_iff, exists_prop]

/-! ## Reclaiming -/

end

theorem sumAt_sizes_of_turned (h : s.Turned t (some key)) (hl : key ∉ l) :
    sumAt t.sizes l = sumAt s.sizes l := by
  rw [h.sizes]
  exact sumAt_erase hl

theorem Turned.notMem (hs : s.Sound) (h : s.Turned t (some key)) : key ∉ t.queue :=
  (nodup_cons.mp (h.queue.nodup_iff.mp hs.nodup)).1

theorem Turned.residentBytes (hs : s.Sound) (h : s.Turned t gone) :
    s.residentBytes = sumAt s.sizes gone.toList + t.residentBytes := by
  rw [hs.residentBytes_eq, h.sound.residentBytes_eq, sumAt_perm h.queue, sumAt_append]
  cases gone with
  | none => rw [h.sizes]; rfl
  | some key => rw [sumAt_sizes_of_turned h (h.notMem hs)]

/-- The keys `out` were given up to come down to `target`, and the last of them was needed. -/
structure Reclaimed (s t : S3Fifo) (out : List Bytes) (target : ℕ) : Prop where
  sound : t.Sound
  queue : s.queue.Perm (out ++ t.queue)
  resident : s.residentBytes = sumAt s.sizes out + t.residentBytes
  needed : ∀ pre last, out = pre ++ [last] → target + sumAt s.sizes pre < s.residentBytes

theorem Reclaimed.cons {out : List Bytes} {target : ℕ} (h : t.Reclaimed u out target) (hs : s.Sound)
    (hturned : s.Turned t (some key)) (hover : target < s.residentBytes) :
    s.Reclaimed u (key :: out) target := by
  have hqueue := hturned.queue.trans (h.queue.cons key)
  have hout : ∀ l, l ⊆ out → sumAt t.sizes l = sumAt s.sizes l := fun l hl =>
    sumAt_sizes_of_turned hturned fun hkey =>
      (nodup_cons.mp (hqueue.nodup_iff.mp hs.nodup)).1 (List.mem_append_left _ (hl hkey))
  have hresident : s.residentBytes = (s.sizes.get key).getD 0 + t.residentBytes :=
    hturned.residentBytes hs
  refine ⟨h.sound, hqueue, ?_, fun pre last heq => ?_⟩
  · rw [hresident, h.resident, hout out (List.Subset.refl out), sumAt_cons, add_assoc]
  cases pre with
  | nil => exact hover
  | cons k pre =>
    obtain ⟨rfl, rfl⟩ := List.cons.inj heq
    have hneeded := h.needed pre last rfl
    rw [hout pre (List.subset_append_left pre _)] at hneeded
    rw [sumAt_cons, hresident]
    omega

theorem Turned.reclaimed (hs : s.Sound) (h : s.Turned t none) (target : ℕ) :
    s.Reclaimed t [] target :=
  ⟨h.sound, h.queue, h.residentBytes hs, fun pre last hout => by simp at hout⟩

theorem reclaimWithin_spec (h : s.Sound) (target turns : ℕ) :
    s.Reclaimed (reclaimWithin target turns s).1 (reclaimWithin target turns s).2 target := by
  induction turns generalizing s with
  | zero => exact (Turned.refl h).reclaimed h target
  | succ turns ih =>
    rw [reclaimWithin]
    split
    · next hover =>
      have hturned : s.Turned s.evictOne.1 s.evictOne.2 := evictWithin_turned h _
      rcases hone : s.evictOne with ⟨t, gone⟩
      rw [hone] at hturned
      cases gone with
      | none => exact hturned.reclaimed h target
      | some key => exact (ih hturned.sound).cons h hturned hover
    · exact (Turned.refl h).reclaimed h target

theorem comes_iff {target : ℕ} {key : Bytes} (hover : target < s.residentBytes)
    (hone : s.evictOne = (t, some key)) :
    (∀ u, Comes target s u → target < u.residentBytes → ¬ u.Stuck) ↔
      ¬ s.Stuck ∧ ∀ u, Comes target t u → target < u.residentBytes → ¬ u.Stuck := by
  refine ⟨fun h => ⟨h s .here hover, fun u hu => h u (.turn hover hone hu)⟩, fun h u hu => ?_⟩
  cases hu with
  | here => exact fun _ => h.1
  | turn hover' hone' hrest =>
    rw [hone] at hone'
    obtain ⟨rfl, -⟩ := Prod.mk.inj hone'
    exact h.2 u hrest

theorem reclaimWithin_le_iff (h : s.Sound) (target : ℕ) {turns : ℕ}
    (hturns : s.queue.length < turns) : (reclaimWithin target turns s).1.residentBytes ≤ target ↔
      ∀ t, Comes target s t → target < t.residentBytes → ¬ t.Stuck := by
  induction turns generalizing s with
  | zero => exact absurd hturns (not_lt_zero _)
  | succ turns ih =>
    rw [reclaimWithin]
    split
    · next hover =>
      have hne : s.queue ≠ [] := fun hnil => by
        rw [h.residentBytes_eq, hnil] at hover
        exact not_lt_zero _ hover
      have hturned : s.Turned s.evictOne.1 s.evictOne.2 := evictWithin_turned h _
      have hsome := evictOne_isSome_iff h
      rw [and_iff_right hne] at hsome
      rcases hone : s.evictOne with ⟨t, gone⟩
      rw [hone] at hturned hsome
      cases gone with
      | none =>
        -- Nothing was given up, for the hand is stuck.
        refine iff_of_false (fun hle => ?_) fun hall => ?_
        · have hsame := hturned.residentBytes h
          rw [Option.toList_none, sumAt_nil, Nat.zero_add] at hsame
          exact Nat.not_lt.mpr hle (hsame ▸ hover)
        · exact Bool.false_ne_true (hsome.mpr (hall s .here hover))
      | some key =>
        have hlen : s.queue.length = t.queue.length + 1 := hturned.queue.length_eq
        rw [comes_iff hover hone, and_iff_right (hsome.mp rfl)]
        exact ih hturned.sound (by omega)
    · next hover =>
      refine iff_of_true (Nat.le_of_not_lt hover) fun t ht => ?_
      cases ht with
      | here => exact fun hover' => absurd hover' hover
      | turn hover' => exact absurd hover' hover

theorem sound_new (capacity : ℕ) : (new capacity).Sound :=
  ⟨.nil, fun _ => by simp [new], fun _ => by simp [new], rfl, rfl, Nat.two_pow_pos 64, .nil,
    by simp [new], by simp [new]⟩

theorem Sound.call (h : s.Sound) {c : S3Call}
    (hfits : s.smallBytes + s.mainBytes + c.bytes < 2 ^ 64) :
    (s.call c).Sound := by
  cases c with
  | onAdmit key bytes => exact h.onAdmit key bytes hfits
  | onAccess key => exact h.onAccess key
  | forget key => exact h.forget key
  | evictOne => exact (evictWithin_turned h _).sound
  | reclaimTo target => exact (reclaimWithin_spec h target _).sound
  | setCapacityBytes bytes => exact { h with }

theorem Sound.run (h : s.Sound) {calls : List S3Call} (hfits : s.Fits calls) :
    (calls.foldl S3Fifo.call s).Sound := by
  induction calls generalizing s with
  | nil => exact h
  | cons c calls ih => exact ih (h.call hfits.1) hfits.2

/-- A key of `main` with two uses, beside two keys of `small`: the budget is enough. -/
def besideSmall : S3Fifo :=
  after 100 [.onAdmit [1] 5, .reclaimTo 0, .onAdmit [1] 5, .onAccess [1], .onAccess [1],
    .onAdmit [2] 5, .onAdmit [3] 5]

/-- **The queues, the maps and the counters agree after every run** that fits a counter. -/
theorem sound_after (capacity : ℕ) (calls : List S3Call) (h : (new capacity).Fits calls) :
    (after capacity calls).Sound := (sound_new capacity).run h

theorem sound_after_reclaim : (new 100).Fits [.onAdmit [1] 5, .reclaimTo 0, .onAdmit [1] 7] ∧
    (after 100 [.onAdmit [1] 5, .reclaimTo 0, .onAdmit [1] 7]).Sound := by
  have hfits : (new 100).Fits [.onAdmit [1] 5, .reclaimTo 0, .onAdmit [1] 7] :=
    ⟨by decide, by decide, by decide, trivial⟩
  exact ⟨hfits, sound_after 100 _ hfits⟩

end

end S3Fifo

end Flint
