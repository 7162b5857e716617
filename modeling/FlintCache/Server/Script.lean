import FlintCache.Storage.Batch
import FlintCache.Storage.Rows

/-!
# Server/Script — what a script's commands reach, and what it leaves

Each command of a script runs on an overlay over the script's buffer, behind a guard that lets
through the rows of the declared keys and, under the lock over every writer, of any key in their
slot.  One that reaches past them is refused, or abandons the script to run again under that lock.
The buffer reaches the dispatcher's batch if the script ends normally, and that batch the store, as
one.
-/

namespace Flint

open List SortedRows Option Bool RowScans

/-! ## The guard -/

/-- What the guard turns away. -/
inductive Stray
  | key (key : Bytes)
  | needsEveryWriter (key : Bytes)
  | keyspace
  | reserved (key : Bytes)
  | indexed (stem : Bytes)
  deriving DecidableEq, Repr

/-- What a script may reach.  The flags are the guards in force. -/
structure KeyGuard where
  ns : Bytes
  declared : List Bytes
  slotForKey : Bytes → ℕ
  everyWriter : Bool
  whole : Bool
  reserved : Bool
  indexed : Option (List Bytes)
  declaredExempt : Bool

def coprocReservedPrefixes : List Bytes := [[0x00, 0x76, 0x65, 0x63, 0x00]]

def isCoprocReserved (key : Bytes) : Bool := coprocReservedPrefixes.any (·.isPrefixOf key)

/-- What a walk shows, and which a command makes: over a key's framed rows, or over no key's. -/
def WalksKey (q : Scan) : Prop := rowOwner q.stem = none ∨ q.stem.head? ≠ some Cf.metadata.tag

namespace KeyGuard

variable (g : KeyGuard)

def slot : Option ℕ := g.declared.head?.map g.slotForKey

def inSlot (key : Bytes) : Bool := g.slot.isSome && (g.whole || some (g.slotForKey key) == g.slot)

def strays (row : Bytes) : Option Stray :=
  match rowOwner row with
  | some (ns, key) =>
    if ns = g.ns ∧ key ∈ g.declared then none
    else if ns = g.ns ∧ key ≠ [] ∧ g.everyWriter = true ∧ g.inSlot key = true then none
    else if ns = g.ns ∧ key ≠ [] ∧ g.inSlot key = true then some (.needsEveryWriter key)
    else if key ≠ [] then some (.key key)
    else some .keyspace
  | none => some .keyspace

def refusesWrite (row : Bytes) : Option Stray :=
  match rowOwner row with
  | none => none
  | some (_, key) =>
    if g.reserved && isCoprocReserved key then some (.reserved key)
    else
      match g.indexed.bind fun stems => stems.find? (·.isPrefixOf key) with
      | some stem =>
        if g.declaredExempt && g.declared.contains key then none else some (.indexed stem)
      | none => none

def rowGuard : RowGuard Bytes Scan Stray where
  strays := g.strays
  refuses := g.refusesWrite
  straysScan q := g.strays q.stem
  owns q row := (rowOwner row).any fun owner => some owner.2 == (rowOwner q.stem).map Prod.snd

/-- **The rows a script may read and write**: of a declared key or, under the lock over every
writer, of a key in the declared keys' slot. -/
def Allows (row : Bytes) : Prop :=
  ∃ key, rowOwner row = some (g.ns, key) ∧
    (key ∈ g.declared ∨ g.everyWriter = true ∧ key ≠ [] ∧ g.declared ≠ [] ∧
      (g.whole = true ∨ some (g.slotForKey key) = g.slot))

theorem inSlot_iff {key : Bytes} : g.inSlot key ↔
      g.declared ≠ [] ∧ (g.whole ∨ some (g.slotForKey key) = g.slot) := by
  have hslot : g.slot.isSome ↔ g.declared ≠ [] := by
    rw [slot, isSome_map, isSome_head?]
  rw [inSlot, and_eq_true, hslot, or_eq_true, beq_iff_eq]

theorem strays_eq_none_iff {row : Bytes} : g.strays row = none ↔ g.Allows row := by
  unfold strays Allows
  cases rowOwner row with
  | none => exact iff_of_false nofun fun ⟨_, h, _⟩ => nomatch h
  | some owner =>
    obtain ⟨ns, key⟩ := owner
    simp only [some.injEq, Prod.mk.injEq, ← inSlot_iff]
    constructor
    · intro h
      split at h
      · next hin => exact ⟨key, ⟨hin.1, rfl⟩, .inl hin.2⟩
      split at h
      · next hin => exact ⟨key, ⟨hin.1, rfl⟩, .inr ⟨hin.2.2.1, hin.2.1, hin.2.2.2⟩⟩
      split at h
      · cases h
      · split at h
        · cases h
        · cases h
    rintro ⟨_, ⟨hns, rfl⟩, hin | ⟨hall, hne, hin⟩⟩
    · exact if_pos ⟨hns, hin⟩
    · by_cases hdecl : ns = g.ns ∧ key ∈ g.declared
      · exact if_pos hdecl
      · rw [if_neg hdecl, if_pos ⟨hns, hne, hall, hin⟩]

end KeyGuard

/-! ## Walks -/

theorem rowOwner_append {stem : Bytes} {owner : Bytes × Bytes} (h : rowOwner stem = some owner)
    (rest : Bytes) : ∃ key, rowOwner (stem ++ rest) = some (owner.1, key) ∧
      (stem.head? ≠ some Cf.metadata.tag → key = owner.2) := by
  match stem, h with
  | cf :: nsLen :: body, h =>
    simp only [rowOwner] at h
    split at h
    · rename_i hlen
      have htake : (body ++ rest).take nsLen.toNat = body.take nsLen.toNat :=
        take_append_of_le_length (by omega)
      have hdrop : (body ++ rest).drop (nsLen.toNat + 2) = body.drop (nsLen.toNat + 2) ++ rest :=
        drop_append_of_le_length hlen
      have hlen' : nsLen.toNat + 2 ≤ (body ++ rest).length := by
        rw [length_append]
        omega
      rw [cons_append, cons_append, rowOwner, if_pos hlen', htake, hdrop]
      split at h
      · rename_i hcf
        cases h
        rw [if_pos hcf]
        exact ⟨_, rfl, fun hne => absurd (congrArg some hcf) hne⟩
      rename_i hcf
      rw [if_neg hcf]
      split at h
      · rename_i hcf'
        rw [if_pos hcf']
        cases hbody : body.drop (nsLen.toNat + 2) with
        | nil =>
          rw [hbody] at h
          cases h
        | cons hi tail =>
          cases tail with
          | nil =>
            rw [hbody] at h
            cases h
          | cons lo framed =>
            rw [hbody] at h
            simp only [cons_append] at h ⊢
            obtain ⟨hkey, ⟨⟩⟩ := ite_none_right_eq_some.mp h
            rw [if_pos (by rw [length_append]; omega), take_append_of_le_length hkey]
            exact ⟨_, rfl, fun _ => rfl⟩
      · cases h
    · cases h

theorem stem_append_of_keeps {q : Scan} {row : Bytes} (h : scans.keeps q row) :
    ∃ rest, row = q.stem ++ rest := by
  obtain ⟨rest, hrest⟩ := isPrefixOf_iff_prefix.mp (and_eq_true _ _ ▸ h).1
  exact ⟨rest, hrest.symm⟩

variable {g : KeyGuard}

namespace KeyGuard

theorem strays_congr {row row' : Bytes} (h : rowOwner row = rowOwner row') :
    g.strays row = g.strays row' := by
  rw [strays, strays, h]

theorem owner_of_strays {row : Bytes} (h : g.strays row = none) :
    ∃ owner, rowOwner row = some owner := by
  obtain ⟨key, hkey, -⟩ := g.strays_eq_none_iff.mp h
  exact ⟨_, hkey⟩

theorem confines (g : KeyGuard) : g.rowGuard.Confines scans := by
  intro q hq row hkeeps howns
  obtain ⟨owner, howner⟩ := owner_of_strays hq
  obtain ⟨rest, rfl⟩ := stem_append_of_keeps hkeeps
  obtain ⟨key, hrow, -⟩ := rowOwner_append howner rest
  have hkey : key = owner.2 := by simpa [rowGuard, hrow, howner] using howns
  have hsame : rowOwner (q.stem ++ rest) = rowOwner q.stem := by rw [hrow, howner, hkey]
  exact (strays_congr hsame).trans hq

theorem frames (g : KeyGuard) {q : Scan} (hq : WalksKey q) : g.rowGuard.Frames scans q := by
  intro hin row hkeeps
  obtain ⟨owner, howner⟩ := owner_of_strays hin
  have hne : q.stem.head? ≠ some Cf.metadata.tag := by
    obtain h | h := hq
    · exact nomatch h.symm.trans howner
    · exact h
  obtain ⟨rest, rfl⟩ := stem_append_of_keeps hkeeps
  obtain ⟨key, hrow, hkey⟩ := rowOwner_append howner rest
  simp [rowGuard, hrow, howner, hkey hne]

end KeyGuard

/-! ## Scripts -/

/-- A command, as it reads and writes rows.  It walks a key's framed rows, or a whole family of the
namespace. -/
structure RowCommand (ρ : Type) where
  prog : RowProg Bytes Bytes Scan ρ
  walks : prog.OnlyScans WalksKey

def RowCommand.exec {ρ : Type} (c : RowCommand ρ) (s : KvRows) : KvRows :=
  (c.prog.run (RowKv.plain scans) s).2

/-- How a script comes to its end. -/
inductive ScriptEnd
  | normal
  | failed
  | limit
  | broken
  deriving DecidableEq, Repr

/-- **A script**, by what it calls first and how the answer takes it on; no answer abandons it. -/
inductive Script (ρ : Type)
  | ends (how : ScriptEnd)
  | call (c : RowCommand ρ) (next : Option ρ → Script ρ)

/-- An attempt under way: its buffer, whether it was abandoned, and the commands accepted. -/
structure Attempt (ρ : Type) where
  buffer : KvOps
  abandoned : Bool
  accepted : List (RowCommand ρ)

variable {ρ : Type}

def Attempt.start : Attempt ρ := ⟨.empty, false, []⟩

/-- One command on its overlay, behind the guard: its reply, the overlay, and what it strayed to. -/
def KeyGuard.callOn (g : KeyGuard) (under : RowReader Bytes Bytes Scan) (c : RowCommand ρ) :
    ρ × KvOps × Option Stray :=
  c.prog.run (RowKv.guarded g.rowGuard (RowKv.batching scans under)) (.empty, none)

def Script.run (g : KeyGuard) (refusal : Stray → ρ) (under : RowReader Bytes Bytes Scan) :
    Script ρ → Attempt ρ → ScriptEnd × Attempt ρ
  | .ends how, a => (how, a)
  | .call c next, a =>
    let out := g.callOn (scans.over under a.buffer) c
    match out.2.2 with
    | some (.needsEveryWriter _) => (next none).run g refusal under { a with abandoned := true }
    | some stray => (next (some (refusal stray))).run g refusal under a
    | none =>
      (next (some out.1)).run g refusal under
        { a with buffer := a.buffer.flush out.2.1, accepted := a.accepted ++ [c] }

def KeyGuard.crossslot (g : KeyGuard) : Bool :=
  g.declared.any fun key => some (g.slotForKey key) != g.slot

/-- `EVAL` over the dispatcher's own batch: what the batch then holds, and whether the script wants
the lock over every writer. -/
def evalOn (g : KeyGuard) (refusal : Stray → ρ) (script : Script ρ) (s : KvRows) (batch : KvOps) :
    KvOps × Bool :=
  if !g.whole && g.crossslot then (batch, false)
  else
    let out := script.run g refusal (scans.over (scans.reader s) batch) .start
    if out.1 ≠ .broken ∧ out.2.abandoned = true then (batch, true)
    else if out.1 = .normal then (batch.flush out.2.buffer, false)
    else (batch, false)

def KvRows.commit (s : KvRows) (batch : KvOps) (ok : Bool) : KvRows :=
  if ok then s.merge batch else s

/-- **`EVAL` sent on its own.**  If it wants every writer's lock it lets go of its keys', takes
that, and runs again on the store as it is by then. -/
def execEval (g : KeyGuard) (refusal : Stray → ρ) (script : Script ρ)
    (s later : KvRows) (ok : Bool) :
    KvRows :=
  let out := evalOn g refusal script s .empty
  if out.2 && !g.everyWriter then
    later.commit (evalOn { g with everyWriter := true } refusal script later .empty).1 ok
  else s.commit out.1 ok

/-! ## What a script reaches and leaves -/

open Script

section Runs

variable {refusal : Stray → ρ}

theorem KeyGuard.callOn_eq (g : KeyGuard) (w : KvRows) (c : RowCommand ρ) :
    let out := g.callOn (scans.reader w) c
    let flat := c.prog.run (RowKv.guarded g.rowGuard (RowKv.plain scans)) (w, none)
    w.merge out.2.1 = flat.2.1 ∧ out.2.2 = flat.2.2 :=
  ((RowKv.simulates_batching w).guarded.run c.prog ⟨merge_empty, rfl⟩).2

variable {w : KvRows} {c : RowCommand ρ}

theorem KeyGuard.merge_callOn (h : (g.callOn (scans.reader w) c).2.2 = none) :
    w.merge (g.callOn (scans.reader w) c).2.1 = c.exec w := by
  obtain ⟨hrows, hstray⟩ := g.callOn_eq w c
  have hwalks : c.prog.OnlyScans (g.rowGuard.Frames scans) :=
    RowProg.OnlyScans.imp (fun q hq => g.frames hq) c.walks
  rw [hrows, RowProg.run_guarded hwalks (hstray.symm.trans h)]
  rfl

theorem KeyGuard.get_callOn {row : Bytes} (h : ¬ g.Allows row) :
    (w.merge (g.callOn (scans.reader w) c).2.1).get row = w.get row := by
  rw [(g.callOn_eq w c).1]
  refine (RowKv.keeps_guarded (g := g.rowGuard) (k := row) (fun hin => h ?_) (w.get row)).run c.prog
    (s := (w, none)) rfl
  exact g.strays_eq_none_iff.mp hin

/-- What an attempt has buffered is its accepted commands, on rows it may change. -/
structure Attempt.Sound (g : KeyGuard) (w : KvRows) (a : Attempt ρ) : Prop where
  exact : w.merge a.buffer = a.accepted.foldl (fun s c => c.exec s) w
  confined : ∀ row, ¬ g.Allows row → (w.merge a.buffer).get row = w.get row

theorem Attempt.Sound.start (w : KvRows) : Attempt.Sound g w (.start : Attempt ρ) :=
  ⟨merge_empty, fun _ _ => by rw [Attempt.start, merge_empty]⟩

variable {a : Attempt ρ}

theorem Attempt.Sound.accept (ha : a.Sound g w)
    (h : (g.callOn (scans.over (scans.reader w) a.buffer) c).2.2 = none) :
    Attempt.Sound g w { a with
      buffer := a.buffer.flush (g.callOn (scans.over (scans.reader w) a.buffer) c).2.1,
      accepted := a.accepted ++ [c] } := by
  rw [over_reader] at h ⊢
  refine ⟨?_, fun row hrow => ?_⟩
  · rw [merge_flush, KeyGuard.merge_callOn h, ha.exact, foldl_append]
    rfl
  · rw [merge_flush, KeyGuard.get_callOn hrow, ha.confined row hrow]

theorem Script.sound_run (script : Script ρ) (ha : a.Sound g w) :
    (script.run g refusal (scans.reader w) a).2.Sound g w := by
  induction script generalizing a with
  | ends how => exact ha
  | call c next ih =>
    rw [run]
    generalize hout : g.callOn (scans.over (scans.reader w) a.buffer) c = out
    obtain ⟨reply, overlay, stray⟩ := out
    cases stray with
    | none =>
      have hacc := ha.accept (c := c) (congrArg (fun out => out.2.2) hout)
      rw [hout] at hacc
      exact ih _ hacc
    | some stray =>
      cases stray with
      | needsEveryWriter key => exact ih _ ⟨ha.exact, ha.confined⟩
      | _ => exact ih _ ha

theorem Script.run_congr {w w' : KvRows} (h : ∀ row, g.Allows row → w.get row = w'.get row)
    (script : Script ρ) (a : Attempt ρ) :
    script.run g refusal (scans.reader w) a = script.run g refusal (scans.reader w') a := by
  have hagree : g.rowGuard.Agree w w' := fun row hrow => h row (g.strays_eq_none_iff.mp hrow)
  induction script generalizing a with
  | ends how => rfl
  | call c next ih =>
    have hout : g.callOn (scans.over (scans.reader w) a.buffer) c =
        g.callOn (scans.over (scans.reader w') a.buffer) c := by
      rw [over_reader, over_reader]
      obtain ⟨hreply, hrest⟩ := (g.confines.simulates (hagree.merge a.buffer)).run c.prog
        (s := (.empty, none)) rfl
      exact Prod.ext hreply hrest
    rw [run, run, hout]
    simp only [ih]

def Kept (g : KeyGuard) (out : ScriptEnd × Attempt ρ) : Prop :=
  (g.whole = true ∨ g.crossslot = false) ∧ out.1 = .normal ∧ out.2.abandoned = false

instance (g : KeyGuard) (out : ScriptEnd × Attempt ρ) : Decidable (Kept g out) :=
  inferInstanceAs (Decidable (_ ∧ _ ∧ _))

section

variable (g : KeyGuard) (refusal : Stray → ρ) (script : Script ρ)

theorem evalOn_fst (s : KvRows) (batch : KvOps) : (evalOn g refusal script s batch).1 =
      if Kept g (script.run g refusal (scans.reader (s.merge batch)) .start) then
        batch.flush (script.run g refusal (scans.reader (s.merge batch)) .start).2.buffer
      else batch := by
  rw [evalOn, over_reader]
  generalize script.run g refusal (scans.reader (s.merge batch)) .start = out
  by_cases hslots : (!g.whole && g.crossslot)
  · have hnot : ¬ (g.whole ∨ g.crossslot = false) := by
      simpa using hslots
    rw [if_pos hslots, if_neg fun h : Kept g out => hnot h.1]
  have hslots' : g.whole ∨ g.crossslot = false := by simpa [or_iff_not_imp_left] using hslots
  rw [if_neg hslots]
  by_cases habandoned : out.1 ≠ .broken ∧ out.2.abandoned
  · rw [if_pos habandoned,
      if_neg fun h : Kept g out => false_ne_true (h.2.2.symm.trans habandoned.2)]
  rw [if_neg habandoned]
  by_cases hnormal : out.1 = .normal
  · have hkept : out.2.abandoned = false := by
      by_contra h
      exact habandoned ⟨by rw [hnormal]; decide, by simpa using h⟩
    rw [if_pos hnormal, if_pos (show Kept g out from ⟨hslots', hnormal, hkept⟩)]
  · rw [if_neg hnormal, if_neg fun h : Kept g out => hnormal h.2.1]

theorem merge_evalOn (s : KvRows) (batch : KvOps) : s.merge (evalOn g refusal script s batch).1 =
      if Kept g (script.run g refusal (scans.reader (s.merge batch)) .start) then
        (script.run g refusal (scans.reader (s.merge batch)) .start).2.accepted.foldl
          (fun s c => c.exec s) (s.merge batch) else s.merge batch := by
  have hsound : (script.run g refusal (scans.reader (s.merge batch)) .start).2.Sound g
      (s.merge batch) := script.sound_run (.start _)
  rw [evalOn_fst]
  split
  · rw [merge_flush, hsound.exact]
  · rfl

theorem get_merge_evalOn (s : KvRows) (batch : KvOps) {row : Bytes} (h : ¬ g.Allows row) :
    (s.merge (evalOn g refusal script s batch).1).get row = (s.merge batch).get row := by
  have hsound : (script.run g refusal (scans.reader (s.merge batch)) .start).2.Sound g
      (s.merge batch) := script.sound_run (.start _)
  rw [evalOn_fst]
  split
  · rw [merge_flush, hsound.confined row h]
  · rfl

theorem execEval_eq (s later : KvRows) (ok : Bool) : ∃ (g' : KeyGuard) (t : KvRows),
      (g' = g ∧ t = s ∨ g' = { g with everyWriter := true } ∧ t = later) ∧
      execEval g refusal script s later ok = t.commit (evalOn g' refusal script t .empty).1 ok := by
  by_cases hwants : ((evalOn g refusal script s .empty).2 && !g.everyWriter)
  · exact ⟨_, _, .inr ⟨rfl, rfl⟩, if_pos hwants⟩
  · exact ⟨_, _, .inl ⟨rfl, rfl⟩, if_neg hwants⟩

end

end Runs

end Flint
