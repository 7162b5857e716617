import Mathlib

/-!
# Lib/Text — text joined at separators, and read back

Fields are written with a separator between them and read by cutting the text at every occurrence
(`splitAtChar`), at the first (`splitOnce`) or at the last (`rsplitOnce`).  Each cut undoes the
joining as long as the fields on the side it searches do not contain the separator.
-/

namespace Flint

open List
open String (toList_append toList_inj toList_ofList)

/-! ## Cutting -/

def splitAtChar (c : Char) (s : String) : List String := (s.toList.splitOn c).map String.ofList

def joinWith (c : Char) (fields : List String) : String :=
  String.ofList ([c].intercalate (fields.map String.toList))

def splitOnce (c : Char) (s : String) : Option (String × String) :=
  match s.toList.dropWhile (· ≠ c) with
  | [] => none
  | _ :: rest => some (String.ofList (s.toList.takeWhile (· ≠ c)), String.ofList rest)

def rsplitOnce (c : Char) (s : String) : Option (String × String) :=
  match s.toList.reverse.dropWhile (· ≠ c) with
  | [] => none
  | _ :: rest => some (String.ofList rest.reverse,
      String.ofList (s.toList.reverse.takeWhile (· ≠ c)).reverse)

def Free (c : Char) (s : String) : Prop := c ∉ s.toList

instance (c : Char) (s : String) : Decidable (Free c s) := inferInstanceAs (Decidable (¬ _))

variable {c : Char} {s t : String} {fields : List String}

theorem free_append : Free c (s ++ t) ↔ Free c s ∧ Free c t := by
  simp [Free, toList_append, not_or]

theorem splitAtChar_ne_nil (c : Char) (s : String) : splitAtChar c s ≠ [] := by
  rw [splitAtChar, ne_eq, map_eq_nil_iff]
  exact splitOn_ne_nil _ _

theorem splitAtChar_joinWith (h : ∀ f ∈ fields, Free c f) (hne : fields ≠ []) :
    splitAtChar c (joinWith c fields) = fields := by
  rw [splitAtChar, joinWith, toList_ofList, splitOn_intercalate]
  · simp
  · simpa [Free] using h
  · simpa using hne

theorem splitAtChar_of_free (h : Free c s) : splitAtChar c s = [s] := by
  rw [splitAtChar, splitOn_eq_singleton h, map_singleton, String.ofList_toList]

theorem free_joinWith {d : Char} (hd : d ≠ c) (h : ∀ f ∈ fields, Free d f) :
    Free d (joinWith c fields) := by
  rw [Free, joinWith, toList_ofList]
  induction fields with
  | nil => exact not_mem_nil
  | cons f fields ih =>
    cases fields with
    | nil =>
      rw [map_singleton, intercalate_singleton]
      exact h f mem_cons_self
    | cons g fields =>
      rw [map_cons, map_cons, intercalate_cons_cons, mem_append, mem_append, mem_singleton]
      rintro ((hf | rfl) | hrest)
      · exact h f mem_cons_self hf
      · exact hd rfl
      · exact ih (fun f hf => h f (mem_cons_of_mem _ hf)) hrest

theorem joinWith_ne_empty (h : ∀ f ∈ fields, Free c f) (hne : fields ≠ []) (hnil : fields ≠ [""]) :
    joinWith c fields ≠ "" := by
  intro hempty
  have hsplit := splitAtChar_joinWith h hne
  rw [hempty, splitAtChar_of_free (show Free c "" from not_mem_nil)] at hsplit
  exact hnil hsplit.symm

theorem mem_splitAtChar {f : String} (hf : f ∈ splitAtChar c s) :
    Free c f ∧ ∀ d, Free d s → Free d f := by
  have hpieces : ∀ (cs l : List Char), l ∈ cs.splitOn c → c ∉ l ∧ ∀ d ∈ l, d ∈ cs := by
    intro cs
    induction cs with
    | nil =>
      intro l hl
      rw [splitOn_nil, mem_singleton] at hl
      subst hl
      exact ⟨not_mem_nil, fun _ hd => hd⟩
    | cons x cs ih =>
      intro l hl
      rw [splitOn_cons_eq_if_modifyHead] at hl
      split at hl
      · rcases mem_cons.mp hl with rfl | hl
        · exact ⟨not_mem_nil, nofun⟩
        · exact ⟨(ih l hl).1, fun d hd => mem_cons_of_mem _ ((ih l hl).2 d hd)⟩
      rename_i hx
      cases hpieces : cs.splitOn c with
      | nil => exact absurd hpieces (splitOn_ne_nil _ _)
      | cons first rest =>
        rw [hpieces, modifyHead_cons] at hl
        rw [hpieces] at ih
        rcases mem_cons.mp hl with rfl | hl
        · obtain ⟨hfree, hsub⟩ := ih first mem_cons_self
          refine ⟨fun hmem => ?_, fun d hd => ?_⟩
          · rcases mem_cons.mp hmem with rfl | hmem
            · exact hx (beq_self_eq_true _)
            · exact hfree hmem
          · exact (mem_cons.mp hd).elim (fun h => h ▸ mem_cons_self) fun h =>
              mem_cons_of_mem _ (hsub d h)
        · obtain ⟨hfree, hsub⟩ := ih l (mem_cons_of_mem _ hl)
          exact ⟨hfree, fun d hd => mem_cons_of_mem _ (hsub d hd)⟩
  obtain ⟨l, hl, rfl⟩ := mem_map.mp hf
  obtain ⟨hfree, hsub⟩ := hpieces _ l hl
  exact ⟨by rwa [Free, toList_ofList], fun d hd => by
    rw [Free, toList_ofList]; exact fun hmem => hd (hsub d hmem)⟩

variable {sep : String}

theorem splitAtChar_append (hsep : sep.toList = [c]) (s t : String) :
    splitAtChar c (s ++ sep ++ t) = splitAtChar c s ++ splitAtChar c t := by
  simp only [splitAtChar, toList_append, hsep, append_assoc, singleton_append,
    splitOn_append_cons_self, map_append]

theorem splitAtChar_joinWith_eq (hne : fields ≠ []) :
    splitAtChar c (joinWith c fields) = fields.flatMap (splitAtChar c) := by
  induction fields with
  | nil => exact absurd rfl hne
  | cons f fields ih =>
    cases fields with
    | nil => simp [joinWith, intercalate_singleton]
    | cons g fields =>
      have hjoin : joinWith c (f :: g :: fields) =
          f ++ String.singleton c ++ joinWith c (g :: fields) := by
        rw [← toList_inj]
        simp [joinWith, toList_append, intercalate_cons_cons]
      rw [hjoin, splitAtChar_append (by simp), ih (cons_ne_nil _ _)]
      simp only [flatMap_cons]

theorem splitOnce_append (h : Free c s) (hsep : sep.toList = [c]) (t : String) :
    splitOnce c (s ++ sep ++ t) = some (s, t) := by
  have hs : ∀ x ∈ s.toList, decide (x ≠ c) = true := fun x hx =>
    decide_eq_true fun hxc => h (hxc ▸ hx)
  rw [splitOnce]
  simp only [toList_append, hsep, append_assoc,
    singleton_append, dropWhile_append_of_pos hs, takeWhile_append_of_pos hs]
  simp

theorem splitOnce_of_free (h : Free c s) : splitOnce c s = none := by
  have hs : s.toList.dropWhile (· ≠ c) = [] :=
    dropWhile_eq_nil_iff.mpr fun x hx => decide_eq_true fun hxc => h (hxc ▸ hx)
  rw [splitOnce, hs]

theorem splitOnce_eq_some {a b : String} (h : splitOnce c s = some (a, b)) :
    Free c a ∧ s = a ++ String.singleton c ++ b := by
  rw [splitOnce] at h
  split at h
  · cases h
  rename_i x rest hdrop
  obtain ⟨rfl, rfl⟩ := Prod.mk.inj (Option.some.inj h)
  have hx : x = c := by
    have hhead := head?_dropWhile_not (· ≠ c) s.toList
    rw [hdrop] at hhead
    simpa using hhead
  refine ⟨fun hmem => ?_, toList_inj.mp ?_⟩
  · rw [toList_ofList] at hmem
    simpa using mem_takeWhile_imp hmem
  · have hsplit := takeWhile_append_dropWhile (p := fun x => decide (x ≠ c)) (l := s.toList)
    rw [hdrop, hx] at hsplit
    simpa [toList_append] using hsplit.symm

theorem free_of_splitOnce_eq_none (h : splitOnce c s = none) : Free c s := by
  intro hmem
  rw [splitOnce] at h
  split at h
  · next hdrop => simpa using dropWhile_eq_nil_iff.mp hdrop c hmem
  · cases h

theorem rsplitOnce_append (h : Free c t) (hsep : sep.toList = [c]) (s : String) :
    rsplitOnce c (s ++ sep ++ t) = some (s, t) := by
  have ht : ∀ x ∈ t.toList.reverse, decide (x ≠ c) = true := fun x hx =>
    decide_eq_true fun hxc => h (hxc ▸ mem_reverse.mp hx)
  rw [rsplitOnce]
  simp only [toList_append, hsep, reverse_append,
    reverse_singleton, dropWhile_append_of_pos ht, takeWhile_append_of_pos ht]
  simp

/-! ## Numbers -/

def parseDigits (acc : ℕ) : List Char → Option ℕ
  | [] => some acc
  | c :: cs => if '0' ≤ c ∧ c ≤ '9' then parseDigits (10 * acc + (c.toNat - '0'.toNat)) cs else none

/-- `str::parse` at an unsigned type of `bits` bits: an optional plus sign, digits, no overflow. -/
def parseUnsigned (bits : ℕ) (s : String) : Option ℕ :=
  let digits := match s.toList with
    | '+' :: cs => cs
    | cs => cs
  if digits.isEmpty then none
  else (parseDigits 0 digits).filter (· < 2 ^ bits)

def parseU16 : String → Option ℕ := parseUnsigned 16

theorem parseDigits_of_isDigit {cs : List Char} (h : ∀ d ∈ cs, d.isDigit = true) (acc : ℕ) :
    parseDigits acc cs = some (Nat.ofDigitChars 10 cs acc) := by
  induction cs generalizing acc with
  | nil => rfl
  | cons d cs ih =>
    have hd := h d mem_cons_self
    rw [parseDigits, if_pos (by simpa [Char.isDigit, Char.le_def] using hd),
      ih fun d hd => h d (mem_cons_of_mem _ hd)]
    simp [Nat.ofDigitChars]

theorem isDigit_of_mem_repr {n : ℕ} {d : Char} (h : d ∈ n.repr.toList) : d.isDigit = true := by
  rw [Nat.toList_repr] at h
  exact Nat.isDigit_of_mem_toDigits (by decide) (by decide) h

theorem free_repr (h : c.isDigit = false) (n : ℕ) : Free c n.repr := fun hmem => by
  rw [isDigit_of_mem_repr hmem] at h
  cases h

theorem parseUnsigned_repr {bits n : ℕ} (h : n < 2 ^ bits) :
    parseUnsigned bits n.repr = some n := by
  have hdigits : (match n.repr.toList with
      | '+' :: cs => cs
      | cs => cs) = n.repr.toList := by
    split
    · rename_i cs heq
      have hplus : '+' ∈ n.repr.toList := heq ▸ mem_cons_self
      exact absurd hplus (free_repr (by decide) n)
    · rfl
  rw [parseUnsigned, hdigits, if_neg, parseDigits_of_isDigit fun d hd => isDigit_of_mem_repr hd,
    Nat.toList_repr, Nat.ofDigitChars_ten_toDigits]
  · simp [h]
  · rw [Nat.toList_repr, List.isEmpty_iff]
    exact Nat.toDigits_ne_nil

end Flint
