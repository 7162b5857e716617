import FlintCache.Resp.Encode

/-!
# Resp/Reread — what is left of a reply that crossed a RESP3 hop

A reply encoded for RESP3 and decoded again is not the reply it was: RESP3 has one null, a
coordinate comes back as a number, and an array of members with scores comes back as a scored result
(`Value.reread`).  The bytes of a tree determine it (`RespFrame.bytes_inj`), so replies may be
compared as trees.
-/

namespace Flint

open List
open Value (asScorePair wire wireAll wirePairs)
open Bool (and_eq_true not_eq_true' or_eq_false_iff)
open Nat (exists_eq_add_one)

/-! ## The bytes determine the tree -/

variable {n m : ℕ}

theorem repr_toList_inj (h : n.repr.toList = m.repr.toList) : n = m := by
  have hn := parseDigits_repr n
  rw [h, parseDigits_repr m] at hn
  exact (Option.some.inj hn).symm

theorem append_crlf_inj {l l' s t : List Char} (hl : '\r' ∉ l) (hl' : '\r' ∉ l')
    (h : l ++ crlf ++ s = l' ++ crlf ++ t) : l = l' ∧ s = t := by
  have hlen : l.length = l'.length := by
    have hfind := findCrlf_append hl s
    rw [h, findCrlf_append hl' t] at hfind
    exact (Option.some.inj hfind).symm
  obtain ⟨hleft, hright⟩ := append_inj h (by simp [hlen])
  exact ⟨append_cancel_right hleft, hright⟩

theorem repr_ne_minus_one (n : ℕ) : n.repr.toList ≠ ['-', '1'] := fun h =>
  @free_repr '-' (by decide) n (by rw [h]; exact mem_cons_self)

theorem declaredCount_inj {tag : Char} (hn : tag = '%' → 2 ∣ n) (hm : tag = '%' → 2 ∣ m)
    (h : declaredCount tag n = declaredCount tag m) : n = m := by
  rw [← declaredCount_mul hn, ← declaredCount_mul hm, h]

open RespFrame

theorem bytesAll_append_inj {fs gs : List RespFrame} {s t : List Char}
    (ih : ∀ f ∈ fs, ∀ {g : RespFrame}, g.WellFormed → ∀ {s t : List Char},
      f.bytes ++ s = g.bytes ++ t → f = g ∧ s = t)
    (hgs : ∀ g ∈ gs, g.WellFormed) (hlen : fs.length = gs.length)
    (h : bytesAll fs ++ s = bytesAll gs ++ t) : fs = gs ∧ s = t := by
  induction fs generalizing gs with
  | nil =>
    obtain rfl := length_eq_zero_iff.mp hlen.symm
    exact ⟨rfl, h⟩
  | cons f fs ihfs =>
    cases gs with
    | nil => cases hlen
    | cons g gs =>
      rw [bytesAll, bytesAll, append_assoc, append_assoc] at h
      obtain ⟨rfl, hrest⟩ := ih f mem_cons_self (hgs g mem_cons_self) h
      obtain ⟨rfl, hst⟩ := ihfs (fun f hf => ih f (mem_cons_of_mem _ hf))
        (fun g hg => hgs g (mem_cons_of_mem _ hg)) (Nat.succ.inj hlen) hrest
      exact ⟨rfl, hst⟩

theorem not_line_of_aggregate {tag : Char} (h : tag ∈ ['*', '~', '%', '>']) :
    tag ∉ ['+', '-', ':', '_', ',', '#'] := by
  simp only [mem_cons, not_mem_nil, or_false] at h
  obtain rfl | rfl | rfl | rfl := h <;> decide

def RespFrame.tag : RespFrame → Char
  | .line tag _ => tag
  | .bulk _ => '$'
  | .nullBulk => '$'
  | .nullArray => '*'
  | .aggregate tag _ => tag

def RespFrame.head : RespFrame → List Char
  | .line _ text => text
  | .bulk data => data.length.repr.toList
  | .nullBulk => ['-', '1']
  | .nullArray => ['-', '1']
  | .aggregate tag items => (declaredCount tag items.length).repr.toList

def RespFrame.body : RespFrame → List Char
  | .line _ _ => []
  | .bulk data => data ++ crlf
  | .nullBulk => []
  | .nullArray => []
  | .aggregate _ items => RespFrame.bytesAll items

theorem RespFrame.bytes_eq (f : RespFrame) : f.bytes = f.tag :: (f.head ++ crlf ++ f.body) := by
  cases f with
  | line tag text =>
    rw [RespFrame.bytes, RespFrame.tag, RespFrame.head, RespFrame.body, append_nil]
  | bulk data | aggregate tag items =>
    rw [RespFrame.bytes, RespFrame.tag, RespFrame.head, RespFrame.body]
  | _ => rfl

theorem RespFrame.WellFormed.not_cr_head {f : RespFrame} (hf : f.WellFormed) : '\r' ∉ f.head := by
  cases hf with
  | line _ htext => exact htext
  | bulk | aggregate _ _ _ => exact not_cr_repr _
  | _ => exact (by decide : '\r' ∉ ['-', '1'])

/-- Which of the five a frame is, as its first line tells. -/
def RespFrame.form : RespFrame → ℕ
  | .line _ _ => 0
  | .bulk _ => 1
  | .nullBulk => 2
  | .nullArray => 3
  | .aggregate _ _ => 4

theorem RespFrame.WellFormed.form_eq {f : RespFrame} (hf : f.WellFormed) : f.form =
    if f.tag ∈ ['+', '-', ':', '_', ',', '#'] then 0
    else if f.head = ['-', '1'] then if f.tag = '$' then 2 else 3
    else if f.tag = '$' then 1 else 4 := by
  cases hf with
  | line htag _ => exact (if_pos htag).symm
  | bulk => exact (if_neg (repr_ne_minus_one _)).symm
  | nullBulk | nullArray => rfl
  | @aggregate tag _ htag _ _ =>
    have hne : tag ≠ '$' := by
      rintro rfl
      exact absurd htag (by decide)
    exact ((if_neg (not_line_of_aggregate htag)).trans
      ((if_neg (repr_ne_minus_one _)).trans (if_neg hne))).symm

variable {f g : RespFrame}

namespace RespFrame

variable (hf : f.WellFormed) (hg : g.WellFormed)
include hf hg

variable {s t : List Char}

theorem split (h : f.bytes ++ s = g.bytes ++ t) :
    f.form = g.form ∧ f.tag = g.tag ∧ f.head = g.head ∧ f.body ++ s = g.body ++ t := by
  rw [f.bytes_eq, g.bytes_eq, cons_append, cons_append] at h
  obtain ⟨htag, hrest⟩ := cons.inj h
  rw [append_assoc _ _ s, append_assoc _ _ t] at hrest
  obtain ⟨hhead, hbody⟩ := append_crlf_inj hf.not_cr_head hg.not_cr_head hrest
  exact ⟨by rw [hf.form_eq, hg.form_eq, htag, hhead], htag, hhead, hbody⟩

theorem bytes_append_inj (h : f.bytes ++ s = g.bytes ++ t) : f = g ∧ s = t := by
  induction hf generalizing g s t with
  | line htag htext =>
    obtain ⟨hform, rfl, rfl, hbody⟩ := split (.line htag htext) hg h
    cases hg with
    | line =>
      exact ⟨rfl, hbody⟩
    | _ => cases hform
  | bulk =>
    obtain ⟨hform, -, hhead, hbody⟩ := split .bulk hg h
    cases hg with
    | bulk =>
      rw [body, body, append_assoc, append_assoc] at hbody
      obtain ⟨rfl, hst⟩ := append_inj hbody (repr_toList_inj hhead)
      exact ⟨rfl, append_cancel_left hst⟩
    | _ => cases hform
  | nullBulk =>
    obtain ⟨hform, -, -, hbody⟩ := split .nullBulk hg h
    cases hg with
    | nullBulk => exact ⟨rfl, hbody⟩
    | _ => cases hform
  | nullArray =>
    obtain ⟨hform, -, -, hbody⟩ := split .nullArray hg h
    cases hg with
    | nullArray => exact ⟨rfl, hbody⟩
    | _ => cases hform
  | aggregate htag heven hitems ih =>
    obtain ⟨hform, heq, hhead, hbody⟩ := split (.aggregate htag heven hitems) hg h
    cases hg with
    | aggregate _ heven' hitems' =>
      obtain rfl := heq
      have hlen := declaredCount_inj heven heven' (repr_toList_inj hhead)
      obtain ⟨rfl, rfl⟩ := bytesAll_append_inj ih hitems' hlen hbody
      exact ⟨rfl, rfl⟩
    | _ => cases hform

theorem bytes_inj : f.bytes = g.bytes ↔ f = g := by
  refine ⟨fun h => ?_, fun h => h ▸ rfl⟩
  refine (@RespFrame.bytes_append_inj f g hf hg [] [] ?_).1
  rw [h]

end RespFrame

/-! ## Across the hop -/

section

variable (sp : Spelling)

def Spelling.readBack (fmt : UInt64 → String) (d : UInt64) : UInt64 :=
  match parseDouble sp.parseF64 (fmt d).toList with
  | .ok d' => d'
  | .error _ => d

mutual

def Value.reread : Value → Value
  | .simple s => .simple (String.ofList (pushLine s.toList))
  | .error s => .error (String.ofList (pushLine s.toList))
  | .integer n => .integer n
  | .boolean b => .boolean b
  | .bulk none => .null
  | .bulk (some data) => .bulk (some data)
  | .array none => .null
  | .array (some items) => scoredOrArray (Value.rereadAll items)
  | .null => .null
  | .double d => .double (sp.readBack sp.fmtDouble d)
  | .humanDouble d => .double (sp.readBack sp.fmtHumanDouble d)
  | .map pairs => .map (Value.rereadPairs pairs)
  | .set items => .set (Value.rereadAll items)
  | .resp3Nested v => scoredOrArray [v.reread]
  | .byProto _ resp3 => resp3.reread
  | .scorePairs pairs => scoredOrArray (pairs.map fun ms =>
      .array (some [.bulk (some ms.1), .double (sp.readBack sp.fmtDouble ms.2)]))
  | .push items => .push (Value.rereadAll items)

@[inherit_doc Value.reread]
def Value.rereadAll : List Value → List Value
  | [] => []
  | v :: vs => v.reread :: Value.rereadAll vs

@[inherit_doc Value.reread]
def Value.rereadPairs : List (Value × Value) → List (Value × Value)
  | [] => []
  | (k, v) :: rest => (k.reread, v.reread) :: Value.rereadPairs rest

end

end

variable {sp : Spelling}

open Value

theorem rereadAll_eq (items : List Value) : rereadAll sp items = items.map (reread sp) := by
  induction items with
  | nil => rfl
  | cons v vs ih => rw [rereadAll, ih, map_cons]

theorem rereadPairs_eq (pairs : List (Value × Value)) :
    rereadPairs sp pairs = pairs.map fun kv => (kv.1.reread sp, kv.2.reread sp) := by
  induction pairs with
  | nil => rfl
  | cons kv rest ih => rw [rereadPairs, ih, map_cons]

variable {fmt : UInt64 → String} {room : ℕ} {items : List Value}

theorem mapM_eq_ok {α β ε : Type} {f : α → Except ε β} {g : α → β} {l : List α}
    (h : ∀ a ∈ l, f a = .ok (g a)) : l.mapM f = .ok (l.map g) := by
  induction l with
  | nil => rfl
  | cons a l ih =>
    rw [mapM_cons, h a mem_cons_self, ih fun b hb => h b (mem_cons_of_mem _ hb)]
    rfl

theorem pairUp_flatMap {α β : Type} (f g : α → β) (l : List α) :
    pairUp (l.flatMap fun a => [f a, g a]) = l.map fun a => (f a, g a) := by
  induction l with
  | nil => rfl
  | cons a l ih =>
    rw [flatMap_cons, map_cons, ← ih]
    rfl

theorem read_aggregate {parseF64 : String → Option UInt64} {tag : Char}
    {items : List RespFrame} {values : List Value}
    (hcount : declaredCount tag items.length ≤ maxArrayLen)
    (hitems : items.mapM (RespFrame.read parseF64 room) = .ok values) :
    (RespFrame.aggregate tag items).read parseF64 (room + 1) = .ok (aggregate tag values) := by
  rw [RespFrame.read, withinLimit_of_le hcount, hitems]
  rfl

theorem read_items {tag : Char} (htag : tag ≠ '%')
    (hcount : items.length ≤ maxArrayLen) (hfits : fitsAll .resp3 items room)
    (ih : ∀ v ∈ items, ∀ {room}, v.fits .resp3 room →
      (v.wire sp .resp3).read sp.parseF64 room = .ok (v.reread sp)) :
    (RespFrame.aggregate tag (wireAll sp .resp3 items)).read sp.parseF64 (room + 1) =
      .ok (aggregate tag (rereadAll sp items)) := by
  refine read_aggregate ?_ ?_
  · rw [wireAll_length, declaredCount, if_neg htag]
    exact hcount
  · rw [wireAll_eq, mapM_map, rereadAll_eq]
    exact mapM_eq_ok fun v hv => ih v hv (fitsAll_iff.mp hfits v hv)

section

variable (h : Spells sp.parseF64 fmt)
include h

theorem parseDouble_fmt (d : UInt64) :
    parseDouble sp.parseF64 (fmt d).toList = .ok (sp.readBack fmt d) := by
  obtain ⟨-, -, d', hd', -⟩ := h d
  rw [Spelling.readBack, hd']

theorem fmt_readBack (d : UInt64) : fmt (sp.readBack fmt d) = fmt d := by
  obtain ⟨-, -, d', hd', hfmt⟩ := h d
  rw [Spelling.readBack, hd', hfmt]

theorem read_wireNumber (d : UInt64) (room : ℕ) :
    (wireNumber .resp3 (fmt d).toList).read sp.parseF64 (room + 1) =
      .ok (.double (sp.readBack fmt d)) := by
  show readLine sp.parseF64 ',' (fmt d).toList = _
  rw [readLine, parseDouble_fmt h]
  rfl

end

variable {pairs : List (Value × Value)}

theorem mapM_wirePairs
    (h : ∀ kv ∈ pairs, (kv.1.wire sp .resp3).read sp.parseF64 room = .ok (kv.1.reread sp) ∧
      (kv.2.wire sp .resp3).read sp.parseF64 room = .ok (kv.2.reread sp)) :
    (wirePairs sp .resp3 pairs).mapM (read sp.parseF64 room) =
      .ok (pairs.flatMap fun kv => [kv.1.reread sp, kv.2.reread sp]) := by
  induction pairs with
  | nil => rfl
  | cons kv rest ih =>
    obtain ⟨hk, hv⟩ := h kv mem_cons_self
    rw [wirePairs, mapM_cons, mapM_cons, hk, hv,
      ih fun kv hkv => h kv (mem_cons_of_mem _ hkv)]
    rfl

variable {ms : String × UInt64}

theorem read_scorePair (hroom : 3 ≤ room + 1) (hlen : ms.1.length ≤ maxBulkLen) :
    (RespFrame.aggregate '*' [.bulk ms.1.toList, wireNumber .resp3 (sp.fmtDouble ms.2).toList]).read
        sp.parseF64 room =
      .ok (.array (some [.bulk (some ms.1), .double (sp.readBack sp.fmtDouble ms.2)])) := by
  obtain ⟨room, rfl⟩ : ∃ r, room = r + 2 := ⟨room - 2, by omega⟩
  have hdata : ms.1.toList.length ≤ maxBulkLen := by rw [String.length_toList]; exact hlen
  have hitems : [bulk ms.1.toList, wireNumber .resp3 (sp.fmtDouble ms.2).toList].mapM
      (read sp.parseF64 (room + 1)) =
      .ok [.bulk (some ms.1), .double (sp.readBack sp.fmtDouble ms.2)] := by
    rw [mapM_cons, mapM_cons, read_wireNumber sp.double_spells, RespFrame.read,
      withinLimit_of_le hdata, String.ofList_toList]
    rfl
  exact read_aggregate (show declaredCount '*' 2 ≤ maxArrayLen by decide) hitems

variable {v : Value}

theorem read_line {tag : Char} {text : List Char} (hroom : decide (0 < room))
    (h : readLine sp.parseF64 tag text = .ok v) :
    (RespFrame.line tag text).read sp.parseF64 room = .ok v := by
  obtain ⟨room, rfl⟩ := exists_eq_add_one.mpr (decide_eq_true_iff.mp hroom)
  exact h

theorem read_wire_resp3 (h : v.WellTyped) (hfits : v.fits .resp3 room) :
    (v.wire sp .resp3).read sp.parseF64 room = .ok (v.reread sp) := by
  induction h generalizing room with
  | simple h | error h => exact read_line hfits (by rw [readLine, toText_pushLine h]; rfl)
  | integer hlo hhi => exact read_line hfits (by rw [readLine, parseInt_intRepr hlo hhi]; rfl)
  | @boolean b => cases b <;> exact read_line hfits rfl
  | @bulk b =>
    cases b with
    | none => exact read_line hfits rfl
    | some data =>
      rw [fits, and_eq_true, decide_eq_true_iff, decide_eq_true_iff] at hfits
      obtain ⟨room, rfl⟩ := exists_eq_add_one.mpr hfits.1
      have hlen : data.toList.length ≤ maxBulkLen := by rw [String.length_toList]; exact hfits.2
      rw [wire, RespFrame.read, withinLimit_of_le hlen, reread, String.ofList_toList]
      rfl
  | nullArray | null => exact read_line hfits rfl
  | array _ ih | set _ ih | push _ ih =>
    rw [fits, and_eq_true, and_eq_true, decide_eq_true_iff, decide_eq_true_iff]
      at hfits
    obtain ⟨room, rfl⟩ := exists_eq_add_one.mpr hfits.1.1
    exact read_items (by decide) hfits.1.2 hfits.2 ih
  | double => exact read_line hfits (read_wireNumber sp.double_spells _ 0)
  | humanDouble => exact read_line hfits (read_wireNumber sp.human_spells _ 0)
  | @map pairs _ _ ihk ihv =>
    rw [fits, and_eq_true, and_eq_true, decide_eq_true_iff, decide_eq_true_iff]
      at hfits
    obtain ⟨room, rfl⟩ := exists_eq_add_one.mpr hfits.1.1
    have hpairs := fitsPairs_iff.mp hfits.2
    have hread : (wirePairs sp .resp3 pairs).mapM (read sp.parseF64 room) =
        .ok (pairs.flatMap fun kv => [kv.1.reread sp, kv.2.reread sp]) :=
      mapM_wirePairs fun kv hkv => ⟨ihk kv hkv (hpairs kv hkv).1, ihv kv hkv (hpairs kv hkv).2⟩
    rw [wire, read_aggregate ?_ hread, reread, rereadPairs_eq]
    · exact congrArg (fun ps => Except.ok (Value.map ps)) (pairUp_flatMap _ _ _)
    · rw [wirePairs_length]
      simpa [declaredCount] using hfits.1.2
  | resp3Nested _ ih =>
    rw [fits, pick_resp3, and_eq_true, decide_eq_true_iff] at hfits
    obtain ⟨room, rfl⟩ := exists_eq_add_one.mpr hfits.1
    rw [Nat.add_sub_cancel] at hfits
    refine read_aggregate (show declaredCount '*' 1 ≤ maxArrayLen by decide) ?_
    rw [mapM_cons, ih hfits.2]
    rfl
  | byProto _ _ _ ih3 => exact ih3 hfits
  | @scorePairs pairs =>
    rw [fits, and_eq_true, and_eq_true, decide_eq_true_iff, decide_eq_true_iff,
      all_eq_true] at hfits
    obtain ⟨room, rfl⟩ := exists_eq_add_one.mpr hfits.1.1
    rw [wire, reread]
    simp only [pick_resp3]
    rw [← map_eq_flatMap]
    refine read_aggregate ?_ ?_
    · rw [length_map]
      exact hfits.1.2
    rw [mapM_map]
    refine mapM_eq_ok fun ms hms => ?_
    have hms := hfits.2 ms hms
    rw [and_eq_true, decide_eq_true_iff, decide_eq_true_iff] at hms
    exact read_scorePair hms.1 hms.2

/-! ## Ordinary replies -/

/-- Nothing is spelled by command: no null array, no coordinate, nothing nested in one protocol
only, and of the replies built for each protocol only an `XINFO`'s fields. -/
inductive Value.Ordinary : Value → Prop
  | simple {s : String} : Ordinary (.simple s)
  | error {s : String} : Ordinary (.error s)
  | integer {n : ℤ} : Ordinary (.integer n)
  | boolean {b : Bool} : Ordinary (.boolean b)
  | bulk {b : Option String} : Ordinary (.bulk b)
  | null : Ordinary .null
  | double {d : UInt64} : Ordinary (.double d)
  | array {items : List Value} (h : ∀ v ∈ items, Ordinary v) : Ordinary (.array (some items))
  | map {pairs : List (Value × Value)} (hk : ∀ kv ∈ pairs, Ordinary kv.1)
    (hv : ∀ kv ∈ pairs, Ordinary kv.2) : Ordinary (.map pairs)
  | set {items : List Value} (h : ∀ v ∈ items, Ordinary v) : Ordinary (.set items)
  | push {items : List Value} (h : ∀ v ∈ items, Ordinary v) : Ordinary (.push items)
  | scorePairs {pairs : List (String × UInt64)} : Ordinary (.scorePairs pairs)
  | fields {pairs : List (Value × Value)} (hk : ∀ kv ∈ pairs, Ordinary kv.1)
    (hv : ∀ kv ∈ pairs, Ordinary kv.2) :
    Ordinary (.byProto (.array (some (pairs.flatMap fun kv => [kv.1, kv.2]))) (.map pairs))

def looksScored (items : List Value) : Bool := !items.isEmpty && items.all (·.asScorePair.isSome)

mutual

/-- **An array that looks like a scored result** somewhere in the reply. -/
def Value.lookalike : Value → Bool
  | .array (some items) => looksScored items || Value.lookalikeAny items
  | .map pairs => Value.lookalikeAnyPair pairs
  | .set items => Value.lookalikeAny items
  | .push items => Value.lookalikeAny items
  | .byProto _ resp3 => resp3.lookalike
  | .resp3Nested v => v.lookalike
  | _ => false

@[inherit_doc Value.lookalike]
def Value.lookalikeAny : List Value → Bool
  | [] => false
  | v :: vs => v.lookalike || Value.lookalikeAny vs

@[inherit_doc Value.lookalike]
def Value.lookalikeAnyPair : List (Value × Value) → Bool
  | [] => false
  | (k, v) :: rest => k.lookalike || v.lookalike || Value.lookalikeAnyPair rest

end

theorem lookalikeAny_eq_false : lookalikeAny items = false ↔ ∀ v ∈ items, v.lookalike = false := by
  induction items with
  | nil => simp [lookalikeAny]
  | cons v vs ih => rw [lookalikeAny, or_eq_false_iff, ih, forall_mem_cons]

theorem lookalikeAnyPair_eq_false : Value.lookalikeAnyPair pairs = false ↔
      ∀ kv ∈ pairs, kv.1.lookalike = false ∧ kv.2.lookalike = false := by
  induction pairs with
  | nil => simp [lookalikeAnyPair]
  | cons kv rest ih =>
    rw [lookalikeAnyPair, or_eq_false_iff, or_eq_false_iff, ih, forall_mem_cons]

theorem asScorePair_eq_some :
    v.asScorePair = some ms ↔ v = .array (some [.bulk (some ms.1), .double ms.2]) := by
  refine ⟨fun h => ?_, fun h => h ▸ rfl⟩
  unfold asScorePair at h
  split at h
  · cases h
    rfl
  · cases h

theorem asScorePair_eq_none (h : ∀ m d, items ≠ [.bulk (some m), .double d]) :
    (array (some items)).asScorePair = none :=
  Option.eq_none_iff_forall_ne_some.mpr fun ms hpair =>
    h ms.1 ms.2 (Option.some.inj (array.inj (asScorePair_eq_some.mp hpair)))

theorem eq_map_of_all_asScorePair (h : items.all (·.asScorePair.isSome)) :
    items = (items.filterMap (·.asScorePair)).map fun ms =>
      .array (some [.bulk (some ms.1), .double ms.2]) := by
  induction items with
  | nil => rfl
  | cons v vs ih =>
    rw [all_cons, and_eq_true] at h
    obtain ⟨ms, hms⟩ := Option.isSome_iff_exists.mp h.1
    rw [filterMap_cons_some hms, map_cons, ← ih h.2, ← asScorePair_eq_some.mp hms]

theorem scoredOrArray_of_looksScored (h : looksScored items) :
    scoredOrArray items = .scorePairs (items.filterMap (·.asScorePair)) := by
  rw [looksScored, and_eq_true, not_eq_true', isEmpty_eq_false_iff] at h
  exact if_pos h

theorem scoredOrArray_of_not_looksScored (h : looksScored items = false) :
    scoredOrArray items = .array (some items) := by
  refine if_neg fun hscored => ?_
  have htrue : looksScored items := by
    rw [looksScored, and_eq_true, not_eq_true', isEmpty_eq_false_iff]
    exact hscored
  exact nomatch h.symm.trans htrue

theorem wire_scoredOrArray_resp3 (items : List Value) :
    (scoredOrArray items).wire sp .resp3 = .aggregate '*' (wireAll sp .resp3 items) := by
  cases h : looksScored items with
  | false => rw [scoredOrArray_of_not_looksScored h, wire]
  | true =>
    have hall : items.all (·.asScorePair.isSome) := (and_eq_true _ _ ▸ h).2
    rw [scoredOrArray_of_looksScored h, wire]
    conv_rhs => rw [eq_map_of_all_asScorePair hall]
    simp only [pick_resp3]
    rw [← map_eq_flatMap, wireAll_eq, map_map]
    rfl

theorem wire_scoredOrArray_resp2 (h : looksScored items)
    (fs : List RespFrame) (hlen : fs.length = items.length) :
    (scoredOrArray items).wire sp .resp2 ≠ .aggregate '*' fs := by
  have hall : items.all (·.asScorePair.isSome) := (and_eq_true _ _ ▸ h).2
  have hcount : (items.filterMap (·.asScorePair)).length = items.length := by
    conv_rhs => rw [eq_map_of_all_asScorePair hall, length_map]
  have hpos : 0 < items.length := by
    rw [looksScored, and_eq_true, not_eq_true', isEmpty_eq_false_iff] at h
    exact length_pos_iff.mpr h.1
  rw [scoredOrArray_of_looksScored h, wire]
  intro heq
  have hframes := congrArg length (aggregate.inj heq).2
  simp only [pick_resp2, length_flatMap, length_cons, length_nil] at hframes
  simp only [map_const', sum_replicate_nat, hcount] at hframes
  omega

theorem pushLine_pushLine (s : List Char) : pushLine (pushLine s) = pushLine s := by
  have hflat : flatChar ∘ flatChar = flatChar := by
    funext c
    simp only [Function.comp_apply]
    unfold flatChar
    split
    · decide
    · rfl
  rw [pushLine_eq_map, pushLine_eq_map, map_map, hflat]

theorem flatMap_pair_inj {α β : Type} {f g f' g' : α → β} {l : List α} :
    (l.flatMap fun a => [f a, g a]) = (l.flatMap fun a => [f' a, g' a]) ↔
      ∀ a ∈ l, f a = f' a ∧ g a = g' a := by
  induction l with
  | nil => simp
  | cons a l ih =>
    rw [flatMap_cons, flatMap_cons, forall_mem_cons, ← ih]
    simp [and_assoc]

variable {proto : Proto}

theorem wire_double_readBack {fmt : UInt64 → String} (h : Spells sp.parseF64 fmt)
    (d : UInt64) : wireNumber proto (fmt (sp.readBack fmt d)).toList =
      wireNumber proto (fmt d).toList := by
  rw [fmt_readBack h]

theorem wire_scorePairs_readBack (pairs : List (String × UInt64)) :
    (scorePairs (pairs.map fun ms => (ms.1, sp.readBack sp.fmtDouble ms.2))).wire sp proto =
      (scorePairs pairs).wire sp proto := by
  rw [wire, wire, flatMap_map]
  simp only [wire_double_readBack sp.double_spells]

theorem wire_reread_scorePairs (pairs : List (String × UInt64)) :
    ((scorePairs pairs).reread sp).wire sp proto = (scorePairs pairs).wire sp proto := by
  cases pairs with
  | nil => cases proto <;> rfl
  | cons ms rest =>
    have hscored : looksScored ((ms :: rest).map fun ms => array
        (some [.bulk (some ms.1), .double (sp.readBack sp.fmtDouble ms.2)])) := by
      simp [looksScored, asScorePair]
    have hpairs : ((ms :: rest).map fun ms => array
        (some [.bulk (some ms.1), .double (sp.readBack sp.fmtDouble ms.2)])).filterMap
          (·.asScorePair) = (ms :: rest).map fun ms => (ms.1, sp.readBack sp.fmtDouble ms.2) := by
      rw [filterMap_map]
      exact congrFun filterMap_eq_map _
    rw [reread, scoredOrArray_of_looksScored hscored, hpairs, wire_scorePairs_readBack]

theorem wireAll_rereadAll (items : List Value) : wireAll sp proto (Value.rereadAll sp items) =
      items.map fun v => (v.reread sp).wire sp proto := by
  rw [wireAll_eq, rereadAll_eq, map_map]
  rfl

theorem wirePairs_rereadPairs (pairs : List (Value × Value)) :
    wirePairs sp proto (rereadPairs sp pairs) =
      pairs.flatMap fun kv => [(kv.1.reread sp).wire sp proto, (kv.2.reread sp).wire sp proto] := by
  rw [wirePairs_eq, rereadPairs_eq, flatMap_map]

theorem wireAll_flatMap_pair (pairs : List (Value × Value)) :
    wireAll sp proto (pairs.flatMap fun kv => [kv.1, kv.2]) = wirePairs sp proto pairs := by
  rw [wireAll_eq, wirePairs_eq, map_flatMap]
  rfl

section

variable {v : Value} (h : v.Ordinary)
include h

theorem wire_reread_resp3 : (v.reread sp).wire sp .resp3 = v.wire sp .resp3 := by
  induction h with
  | simple | error =>
    rw [reread, wire, String.toList_ofList, pushLine_pushLine, wire]
  | integer | null => rfl
  | boolean => rw [reread]
  | @bulk b => cases b <;> rfl
  | double => rw [reread, wire, wire_double_readBack sp.double_spells, wire]
  | array _ ih =>
    rw [reread, wire_scoredOrArray_resp3, wireAll_rereadAll, wire, wireAll_eq,
      map_congr_left ih]
  | map _ _ ihk ihv =>
    rw [reread, wire, wirePairs_rereadPairs, wire, wirePairs_eq,
      flatMap_pair_inj.mpr fun kv hkv => ⟨ihk kv hkv, ihv kv hkv⟩]
  | set _ ih | push _ ih =>
    rw [reread, wire, wireAll_rereadAll, wire, wireAll_eq, map_congr_left ih]
  | scorePairs => exact wire_reread_scorePairs _
  | fields _ _ ihk ihv =>
    show (Value.map (Value.rereadPairs sp _)).wire sp .resp3 = (Value.map _).wire sp .resp3
    rw [wire, wirePairs_rereadPairs, wire, wirePairs_eq,
      flatMap_pair_inj.mpr fun kv hkv => ⟨ihk kv hkv, ihv kv hkv⟩]

theorem eq_bulk_of_reread {m : String}
    (hv : v.reread sp = .bulk (some m)) : v = .bulk (some m) := by
  cases h with
  | @bulk b =>
    cases b with
    | none => cases hv
    | some data => exact hv
  | @array items _ | @scorePairs pairs =>
    rw [reread, scoredOrArray] at hv
    split at hv <;> cases hv
  | _ => cases hv

theorem exists_double_of_reread {d : UInt64}
    (hv : v.reread sp = .double d) : ∃ d', v = .double d' := by
  cases h with
  | double => exact ⟨_, rfl⟩
  | @bulk b => cases b <;> cases hv
  | @array items _ | @scorePairs pairs =>
    rw [reread, scoredOrArray] at hv
    split at hv <;> cases hv
  | _ => cases hv

theorem asScorePair_reread : (v.reread sp).asScorePair.isSome = v.asScorePair.isSome := by
  rw [Bool.eq_iff_iff, Option.isSome_iff_exists, Option.isSome_iff_exists]
  refine ⟨fun ⟨ms, hms⟩ => ?_, fun ⟨ms, hms⟩ => ?_⟩
  · have hv := asScorePair_eq_some.mp hms
    cases h with
    | @array items hitems =>
      rw [reread] at hv
      cases hl : looksScored (rereadAll sp items) with
      | true =>
        rw [scoredOrArray_of_looksScored hl] at hv
        cases hv
      | false =>
        rw [scoredOrArray_of_not_looksScored hl, rereadAll_eq] at hv
        obtain ⟨x, y, rfl⟩ : ∃ x y, items = [x, y] := by
          have hlen := congrArg length (Option.some.inj (array.inj hv))
          rw [length_map] at hlen
          exact length_eq_two.mp hlen
        simp only [map_cons, map_nil, array.injEq, Option.some.injEq,
          cons.injEq, and_true] at hv
        obtain rfl := eq_bulk_of_reread (hitems x (by simp)) hv.1
        obtain ⟨d, rfl⟩ := exists_double_of_reread (hitems y (by simp)) hv.2
        exact ⟨_, rfl⟩
    | @bulk b => cases b <;> cases hv
    | @scorePairs pairs =>
      rw [reread, scoredOrArray] at hv
      split at hv
      · cases hv
      rename_i hnot
      have hnil : pairs = [] := by
        by_contra hne
        refine hnot ⟨by simpa using hne, ?_⟩
        simp [asScorePair]
      rw [hnil] at hv
      cases hv
    | _ => cases hv
  · rw [asScorePair_eq_some.mp hms]
    exact ⟨_, rfl⟩

end

theorem looksScored_rereadAll (h : ∀ v ∈ items, v.Ordinary) :
    looksScored (rereadAll sp items) = looksScored items := by
  have hall : (items.map (reread sp)).all (·.asScorePair.isSome) =
      items.all (·.asScorePair.isSome) := by
    rw [all_map, Bool.eq_iff_iff, all_eq_true, all_eq_true]
    exact forall₂_congr fun v hv => by rw [Function.comp_apply, asScorePair_reread (h v hv)]
  rw [rereadAll_eq, looksScored, looksScored, hall, isEmpty_map]

theorem wire_reread_resp2 (h : v.Ordinary) :
    (v.reread sp).wire sp .resp2 = v.wire sp .resp2 ↔ v.lookalike = false := by
  have hpairs {pairs : List (Value × Value)}
      (ihk : ∀ kv ∈ pairs, (kv.1.reread sp).wire sp .resp2 = kv.1.wire sp .resp2 ↔
        kv.1.lookalike = false)
      (ihv : ∀ kv ∈ pairs, (kv.2.reread sp).wire sp .resp2 = kv.2.wire sp .resp2 ↔
        kv.2.lookalike = false) :
      wirePairs sp .resp2 (rereadPairs sp pairs) = wirePairs sp .resp2 pairs ↔
        lookalikeAnyPair pairs = false := by
    rw [wirePairs_rereadPairs, wirePairs_eq, flatMap_pair_inj, lookalikeAnyPair_eq_false]
    exact forall₂_congr fun kv hkv => and_congr (ihk kv hkv) (ihv kv hkv)
  have hitems {items : List Value}
      (ih : ∀ v ∈ items, (v.reread sp).wire sp .resp2 = v.wire sp .resp2 ↔ v.lookalike = false) :
      wireAll sp .resp2 (rereadAll sp items) = wireAll sp .resp2 items ↔
        lookalikeAny items = false := by
    rw [wireAll_rereadAll, wireAll_eq, map_inj_left, lookalikeAny_eq_false]
    exact forall₂_congr ih
  induction h with
  | simple | error =>
    rw [reread, wire, String.toList_ofList, pushLine_pushLine, wire]
    exact iff_of_true rfl rfl
  | integer | boolean | null => exact iff_of_true rfl rfl
  | @bulk b => exact iff_of_true (by cases b <;> rfl) rfl
  | double =>
    rw [reread, wire, wire_double_readBack sp.double_spells, wire]
    exact iff_of_true rfl rfl
  | @array items hitems' ih =>
    rw [reread, lookalike, or_eq_false_iff, ← hitems ih,
      ← looksScored_rereadAll hitems', wire]
    cases hl : looksScored (rereadAll sp items) with
    | true =>
      have hlen : (wireAll sp .resp2 items).length = (rereadAll sp items).length := by
        rw [wireAll_length, rereadAll_eq, length_map]
      exact iff_of_false (wire_scoredOrArray_resp2 hl _ hlen) fun hand => absurd hand.1 (by decide)
    | false =>
      rw [scoredOrArray_of_not_looksScored hl, wire, aggregate.injEq]
      simp
  | map _ _ ihk ihv =>
    rw [reread, lookalike, ← hpairs ihk ihv, wire, wire, aggregate.injEq]
    simp
  | set _ ih | push _ ih =>
    rw [reread, lookalike, ← hitems ih, wire, wire, aggregate.injEq]
    simp
  | scorePairs => exact iff_of_true (wire_reread_scorePairs _) rfl
  | @fields pairs _ _ ihk ihv =>
    have hleft : ((byProto (.array (some (pairs.flatMap fun kv => [kv.1, kv.2])))
        (.map pairs)).reread sp).wire sp .resp2 =
          .aggregate '*' (wirePairs sp .resp2 (rereadPairs sp pairs)) := rfl
    have hright : (byProto (.array (some (pairs.flatMap fun kv => [kv.1, kv.2])))
        (.map pairs)).wire sp .resp2 = .aggregate '*' (wirePairs sp .resp2 pairs) := by
      rw [wire, pick_resp2, wire, wireAll_flatMap_pair]
    rw [hleft, hright, lookalike, lookalike, ← hpairs ihk ihv, aggregate.injEq]
    simp

end Flint
