import FlintCache.Storage.StringChunks

/-!
# Storage/Bits — counting and finding bits

`BITCOUNT` counts whole bytes and takes off the bits of the first and the last one outside the
range; `BITPOS` goes byte by byte and skips whole bytes without the bit.
-/

namespace Flint

open List Option Nat

variable {l : Bytes}

def bitcountOf (payload : Bytes) (range : Option (ℤ × ℤ × Bool)) : ℕ :=
  bitcountIn payload.length (fun start stop => (payload.drop start).take (stop + 1 - start)) range

def bitposOf (payload : Bytes) (bit : Bool) (range : Option (ℤ × Option ℤ × Bool)) : ℤ :=
  bitposIn payload.length (fun start stop => (payload.drop start).take (stop + 1 - start)) bit range

/-! ## Bit by bit -/

def resolve (units x : ℤ) : ℤ := max (if x < 0 then units + x else x) 0

/-- **The bits of a range**: those that are in it themselves, or whose bytes are. -/
def bitsWithin (len : ℕ) (start stop : ℤ) (bits : Bool) : List ℕ :=
  let units : ℤ := if bits then len * 8 else len
  (List.range (len * 8)).filter fun i =>
    let unit : ℤ := if bits then i else i / 8
    resolve units start ≤ unit && unit ≤ resolve units stop

/-- The number of set bits; two ends counted from the string's, in the wrong order, hold none. -/
def setBits (l : Bytes) (range : Option (ℤ × ℤ × Bool)) : ℕ :=
  let (start, stop, bits) := range.getD (0, -1, false)
  if start < 0 ∧ stop < 0 ∧ stop < start then 0
  else (bitsWithin l.length start stop bits).countP (bitAt l)

/-- The first bit as wanted.  A range without an end includes the zeros past the string. -/
def firstBit (l : Bytes) (bit : Bool) (range : Option (ℤ × Option ℤ × Bool)) : ℤ :=
  let (start, stop, bits) := range.getD (0, none, false)
  let within := bitsWithin l.length start (stop.getD (-1)) bits
  match within.find? fun i => bitAt l i = bit with
  | some i => i
  | none => if !bit && stop.isNone && !within.isEmpty then (l.length * 8 : ℕ) else -1

/-! ## Ranges -/

theorem filter_range' {a m lo hi : ℕ} (hlo : a ≤ lo) (hle : lo ≤ hi) (hhi : hi < a + m) :
    ((range' a m).filter fun i => lo ≤ i && i ≤ hi) = range' lo (hi + 1 - lo) := by
  obtain ⟨x, rfl⟩ := Nat.exists_eq_add_of_le hlo
  obtain ⟨n, rfl⟩ := Nat.exists_eq_add_of_le hle
  obtain ⟨y, hy⟩ := Nat.exists_eq_add_of_le (Nat.succ_le_of_lt hhi)
  obtain rfl : m = x + (n + 1 + y) := by omega
  rw [← range'_append_1, ← range'_append_1, show a + x + n + 1 - (a + x) = n + 1 by omega]
  rw [filter_append, filter_append, filter_eq_nil_iff.mpr, filter_eq_self.mpr,
    filter_eq_nil_iff.mpr, nil_append, append_nil]
  all_goals
    intro i hi
    rw [mem_range'_1] at hi
    simp
    omega

theorem bitsWithin_eq {len : ℕ} {start stop : ℤ} {bits : Bool} {w : ℤ × ℤ}
    (hw : bitWindow (if bits then len * 8 else len) start stop = w) :
    (w.2 < w.1 → bitsWithin len start stop bits = []) ∧ (w.1 ≤ w.2 →
      ∃ lo hi, lo = (if bits then w.1.toNat else w.1.toNat * 8) ∧
        hi = (if bits then w.2.toNat else w.2.toNat * 8 + 7) ∧ lo ≤ hi ∧ hi < len * 8 ∧
        bitsWithin len start stop bits = range' lo (hi + 1 - lo)) := by
  subst hw
  simp only [bitsWithin, bitWindow, resolve, range_eq_range']
  refine ⟨fun h => filter_eq_nil_iff.mpr fun i hi => ?_, fun h => ⟨_, _, rfl, rfl, ?_, ?_, ?_⟩⟩
  · rw [mem_range'_1] at hi
    cases bits <;> grind
  · cases bits <;> grind
  · cases bits <;> grind
  · rw [← filter_range' (a := 0) (m := len * 8) (zero_le _)]
    · refine filter_congr fun i hi => ?_
      rw [mem_range'_1] at hi
      cases bits <;> grind
    · cases bits <;> grind
    · cases bits <;> grind

/-! ## Bytes -/

def byteBit (b : UInt8) (i : ℕ) : Bool := b.toNat.testBit (7 - i)

theorem bitAt_eq (l : Bytes) (i : ℕ) : bitAt l i = byteBit (l.getD (i / 8) 0) (i % 8) := by
  have hmask : ∀ k < 8, ((1 : UInt8) <<< UInt8.ofNat k).toNat = 2 ^ k := by decide
  rw [bitAt, byteBit, bitMask, Bool.eq_iff_iff, decide_eq_true_eq, ne_eq, ← UInt8.toNat_inj,
    UInt8.toNat_and, hmask _ (by omega), and_two_pow]
  cases (l.getD (i / 8) 0).toNat.testBit (7 - i % 8) with
  | _ => simp

theorem bitAt_window {base n i : ℕ} (hlo : base * 8 ≤ i) (hhi : i < (base + n) * 8) :
    bitAt ((l.drop base).take n) (i - base * 8) = bitAt l i := by
  rw [bitAt_eq, bitAt_eq, getD_eq_getElem?_getD, getD_eq_getElem?_getD,
    getElem?_take, if_pos (by omega), getElem?_drop,
    show base + (i - base * 8) / 8 = i / 8 by omega, show (i - base * 8) % 8 = i % 8 by omega]

theorem countOnes_and (b : UInt8) {m : UInt8} {s n : ℕ} (hs : s ≤ 8) (hn : n ≤ 8 - s)
    (hm : ((range 8).filter fun i => m.toNat.testBit i) = range' (8 - s - n) n) :
    countOnes (b &&& m) = (range' s n).countP (byteBit b) := by
  have hmap : ∀ s ≤ 8, ∀ n ≤ 8 - s,
      (range' (8 - s - n) n).reverse = (range' s n).map (7 - ·) := by decide
  simp only [countOnes, UInt8.toNat_and, testBit_and, ← countP_eq_length_filter]
  rw [← countP_filter, hm, ← countP_reverse, hmap s hs n hn, countP_map]
  rfl

theorem countP_bitAt (l : Bytes) (k s : ℕ) {n : ℕ} (hn : n ≤ 8 - s) :
    (range' (k * 8 + s) n).countP (bitAt l) = (range' s n).countP (byteBit (l.getD k 0)) := by
  rw [← map_add_range', countP_map]
  refine countP_congr fun i hi => ?_
  rw [mem_range'_1] at hi
  rw [Function.comp_apply, bitAt_eq, show (k * 8 + i) / 8 = k by omega,
    show (k * 8 + i) % 8 = i by omega]

theorem countOnes_eq (l : Bytes) (k : ℕ) :
    countOnes (l.getD k 0) = (range' (k * 8) 8).countP (bitAt l) := by
  have hall : ((range 8).filter fun i => (0xff : UInt8).toNat.testBit i) = range' 0 8 := by
    decide
  have hones := countOnes_and (l.getD k 0) (zero_le 8) le_rfl hall
  rw [show (0xff : UInt8) = -1 from rfl, UInt8.and_neg_one] at hones
  exact hones.trans (countP_bitAt l k 0 le_rfl).symm

theorem popcount_window (l : Bytes) (a n : ℕ) :
    popcount ((l.drop a).take n) = (range' (a * 8) (n * 8)).countP (bitAt l) := by
  induction n with
  | zero => simp [popcount]
  | succ n ih =>
    rw [add_mul, one_mul, ← range'_append_1, countP_append, ← ih,
      show a * 8 + n * 8 = (a + n) * 8 by omega, ← countOnes_eq, take_add_one,
      getElem?_drop, popcount, popcount, map_append, sum_append_nat,
      getD_eq_getElem?_getD]
    cases l[a + n]? with
    | none => rfl
    | some b => simp

/-! ## Counting -/

variable {lo hi : ℕ}

theorem countP_masked (l : Bytes) (hle : lo ≤ hi) : (range' lo (hi + 1 - lo)).countP (bitAt l) =
      popcount ((l.drop (lo / 8)).take (hi / 8 + 1 - lo / 8)) -
        countOnes (l.getD (lo / 8) 0 &&& ~~~(0xff >>> UInt8.ofNat (lo % 8))) -
        countOnes (l.getD (hi / 8) 0 &&& UInt8.ofNat (255 / 2 ^ (hi % 8 + 1))) := by
  have hbefore : ∀ s < 8, ((range 8).filter fun i =>
      (~~~((0xff : UInt8) >>> UInt8.ofNat s)).toNat.testBit i) = range' (8 - 0 - s) s := by
    decide
  have hafter : ∀ s < 8, ((range 8).filter fun i =>
      (UInt8.ofNat (255 / 2 ^ (s + 1))).toNat.testBit i) =
        range' (8 - (s + 1) - (7 - s)) (7 - s) := by
    decide
  have hlo : lo % 8 < 8 := mod_lt _ (by decide)
  have hhi : hi % 8 < 8 := mod_lt _ (by decide)
  rw [countOnes_and _ (zero_le 8) (by omega) (hbefore _ hlo),
    countOnes_and _ (by omega) (by omega) (hafter _ hhi), ← countP_bitAt l _ _ (by omega),
    ← countP_bitAt l _ _ (by omega), popcount_window,
    show (hi / 8 + 1 - lo / 8) * 8 = lo % 8 + (hi + 1 - lo + (7 - hi % 8)) by omega,
    ← range'_append_1, ← range'_append_1, countP_append, countP_append,
    show lo / 8 * 8 + lo % 8 + (hi + 1 - lo) = hi / 8 * 8 + (hi % 8 + 1) by omega,
    show lo / 8 * 8 + lo % 8 = lo by omega, add_zero]
  omega

theorem bitcountOf_eq (l : Bytes) (range : Option (ℤ × ℤ × Bool)) :
    bitcountOf l range = setBits l range := by
  have hsome : ∀ start stop bits,
      bitcountOf l (some (start, stop, bits)) = setBits l (some (start, stop, bits)) := by
    intro start stop bits
    simp only [bitcountOf, bitcountIn, setBits, getD_some]
    split
    · rfl
    obtain ⟨hnone, hsome⟩ := @bitsWithin_eq l.length start stop bits _ rfl
    generalize bitWindow _ start stop = w at hnone hsome ⊢
    by_cases hw : w.2 < w.1
    · rw [if_pos hw, hnone hw, countP_nil]
    rw [if_neg hw]
    obtain ⟨lo, hi, hlo, hhi, hle, hlt, hwithin⟩ := hsome (not_lt.mp hw)
    rw [hwithin]
    cases bits with
    | false =>
      rw [if_pos rfl, popcount_window, hlo, hhi]
      congr 2
      simp only [Bool.false_eq_true, if_false]
      omega
    | true =>
      obtain ⟨rfl, rfl⟩ : lo = w.1.toNat ∧ hi = w.2.toNat := ⟨hlo, hhi⟩
      have hlen : ((l.drop (w.1.toNat / 8)).take (w.2.toNat / 8 + 1 - w.1.toNat / 8)).length =
          w.2.toNat / 8 + 1 - w.1.toNat / 8 := by
        rw [length_take, length_drop]
        omega
      rw [if_neg nofun, countP_masked l hle, hlen]
      simp only [getD_eq_getElem?_getD, getElem?_take, getElem?_drop]
      rw [if_pos (by omega), if_pos (by omega), add_zero, show w.1.toNat / 8 +
        (w.2.toNat / 8 + 1 - w.1.toNat / 8 - 1) = w.2.toNat / 8 by omega]
  cases range with
  | some range => exact hsome _ _ _
  | none =>
    rw [show setBits l none = setBits l (some (0, -1, false)) from rfl, ← hsome]
    simp only [bitcountOf, bitcountIn, bitWindow]
    grind

/-! ## Finding -/

theorem range'_bytes (a n : ℕ) :
    range' (a * 8) (n * 8) = (range' a n).flatMap fun j => range' (j * 8) 8 := by
  induction n with
  | zero => rfl
  | succ n ih =>
    rw [add_mul, one_mul, ← range'_append_1, ih, ← range'_append_1, flatMap_append,
      ← add_mul]
    simp

theorem bitAt_of_skip {j i : ℕ} {bit : Bool} (hskip : l.getD j 0 = if bit then 0x00 else 0xff)
    (hi : i ∈ range' (j * 8) 8) : bitAt l i ≠ bit := by
  have hones : ∀ i < 8, byteBit 0xff i := by decide
  have hzeros : ∀ i < 8, byteBit 0x00 i = false := by decide
  rw [mem_range'_1] at hi
  rw [bitAt_eq, show i / 8 = j by omega, hskip]
  cases bit with
  | true => simp [hzeros _ (mod_lt i (by decide))]
  | false => simp [hones _ (mod_lt i (by decide))]

theorem scan_eq (l : Bytes) {bit : Bool} {skip : UInt8} (hbit : skip = if bit then 0x00 else 0xff)
    (hle : lo ≤ hi) : (range' (lo / 8) (hi / 8 + 1 - lo / 8)).findSome? (fun j =>
      if lo ≤ j * 8 ∧ j * 8 + 7 ≤ hi ∧ ((l.drop (lo / 8)).take (hi / 8 + 1 - lo / 8)).getD
          (j - lo / 8) 0 = skip then none
      else ((range' (j * 8) 8).filter fun i => lo ≤ i && i ≤ hi).find? fun i =>
        bitAt ((l.drop (lo / 8)).take (hi / 8 + 1 - lo / 8)) (i - lo / 8 * 8) = bit) =
      (range' lo (hi + 1 - lo)).find? fun i => bitAt l i = bit := by
  rw [← filter_range' (a := lo / 8 * 8) (m := (hi / 8 + 1 - lo / 8) * 8) (by omega) hle (by omega),
    range'_bytes, filter_flatMap, find?_flatMap, ← head?_filterMap, ← head?_filterMap]
  refine congrArg _ (filterMap_congr fun j hj => ?_)
  rw [mem_range'_1] at hj
  split
  · next hskip =>
    have hbyte : l.getD j 0 = if bit then 0x00 else 0xff := by
      rw [← hbit, ← hskip.2.2, getD_eq_getElem?_getD, getD_eq_getElem?_getD, getElem?_take,
        if_pos (by omega), getElem?_drop, Nat.add_sub_cancel' hj.1]
    refine (find?_eq_none.mpr fun i hi => ?_).symm
    simpa using bitAt_of_skip hbyte (mem_of_mem_filter hi)
  · rw [← head?_filter, ← head?_filter]
    refine congrArg _ (filter_congr fun i hi => ?_)
    have hmem := mem_range'_1.mp (mem_of_mem_filter hi)
    rw [bitAt_window (by omega) (by omega)]

theorem bitposOf_eq (l : Bytes) (bit : Bool) (range : Option (ℤ × Option ℤ × Bool)) :
    bitposOf l bit range = firstBit l bit range := by
  have hsome : ∀ start stop bits,
      bitposOf l bit (some (start, stop, bits)) = firstBit l bit (some (start, stop, bits)) := by
    intro start stop bits
    have hstop : ∀ units : ℤ, 0 ≤ units →
        bitWindow units start (stop.getD (units - 1)) = bitWindow units start (stop.getD (-1)) := by
      intro units hunits
      cases stop with
      | none =>
        simp only [bitWindow, getD_none]
        grind
      | some stop => rfl
    simp only [bitposOf, bitposIn, firstBit, getD_some]
    rw [hstop _ (by cases bits <;> simp)]
    obtain ⟨hnone, hsome⟩ := @bitsWithin_eq l.length start (stop.getD (-1)) bits _ rfl
    generalize hw : bitWindow _ start (stop.getD (-1)) = w at hnone hsome ⊢
    by_cases hlt : w.2 < w.1
    · simp [if_pos hlt, hnone hlt]
    obtain ⟨lo, hi, hlo, hhi, hle, hlen, hwithin⟩ := hsome (not_lt.mp hlt)
    rw [if_neg hlt, ← hlo, ← hhi, scan_eq l rfl hle]
    simp only [hwithin]
    cases (range' lo (hi + 1 - lo)).find? fun i => bitAt l i = bit with
    | some i => rfl
    | none =>
      have hlast : stop = none → hi + 1 = l.length * 8 := by
        rintro rfl
        subst hw
        simp only [bitWindow, getD_none] at hlt hhi
        cases bits <;> grind
      have hmem : (range' lo (hi + 1 - lo)).isEmpty = false := by
        rw [isEmpty_eq_false_iff, ne_eq, range'_eq_nil_iff]
        omega
      cases stop with
      | none => simp [hmem, ← hlast rfl]
      | some stop => simp
  cases range with
  | some range => exact hsome _ _ _
  | none =>
    rw [show firstBit l bit none = firstBit l bit (some (0, none, false)) from rfl, ← hsome]
    have hwindow : bitWindow l.length 0 (l.length - 1) = (0, (l.length : ℤ) - 1) := by
      simp only [bitWindow]
      grind
    simp [bitposOf, bitposIn, hwindow]

/-! ## The commands -/

/-- **`BITCOUNT` and `BITPOS` are what they are bit by bit**, of a string in one row or in
chunks. -/
theorem bits_exact {κ : Type} [DecidableEq κ] {cfg : StringConfig} {st pl : StringRows κ}
    (h : StringSim cfg st pl) (clk : StringClock) {k : κ} {s : Bytes × ℕ}
    (hs : st.readable cfg (clk.live 0) k = some s) (range : Option (ℤ × ℤ × Bool)) (bit : Bool)
    (range' : Option (ℤ × Option ℤ × Bool)) :
    (st.bitcount cfg clk k range).1 = .len (setBits s.1 range) ∧
      (st.bitpos cfg clk k bit range').1 = .int (firstBit s.1 bit range') := by
  obtain ⟨a, b, st', pl', hst, hpl, hsim, hrel⟩ := h.read k (clk.live 0)
  rw [(h.bitcount clk k range).1, (h.bitpos clk k bit range').1]
  rw [h.readable] at hs
  unfold StringRows.readable at hs
  unfold StringRows.bitcount StringRows.bitpos
  rw [hpl] at hs ⊢
  cases hrel with
  | none => cases hs
  | _ =>
    obtain rfl := Option.some.inj hs
    exact ⟨congrArg _ (bitcountOf_eq _ range), congrArg _ (bitposOf_eq _ bit range')⟩

/-- Of the bits of three bytes from `4` to `15` ten are set, and `9` is the first that is not. -/
theorem bits_exact_three :
    let st : StringRows Unit := ⟨fun _ => some (.inline [0xff, 0x9f, 0x00] 0), fun _ _ => .empty, 0⟩
    (st.bitcount bitmapConfig ⟨fun _ => 0, 0⟩ () (some (4, 15, true))).1 = .len 10 ∧
      (st.bitpos bitmapConfig ⟨fun _ => 0, 0⟩ () false (some (4, none, true))).1 = .int 9 := by
  intro st
  have h : StringSim bitmapConfig st st := ⟨fun _ => .inline (by decide), fun _ _ _ => rfl⟩
  obtain ⟨hcount, hpos⟩ := bits_exact h ⟨fun _ => 0, 0⟩ (k := ()) rfl (some (4, 15, true)) false
    (some (4, none, true))
  exact ⟨hcount.trans (congrArg _ (by decide : setBits [0xff, 0x9f, 0x00] _ = 10)),
    hpos.trans (congrArg _ (by decide : firstBit [0xff, 0x9f, 0x00] false _ = 9))⟩

end Flint
