import FlintCache.Storage.Zsets

/-!
# Storage/ByteOrder — what sorts as its bytes do

Scores, list indexes and stream IDs are written so that the rows of a store, which are in the order
of their bytes, are in the order of the numbers (`encodings_ordered`).  The two zeros are one number
with two encodings.
-/

namespace Flint

open List

def biasIndex (i : Int64) : UInt64 := i.toUInt64 ^^^ signBit

def unbiasIndex (b : UInt64) : Int64 := (b ^^^ signBit).toInt64

def readBe64 : Bytes → Option (UInt64 × Bytes)
  | b₇ :: b₆ :: b₅ :: b₄ :: b₃ :: b₂ :: b₁ :: b₀ :: rest =>
    some (fromBe64 b₇ b₆ b₅ b₄ b₃ b₂ b₁ b₀, rest)
  | _ => none

def streamIdFromBytes (b : Bytes) : Option (UInt64 × UInt64) := do
  let (ms, rest) ← readBe64 b
  let (seq, _) ← readBe64 rest
  some (ms, seq)

/-- What a score's low sixty-three bits come to, in units of the smallest positive score. -/
def magnitude (m : ℕ) : ℕ :=
  if m < 2 ^ 52 then m else (2 ^ 52 + m % 2 ^ 52) * 2 ^ (m / 2 ^ 52 - 1)

/-- The number that a score's bits stand for; an infinity is one step past the largest. -/
def scoreValue (s : UInt64) : Option ℤ :=
  if isNan s then none
  else some (if s.toNat < 2 ^ 63 then magnitude s.toNat else -magnitude (s.toNat - 2 ^ 63))

/-! ## Bytes as numbers -/

def bytesValue : Bytes → ℕ
  | [] => 0
  | b :: l => b.toNat * 256 ^ l.length + bytesValue l

theorem bytesValue_lt (l : Bytes) : bytesValue l < 256 ^ l.length := by
  induction l with
  | nil => exact one_pos
  | cons b l ih =>
    calc b.toNat * 256 ^ l.length + bytesValue l < b.toNat * 256 ^ l.length + 256 ^ l.length :=
          Nat.add_lt_add_left ih _
      _ = (b.toNat + 1) * 256 ^ l.length := (Nat.succ_mul _ _).symm
      _ ≤ 256 * 256 ^ l.length := Nat.mul_le_mul_right _ b.toNat_lt
      _ = _ := (pow_succ' _ _).symm

theorem mixed_lt {a a' r r' c : ℕ} (hr : r < c) (hr' : r' < c) :
    a * c + r < a' * c + r' ↔ a < a' ∨ a = a' ∧ r < r' := by
  rcases lt_trichotomy a a' with h | rfl | h
  · have := Nat.mul_le_mul_right c h
    rw [Nat.succ_mul] at this
    omega
  · omega
  · have := Nat.mul_le_mul_right c h
    rw [Nat.succ_mul] at this
    omega

theorem bytes_lt_iff {l l' : Bytes} (h : l.length = l'.length) :
    l < l' ↔ bytesValue l < bytesValue l' := by
  induction l generalizing l' with
  | nil => rw [length_eq_zero_iff.mp h.symm]; simp
  | cons b l ih =>
    cases l' with
    | nil => cases h
    | cons b' l' =>
      have hlen : l.length = l'.length := Nat.succ.inj h
      rw [cons_lt_cons_iff, ih hlen, bytesValue, bytesValue, hlen, UInt8.lt_iff_toNat_lt,
        ← UInt8.toNat_inj, mixed_lt (hlen ▸ bytesValue_lt l) (bytesValue_lt l')]

theorem bytesValue_be64 (n : UInt64) : bytesValue (be64 n) = n.toNat := by
  have hread := congrArg UInt64.toNat (fromBe64_be64 n)
  have hlt := bytesValue_lt (be64 n)
  simp only [fromBe64, UInt64.toNat_ofNat'] at hread
  simp only [be64, bytesValue, length_cons, length_nil] at hlt ⊢
  omega

theorem be64_lt_be64 {m n : UInt64} : be64 m < be64 n ↔ m.toNat < n.toNat := by
  rw [bytes_lt_iff (by rw [length_be64, length_be64]), bytesValue_be64, bytesValue_be64]

theorem readBe64_be64 (n : UInt64) (rest : Bytes) : readBe64 (be64 n ++ rest) = some (n, rest) := by
  simp only [be64, cons_append, nil_append, readBe64, fromBe64_be64]

theorem toNat_xor_signBit (b : UInt64) : (b ^^^ signBit).toNat = (2 ^ 63 + b.toNat) % 2 ^ 64 := by
  refine Nat.eq_of_testBit_eq fun i => ?_
  have hs : signBit.toNat = 2 ^ 63 := by decide
  rw [UInt64.toNat_xor, Nat.testBit_xor, hs, Nat.testBit_mod_two_pow]
  rcases lt_trichotomy i 63 with hi | rfl | hi
  · rw [Nat.testBit_two_pow_add_gt hi, Nat.testBit_two_pow_of_ne hi.ne', Bool.xor_false,
      decide_eq_true (by omega), Bool.true_and]
  · rw [Nat.testBit_two_pow_add_eq, Nat.testBit_two_pow_self, Bool.xor_true]
    rfl
  · rw [Nat.testBit_lt_two_pow (b.toNat_lt.trans_le (Nat.pow_le_pow_right Nat.two_pos hi)),
      Nat.testBit_two_pow_of_ne hi.ne, decide_eq_false (by omega)]
    rfl

theorem toInt_biasIndex (i : Int64) : ((biasIndex i).toNat : ℤ) = i.toInt + 2 ^ 63 := by
  have hbits : i.toInt = i.toUInt64.toBitVec.toInt := rfl
  have hlt := i.toUInt64.toNat_lt
  rw [biasIndex, toNat_xor_signBit, hbits, BitVec.toInt_eq_toNat_cond, UInt64.toNat_toBitVec]
  split <;> omega

/-! ## Scores -/

theorem magnitude_strictMono : StrictMono magnitude := by
  refine strictMono_nat_of_lt_succ fun m => ?_
  unfold magnitude
  by_cases hm : m + 1 < 2 ^ 52
  · rw [if_pos hm, if_pos (by omega)]
    exact Nat.lt_succ_self m
  rw [if_neg hm]
  by_cases hm' : m < 2 ^ 52
  · have hm : m = 2 ^ 52 - 1 := by omega
    subst hm
    decide
  rw [if_neg hm']
  by_cases hf : m % 2 ^ 52 + 1 < 2 ^ 52
  · have hdiv : (m + 1) / 2 ^ 52 = m / 2 ^ 52 := by omega
    have hmod : (m + 1) % 2 ^ 52 = m % 2 ^ 52 + 1 := by omega
    rw [hdiv, hmod]
    exact Nat.mul_lt_mul_of_pos_right (by omega) (Nat.two_pow_pos _)
  · have hdiv : (m + 1) / 2 ^ 52 - 1 = m / 2 ^ 52 - 1 + 1 := by omega
    have hmod : (m + 1) % 2 ^ 52 = 0 := by omega
    rw [hdiv, hmod, pow_succ' 2 (m / 2 ^ 52 - 1), ← Nat.mul_assoc]
    exact Nat.mul_lt_mul_of_pos_right (by omega) (Nat.two_pow_pos _)

theorem bytesValue_append (l m : Bytes) :
    bytesValue (l ++ m) = bytesValue l * 256 ^ m.length + bytesValue m := by
  induction l with
  | nil => rw [bytesValue, Nat.zero_mul, Nat.zero_add, nil_append]
  | cons b l ih =>
    rw [cons_append, bytesValue, bytesValue, ih, length_append, Nat.pow_add,
        Nat.add_mul, Nat.mul_assoc,
      Nat.add_assoc]

theorem score_lt_iff {a b : UInt64} {x y : ℤ} (ha : scoreValue a = some x)
    (hb : scoreValue b = some y) :
    be64 (encodeScore a) < be64 (encodeScore b) ↔ x < y ∨ a = signBit ∧ b = 0 := by
  obtain ⟨-, hx⟩ := Option.ite_none_left_eq_some.mp ha
  obtain ⟨-, hy⟩ := Option.ite_none_left_eq_some.mp hb
  have hsign : signBit.toNat = 2 ^ 63 := by decide
  have hmono := @magnitude_strictMono.lt_iff_lt
  have hle (m : ℕ) : m ≤ magnitude m := magnitude_strictMono.le_apply
  rw [be64_lt_be64, toNat_encodeScore, toNat_encodeScore,
      ← Option.some.inj hx, ← Option.some.inj hy,
    ← UInt64.toNat_inj, ← UInt64.toNat_inj (b := 0), hsign, UInt64.toNat_zero]
  split_ifs with h h' h'
  · rw [Int.ofNat_lt, hmono]
    omega
  · have := hle a.toNat
    omega
  · have ha := hle (a.toNat - 2 ^ 63)
    have hb := hle b.toNat
    omega
  · have ha := a.toNat_lt
    have hb := b.toNat_lt
    rw [neg_lt_neg_iff, Int.ofNat_lt, hmono]
    omega

/-- **Byte order is the order of what is encoded**, but that of the two zeros, which are one number
with two encodings, the negative one sorts first. -/
theorem encodings_ordered {a b : UInt64} {x y : ℤ} (ha : scoreValue a = some x)
    (hb : scoreValue b = some y) (i j : Int64) (id id' : UInt64 × UInt64) :
    (be64 (encodeScore a) < be64 (encodeScore b) ↔ x < y ∨ a = signBit ∧ b = 0) ∧
      decodeScore (encodeScore a) = a ∧
      (be64 (biasIndex i) < be64 (biasIndex j) ↔ i < j) ∧ unbiasIndex (biasIndex i) = i ∧
      (streamIdBytes id < streamIdBytes id' ↔ toLex id < toLex id') ∧
      streamIdFromBytes (streamIdBytes id) = some id := by
  refine ⟨score_lt_iff ha hb, decodeScore_encodeScore a, ?_, ?_, ?_, ?_⟩
  · have hi := toInt_biasIndex i
    have hj := toInt_biasIndex j
    rw [be64_lt_be64, Int64.lt_iff_toInt_lt]
    omega
  · rw [unbiasIndex, biasIndex, UInt64.xor_assoc, UInt64.xor_self, UInt64.xor_zero]
    rfl
  · have hlex : toLex id < toLex id' ↔ id.1.toNat < id'.1.toNat ∨ id.1.toNat = id'.1.toNat ∧
        id.2.toNat < id'.2.toNat := by
      rw [Prod.Lex.toLex_lt_toLex, UInt64.lt_iff_toNat_lt, UInt64.lt_iff_toNat_lt, UInt64.toNat_inj]
    have hbound (n : UInt64) : bytesValue (be64 n) < 256 ^ 8 := bytesValue_lt (be64 n)
    rw [hlex, streamIdBytes, streamIdBytes,
        bytes_lt_iff (by simp only [length_append, length_be64]),
      bytesValue_append, bytesValue_append, length_be64, length_be64,
          mixed_lt (hbound _) (hbound _)]
    simp only [bytesValue_be64]
  · have hseq := readBe64_be64 id.2 []
    rw [append_nil] at hseq
    simp [streamIdFromBytes, streamIdBytes, readBe64_be64, hseq]

theorem encodings_ordered_smallest : scoreValue 0x8000000000000001 = some (-1) ∧
    scoreValue 0 = some 0 ∧ be64 (encodeScore 0x8000000000000001) < be64 (encodeScore 0) :=
  ⟨by decide, by decide, (encodings_ordered (by decide) (by decide) 0 0 (0, 0) (0, 0)).1.mpr
    (.inl (by decide : (-1 : ℤ) < 0))⟩

/-- **Of the two zeros the negative one sorts first**, though neither is less than the other. -/
theorem negative_zero_sorts_first : scoreValue signBit = some 0 ∧ scoreValue 0 = some 0 ∧
    be64 (encodeScore signBit) < be64 (encodeScore 0) := by decide

end Flint
