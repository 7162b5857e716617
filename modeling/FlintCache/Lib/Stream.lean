import Mathlib

/-!
# Lib/Stream — decoders of a stream that arrives in pieces

A decoder looks at what has arrived and completes, saying how much it used, asks for more, or fails.
It is **stable** when more input cannot change what it has decided.  Sequencing keeps stability
(`Stable.bind`); a stable decoder's values do not depend on how the stream was cut into reads
(`Framer.readLoop_eq_drain`).
-/

namespace Flint

open List

universe u

variable {τ ε α β : Type u}

inductive Progress (ε α : Type u)
  | complete (a : α) (used : ℕ)
  | needMore
  | error (e : ε)
  deriving DecidableEq

def Decoder (τ ε α : Type u) := List τ → Progress ε α

variable {f : α → Decoder τ ε β} {b : List τ} {a : α} {n : ℕ} {e : ε}

namespace Decoder

def after (used : ℕ) : Progress ε α → Progress ε α
  | .complete a n => .complete a (used + n)
  | .needMore => .needMore
  | .error e => .error e

def pure (a : α) : Decoder τ ε α := fun _ => .complete a 0

def bind (p : Decoder τ ε α) (f : α → Decoder τ ε β) : Decoder τ ε β := fun input =>
  match p input with
  | .complete a n => after n (f a (input.drop n))
  | .needMore => .needMore
  | .error e => .error e

instance : Monad (Decoder τ ε) where
  pure := pure
  bind := bind

def fail (e : ε) : Decoder τ ε α := fun _ => .error e

def ofExcept : Except ε α → Decoder τ ε α
  | .ok a => pure a
  | .error e => fail e

def next : Decoder τ ε τ
  | [] => .needMore
  | c :: _ => .complete c 1

def take (n : ℕ) : Decoder τ ε (List τ) := fun input =>
  if input.length < n then .needMore else .complete (input.take n) n

def times (p : Decoder τ ε α) : ℕ → Decoder τ ε (List α)
  | 0 => pure []
  | k + 1 => do
    let a ← p
    let rest ← times p k
    return a :: rest

theorem bind_apply (p : Decoder τ ε α) (f : α → Decoder τ ε β) (b : List τ) :
    (p >>= f) b = match p b with
      | .complete a n => after n (f a (b.drop n))
      | .needMore => .needMore
      | .error e => .error e := rfl

variable {p : Decoder τ ε α}

theorem bind_of_complete (h : p b = .complete a n) : (p >>= f) b = after n (f a (b.drop n)) := by
  rw [bind_apply, h]

theorem bind_of_needMore (h : p b = .needMore) : (p >>= f) b = .needMore := by rw [bind_apply, h]

theorem bind_of_error (h : p b = .error e) : (p >>= f) b = .error e := by rw [bind_apply, h]

variable {m : ℕ} {r : Progress ε α}

theorem after_eq_complete (h : after m r = .complete a n) : ∃ k, r = .complete a k ∧ m + k = n := by
  cases r with
  | complete a' k =>
    cases h
    exact ⟨k, rfl, rfl⟩
  | _ => cases h

theorem after_eq_error (h : after m r = .error e) : r = .error e := by
  cases r with
  | complete a' k | needMore => cases h
  | error e' =>
    cases h
    rfl

theorem bind_eq_complete {c : β} (h : (p >>= f) b = .complete c n) :
    ∃ a m k, p b = .complete a m ∧ f a (b.drop m) = .complete c k ∧ m + k = n := by
  rw [bind_apply] at h
  cases hp : p b with
  | complete a m =>
    rw [hp] at h
    obtain ⟨k, hk, hn⟩ := after_eq_complete h
    exact ⟨a, m, k, rfl, hk, hn⟩
  | _ => rw [hp] at h; cases h

theorem bind_eq_error (h : (p >>= f) b = .error e) :
    p b = .error e ∨ ∃ a m, p b = .complete a m ∧ f a (b.drop m) = .error e := by
  rw [bind_apply] at h
  cases hp : p b with
  | complete a m =>
    rw [hp] at h
    exact .inr ⟨a, m, rfl, after_eq_error h⟩
  | needMore => rw [hp] at h; cases h
  | error e' =>
    rw [hp] at h
    cases h
    exact .inl rfl

end Decoder

/-! ## Stability -/

structure Stable (p : Decoder τ ε α) : Prop where
  le_length : ∀ {b a n}, p b = .complete a n → n ≤ b.length
  local_ : ∀ {b a n}, p b = .complete a n → ∀ s, p (b.take n ++ s) = .complete a n
  short : ∀ {b a n}, p b = .complete a n → ∀ k < n, p (b.take k) = .needMore
  error_append : ∀ {b e}, p b = .error e → ∀ s, p (b ++ s) = .error e

namespace Stable

open Decoder

variable {p q : Decoder τ ε α}

theorem pure (a : α) : Stable (Pure.pure a : Decoder τ ε α) where
  le_length h := by
    cases h
    exact Nat.zero_le _
  local_ h s := h
  short h k hk := by
    cases h
    exact absurd hk (Nat.not_lt_zero k)
  error_append h := by cases h

theorem fail (e : ε) : Stable (fail e : Decoder τ ε α) where
  le_length h := by cases h
  local_ h := by cases h
  short h := by cases h
  error_append h s := h

theorem ofExcept (r : Except ε α) : Stable (ofExcept r : Decoder τ ε α) := by
  cases r with
  | ok a => exact Stable.pure a
  | error e => exact Stable.fail e

theorem next : Stable (next : Decoder τ ε τ) where
  le_length {b c n} h := by
    cases b with
    | nil => cases h
    | cons x b =>
      cases h
      exact Nat.succ_le_succ (Nat.zero_le _)
  local_ {b c n} h s := by
    cases b with
    | nil => cases h
    | cons x b =>
      cases h
      rfl
  short {b c n} h k hk := by
    cases b with
    | nil => cases h
    | cons x b =>
      cases h
      obtain rfl := Nat.lt_one_iff.mp hk
      rfl
  error_append {b e} h := by
    cases b with
    | _ => cases h

theorem take_eq_complete {l : List τ} (h : (take n : Decoder τ ε (List τ)) b = .complete l m) :
    n ≤ b.length ∧ l = b.take n ∧ m = n := by
  unfold Decoder.take at h
  split at h
  · cases h
  · cases h
    exact ⟨by omega, rfl, rfl⟩

theorem take (n : ℕ) : Stable (take n : Decoder τ ε (List τ)) where
  le_length h := by
    obtain ⟨hle, -, rfl⟩ := take_eq_complete h
    exact hle
  local_ {b l m} h s := by
    obtain ⟨hle, rfl, rfl⟩ := take_eq_complete h
    have hlen : (b.take m).length = m := length_take_of_le hle
    rw [Decoder.take, if_neg (by rw [length_append]; omega), take_left' hlen]
  short {b l m} h k hk := by
    obtain ⟨hle, -, rfl⟩ := take_eq_complete h
    rw [Decoder.take, if_pos (by rw [length_take]; omega)]
  error_append {b e} h := by
    unfold Decoder.take at h
    split at h <;> cases h

section

variable (hp : Stable p)
include hp

theorem append (h : p b = .complete a n) (s : List τ) : p (b ++ s) = .complete a n := by
  rw [← take_append_drop n b, append_assoc]
  exact hp.local_ h _

theorem take_of_le (h : p b = .complete a n) {k : ℕ} (hk : n ≤ k) :
    p (b.take k) = .complete a n := by
  have htake : b.take k = b.take n ++ (b.take k).drop n := by
    conv_lhs => rw [← take_append_drop n (b.take k), take_take, Nat.min_eq_left hk]
  rw [htake]
  exact hp.local_ h _

theorem bind (hf : ∀ a, Stable (f a)) : Stable (p >>= f) where
  le_length {b c n} h := by
    obtain ⟨a, m, k, hpa, hfc, rfl⟩ := bind_eq_complete h
    have hm := hp.le_length hpa
    have hk := (hf a).le_length hfc
    rw [length_drop] at hk
    omega
  local_ {b c n} h s := by
    obtain ⟨a, m, k, hpa, hfc, rfl⟩ := bind_eq_complete h
    have hm := hp.le_length hpa
    have htake : b.take (m + k) ++ s = b.take m ++ ((b.drop m).take k ++ s) := by
      rw [take_add, append_assoc]
    have hdrop : (b.take m ++ ((b.drop m).take k ++ s)).drop m = (b.drop m).take k ++ s :=
      drop_left' (length_take_of_le hm)
    rw [htake, bind_of_complete (hp.local_ hpa _), hdrop, (hf a).local_ hfc s]
    rfl
  short {b c n} h k hk := by
    obtain ⟨a, m, j, hpa, hfc, rfl⟩ := bind_eq_complete h
    -- The cut is inside the first value or, the first being whole, inside the second.
    by_cases hkm : k < m
    · exact bind_of_needMore (hp.short hpa k hkm)
    have hle : m ≤ k := Nat.le_of_not_lt hkm
    rw [bind_of_complete (hp.take_of_le hpa hle), drop_take, (hf a).short hfc (k - m) (by omega)]
    rfl
  error_append {b e} h s := by
    obtain hpe | ⟨a, m, hpa, hfe⟩ := bind_eq_error h
    · exact bind_of_error (hp.error_append hpe s)
    have hm := hp.le_length hpa
    rw [bind_of_complete (hp.append hpa s), drop_append_of_le_length hm, (hf a).error_append hfe s]
    rfl

theorem ite {q : Decoder τ ε α} {c : Prop} [Decidable c] (hq : Stable q) :
    Stable (if c then p else q) := by
  split
  · exact hp
  · exact hq

omit hp in
theorem times (hp : Stable p) : ∀ k, Stable (p.times k)
  | 0 => Stable.pure []
  | k + 1 => hp.bind fun _ => (times hp k).bind fun _ => Stable.pure _

end

end Stable

def Decoder.byHead (test : τ → Bool) (p q : Decoder τ ε α) : Decoder τ ε α
  | [] => .needMore
  | x :: b => if test x then p (x :: b) else q (x :: b)

variable {test : τ → Bool}

theorem Decoder.byHead_eq_complete {b : List τ} {a : α}
    {n : ℕ} (h : byHead test p q b = .complete a n) :
    p b = .complete a n ∨ q b = .complete a n := by
  cases b with
  | nil => cases h
  | cons x b =>
    cases hx : test x with
    | true => exact .inl ((if_pos hx).symm.trans h)
    | false => exact .inr ((if_neg (by rw [hx]; exact Bool.false_ne_true)).symm.trans h)

theorem Stable.byHead (hp : Stable p) (hq : Stable q)
    (hppos : ∀ {b a n}, p b = .complete a n → 0 < n)
    (hqpos : ∀ {b a n}, q b = .complete a n → 0 < n) : Stable (Decoder.byHead test p q) := by
  -- Either way the choice is made on the first symbol, which both sides still see.
  have hchoice (x : τ) : (∀ b, Decoder.byHead test p q (x :: b) = p (x :: b)) ∨
      ∀ b, Decoder.byHead test p q (x :: b) = q (x :: b) := by
    cases h : test x with
    | true => exact .inl fun b => if_pos h
    | false => exact .inr fun b => if_neg (by rw [h]; exact Bool.false_ne_true)
  have htake (x : τ) (b : List τ) {n : ℕ} (hn : 0 < n) :
      (x :: b).take n = x :: b.take (n - 1) := by
    obtain ⟨n, rfl⟩ := Nat.exists_eq_succ_of_ne_zero (Nat.ne_of_gt hn)
    rfl
  refine ⟨fun {b a n} h => ?_, fun {b a n} h s => ?_, fun {b a n} h k hk => ?_, fun {b e} h s => ?_⟩
  all_goals
    cases b with
    | nil => cases h
    | cons x b => ?_
  · obtain hx | hx := hchoice x
    · exact hp.le_length (hx b ▸ h)
    · exact hq.le_length (hx b ▸ h)
  · obtain hx | hx := hchoice x
    · rw [hx] at h
      rw [htake x b (hppos h), cons_append, hx, ← cons_append, ← htake x b (hppos h)]
      exact hp.local_ h s
    · rw [hx] at h
      rw [htake x b (hqpos h), cons_append, hx, ← cons_append, ← htake x b (hqpos h)]
      exact hq.local_ h s
  · cases k with
    | zero => rfl
    | succ k =>
      obtain hx | hx := hchoice x
      · rw [take_succ_cons, hx]
        exact hp.short (hx b ▸ h) (k + 1) hk
      · rw [take_succ_cons, hx]
        exact hq.short (hx b ▸ h) (k + 1) hk
  obtain hx | hx := hchoice x
  · rw [cons_append, hx]
    exact hp.error_append (hx b ▸ h) s
  · rw [cons_append, hx]
    exact hq.error_append (hx b ▸ h) s

/-! ## Reading a stream -/

/-- A decoder fit for reading a stream: stable, and never complete on nothing. -/
structure Framer (τ ε α : Type u) where
  decode : Decoder τ ε α
  stable : Stable decode
  consumes : ∀ {b a n}, decode b = .complete a n → 0 < n

abbrev Chunk (τ : Type u) := { c : List τ // c ≠ [] }

/-- How a stream ended: the decoder failed, or the peer closed with an unfinished value left. -/
inductive Ending (τ ε : Type u)
  | error (e : ε)
  | closed (rest : List τ)

namespace Framer

variable (F : Framer τ ε α)

def drain (acc : List τ) : List α × Ending τ ε :=
  match _h : F.decode acc with
  | .complete a n => (a :: (drain (acc.drop n)).1, (drain (acc.drop n)).2)
  | .needMore => ([], .closed acc)
  | .error e => ([], .error e)
termination_by acc.length
decreasing_by
  all_goals
    have hpos := F.consumes _h
    have hle := F.stable.le_length _h
    rw [length_drop]
    omega

/-- The read loop: empty the buffer, then read again, until the decoder fails or the peer closes. -/
def readLoop (acc : List τ) : List (Chunk τ) → List α × Ending τ ε
  | [] => F.drain acc
  | c :: chunks =>
    match F.drain acc with
    | (values, .closed rest) =>
      (values ++ (readLoop (rest ++ c.1) chunks).1, (readLoop (rest ++ c.1) chunks).2)
    | (values, .error e) => (values, .error e)

def stream (chunks : List (Chunk τ)) : List τ := (chunks.map (·.1)).flatten

variable {F} {acc : List τ}

theorem drain_of_complete (h : F.decode acc = .complete a n) :
    F.drain acc = (a :: (F.drain (acc.drop n)).1, (F.drain (acc.drop n)).2) := by
  rw [drain]
  split
  · rename_i a' n' h'
    cases h.symm.trans h'
    rfl
  · next h' => cases h.symm.trans h'
  · next h' => cases h.symm.trans h'

theorem drain_of_needMore (h : F.decode acc = .needMore) : F.drain acc = ([], .closed acc) := by
  rw [drain]
  split
  · next h' => cases h.symm.trans h'
  · rfl
  · next h' => cases h.symm.trans h'

theorem drain_of_error (h : F.decode acc = .error e) : F.drain acc = ([], .error e) := by
  rw [drain]
  split
  · next h' => cases h.symm.trans h'
  · next h' => cases h.symm.trans h'
  · rename_i h'
    cases h.symm.trans h'
    rfl

theorem drain_append (acc s : List τ) : F.drain (acc ++ s) = match F.drain acc with
      | (values, .closed rest) => (values ++ (F.drain (rest ++ s)).1, (F.drain (rest ++ s)).2)
      | (values, .error e) => (values, .error e) := by
  -- By induction on the buffer: a value shortens it.
  induction hlen : acc.length using Nat.strongRecOn generalizing acc with
  | _ len ih =>
    cases h : F.decode acc with
    | complete a n =>
      have hle := F.stable.le_length h
      have hlt : (acc.drop n).length < len := by
        have hpos := F.consumes h
        rw [length_drop]
        omega
      rw [drain_of_complete (F.stable.append h s), drop_append_of_le_length hle,
        ih _ hlt (acc.drop n) rfl, drain_of_complete h]
      rcases (F.drain (acc.drop n)) with ⟨values, ending⟩
      cases ending with
      | _ => rfl
    | needMore =>
      rw [drain_of_needMore h]
      rfl
    | error e => rw [drain_of_error h, drain_of_error (F.stable.error_append h s)]

theorem readLoop_eq_drain (acc : List τ) (chunks : List (Chunk τ)) :
    F.readLoop acc chunks = F.drain (acc ++ stream chunks) := by
  induction chunks generalizing acc with
  | nil => rw [readLoop, stream, map_nil, flatten_nil, append_nil]
  | cons c chunks ih =>
    have hstream : stream (c :: chunks) = c.1 ++ stream chunks := by
      rw [stream, map_cons, flatten_cons, ← stream]
    rw [readLoop, hstream, drain_append]
    split
    · rw [ih, append_assoc]
    · rfl

end Framer

end Flint
