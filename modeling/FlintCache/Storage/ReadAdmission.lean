import FlintCache.Lib.Machine

/-!
# Storage/ReadAdmission — the sum of the collection reads in flight

A read holds an estimate of its cost until its reply is encoded.  `admit` loads the count,
compares, and adds; between load and addition other reads may add theirs.
-/

namespace Flint

open List

def u64Max : ℕ := 2 ^ 64 - 1

def readEstimate (bytes : ℕ) : ℕ := min (bytes * 35 / 10) u64Max

/-- The enforcing mode, with a fixed figure of available memory. -/
structure ReadAdmission where
  pct : ℕ
  avail : ℕ

/-- The admitted reads and those that decide whether they are. -/
structure ReadsInFlight where
  inFlight : ℕ := 0
  /-- The reads between load and addition: their estimates and the counts they found. -/
  loaded : List (ℕ × ℕ) := []
  held : List ℕ := []

inductive ReadEvent
  | load (bytes : ℕ)
  | decide (i : ℕ)
  | release (i : ℕ)

namespace ReadAdmission

variable (a : ReadAdmission)

def budget : ℕ := min (a.avail * a.pct / 100) u64Max

def fits (inFlight est : ℕ) : Bool := min (inFlight + est) u64Max ≤ a.budget

def step (s : ReadsInFlight) : ReadEvent → Option ReadsInFlight
  | .load bytes =>
    if a.pct = 0 then some s
    else some { s with loaded := s.loaded ++ [(readEstimate bytes, s.inFlight)] }
  | .decide i =>
    match s.loaded[i]? with
    | some (est, found) =>
      if a.fits found est then
        some ⟨(s.inFlight + est) % 2 ^ 64, s.loaded.eraseIdx i, s.held ++ [est]⟩
      else some { s with loaded := s.loaded.eraseIdx i }
    | none => none
  | .release i =>
    match s.held[i]? with
    | some est => some { s with inFlight := s.inFlight - est, held := s.held.eraseIdx i }
    | none => none

def machine : Machine ReadsInFlight ReadEvent := ⟨(· = {}), a.step⟩

/-- **A schedule on which no read is overtaken**: between a read's look at the count and its
addition no more was added than given back. -/
def timely (s : ReadsInFlight) : ReadEvent → Bool
  | .decide i => s.loaded[i]?.all fun (_, found) => s.inFlight ≤ found
  | _ => true

variable {a} {s s' : ReadsInFlight}

/-- Below the top of the counter the comparison is one of sums, though its addition saturates. -/
theorem add_le_of_fits {inFlight est : ℕ} (hbudget : a.budget < u64Max)
    (h : a.fits inFlight est = true) : inFlight + est ≤ a.budget := by
  have hle : min (inFlight + est) u64Max ≤ a.budget := of_decide_eq_true h
  omega

theorem within_step {e : ReadEvent} (hbudget : a.budget < u64Max)
    (hs : s.inFlight = s.held.sum ∧ s.held.sum ≤ a.budget)
    (hok : timely s e) (h : a.step s e = some s') :
    s'.inFlight = s'.held.sum ∧ s'.held.sum ≤ a.budget := by
  cases e with
  | load bytes =>
    rw [step] at h
    split at h <;> cases h <;> exact hs
  | decide i =>
    rw [step] at h
    split at h
    · next est found hi =>
      rw [timely, hi] at hok
      split at h
      · next hfits =>
        cases h
        have hroom : found + est ≤ a.budget := add_le_of_fits hbudget hfits
        have hkept : s.inFlight ≤ found := by simpa using hok
        rw [u64Max] at hbudget
        rw [sum_append, sum_singleton, ← hs.1]
        exact ⟨Nat.mod_eq_of_lt (by omega), by omega⟩
      · cases h
        exact hs
    · cases h
  | release i =>
    rw [step] at h
    split at h
    · next est hi =>
      cases h
      obtain ⟨hlt, rfl⟩ := List.getElem?_eq_some_iff.mp hi
      have hsum := List.CommMonoid.add_sum_eraseIdx hlt
      dsimp only
      omega
    · cases h

end ReadAdmission

open ReadAdmission

/-- **The budget bounds the sum of the reads in flight**, and the count is that sum. -/
theorem reads_within_budget {a : ReadAdmission} {s : ReadsInFlight} (hbudget : a.budget < u64Max)
    (h : a.machine.Reach (fun s e => timely s e) s) :
    s.held.sum ≤ a.budget ∧ s.inFlight = s.held.sum ∧ (s.held = [] → s.inFlight = 0) := by
  obtain ⟨heq, hle⟩ := h.invariant (I := fun s => s.inFlight = s.held.sum ∧ s.held.sum ≤ a.budget)
    (fun _ hinit => hinit ▸ ⟨rfl, Nat.zero_le _⟩) fun _ _ _ _ => within_step hbudget
  refine ⟨hle, heq, fun hnil => ?_⟩
  rw [heq, hnil]
  rfl

theorem reads_within_budget_three :
    ∃ s, (machine ⟨100, 1000⟩).exec {}
        [.load 100, .decide 0, .load 200, .decide 0, .release 0, .load 200, .decide 0] = some s ∧
      s.held = [700] ∧ s.held.sum ≤ budget ⟨100, 1000⟩ := by
  have h : (machine ⟨100, 1000⟩).exec {}
      [.load 100, .decide 0, .load 200, .decide 0, .release 0, .load 200, .decide 0] = some _ := rfl
  exact ⟨_, h, rfl, (reads_within_budget (by decide) (.of_exec (.init rfl) (by decide) h)).1⟩

/-- **Two ways past the budget.**  Two reads that look before either adds both pass.  And a budget
at the top of the counter refuses nothing, for there the sum compared saturates: the count wraps. -/
theorem reads_past_budget :
    (∃ s, (machine ⟨100, 1000⟩).Reachable s ∧ budget ⟨100, 1000⟩ < s.held.sum) ∧
    ∃ s, (machine ⟨200, u64Max⟩).exec {}
        [.load u64Max, .decide 0, .load u64Max, .decide 0] = some s ∧
      budget ⟨200, u64Max⟩ < s.held.sum ∧ s.inFlight = u64Max - 1 := by
  have h : (machine ⟨100, 1000⟩).exec {} [.load 200, .load 200, .decide 0, .decide 0] =
      some _ := rfl
  refine ⟨⟨_, Machine.reachable_of_exec _ rfl h, by decide⟩, _, rfl, by decide, by decide⟩

end Flint
