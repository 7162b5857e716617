import Mathlib

/-!
# Lib/Asking — what a computation may come to ask

A computation that asks questions, one at a time, and goes on by the answers.  Nothing is said of
who answers: `Asks` is what it asks under some answers.  `walk` is the loop over a list of
questions, left or broken off by an answer; as long as some answer lets it go on, it may ask every
one of them (`asks_walk`).
-/

namespace Flint

/-- A program that asks, and goes on from what it is answered. -/
inductive Asking (ρ α : Type)
  | done
  | ask (q : ρ) (next : α → Asking ρ α)

/-- How a walk goes on after an answer. -/
inductive WalkStep
  | go
  | leave
  | stop
  deriving DecidableEq, Repr

namespace Asking

variable {ρ α : Type}

/-- A question that the program comes to, under some answers. -/
inductive Asks : Asking ρ α → ρ → Prop
  | here {q : ρ} {next : α → Asking ρ α} : Asks (.ask q next) q
  | later {q q' : ρ} {next : α → Asking ρ α} {a : α} (h : Asks (next a) q') : Asks (.ask q next) q'

def walk (act : α → WalkStep) : List ρ → Asking ρ α → Asking ρ α
  | [], rest => rest
  | q :: qs, rest => .ask q fun a => match act a with
    | .go => walk act qs rest
    | .leave => rest
    | .stop => .done

@[simp] theorem not_asks_done (q : ρ) : ¬ (done : Asking ρ α).Asks q := nofun

@[simp] theorem asks_ask {q q' : ρ} {next : α → Asking ρ α} :
    (ask q next).Asks q' ↔ q' = q ∨ ∃ a, (next a).Asks q' := by
  refine ⟨fun h => ?_, fun h => ?_⟩
  · cases h with
    | here => exact .inl rfl
    | later h => exact .inr ⟨_, h⟩
  · obtain rfl | ⟨a, h⟩ := h
    · exact .here
    · exact .later h

@[simp] theorem asks_walk {act : α → WalkStep} (hgo : ∃ a, act a = .go) {qs : List ρ}
    {rest : Asking ρ α} {q : ρ} : (walk act qs rest).Asks q ↔ q ∈ qs ∨ rest.Asks q := by
  obtain ⟨a₀, ha₀⟩ := hgo
  induction qs with
  | nil => simp [walk]
  | cons q' qs ih =>
    rw [walk, asks_ask, List.mem_cons, or_assoc]
    refine or_congr_right ⟨fun ⟨a, h⟩ => ?_, fun h => ⟨a₀, ?_⟩⟩
    · split at h
      · exact ih.mp h
      · exact .inr h
      · exact absurd h (not_asks_done q)
    · rw [ha₀]
      exact ih.mpr h

end Asking

end Flint
