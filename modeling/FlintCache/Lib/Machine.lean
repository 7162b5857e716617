import Mathlib

/-!
# Lib/Machine — guarded machines, their runs and the invariant rule

A **machine** has initial states and a deterministic, partial step function: an event carries every
choice made outside the machine (who acts, which message is delivered, what a clock reads), so a run
is a list of events.

`exec` folds the step over an event list and computes; `Reach ok` is the inductive set of states
reached by steps that all meet the guard `ok`.  `Reach.of_exec` passes from the first to the second,
and `Reach.invariant` is the one induction every safety result uses.
-/

/-- A labelled transition system: initial states, and what an event does to a state — `none` when
the event is not enabled there. -/
structure Machine (σ ε : Type*) where
  init : σ → Prop
  /-- The effect of an event, `none` where it cannot happen. -/
  step : σ → ε → Option σ

namespace Machine

variable {σ ε : Type*} (M : Machine σ ε) {ok ok' : σ → ε → Prop} {s s' : σ}

/-- **Guarded reachability**: the states of the runs whose every step `(s, e)` meets `ok s e`. -/
inductive Reach (ok : σ → ε → Prop) : σ → Prop
  | init {s : σ} : M.init s → Reach ok s
  | step {s s' : σ} (e : ε) : Reach ok s → ok s e → M.step s e = some s' → Reach ok s'

abbrev Reachable : σ → Prop := M.Reach fun _ _ => True

/-- Run a list of events from a state, stopping with `none` at the first disabled one. -/
def exec (s : σ) : List ε → Option σ
  | [] => some s
  | e :: es => (M.step s e).bind fun s' => exec s' es

@[simp] theorem exec_cons (s : σ) (e : ε) (es : List ε) :
    M.exec s (e :: es) = (M.step s e).bind fun s' => M.exec s' es := rfl

variable {es : List ε} {M} in
theorem eq_of_exec_map {α : Type*} {f : σ → α} {a : α} (h : M.exec s es = some s')
    (hf : (M.exec s es).map f = some a) : f s' = a := by
  rw [h] at hf
  exact Option.some.inj hf

variable {M} in
theorem exec_eq_some_getD (d : σ) (h : (M.exec s es).isSome = true) :
    M.exec s es = some ((M.exec s es).getD d) := by
  obtain ⟨s', hs'⟩ := Option.isSome_iff_exists.mp h
  rw [hs']
  rfl

/-- **Every step of a run meets the guard** — the executable side of `Reach`. -/
def Guarded (ok : σ → ε → Prop) (s : σ) : List ε → Prop
  | [] => True
  | e :: es => ok s e ∧ (M.step s e).elim True fun s' => Guarded ok s' es

instance decidableGuarded [∀ s e, Decidable (ok s e)] :
    ∀ (s : σ) (es : List ε), Decidable (M.Guarded ok s es)
  | _, [] => inferInstanceAs (Decidable True)
  | s, e :: es =>
    have : Decidable ((M.step s e).elim True fun s' => M.Guarded ok s' es) :=
      match M.step s e with
      | none => inferInstanceAs (Decidable True)
      | some s' => decidableGuarded s' es
    inferInstanceAs (Decidable (_ ∧ _))

variable {M} in
theorem Guarded.cons {e : ε} (hok : ok s e) (hst : M.step s e = some s')
    (h : M.Guarded ok s' es) : M.Guarded ok s (e :: es) :=
  ⟨hok, by rwa [hst]⟩

variable {M} in
theorem guarded_cons {e : ε} (hok : ok s e)
    (h : ∀ s', M.step s e = some s' → M.Guarded ok s' es) : M.Guarded ok s (e :: es) := by
  refine ⟨hok, ?_⟩
  cases hst : M.step s e with
  | none => trivial
  | some s' => exact h s' hst

variable {M} in
theorem guarded_of_forall (h : ∀ e ∈ es, ∀ s, ok s e) (s : σ) : M.Guarded ok s es := by
  induction es generalizing s with
  | nil => trivial
  | cons e es ih =>
    exact guarded_cons (h e List.mem_cons_self s) fun s' _ =>
      ih (fun e' he' => h e' (List.mem_cons_of_mem _ he')) s'

variable {M} in
theorem Guarded.append {es fs : List ε} (h : M.Guarded ok s es)
    (h' : ∀ s', M.exec s es = some s' → M.Guarded ok s' fs) : M.Guarded ok s (es ++ fs) := by
  induction es generalizing s with
  | nil => exact h' s rfl
  | cons e es ih =>
    refine guarded_cons h.1 fun t hst => ?_
    have ht : M.Guarded ok t es := by simpa [Guarded, hst] using h.2
    exact ih ht fun s' hs' => h' s' (by rw [exec_cons, hst]; exact hs')

namespace Reach

variable {M}

theorem invariant {I : σ → Prop} (h0 : ∀ s, M.init s → I s)
    (hstep : ∀ s e s', M.Reach ok s → I s → ok s e → M.step s e = some s' → I s')
    (r : M.Reach ok s) : I s := by
  induction r with
  | init hs => exact h0 _ hs
  | step e r hok hst ih => exact hstep _ e _ r ih hok hst

theorem of_exec (r : M.Reach ok s) (hg : M.Guarded ok s es)
    (h : M.exec s es = some s') : M.Reach ok s' := by
  induction es generalizing s with
  | nil =>
    obtain rfl : s = s' := Option.some.inj h
    exact r
  | cons e es ih =>
    obtain ⟨t, ht, hrest⟩ := Option.bind_eq_some_iff.mp h
    have hgt : M.Guarded ok t es := by simpa [Guarded, ht] using hg.2
    exact ih (r.step e hg.1 ht) hgt hrest

end Reach

theorem reachable_of_exec (h0 : M.init s) (h : M.exec s es = some s') : M.Reachable s' := by
  refine Reach.of_exec (.init h0) ?_ h
  clear h h0
  induction es generalizing s with
  | nil => trivial
  | cons e es ih =>
    refine ⟨trivial, ?_⟩
    cases M.step s e with
    | none => trivial
    | some t => exact ih

end Machine

theorem update_eq_some_iff {α β : Type*} [DecidableEq α] {f : α → Option β}
    {a a' : α} {v : Option β}
    {b : β} : Function.update f a v a' = some b ↔ a' = a ∧ v = some b ∨ a' ≠ a ∧ f a' = some b := by
  rw [Function.update_apply]
  split
  · next h => simp [h]
  · next h => simp [h]

/-- What holds of the members of a list and of one more holds of all of them. -/
@[elab_as_elim] theorem of_mem_snoc {α : Type*} {l : List α} {a x : α} {motive : α → Prop}
    (hx : x ∈ l ++ [a]) (hl : x ∈ l → motive x) (ha : motive a) : motive x := by
  obtain hx | hx := List.mem_append.mp hx
  · exact hl hx
  · exact List.mem_singleton.mp hx ▸ ha
