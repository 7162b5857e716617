import Mathlib

/-!
# Storage/Role — role claims, their epochs and the promotion fences

Every role change carries an epoch above the one stored.  A promotion also records a **fence**: the
epoch of the stream the node was following, and how far.  A copy that comes back with an older epoch
may resume below the fence of its own stream and nowhere else.
-/

namespace Flint

/-! ## Epochs -/

/-- An epoch: a generation and a counter within it. -/
structure Epoch where
  generation : ℕ
  counter : ℕ
  deriving DecidableEq, Repr

namespace Epoch

def zero : Epoch := ⟨0, 0⟩

def key (e : Epoch) : ℕ ×ₗ ℕ := toLex (e.generation, e.counter)

theorem key_injective : Function.Injective key := by
  rintro ⟨g, c⟩ ⟨g', c'⟩ h
  simpa [key] using h

instance : LinearOrder Epoch := LinearOrder.lift' key key_injective

def display (e : Epoch) : String := s!"({e.generation},{e.counter})"

end Epoch

/-! ## Claims -/

inductive Role
  | master
  | replica
  deriving DecidableEq, Repr

/-- The role row. -/
structure RoleClaim where
  role : Role
  epoch : Epoch
  deriving DecidableEq, Repr

def roleEpoch (claim : Option RoleClaim) : Epoch := (claim.map RoleClaim.epoch).getD .zero

inductive ManifestError
  | fenced (current : Epoch)
  deriving DecidableEq, Repr

/-- **A fenced role change**: the new epoch must exceed the stored one. -/
def setRole (current : Option RoleClaim) (new : RoleClaim) : Except ManifestError RoleClaim :=
  if new.epoch ≤ roleEpoch current then .error (.fenced (roleEpoch current)) else .ok new

theorem setRole_eq_ok {current : Option RoleClaim} {new claim : RoleClaim}
    (h : setRole current new = .ok claim) : claim = new ∧ roleEpoch current < new.epoch := by
  rw [setRole] at h
  split at h
  · cases h
  · next hlt => exact ⟨(Except.ok.inj h).symm, not_le.mp hlt⟩

/-! ## Promotion fences -/

/-- One fence row: the promotion that claimed `epoch` ended the stream of `supersedes` after `seq`,
a number of that stream. -/
structure PromoFence where
  epoch : Epoch
  supersedes : Epoch
  seq : ℕ
  deriving DecidableEq, Repr

def recordPromoFence (rows : List PromoFence) (epoch supersedes : Epoch) (seq : ℕ) :
    List PromoFence :=
  rows.filter (fun r => r.epoch ≠ epoch) ++ [⟨epoch, supersedes, seq⟩]

inductive FenceBound
  | bound (seq : ℕ)
  | unfenced
  deriving DecidableEq, Repr

def fencesOf (rows : List PromoFence) (since : Epoch) : List PromoFence :=
  rows.filter fun r => since < r.epoch ∧ r.supersedes = since

def promoFenceBound (rows : List PromoFence) (since : Epoch) : FenceBound :=
  match ((fencesOf rows since).map PromoFence.seq).min? with
  | some seq => .bound seq
  | none => .unfenced

end Flint
