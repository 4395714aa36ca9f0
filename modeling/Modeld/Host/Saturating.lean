import Mathlib

/-!
# Saturating folds

Addition and multiplication that stop at a cap. Stopping early makes no difference to a later step,
a multiplication by zero included, so a fold that stops at every step comes to the exact value, cut
off at the cap.
-/

namespace Host

namespace Saturating

variable {α : Type} {cap : Nat} {step : Nat → α → Nat}

/-- A step that takes numbers beyond the cap where it takes the cap. -/
def Absorbs (cap : Nat) (step : Nat → α → Nat) : Prop :=
  ∀ a x, min (step (min a cap) x) cap = min (step a x) cap

theorem Absorbs.foldl (h : Absorbs cap step) (l : List α) (a : Nat) :
    l.foldl (fun a x => min (step a x) cap) (min a cap) = min (l.foldl step a) cap := by
  induction l generalizing a with
  | nil => rfl
  | cons x l ih =>
    rw [List.foldl_cons, List.foldl_cons, h a x]
    exact ih (step a x)

theorem absorbs_mul : Absorbs cap fun a x : Nat => a * x := by
  intro a x
  dsimp only
  rcases Nat.le_total a cap with hle | hle
  · rw [Nat.min_eq_left hle]
  · rw [Nat.min_eq_right hle]
    rcases Nat.eq_zero_or_pos x with hzero | hpos
    · rw [hzero, Nat.mul_zero, Nat.mul_zero]
    · have hcap : cap ≤ cap * x := Nat.le_mul_of_pos_right cap hpos
      have hmono : cap * x ≤ a * x := Nat.mul_le_mul_right x hle
      omega

/-- A saturating product is the exact one, cut off. -/
theorem foldl_mul (l : List Nat) (hcap : 1 ≤ cap) :
    l.foldl (fun a x => min (a * x) cap) 1 = min l.prod cap := by
  have hfold := Absorbs.foldl (absorbs_mul : Absorbs cap _) l 1
  rw [Nat.min_eq_left hcap] at hfold
  rw [hfold, List.prod_eq_foldl]

end Saturating

end Host
