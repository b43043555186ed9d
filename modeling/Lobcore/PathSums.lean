import Mathlib.Algebra.Order.Group.Abs
import Mathlib.Algebra.Order.Ring.Int
import Mathlib.Data.List.Basic
import Mathlib.Tactic.Abel

/-!
Sums along a path. A step weighs the passage from one point to the next, and a path weighs what
its steps weigh together. The weight is additive at every point of the path; steps that are
differences of a potential leave the difference of its ends; and a map of the points that turns
every step around turns the weight around.
-/
namespace Lobcore.PathSums

variable {α β G : Type} [AddCommGroup G] {step : α → α → G}

/-- The weight of a path. -/
def pathSum (step : α → α → G) : List α → G
  | [] => 0
  | [_] => 0
  | a :: b :: path => step a b + pathSum step (b :: path)

/-- A path is cut at one of its points. -/
theorem pathSum_append (xs : List α) (m : α) (ys : List α) :
    pathSum step (xs ++ m :: ys) = pathSum step (xs ++ [m]) + pathSum step (m :: ys) := by
  induction xs with
  | nil => simp only [List.nil_append, pathSum, zero_add]
  | cons x xs ih =>
    cases xs with
    | nil => simp only [List.cons_append, List.nil_append, pathSum, add_zero]
    | cons y xs =>
      simp only [List.cons_append] at ih ⊢
      simp only [pathSum, ih, add_assoc]

/-- A potential leaves the difference of its ends. -/
theorem pathSum_telescope {f : α → G} {x : α} {path : List α}
    (h : List.IsChain (fun a b => step a b = f b - f a) (x :: path)) :
    pathSum step (x :: path) = f ((x :: path).getLast (List.cons_ne_nil _ _)) - f x := by
  induction path generalizing x with
  | nil => simp only [pathSum, List.getLast_singleton, sub_self]
  | cons y path ih =>
    obtain ⟨hstep, hrest⟩ := List.isChain_cons_cons.mp h
    rw [pathSum, hstep, ih hrest, List.getLast_cons (List.cons_ne_nil _ _)]
    abel

/-- Turned around point by point. -/
theorem pathSum_neg {R : α → β → Prop} {step' : β → β → G}
    (hstep : ∀ a b a' b', R a a' → R b b' → step' a' b' = -step a b) {xs : List α} {ys : List β}
    (h : List.Forall₂ R xs ys) : pathSum step' ys = -pathSum step xs := by
  induction h with
  | nil => simp only [pathSum, neg_zero]
  | @cons a a' xs ys ha hrest ih =>
    cases hrest with
    | nil => simp only [pathSum, neg_zero]
    | cons hb hrest => rw [pathSum, pathSum, ih, hstep _ _ _ _ ha hb, neg_add]

/-- Steps within a bound. -/
theorem abs_pathSum_le {step : α → α → ℤ} {bound : ℤ} (hbound : ∀ a b, |step a b| ≤ bound)
    (x : α) (path : List α) : |pathSum step (x :: path)| ≤ path.length * bound := by
  induction path generalizing x with
  | nil => simp [pathSum]
  | cons y path ih =>
    calc |pathSum step (x :: y :: path)| ≤ |step x y| + |pathSum step (y :: path)| :=
          abs_add_le _ _
      _ ≤ bound + path.length * bound := add_le_add (hbound x y) (ih y)
      _ = (y :: path).length * bound := by
          rw [List.length_cons, Nat.cast_succ, add_one_mul, add_comm]

end Lobcore.PathSums
