import Lobcore.Checked
import Mathlib.Data.List.Perm.Basic

/-!
Sequences whose parts are fixed. Every element has a key, and two sequences with the same
part for every key differ in the order between the keys only. A run that skips whatever
another key has is a run over its own part.
-/
namespace Lobcore.Interleavings

open Checked

section Parts

variable {α κ : Type} [DecidableEq κ] (key : α → κ) {xs ys : List α}

theorem perm_of_parts (h : ∀ k, xs.filter (fun x => key x = k) = ys.filter (fun x => key x = k)) :
    xs.Perm ys := by
  classical
  refine List.perm_iff_count.mpr fun x => ?_
  have hcount : ∀ zs : List α, zs.count x = (zs.filter fun y => key y = key x).count x :=
    fun zs => (List.count_filter (by simp)).symm
  rw [hcount xs, hcount ys, h]

end Parts

section Tagged

variable {α κ : Type} [DecidableEq κ]

/-- The values with one tag. -/
def strand (k : κ) (xs : List (κ × α)) : List α :=
  (xs.filter fun x => x.1 = k).map Prod.snd

theorem strand_append (k : κ) (xs ys : List (κ × α)) :
    strand k (xs ++ ys) = strand k xs ++ strand k ys := by
  simp only [strand, List.filter_append, List.map_append]

theorem strand_map_self (k : κ) (xs : List α) : strand k (xs.map fun x => (k, x)) = xs := by
  have hall : (xs.map fun x => (k, x)).filter (fun x => x.1 = k) = xs.map fun x => (k, x) :=
    List.filter_eq_self.mpr fun x hx => by
      obtain ⟨a, -, rfl⟩ := List.mem_map.mp hx
      exact decide_eq_true rfl
  rw [strand, hall, List.map_map]
  exact List.map_id xs

theorem strand_map_ne {k k' : κ} (hk : k' ≠ k) (xs : List α) :
    strand k (xs.map fun x => (k', x)) = [] := by
  have hnone : (xs.map fun x => (k', x)).filter (fun x => x.1 = k) = [] :=
    List.filter_eq_nil_iff.mpr fun x hx => by
      obtain ⟨a, -, rfl⟩ := List.mem_map.mp hx
      simpa using hk
  rw [strand, hnone, List.map_nil]

theorem filter_eq_map_strand (k : κ) (xs : List (κ × α)) :
    xs.filter (fun x => x.1 = k) = (strand k xs).map fun x => (k, x) := by
  rw [strand, List.map_map]
  refine (List.map_id _).symm.trans (List.map_congr_left fun x hx => ?_)
  obtain ⟨-, hk⟩ := List.mem_filter.mp hx
  exact Prod.ext (of_decide_eq_true hk) rfl

/-- Sequences with the same parts have the same values, in some order. -/
theorem perm_of_strand {xs ys : List (κ × α)} (h : ∀ k, strand k xs = strand k ys) :
    xs.Perm ys := by
  refine perm_of_parts Prod.fst fun k => ?_
  rw [filter_eq_map_strand, filter_eq_map_strand, h]

end Tagged

/-- A run whose step skips some inputs is the run over the others. -/
theorem run_filter {σ ι ρ : Type} {step : σ → ι → Exec (List ρ × σ)} {keep : ι → Bool}
    (hskip : ∀ s i, keep i = false → step s i = .ok ([], s)) (s : σ) (is : List ι) :
    (run step s is).map (fun p => (p.1.flatten, p.2)) =
      (run step s (is.filter keep)).map fun p => (p.1.flatten, p.2) := by
  induction is generalizing s with
  | nil => rfl
  | cons i is ih =>
    cases hkeep : keep i with
    | false =>
      rw [List.filter_cons_of_neg (by rw [hkeep]; decide), ← ih, run, hskip s i hkeep]
      simp only [ok_bind]
      rcases run step s is with e | q
      · rfl
      · simp only [ok_bind, pure_eq_ok, Except.map, List.flatten_cons, List.nil_append]
    | true =>
      rw [List.filter_cons_of_pos hkeep, run, run]
      cases step s i with
      | error e => rfl
      | ok p =>
        have hrest := ih p.2
        simp only [ok_bind]
        rcases hall : run step p.2 is with e | q <;>
          rcases hpart : run step p.2 (is.filter keep) with e' | q' <;>
          rw [hall, hpart] at hrest
        · exact hrest
        · cases hrest
        · cases hrest
        · obtain ⟨hout, hstate⟩ := Prod.mk.inj (Except.ok.inj hrest)
          simp only [ok_bind, pure_eq_ok, Except.map, List.flatten_cons, hout, hstate]

end Lobcore.Interleavings
