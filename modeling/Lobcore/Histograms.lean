import Mathlib.Algebra.BigOperators.Group.List.Basic
import Mathlib.Algebra.GroupWithZero.Nat
import Mathlib.Tactic.Common

/-!
Tables of counts and their margins. The elements of a list are counted by a key, which some of
them may lack; the counts over keys that differ add up to the elements with one of these keys.
The totals of the columns are taken row by row.
-/
namespace Lobcore.Histograms

section Keys

variable {α κ : Type} [DecidableEq κ]

theorem sum_indicator {ks : List κ} (hks : ks.Nodup) (o : Option κ) :
    (ks.map fun k => if o = some k then 1 else 0).sum = if o.any (· ∈ ks) then 1 else 0 := by
  induction ks with
  | nil => cases o <;> simp
  | cons k ks ih =>
    obtain ⟨hk, hks⟩ := List.nodup_cons.mp hks
    rw [List.map_cons, List.sum_cons, ih hks]
    cases o with
    | none => simp
    | some k' =>
      by_cases hk' : k' = k
      · subst hk'
        simp [hk]
      · simp [hk']

/-- The counts over keys that differ add up to the elements with one of these keys. -/
theorem sum_countP {ks : List κ} (hks : ks.Nodup) (key : α → Option κ) (q : α → Bool)
    (as : List α) : (ks.map fun k => as.countP fun a => q a && key a = some k).sum =
      as.countP fun a => q a && (key a).any (· ∈ ks) := by
  induction as with
  | nil => simp
  | cons a as ih =>
    simp only [List.countP_cons, List.sum_map_add, ih]
    congr 1
    cases q a with
    | false => simp
    | true => simpa using sum_indicator hks (key a)

end Keys

/-! Columns. -/

/-- A row is added to the totals. -/
def addRow (totals cells : List ℕ) : List ℕ := List.zipWith (· + ·) totals cells

theorem length_addRow {totals cells : List ℕ} (h : cells.length = totals.length) :
    (addRow totals cells).length = totals.length := by
  rw [addRow, List.length_zipWith, h, Nat.min_self]

theorem length_foldl_addRow {rows : List (List ℕ)} {totals : List ℕ}
    (h : ∀ row ∈ rows, row.length = totals.length) :
    (rows.foldl addRow totals).length = totals.length := by
  induction rows generalizing totals with
  | nil => rfl
  | cons row rows ih =>
    obtain ⟨hrow, hrows⟩ := List.forall_mem_cons.mp h
    have hlen := length_addRow hrow
    rw [List.foldl_cons, ih fun r hr => (hrows r hr).trans hlen.symm, hlen]

/-- The total of a column is what stood there and the cells of the rows. -/
theorem foldl_addRow {rows : List (List ℕ)} {totals : List ℕ}
    (h : ∀ row ∈ rows, row.length = totals.length) {i : ℕ} (hi : i < totals.length) :
    (rows.foldl addRow totals).getD i 0 = totals.getD i 0 + (rows.map (·.getD i 0)).sum := by
  induction rows generalizing totals with
  | nil => simp
  | cons row rows ih =>
    obtain ⟨hrow, hrows⟩ := List.forall_mem_cons.mp h
    have hlen := length_addRow hrow
    have hcell : (addRow totals row).getD i 0 = totals.getD i 0 + row.getD i 0 := by
      simp [addRow, List.getD_eq_getElem?_getD, List.getElem?_zipWith,
        List.getElem?_eq_getElem hi, List.getElem?_eq_getElem (hrow.symm ▸ hi)]
    rw [List.foldl_cons, ih (fun r hr => (hrows r hr).trans hlen.symm) (hlen.symm ▸ hi), hcell,
      List.map_cons, List.sum_cons, Nat.add_assoc]

/-- The totals of the columns of a table add up to all its cells. -/
theorem sum_columns {α β : Type} (xs : List α) (ys : List β) (f : α → β → ℕ) :
    (ys.map fun y => (xs.map fun x => f x y).sum).sum =
      (xs.map fun x => (ys.map fun y => f x y).sum).sum := by
  induction xs with
  | nil => simp
  | cons x xs ih => simp only [List.map_cons, List.sum_cons, List.sum_map_add, ih]

end Lobcore.Histograms
