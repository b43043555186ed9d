import Mathlib.Data.List.Nodup
import Mathlib.Tactic.Common

/-!
Doubly linked lists stored in cells. Two link functions on cell indices and a
list of indices: the list is linked when every cell points back to its
predecessor and forward to its successor. The end values stand for whatever
precedes the first cell and follows the last one.
-/
namespace Lobcore.LinkedCells

variable {ι : Type} {prev next prev' next' : ι → ι}

def Linked (prev next : ι → ι) : ι → List ι → ι → Prop
  | _, [], _ => True
  | p, i :: is, n => prev i = p ∧ next i = is.headD n ∧ Linked prev next i is n

/-- Only the forward links, as in a free list. -/
def Threaded (next : ι → ι) : List ι → ι → Prop
  | [], _ => True
  | i :: is, n => next i = is.headD n ∧ Threaded next is n

theorem headD_append (xs ys : List ι) (n : ι) : (xs ++ ys).headD n = xs.headD (ys.headD n) := by
  cases xs <;> rfl

theorem getLastD_append (xs ys : List ι) (p : ι) :
    (xs ++ ys).getLastD p = ys.getLastD (xs.getLastD p) := by
  induction xs generalizing p with
  | nil => rfl
  | cons x xs ih => simpa only [List.cons_append, List.getLastD_cons] using ih x

theorem getLastD_concat (xs : List ι) (i p : ι) : (xs ++ [i]).getLastD p = i := by
  rw [getLastD_append]
  rfl

theorem linked_append {p n : ι} {xs ys : List ι} :
    Linked prev next p (xs ++ ys) n ↔
      Linked prev next p xs (ys.headD n) ∧ Linked prev next (xs.getLastD p) ys n := by
  induction xs generalizing p with
  | nil => simp [Linked]
  | cons x xs ih =>
    simp only [List.cons_append, Linked, ih, headD_append, List.getLastD_cons, and_assoc]

theorem threaded_append {n : ι} {xs ys : List ι} :
    Threaded next (xs ++ ys) n ↔ Threaded next xs (ys.headD n) ∧ Threaded next ys n := by
  induction xs with
  | nil => simp [Threaded]
  | cons x xs ih => simp only [List.cons_append, Threaded, ih, headD_append, and_assoc]

/-- Linkedness only reads the links of the listed cells. -/
theorem Linked.congr {p n : ι} {xs : List ι} (h : Linked prev next p xs n)
    (hp : ∀ i ∈ xs, prev' i = prev i) (hn : ∀ i ∈ xs, next' i = next i) :
    Linked prev' next' p xs n := by
  induction xs generalizing p with
  | nil => trivial
  | cons x xs ih =>
    obtain ⟨hx, hx', hrest⟩ := h
    refine ⟨(hp x (List.mem_cons_self ..)).trans hx, (hn x (List.mem_cons_self ..)).trans hx', ?_⟩
    exact ih hrest (fun i hi => hp i (List.mem_cons_of_mem _ hi))
      (fun i hi => hn i (List.mem_cons_of_mem _ hi))

theorem Threaded.congr {n : ι} {xs : List ι} (h : Threaded next xs n)
    (hn : ∀ i ∈ xs, next' i = next i) : Threaded next' xs n := by
  induction xs with
  | nil => trivial
  | cons x xs ih =>
    obtain ⟨hx, hrest⟩ := h
    exact ⟨(hn x (List.mem_cons_self ..)).trans hx,
      ih hrest fun i hi => hn i (List.mem_cons_of_mem _ hi)⟩

theorem Linked.threaded {p n : ι} {xs : List ι} (h : Linked prev next p xs n) :
    Threaded next xs n := by
  induction xs generalizing p with
  | nil => trivial
  | cons x xs ih => exact ⟨h.2.1, ih h.2.2⟩

/-- The first cell and the links determine the list, where the end value is no cell of it. -/
theorem Threaded.unique {n : ι} {xs ys : List ι} (hx : Threaded next xs n)
    (hy : Threaded next ys n) (hxn : n ∉ xs) (hyn : n ∉ ys) (hhead : xs.headD n = ys.headD n) :
    xs = ys := by
  induction xs generalizing ys with
  | nil =>
    cases ys with
    | nil => rfl
    | cons y ys =>
      obtain rfl : n = y := hhead
      exact absurd (List.mem_cons_self ..) hyn
  | cons x xs ih =>
    cases ys with
    | nil =>
      obtain rfl : x = n := hhead
      exact absurd (List.mem_cons_self ..) hxn
    | cons y ys =>
      obtain rfl : x = y := hhead
      rw [ih hx.2 hy.2 (fun h => hxn (List.mem_cons_of_mem _ h))
        (fun h => hyn (List.mem_cons_of_mem _ h)) (hx.1.symm.trans hy.1)]

/-- A threaded list that ends meets no cell twice. -/
theorem Threaded.nodup {n : ι} {xs : List ι} (h : Threaded next xs n) (hn : n ∉ xs) :
    xs.Nodup := by
  induction xs with
  | nil => exact List.nodup_nil
  | cons x xs ih =>
    have hrest : n ∉ xs := fun hmem => hn (List.mem_cons_of_mem _ hmem)
    refine List.nodup_cons.mpr ⟨fun hx => ?_, ih h.2 hrest⟩
    obtain ⟨ps, qs, hsplit⟩ := List.append_of_mem hx
    -- met again, the cell would start the same list
    have hagain : Threaded next (x :: qs) n := (threaded_append.mp (hsplit ▸ h.2)).2
    have hqs : n ∉ x :: qs := fun hmem => hrest (hsplit ▸ List.mem_append_right _ hmem)
    have hlen := congrArg List.length (h.unique hagain hn hqs rfl)
    rw [hsplit] at hlen
    simp only [List.length_cons, List.length_append] at hlen
    omega

/-- Redirect what follows a nonempty linked list: only its last forward link changes. -/
theorem Linked.relast {p n m : ι} {xs : List ι} (h : Linked prev next p xs n)
    (hnodup : xs.Nodup) (hp : ∀ i ∈ xs, prev' i = prev i)
    (hn : ∀ i ∈ xs, i ≠ xs.getLastD p → next' i = next i)
    (hlast : xs ≠ [] → next' (xs.getLastD p) = m) : Linked prev' next' p xs m := by
  rcases List.eq_nil_or_concat xs with rfl | ⟨init, t, rfl⟩
  · trivial
  · rw [List.concat_eq_append] at *
    rw [getLastD_concat] at hn hlast
    have ht : t ∉ init := fun ht =>
      (List.nodup_append.mp hnodup).2.2 t ht t (List.mem_singleton_self t) rfl
    obtain ⟨hinit, htp, -, -⟩ := linked_append.mp h
    refine linked_append.mpr ⟨hinit.congr ?_ ?_, ?_, hlast (by simp), trivial⟩
    · exact fun i hi => hp i (List.mem_append_left _ hi)
    · intro i hi
      exact hn i (List.mem_append_left _ hi) (fun heq => ht (heq ▸ hi))
    · exact (hp t (by simp)).trans htp

/-- Redirect what precedes a nonempty linked list: only its first backward link changes. -/
theorem Linked.rehead {p q n : ι} {xs : List ι} (h : Linked prev next p xs n)
    (hnodup : xs.Nodup) (hn : ∀ i ∈ xs, next' i = next i)
    (hp : ∀ i ∈ xs, i ≠ xs.headD n → prev' i = prev i)
    (hhead : xs ≠ [] → prev' (xs.headD n) = q) : Linked prev' next' q xs n := by
  cases xs with
  | nil => trivial
  | cons x xs =>
    obtain ⟨-, hx, hrest⟩ := h
    refine ⟨hhead (by simp), (hn x (List.mem_cons_self ..)).trans hx, hrest.congr ?_ ?_⟩
    · intro i hi
      refine hp i (List.mem_cons_of_mem _ hi) fun heq => ?_
      subst heq
      exact (List.nodup_cons.mp hnodup).1 hi
    · exact fun i hi => hn i (List.mem_cons_of_mem _ hi)

/-- Append a cell: the old last cell points forward to it and it points back. -/
theorem Linked.concat {p n m i : ι} {xs : List ι} (h : Linked prev next p xs n)
    (hnodup : xs.Nodup) (hp : ∀ j ∈ xs, prev' j = prev j)
    (hn : ∀ j ∈ xs, j ≠ xs.getLastD p → next' j = next j)
    (hlast : xs ≠ [] → next' (xs.getLastD p) = i)
    (hip : prev' i = xs.getLastD p) (hin : next' i = m) :
    Linked prev' next' p (xs ++ [i]) m :=
  linked_append.mpr ⟨h.relast hnodup hp hn hlast, hip, hin, trivial⟩

/-- Cut a cell out: its two neighbours are joined, everything else is as before. -/
theorem Linked.remove {p n i : ι} {xs ys : List ι} (h : Linked prev next p (xs ++ i :: ys) n)
    (hnodup : (xs ++ i :: ys).Nodup)
    (hp : ∀ j ∈ xs ++ ys, j ≠ ys.headD n → prev' j = prev j)
    (hpx : ∀ j ∈ xs, prev' j = prev j)
    (hn : ∀ j ∈ xs ++ ys, j ≠ xs.getLastD p → next' j = next j)
    (hny : ∀ j ∈ ys, next' j = next j)
    (hlast : xs ≠ [] → next' (xs.getLastD p) = ys.headD n)
    (hhead : ys ≠ [] → prev' (ys.headD n) = xs.getLastD p) :
    Linked prev' next' p (xs ++ ys) n := by
  obtain ⟨hxs, -, -, hys⟩ := linked_append.mp h
  have hxn : xs.Nodup := (List.nodup_append.mp hnodup).1
  have hyn : ys.Nodup := (List.nodup_cons.mp (List.nodup_append.mp hnodup).2.1).2
  refine linked_append.mpr ⟨hxs.relast hxn hpx ?_ hlast, hys.rehead hyn hny ?_ hhead⟩
  · exact fun j hj hne => hn j (List.mem_append_left _ hj) hne
  · exact fun j hj hne => hp j (List.mem_append_right _ hj) hne

/-- The neighbours a linked cell names are its neighbours in the list. -/
theorem Linked.neighbours {p n i : ι} {xs ys : List ι}
    (h : Linked prev next p (xs ++ i :: ys) n) :
    prev i = xs.getLastD p ∧ next i = ys.headD n := by
  obtain ⟨-, hi, hi', -⟩ := linked_append.mp h
  exact ⟨hi, hi'⟩

theorem getLastD_mem_of_ne {p : ι} {xs : List ι} (h : xs ≠ []) : xs.getLastD p ∈ xs := by
  rcases List.eq_nil_or_concat xs with rfl | ⟨init, t, rfl⟩
  · exact absurd rfl h
  · rw [List.concat_eq_append, getLastD_concat]
    simp

theorem headD_mem_of_ne {n : ι} {xs : List ι} (h : xs ≠ []) : xs.headD n ∈ xs := by
  cases xs with
  | nil => exact absurd rfl h
  | cons x xs => exact List.mem_cons_self ..

end Lobcore.LinkedCells
