import Lobcore.BitmapRuns
import Lobcore.LevelWalks

/-!
The merge of one side (`levels.rs`) as its callers see it. On a valid grid the iterator
ends after each non-empty level was handed out once at its own price, best first, and
the ascending iterator and the best level follow from it. What a walk returns depends on
the levels by price alone, not on which of them the grid puts into the array.
-/
namespace Lobcore.PriceLevels

open Checked OrderTypes SortedMaps OrderSlab Bitmaps Markets.Market

namespace SideLevels

variable {sl sl' : SideLevels} {g g' : Grid} {es es' : List (ℤ × Level)}

/-- The walk of a side is determined by its levels. -/
theorem IsWalk.eq_of_levels (h : sl.IsWalk g es) (h' : sl'.IsWalk g' es')
    (hside : sl.side = sl'.side)
    (hat : ∀ px l, 0 < l.count →
      (sl.at? (g.locate px) = some l ↔ sl'.at? (g'.locate px) = some l)) : es = es' := by
  refine eq_of_pairwise_of_mem_iff (fun a b => better_asymm sl.side a.1 b.1) h.sorted
    (hside ▸ h'.sorted) fun e => ?_
  rw [h.mem_iff, h'.mem_iff]
  exact and_congr_left fun hcount => hat e.1 e.2 hcount

/-- Two sides with the same level at every price walk alike, on whichever valid grids. -/
theorem InStep.bestFirst_eq_of_levels (hg : g.WF) (h : sl.InStep g) (hg' : g'.WF)
    (h' : sl'.InStep g')
    (hside : sl.side = sl'.side)
    (hat : ∀ px l, 0 < l.count →
      (sl.at? (g.locate px) = some l ↔ sl'.at? (g'.locate px) = some l)) :
    sl.bestFirst g = sl'.bestFirst g' ∧ sl.best g = sl'.best g' ∧
      sl.ascending g = sl'.ascending g' := by
  obtain ⟨es, hwalk, hall, hbest, -, hasc⟩ := h.walk hg
  obtain ⟨es', hwalk', hall', hbest', -, hasc'⟩ := h'.walk hg'
  obtain rfl := hwalk.eq_of_levels hwalk' hside hat
  exact ⟨hall.trans hall'.symm, hbest.trans hbest'.symm, by rw [hasc, hasc', hside]⟩

/-- Collecting the iterator is what repeated calls of `next` hand out. -/
theorem InStep.bestFirst_eq_ok_iff (hg : g.WF) (h : sl.InStep g) : sl.bestFirst g = .ok es ↔
    ∃ it, sl.iterBestFirst = .ok it ∧ HandsOut (fun it => it.next sl g) it es := by
  obtain ⟨it, es', hit, hout, hwalk, -, -⟩ := h.iterates hg
  obtain ⟨es'', hwalk'', hall, -⟩ := h.walk hg
  obtain rfl := hwalk''.eq_of_levels hwalk rfl fun _ _ _ => Iff.rfl
  rw [hall, Except.ok.injEq]
  constructor
  · rintro rfl
    exact ⟨it, hit, hout⟩
  · rintro ⟨it', hit', hout'⟩
    rw [hit, Except.ok.injEq] at hit'
    exact hout.unique (hit' ▸ hout')

/-- The best-first iterator ends and hands out every non-empty level once, each at its own
price, from the best to the worst; `best` is its first item, and the ascending iterator
hands out the same levels by rising price. -/
theorem InStep.visits_every_level_once (hg : g.WF) (h : sl.InStep g) :
    ∃ it es, sl.iterBestFirst = .ok it ∧ HandsOut (fun it => it.next sl g) it es ∧
      sl.bestFirst g = .ok es ∧ es.Perm (sl.occupied g) ∧
      (es.Pairwise fun a b => better sl.side a.1 b.1) ∧ sl.best g = .ok es.head? ∧
      ∃ up, sl.ascending g = .ok up ∧ up.Perm es ∧ up.Pairwise fun a b => a.1 < b.1 := by
  obtain ⟨it, es, hit, hout, hwalk, hperm, hbest⟩ := h.iterates hg
  have hall : sl.bestFirst g = .ok es := (h.bestFirst_eq_ok_iff hg).mpr ⟨it, hit, hout⟩
  refine ⟨it, es, hit, hout, hall, hperm, hwalk.sorted, hbest, ?_⟩
  have hsorted := hwalk.sorted
  unfold ascending
  cases hs : sl.side with
  | bid =>
    rw [hs] at hsorted
    exact ⟨es.reverse, by simp [hall], es.reverse_perm, List.pairwise_reverse.mpr hsorted⟩
  | ask =>
    rw [hs] at hsorted
    exact ⟨es, hall, List.Perm.refl es, hsorted⟩

/-- A side with two levels on a grid of three, and one below, between and above them. -/
def aroundGrid (s : Side) : SideLevels :=
  ⟨s, [⟨0, 0, 50, 1⟩, .empty, ⟨1, 2, 70, 2⟩], ⟨[5#64], 1#64⟩,
    ((SortedMap.empty.insert 95 ⟨3, 3, 10, 1⟩).insert 105 ⟨4, 4, 20, 1⟩).insert 300 ⟨5, 5, 30, 1⟩,
    0, 18⟩

theorem aroundGrid_inStep (s : Side) : (aroundGrid s).InStep ⟨100, 3, 10⟩ := by
  have hms : ∀ m ∈ [Mark.set 0, Mark.set 2], m.index < 3 := by decide
  obtain ⟨b, hrun, hwf, hmem⟩ := Bitmap.after_spec (by decide) hms
  obtain rfl : ⟨[5#64], 1#64⟩ = b := Except.ok.inj hrun
  have hmarked : marked [.set 0, .set 2] = {2, 0} := by
    rw [show [Mark.set 0, .set 2] = ([] ++ [.set 0]) ++ [.set 2] from rfl, marked_concat_set,
      marked_concat_set, marked_nil, insert_empty_eq]
  refine ⟨rfl, show 1 ≤ 64 by decide, hwf.summary_iff, fun i => ?_, fun px l hget => ?_⟩
  · rw [show (aroundGrid s).bitmap.members = {2, 0} from hmem.trans hmarked]
    rcases i with _ | _ | _ | i <;> simp [aroundGrid, Level.empty]
  · rw [SortedMap.get?_eq_some_iff] at hget
    have hall : ∀ e ∈ (aroundGrid s).overflow.entries,
        0 < e.2.count ∧ Grid.locate ⟨100, 3, 10⟩ e.1 = .overflow e.1 := by
      cases s <;> decide
    exact hall _ hget

/-- On the bid side the three overflow levels come first, in the middle and last. -/
theorem InStep.visits_around_grid : ∃ it, (aroundGrid .bid).iterBestFirst = .ok it ∧
    HandsOut (fun it => it.next (aroundGrid .bid) ⟨100, 3, 10⟩) it
      [(300, ⟨5, 5, 30, 1⟩), (120, ⟨1, 2, 70, 2⟩), (105, ⟨4, 4, 20, 1⟩), (100, ⟨0, 0, 50, 1⟩),
        (95, ⟨3, 3, 10, 1⟩)] := by
  obtain ⟨it, es, hit, hout, hall, -⟩ := InStep.visits_every_level_once
    (g := ⟨100, 3, 10⟩) ⟨by decide, by decide, by decide, by decide, by decide⟩
    (aroundGrid_inStep .bid)
  obtain rfl := Except.ok.inj (hall.symm.trans (show _ = Except.ok
    [(300, ⟨5, 5, 30, 1⟩), (120, ⟨1, 2, 70, 2⟩), (105, ⟨4, 4, 20, 1⟩), (100, ⟨0, 0, 50, 1⟩),
      (95, ⟨3, 3, 10, 1⟩)] by decide +kernel))
  exact ⟨it, hit, hout⟩

end SideLevels

end Lobcore.PriceLevels
