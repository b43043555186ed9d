import Lobcore.ReferenceBook

/-!
The reference book against the market, call by call. Each mutating call returns the
market's reply without aborting, and what the book shows (top of book, depth, queue
positions, snapshot, hashed bytes, number of orders) is what the market shows.
-/
namespace Lobcore.ReferenceBook

open Checked OrderTypes SortedMaps Markets

namespace RefBook

section Calls

variable {r : RefBook} {m : Market} (h : r.Refines m)

include h

theorem Refines.contains_iff (id : OrderId) : r.ids.contains id = (m.home id).isSome := by
  rw [h.home_eq]
  rfl

theorem Refines.add (id : OrderId) (s : Side) {px : ℤ} {qty : ℕ}
    (hpx : px < 2 ^ 31) (hqty : qty < 2 ^ 32) :
    ∃ r', r.add id s px qty = .ok ((m.add id s px qty).1, r') ∧
      r'.Refines (m.add id s px qty).2 := by
  have hwf := h.wf.add id s qty hpx
  have hroom := h.wouldOverflow s px (Nat.zero_le _) hqty
  rw [Nat.sub_zero] at hroom
  unfold RefBook.add Market.add at *
  by_cases hzero : qty = 0
  · exact ⟨r, by simp [hzero], by simpa [hzero] using h⟩
  by_cases hneg : px ≤ 0
  · exact ⟨r, by simp [hzero, hneg], by simpa [hzero, hneg] using h⟩
  by_cases hover : 2 ^ 32 ≤ total (m.queue s px) + qty
  · exact ⟨r, by simp [-Nat.reducePow, hzero, hneg, hover, hroom],
      by simpa [-Nat.reducePow, hzero, hneg, hover] using h⟩
  by_cases hdup : (m.home id).isSome
  · refine ⟨r, by simp [-Nat.reducePow, hzero, hneg, hover, hroom, h.contains_iff, hdup], ?_⟩
    simpa [-Nat.reducePow, hzero, hneg, hover, hdup] using h
  · simp only [hzero, hneg, hover, hdup, if_false, Bool.false_eq_true] at hwf ⊢
    exact ⟨_, by simp [-Nat.reducePow, hroom, hover, h.contains_iff, hdup], h.pushTail hwf⟩

theorem Refines.cancel (id : OrderId) (qty : ℕ) :
    ∃ r', r.cancel id qty = .ok ((m.cancel id qty).1, r') ∧ r'.Refines (m.cancel id qty).2 := by
  unfold RefBook.cancel Market.cancel
  cases hfind : m.find id with
  | none => exact ⟨r, by simp [h.find_none hfind], h⟩
  | some p =>
    obtain ⟨s, px, n⟩ := p
    obtain ⟨xs, ys, hq, hxs, -⟩ := h.wf.split hfind
    obtain ⟨r', htake, hr'⟩ := h.take hfind hq hxs (min_le_right qty n)
    simp only [h.find_some hfind hq hxs]
    by_cases hzero : qty = 0
    · exact ⟨r, by simp [hzero], by simpa [hzero] using h⟩
    · exact ⟨r', by simp [hzero, htake], by simpa [hzero] using hr'⟩

theorem Refines.delete (id : OrderId) :
    ∃ r', r.delete id = .ok ((m.delete id).1, r') ∧ r'.Refines (m.delete id).2 := by
  unfold RefBook.delete Market.delete
  cases hfind : m.find id with
  | none => exact ⟨r, by simp [h.find_none hfind], h⟩
  | some p =>
    obtain ⟨s, px, n⟩ := p
    obtain ⟨xs, ys, hq, hxs, -⟩ := h.wf.split hfind
    obtain ⟨r', htake, hr'⟩ := h.take hfind hq hxs (le_refl n)
    rw [Nat.sub_self] at htake hr'
    exact ⟨r', by simp [h.find_some hfind hq hxs, htake], hr'⟩

theorem Refines.execute (id : OrderId) (qty : ℕ) :
    ∃ r', r.execute id qty = .ok ((m.execute id qty).1, r') ∧
      r'.Refines (m.execute id qty).2 := by
  unfold RefBook.execute Market.execute
  cases hfind : m.find id with
  | none => exact ⟨r, by simp [h.find_none hfind], h⟩
  | some p =>
    obtain ⟨s, px, n⟩ := p
    obtain ⟨xs, ys, hq, hxs, -⟩ := h.wf.split hfind
    simp only [h.find_some hfind hq hxs]
    by_cases hzero : qty = 0
    · exact ⟨r, by simp [hzero], by simpa [hzero] using h⟩
    by_cases hover : n < qty
    · exact ⟨r, by simp [-Nat.reducePow, hzero, hover],
        by simpa [-Nat.reducePow, hzero, hover] using h⟩
    · obtain ⟨r', htake, hr'⟩ := h.take hfind hq hxs (not_lt.mp hover)
      exact ⟨r', by simp [-Nat.reducePow, hzero, hover, htake],
        by simpa [-Nat.reducePow, hzero, hover] using hr'⟩

theorem Refines.replace (old new : OrderId) {px : ℤ} {qty : ℕ}
    (hpx : px < 2 ^ 31) (hqty : qty < 2 ^ 32) :
    ∃ r', r.replace old new px qty = .ok ((m.replace old new px qty).1, r') ∧
      r'.Refines (m.replace old new px qty).2 := by
  have hwf := h.wf.replace old new qty hpx
  unfold RefBook.replace Market.replace at *
  cases hfind : m.find old with
  | none => exact ⟨r, by simp [h.find_none hfind], h⟩
  | some p =>
    obtain ⟨s, oldPx, n⟩ := p
    obtain ⟨xs, ys, hq, hxs, -⟩ := h.wf.split hfind
    have hminus : (if px = oldPx then n else 0) ≤ total (m.queue s px) := by
      split
      · rename_i hp
        rw [hp, hq, total_append, total_cons]
        omega
      · exact Nat.zero_le _
    have hroom := h.wouldOverflow s px hminus hqty
    simp only [hfind] at hwf
    simp only [h.find_some hfind hq hxs]
    by_cases hdup : (m.home new).isSome
    · exact ⟨r, by simp [h.contains_iff, hdup], by simpa [hdup] using h⟩
    by_cases hzero : qty = 0
    · exact ⟨r, by simp [h.contains_iff, hdup, hzero], by simpa [hdup, hzero] using h⟩
    by_cases hneg : px ≤ 0
    · refine ⟨r, by simp [h.contains_iff, hdup, hzero, hneg], ?_⟩
      simpa [hdup, hzero, hneg] using h
    by_cases hover : 2 ^ 32 ≤ total (m.queue s px) - (if px = oldPx then n else 0) + qty
    · refine ⟨r, by simp [-Nat.reducePow, h.contains_iff, hdup, hzero, hneg, hroom, hover], ?_⟩
      simpa only [hdup, hzero, hneg, hover, if_false, if_true, Bool.false_eq_true] using h
    · obtain ⟨r', htake, hr'⟩ := h.take hfind hq hxs (le_refl n)
      rw [Nat.sub_self] at htake hr'
      simp only [hdup, hzero, hneg, hover, if_false, Bool.false_eq_true] at hwf ⊢
      exact ⟨_, by simp [-Nat.reducePow, h.contains_iff, hdup, hroom, hover, htake],
        hr'.pushTail hwf⟩

/-- Every call returns the market's reply, and the next book describes the next market. -/
theorem Refines.apply (op : Op) :
    ∃ r', r.apply op = .ok ((m.apply op).1, r') ∧ r'.Refines (m.apply op).2 := by
  cases op with
  | add id s px qty => exact h.add id s (int32_bounds px).2 (uint32_bound qty)
  | cancel id qty => exact h.cancel id _
  | execute id qty => exact h.execute id _
  | delete id => exact h.delete id
  | replace old new px qty => exact h.replace old new (int32_bounds px).2 (uint32_bound qty)

omit h in
theorem Refines.run (h : r.Refines m) (ops : List Op) :
    ∃ r', Checked.run RefBook.apply r ops = .ok ((m.applyAll ops).1, r') ∧
      r'.Refines (m.applyAll ops).2 := by
  induction ops generalizing r m with
  | nil => exact ⟨r, rfl, h⟩
  | cons op ops ih =>
    obtain ⟨r₁, hstep, h₁⟩ := h.apply op
    obtain ⟨r₂, hrest, h₂⟩ := ih h₁
    exact ⟨r₂, run_cons_ok hstep hrest, h₂⟩

end Calls

section Views

variable {r : RefBook} {m : Market} (h : r.Refines m)

include h

theorem Refines.isLevels (s : Side) : m.IsLevels s (r.bestFirst s) where
  sorted := by
    cases s with
    | bid => exact List.pairwise_reverse.mpr r.bids.ascending
    | ask => exact r.asks.ascending
  mem_iff := by
    rintro ⟨px, q⟩
    have hmem : (px, q) ∈ r.bestFirst s ↔ (r.side s).get? px = some q := by
      rw [SortedMap.get?_eq_some_iff]
      cases s <;> simp [bestFirst, side]
    have hne := h.level_ne s px
    rw [hmem, h.queue_eq]
    cases hg : (r.side s).get? px with
    | none => simp
    | some q' =>
      rw [hg] at hne
      simp only [Option.some.injEq, Option.getD_some, ne_eq] at hne ⊢
      exact ⟨fun heq => ⟨heq, heq ▸ hne⟩, And.left⟩

theorem Refines.bestFirst_eq (s : Side) : r.bestFirst s = m.levels s :=
  (Market.levels_eq (h.isLevels s)).symm

theorem Refines.levelView_eq {s : Side} {e : ℤ × Queue} (he : e ∈ m.levels s) :
    levelView e.1 e.2 = .ok (Market.levelView e) := by
  rw [← h.bestFirst_eq s] at he
  obtain ⟨hq, -⟩ := (h.isLevels s).mem_iff e |>.mp he
  have hlt : total e.2 < 2 ^ 32 := hq ▸ h.wf.total_lt s e.1
  have hlen : e.2.length ≤ total e.2 := length_le_total (hq ▸ h.wf.qty_pos s e.1)
  have hcount : e.2.length < 2 ^ 32 := lt_of_le_of_lt hlen hlt
  simp only [RefBook.levelView, levelQty_ok hlt, ok_bind, pure_eq_ok, Market.levelView,
    Nat.mod_eq_of_lt hlt, Nat.mod_eq_of_lt hcount]

theorem Refines.best_eq (s : Side) :
    r.best s = .ok ((m.levels s).head?.map Market.levelView) := by
  unfold RefBook.best
  rw [h.bestFirst_eq]
  cases hl : (m.levels s).head? with
  | none => rfl
  | some e =>
    obtain ⟨px, fifo⟩ := e
    simp only [h.levelView_eq (List.mem_of_head? hl), map_ok, Option.map_some]

theorem Refines.l1_eq : r.l1 = .ok m.l1 := by
  simp [RefBook.l1, h.best_eq, Market.l1]

theorem Refines.depth_eq (s : Side) (d : ℕ) :
    r.depth s d = .ok (((m.levels s).take d).map Market.levelView) := by
  unfold RefBook.depth
  rw [h.bestFirst_eq]
  exact mapM_ok fun e he => h.levelView_eq (List.mem_of_mem_take he)

theorem Refines.l2_eq (d : ℕ) : r.l2 d = .ok (m.l2 d) := by
  simp [RefBook.l2, h.depth_eq, Market.l2]

theorem Refines.snapshot_eq : r.snapshot = m.snapshot := by
  simp only [RefBook.snapshot, h.bestFirst_eq, Market.snapshot]

theorem Refines.stateBytes_eq : r.stateBytes = m.stateBytes := by
  have hbids : r.bids.entries = (m.levels .bid).reverse := by
    rw [← h.bestFirst_eq, bestFirst, List.reverse_reverse]
  have hasks : r.asks.entries = m.levels .ask := h.bestFirst_eq .ask
  unfold RefBook.stateBytes Market.stateBytes
  rw [hbids, hasks]
  refine List.flatMap_congr fun e he => ?_
  obtain ⟨s, hs⟩ := Market.exists_mem_levels he
  have hq := (Market.queue_of_mem_levels hs).1
  have hlen : e.2.length ≤ total e.2 := length_le_total (hq ▸ h.wf.qty_pos s e.1)
  rw [Nat.mod_eq_of_lt (lt_of_le_of_lt hlen (hq ▸ h.wf.total_lt s e.1))]

theorem Refines.liveOrders_eq : r.liveOrders = m.live := by
  refine (Market.live_eq_map_length r.ids fun id => ?_).symm
  rw [h.home_eq, Option.isSome_iff_exists]

theorem Refines.queueAhead_eq (id : OrderId) : r.queueAhead id = .ok (m.queueAhead id) := by
  unfold RefBook.queueAhead Market.queueAhead
  cases hfind : m.find id with
  | none => simp [h.find_none hfind]
  | some p =>
    obtain ⟨s, px, n⟩ := p
    obtain ⟨xs, ys, hq, hxs, -⟩ := h.wf.split hfind
    have hlt := h.wf.total_lt s px
    simp only [h.find_some hfind hq hxs, h.get?_eq (show m.queue s px ≠ [] by simp [hq]),
      Option.map_some]
    rw [hq] at hlt ⊢
    rw [total_append] at hlt
    have hsum : sumU 32 (((xs ++ (id, n) :: ys).take xs.length).map Prod.snd) = .ok (total xs) := by
      rw [List.take_left']
      · exact sumU_ok (by unfold total at hlt; omega)
      · rfl
    rw [hsum, ahead_split hxs, map_ok]

end Views

end RefBook

end Lobcore.ReferenceBook
