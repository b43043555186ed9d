import Lobcore.ArrayRefines
import Lobcore.LevelWalks

/-!
What the array book shows is what the market shows: top of book, depth, queue positions,
snapshot and hashed bytes, none of which can abort.
-/
namespace Lobcore.ArrayBooks

open Checked LinkedCells OrderTypes SortedMaps OrderSlab PriceLevels Markets

/-- Following the links of a line reads its orders. -/
theorem fifoLoop_eq {slab : Slab} {xs : List ℕ} {fuel : ℕ}
    (hlt : ∀ i ∈ xs, i < slab.slots.length) (hcap : slab.slots.length ≤ nilSlot)
    (hthread : Threaded (fun i => (slab.cell i).next) xs nilSlot) (hfuel : xs.length < fuel) :
    ArrayBook.fifoLoop slab fuel (xs.headD nilSlot) = .ok (xs.map slab.order) := by
  induction xs generalizing fuel with
  | nil =>
    obtain ⟨fuel, rfl⟩ := Nat.exists_eq_succ_of_ne_zero (Nat.ne_of_gt hfuel)
    simp [ArrayBook.fifoLoop]
  | cons i xs ih =>
    obtain ⟨fuel, rfl⟩ := Nat.exists_eq_succ_of_ne_zero (Nat.ne_of_gt (Nat.zero_lt_of_lt hfuel))
    obtain ⟨hnext, hrest⟩ := hthread
    have hi := hlt i (List.mem_cons_self ..)
    have hne : i ≠ nilSlot := (lt_of_lt_of_le hi hcap).ne
    have htail := ih (fun j hj => hlt j (List.mem_cons_of_mem _ hj)) hrest
      (Nat.lt_of_succ_lt_succ hfuel)
    simp only [List.headD_cons, ArrayBook.fifoLoop, if_neg hne, Slab.get_ok hi, ok_bind, hnext,
      htail, pure_eq_ok, List.map_cons, Slab.order]

/-- Following the links up to a slot adds up what stands in front of it. -/
theorem aheadLoop_eq {slab : Slab} {xs ys : List ℕ} {i : ℕ} (fuel sum : ℕ)
    (hlt : ∀ j ∈ xs, j < slab.slots.length) (hcap : slab.slots.length ≤ nilSlot) (hi : i ∉ xs)
    (hthread : Threaded (fun i => (slab.cell i).next) (xs ++ i :: ys) nilSlot)
    (hfuel : xs.length < fuel) (hsum : sum + total (xs.map slab.order) < 2 ^ 32) :
    ArrayBook.aheadLoop slab i fuel sum ((xs ++ i :: ys).headD nilSlot) =
      .ok (sum + total (xs.map slab.order)) := by
  induction xs generalizing fuel sum with
  | nil =>
    obtain ⟨fuel, rfl⟩ := Nat.exists_eq_succ_of_ne_zero (Nat.ne_of_gt hfuel)
    simp [ArrayBook.aheadLoop]
  | cons j xs ih =>
    obtain ⟨fuel, rfl⟩ := Nat.exists_eq_succ_of_ne_zero (Nat.ne_of_gt (Nat.zero_lt_of_lt hfuel))
    obtain ⟨hnext, hrest⟩ := hthread
    simp only [List.mem_cons, not_or] at hi
    have hj := hlt j (List.mem_cons_self ..)
    have hne : j ≠ nilSlot := (lt_of_lt_of_le hj hcap).ne
    rw [List.map_cons, total_cons] at hsum ⊢
    have hadd : addU32 sum (slab.cell j).qty = .ok (sum + (slab.cell j).qty) :=
      addU32_ok (by simp only [Slab.order] at hsum; omega)
    have htail := ih fuel (sum + (slab.cell j).qty)
      (fun k hk => hlt k (List.mem_cons_of_mem _ hk)) hi.2 hrest (Nat.lt_of_succ_lt_succ hfuel)
      (by simp only [Slab.order] at hsum ⊢; omega)
    have hnil : ensure (j ≠ nilSlot) = .ok () := ensure_ok hne
    have hnext' : (slab.cell j).next = (xs ++ i :: ys).headD nilSlot := hnext
    rw [List.cons_append, List.headD_cons, ArrayBook.aheadLoop, if_neg (Ne.symm hi.1),
      hnil, ok_bind, Slab.get_ok hj, ok_bind, hadd, ok_bind, hnext', htail]
    simp only [Slab.order, Nat.add_assoc]

namespace Represents

variable {b : ArrayBook} {m : Market} {line : Lines} {free : List ℕ} (h : Represents b m line free)

include h

theorem line_length_le (s : Side) (px : ℤ) : (line s px).length ≤ b.slab.slots.length := by
  have hsub : (line s px).length ≤ (List.range b.slab.slots.length).length :=
    List.Nodup.length_le_of_subset (h.line_nodup s px) fun i hi => List.mem_range.mpr (h.line_lt hi)
  simpa using hsub

/-- The FIFO of a level is the market's queue. -/
theorem fifo_eq (s : Side) (px : ℤ) :
    b.fifo (lineLevel (line s px) (m.queue s px)) = .ok (m.queue s px) := by
  have hlen := h.line_length_le s px
  rw [h.queue_eq s px]
  exact fifoLoop_eq (fun i hi => h.line_lt hi) h.freeList.capacity_le (h.linked s px).threaded
    (by omega)

theorem line_length (s : Side) (px : ℤ) : (line s px).length = (m.queue s px).length := by
  rw [h.queue_eq, List.length_map]

/-- A walk over a side lists the market's levels with their records. -/
theorem walk_entry {s : Side} {es : List (ℤ × Level)} (hes : (b.side s).IsWalk b.grid es)
    {e : ℤ × Level} (he : e ∈ es) :
    e.2 = lineLevel (line s e.1) (m.queue s e.1) ∧ m.queue s e.1 ≠ [] := by
  obtain ⟨hat, hcount⟩ := (hes.mem_iff e).mp he
  have hlevel := h.level_eq s e.1
  rw [SideLevels.levelAt, hat, Option.getD_some] at hlevel
  refine ⟨hlevel, fun hnil => ?_⟩
  rw [hlevel, lineLevel] at hcount
  simp only [h.line_length, hnil, List.length_nil, lt_irrefl] at hcount

/-- The level of a price with orders is there. -/
theorem at?_eq {s : Side} {px : ℤ} (hcount : 0 < (line s px).length) :
    (b.side s).at? (b.grid.locate px) = some (lineLevel (line s px) (m.queue s px)) := by
  have hlevel := h.level_eq s px
  unfold SideLevels.levelAt at hlevel
  cases hat : (b.side s).at? (b.grid.locate px) with
  | none =>
    rw [hat] at hlevel
    have hzero : 0 = (line s px).length := congrArg Level.count hlevel
    omega
  | some l => rw [← hlevel, hat, Option.getD_some]

theorem isLevels {s : Side} {es : List (ℤ × Level)} (hes : (b.side s).IsWalk b.grid es) :
    m.IsLevels s (es.map fun e => (e.1, m.queue s e.1)) where
  sorted := by
    have hsorted := hes.sorted
    rw [h.side_eq] at hsorted
    exact List.pairwise_map.mpr hsorted
  mem_iff := by
    rintro ⟨px, q⟩
    simp only [List.mem_map, Prod.mk.injEq]
    constructor
    · rintro ⟨e, he, rfl, rfl⟩
      exact ⟨rfl, (h.walk_entry hes he).2⟩
    · rintro ⟨rfl, hne⟩
      have hcount : 0 < (line s px).length := by
        rw [h.line_length]
        exact List.length_pos_iff.mpr hne
      exact ⟨(px, lineLevel (line s px) (m.queue s px)),
        (hes.mem_iff _).mpr ⟨h.at?_eq hcount, hcount⟩, rfl, rfl⟩

/-- The walk of a side, as the levels of the market. -/
theorem walk (s : Side) : ∃ es, (∀ e ∈ es, e.2 = lineLevel (line s e.1) (m.queue s e.1)) ∧
    m.levels s = es.map (fun e => (e.1, m.queue s e.1)) ∧
    (b.side s).bestFirst b.grid = .ok es ∧ (b.side s).best b.grid = .ok es.head? ∧
    (∀ depth, (b.side s).bestFirstTake b.grid depth = .ok (es.take depth)) ∧
    (b.side s).ascending b.grid = .ok (match s with | .bid => es.reverse | .ask => es) := by
  obtain ⟨es, hes, hall, hbest, htake, hasc⟩ := (h.side_wf s).inStep.walk h.grid
  rw [h.side_eq] at hasc
  exact ⟨es, fun e he => (h.walk_entry hes he).1, Market.levels_eq (h.isLevels hes), hall, hbest,
    htake, hasc⟩

theorem levelView_eq {s : Side} {e : ℤ × Level}
    (he : e.2 = lineLevel (line s e.1) (m.queue s e.1)) :
    ArrayBook.levelView e.1 e.2 = Market.levelView (e.1, m.queue s e.1) := by
  rw [he, ArrayBook.levelView, lineLevel, Market.levelView, h.line_length]

theorem best_eq (s : Side) : b.best s = .ok ((m.levels s).head?.map Market.levelView) := by
  obtain ⟨es, hes, hlevels, -, hbest, -⟩ := h.walk s
  rw [ArrayBook.best, hbest, ok_bind, hlevels]
  cases es with
  | nil => rfl
  | cons e es =>
    simp [h.levelView_eq (hes e (List.mem_cons_self ..))]

theorem depth_eq (s : Side) (d : ℕ) :
    b.depth s d = .ok (((m.levels s).take d).map Market.levelView) := by
  obtain ⟨es, hes, hlevels, -, -, htake, -⟩ := h.walk s
  rw [ArrayBook.depth, htake, ok_bind, hlevels, ← List.map_take, List.map_map, pure_eq_ok]
  refine congrArg _ (List.map_congr_left fun e he => ?_)
  exact h.levelView_eq (hes e (List.mem_of_mem_take he))

theorem queueAhead_eq (id : OrderId) : b.queueAhead id = .ok (m.queueAhead id) := by
  unfold ArrayBook.queueAhead Market.queueAhead
  cases hfind : m.find id with
  | none =>
    simp [h.get?_eq_none.mpr (h.market.find_eq_none.mp hfind)]
  | some p =>
    obtain ⟨s, px, n⟩ := p
    obtain ⟨i, xs, ys, hline, hget, hcell, hxs⟩ := h.located hfind
    have hi : i ∈ line s px := by simp [hline]
    have hpx := h.px_nonneg hi
    have hslot := h.px_eq s px i hi
    have hlen := h.line_length_le s px
    have hqueue := h.queue_eq s px
    have htotal := h.market.total_lt s px
    have hnodup := h.line_nodup s px
    have hthread := (h.linked s px).threaded
    rw [hline] at hlen hnodup hqueue hthread
    have hixs : i ∉ xs := fun hmem =>
      (List.nodup_append.mp hnodup).2.2 i hmem i (List.mem_cons_self ..) rfl
    rw [List.map_append, List.map_cons] at hqueue
    have horder : b.slab.order i = (id, n) := by simp [Slab.order, hcell]
    have hcount : 0 < (line s px).length := by simp [hline]
    have hat := h.at?_eq hcount
    rw [hqueue, total_append] at htotal
    have hxlt : ∀ j ∈ xs, j < b.slab.slots.length := fun j hj =>
      h.line_lt (show j ∈ line s px by simp [hline, hj])
    have hloop := aheadLoop_eq (b.slab.slots.length + 1) 0 hxlt h.freeList.capacity_le hixs hthread
       (by simp only [List.length_append, List.length_cons] at hlen; omega) (by omega)
    have hahead : ahead id (m.queue s px) = total (xs.map b.slab.order) := by
      rw [hqueue, horder, ahead_split hxs]
    simp only [hget, Slab.get_ok (h.line_lt hi), ok_bind, slot_absPx hpx hslot,
      slot_side (h.px_range hi).1 hslot, (h.side_wf s).get_ok h.grid, hat,
      Option.map_some, lineLevel, hline, hloop, map_ok, hahead, Nat.zero_add]

theorem levelBytes_eq {s : Side} {e : ℤ × Level}
    (he : e.2 = lineLevel (line s e.1) (m.queue s e.1)) :
    b.levelBytes e = .ok (hashLevel e.1 (m.queue s e.1).length (m.queue s e.1)) := by
  simp only [ArrayBook.levelBytes, he, h.fifo_eq, ok_bind, pure_eq_ok]
  simp only [lineLevel, h.line_length]

theorem sideBytes_eq (s : Side) : b.sideBytes s = .ok
    ((match s with | .bid => (m.levels s).reverse | .ask => m.levels s).flatMap
      fun (e : ℤ × Queue) => hashLevel e.1 e.2.length e.2) := by
  obtain ⟨es, hes, hlevels, -, -, -, hasc⟩ := h.walk s
  have hbytes : ∀ {ls : List (ℤ × Level)}, (∀ e ∈ ls, e ∈ es) → ls.mapM b.levelBytes =
      .ok (ls.map fun e => hashLevel e.1 (m.queue s e.1).length (m.queue s e.1)) :=
    fun hsub => mapM_ok fun e he => h.levelBytes_eq (hes e (hsub e he))
  rw [ArrayBook.sideBytes, hasc, ok_bind, hlevels]
  cases s with
  | bid =>
    rw [hbytes fun e he => List.mem_reverse.mp he, ok_bind, ← List.map_reverse, List.flatMap_def,
      List.map_map]
    rfl
  | ask =>
    rw [hbytes fun e he => he, ok_bind, List.flatMap_def, List.map_map]
    rfl

theorem sideSnapshot_eq (s : Side) :
    b.sideSnapshot s = .ok ((m.levels s).map fun e => (s, e.1, e.2)) := by
  obtain ⟨es, hes, hlevels, hall, -⟩ := h.walk s
  rw [ArrayBook.sideSnapshot, hall, ok_bind, hlevels, List.map_map]
  refine mapM_ok fun e he => ?_
  rw [hes e he, h.fifo_eq, h.side_eq]
  rfl

end Represents

namespace ArrayBook

variable {b : ArrayBook} {m : Market} (h : b.Refines m)

include h

theorem Refines.l1_eq : b.l1 = .ok m.l1 := by
  obtain ⟨line, free, h⟩ := h
  simp [ArrayBook.l1, h.best_eq, Market.l1]

theorem Refines.l2_eq (d : ℕ) : b.l2 d = .ok (m.l2 d) := by
  obtain ⟨line, free, h⟩ := h
  simp [ArrayBook.l2, h.depth_eq, Market.l2]

theorem Refines.queueAhead_eq (id : OrderId) : b.queueAhead id = .ok (m.queueAhead id) := by
  obtain ⟨line, free, h⟩ := h
  exact h.queueAhead_eq id

theorem Refines.snapshot_eq : b.snapshot = .ok m.snapshot := by
  obtain ⟨line, free, h⟩ := h
  simp [ArrayBook.snapshot, h.sideSnapshot_eq, Market.snapshot]

theorem Refines.stateBytes_eq : b.stateBytes = .ok m.stateBytes := by
  obtain ⟨line, free, h⟩ := h
  simp [ArrayBook.stateBytes, h.sideBytes_eq, Market.stateBytes]

end ArrayBook

end Lobcore.ArrayBooks
