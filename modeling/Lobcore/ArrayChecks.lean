import Lobcore.ArrayViews

/-!
A book that represents a market passes its own check. The levels of a side are visited
price by price; the slots of their lines, taken together, are exactly the slots the id map
names, so the counts and the side totals of the two walks agree.
-/
namespace Lobcore.ArrayBooks

open Checked LinkedCells OrderTypes SortedMaps OrderSlab Bitmaps PriceLevels Markets WordBits

/-- `sums[side] + qty`, without a bound. -/
def bump (sums : ℕ × ℕ) : Side → ℕ → ℕ × ℕ
  | .bid, qty => (sums.1 + qty, sums.2)
  | .ask, qty => (sums.1, sums.2 + qty)

def sumOf (sums : ℕ × ℕ) : Side → ℕ
  | .bid => sums.1
  | .ask => sums.2

theorem addTo_ok {sums : ℕ × ℕ} {s : Side} {qty : ℕ} (hfit : sumOf sums s + qty < 2 ^ 64) :
    ArrayBook.addTo sums s qty = .ok (bump sums s qty) := by
  cases s with
  | bid =>
    have hadd : addU64 sums.1 qty = .ok (sums.1 + qty) := addU64_ok hfit
    simp only [ArrayBook.addTo, hadd, ok_bind, pure_eq_ok, bump]
  | ask =>
    have hadd : addU64 sums.2 qty = .ok (sums.2 + qty) := addU64_ok hfit
    simp only [ArrayBook.addTo, hadd, ok_bind, pure_eq_ok, bump]

theorem bump_bump (sums : ℕ × ℕ) (s : Side) (p q : ℕ) :
    bump (bump sums s p) s q = bump sums s (p + q) := by
  cases s <;> simp [bump, Nat.add_assoc]

@[simp] theorem sumOf_bump (sums : ℕ × ℕ) (s : Side) (q : ℕ) :
    sumOf (bump sums s q) s = sumOf sums s + q := by cases s <;> rfl

@[simp] theorem bump_zero (sums : ℕ × ℕ) (s : Side) : bump sums s 0 = sums := by cases s <;> rfl

namespace Represents

variable {b : ArrayBook} {m : Market} {line : Lines} {free : List ℕ} (h : Represents b m line free)

include h

theorem prev_of_split {s : Side} {px : ℤ} {xs ys : List ℕ} {i : ℕ}
    (hline : line s px = xs ++ i :: ys) :
    (b.slab.cell i).prev = xs.getLastD nilSlot ∧ (b.slab.cell i).next = ys.headD nilSlot := by
  have hlinked := h.linked s px
  rw [hline] at hlinked
  exact hlinked.neighbours

/-- The walk of `check_level` along a line, from any of its slots on. -/
theorem checkLoop_eq {s : Side} {px : ℤ} (xs ys : List ℕ) (fuel : ℕ)
    (hline : line s px = xs ++ ys) (hfuel : ys.length < fuel) :
    b.checkLoop s px fuel xs.length (total (xs.map b.slab.order)) (ys.headD nilSlot)
      (xs.getLastD nilSlot) =
      .ok (.ok ((line s px).length, total (m.queue s px), (line s px).getLastD nilSlot)) := by
  induction ys generalizing xs fuel with
  | nil =>
    obtain ⟨fuel, rfl⟩ := Nat.exists_eq_succ_of_ne_zero (Nat.ne_of_gt hfuel)
    rw [List.append_nil] at hline
    rw [ArrayBook.checkLoop, List.headD_nil, if_pos rfl, h.queue_eq, hline, pure_eq_ok]
  | cons i ys ih =>
    obtain ⟨fuel, rfl⟩ := Nat.exists_eq_succ_of_ne_zero (Nat.ne_of_gt (Nat.zero_lt_of_lt hfuel))
    have hi : i ∈ line s px := by simp [hline]
    have hpx := h.px_nonneg hi
    have hslot := h.px_eq s px i hi
    obtain ⟨hprev, hnext⟩ := h.prev_of_split hline
    have hcap : ¬ b.slab.capacity < xs.length + 1 := by
      have := h.line_length_le s px
      rw [hline, List.length_append, List.length_cons] at this
      unfold Slab.capacity
      omega
    have hqty := (h.qty_pos_of_line hi).ne'
    have hmapped : b.ids.get? (b.slab.cell i).id = some i :=
      (h.ids_iff _ i).mpr ⟨s, px, hi, rfl⟩
    have hsum : addU64 (total (xs.map b.slab.order)) (b.slab.cell i).qty =
        .ok (total ((xs ++ [i]).map b.slab.order)) := by
      have htotal := h.market.total_lt s px
      rw [h.queue_eq, hline, List.map_append, List.map_cons, total_append, total_cons] at htotal
      have hbound : total (xs.map b.slab.order) + (b.slab.cell i).qty < 2 ^ 64 := by
        simp only [Slab.order] at htotal ⊢
        omega
      rw [addU64_ok hbound]
      simp [Slab.order]
    have hrest := ih (xs ++ [i]) fuel (by simp [hline])
      (by simpa using Nat.lt_of_succ_lt_succ hfuel)
    rw [List.length_append, List.length_singleton, getLastD_concat] at hrest
    have hplaced : ¬ (s ≠ s ∨ px ≠ px) := by simp
    rw [ArrayBook.checkLoop, List.headD_cons, if_neg (h.ne_nilSlot hi), if_neg hcap,
      Slab.get_ok (h.line_lt hi), ok_bind, if_neg (not_not.mpr hprev),
      slot_absPx hpx hslot, ok_bind,
      slot_side (h.px_range hi).1 hslot, if_neg hplaced, if_neg hqty,
      if_neg (not_not.mpr hmapped), hsum, ok_bind, hnext, hrest]

theorem checkLevel_eq (s : Side) (px : ℤ) :
    b.checkLevel s px (lineLevel (line s px) (m.queue s px)) = .ok (.ok (line s px).length) := by
  have hlen := h.line_length_le s px
  have hloop := h.checkLoop_eq [] (line s px) (b.slab.capacity + 2) rfl
    (by unfold Slab.capacity; omega)
  have hcount : (line s px).length % 2 ^ 32 = (line s px).length := by
    have hle := length_le_total (h.market.qty_pos s px)
    have hlt := h.market.total_lt s px
    rw [← h.line_length] at hle
    exact Nat.mod_eq_of_lt (by omega)
  simp only [List.length_nil, List.map_nil, total_nil, List.getLastD_nil] at hloop
  simp only [ArrayBook.checkLevel, lineLevel, hloop, ok_bind, hcount, ne_eq, not_true_eq_false,
    if_false, pure_eq_ok]

/-- The array levels of a side, from index `i` on. -/
theorem checkArray_eq {s : Side} {ls : List Level} {i : ℕ} (seen : ℕ) (sums : ℕ × ℕ)
    (hls : ls = (b.side s).levels.drop i)
    (hfit : sumOf sums s + total (((List.range' i ls.length).flatMap fun k =>
      line s (b.grid.price k)).map b.slab.order) < 2 ^ 64) :
    b.checkArray (b.side s) ls i seen sums =
      .ok (.ok (seen + ((List.range' i ls.length).flatMap fun k =>
          line s (b.grid.price k)).length,
        bump sums s (total (((List.range' i ls.length).flatMap fun k =>
          line s (b.grid.price k)).map b.slab.order)))) := by
  induction ls generalizing i seen sums with
  | nil => simp [ArrayBook.checkArray]
  | cons l ls ih =>
    have hi : i < (b.side s).levels.length := by
      by_contra hge
      rw [List.drop_eq_nil_of_le (not_lt.mp hge)] at hls
      simp at hls
    obtain ⟨hl, hls'⟩ : l = (b.side s).levels[i] ∧ ls = (b.side s).levels.drop (i + 1) := by
      rw [List.drop_eq_getElem_cons hi, List.cons.injEq] at hls
      exact hls
    have hn : i < b.grid.nLevels := (h.side_wf s).length_eq ▸ hi
    have hget : (b.side s).levels[i]? = some l := by rw [List.getElem?_eq_getElem hi, hl]
    have hlevel : l = lineLevel (line s (b.grid.price i)) (m.queue s (b.grid.price i)) := by
      rw [← h.level_eq, h.grid.locate_price hn]
      simp [SideLevels.levelAt, SideLevels.at?, hget]
    obtain ⟨bit, hbit, hiff⟩ := Bitmap.isSet_spec (h.side_wf s).bitmap hn
    have hcount : bit = decide (0 < l.count) := by
      rw [Bool.eq_iff_iff, decide_eq_true_eq, hiff]
      exact (h.side_wf s).bit_iff i l hget
    have hqty : l.qty = total ((line s (b.grid.price i)).map b.slab.order) := by
      rw [hlevel, lineLevel, h.queue_eq]
    rw [List.length_cons, List.range'_succ, List.flatMap_cons] at hfit ⊢
    rw [List.map_append, total_append, ← hqty] at hfit ⊢
    have hchecked := h.checkLevel_eq s (b.grid.price i)
    rw [← hlevel] at hchecked
    rw [ArrayBook.checkArray, hbit, ok_bind, if_neg (not_not.mpr hcount),
      h.grid.pxOf_ok hn, ok_bind, h.side_eq, hchecked, ok_bind]
    simp only
    rw [addTo_ok (by omega), ok_bind, ih _ _ hls' (by rw [sumOf_bump]; omega), List.length_append,
      bump_bump, Nat.add_assoc]

/-- The summary bits agree with the words. -/
theorem checkSummary_eq {s : Side} {words : List Word} {w : ℕ}
    (hwords : words = (b.side s).bitmap.words.drop w) :
    ArrayBook.checkSummary (b.side s) words w = .ok (.ok ()) := by
  induction words generalizing w with
  | nil => rfl
  | cons word words ih =>
    have hw : w < (b.side s).bitmap.words.length := by
      by_contra hge
      rw [List.drop_eq_nil_of_le (not_lt.mp hge)] at hwords
      simp at hwords
    obtain ⟨hword, hrest⟩ : word = (b.side s).bitmap.words[w] ∧
        words = (b.side s).bitmap.words.drop (w + 1) := by
      rw [List.drop_eq_getElem_cons hw, List.cons.injEq] at hwords
      exact hwords
    have hbitmap := (h.side_wf s).bitmap
    have h64 : w < 64 := by
      have hlen := hbitmap.length_eq
      have hbound := hbitmap.bound
      unfold maxLevels at hbound
      omega
    have hbits : decide ((b.side s).bitmap.summary >>> w &&& 1#64 = 1#64) =
        decide (word ≠ 0#64) := by
      rw [decide_eq_decide, Bitmap.shift_and_one_iff, hbitmap.summary_iff,
        List.getElem?_eq_getElem hw, ← hword]
      simp
    rw [ArrayBook.checkSummary, shr_ok h64, ok_bind, if_neg (not_not.mpr hbits), ih hrest]

/-- The overflow entries of a side. -/
theorem checkOverflow_eq {s : Side} {es : List (ℤ × Level)} {seen : ℕ} {sums : ℕ × ℕ}
    (hes : ∀ e ∈ es, (b.side s).overflow.get? e.1 = some e.2)
    (hfit : sumOf sums s + total ((es.flatMap fun e => line s e.1).map b.slab.order) < 2 ^ 64) :
    b.checkOverflow (b.side s) es seen sums =
      .ok (.ok (seen + (es.flatMap fun e => line s e.1).length,
        bump sums s (total ((es.flatMap fun e => line s e.1).map b.slab.order)))) := by
  induction es generalizing seen sums with
  | nil => simp [ArrayBook.checkOverflow]
  | cons e es ih =>
    obtain ⟨px, l⟩ := e
    have hget := hes (px, l) (List.mem_cons_self ..)
    obtain ⟨hcount, -, hloc⟩ := (h.side_wf s).overflow_entry px l hget
    have hlevel : l = lineLevel (line s px) (m.queue s px) := by
      rw [← h.level_eq, hloc]
      simp [SideLevels.levelAt, SideLevels.at?, show (b.side s).overflow.get? px = some l from hget]
    have hqty : l.qty = total ((line s px).map b.slab.order) := by
      rw [hlevel, lineLevel, h.queue_eq]
    rw [List.flatMap_cons, List.map_append, total_append, ← hqty] at hfit ⊢
    have hchecked := h.checkLevel_eq s px
    rw [← hlevel] at hchecked
    rw [ArrayBook.checkOverflow, if_neg hcount.ne', if_neg (not_not.mpr hloc), h.side_eq, hchecked,
      ok_bind]
    simp only
    rw [addTo_ok (by omega), ok_bind, ih (fun e he => hes e (List.mem_cons_of_mem _ he))
      (by rw [sumOf_bump]; omega), List.length_append, bump_bump, Nat.add_assoc]

omit h in
/-- The prices a side is checked at: the grid, then the overflow map. -/
def checkedPrices (b : ArrayBook) (s : Side) : List ℤ :=
  (List.range b.grid.nLevels).map b.grid.price ++ (b.side s).overflow.keys

omit h in
/-- The slots met while a side is checked. -/
def sideSlots (b : ArrayBook) (line : Lines) (s : Side) : List ℕ :=
  (checkedPrices b s).flatMap (line s)

omit h in
theorem checkedPrices_nodup {s : Side} (hgrid : b.grid.WF) (hside : (b.side s).WF b.grid) :
    (checkedPrices b s).Nodup := by
  refine List.nodup_append.mpr ⟨?_, SortedMap.keys_nodup _, ?_⟩
  · refine (List.nodup_map_iff_inj_on List.nodup_range).mpr fun i hi j hj hij => ?_
    have hloc := hgrid.locate_price (List.mem_range.mp hi)
    rw [hij, hgrid.locate_price (List.mem_range.mp hj), Locus.inRange.injEq] at hloc
    exact hloc.symm
  · intro p hp q hq hpq
    obtain ⟨i, hi, rfl⟩ := List.mem_map.mp hp
    obtain ⟨l, hl⟩ := SortedMap.mem_keys.mp hq
    obtain ⟨-, -, hloc⟩ := hside.overflow_entry q l hl
    rw [← hpq, hgrid.locate_price (List.mem_range.mp hi)] at hloc
    simp at hloc

omit h in
/-- Lines without a slot in common meet no slot twice. -/
theorem nodup_sideSlots {s : Side} (hgrid : b.grid.WF) (hside : (b.side s).WF b.grid)
    (hline : ∀ px, (line s px).Nodup) (hdisj : ∀ p q j, j ∈ line s p → j ∈ line s q → p = q) :
    (sideSlots b line s).Nodup := by
  refine List.nodup_flatMap.mpr ⟨fun px _ => hline px, ?_⟩
  refine (checkedPrices_nodup hgrid hside).imp fun {p q} hpq => ?_
  exact List.disjoint_left.mpr fun j hp hq => hpq (hdisj p q j hp hq)

omit h in
/-- Every line is met whose price is on the grid or in the overflow map. -/
theorem mem_sideSlots_of {s : Side} (hgrid : b.grid.WF)
    (hempty : ∀ px, b.grid.locate px = .overflow px → (b.side s).overflow.get? px = none →
      line s px = []) {j : ℕ} : j ∈ sideSlots b line s ↔ ∃ px, j ∈ line s px := by
  rw [sideSlots, List.mem_flatMap]
  constructor
  · rintro ⟨px, -, hj⟩
    exact ⟨px, hj⟩
  · rintro ⟨px, hj⟩
    refine ⟨px, ?_, hj⟩
    rw [checkedPrices, List.mem_append]
    cases hloc : b.grid.locate px with
    | inRange i =>
      obtain ⟨hi, hpx⟩ := hgrid.of_locate_inRange hloc
      exact Or.inl (List.mem_map.mpr ⟨i, List.mem_range.mpr hi, hpx.symm⟩)
    | overflow p =>
      obtain rfl := Grid.of_locate_overflow hloc
      refine Or.inr (SortedMap.mem_keys.mpr ?_)
      cases hget : (b.side s).overflow.get? p with
      | none =>
        rw [hempty p hloc hget] at hj
        exact absurd hj List.not_mem_nil
      | some l => exact ⟨l, rfl⟩

theorem mem_sideSlots {s : Side} {j : ℕ} :
    j ∈ sideSlots b line s ↔ ∃ px, j ∈ line s px := by
  refine mem_sideSlots_of h.grid fun px hloc hget => ?_
  have hlevel := h.level_eq s px
  rw [hloc, SideLevels.levelAt, SideLevels.at?, hget] at hlevel
  have hzero : 0 = (line s px).length := congrArg Level.count hlevel
  exact List.eq_nil_of_length_eq_zero hzero.symm

theorem sideSlots_nodup (s : Side) : (sideSlots b line s).Nodup :=
  nodup_sideSlots h.grid (h.side_wf s) (h.line_nodup s) fun _ _ _ hp hq => (h.line_unique hp hq).2

theorem sideSlots_append_nodup : (sideSlots b line .bid ++ sideSlots b line .ask).Nodup := by
  refine List.nodup_append.mpr ⟨h.sideSlots_nodup _, h.sideSlots_nodup _, ?_⟩
  rintro j hj k hk rfl
  obtain ⟨p, hp⟩ := h.mem_sideSlots.mp hj
  obtain ⟨q, hq⟩ := h.mem_sideSlots.mp hk
  exact absurd (h.line_unique hp hq).1 (by decide)

/-- The slots met on both sides are the slots the id map names. -/
theorem sideSlots_perm :
    (sideSlots b line .bid ++ sideSlots b line .ask).Perm (b.ids.entries.map Prod.snd) := by
  have hvalues : (b.ids.entries.map Prod.snd).Nodup := by
    refine (List.nodup_map_iff_inj_on b.ids.entries_nodup).mpr ?_
    rintro ⟨id, i⟩ he ⟨id', i'⟩ he' (rfl : i = i')
    obtain ⟨-, -, -, hid⟩ := (h.ids_iff id i).mp (SortedMap.get?_eq_some_iff.mpr he)
    obtain ⟨-, -, -, hid'⟩ := (h.ids_iff id' i).mp (SortedMap.get?_eq_some_iff.mpr he')
    rw [← hid, ← hid']
  refine (List.perm_ext_iff_of_nodup h.sideSlots_append_nodup hvalues).mpr fun j => ?_
  · rw [List.mem_append, h.mem_sideSlots, h.mem_sideSlots, List.mem_map]
    constructor
    · have hmapped : ∀ {s px}, j ∈ line s px → ∃ e ∈ b.ids.entries, e.2 = j := fun hj =>
        ⟨((b.slab.cell j).id, j),
          SortedMap.get?_eq_some_iff.mp ((h.ids_iff _ j).mpr ⟨_, _, hj, rfl⟩),
          rfl⟩
      rintro (⟨px, hj⟩ | ⟨px, hj⟩) <;> exact hmapped hj
    · rintro ⟨⟨id, i⟩, he, rfl⟩
      obtain ⟨s, px, hi, -⟩ := (h.ids_iff id i).mp (SortedMap.get?_eq_some_iff.mpr he)
      cases s with
      | bid => exact Or.inl ⟨px, hi⟩
      | ask => exact Or.inr ⟨px, hi⟩

/-- One order holds less than `2 ^ 32`, and there are fewer than `2 ^ 32` orders. -/
theorem sideSlots_total_lt (s : Side) : total ((sideSlots b line s).map b.slab.order) < 2 ^ 64 := by
  have hbound : ∀ {xs : List ℕ}, (∀ j ∈ xs, (b.slab.cell j).qty ≤ 2 ^ 32 - 1) →
      total (xs.map b.slab.order) ≤ xs.length * (2 ^ 32 - 1) := by
    intro xs hxs
    induction xs with
    | nil => simp
    | cons j xs ih =>
      have hj := hxs j (List.mem_cons_self ..)
      have hrest := ih fun k hk => hxs k (List.mem_cons_of_mem _ hk)
      rw [List.map_cons, total_cons, List.length_cons, Nat.succ_mul]
      simp only [Slab.order] at hrest ⊢
      omega
  have hqty : ∀ j ∈ sideSlots b line s, (b.slab.cell j).qty ≤ 2 ^ 32 - 1 := by
    intro j hj
    obtain ⟨px, hj⟩ := h.mem_sideSlots.mp hj
    have hmem : b.slab.order j ∈ m.queue s px := by
      rw [h.queue_eq]
      exact List.mem_map_of_mem hj
    have hle := le_total_of_mem hmem
    have hlt := h.market.total_lt s px
    simp only [Slab.order] at hle
    omega
  have hcount : (sideSlots b line s).length ≤ 2 ^ 32 - 1 := by
    have hsub : (sideSlots b line s).length ≤ (List.range b.slab.slots.length).length :=
      List.Nodup.length_le_of_subset (h.sideSlots_nodup s) fun j hj => by
        obtain ⟨px, hj⟩ := h.mem_sideSlots.mp hj
        exact List.mem_range.mpr (h.line_lt hj)
    have hcap := h.freeList.capacity_le
    rw [List.length_range] at hsub
    unfold nilSlot at hcap
    omega
  calc total ((sideSlots b line s).map b.slab.order)
      ≤ (sideSlots b line s).length * (2 ^ 32 - 1) := hbound hqty
    _ ≤ (2 ^ 32 - 1) * (2 ^ 32 - 1) := Nat.mul_le_mul_right _ hcount
    _ < 2 ^ 64 := by norm_num

theorem checkSide_eq (s : Side) (seen : ℕ) (sums : ℕ × ℕ) (hsums : sumOf sums s = 0) :
    b.checkSide (b.side s) seen sums = .ok (.ok (seen + (sideSlots b line s).length,
      bump sums s (total ((sideSlots b line s).map b.slab.order)))) := by
  have hlen := (h.side_wf s).length_eq
  have hslots : sideSlots b line s =
      ((List.range' 0 (b.side s).levels.length).flatMap fun k => line s (b.grid.price k)) ++
        (b.side s).overflow.entries.flatMap fun e => line s e.1 := by
    rw [sideSlots, checkedPrices, List.flatMap_append, hlen, List.range_eq_range', List.flatMap_map,
      SortedMap.keys, List.flatMap_map]
  have htotal := h.sideSlots_total_lt s
  rw [hslots, List.map_append, total_append] at htotal
  have hdrop : (b.side s).levels = (b.side s).levels.drop 0 := rfl
  have harray := h.checkArray_eq seen sums hdrop (by omega)
  have hwords : (b.side s).bitmap.words = (b.side s).bitmap.words.drop 0 := rfl
  have hsummary := h.checkSummary_eq hwords
  rw [ArrayBook.checkSide, harray, ok_bind]
  simp only
  rw [hsummary, ok_bind]
  simp only
  rw [h.checkOverflow_eq (fun e he => SortedMap.get?_eq_some_iff.mpr he)
    (by rw [sumOf_bump]; omega), bump_bump, hslots, List.length_append,
    List.map_append, total_append, Nat.add_assoc]

/-- The totals of the orders named by a list of map entries, by side. -/
theorem checkIds_eq {es : List (OrderId × ℕ)} (sums : ℕ × ℕ)
    (hes : ∀ e ∈ es, b.ids.get? e.1 = some e.2)
    (hfit : ∀ s, sumOf sums s + total (((es.map Prod.snd).filter
      fun j => (b.slab.cell j).side = s).map b.slab.order) < 2 ^ 64) :
    b.checkIds es sums = .ok (.ok (bump (bump sums .bid (total (((es.map Prod.snd).filter
      fun j => (b.slab.cell j).side = .bid).map b.slab.order))) .ask
        (total (((es.map Prod.snd).filter
      fun j => (b.slab.cell j).side = .ask).map b.slab.order)))) := by
  induction es generalizing sums with
  | nil => simp [ArrayBook.checkIds]
  | cons e es ih =>
    obtain ⟨id, i⟩ := e
    obtain ⟨s, px, hi, hid⟩ := (h.ids_iff id i).mp (hes (id, i) (List.mem_cons_self ..))
    have hside : (b.slab.cell i).side = s := slot_side (h.px_range hi).1 (h.px_eq s px i hi)
    have hqty := (h.qty_pos_of_line hi).ne'
    have hadd : ArrayBook.addTo sums s (b.slab.cell i).qty =
        .ok (bump sums s (b.slab.cell i).qty) := by
      have := hfit s
      rw [List.map_cons, List.filter_cons_of_pos (by simpa using hside), List.map_cons,
        total_cons] at this
      exact addTo_ok (by simp only [Slab.order] at this; omega)
    rw [ArrayBook.checkIds, Slab.get_ok (h.line_lt hi), ok_bind, if_neg (not_not.mpr hid),
      if_neg hqty, hside, hadd, ok_bind]
    rw [ih _ (fun e he => hes e (List.mem_cons_of_mem _ he))]
    · cases s <;> simp [hside, bump, Slab.order, Nat.add_assoc]
    · intro s'
      have := hfit s'
      cases s <;> cases s' <;> simp [hside, bump, sumOf, Slab.order] at this ⊢ <;> omega

/-- Picking one side's slots out of the id map gives the slots met on that side. -/
theorem total_filter_side (s : Side) :
    total (((b.ids.entries.map Prod.snd).filter fun j => (b.slab.cell j).side = s).map
      b.slab.order) =
      total ((sideSlots b line s).map b.slab.order) := by
  have hside : ∀ {s' : Side} {j : ℕ}, j ∈ sideSlots b line s' → (b.slab.cell j).side = s' := by
    intro s' j hj
    obtain ⟨px, hj⟩ := h.mem_sideSlots.mp hj
    exact slot_side (h.px_range hj).1 (h.px_eq s' px j hj)
  have hkeep : (sideSlots b line s).filter (fun j => decide ((b.slab.cell j).side = s)) =
      sideSlots b line s := List.filter_eq_self.mpr fun j hj => by simpa using hside hj
  have hdrop : ∀ s', s' ≠ s → (sideSlots b line s').filter
      (fun j => decide ((b.slab.cell j).side = s)) = [] := fun s' hne =>
    List.filter_eq_nil_iff.mpr fun j hj => by simpa [hside hj] using hne
  have hperm := (h.sideSlots_perm.filter fun j => decide ((b.slab.cell j).side = s)).map
    b.slab.order
  have hslots : (sideSlots b line .bid ++ sideSlots b line .ask).filter
      (fun j => decide ((b.slab.cell j).side = s)) = sideSlots b line s := by
    rw [List.filter_append]
    cases s with
    | bid => rw [hkeep, hdrop .ask (by decide), List.append_nil]
    | ask => rw [hkeep, hdrop .bid (by decide), List.nil_append]
  rw [hslots] at hperm
  exact ((hperm.map Prod.snd).sum_eq).symm

theorem checkTotals_eq : b.checkTotals b.slab.live = .ok (.ok ()) := by
  have hlive := h.freeList.live_eq
  have hids := h.ids_length
  have hcap : ¬ b.slab.live + free.length ≠ b.slab.capacity := not_not.mpr hlive
  simp only [ArrayBook.checkTotals, hids, ne_eq, not_true_eq_false, or_self, if_false,
    h.freeList.freeLen, ok_bind]
  rw [if_neg hcap, pure_eq_ok]

/-- A book that represents a market passes `check`. -/
theorem check_eq : b.check = .ok (.ok ()) := by
  have hbids := h.checkSide_eq .bid 0 (0, 0) rfl
  have hasks := h.checkSide_eq .ask (0 + (sideSlots b line .bid).length)
    (bump (0, 0) .bid (total ((sideSlots b line .bid).map b.slab.order))) rfl
  have hseen : 0 + (sideSlots b line .bid).length + (sideSlots b line .ask).length =
      b.slab.live := by
    have hlen := h.sideSlots_perm.length_eq
    rw [List.length_append, List.length_map] at hlen
    rw [← h.ids_length, SortedMap.length]
    omega
  have hids := h.checkIds_eq (0, 0)
    (fun e (he : e ∈ b.ids.entries) => SortedMap.get?_eq_some_iff.mpr he) (by
      intro s
      rw [h.total_filter_side s]
      have := h.sideSlots_total_lt s
      cases s <;> simpa [sumOf] using this)
  rw [h.total_filter_side, h.total_filter_side] at hids
  rw [hseen] at hasks
  rw [ArrayBook.check, show b.bids = b.side .bid from rfl, hbids, ok_bind]
  simp only
  rw [show b.asks = b.side .ask from rfl, hasks, ok_bind]
  simp only
  rw [h.checkTotals_eq, ok_bind]
  simp only
  rw [hids, ok_bind]
  simp

end Represents

end Lobcore.ArrayBooks
