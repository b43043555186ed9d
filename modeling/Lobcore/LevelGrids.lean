import Lobcore.PriceLevels
import Mathlib.Algebra.Order.Ring.Int
import Mathlib.Tactic.Ring

/-!
Grids and sides in good order. On a valid grid every array index has its own price and
every price its own place. A side in good order has its bitmap and its overflow map in
step with the counts of its levels; writing one level back keeps that.
-/
namespace Lobcore.PriceLevels

open Checked OrderTypes SortedMaps OrderSlab Bitmaps

namespace Grid

/-- What `ArrayBook::new` asserts of a configuration. -/
structure WF (g : Grid) : Prop where
  levels_pos : 1 ≤ g.nLevels
  levels_le : g.nLevels ≤ maxLevels
  tick_pos : 0 < g.tick
  base_pos : 0 < g.basePx
  top : g.basePx + (g.nLevels - 1) * g.tick < 2 ^ 31

/-- The price of an array index. -/
def price (g : Grid) (i : ℕ) : ℤ := g.basePx + i * g.tick

variable {g : Grid} (h : g.WF)

include h

theorem WF.offset_bound {i : ℕ} (hi : i < g.nLevels) :
    0 ≤ (i : ℤ) * g.tick ∧ (i : ℤ) * g.tick ≤ (g.nLevels - 1) * g.tick := by
  have htick := h.tick_pos
  exact ⟨mul_nonneg (by omega) htick.le, Int.mul_le_mul_of_nonneg_right (by omega) htick.le⟩

theorem WF.pxOf_ok {i : ℕ} (hi : i < g.nLevels) : g.pxOf i = .ok (g.price i) := by
  have hoff := h.offset_bound hi
  have hbase := h.base_pos
  have htop := h.top
  have hup : fitI32 (i * g.tick) = .ok (i * g.tick) := fitI32_ok (by omega)
  simp only [pxOf, hup, ok_bind, price]
  exact fitI32_ok (by omega)

theorem WF.price_lt_price {i j : ℕ} : g.price i < g.price j ↔ i < j := by
  have htick := h.tick_pos
  simp [price, mul_lt_mul_iff_left₀ htick]

theorem WF.locate_price {i : ℕ} (hi : i < g.nLevels) : g.locate (g.price i) = .inRange i := by
  have htick := h.tick_pos
  have hd : g.price i - g.basePx = i * g.tick := by
    unfold price
    ring
  have hdiv : (i : ℤ) * g.tick / g.tick = i := Int.mul_ediv_cancel _ htick.ne'
  have hcond : 0 ≤ (i : ℤ) * g.tick ∧ (i : ℤ) * g.tick % g.tick = 0 ∧ (i : ℤ) < g.nLevels :=
    ⟨(h.offset_bound hi).1, Int.mul_emod_left .., by omega⟩
  simp only [locate, hd, hdiv, if_pos hcond, Int.toNat_natCast]

theorem WF.of_locate_inRange {px : ℤ} {i : ℕ} (hloc : g.locate px = .inRange i) :
    i < g.nLevels ∧ px = g.price i := by
  have htick := h.tick_pos
  unfold locate at hloc
  dsimp only at hloc
  split at hloc
  · rename_i hc
    obtain ⟨hd, hmod, hlt⟩ := hc
    have hnn : 0 ≤ (px - g.basePx) / g.tick := Int.ediv_nonneg hd htick.le
    have hi : ((px - g.basePx) / g.tick).toNat = i := by simpa using hloc
    have hcast : (i : ℤ) = (px - g.basePx) / g.tick := by omega
    refine ⟨by omega, ?_⟩
    have hmul := Int.ediv_mul_cancel (Int.dvd_of_emod_eq_zero hmod)
    unfold price
    rw [hcast, hmul]
    ring
  · simp at hloc

omit h in
theorem of_locate_overflow {px p : ℤ} (hloc : g.locate px = .overflow p) : p = px := by
  unfold locate at hloc
  dsimp only at hloc
  split at hloc
  · simp at hloc
  · simpa using hloc.symm

/-- Two prices land in the same place only when they are equal. -/
theorem WF.locate_inj {p q : ℤ} (hpq : g.locate p = g.locate q) : p = q := by
  cases hq : g.locate q with
  | inRange i => rw [(h.of_locate_inRange (hpq.trans hq)).2, (h.of_locate_inRange hq).2]
  | overflow x => rw [← of_locate_overflow (hpq.trans hq), ← of_locate_overflow hq]

end Grid

namespace SideLevels

/-- The level kept at a locus. -/
def at? (sl : SideLevels) : Locus → Option Level
  | .inRange i => sl.levels[i]?
  | .overflow px => sl.overflow.get? px

/-- The array has one level for each index of the grid, the bitmap marks the non-empty
ones, and every overflow entry is a non-empty level off the grid. -/
structure WF (sl : SideLevels) (g : Grid) : Prop where
  length_eq : sl.levels.length = g.nLevels
  bitmap : sl.bitmap.WF g.nLevels
  bit_iff : ∀ i l, sl.levels[i]? = some l → (i ∈ sl.bitmap.members ↔ 0 < l.count)
  overflow_entry : ∀ px l, sl.overflow.get? px = some l →
    0 < l.count ∧ 0 ≤ px ∧ g.locate px = .overflow px

/-- The level kept at a locus, the empty one when there is none. -/
def levelAt (sl : SideLevels) (locus : Locus) : Level := (sl.at? locus).getD .empty

variable {g : Grid} {sl : SideLevels} {px : ℤ}

theorem new_spec (hg : g.WF) (s : Side) :
    ∃ sl, new s g.nLevels = .ok sl ∧ sl.WF g ∧ sl.side = s ∧ ∀ k, sl.levelAt k = .empty := by
  obtain ⟨bitmap, hb, hwf, hmem⟩ := Bitmap.new_spec hg.levels_le
  refine ⟨⟨s, List.replicate g.nLevels .empty, bitmap, .empty, 0, 0⟩, by simp [new, hb],
    ⟨by simp, hwf, fun i l hl => ?_, fun px l hl => by simp at hl⟩, rfl, fun k => ?_⟩
  · obtain rfl : .empty = l := by
      rw [List.getElem?_replicate] at hl
      split at hl <;> simp_all
    simp [hmem, Level.empty]
  · cases k with
    | inRange i =>
      simp only [levelAt, at?, List.getElem?_replicate]
      split <;> rfl
    | overflow px => rfl

theorem WF.index_lt (hg : g.WF) (h : sl.WF g) {i : ℕ} (hloc : g.locate px = .inRange i) :
    i < sl.levels.length :=
  h.length_eq ▸ (hg.of_locate_inRange hloc).1

theorem WF.get_ok (hg : g.WF) (h : sl.WF g) :
    sl.get (g.locate px) = .ok (sl.at? (g.locate px)) := by
  cases hloc : g.locate px with
  | inRange i =>
    have hi := List.getElem?_eq_getElem (h.index_lt hg hloc)
    simp [get, at?, index_ok hi, hi]
  | overflow p => rfl

theorem WF.getMut_ok (hg : g.WF) (h : sl.WF g) (px : ℤ)
    (hcount : 0 < (sl.levelAt (g.locate px)).count) :
    sl.getMut (g.locate px) = .ok (sl.levelAt (g.locate px)) := by
  cases hloc : g.locate px with
  | inRange i =>
    have hi := List.getElem?_eq_getElem (h.index_lt hg hloc)
    simp [getMut, levelAt, at?, index_ok hi, hi]
  | overflow p =>
    rw [hloc] at hcount
    cases hget : sl.overflow.get? p with
    | none => simp [levelAt, at?, hget, Level.empty] at hcount
    | some l => simp [getMut, levelAt, at?, hget]

/-- `getOrInsert` reads the level; at most it adds an empty overflow entry there. -/
theorem WF.getOrInsert_ok (hg : g.WF) (h : sl.WF g) (px : ℤ) :
    ∃ sl', sl.getOrInsert (g.locate px) = .ok (sl.levelAt (g.locate px), sl') ∧
      (sl' = sl ∨ ∃ p, g.locate px = .overflow p ∧ sl.overflow.get? p = none ∧
        sl' = { sl with overflow := sl.overflow.insert p .empty }) := by
  cases hloc : g.locate px with
  | inRange i =>
    have hi := List.getElem?_eq_getElem (h.index_lt hg hloc)
    exact ⟨sl, by simp [getOrInsert, levelAt, at?, index_ok hi, hi], Or.inl rfl⟩
  | overflow p =>
    cases hget : sl.overflow.get? p with
    | none => exact ⟨_, by simp [getOrInsert, levelAt, at?, hget], Or.inr ⟨p, rfl, hget, rfl⟩⟩
    | some l => exact ⟨sl, by simp [getOrInsert, levelAt, at?, hget], Or.inl rfl⟩

/-- A level written into the array, with a bitmap that marks it when it is non-empty. -/
theorem WF.store_level (h : sl.WF g) {i : ℕ} (hi : i < g.nLevels) (new : Level) {bitmap : Bitmap}
    (hb : bitmap.WF g.nLevels)
    (hmem : ∀ j, j ∈ bitmap.members ↔ if j = i then 0 < new.count else j ∈ sl.bitmap.members) :
    SideLevels.WF { sl with levels := sl.levels.set i new, bitmap } g ∧
      ∀ k, levelAt { sl with levels := sl.levels.set i new, bitmap } k =
        if k = .inRange i then new else sl.levelAt k := by
  have hlen : i < sl.levels.length := h.length_eq ▸ hi
  refine ⟨⟨by simpa using h.length_eq, hb, fun j l hl => ?_, h.overflow_entry⟩, fun k => ?_⟩
  · rw [hmem]
    simp only [List.getElem?_set] at hl
    by_cases hj : j = i
    · subst hj
      simp only [if_true, if_pos hlen, Option.some.injEq] at hl ⊢
      rw [hl]
    · simp only [if_neg hj, if_neg (Ne.symm hj)] at hl ⊢
      exact h.bit_iff j l hl
  · cases k with
    | inRange j =>
      simp only [levelAt, at?, List.getElem?_set, Locus.inRange.injEq]
      by_cases hj : j = i
      · simp [hj, hlen]
      · simp [hj, Ne.symm hj]
    | overflow p => simp [levelAt, at?]

/-- A non-empty overflow level written, or an emptied one dropped. -/
theorem WF.store_overflow (h : sl.WF g) {p : ℤ} (hpx : 0 ≤ p) (hloc : g.locate p = .overflow p)
    (new : Level) (hnew : new.count = 0 → new = .empty) (overflow : SortedMap ℤ Level)
    (hget : ∀ k, overflow.get? k = if k = p then (if new.count = 0 then none else some new)
      else sl.overflow.get? k) :
    SideLevels.WF { sl with overflow } g ∧
      ∀ k, levelAt { sl with overflow } k = if k = .overflow p then new else sl.levelAt k := by
  refine ⟨⟨h.length_eq, h.bitmap, h.bit_iff, fun k l hl => ?_⟩, fun k => ?_⟩
  · rw [hget] at hl
    by_cases hk : k = p
    · subst hk
      rw [if_pos rfl] at hl
      split at hl
      · simp at hl
      · obtain rfl := Option.some.inj hl
        exact ⟨Nat.pos_of_ne_zero ‹_›, hpx, hloc⟩
    · rw [if_neg hk] at hl
      exact h.overflow_entry k l hl
  · cases k with
    | inRange j => simp [levelAt, at?]
    | overflow k =>
      simp only [levelAt, at?, hget, Locus.overflow.injEq]
      by_cases hk : k = p
      · simp only [if_pos hk]
        split
        · exact (hnew ‹_›).symm
        · rfl
      · simp [hk]

/-- Writing a level back and maintaining the bitmap or the map after it. -/
theorem WF.write (hg : g.WF) (h : sl.WF g) (hpx : 0 ≤ px) (new : Level)
    (hnew : new.count = 0 → new = .empty) {sl₁ : SideLevels}
    (h₁ : sl₁ = sl ∨ ∃ p, g.locate px = .overflow p ∧ sl.overflow.get? p = none ∧
      sl₁ = { sl with overflow := sl.overflow.insert p .empty }) :
    ∃ sl₂ sl₃, sl₁.put (g.locate px) new = .ok sl₂ ∧
      sl₂.afterCountChange (g.locate px) (sl.levelAt (g.locate px)).count = .ok sl₃ ∧
      sl₃.WF g ∧ sl₃.side = sl.side ∧
      ∀ k, sl₃.levelAt k = if k = g.locate px then new else sl.levelAt k := by
  cases hloc : g.locate px with
  | inRange i =>
    obtain rfl : sl₁ = sl := h₁.elim id fun ⟨p, hp, _⟩ => by simp [hloc] at hp
    have hi := (hg.of_locate_inRange hloc).1
    have hlen : i < sl₁.levels.length := h.length_eq ▸ hi
    have hold := List.getElem?_eq_getElem hlen
    have hbit := h.bit_iff i _ hold
    have hbefore : sl₁.levelAt (.inRange i) = sl₁.levels[i] := by simp [levelAt, at?, hold]
    have hnow : index (sl₁.levels.set i new) i = .ok new := index_ok (by simp [hlen])
    have hput : sl₁.put (.inRange i) new = .ok { sl₁ with levels := sl₁.levels.set i new } := by
      simp [put, store_ok hlen]
    rw [hbefore]
    by_cases hup : sl₁.levels[i].count = 0 ∧ 0 < new.count
    · obtain ⟨bitmap, hset, hb, hmem⟩ := Bitmap.set_spec h.bitmap hi
      obtain ⟨hwf, hat⟩ := h.store_level hi new hb fun j => by
        rw [hmem, Set.mem_insert_iff]
        by_cases hj : j = i <;> simp [hj, hup.2]
      refine ⟨_, _, hput, ?_, hwf, rfl, hat⟩
      simp only [afterCountChange, hnow, ok_bind, if_pos hup, hset]
      rfl
    by_cases hdown : 0 < sl₁.levels[i].count ∧ new.count = 0
    · obtain ⟨bitmap, hclear, hb, hmem⟩ := Bitmap.clear_spec h.bitmap hi
      obtain ⟨hwf, hat⟩ := h.store_level hi new hb fun j => by
        rw [hmem, Set.mem_sdiff, Set.mem_singleton_iff]
        by_cases hj : j = i <;> simp [hj, hdown.2]
      refine ⟨_, _, hput, ?_, hwf, rfl, hat⟩
      simp only [afterCountChange, hnow, ok_bind, if_neg hup, if_pos hdown, hclear]
      rfl
    · obtain ⟨hwf, hat⟩ := h.store_level hi new h.bitmap fun j => by
        by_cases hj : j = i
        · subst hj
          rw [if_pos rfl, hbit]
          omega
        · rw [if_neg hj]
      refine ⟨_, _, hput, ?_, hwf, rfl, hat⟩
      simp only [afterCountChange, hnow, ok_bind, if_neg hup, if_neg hdown]
      rfl
  | overflow p =>
    obtain rfl := Grid.of_locate_overflow hloc
    have hget₁ : ∀ k, k ≠ p → sl₁.overflow.get? k = sl.overflow.get? k := by
      intro k hk
      rcases h₁ with rfl | ⟨q, hq, -, rfl⟩
      · rfl
      · obtain rfl : q = p := by simpa [hloc] using hq.symm
        simp [SortedMap.get?_insert_of_ne _ _ hk]
    obtain ⟨overflow, hmap⟩ : ∃ overflow, overflow = if new.count = 0
      then (sl₁.overflow.insert p new).erase p else sl₁.overflow.insert p new := ⟨_, rfl⟩
    obtain ⟨hwf, hat⟩ := h.store_overflow hpx hloc new hnew overflow fun k => by
      subst hmap
      by_cases hk : k = p
      · subst hk
        split <;> simp
      · rw [if_neg hk]
        split
        · rw [SortedMap.get?_erase_of_ne _ hk, SortedMap.get?_insert_of_ne _ _ hk, hget₁ k hk]
        · rw [SortedMap.get?_insert_of_ne _ _ hk, hget₁ k hk]
    refine ⟨_, { sl with overflow }, rfl, ?_, hwf, rfl, hat⟩
    have hrest : { sl₁ with overflow } = { sl with overflow } := by
      rcases h₁ with rfl | ⟨q, -, -, rfl⟩ <;> rfl
    rw [← hrest, hmap]
    simp only [afterCountChange, SortedMap.get?_insert_self]
    split <;> rfl

/-- Writing a level back with its count as it was. -/
theorem WF.put_same (hg : g.WF) (h : sl.WF g) (hpx : 0 ≤ px) (new : Level)
    (hcount : new.count = (sl.levelAt (g.locate px)).count) (hpos : 0 < new.count) :
    ∃ sl', sl.put (g.locate px) new = .ok sl' ∧ sl'.WF g ∧ sl'.side = sl.side ∧
      ∀ k, sl'.levelAt k = if k = g.locate px then new else sl.levelAt k := by
  obtain ⟨sl₂, sl₃, hput, hafter, hwf, hside, hat⟩ :=
    h.write hg hpx new (fun h0 => absurd h0 hpos.ne') (Or.inl rfl)
  refine ⟨sl₂, hput, ?_⟩
  -- with a positive count before and after there is nothing to maintain
  have hsame : sl₂ = sl₃ := by
    cases hloc : g.locate px with
    | inRange i =>
      rw [hloc] at hput hafter hcount
      have hlen := h.index_lt hg hloc
      obtain rfl : { sl with levels := sl.levels.set i new } = sl₂ := by
        simpa [put, store_ok hlen] using hput
      have hnow : index (sl.levels.set i new) i = .ok new := index_ok (by simp [hlen])
      have hup : ¬ ((sl.levelAt (.inRange i)).count = 0 ∧ 0 < new.count) := by omega
      have hdown : ¬ (0 < (sl.levelAt (.inRange i)).count ∧ new.count = 0) := by omega
      simpa only [afterCountChange, hnow, ok_bind, if_neg hup, if_neg hdown, pure_eq_ok,
        Except.ok.injEq] using hafter
    | overflow p =>
      rw [hloc] at hput hafter
      obtain rfl : { sl with overflow := sl.overflow.insert p new } = sl₂ := by
        simpa [put] using hput
      simpa [afterCountChange, hpos.ne'] using hafter
  exact hsame ▸ ⟨hwf, hside, hat⟩

/-- The counters of an add are not part of the levels. -/
theorem WF.noteAdd (h : sl.WF g) (locus : Locus) (px : ℤ) : (sl.noteAdd g locus px).WF g :=
  ⟨h.length_eq, h.bitmap, h.bit_iff, h.overflow_entry⟩

@[simp] theorem noteAdd_side (locus : Locus) (px : ℤ) :
    (sl.noteAdd g locus px).side = sl.side := rfl

@[simp] theorem noteAdd_levelAt (locus k : Locus) (px : ℤ) :
    (sl.noteAdd g locus px).levelAt k = sl.levelAt k := by cases k <;> rfl

end SideLevels

end Lobcore.PriceLevels
