import Lobcore.ArraySteps
import Lobcore.MarketViews

/-!
The array book against the market, call by call. As long as the next market has no more
orders than the slab has slots, each call returns the market's reply without aborting and
the next book represents that market.
-/
namespace Lobcore.ArrayBooks

open Checked OrderTypes SortedMaps OrderSlab Bitmaps PriceLevels Markets

/-- What `ArrayBook::new` asks of a config. -/
structure ValidConfig (cfg : BookConfig) : Prop where
  levels_pos : 1 ≤ cfg.nLevels
  levels_le : cfg.nLevels ≤ maxLevels
  tick_pos : 0 < cfg.tick
  base_pos : 0 < cfg.basePx
  top : cfg.basePx + (cfg.nLevels - 1) * cfg.tick < 2 ^ 31

/-- The sizes that a slab and an id map can be reserved for. -/
structure Reservable (orders : ℕ) : Prop where
  slots : 24 * orders ≤ isizeMax
  table : tableBytes (min (orders * 2) usizeMax) ≤ isizeMax - 15

namespace ArrayBook

/-- The book represents the market with some lines and some free list. -/
def Refines (b : ArrayBook) (m : Market) : Prop := ∃ line free, Represents b m line free

theorem Refines.represents {b : ArrayBook} {m : Market} (h : b.Refines m) :
    ∃ line free, Represents b m line free := h

theorem Refines.market {b : ArrayBook} {m : Market} (h : b.Refines m) : m.WF := by
  obtain ⟨line, free, h⟩ := h
  exact h.market

/-- The window a book keeps for life. -/
theorem new_spec {cfg : BookConfig} (hcfg : ValidConfig cfg) :
    ∃ b, new cfg = .ok b ∧ b.Refines .empty ∧ b.config = cfg ∧ b.slab = .new ∧ b.ids = .empty := by
  have hg : Grid.WF ⟨cfg.basePx, cfg.nLevels, cfg.tick⟩ :=
    ⟨hcfg.levels_pos, hcfg.levels_le, hcfg.tick_pos, hcfg.base_pos, hcfg.top⟩
  obtain ⟨bids, hbids, hbwf, hbside, hbat⟩ := SideLevels.new_spec hg .bid
  obtain ⟨asks, hasks, hawf, haside, haat⟩ := SideLevels.new_spec hg .ask
  refine ⟨⟨⟨cfg.basePx, cfg.nLevels, cfg.tick⟩, bids, asks, .new, .empty⟩, ?_,
    ⟨fun _ _ => [], [], ?_⟩, rfl, rfl, rfl⟩
  · have htop : cfg.basePx + (cfg.nLevels - 1) * cfg.tick ≤ 2 ^ 31 - 1 := by
      have := hcfg.top
      omega
    simp only [new, ensure_ok (And.intro hcfg.levels_pos hcfg.levels_le), ensure_ok hcfg.tick_pos,
      ensure_ok hcfg.base_pos, ensure_ok htop, ok_bind, hbids, hasks, pure_eq_ok]
  · constructor
    case market => exact Market.wf_empty
    case grid => exact hg
    case side_eq => intro s; cases s <;> assumption
    case side_wf => intro s; cases s <;> assumption
    case level_eq =>
      intro s px
      cases s <;> simp [side, hbat, haat, lineLevel, Level.empty, Market.empty]
    case queue_eq => intro s px; rfl
    case px_eq => intro s px i hi; simp at hi
    case linked => intro s px; trivial
    case ids_iff => intro id i; simp
    case ids_length => rfl
    case freeList => exact Slab.freeList_new
    case used_iff => intro i; simp [Slab.new]

theorem withCapacity_returns {Q : Prop} {cfg : BookConfig} (hcfg : ValidConfig cfg) {orders : ℕ}
    (hsize : Q → Reservable orders) :
    Returns Q (fun b => b.Refines .empty ∧ b.config = cfg) (withCapacity cfg orders) := by
  obtain ⟨b, hnew, href, hconfig, hslab, hids⟩ := new_spec hcfg
  have hslots : Returns Q (· = b.slab) (b.slab.reserve orders) := by
    unfold Slab.reserve
    by_cases hfit : 24 * (b.slab.slots.length + (orders - (b.slab.slots.length - b.slab.live))) ≤
        isizeMax
    · rw [if_pos hfit]
      exact Returns.of_ok rfl
    · rw [if_neg hfit]
      refine Or.inr ⟨fun hq => hfit ?_, _, rfl⟩
      rw [hslab]
      simpa [Slab.new] using (hsize hq).slots
  have htable : Returns Q (· = b.ids) (reserveIds b.ids (min (orders * 2) usizeMax)) := by
    unfold reserveIds
    by_cases hfit : tableBytes (b.ids.length + min (orders * 2) usizeMax) ≤ isizeMax - 15
    · rw [if_pos hfit]
      exact Returns.of_ok rfl
    · rw [if_neg hfit]
      refine Or.inr ⟨fun hq => hfit ?_, _, rfl⟩
      rw [hids]
      simpa [SortedMap.empty, SortedMap.length] using (hsize hq).table
  rw [withCapacity, hnew, ok_bind]
  refine hslots.bind fun slab hs => htable.bind fun ids hi => ?_
  subst hs hi
  exact Returns.of_ok ⟨href, hconfig⟩

end ArrayBook

theorem withParts_withParts (b : ArrayBook) (s : Side) (sl sl' : SideLevels) (slab slab' : Slab)
    (ids ids' : IdMap) :
    (b.withParts s sl slab ids).withParts s sl' slab' ids' = b.withParts s sl' slab' ids' := by
  cases s <;> rfl

namespace Represents

variable {b : ArrayBook} {m : Market} {line : Lines} {free : List ℕ} (h : Represents b m line free)

include h

theorem live_eq : m.live = b.slab.live := by
  rw [← h.ids_length]
  refine Market.live_eq_map_length b.ids fun id => ?_
  rw [← Option.isSome_iff_exists]
  have := h.contains_eq id
  unfold SortedMap.contains at this
  rw [this]

/-- The counters of an add are not part of what is represented. -/
theorem noteAdd (s : Side) (locus : Locus) (px : ℤ) :
    Represents (b.withParts s ((b.side s).noteAdd b.grid locus px) b.slab b.ids) m line free where
  market := h.market
  grid := by simpa using h.grid
  side_eq s' := by
    by_cases hs : s' = s
    · simpa [hs] using h.side_eq s
    · simpa [hs] using h.side_eq s'
  side_wf s' := by
    by_cases hs : s' = s
    · simpa [hs] using (h.side_wf s).noteAdd locus px
    · simpa [hs] using h.side_wf s'
  level_eq s' px' := by
    by_cases hs : s' = s
    · simpa [hs] using h.level_eq s px'
    · simpa [hs] using h.level_eq s' px'
  queue_eq := h.queue_eq
  px_eq := h.px_eq
  linked := h.linked
  ids_iff := h.ids_iff
  ids_length := h.ids_length
  freeList := h.freeList
  used_iff := h.used_iff

/-- Taking from a live order gives the market's `take`. -/
theorem take {id : OrderId} {s : Side} {px : ℤ} {n amount : ℕ}
    (hfind : m.find id = some (s, px, n)) (hle : amount ≤ n) :
    ∃ i t b', b.ids.get? id = some i ∧ b.slab.get i = .ok t ∧ t.qty = n ∧ t.side = s ∧
      t.absPx = .ok px ∧ b.take i t amount = .ok (n - amount, b') ∧
      b'.Refines (m.take id s px (n - amount)) := by
  obtain ⟨i, xs, ys, hline, hget, hcell, -⟩ := h.located hfind
  have hi : i ∈ line s px := by simp [hline]
  have hpx := h.px_nonneg hi
  have hslot := h.px_eq s px i hi
  have hside := slot_side (h.px_range hi).1 hslot
  have habs := slot_absPx hpx hslot
  have hid : (b.slab.cell i).id = id := by rw [hcell]
  have hqty : (b.slab.cell i).qty = n := by rw [hcell]
  have hsub : subU (b.slab.cell i).qty amount = .ok (n - amount) := by
    rw [hqty]
    exact subU_ok hle
  by_cases hzero : n - amount = 0
  · obtain ⟨i', sl', slab', line', free', hget', -, -, -, -, hunlink, hrep⟩ := h.unlink hfind
    obtain rfl : i = i' := Option.some.inj (hget.symm.trans hget')
    refine ⟨i, _, _, hget, Slab.get_ok (h.line_lt hi), hqty, hside, habs, ?_, line', free',
      hzero ▸ hrep⟩
    simp only [ArrayBook.take, habs, ok_bind, hsub, if_pos hzero, hside, hunlink, hid, pure_eq_ok]
  · obtain ⟨i', sl', slab', line', free', hget', hreduce, hrep⟩ :=
      h.reduce hfind (show amount < n by omega)
    obtain rfl : i = i' := Option.some.inj (hget.symm.trans hget')
    refine ⟨i, _, _, hget, Slab.get_ok (h.line_lt hi), hqty, hside, habs, ?_, line', free', hrep⟩
    simp only [ArrayBook.take, habs, ok_bind, hsub, if_neg hzero, hside, hreduce, pure_eq_ok]

theorem level_qty (s : Side) (px : ℤ) :
    ((b.side s).levelAt (b.grid.locate px)).qty = total (m.queue s px) := by
  rw [h.level_eq]
  rfl

theorem levelFull_eq (s : Side) (px : ℤ) (qty : ℕ) (hqty : qty < 2 ^ 32) :
    ArrayBook.levelFull (b.side s) (b.grid.locate px) qty =
      .ok (decide (2 ^ 32 ≤ total (m.queue s px) + qty)) := by
  have hq := h.level_qty s px
  unfold SideLevels.levelAt at hq
  rw [ArrayBook.levelFull, (h.side_wf s).get_ok h.grid, ok_bind, ← hq]
  cases (b.side s).at? (b.grid.locate px) with
  | none =>
    have hfit : ¬ 2 ^ 32 ≤ 0 + qty := by omega
    exact congrArg Except.ok (decide_eq_false hfit).symm
  | some l => rfl

theorem existing_eq {id : OrderId} {s : Side} {oldPx : ℤ} {n : ℕ}
    (hfind : m.find id = some (s, oldPx, n)) (px : ℤ) :
    ArrayBook.existing (b.side s) (b.grid.locate oldPx) (b.grid.locate px) n =
      .ok (total (m.queue s px) - if px = oldPx then n else 0) := by
  have helim : ∀ px, ((b.side s).at? (b.grid.locate px)).elim 0 Level.qty =
      total (m.queue s px) := by
    intro px
    rw [← h.level_qty s px, SideLevels.levelAt]
    cases (b.side s).at? (b.grid.locate px) <;> rfl
  unfold ArrayBook.existing
  by_cases hp : px = oldPx
  · subst hp
    have hle : n ≤ total (m.queue s px) :=
      le_total_of_mem (remaining_mem (Market.find_eq_some.mp hfind).2)
    simp only [if_true, (h.side_wf s).get_ok h.grid, ok_bind, helim, subU_ok hle]
  · have hne : b.grid.locate px ≠ b.grid.locate oldPx := fun heq => hp (h.grid.locate_inj heq)
    simp only [if_neg hne, if_neg hp, (h.side_wf s).get_ok h.grid, ok_bind, helim, Nat.sub_zero,
      pure_eq_ok]

end Represents

namespace ArrayBook

variable {b : ArrayBook} {m : Market} (h : b.Refines m)

include h

theorem Refines.liveOrders_eq : b.liveOrders = m.live := by
  obtain ⟨line, free, h⟩ := h
  exact h.live_eq.symm

theorem Refines.add (id : OrderId) (s : Side) {px : ℤ} {qty : ℕ}
    (hpx : px < 2 ^ 31) (hqty : qty < 2 ^ 32) (hroom : (m.add id s px qty).2.live ≤ nilSlot) :
    ∃ b', b.add id s px qty = .ok ((m.add id s px qty).1, b') ∧
      b'.Refines (m.add id s px qty).2 := by
  obtain ⟨line, free, hrep⟩ := h.represents
  have hwf := hrep.market.add id s qty hpx
  have hfull := hrep.levelFull_eq s px qty hqty
  unfold ArrayBook.add Market.add at *
  by_cases hzero : qty = 0
  · exact ⟨b, by simp [hzero], by simpa [hzero] using h⟩
  by_cases hneg : px ≤ 0
  · exact ⟨b, by simp [hzero, hneg], by simpa [hzero, hneg] using h⟩
  by_cases hover : 2 ^ 32 ≤ total (m.queue s px) + qty
  · refine ⟨b, by simp [-Nat.reducePow, hzero, hneg, hover, hfull], ?_⟩
    simpa [-Nat.reducePow, hzero, hneg, hover] using h
  by_cases hdup : (m.home id).isSome
  · refine ⟨b, by simp [-Nat.reducePow, hzero, hneg, hover, hfull, hrep.contains_eq, hdup], ?_⟩
    simpa [-Nat.reducePow, hzero, hneg, hover, hdup] using h
  · simp only [hzero, hneg, hover, hdup, if_false, Bool.false_eq_true] at hwf hroom ⊢
    have hgone : m.home id = none := by simpa using hdup
    rw [Market.live_push hgone, hrep.live_eq] at hroom
    have hsigned : Slot.signedPx s px = .ok (signed s px) := signedPx_ok ⟨by omega, hpx⟩
    obtain ⟨i, slab₁, sl', slab', halloc, hlink, hrep'⟩ :=
      (hrep.noteAdd s (b.grid.locate px) px).push hgone hwf (by simpa using hroom)
    rw [slab_withParts] at halloc
    rw [side_withParts, if_pos rfl, grid_withParts] at hlink
    rw [ids_withParts, withParts_withParts] at hrep'
    refine ⟨_, ?_, _, _, hrep'⟩
    simp only [hfull, ok_bind, hover, decide_false, Bool.false_eq_true, if_false,
      hrep.contains_eq, hdup, hsigned, halloc, hlink, pure_eq_ok]

/-- With every slot in use, an add that passes the checks stops the program. -/
theorem Refines.add_full {id : OrderId} {s : Side} {px : ℤ} {qty : ℕ} (hpx : 0 < px ∧ px < 2 ^ 31)
    (hqty : 0 < qty) (hfit : total (m.queue s px) + qty < 2 ^ 32) (hid : m.home id = none)
    (hfull : m.live = nilSlot) : b.add id s px qty = .error .assertion := by
  obtain ⟨line, free, hrep⟩ := h
  have hlevel := hrep.levelFull_eq s px qty (by omega)
  have halloc := hrep.freeList.alloc_full (hrep.live_eq.symm.trans hfull) id qty (signed s px)
  have hover : ¬ 2 ^ 32 ≤ total (m.queue s px) + qty := by omega
  simp only [ArrayBook.add, if_neg hqty.ne', if_neg (not_le.mpr hpx.1), hlevel, ok_bind, hover,
    decide_false, Bool.false_eq_true, if_false, hrep.contains_eq, hid, Option.isSome_none,
    signedPx_ok hpx, halloc, error_bind]

theorem Refines.live_le : m.live ≤ nilSlot := by
  obtain ⟨line, free, hrep⟩ := h
  have hlive := hrep.freeList.live_eq
  have hcap := hrep.freeList.capacity_le
  have heq := hrep.live_eq
  omega

/-- An add returns with the market's reply, or finds the slab full. -/
theorem Refines.add_returns {Q : Prop} (id : OrderId) (s : Side) {px : ℤ} {qty : ℕ}
    (hpx : px < 2 ^ 31) (hqty : qty < 2 ^ 32) (hroom : Q → (m.add id s px qty).2.live ≤ nilSlot) :
    Returns Q (fun p => p.1 = (m.add id s px qty).1 ∧ p.2.Refines (m.add id s px qty).2)
      (b.add id s px qty) := by
  by_cases hfits : (m.add id s px qty).2.live ≤ nilSlot
  · obtain ⟨b', hb', h'⟩ := h.add id s hpx hqty hfits
    exact Returns.of_eq hb' ⟨rfl, h'⟩
  · have hle := h.live_le
    refine Or.inr ⟨fun hq => hfits (hroom hq), .assertion, ?_⟩
    unfold Market.add at hfits
    split_ifs at hfits with hzero hneg hover hdup
    · exact absurd hle hfits
    · exact absurd hle hfits
    · exact absurd hle hfits
    · exact absurd hle hfits
    · have hid : m.home id = none := by simpa using hdup
      rw [Market.live_push hid] at hfits
      exact h.add_full ⟨not_le.mp hneg, hpx⟩ (Nat.pos_of_ne_zero hzero) (not_le.mp hover) hid
        (by omega)

theorem Refines.get?_none {id : OrderId} (hfind : m.find id = none) : b.ids.get? id = none := by
  obtain ⟨line, free, h⟩ := h
  exact h.get?_eq_none.mpr (h.market.find_eq_none.mp hfind)

theorem Refines.cancel (id : OrderId) (qty : ℕ) :
    ∃ b', b.cancel id qty = .ok ((m.cancel id qty).1, b') ∧ b'.Refines (m.cancel id qty).2 := by
  unfold ArrayBook.cancel Market.cancel
  cases hfind : m.find id with
  | none => exact ⟨b, by simp [h.get?_none hfind], h⟩
  | some p =>
    obtain ⟨s, px, n⟩ := p
    obtain ⟨line, free, hrep⟩ := h.represents
    obtain ⟨i, t, b', hget, hslot, hqty, hside, habs, htake, hb'⟩ :=
      hrep.take hfind (min_le_right qty n)
    by_cases hzero : qty = 0
    · exact ⟨b, by simp [hget, hzero], by simpa [hzero] using h⟩
    · refine ⟨b', ?_, by simpa [hzero] using hb'⟩
      simp only [hget, if_neg hzero, hslot, ok_bind, hqty, htake, hside, habs, pure_eq_ok]

theorem Refines.delete (id : OrderId) :
    ∃ b', b.delete id = .ok ((m.delete id).1, b') ∧ b'.Refines (m.delete id).2 := by
  unfold ArrayBook.delete Market.delete
  cases hfind : m.find id with
  | none => exact ⟨b, by simp [h.get?_none hfind], h⟩
  | some p =>
    obtain ⟨s, px, n⟩ := p
    obtain ⟨line, free, hrep⟩ := h.represents
    obtain ⟨i, t, b', hget, hslot, hqty, hside, habs, htake, hb'⟩ := hrep.take hfind (le_refl n)
    rw [Nat.sub_self] at htake hb'
    refine ⟨b', ?_, hb'⟩
    simp only [hget, hslot, ok_bind, hqty, htake, hside, habs, pure_eq_ok]

theorem Refines.execute (id : OrderId) (qty : ℕ) :
    ∃ b', b.execute id qty = .ok ((m.execute id qty).1, b') ∧
      b'.Refines (m.execute id qty).2 := by
  unfold ArrayBook.execute Market.execute
  cases hfind : m.find id with
  | none => exact ⟨b, by simp [h.get?_none hfind], h⟩
  | some p =>
    obtain ⟨s, px, n⟩ := p
    obtain ⟨line, free, hrep⟩ := h.represents
    obtain ⟨i, t, -, hget, hslot, hqty, hside, habs, -, -⟩ := hrep.take hfind (Nat.zero_le n)
    by_cases hzero : qty = 0
    · exact ⟨b, by simp [hget, hzero], by simpa [hzero] using h⟩
    by_cases hover : n < qty
    · refine ⟨b, ?_, by simpa [hzero, hover] using h⟩
      simp only [hget, if_neg hzero, hslot, ok_bind, hqty, if_pos hover, pure_eq_ok]
    · obtain ⟨i', t', b', hget', hslot', -, -, -, htake, hb'⟩ := hrep.take hfind (not_lt.mp hover)
      obtain rfl : i = i' := Option.some.inj (hget.symm.trans hget')
      obtain rfl : t = t' := Except.ok.inj (hslot.symm.trans hslot')
      refine ⟨b', ?_, by simpa [hzero, hover] using hb'⟩
      simp only [hget, if_neg hzero, hslot, ok_bind, hqty, if_neg hover, htake, hside, habs,
        pure_eq_ok]

theorem Refines.replace (old new : OrderId) {px : ℤ} {qty : ℕ} (hpx : px < 2 ^ 31) :
    ∃ b', b.replace old new px qty = .ok ((m.replace old new px qty).1, b') ∧
      b'.Refines (m.replace old new px qty).2 := by
  have hwf := h.market.replace old new qty hpx
  unfold ArrayBook.replace Market.replace at *
  cases hfind : m.find old with
  | none => exact ⟨b, by simp [h.get?_none hfind], h⟩
  | some p =>
    obtain ⟨s, oldPx, n⟩ := p
    obtain ⟨line, free, hrep⟩ := h.represents
    obtain ⟨i, t, -, hget, hslot, hqty, hside, habs, -, -⟩ := hrep.take hfind (Nat.zero_le n)
    have hthere := hrep.existing_eq hfind px
    simp only [hfind] at hwf
    simp only [hget]
    by_cases hdup : (m.home new).isSome
    · exact ⟨b, by simp [hrep.contains_eq, hdup], by simpa [hdup] using h⟩
    by_cases hzero : qty = 0
    · exact ⟨b, by simp [hrep.contains_eq, hdup, hzero], by simpa [hdup, hzero] using h⟩
    by_cases hneg : px ≤ 0
    · refine ⟨b, by simp [hrep.contains_eq, hdup, hzero, hneg], ?_⟩
      simpa [hdup, hzero, hneg] using h
    simp only [hrep.contains_eq, hdup, hzero, hneg, if_false, Bool.false_eq_true, hslot, ok_bind,
      habs, hside, hqty, hthere] at hwf ⊢
    by_cases hover : 2 ^ 32 ≤ total (m.queue s px) - (if px = oldPx then n else 0) + qty
    · rw [if_pos hover, if_pos hover]
      exact ⟨b, rfl, h⟩
    rw [if_neg hover] at hwf ⊢
    rw [if_neg hover]
    have hsigned : Slot.signedPx s px = .ok (signed s px) := signedPx_ok ⟨by omega, hpx⟩
    -- first the old order leaves, then the new one takes its slot
    obtain ⟨i', sl₁, slab₁, line₁, free₁, hget', -, -, -, -, hunlink, hrep₁⟩ :=
      (hrep.noteAdd s (b.grid.locate px) px).unlink hfind
    rw [ids_withParts] at hget'
    obtain rfl : i = i' := Option.some.inj (hget.symm.trans hget')
    rw [slab_withParts, side_withParts, if_pos rfl, grid_withParts] at hunlink
    rw [ids_withParts, withParts_withParts] at hrep₁
    have hgone : (m.take old s oldPx 0).home new = none := by
      rw [Market.home_take_zero]
      split
      · rfl
      · simpa using hdup
    have hroom : (b.withParts s sl₁ slab₁ (b.ids.erase old)).slab.live < nilSlot := by
      have hlen := hrep₁.ids_length
      have herase := SortedMap.length_erase_of_mem hget
      have hlive := hrep.freeList.live_eq
      have hcap := hrep.freeList.capacity_le
      have hids := hrep.ids_length
      rw [ids_withParts] at hlen
      omega
    obtain ⟨j, slab₂, sl₃, slab₃, halloc, hlink, hrep₃⟩ := hrep₁.push hgone hwf hroom
    rw [slab_withParts] at halloc
    rw [side_withParts, if_pos rfl, grid_withParts] at hlink
    rw [ids_withParts, withParts_withParts] at hrep₃
    have hfresh : insertFresh (b.ids.erase old) new j = .ok ((b.ids.erase old).insert new j) := by
      have hnone := hrep₁.get?_eq_none.mpr hgone
      rw [ids_withParts] at hnone
      simp only [insertFresh, ensure_ok hnone, ok_bind, pure_eq_ok]
    refine ⟨_, ?_, _, _, hrep₃⟩
    simp only [hunlink, ok_bind, hsigned, halloc, hfresh, hlink, pure_eq_ok]

/-- Every call returns the market's reply, and the next book represents the next market. -/
theorem Refines.apply (op : Op) (hroom : (m.apply op).2.live ≤ nilSlot) :
    ∃ b', b.apply op = .ok ((m.apply op).1, b') ∧ b'.Refines (m.apply op).2 := by
  cases op with
  | add id s px qty => exact h.add id s (int32_bounds px).2 (uint32_bound qty) hroom
  | cancel id qty => exact h.cancel id _
  | execute id qty => exact h.execute id _
  | delete id => exact h.delete id
  | replace old new px qty => exact h.replace old new (int32_bounds px).2

theorem Refines.apply_returns {Q : Prop} (op : Op) (hroom : Q → (m.apply op).2.live ≤ nilSlot) :
    Returns Q (fun p => p.1 = (m.apply op).1 ∧ p.2.Refines (m.apply op).2) (b.apply op) := by
  have hreturn : (∃ b', b.apply op = .ok ((m.apply op).1, b') ∧ b'.Refines (m.apply op).2) →
      Returns Q (fun p => p.1 = (m.apply op).1 ∧ p.2.Refines (m.apply op).2) (b.apply op) :=
    fun ⟨b', hb', h'⟩ => Returns.of_eq hb' ⟨rfl, h'⟩
  cases op with
  | add id s px qty => exact h.add_returns id s (int32_bounds px).2 (uint32_bound qty) hroom
  | cancel id qty => exact hreturn (h.cancel id _)
  | execute id qty => exact hreturn (h.execute id _)
  | delete id => exact hreturn (h.delete id)
  | replace old new px qty => exact hreturn (h.replace old new (int32_bounds px).2)

end ArrayBook

end Lobcore.ArrayBooks
