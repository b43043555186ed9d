import Lobcore.ArrayBooks
import Lobcore.LevelGrids
import Lobcore.Markets

/-!
When an array book represents a market. For each level there is a line of slots that the
links run through; the slots of a line hold the orders of the market's queue, and the
level's record holds the ends, the total and the length of the line. Every slot is in one
line or on the free list, and the id map finds the slot of every order.
-/
namespace Lobcore.ArrayBooks

open Checked LinkedCells OrderTypes SortedMaps OrderSlab PriceLevels Markets

/-! What linking and unlinking do to a side and to the slots. -/

section Links

variable {g : Grid} {sl : SideLevels} {slab : Slab} {free : List ℕ} {px : ℤ} {i : ℕ} {lvl : Level}

/-- `link_tail` writes one level and two links. -/
theorem linkTail_spec (hg : g.WF) (h : sl.WF g) (hpx : 0 ≤ px)
    (hlvl : sl.levelAt (g.locate px) = lvl) (hi : i < slab.slots.length)
    (hfresh : (slab.cell i).prev = nilSlot)
    (htail : lvl.tail ≠ nilSlot → lvl.tail < slab.slots.length ∧ lvl.tail ≠ i)
    (hqty : lvl.qty + (slab.cell i).qty < 2 ^ 32) (hcount : lvl.count + 1 < 2 ^ 32) :
    ∃ sl' slab', linkTail sl slab (g.locate px) i = .ok (sl', slab') ∧
      sl'.WF g ∧ sl'.side = sl.side ∧
      (∀ k, sl'.levelAt k = if k = g.locate px then
        ⟨if lvl.tail = nilSlot then i else lvl.head, i, lvl.qty + (slab.cell i).qty,
          lvl.count + 1⟩ else sl.levelAt k) ∧
      slab'.slots.length = slab.slots.length ∧ slab'.freeHead = slab.freeHead ∧
      slab'.live = slab.live ∧
      ∀ j, slab'.cell j = (slab.cell j).relink
        (if j = i then lvl.tail else (slab.cell j).prev)
        (if j = lvl.tail ∧ lvl.tail ≠ nilSlot then i else (slab.cell j).next) := by
  obtain ⟨sl₁, hget, h₁⟩ := h.getOrInsert_ok hg px
  obtain ⟨sl₂, sl₃, hput, hafter, hwf, hside, hat⟩ := h.write hg hpx
    ⟨if lvl.tail = nilSlot then i else lvl.head, i, lvl.qty + (slab.cell i).qty,
      lvl.count + 1⟩ (fun h0 => absurd h0 (Nat.succ_ne_zero _)) h₁
  rw [hlvl] at hget hafter
  by_cases ht : lvl.tail = nilSlot
  · refine ⟨sl₃, slab, ?_, hwf, hside, hat, rfl, rfl, rfl, fun j => ?_⟩
    · rw [if_pos ht] at hput
      simp only [linkTail, Slab.get_ok hi, ok_bind, hget, ht, if_true, addU32_ok hqty,
        addU32_ok hcount, hput, ne_eq, not_true_eq_false, if_false, pure_eq_ok, hafter]
    · by_cases hj : j = i
      · subst hj
        simp [Slot.relink, ht, ← hfresh]
      · simp [Slot.relink, ht, hj]
  · obtain ⟨htl, hti⟩ := htail ht
    obtain ⟨slab₁, hmod₁, hcell₁, hlen₁, hhead₁, hlive₁⟩ :=
      Slab.modify_spec htl fun t => { t with next := i }
    obtain ⟨slab₂, hmod₂, hcell₂, hlen₂, hhead₂, hlive₂⟩ :=
      Slab.modify_spec (s := slab₁) (i := i) (hlen₁ ▸ hi) fun t => { t with prev := lvl.tail }
    refine ⟨sl₃, slab₂, ?_, hwf, hside, hat, hlen₂.trans hlen₁, hhead₂.trans hhead₁,
      hlive₂.trans hlive₁, fun j => ?_⟩
    · rw [if_neg ht] at hput
      simp only [linkTail, Slab.get_ok hi, ok_bind, hget, ht, if_false, addU32_ok hqty,
        addU32_ok hcount, hput, ne_eq, not_false_eq_true, if_true, hmod₁, hmod₂, hafter, pure_eq_ok]
    · simp only [hcell₂, hcell₁, Ne.symm hti, if_false, ht, ne_eq, not_false_eq_true, and_true]
      by_cases hj : j = i
      · subst hj
        simp [Slot.relink, Ne.symm hti]
      · by_cases hjt : j = lvl.tail
        · simp [Slot.relink, hjt, hti]
        · simp [Slot.relink, hj, hjt]

theorem setNext_spec (next : ℕ) (hi : i ≠ nilSlot → i < slab.slots.length) :
    ∃ s', setNext slab i next = .ok s' ∧
      (∀ j, s'.cell j = (slab.cell j).relink (slab.cell j).prev
        (if j = i ∧ i ≠ nilSlot then next else (slab.cell j).next)) ∧
      s'.slots.length = slab.slots.length ∧ s'.freeHead = slab.freeHead ∧ s'.live = slab.live := by
  by_cases hn : i = nilSlot
  · exact ⟨slab, by simp [setNext, hn], fun j => by simp [Slot.relink, hn], rfl, rfl, rfl⟩
  · obtain ⟨s', hs', hcell, hrest⟩ := Slab.modify_spec (hi hn) fun t => { t with next }
    refine ⟨s', by simp [setNext, hn, hs'], fun j => ?_, hrest⟩
    rw [hcell]
    by_cases hj : j = i <;> simp [Slot.relink, hn, hj]

theorem setPrev_spec (prev : ℕ) (hi : i ≠ nilSlot → i < slab.slots.length) :
    ∃ s', setPrev slab i prev = .ok s' ∧
      (∀ j, s'.cell j = (slab.cell j).relink
        (if j = i ∧ i ≠ nilSlot then prev else (slab.cell j).prev) (slab.cell j).next) ∧
      s'.slots.length = slab.slots.length ∧ s'.freeHead = slab.freeHead ∧ s'.live = slab.live := by
  by_cases hn : i = nilSlot
  · exact ⟨slab, by simp [setPrev, hn], fun j => by simp [Slot.relink, hn], rfl, rfl, rfl⟩
  · obtain ⟨s', hs', hcell, hrest⟩ := Slab.modify_spec (hi hn) fun t => { t with prev }
    refine ⟨s', by simp [setPrev, hn, hs'], fun j => ?_, hrest⟩
    rw [hcell]
    by_cases hj : j = i <;> simp [Slot.relink, hn, hj]

/-- `unlink` joins the two neighbours, writes one level and frees the slot. -/
theorem unlink_spec (hg : g.WF) (h : sl.WF g) (hpx : 0 ≤ px)
    (hlvl : sl.levelAt (g.locate px) = lvl) (hfree : slab.FreeList free)
    (hi : i < slab.slots.length) (hfresh : i ∉ free) (hlive : 0 < slab.live)
    (hprev : (slab.cell i).prev ≠ nilSlot →
      (slab.cell i).prev < slab.slots.length ∧ (slab.cell i).prev ∉ free)
    (hnext : (slab.cell i).next ≠ nilSlot →
      (slab.cell i).next < slab.slots.length ∧ (slab.cell i).next ∉ free)
    (hqty : (slab.cell i).qty ≤ lvl.qty) (hcount : 0 < lvl.count)
    (hlast : lvl.count = 1 →
      (slab.cell i).prev = nilSlot ∧ (slab.cell i).next = nilSlot ∧ lvl.qty = (slab.cell i).qty) :
    ∃ sl' slab', unlink sl slab (g.locate px) i = .ok (sl', slab') ∧
      sl'.WF g ∧ sl'.side = sl.side ∧
      (∀ k, sl'.levelAt k = if k = g.locate px then
        ⟨if (slab.cell i).prev = nilSlot then (slab.cell i).next else lvl.head,
          if (slab.cell i).next = nilSlot then (slab.cell i).prev else lvl.tail,
          lvl.qty - (slab.cell i).qty, lvl.count - 1⟩ else sl.levelAt k) ∧
      slab'.slots.length = slab.slots.length ∧ slab'.FreeList (i :: free) ∧
      slab'.live = slab.live - 1 ∧
      ∀ j, j ≠ i → slab'.cell j = (slab.cell j).relink
        (if j = (slab.cell i).next ∧ (slab.cell i).next ≠ nilSlot then (slab.cell i).prev
          else (slab.cell j).prev)
        (if j = (slab.cell i).prev ∧ (slab.cell i).prev ≠ nilSlot then (slab.cell i).next
          else (slab.cell j).next) := by
  have hmut := h.getMut_ok hg px (by rw [hlvl]; exact hcount)
  obtain ⟨sl₂, sl₃, hput, hafter, hwf, hside, hat⟩ := h.write hg hpx
    ⟨if (slab.cell i).prev = nilSlot then (slab.cell i).next else lvl.head,
      if (slab.cell i).next = nilSlot then (slab.cell i).prev else lvl.tail,
      lvl.qty - (slab.cell i).qty, lvl.count - 1⟩ (fun h0 => by
        obtain ⟨hp, hn, hq⟩ := hlast (by simp only at h0; omega)
        simp only at h0
        simp [Level.empty, hp, hn, hq, h0]) (Or.inl (Eq.refl sl))
  rw [hlvl] at hmut hafter
  -- the two neighbours, one after the other; either may be missing
  obtain ⟨slab₁, hset₁, hcell₁, hlen₁, hhead₁, hlive₁⟩ :=
    setNext_spec (slab.cell i).next fun hp => (hprev hp).1
  obtain ⟨slab₂, hset₂, hcell₂, hlen₂, hhead₂, hlive₂⟩ :=
    setPrev_spec (slab.cell i).prev fun hn => lt_of_lt_of_eq (hnext hn).1 hlen₁.symm
  have hcell₁₂ : ∀ j, slab₂.cell j = (slab.cell j).relink
      (if j = (slab.cell i).next ∧ (slab.cell i).next ≠ nilSlot then (slab.cell i).prev
        else (slab.cell j).prev)
      (if j = (slab.cell i).prev ∧ (slab.cell i).prev ≠ nilSlot then (slab.cell i).next
        else (slab.cell j).next) := fun j => by
    rw [hcell₂, hcell₁]
    rfl
  have hfree₂ : slab₂.FreeList free := by
    refine hfree.frame (fun j hj => ?_) (hlen₂.trans hlen₁) (hhead₂.trans hhead₁)
      (hlive₂.trans hlive₁)
    rw [hcell₁₂]
    simp only [Slot.relink]
    rw [if_neg]
    rintro ⟨rfl, hp⟩
    exact (hprev hp).2 hj
  obtain ⟨slab₃, hfr, hfree₃, hlen₃, hlive₃, hcell₃⟩ := hfree₂.free (i := i)
    (by rw [hlen₂, hlen₁]; exact hi) hfresh (by rw [hlive₂, hlive₁]; exact hlive)
  refine ⟨sl₃, slab₃, ?_, hwf, hside, hat, hlen₃.trans (hlen₂.trans hlen₁), hfree₃, ?_,
    fun j hj => ?_⟩
  · simp only [unlink, Slab.get_ok hi, ok_bind, hmut, subU_ok hqty, subU_ok hcount, hput, hset₁,
      hset₂, hafter, hfr, pure_eq_ok]
  · rw [hlive₃, hlive₂, hlive₁]
  · rw [hcell₃, if_neg hj, hcell₁₂]

end Links

/-- For each side and price the slots of its level, first in line first. -/
abbrev Lines := Side → ℤ → List ℕ

def Lines.set (line : Lines) (s : Side) (px : ℤ) (xs : List ℕ) : Lines :=
  fun s' px' => if s' = s ∧ px' = px then xs else line s' px'

theorem Lines.set_self (line : Lines) (s : Side) (px : ℤ) (xs : List ℕ) :
    line.set s px xs s px = xs := by simp [set]

theorem Lines.set_of_ne (line : Lines) {s s' : Side} {px px' : ℤ} (xs : List ℕ)
    (h : ¬ (s' = s ∧ px' = px)) : line.set s px xs s' px' = line s' px' := if_neg h

/-- The record of a level whose slots are `xs` and whose orders are `q`. -/
def lineLevel (xs : List ℕ) (q : Queue) : Level :=
  ⟨xs.headD nilSlot, xs.getLastD nilSlot, total q, xs.length⟩

/-- The price as a slot keeps it. -/
def signed : Side → ℤ → ℤ
  | .bid, px => px
  | .ask, px => -px

structure Represents (b : ArrayBook) (m : Market) (line : Lines) (free : List ℕ) : Prop where
  market : m.WF
  grid : b.grid.WF
  side_eq : ∀ s, (b.side s).side = s
  side_wf : ∀ s, (b.side s).WF b.grid
  level_eq : ∀ s px, (b.side s).levelAt (b.grid.locate px) = lineLevel (line s px) (m.queue s px)
  queue_eq : ∀ s px, m.queue s px = (line s px).map b.slab.order
  px_eq : ∀ s px, ∀ i ∈ line s px, (b.slab.cell i).px = signed s px
  linked : ∀ s px, Linked (fun i => (b.slab.cell i).prev) (fun i => (b.slab.cell i).next)
    nilSlot (line s px) nilSlot
  ids_iff : ∀ id i, b.ids.get? id = some i ↔ ∃ s px, i ∈ line s px ∧ (b.slab.cell i).id = id
  ids_length : b.ids.length = b.slab.live
  freeList : b.slab.FreeList free
  used_iff : ∀ i, (∃ s px, i ∈ line s px) ↔ i < b.slab.slots.length ∧ i ∉ free

@[simp] theorem side_withParts (b : ArrayBook) (s s' : Side) (sl : SideLevels) (slab : Slab)
    (ids : IdMap) : (b.withParts s sl slab ids).side s' = if s' = s then sl else b.side s' := by
  cases s <;> cases s' <;> rfl

@[simp] theorem grid_withParts (b : ArrayBook) (s : Side) (sl : SideLevels) (slab : Slab)
    (ids : IdMap) : (b.withParts s sl slab ids).grid = b.grid := by
  cases s <;> rfl

@[simp] theorem slab_withParts (b : ArrayBook) (s : Side) (sl : SideLevels) (slab : Slab)
    (ids : IdMap) : (b.withParts s sl slab ids).slab = slab := rfl

@[simp] theorem ids_withParts (b : ArrayBook) (s : Side) (sl : SideLevels) (slab : Slab)
    (ids : IdMap) : (b.withParts s sl slab ids).ids = ids := rfl

theorem signed_inj {s s' : Side} {px px' : ℤ} (hpx : Market.lowest s ≤ px)
    (hpx' : Market.lowest s' ≤ px') (h : signed s px = signed s' px') : s = s' ∧ px = px' := by
  cases s <;> cases s' <;> simp only [signed, Market.lowest] at h hpx hpx' <;> simp <;> omega

theorem signedPx_ok {s : Side} {px : ℤ} (hpx : 0 < px ∧ px < 2 ^ 31) :
    Slot.signedPx s px = .ok (signed s px) := by
  cases s with
  | bid => rfl
  | ask => exact fitI32_ok (by omega)

theorem slot_side {t : Slot} {s : Side} {px : ℤ} (hpx : Market.lowest s ≤ px)
    (h : t.px = signed s px) : t.side = s := by
  unfold Slot.side
  cases s <;> simp only [h, signed, Market.lowest] at hpx ⊢ <;> split <;> first | rfl | omega

theorem slot_absPx {t : Slot} {s : Side} {px : ℤ} (hpx : 0 ≤ px ∧ px < 2 ^ 31)
    (h : t.px = signed s px) : t.absPx = .ok px := by
  have habs : |t.px| = px := by
    rw [h]
    cases s <;> simp only [signed, abs_neg, abs_of_nonneg hpx.1]
  rw [Slot.absPx, habs]
  exact fitI32_ok (by omega)

namespace Represents

variable {b : ArrayBook} {m : Market} {line : Lines} {free : List ℕ} (h : Represents b m line free)

include h

theorem px_range {s : Side} {px : ℤ} {i : ℕ} (hi : i ∈ line s px) :
    Market.lowest s ≤ px ∧ px < 2 ^ 31 :=
  h.market.px_range s px (by
    rw [h.queue_eq]
    exact fun hnil => List.ne_nil_of_mem hi (List.map_eq_nil_iff.mp hnil))

theorem px_nonneg {s : Side} {px : ℤ} {i : ℕ} (hi : i ∈ line s px) : 0 ≤ px ∧ px < 2 ^ 31 :=
  ⟨(Market.lowest_nonneg s).trans (h.px_range hi).1, (h.px_range hi).2⟩

/-- A slot stands in one line only. -/
theorem line_unique {s s' : Side} {px px' : ℤ} {i : ℕ} (hi : i ∈ line s px)
    (hi' : i ∈ line s' px') : s = s' ∧ px = px' :=
  signed_inj (h.px_range hi).1 (h.px_range hi').1
    ((h.px_eq s px i hi).symm.trans (h.px_eq s' px' i hi'))

theorem qty_pos_of_line {s : Side} {px : ℤ} {i : ℕ} (hi : i ∈ line s px) :
    0 < (b.slab.cell i).qty := by
  have hmem : b.slab.order i ∈ m.queue s px := by
    rw [h.queue_eq]
    exact List.mem_map_of_mem hi
  exact h.market.qty_pos s px _ hmem

theorem line_nodup (s : Side) (px : ℤ) : (line s px).Nodup := by
  have hn := h.market.nodup s px
  rw [h.queue_eq] at hn
  exact (hn.of_map _).of_map _

theorem line_lt {s : Side} {px : ℤ} {i : ℕ} (hi : i ∈ line s px) : i < b.slab.slots.length :=
  ((h.used_iff i).mp ⟨s, px, hi⟩).1

theorem line_not_free {s : Side} {px : ℤ} {i : ℕ} (hi : i ∈ line s px) : i ∉ free :=
  ((h.used_iff i).mp ⟨s, px, hi⟩).2

theorem ne_nilSlot {s : Side} {px : ℤ} {i : ℕ} (hi : i ∈ line s px) : i ≠ nilSlot :=
  (lt_of_lt_of_le (h.line_lt hi) h.freeList.capacity_le).ne

/-- A live order has one slot, which splits its line as the order splits its queue. -/
theorem located {id : OrderId} {s : Side} {px : ℤ} {n : ℕ} (hfind : m.find id = some (s, px, n)) :
    ∃ i xs ys, line s px = xs ++ i :: ys ∧ b.ids.get? id = some i ∧
      b.slab.cell i = ⟨id, n, signed s px, xs.getLastD nilSlot, ys.headD nilSlot⟩ ∧
      id ∉ ids (xs.map b.slab.order) := by
  obtain ⟨ps, qs, hq, hps, -⟩ := h.market.split hfind
  rw [h.queue_eq] at hq
  obtain ⟨xs, rest, hline, rfl, hrest⟩ := List.map_eq_append_iff.mp hq
  obtain ⟨i, ys, rfl, horder, -⟩ := List.map_eq_cons_iff.mp hrest
  have hi : i ∈ line s px := by simp [hline]
  have hlinked := h.linked s px
  rw [hline] at hlinked
  obtain ⟨hprev, hnext⟩ := hlinked.neighbours
  have hid : (b.slab.cell i).id = id := congrArg Prod.fst horder
  have hqty : (b.slab.cell i).qty = n := congrArg Prod.snd horder
  refine ⟨i, xs, ys, hline, (h.ids_iff id i).mpr ⟨s, px, hi, hid⟩, ?_, hps⟩
  rw [← hid, ← hqty, ← h.px_eq s px i hi, ← hprev, ← hnext]

/-- The queue around the slot of a live order. -/
theorem queue_located {id : OrderId} {s : Side} {px : ℤ} {n i prev next : ℕ} {xs ys : List ℕ}
    (hline : line s px = xs ++ i :: ys)
    (hcell : b.slab.cell i = ⟨id, n, signed s px, prev, next⟩) :
    m.queue s px = xs.map b.slab.order ++ (id, n) :: ys.map b.slab.order := by
  have horder : b.slab.order i = (id, n) := by rw [Slab.order, hcell]
  rw [h.queue_eq, hline, List.map_append, List.map_cons, horder]

theorem get?_eq_none {id : OrderId} : b.ids.get? id = none ↔ m.home id = none := by
  have hlive : (∃ i, b.ids.get? id = some i) ↔ ∃ p, m.home id = some p := by
    constructor
    · rintro ⟨i, hi⟩
      obtain ⟨s, px, hmem, hid⟩ := (h.ids_iff id i).mp hi
      refine ⟨(s, px), (h.market.home_iff id s px).mpr ?_⟩
      rw [h.queue_eq, ids, List.map_map]
      exact List.mem_map.mpr ⟨i, hmem, hid⟩
    · rintro ⟨⟨s, px⟩, hp⟩
      have hmem := (h.market.home_iff id s px).mp hp
      rw [h.queue_eq, ids, List.map_map] at hmem
      obtain ⟨i, hi, hid⟩ := List.mem_map.mp hmem
      exact ⟨i, (h.ids_iff id i).mpr ⟨s, px, hi, hid⟩⟩
  simp only [← Option.isSome_iff_exists] at hlive
  rw [← Option.not_isSome_iff_eq_none, ← Option.not_isSome_iff_eq_none, hlive]

theorem contains_eq (id : OrderId) : b.ids.contains id = (m.home id).isSome := by
  have hnone : b.ids.get? id = none ↔ m.home id = none := h.get?_eq_none
  unfold SortedMap.contains
  cases hb : b.ids.get? id <;> cases hm : m.home id <;> simp_all

end Represents

end Lobcore.ArrayBooks
