import Lobcore.EventReplays
import Lobcore.MarketSnapshots

/-!
What the consistency check of the array book says of a book that nobody has built: the levels,
the links, the bitmaps, the maps and the free list may hold anything. The walks of the check
find a line of slots for each level and a free list; the counts leave no slot out. The check
does not compare the free list with the levels and does not look at bitmap bits past the window.
Where these two are in order, an accepted book represents a market, and every call keeps it so.
-/
namespace Lobcore.AcceptedBooks

open Checked LinkedCells OrderTypes SortedMaps OrderSlab Bitmaps PriceLevels Markets WordBits
open ReferenceBook ArrayBooks BookRuns

/-- A stored slot index: the terminator, or in range. -/
def Index (b : ArrayBook) (i : ℕ) : Prop := i = nilSlot ∨ i < nilSlot ∧ i < b.slab.slots.length

/-- The level's fields are of their types and its ends are slot indices. -/
structure LevelShaped (b : ArrayBook) (l : Level) : Prop where
  head : Index b l.head
  tail : Index b l.tail
  qty : l.qty < 2 ^ 32
  count : l.count < 2 ^ 32

structure SlotShaped (b : ArrayBook) (t : Slot) : Prop where
  prev : Index b t.prev
  next : Index b t.next
  qty : t.qty < 2 ^ 32
  px : -2 ^ 31 < t.px ∧ t.px < 2 ^ 31

/-- A book of any contents: its vectors have the lengths of its valid window, its stored slot
indices are the terminator or in range, and no price is `i32::MIN`. -/
structure Shaped (b : ArrayBook) : Prop where
  grid : b.grid.WF
  side_eq : ∀ s, (b.side s).side = s
  levels_length : ∀ s, (b.side s).levels.length = b.grid.nLevels
  words_length : ∀ s, (b.side s).bitmap.words.length = (b.grid.nLevels + 63) / 64
  levels : ∀ s, ∀ l ∈ (b.side s).levels, LevelShaped b l
  overflow : ∀ s px l, (b.side s).overflow.get? px = some l →
    LevelShaped b l ∧ -2 ^ 31 ≤ px ∧ px < 2 ^ 31
  slots : ∀ t ∈ b.slab.slots, SlotShaped b t
  freeHead : Index b b.slab.freeHead
  ids : ∀ id i, b.ids.get? id = some i → Index b i

/-- The slot stands in a level of the side and price, and the id map finds it. -/
structure Sits (b : ArrayBook) (s : Side) (px : ℤ) (j : ℕ) : Prop where
  lt : j < b.slab.slots.length
  ne : j ≠ nilSlot
  side : (b.slab.cell j).side = s
  abs_px : |(b.slab.cell j).px| = px
  qty : (b.slab.cell j).qty ≠ 0
  mapped : b.ids.get? (b.slab.cell j).id = some j

/-- The links of the slots. -/
abbrev Chained (b : ArrayBook) : ℕ → List ℕ → ℕ → Prop :=
  Linked (fun i => (b.slab.cell i).prev) (fun i => (b.slab.cell i).next)

/-- A test that finds nothing lets the check go on. -/
theorem passed {α : Type} {p : Prop} [Decidable p] {v : Violation}
    {x : Exec (Except Violation α)} {a : α}
    (h : (if p then .ok (.error v) else x) = .ok (.ok a)) : ¬ p ∧ x = .ok (.ok a) :=
  of_ite_ne h nofun

theorem absPx_ok {t : Slot} {px : ℤ} (h : t.absPx = .ok px) : |t.px| = px := by
  unfold Slot.absPx fitI32 at h
  split at h
  · exact Except.ok.inj h
  · cases h

/-- The walk of `check_level`, where it ends well. -/
theorem checkLoop_ok {b : ArrayBook} {s : Side} {px : ℤ} {fuel n qty i prev n' qty' last : ℕ}
    (h : b.checkLoop s px fuel n qty i prev = .ok (.ok (n', qty', last))) :
    ∃ xs, xs.headD nilSlot = i ∧ n' = n + xs.length ∧ qty' = qty + total (xs.map b.slab.order) ∧
      last = xs.getLastD prev ∧ Chained b prev xs nilSlot ∧ ∀ j ∈ xs, Sits b s px j := by
  induction fuel generalizing n qty i prev with
  | zero => cases h
  | succ fuel ih =>
    simp only [ArrayBook.checkLoop, pure_eq_ok] at h
    by_cases hnil : i = nilSlot
    · rw [if_pos hnil] at h
      cases h
      exact ⟨[], hnil.symm, rfl, rfl, rfl, trivial, fun _ hj => absurd hj List.not_mem_nil⟩
    rw [if_neg hnil] at h
    obtain ⟨-, h⟩ := passed h
    obtain ⟨t, hget, h⟩ := bind_eq_ok.mp h
    have hlt : i < b.slab.slots.length := (List.getElem?_eq_some_iff.mp (index_eq_ok.mp hget)).1
    obtain rfl : b.slab.cell i = t := Except.ok.inj ((Slab.get_ok hlt).symm.trans hget)
    obtain ⟨hprev, h⟩ := passed h
    obtain ⟨at', habs, h⟩ := bind_eq_ok.mp h
    obtain ⟨hplace, h⟩ := passed h
    obtain ⟨hside, hpx⟩ := not_or.mp hplace
    obtain rfl := not_not.mp hpx
    obtain ⟨hqty, h⟩ := passed h
    obtain ⟨hmapped, h⟩ := passed h
    obtain ⟨sum, hsum, h⟩ := bind_eq_ok.mp h
    obtain ⟨xs, hhead, hn, htotal, hlast, hlinked, hsits⟩ := ih h
    refine ⟨i :: xs, rfl, ?_, ?_, ?_, ⟨not_not.mp hprev, hhead.symm, hlinked⟩, fun j hj => ?_⟩
    · rw [hn, List.length_cons]
      omega
    · rw [htotal, addU64_eq hsum, List.map_cons, total_cons, Slab.order, Nat.add_assoc]
    · rw [hlast, List.getLastD_cons]
    · rcases List.mem_cons.mp hj with rfl | hj
      · exact ⟨hlt, hnil, not_not.mp hside, absPx_ok habs, hqty, not_not.mp hmapped⟩
      · exact hsits j hj

/-! The line of a level. -/

/-- The slots met from the head of a level on. -/
def lineOf (b : ArrayBook) (l : Level) : List ℕ :=
  match levelSlots b l with
  | .ok xs => xs
  | .error _ => []

/-- The walk along a level ends, its slots sit in the level, and the level counts them. -/
structure Lined (b : ArrayBook) (s : Side) (px : ℤ) (l : Level) : Prop where
  slots : levelSlots b l = .ok (lineOf b l)
  level : l = lineLevel (lineOf b l) ((lineOf b l).map b.slab.order)
  linked : Chained b nilSlot (lineOf b l) nilSlot
  sits : ∀ j ∈ lineOf b l, Sits b s px j

/-- Different numbers below a bound. -/
theorem length_le_of_lt {xs : List ℕ} {n : ℕ} (hnodup : xs.Nodup) (hlt : ∀ j ∈ xs, j < n) :
    xs.length ≤ n := by
  have hsub := List.Nodup.length_le_of_subset hnodup fun j hj => List.mem_range.mpr (hlt j hj)
  rwa [List.length_range] at hsub

section Lines

variable {b : ArrayBook} (hb : Shaped b)

include hb

theorem cell_shaped {j : ℕ} (hj : j < b.slab.slots.length) : SlotShaped b (b.slab.cell j) := by
  have hget := index_eq_ok.mp (Slab.get_ok hj)
  exact hb.slots _ (List.mem_of_getElem? hget)

/-- The slots along the links are below the terminator. -/
theorem lt_nilSlot {xs : List ℕ} (hhead : Index b (xs.headD nilSlot))
    (hlt : ∀ j ∈ xs, j < b.slab.slots.length) (hne : nilSlot ∉ xs)
    (hthread : Threaded (fun i => (b.slab.cell i).next) xs nilSlot) : ∀ j ∈ xs, j < nilSlot := by
  induction xs with
  | nil => exact fun _ hj => absurd hj List.not_mem_nil
  | cons i xs ih =>
    obtain ⟨hnext, hrest⟩ := hthread
    have hi := hlt i (List.mem_cons_self ..)
    have htail : Index b (xs.headD nilSlot) := hnext ▸ (cell_shaped hb hi).next
    intro j hj
    rcases List.mem_cons.mp hj with rfl | hj
    · rcases hhead with hnil | ⟨hlow, -⟩
      · exact absurd (hnil ▸ List.mem_cons_self ..) hne
      · exact hlow
    · exact ih htail (fun k hk => hlt k (List.mem_cons_of_mem _ hk))
        (fun hmem => hne (List.mem_cons_of_mem _ hmem)) hrest j hj

theorem checkLevel_ok {s : Side} {px : ℤ} {l : Level} (hl : LevelShaped b l) {n : ℕ}
    (h : b.checkLevel s px l = .ok (.ok n)) : n = (lineOf b l).length ∧ Lined b s px l := by
  simp only [ArrayBook.checkLevel, pure_eq_ok] at h
  obtain ⟨found, hloop, h⟩ := bind_eq_ok.mp h
  cases found with
  | error v => cases h
  | ok found =>
    obtain ⟨k, sum, last⟩ := found
    simp only at h
    obtain ⟨hlast, h⟩ := passed h
    obtain ⟨hcount, h⟩ := passed h
    obtain ⟨hqty, h⟩ := passed h
    obtain rfl : k = n := Except.ok.inj (Except.ok.inj h)
    obtain ⟨xs, hhead, hk, hsum, hend, hlinked, hsits⟩ := checkLoop_ok hloop
    have hnil : nilSlot ∉ xs := fun hmem => (hsits _ hmem).ne rfl
    have hlow := lt_nilSlot hb (hhead ▸ hl.head) (fun j hj => (hsits j hj).lt) hnil hlinked.threaded
    have hnodup := hlinked.threaded.nodup hnil
    have hlen := length_le_of_lt hnodup hlow
    have hcap := length_le_of_lt hnodup fun j hj => (hsits j hj).lt
    have hslots : levelSlots b l = .ok xs := by
      rw [levelSlots, ← hhead]
      exact slotLoop_eq (fun j hj => (hsits j hj).lt) hnil hlinked.threaded
        (Nat.lt_succ_of_le hcap)
    have hline : lineOf b l = xs := by rw [lineOf, hslots]
    rw [Nat.zero_add] at hk hsum
    have hmod : k % 2 ^ 32 = k := Nat.mod_eq_of_lt (by
      rw [hk]
      unfold nilSlot at hlen
      omega)
    refine ⟨by rw [hline, hk], by rw [hline, hslots], ?_, hline ▸ hlinked, hline ▸ hsits⟩
    rw [hline]
    cases l
    simp only [lineLevel, Level.mk.injEq]
    exact ⟨hhead.symm, (not_not.mp hlast).symm.trans hend, (not_not.mp hqty).symm.trans hsum,
      (not_not.mp hcount).symm.trans (hmod.trans hk)⟩

/-- What the check found of a level of the array. -/
structure Indexed (b : ArrayBook) (s : Side) (k : ℕ) (l : Level) : Prop where
  bit : (b.side s).bitmap.isSet k = .ok (decide (0 < l.count))
  lined : Lined b s (b.grid.price k) l

omit hb in
/-- The line of every side and price. -/
def lines (b : ArrayBook) : Lines := fun s px => lineOf b ((b.side s).levelAt (b.grid.locate px))

/-- The levels of the array, from index `i` on. -/
theorem checkArray_ok {s : Side} {ls : List Level} {i seen seen' : ℕ} {sums sums' : ℕ × ℕ}
    (hls : ls = (b.side s).levels.drop i)
    (h : b.checkArray (b.side s) ls i seen sums = .ok (.ok (seen', sums'))) :
    seen' = seen + ((List.range' i ls.length).flatMap fun k =>
        lines b s (b.grid.price k)).length ∧
      ∀ k l, i ≤ k → (b.side s).levels[k]? = some l → Indexed b s k l := by
  induction ls generalizing i seen sums with
  | nil =>
    cases h
    refine ⟨rfl, fun k l hk hget => ?_⟩
    have hlen : (b.side s).levels.length ≤ i := List.drop_eq_nil_iff.mp hls.symm
    exact absurd (List.getElem?_eq_some_iff.mp hget).1 (by omega)
  | cons l ls ih =>
    have hi : i < (b.side s).levels.length := by
      by_contra hge
      rw [List.drop_eq_nil_of_le (not_lt.mp hge)] at hls
      cases hls
    obtain ⟨hl, hls'⟩ : l = (b.side s).levels[i] ∧ ls = (b.side s).levels.drop (i + 1) := by
      rw [List.drop_eq_getElem_cons hi, List.cons.injEq] at hls
      exact hls
    have hn : i < b.grid.nLevels := hb.levels_length s ▸ hi
    have hget : (b.side s).levels[i]? = some l := by rw [List.getElem?_eq_getElem hi, hl]
    have hshape := hb.levels s l (List.mem_of_getElem? hget)
    have hline : lines b s (b.grid.price i) = lineOf b l := by
      rw [lines, hb.grid.locate_price hn]
      simp [SideLevels.levelAt, SideLevels.at?, hget]
    simp only [ArrayBook.checkArray, pure_eq_ok, hb.grid.pxOf_ok hn, ok_bind] at h
    obtain ⟨bit, hbit, h⟩ := bind_eq_ok.mp h
    obtain ⟨hcount, h⟩ := passed h
    rw [not_not.mp hcount] at hbit
    obtain ⟨found, hlevel, h⟩ := bind_eq_ok.mp h
    cases found with
    | error v => cases h
    | ok n =>
      obtain ⟨sums₁, -, h⟩ := bind_eq_ok.mp h
      rw [hb.side_eq] at hlevel
      obtain ⟨rfl, hlined⟩ := checkLevel_ok hb hshape hlevel
      obtain ⟨hseen, hrest⟩ := ih hls' h
      refine ⟨?_, fun k l' hk hget' => ?_⟩
      · rw [hseen, List.length_cons, List.range'_succ, List.flatMap_cons, List.length_append, hline,
          Nat.add_assoc]
      · rcases Nat.eq_or_lt_of_le hk with rfl | hlt
        · obtain rfl : l = l' := Option.some.inj (hget.symm.trans hget')
          exact ⟨hbit, hlined⟩
        · exact hrest k l' hlt hget'

/-- The entries of an overflow map. -/
theorem checkOverflow_ok {s : Side} {es : List (ℤ × Level)} {seen seen' : ℕ} {sums sums' : ℕ × ℕ}
    (hes : ∀ e ∈ es, (b.side s).overflow.get? e.1 = some e.2)
    (h : b.checkOverflow (b.side s) es seen sums = .ok (.ok (seen', sums'))) :
    seen' = seen + (es.flatMap fun e => lines b s e.1).length ∧
      ∀ e ∈ es, 0 < e.2.count ∧ b.grid.locate e.1 = .overflow e.1 ∧ Lined b s e.1 e.2 := by
  induction es generalizing seen sums with
  | nil =>
    cases h
    exact ⟨rfl, fun _ he => absurd he List.not_mem_nil⟩
  | cons e es ih =>
    obtain ⟨px, l⟩ := e
    have hget := hes (px, l) (List.mem_cons_self ..)
    simp only [ArrayBook.checkOverflow, pure_eq_ok] at h
    obtain ⟨hcount, h⟩ := passed h
    obtain ⟨hloc, h⟩ := passed h
    have hloc := not_not.mp hloc
    have hline : lines b s px = lineOf b l := by
      rw [lines, hloc]
      simp [SideLevels.levelAt, SideLevels.at?, show (b.side s).overflow.get? px = some l from hget]
    obtain ⟨found, hlevel, h⟩ := bind_eq_ok.mp h
    cases found with
    | error v => cases h
    | ok n =>
      obtain ⟨sums₁, -, h⟩ := bind_eq_ok.mp h
      rw [hb.side_eq] at hlevel
      obtain ⟨rfl, hlined⟩ := checkLevel_ok hb (hb.overflow s px l hget).1 hlevel
      obtain ⟨hseen, hrest⟩ := ih (fun e he => hes e (List.mem_cons_of_mem _ he)) h
      refine ⟨?_, fun e he => ?_⟩
      · rw [hseen, List.flatMap_cons, List.length_append, hline, Nat.add_assoc]
      · rcases List.mem_cons.mp he with rfl | he
        · exact ⟨Nat.pos_of_ne_zero hcount, hloc, hlined⟩
        · exact hrest e he

omit hb in
/-- The summary bits, from word `w` on. -/
theorem checkSummary_ok {sl : SideLevels} {words : List Word} {w : ℕ}
    (hwords : words = sl.bitmap.words.drop w)
    (h : ArrayBook.checkSummary sl words w = .ok (.ok ())) :
    ∀ k word, w ≤ k → sl.bitmap.words[k]? = some word →
      (k ∈ bits sl.bitmap.summary ↔ word ≠ 0#64) := by
  induction words generalizing w with
  | nil =>
    intro k word hk hget
    have hlen : sl.bitmap.words.length ≤ w := List.drop_eq_nil_iff.mp hwords.symm
    exact absurd (List.getElem?_eq_some_iff.mp hget).1 (by omega)
  | cons word words ih =>
    have hw : w < sl.bitmap.words.length := by
      by_contra hge
      rw [List.drop_eq_nil_of_le (not_lt.mp hge)] at hwords
      cases hwords
    obtain ⟨hword, hrest⟩ : word = sl.bitmap.words[w] ∧ words = sl.bitmap.words.drop (w + 1) := by
      rw [List.drop_eq_getElem_cons hw, List.cons.injEq] at hwords
      exact hwords
    simp only [ArrayBook.checkSummary, pure_eq_ok] at h
    obtain ⟨shifted, hshift, h⟩ := bind_eq_ok.mp h
    obtain ⟨hbit, h⟩ := passed h
    have hshifted : shifted = sl.bitmap.summary >>> w := by
      unfold shr at hshift
      split at hshift
      · exact (Except.ok.inj hshift).symm
      · cases hshift
    have hbit := decide_eq_decide.mp (not_not.mp hbit)
    rw [hshifted, Bitmap.shift_and_one_iff] at hbit
    intro k word' hk hget
    rcases Nat.eq_or_lt_of_le hk with rfl | hlt
    · rw [List.getElem?_eq_getElem hw, ← hword] at hget
      obtain rfl := Option.some.inj hget
      exact hbit
    · exact ih hrest h k word' hlt hget

/-- What the check found of a side. -/
structure SideFound (b : ArrayBook) (s : Side) : Prop where
  array : ∀ k l, (b.side s).levels[k]? = some l → Indexed b s k l
  summary : ∀ k word, (b.side s).bitmap.words[k]? = some word →
    (k ∈ bits (b.side s).bitmap.summary ↔ word ≠ 0#64)
  overflow : ∀ px l, (b.side s).overflow.get? px = some l →
    0 < l.count ∧ b.grid.locate px = .overflow px ∧ Lined b s px l

theorem checkSide_ok {s : Side} {seen seen' : ℕ} {sums sums' : ℕ × ℕ}
    (h : b.checkSide (b.side s) seen sums = .ok (.ok (seen', sums'))) :
    seen' = seen + (Represents.sideSlots b (lines b) s).length ∧ SideFound b s := by
  simp only [ArrayBook.checkSide, pure_eq_ok] at h
  obtain ⟨found, harray, h⟩ := bind_eq_ok.mp h
  cases found with
  | error v => cases h
  | ok found =>
    obtain ⟨seen₁, sums₁⟩ := found
    obtain ⟨found, hsummary, h⟩ := bind_eq_ok.mp h
    cases found with
    | error v => cases h
    | ok u =>
      obtain ⟨hseen₁, hlevels⟩ := checkArray_ok hb List.drop_zero.symm harray
      obtain ⟨hseen, hoverflow⟩ := checkOverflow_ok hb
        (fun e he => SortedMap.get?_eq_some_iff.mpr he) h
      have hbits := checkSummary_ok List.drop_zero.symm hsummary
      refine ⟨?_, fun k l hget => hlevels k l (Nat.zero_le k) hget,
        fun k word hget => hbits k word (Nat.zero_le k) hget,
        fun px l hget => hoverflow (px, l) (SortedMap.get?_eq_some_iff.mp hget)⟩
      rw [hseen, hseen₁, Represents.sideSlots, Represents.checkedPrices, List.flatMap_append,
        List.length_append, hb.levels_length, ← List.range_eq_range', SortedMap.keys,
        List.flatMap_map, List.flatMap_map, Nat.add_assoc]

omit hb in
/-- The walk of `free_len`, where it ends well. -/
theorem freeLoop_ok {slab : Slab} {fuel n i m : ℕ} (h : slab.freeLoop fuel n i = .ok (.ok m)) :
    ∃ xs, xs.headD nilSlot = i ∧ m = n + xs.length ∧
      Threaded (fun i => (slab.cell i).next) xs nilSlot ∧ nilSlot ∉ xs ∧
      ∀ j ∈ xs, j < slab.slots.length := by
  induction fuel generalizing n i with
  | zero => cases h
  | succ fuel ih =>
    simp only [Slab.freeLoop, pure_eq_ok] at h
    by_cases hnil : i = nilSlot
    · rw [if_pos hnil] at h
      cases h
      exact ⟨[], hnil.symm, rfl, trivial, List.not_mem_nil, fun _ hj => absurd hj List.not_mem_nil⟩
    rw [if_neg hnil] at h
    obtain ⟨-, h⟩ := passed h
    obtain ⟨t, hget, h⟩ := bind_eq_ok.mp h
    have hlt : i < slab.slots.length := (List.getElem?_eq_some_iff.mp (index_eq_ok.mp hget)).1
    obtain rfl : slab.cell i = t := Except.ok.inj ((Slab.get_ok hlt).symm.trans hget)
    obtain ⟨xs, hhead, hm, hthread, hend, hbound⟩ := ih h
    refine ⟨i :: xs, rfl, ?_, ⟨hhead.symm, hthread⟩, ?_, ?_⟩
    · rw [hm, List.length_cons]
      omega
    · exact fun hmem => (List.mem_cons.mp hmem).elim (fun heq => hnil heq.symm) hend
    · exact fun j hj => (List.mem_cons.mp hj).elim (fun heq => heq ▸ hlt) (hbound j)

omit hb in
theorem checkIds_ok {es : List (OrderId × ℕ)} {sums sums' : ℕ × ℕ}
    (h : b.checkIds es sums = .ok (.ok sums')) :
    ∀ e ∈ es, e.2 < b.slab.slots.length ∧ (b.slab.cell e.2).id = e.1 := by
  induction es generalizing sums with
  | nil => exact fun _ he => absurd he List.not_mem_nil
  | cons e es ih =>
    obtain ⟨id, i⟩ := e
    simp only [ArrayBook.checkIds, pure_eq_ok] at h
    obtain ⟨t, hget, h⟩ := bind_eq_ok.mp h
    have hlt : i < b.slab.slots.length := (List.getElem?_eq_some_iff.mp (index_eq_ok.mp hget)).1
    have hcell : b.slab.cell i = t := Except.ok.inj ((Slab.get_ok hlt).symm.trans hget)
    obtain ⟨hid, h⟩ := passed h
    obtain ⟨-, h⟩ := passed h
    obtain ⟨sums₁, -, h⟩ := bind_eq_ok.mp h
    intro e he
    rcases List.mem_cons.mp he with rfl | he
    · exact ⟨hlt, by rw [hcell, not_not.mp hid]⟩
    · exact ih h e he

/-- What the check found of a book. -/
structure Found (b : ArrayBook) (free : List ℕ) : Prop where
  side : ∀ s, SideFound b s
  linked : (Represents.sideSlots b (lines b) .bid ++ Represents.sideSlots b (lines b) .ask).length =
    b.slab.live
  ids_length : b.ids.length = b.slab.live
  ids : ∀ id i, b.ids.get? id = some i → i < b.slab.slots.length ∧ (b.slab.cell i).id = id
  free_head : b.slab.freeHead = free.headD nilSlot
  free_threaded : Threaded (fun i => (b.slab.cell i).next) free nilSlot
  free_ne : nilSlot ∉ free
  free_lt : ∀ j ∈ free, j < b.slab.slots.length
  capacity : b.slab.live + free.length = b.slab.slots.length

theorem check_ok (h : b.check = .ok (.ok ())) : ∃ free, Found b free := by
  simp only [ArrayBook.check, pure_eq_ok] at h
  obtain ⟨found, hbids, h⟩ := bind_eq_ok.mp h
  cases found with
  | error v => cases h
  | ok found =>
  obtain ⟨seen₁, sums₁⟩ := found
  obtain ⟨found, hasks, h⟩ := bind_eq_ok.mp h
  cases found with
  | error v => cases h
  | ok found =>
  obtain ⟨seen₂, sums₂⟩ := found
  obtain ⟨found, htotals, h⟩ := bind_eq_ok.mp h
  cases found with
  | error v => cases h
  | ok u =>
  obtain ⟨found, hids, h⟩ := bind_eq_ok.mp h
  cases found with
  | error v => cases h
  | ok orders =>
  obtain ⟨hseen₁, hbid⟩ := checkSide_ok hb (s := .bid) hbids
  obtain ⟨hseen₂, hask⟩ := checkSide_ok hb (s := .ask) hasks
  simp only [ArrayBook.checkTotals, pure_eq_ok] at htotals
  obtain ⟨hcounts, htotals⟩ := passed htotals
  obtain ⟨hlive, hlength⟩ := not_or.mp hcounts
  obtain ⟨found, hfree, htotals⟩ := bind_eq_ok.mp htotals
  cases found with
  | error v => cases htotals
  | ok n =>
  obtain ⟨hcap, -⟩ := passed htotals
  obtain ⟨free, hhead, hn, hthread, hne, hlt⟩ := freeLoop_ok hfree
  refine ⟨free, fun s => ?_, ?_, not_not.mp hlength, fun id i hget => ?_, hhead.symm, hthread, hne,
    hlt, ?_⟩
  · cases s with
    | bid => exact hbid
    | ask => exact hask
  · rw [List.length_append, ← not_not.mp hlive, hseen₂, hseen₁, Nat.zero_add]
  · exact checkIds_ok hids (id, i) (SortedMap.get?_eq_some_iff.mp hget)
  · rw [Nat.zero_add] at hn
    rw [← hn]
    exact not_not.mp hcap

end Lines

/-! The market of an accepted book. -/

/-- The bitmaps mark nothing past the window: no level past the last one, no word past the
last one. The check does not look there. -/
structure Windowed (b : ArrayBook) : Prop where
  members : ∀ s, ∀ i ∈ (b.side s).bitmap.members, i < b.grid.nLevels
  summary : ∀ s, ∀ k ∈ bits (b.side s).bitmap.summary, k < (b.side s).bitmap.words.length

/-- No slot on the free list is linked into a level. The check does not compare the two. -/
def FreeApart (b : ArrayBook) : Prop :=
  ∃ free linked, freeSlots b = .ok free ∧ linkedSlots b = .ok linked ∧ ∀ i ∈ free, i ∉ linked

/-- The orders on the lines, and for every id the side and price of its slot. -/
def marketOf (b : ArrayBook) : Market :=
  ⟨fun s px => (lines b s px).map b.slab.order,
    fun id => (b.ids.get? id).map fun i => ((b.slab.cell i).side, |(b.slab.cell i).px|)⟩

/-- The slots met on the lines of both sides. -/
def allSlots (b : ArrayBook) : List ℕ :=
  Represents.sideSlots b (lines b) .bid ++ Represents.sideSlots b (lines b) .ask

section Accepted

variable {b : ArrayBook} {free : List ℕ} (hb : Shaped b) (hf : Found b free)

include hb hf

theorem lined_at (s : Side) (px : ℤ) : Lined b s px ((b.side s).levelAt (b.grid.locate px)) := by
  have hempty : Lined b s px .empty := by
    have hslots : levelSlots b .empty = .ok [] := rfl
    have hline : lineOf b .empty = [] := by rw [lineOf, hslots]
    exact ⟨by rw [hline, hslots], by rw [hline]; rfl, by rw [hline]; trivial,
      by rw [hline]; exact fun _ hj => absurd hj List.not_mem_nil⟩
  cases hloc : b.grid.locate px with
  | inRange i =>
    obtain ⟨hi, rfl⟩ := hb.grid.of_locate_inRange hloc
    have hlen : i < (b.side s).levels.length := hb.levels_length s ▸ hi
    have hget := List.getElem?_eq_getElem hlen
    rw [SideLevels.levelAt, SideLevels.at?, hget, Option.getD_some]
    exact ((hf.side s).array i _ hget).lined
  | overflow p =>
    obtain rfl := Grid.of_locate_overflow hloc
    rw [SideLevels.levelAt, SideLevels.at?]
    cases hget : (b.side s).overflow.get? p with
    | none => exact hempty
    | some l => exact ((hf.side s).overflow p l hget).2.2

theorem sits {s : Side} {px : ℤ} {j : ℕ} (hj : j ∈ lines b s px) : Sits b s px j :=
  (lined_at hb hf s px).sits j hj

theorem lines_nodup (s : Side) (px : ℤ) : (lines b s px).Nodup :=
  (lined_at hb hf s px).linked.threaded.nodup fun hmem => (sits hb hf hmem).ne rfl

theorem lines_unique {s s' : Side} {px px' : ℤ} {j : ℕ} (hj : j ∈ lines b s px)
    (hj' : j ∈ lines b s' px') : s = s' ∧ px = px' :=
  ⟨(sits hb hf hj).side.symm.trans (sits hb hf hj').side,
    (sits hb hf hj).abs_px.symm.trans (sits hb hf hj').abs_px⟩

omit hf in
/-- The sign of a slot's price is its side. -/
theorem px_of_sits {s : Side} {px : ℤ} {j : ℕ} (hj : Sits b s px j) :
    Market.lowest s ≤ px ∧ px < 2 ^ 31 ∧ (b.slab.cell j).px = signed s px := by
  obtain ⟨hlow, hhigh⟩ := (cell_shaped hb hj.lt).px
  have hside := hj.side
  have habs := hj.abs_px
  unfold Slot.side at hside
  split at hside
  · rename_i hneg
    subst hside
    rw [abs_of_neg hneg] at habs
    simp only [Market.lowest, signed]
    omega
  · rename_i hpos
    subst hside
    rw [abs_of_nonneg (not_lt.mp hpos)] at habs
    simp only [Market.lowest, signed]
    omega

theorem side_wf (hw : Windowed b) (s : Side) : (b.side s).WF b.grid := by
  have hbitmap : (b.side s).bitmap.WF b.grid.nLevels := by
    refine ⟨hb.grid.levels_le, hb.words_length s, fun k => ?_, hw.members s⟩
    constructor
    · intro hk
      have hlt := hw.summary s k hk
      exact ⟨_, List.getElem?_eq_getElem hlt,
        ((hf.side s).summary k _ (List.getElem?_eq_getElem hlt)).mp hk⟩
    · rintro ⟨word, hget, hne⟩
      exact ((hf.side s).summary k word hget).mpr hne
  refine ⟨hb.levels_length s, hbitmap, fun i l hget => ?_, fun px l hget => ?_⟩
  · have hi : i < b.grid.nLevels := hb.levels_length s ▸ (List.getElem?_eq_some_iff.mp hget).1
    obtain ⟨bit, hbit, hiff⟩ := Bitmap.isSet_spec hbitmap hi
    obtain rfl := Except.ok.inj (hbit.symm.trans ((hf.side s).array i l hget).bit)
    rw [← hiff, decide_eq_true_eq]
  · obtain ⟨hcount, hloc, hlined⟩ := (hf.side s).overflow px l hget
    have hlen : l.count = (lineOf b l).length := congrArg Level.count hlined.level
    obtain ⟨j, hj⟩ : ∃ j, j ∈ lineOf b l :=
      List.exists_mem_of_ne_nil _ (List.ne_nil_of_length_pos (hlen ▸ hcount))
    exact ⟨hcount, (hlined.sits j hj).abs_px ▸ abs_nonneg _, hloc⟩

omit hf in
theorem mem_allSlots {j : ℕ} : j ∈ allSlots b ↔ ∃ s px, j ∈ lines b s px := by
  have hside : ∀ s, j ∈ Represents.sideSlots b (lines b) s ↔ ∃ px, j ∈ lines b s px := by
    refine fun s => Represents.mem_sideSlots_of hb.grid fun px hloc hget => ?_
    have hempty : (b.side s).levelAt (b.grid.locate px) = .empty := by
      rw [hloc, SideLevels.levelAt, SideLevels.at?, hget, Option.getD_none]
    rw [lines, hempty]
    rfl
  rw [allSlots, List.mem_append, hside, hside]
  constructor
  · rintro (⟨px, hj⟩ | ⟨px, hj⟩)
    · exact ⟨_, px, hj⟩
    · exact ⟨_, px, hj⟩
  · rintro ⟨s, px, hj⟩
    cases s with
    | bid => exact Or.inl ⟨px, hj⟩
    | ask => exact Or.inr ⟨px, hj⟩

theorem allSlots_nodup (hw : Windowed b) : (allSlots b).Nodup := by
  have hside : ∀ s, (Represents.sideSlots b (lines b) s).Nodup := fun s =>
    Represents.nodup_sideSlots hb.grid (side_wf hb hf hw s) (lines_nodup hb hf s)
      fun _ _ _ hp hq => (lines_unique hb hf hp hq).2
  refine List.nodup_append.mpr ⟨hside _, hside _, ?_⟩
  intro j hj k hk heq
  subst heq
  obtain ⟨p, -, hp⟩ := List.mem_flatMap.mp hj
  obtain ⟨q, -, hq⟩ := List.mem_flatMap.mp hk
  exact absurd (lines_unique hb hf hp hq).1 (by decide)

/-- The map has no id but those of the linked slots: there are as many. -/
theorem mem_allSlots_of_id (hw : Windowed b) {id : OrderId} {i : ℕ}
    (hget : b.ids.get? id = some i) : i ∈ allSlots b := by
  have hsub : allSlots b ⊆ b.ids.entries.map Prod.snd := by
    intro j hj
    obtain ⟨s, px, hj⟩ := (mem_allSlots hb).mp hj
    exact List.mem_map.mpr ⟨_, SortedMap.get?_eq_some_iff.mp (sits hb hf hj).mapped, rfl⟩
  have hlen : (b.ids.entries.map Prod.snd).length ≤ (allSlots b).length := by
    rw [List.length_map, allSlots, hf.linked, ← hf.ids_length]
    exact le_refl _
  have hperm := (List.subperm_of_subset (allSlots_nodup hb hf hw) hsub).perm_of_length_le hlen
  exact hperm.mem_iff.mpr (List.mem_map.mpr ⟨(id, i), SortedMap.get?_eq_some_iff.mp hget, rfl⟩)

/-- Free slots and linked slots are all slots. -/
theorem mem_free_or_linked (hw : Windowed b) (hapart : ∀ i ∈ free, i ∉ allSlots b) :
    b.slab.slots.length ≤ nilSlot ∧ ∀ i, i < b.slab.slots.length → i ∈ free ∨ i ∈ allSlots b := by
  have hnodup : (free ++ allSlots b).Nodup := by
    refine List.nodup_append.mpr ⟨hf.free_threaded.nodup hf.free_ne, allSlots_nodup hb hf hw, ?_⟩
    intro i hi j hj heq
    exact hapart i hi (heq ▸ hj)
  have hlt : ∀ i ∈ free ++ allSlots b, i < b.slab.slots.length := by
    intro i hi
    rcases List.mem_append.mp hi with hi | hi
    · exact hf.free_lt i hi
    · obtain ⟨s, px, hi⟩ := (mem_allSlots hb).mp hi
      exact (sits hb hf hi).lt
  have hlow : ∀ i ∈ free ++ allSlots b, i < nilSlot := by
    intro i hi
    rcases List.mem_append.mp hi with hi | hi
    · exact lt_nilSlot hb (hf.free_head ▸ hb.freeHead) hf.free_lt hf.free_ne hf.free_threaded i hi
    · obtain ⟨s, px, hi⟩ := (mem_allSlots hb).mp hi
      exact ((hb.ids _ i (sits hb hf hi).mapped).resolve_left (sits hb hf hi).ne).1
  have hlen : (free ++ allSlots b).length = b.slab.slots.length := by
    rw [List.length_append, allSlots, hf.linked, Nat.add_comm]
    exact hf.capacity
  refine ⟨hlen ▸ length_le_of_lt hnodup hlow, fun i hi => ?_⟩
  have hsub : free ++ allSlots b ⊆ List.range b.slab.slots.length := fun j hj =>
    List.mem_range.mpr (hlt j hj)
  have hperm := (List.subperm_of_subset hnodup hsub).perm_of_length_le
    (by rw [List.length_range, hlen])
  exact List.mem_append.mp (hperm.mem_iff.mpr (List.mem_range.mpr hi))

omit hb in
theorem freeSlots_eq : freeSlots b = .ok free := by
  have hlen := hf.capacity
  rw [freeSlots, hf.free_head]
  exact slotLoop_eq hf.free_lt hf.free_ne hf.free_threaded (by unfold Slab.capacity; omega)

theorem linkedSlots_eq : linkedSlots b = .ok (allSlots b) := by
  have hlevel : ∀ s, ∀ l ∈ (b.side s).levels ++ (b.side s).overflow.entries.map Prod.snd,
      levelSlots b l = .ok (lineOf b l) := by
    intro s l hl
    rcases List.mem_append.mp hl with hl | hl
    · obtain ⟨k, hget⟩ := List.getElem?_of_mem hl
      exact ((hf.side s).array k l hget).lined.slots
    · obtain ⟨⟨px, l⟩, he, rfl⟩ := List.mem_map.mp hl
      exact ((hf.side s).overflow px l (SortedMap.get?_eq_some_iff.mpr he)).2.2.slots
  have hside : ∀ s, linkedSide b s = .ok (Represents.sideSlots b (lines b) s) := by
    intro s
    have hlines : ((b.side s).levels ++ (b.side s).overflow.entries.map Prod.snd).map (lineOf b) =
        (Represents.checkedPrices b s).map (lines b s) := by
      rw [Represents.checkedPrices, List.map_append, List.map_append, List.map_map, List.map_map,
        SortedMap.keys, List.map_map]
      congr 1
      · refine List.ext_getElem (by simp [hb.levels_length]) fun i hi _ => ?_
        have hlen : i < (b.side s).levels.length := by simpa using hi
        have hn : i < b.grid.nLevels := hb.levels_length s ▸ hlen
        simp [lines, hb.grid.locate_price hn, SideLevels.levelAt, SideLevels.at?, hlen]
      · refine List.map_congr_left fun e he => ?_
        have hget := SortedMap.get?_eq_some_iff.mpr he
        obtain ⟨-, hloc, -⟩ := (hf.side s).overflow e.1 e.2 hget
        simp only [Function.comp_apply, lines, hloc, SideLevels.levelAt, SideLevels.at?, hget,
          Option.getD_some]
    rw [linkedSide, mapM_ok (hlevel s), ok_bind, hlines, Represents.sideSlots, List.flatMap_def,
      pure_eq_ok]
  simp only [linkedSlots, hside, ok_bind, pure_eq_ok, allSlots]

theorem market_wf (hw : Windowed b) : (marketOf b).WF where
  home_iff id s px := by
    have hhome : (marketOf b).home id = some (s, px) ↔ ∃ i, b.ids.get? id = some i ∧
        (b.slab.cell i).side = s ∧ |(b.slab.cell i).px| = px := by
      simp [marketOf, Option.map_eq_some_iff]
    have hqueue : id ∈ ids ((marketOf b).queue s px) ↔
        ∃ i ∈ lines b s px, (b.slab.cell i).id = id := by
      simp [marketOf, ids, Slab.order]
    rw [hhome, hqueue]
    constructor
    · rintro ⟨i, hget, hside, hpx⟩
      obtain ⟨s', px', hi⟩ := (mem_allSlots hb).mp (mem_allSlots_of_id hb hf hw hget)
      obtain rfl := (sits hb hf hi).side.symm.trans hside
      obtain rfl := (sits hb hf hi).abs_px.symm.trans hpx
      exact ⟨i, hi, (hf.ids id i hget).2⟩
    · rintro ⟨i, hi, rfl⟩
      have hsits := sits hb hf hi
      exact ⟨i, hsits.mapped, hsits.side, hsits.abs_px⟩
  nodup s px := by
    have hids : ids ((marketOf b).queue s px) = (lines b s px).map fun i => (b.slab.cell i).id := by
      simp [marketOf, ids, Slab.order, Function.comp_def]
    rw [hids]
    refine (List.nodup_map_iff_inj_on (lines_nodup hb hf s px)).mpr fun i hi j hj heq => ?_
    have hmapped := (sits hb hf hi).mapped
    rw [heq, (sits hb hf hj).mapped] at hmapped
    exact (Option.some.inj hmapped).symm
  qty_pos s px e he := by
    obtain ⟨i, hi, rfl⟩ := List.mem_map.mp he
    exact Nat.pos_of_ne_zero (sits hb hf hi).qty
  total_lt s px := by
    have hlined := lined_at hb hf s px
    have hqty : ((b.side s).levelAt (b.grid.locate px)).qty = total ((marketOf b).queue s px) :=
      congrArg Level.qty hlined.level
    rw [← hqty]
    cases hloc : b.grid.locate px with
    | inRange i =>
      obtain ⟨hi, -⟩ := hb.grid.of_locate_inRange hloc
      have hlen : i < (b.side s).levels.length := hb.levels_length s ▸ hi
      rw [SideLevels.levelAt, SideLevels.at?, List.getElem?_eq_getElem hlen, Option.getD_some]
      exact (hb.levels s _ (List.getElem_mem hlen)).qty
    | overflow p =>
      rw [SideLevels.levelAt, SideLevels.at?]
      cases hget : (b.side s).overflow.get? p with
      | none => exact Nat.two_pow_pos 32
      | some l => exact (hb.overflow s p l hget).1.qty
  px_range s px hne := by
    obtain ⟨e, he⟩ := List.exists_mem_of_ne_nil _ hne
    obtain ⟨i, hi, -⟩ := List.mem_map.mp he
    obtain ⟨hlow, hhigh, -⟩ := px_of_sits hb (sits hb hf hi)
    exact ⟨hlow, hhigh⟩

/-- An accepted book with its free list apart and its bitmaps within the window represents a
market. -/
theorem represents (hw : Windowed b) (hapart : ∀ i ∈ free, i ∉ allSlots b) :
    Represents b (marketOf b) (lines b) free where
  market := market_wf hb hf hw
  grid := hb.grid
  side_eq := hb.side_eq
  side_wf := side_wf hb hf hw
  level_eq s px := (lined_at hb hf s px).level
  queue_eq _ _ := rfl
  px_eq s px i hi := (px_of_sits hb (sits hb hf hi)).2.2
  linked s px := (lined_at hb hf s px).linked
  ids_iff id i := by
    constructor
    · intro hget
      obtain ⟨s, px, hi⟩ := (mem_allSlots hb).mp (mem_allSlots_of_id hb hf hw hget)
      exact ⟨s, px, hi, (hf.ids id i hget).2⟩
    · rintro ⟨s, px, hi, rfl⟩
      exact (sits hb hf hi).mapped
  ids_length := hf.ids_length
  freeList := ⟨hf.free_head, hf.free_threaded, hf.free_threaded.nodup hf.free_ne, hf.free_lt,
    (mem_free_or_linked hb hf hw hapart).1, hf.capacity⟩
  used_iff i := by
    rw [← mem_allSlots hb]
    constructor
    · intro hi
      obtain ⟨s, px, hj⟩ := (mem_allSlots hb).mp hi
      exact ⟨(sits hb hf hj).lt, fun hfree => hapart i hfree hi⟩
    · rintro ⟨hlt, hfree⟩
      exact ((mem_free_or_linked hb hf hw hapart).2 i hlt).resolve_left hfree

end Accepted

/-! Reference books with the same orders. -/

/-- The reference book shows the snapshot, and its id map names the orders in it. -/
structure Holds (r : RefBook) (v : Snapshot) : Prop where
  snapshot : r.snapshot = v
  ids : ∀ id s px, r.ids.get? id = some (s, px) ↔ ∃ q, (s, px, q) ∈ v ∧ id ∈ ids q

theorem mem_refBook_snapshot {r : RefBook} {s : Side} {px : ℤ} {q : Queue} :
    (s, px, q) ∈ r.snapshot ↔ (r.side s).get? px = some q := by
  rw [SortedMap.get?_eq_some_iff, RefBook.snapshot, List.mem_append, List.mem_map, List.mem_map]
  cases s <;> simp [RefBook.bestFirst, RefBook.side]

section Holding

variable {m : Market} (hm : m.WF)

include hm

theorem home_iff_snapshot {id : OrderId} {s : Side} {px : ℤ} :
    m.home id = some (s, px) ↔ ∃ q, (s, px, q) ∈ m.snapshot ∧ id ∈ ids q := by
  rw [hm.home_iff]
  constructor
  · intro hid
    exact ⟨_, hm.mem_snapshot.mpr ⟨rfl, fun hnil => by simp [hnil] at hid⟩, hid⟩
  · rintro ⟨q, hq, hid⟩
    rw [(hm.mem_snapshot.mp hq).1]
    exact hid

theorem refines_of_holds {r : RefBook} (h : Holds r m.snapshot) : r.Refines m := by
  have hget : ∀ s px q, (r.side s).get? px = some q ↔ m.queue s px = q ∧ q ≠ [] := by
    intro s px q
    rw [← mem_refBook_snapshot, h.snapshot, hm.mem_snapshot]
  refine ⟨hm, fun s px => ?_, fun s px hnil => ((hget s px []).mp hnil).2 rfl, fun id => ?_⟩
  · cases hq : (r.side s).get? px with
    | none =>
      by_contra hne
      rw [(hget s px (m.queue s px)).mpr ⟨rfl, hne⟩] at hq
      cases hq
    | some q => exact ((hget s px q).mp hq).1
  · refine Option.ext fun p => ?_
    obtain ⟨s, px⟩ := p
    rw [h.ids]
    exact home_iff_snapshot hm

theorem holds_of_refines {r : RefBook} (h : r.Refines m) : Holds r m.snapshot := by
  refine ⟨h.snapshot_eq, fun id s px => ?_⟩
  rw [← h.home_eq]
  exact home_iff_snapshot hm

/-- The levels and the homes of a market, stored in maps. -/
theorem exists_refBook (ids : SortedMap OrderId (Side × ℤ)) (hids : ∀ id, m.home id = ids.get? id) :
    ∃ r : RefBook, r.Refines m := by
  have hbids : Ascending (m.levels .bid).reverse :=
    List.pairwise_reverse.mpr (hm.isLevels .bid).sorted
  have hasks : Ascending (m.levels .ask) := (hm.isLevels .ask).sorted
  have hget : ∀ s px q, ((RefBook.mk ⟨_, hbids⟩ ⟨_, hasks⟩ ids).side s).get? px = some q ↔
      m.queue s px = q ∧ q ≠ [] := by
    intro s px q
    rw [SortedMap.get?_eq_some_iff, ← (hm.isLevels s).mem_iff (px, q)]
    cases s with
    | bid => exact List.mem_reverse
    | ask => exact Iff.rfl
  refine ⟨⟨⟨_, hbids⟩, ⟨_, hasks⟩, ids⟩, hm, fun s px => ?_,
    fun s px hnil => ((hget s px []).mp hnil).2 rfl, hids⟩
  cases hq : ((RefBook.mk ⟨_, hbids⟩ ⟨_, hasks⟩ ids).side s).get? px with
  | none =>
    by_contra hne
    rw [(hget s px (m.queue s px)).mpr ⟨rfl, hne⟩] at hq
    cases hq
  | some q => exact ((hget s px q).mp hq).1

end Holding

/-! What is left in order after every call. -/

theorem windowed_of_refines {b : ArrayBook} {m : Market} (h : b.Refines m) : Windowed b := by
  obtain ⟨line, free, hrep⟩ := h
  refine ⟨fun s => (hrep.side_wf s).bitmap.lt_of_mem, fun s k hk => ?_⟩
  obtain ⟨word, hget, -⟩ := ((hrep.side_wf s).bitmap.summary_iff k).mp hk
  exact (List.getElem?_eq_some_iff.mp hget).1

theorem freeApart_of_refines {b : ArrayBook} {m : Market} (h : b.Refines m) : FreeApart b := by
  obtain ⟨line, free, hrep⟩ := h
  obtain ⟨free, linked, hparts⟩ := partitioned hrep
  exact ⟨free, linked, hparts.free_eq, hparts.linked_eq, hparts.disjoint⟩

theorem check_of_refines {b : ArrayBook} {m : Market} (h : b.Refines m) :
    b.check = .ok (.ok ()) := by
  obtain ⟨line, free, hrep⟩ := h
  exact hrep.check_eq

theorem refines_of_accepted {b : ArrayBook} (hb : Shaped b) (hcheck : b.check = .ok (.ok ()))
    (hfree : FreeApart b) (hw : Windowed b) : b.Refines (marketOf b) := by
  obtain ⟨free, hf⟩ := check_ok hb hcheck
  obtain ⟨free', linked, hfree', hlinked, hapart⟩ := hfree
  obtain rfl := Except.ok.inj ((freeSlots_eq hf).symm.trans hfree')
  obtain rfl := Except.ok.inj ((linkedSlots_eq hb hf).symm.trans hlinked)
  exact ⟨_, _, represents hb hf hw hapart⟩

/-- A bid of five shares in slot 0 and an unused slot 1, with any start of the free list and any
bits for the bids. -/
def smallBook (freeHead : ℕ) (word : Word) : ArrayBook where
  grid := ⟨100, 4, 1⟩
  bids := ⟨.bid, [⟨0, 0, 5, 1⟩, .empty, .empty, .empty], ⟨[word], 1#64⟩, .empty, 0, 0⟩
  asks := ⟨.ask, [.empty, .empty, .empty, .empty], ⟨[0#64], 0#64⟩, .empty, 0, 0⟩
  slab := ⟨[⟨7, 5, 100, nilSlot, nilSlot⟩, ⟨0, 0, 0, nilSlot, nilSlot⟩], freeHead, 1⟩
  ids := SortedMap.empty.insert 7 0

theorem shaped_small {freeHead : ℕ} (hfree : freeHead < 2) (word : Word) :
    Shaped (smallBook freeHead word) := by
  have hindex : ∀ i, i < 2 → Index (smallBook freeHead word) i := fun i hi =>
    Or.inr ⟨lt_trans hi (by decide), hi⟩
  have hnil : Index (smallBook freeHead word) nilSlot := Or.inl rfl
  have hempty : LevelShaped (smallBook freeHead word) .empty := ⟨hnil, hnil, by decide, by decide⟩
  have hlevel : LevelShaped (smallBook freeHead word) ⟨0, 0, 5, 1⟩ :=
    ⟨hindex 0 (by decide), hindex 0 (by decide), by decide, by decide⟩
  have hgrid : Grid.WF ⟨100, 4, 1⟩ := by constructor <;> decide
  refine ⟨hgrid, fun s => by cases s <;> rfl, fun s => by cases s <;> rfl,
    fun s => by cases s <;> simp [smallBook, ArrayBook.side], fun s l hl => ?_,
    fun s px l hget => ?_, fun t ht => ?_, hindex freeHead hfree, fun id i hget => ?_⟩
  · cases s with
    | bid =>
      simp only [smallBook, ArrayBook.side, List.mem_cons, List.not_mem_nil, or_false] at hl
      rcases hl with rfl | rfl | rfl | rfl
      · exact hlevel
      all_goals exact hempty
    | ask =>
      simp only [smallBook, ArrayBook.side, List.mem_cons, List.not_mem_nil, or_false] at hl
      rcases hl with rfl | rfl | rfl | rfl
      all_goals exact hempty
  · cases s <;> simp [smallBook, ArrayBook.side] at hget
  · simp only [smallBook, List.mem_cons, List.not_mem_nil, or_false] at ht
    rcases ht with rfl | rfl
    all_goals exact ⟨hnil, hnil, by decide, by decide⟩
  · simp only [smallBook, SortedMap.get?_insert] at hget
    split at hget
    · obtain rfl := Option.some.inj hget
      exact hindex 0 (by decide)
    · simp at hget

theorem windowed_small (freeHead : ℕ) : Windowed (smallBook freeHead 1#64) := by
  have hone : ∀ j, j ∈ bits 1#64 → j = 0 := by
    intro j hj
    rw [mem_bits, BitVec.getLsbD_one] at hj
    simpa using hj
  have hzero : ∀ j, j ∉ bits 0#64 := by
    intro j hj
    rw [mem_bits, BitVec.getLsbD_zero] at hj
    cases hj
  refine ⟨fun s i hi => ?_, fun s k hk => ?_⟩
  · obtain ⟨word, hget, hbit⟩ := hi
    cases s with
    | bid =>
      obtain ⟨hlt, rfl⟩ := List.getElem?_eq_some_iff.mp hget
      have hword : i / 64 < 1 := hlt
      have hdiv : i / 64 = 0 := by omega
      have hmod : i % 64 = 0 := hone _ (by simpa [smallBook, ArrayBook.side, hdiv] using hbit)
      show i < 4
      omega
    | ask =>
      obtain ⟨hlt, rfl⟩ := List.getElem?_eq_some_iff.mp hget
      have hword : i / 64 < 1 := hlt
      have hdiv : i / 64 = 0 := by omega
      exact absurd (by simpa [smallBook, ArrayBook.side, hdiv] using hbit) (hzero (i % 64))
  · cases s with
    | bid => exact hone k hk ▸ Nat.one_pos
    | ask => exact absurd hk (hzero k)

/-- An accepted book whose free list is apart from its levels and whose bitmaps keep to the
window shows a snapshot that reference books can hold. From then on it answers every sequence
of calls as such a reference book does, as long as no more orders are live than it can have
slots, and ends with the same snapshot, accepted again and in the same order. -/
theorem accepted_book_conforms {b : ArrayBook} (hb : Shaped b) (hcheck : b.check = .ok (.ok ()))
    (hfree : FreeApart b) (hw : Windowed b) :
    ∃ v, b.snapshot = .ok v ∧ (∃ r, Holds r v) ∧ ∀ r, Holds r v → ∀ ops,
      Along RefBook.apply (fun r => r.liveOrders ≤ 2 ^ 32 - 1) r ops →
      ∃ replies b' r', run ArrayBook.apply b ops = .ok (replies, b') ∧
        run RefBook.apply r ops = .ok (replies, r') ∧ b'.snapshot = .ok r'.snapshot ∧
        Holds r' r'.snapshot ∧ b'.check = .ok (.ok ()) ∧ FreeApart b' ∧ Windowed b' := by
  have href := refines_of_accepted hb hcheck hfree hw
  have hm := href.market
  refine ⟨_, href.snapshot_eq, ?_, fun r hr ops hroom => ?_⟩
  · obtain ⟨r, hr⟩ := exists_refBook hm
      (b.ids.mapValues fun i => ((b.slab.cell i).side, |(b.slab.cell i).px|))
      fun id => (SortedMap.get?_mapValues _ _ id).symm
    exact ⟨r, holds_of_refines hm hr⟩
  · have hr := refines_of_holds hm hr
    obtain ⟨b', hrun, hb'⟩ := array_run href ((within_iff hr ops).mp hroom)
    obtain ⟨r', hrun', hr'⟩ := hr.run ops
    refine ⟨_, b', r', hrun, hrun', ?_, ?_, check_of_refines hb', freeApart_of_refines hb',
      windowed_of_refines hb'⟩
    · rw [hb'.snapshot_eq, hr'.snapshot_eq]
    · rw [hr'.snapshot_eq]
      exact holds_of_refines hb'.market hr'

/-- A sound book of one order. -/
theorem accepted_book_conforms_small : ∃ v, (smallBook 1 1#64).snapshot = .ok v ∧
    (∃ r, Holds r v) ∧ ∀ r, Holds r v → ∀ ops,
      Along RefBook.apply (fun r => r.liveOrders ≤ 2 ^ 32 - 1) r ops →
      ∃ replies b' r', run ArrayBook.apply (smallBook 1 1#64) ops = .ok (replies, b') ∧
        run RefBook.apply r ops = .ok (replies, r') ∧ b'.snapshot = .ok r'.snapshot ∧
        Holds r' r'.snapshot ∧ b'.check = .ok (.ok ()) ∧ FreeApart b' ∧ Windowed b' :=
  accepted_book_conforms (shaped_small (by decide) _) (by decide +kernel)
    ⟨[1], [0], rfl, rfl, by decide⟩ (windowed_small 1)

/-! Books that the check accepts and that do not conform. -/

/-- A book that represents a market is shaped, if its free slots are. -/
theorem shaped_of_represents {b : ArrayBook} {m : Market} {line : Lines} {free : List ℕ}
    (h : Represents b m line free) (hslots : ∀ i ∈ free, SlotShaped b (b.slab.cell i)) :
    Shaped b := by
  have hnil : Index b nilSlot := Or.inl rfl
  have hlow : ∀ i, i < b.slab.slots.length → Index b i := fun i hi =>
    Or.inr ⟨lt_of_lt_of_le hi h.freeList.capacity_le, hi⟩
  have hhead : ∀ xs : List ℕ, (∀ i ∈ xs, i < b.slab.slots.length) →
      Index b (xs.headD nilSlot) := by
    intro xs hxs
    by_cases hne : xs = []
    · exact hne ▸ hnil
    · exact hlow _ (hxs _ (headD_mem_of_ne hne))
  have hlast : ∀ xs : List ℕ, (∀ i ∈ xs, i < b.slab.slots.length) →
      Index b (xs.getLastD nilSlot) := by
    intro xs hxs
    by_cases hne : xs = []
    · exact hne ▸ hnil
    · exact hlow _ (hxs _ (getLastD_mem_of_ne hne))
  have hlevel : ∀ s px, LevelShaped b ((b.side s).levelAt (b.grid.locate px)) := by
    intro s px
    rw [h.level_eq]
    have hlt : ∀ i ∈ line s px, i < b.slab.slots.length := fun i hi => h.line_lt hi
    have hlen := length_le_of_lt (h.line_nodup s px) hlt
    have hcap := h.freeList.capacity_le
    refine ⟨hhead _ hlt, hlast _ hlt, h.market.total_lt s px, ?_⟩
    unfold nilSlot at hcap
    simp only [lineLevel]
    omega
  refine ⟨h.grid, h.side_eq, fun s => (h.side_wf s).length_eq,
    fun s => (h.side_wf s).bitmap.length_eq, fun s l hl => ?_, fun s px l hget => ?_,
    fun t ht => ?_, ?_, fun id i hget => ?_⟩
  · obtain ⟨i, hi, rfl⟩ := List.getElem_of_mem hl
    have hlevel := hlevel s (b.grid.price i)
    rw [h.grid.locate_price ((h.side_wf s).length_eq ▸ hi)] at hlevel
    simpa [SideLevels.levelAt, SideLevels.at?, List.getElem?_eq_getElem hi] using hlevel
  · obtain ⟨hcount, hpx, hloc⟩ := (h.side_wf s).overflow_entry px l hget
    have hat : (b.side s).levelAt (b.grid.locate px) = l := by
      rw [hloc]
      simp [SideLevels.levelAt, SideLevels.at?, hget]
    have hne : m.queue s px ≠ [] := by
      intro hempty
      have hcount' := congrArg Level.count (hat.symm.trans (h.level_eq s px))
      rw [h.queue_eq] at hempty
      rw [List.map_eq_nil_iff.mp hempty] at hcount'
      exact hcount.ne' hcount'
    have hrange := h.market.px_nonneg hne
    exact ⟨hat ▸ hlevel s px, by omega, hrange.2⟩
  · obtain ⟨i, hi, rfl⟩ := List.getElem_of_mem ht
    have hcell : b.slab.cell i = b.slab.slots[i] :=
      Except.ok.inj ((Slab.get_ok hi).symm.trans (index_eq_ok.mpr (List.getElem?_eq_getElem hi)))
    rw [← hcell]
    by_cases hfree : i ∈ free
    · exact hslots i hfree
    obtain ⟨s, px, hmem⟩ := (h.used_iff i).mpr ⟨hi, hfree⟩
    obtain ⟨xs, ys, hline⟩ := List.append_of_mem hmem
    have hlinked := h.linked s px
    rw [hline] at hlinked
    obtain ⟨hprev, hnext⟩ := hlinked.neighbours
    have hlt : ∀ j ∈ xs ++ i :: ys, j < b.slab.slots.length := fun j hj => h.line_lt (hline ▸ hj)
    have hqty : (b.slab.cell i).qty ≤ total (m.queue s px) := by
      have hentry : ((b.slab.cell i).id, (b.slab.cell i).qty) ∈ m.queue s px := by
        rw [h.queue_eq]
        exact List.mem_map.mpr ⟨i, hmem, rfl⟩
      exact le_total_of_mem hentry
    refine ⟨?_, ?_, lt_of_le_of_lt hqty (h.market.total_lt s px), ?_⟩
    · exact hprev ▸ hlast xs fun j hj => hlt j (List.mem_append_left _ hj)
    · exact hnext ▸ hhead ys fun j hj =>
        hlt j (List.mem_append_right _ (List.mem_cons_of_mem _ hj))
    · have hrange := h.px_nonneg hmem
      rw [h.px_eq s px i hmem]
      cases s <;> simp only [signed] <;> omega
  · rw [h.freeList.head_eq]
    exact hhead free h.freeList.bound
  · obtain ⟨s, px, hmem, -⟩ := (h.ids_iff id i).mp hget
    exact hlow i (h.line_lt hmem)

/-- A full slab is accepted and takes no further order. -/
theorem full_book_stuck : ∃ b, Shaped b ∧ b.check = .ok (.ok ()) ∧ FreeApart b ∧ Windowed b ∧
    b.apply (.add (.ofNat nilSlot) .bid 2 1) = .error .assertion := by
  obtain ⟨b₀, hnew⟩ := ok_of_not_panics (x := ArrayBook.new ⟨100, 4, 5⟩) (by decide +kernel)
  have hcfg : ValidConfig ⟨100, 4, 5⟩ := by constructor <;> decide
  have hwithin : Within .empty (EventReplays.fillOps nilSlot) := by
    intro pre hpre
    have hle := Market.live_applyAll_le .empty pre
    have hlen := hpre.length_le
    rw [EventReplays.fillOps, List.length_map, List.length_range] at hlen
    rw [Market.live_empty, Nat.zero_add] at hle
    exact hle.trans hlen
  obtain ⟨b, -, href⟩ := array_run (new_refines hcfg hnew) hwithin
  have hfilled := EventReplays.filled_fillOps (n := nilSlot) (by decide)
  obtain ⟨line, free, hrep⟩ := id href
  have hlive : b.slab.live = nilSlot := hrep.live_eq.symm.trans hfilled.live
  have hlen := hrep.freeList.live_eq
  have hcap := hrep.freeList.capacity_le
  have hnil : free = [] := List.eq_nil_of_length_eq_zero (by omega)
  subst hnil
  refine ⟨b, shaped_of_represents hrep fun i hi => absurd hi List.not_mem_nil,
    check_of_refines href, freeApart_of_refines href, windowed_of_refines href, ?_⟩
  have hfresh : (Market.empty.applyAll (EventReplays.fillOps nilSlot)).2.home (.ofNat nilSlot) =
      none := by
    rw [← Option.not_isSome_iff_eq_none, hfilled.home]
    decide
  have hfit : total ((Market.empty.applyAll (EventReplays.fillOps nilSlot)).2.queue .bid 2) + 1 <
      2 ^ 32 := by
    rw [hfilled.second]
    decide
  have hstuck : b.add (.ofNat nilSlot) .bid 2 1 = .error .assertion :=
    href.add_full (by decide) (by decide) hfit hfresh hfilled.live
  exact hstuck

/-- The check accepts a book whose free list is a linked slot, a book whose bitmap marks a level
past the window, so that no snapshot can be taken, and a full book, which takes no further order. -/
theorem accepted_book_diverges :
    (Shaped (smallBook 0 1#64) ∧ (smallBook 0 1#64).check = .ok (.ok ()) ∧
      Windowed (smallBook 0 1#64) ∧ freeSlots (smallBook 0 1#64) = .ok [0] ∧
      linkedSlots (smallBook 0 1#64) = .ok [0]) ∧
    (Shaped (smallBook 1 33#64) ∧ (smallBook 1 33#64).check = .ok (.ok ()) ∧
      FreeApart (smallBook 1 33#64) ∧ ∃ e, (smallBook 1 33#64).snapshot = .error e) ∧
    ∃ b, Shaped b ∧ b.check = .ok (.ok ()) ∧ FreeApart b ∧ Windowed b ∧
      b.apply (.add (.ofNat nilSlot) .bid 2 1) = .error .assertion := by
  refine ⟨⟨shaped_small (by decide) _, by decide +kernel, windowed_small 0, rfl, rfl⟩,
    ⟨shaped_small (by decide) _, by decide +kernel, ?_, error_of_panics (by decide +kernel)⟩,
    full_book_stuck⟩
  exact ⟨[1], [0], rfl, rfl, by decide⟩

end Lobcore.AcceptedBooks
