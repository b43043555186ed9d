import Lobcore.LevelGrids
import Lobcore.MarketViews

/-!
Walking one side of the array book. The bitmap cursor and the overflow map hand out
their levels best first; the merge of the two visits every non-empty level exactly once,
in order of priority.
-/
namespace Lobcore.PriceLevels

open Checked OrderTypes SortedMaps OrderSlab Bitmaps Markets.Market

namespace SideLevels

/-- The non-empty levels with their prices, best first. -/
structure IsWalk (sl : SideLevels) (g : Grid) (es : List (ℤ × Level)) : Prop where
  sorted : es.Pairwise fun a b => better sl.side a.1 b.1
  mem_iff : ∀ e, e ∈ es ↔ sl.at? (g.locate e.1) = some e.2 ∧ 0 < e.2.count

/-- The index `j` comes after `i` in order of priority. -/
def later (sl : SideLevels) (i j : ℕ) : Prop :=
  match sl.side with
  | .bid => j < i
  | .ask => i < j

/-- The first index of a set in order of priority. -/
def IsFirst (sl : SideLevels) (s : Set ℕ) : Option ℕ → Prop
  | none => s = ∅
  | some k => k ∈ s ∧ ∀ j ∈ s, j = k ∨ sl.later k j

/-- The bitmap cursor runs through these indices. -/
def Cursor (sl : SideLevels) : Option ℕ → List ℕ → Prop
  | o, [] => o = none
  | o, i :: is => o = some i ∧ ∃ o', sl.advance i = .ok o' ∧ Cursor sl o' is

/-- The entries of the overflow map, best first. -/
def overflowOrder (sl : SideLevels) (es : List (ℤ × Level)) : List (ℤ × Level) :=
  match sl.side with
  | .bid => es.reverse
  | .ask => es

/-- The entry of an array index. -/
def entry (sl : SideLevels) (g : Grid) (i : ℕ) : ℤ × Level := (g.price i, sl.levels.getD i .empty)

/-- What a walk needs of a side: the bitmap, of whatever window, marks the non-empty levels,
and the overflow map holds non-empty levels off the grid. -/
structure InStep (sl : SideLevels) (g : Grid) : Prop where
  length_eq : sl.levels.length = g.nLevels
  words_le : sl.bitmap.words.length ≤ 64
  summary_iff : ∀ k, k ∈ WordBits.bits sl.bitmap.summary ↔
    ∃ word, sl.bitmap.words[k]? = some word ∧ word ≠ 0#64
  bit_iff : ∀ i, i ∈ sl.bitmap.members ↔ ∃ l, sl.levels[i]? = some l ∧ 0 < l.count
  overflow_entry : ∀ px l, sl.overflow.get? px = some l → 0 < l.count ∧ g.locate px = .overflow px

variable {sl : SideLevels} {g : Grid}

theorem WF.inStep (h : sl.WF g) : sl.InStep g where
  length_eq := h.length_eq
  words_le := by
    have hlength := h.bitmap.length_eq
    have hbound := h.bitmap.bound
    unfold maxLevels at hbound
    omega
  summary_iff := h.bitmap.summary_iff
  bit_iff i := by
    constructor
    · intro hi
      have hlt : i < sl.levels.length := h.length_eq ▸ h.bitmap.lt_of_mem i hi
      have hget := List.getElem?_eq_getElem hlt
      exact ⟨_, hget, (h.bit_iff i _ hget).mp hi⟩
    · rintro ⟨l, hget, hcount⟩
      exact (h.bit_iff i l hget).mpr hcount
  overflow_entry px l hget := by
    obtain ⟨hcount, -, hloc⟩ := h.overflow_entry px l hget
    exact ⟨hcount, hloc⟩

variable (hg : g.WF) (h : sl.InStep g)

section Cursors

include h

theorem InStep.bitmap : sl.bitmap.WF (64 * sl.bitmap.words.length) where
  bound := by
    have hwords := h.words_le
    unfold maxLevels
    omega
  length_eq := by omega
  summary_iff := h.summary_iff
  lt_of_mem i hi := by
    obtain ⟨word, hword, -⟩ := hi
    have hlt := (List.getElem?_eq_some_iff.mp hword).1
    omega

theorem InStep.lt_of_mem {i : ℕ} (hi : i ∈ sl.bitmap.members) : i < g.nLevels := by
  obtain ⟨l, hget, -⟩ := (h.bit_iff i).mp hi
  exact h.length_eq ▸ (List.getElem?_eq_some_iff.mp hget).1

theorem InStep.level_iff {i : ℕ} {l : Level} (hget : sl.levels[i]? = some l) :
    i ∈ sl.bitmap.members ↔ 0 < l.count := by
  rw [h.bit_iff, hget]
  simp

omit h in
/-- The largest index comes first among bids. -/
theorem isFirst_of_isMax (hs : sl.side = .bid) {s : Set ℕ} {o : Option ℕ} (hmax : IsMax s o) :
    sl.IsFirst s o := by
  cases o with
  | none => exact hmax
  | some k =>
    refine ⟨hmax.1, fun j hj => ?_⟩
    have hle := hmax.2 hj
    simp only [later, hs]
    omega

omit h in
/-- The smallest index comes first among asks. -/
theorem isFirst_of_isMin (hs : sl.side = .ask) {s : Set ℕ} {o : Option ℕ} (hmin : IsMin s o) :
    sl.IsFirst s o := by
  cases o with
  | none => exact hmin
  | some k =>
    refine ⟨hmin.1, fun j hj => ?_⟩
    have hle := hmin.2 hj
    simp only [later, hs]
    omega

theorem InStep.isFirst_firstSet :
    ∃ o, sl.firstSet = .ok o ∧ sl.IsFirst sl.bitmap.members o := by
  cases hs : sl.side with
  | bid =>
    obtain ⟨o, ho, hmax⟩ := Bitmap.max_spec h.bitmap
    exact ⟨o, by simp [firstSet, hs, ho], isFirst_of_isMax hs hmax⟩
  | ask =>
    obtain ⟨o, ho, hmin⟩ := Bitmap.min_spec h.bitmap
    exact ⟨o, by simp [firstSet, hs, ho], isFirst_of_isMin hs hmin⟩

theorem InStep.isFirst_advance {i : ℕ} (hi : i ∈ sl.bitmap.members) :
    ∃ o, sl.advance i = .ok o ∧ sl.IsFirst {j | j ∈ sl.bitmap.members ∧ sl.later i j} o := by
  have hlt := h.bitmap.lt_of_mem i hi
  cases hs : sl.side with
  | bid =>
    obtain ⟨o, ho, hmax⟩ := Bitmap.prevSet_spec h.bitmap hlt
    exact ⟨o, by simp [advance, hs, ho], isFirst_of_isMax hs (by simpa only [later, hs] using hmax)⟩
  | ask =>
    obtain ⟨o, ho, hmin⟩ := Bitmap.nextSet_spec h.bitmap hlt
    exact ⟨o, by simp [advance, hs, ho], isFirst_of_isMin hs (by simpa only [later, hs] using hmin)⟩

omit h in
theorem later_trans {i j k : ℕ} (hij : sl.later i j) (hjk : sl.later j k) : sl.later i k := by
  unfold later at *
  cases hs : sl.side <;> simp only [hs] at * <;> omega

/-- How many indices are still to come after one, at most; it falls with the cursor. -/
def rank (sl : SideLevels) (g : Grid) (i : ℕ) : ℕ :=
  match sl.side with
  | .bid => i
  | .ask => g.nLevels - i

omit h in
theorem rank_lt {i j : ℕ} (hij : sl.later i j) (hj : j < g.nLevels) :
    sl.rank g j < sl.rank g i := by
  unfold later at hij
  unfold rank
  cases hs : sl.side <;> simp only [hs] at hij ⊢ <;> omega

/-- From an occupied index the cursor visits it and the later occupied ones, in order. -/
theorem InStep.cursor_at {i : ℕ} (hi : i ∈ sl.bitmap.members) :
    ∃ is, sl.Cursor (some i) is ∧ is.Pairwise sl.later ∧
      ∀ j, j ∈ is ↔ j ∈ sl.bitmap.members ∧ (j = i ∨ sl.later i j) := by
  induction hr : sl.rank g i using Nat.strong_induction_on generalizing i with
  | _ r ih =>
    subst hr
    obtain ⟨o, hadv, hfirst⟩ := h.isFirst_advance hi
    cases o with
    | none =>
      refine ⟨[i], ⟨rfl, none, hadv, rfl⟩, List.pairwise_singleton .., fun j => ?_⟩
      rw [List.mem_singleton]
      refine ⟨fun hj => ⟨hj ▸ hi, Or.inl hj⟩, fun hj => hj.2.elim id fun hl => ?_⟩
      have hmem : j ∈ {j | j ∈ sl.bitmap.members ∧ sl.later i j} := ⟨hj.1, hl⟩
      rw [show {j | j ∈ sl.bitmap.members ∧ sl.later i j} = ∅ from hfirst] at hmem
      exact absurd hmem (Set.notMem_empty j)
    | some k =>
      obtain ⟨⟨hk, hik⟩, hleast⟩ := hfirst
      obtain ⟨is, hcur, hpair, hmem⟩ := ih _ (rank_lt hik (h.lt_of_mem hk)) hk rfl
      have hnext : ∀ j, j ∈ is ↔ j ∈ sl.bitmap.members ∧ sl.later i j := by
        intro j
        rw [hmem]
        constructor
        · rintro ⟨hj, rfl | hkj⟩
          · exact ⟨hj, hik⟩
          · exact ⟨hj, later_trans hik hkj⟩
        · exact fun ⟨hj, hij⟩ => ⟨hj, hleast j ⟨hj, hij⟩⟩
      refine ⟨i :: is, ⟨rfl, some k, hadv, hcur⟩, ?_, fun j => ?_⟩
      · exact List.pairwise_cons.mpr ⟨fun j hj => ((hnext j).mp hj).2, hpair⟩
      · rw [List.mem_cons, hnext]
        constructor
        · rintro (rfl | ⟨hj, hij⟩)
          · exact ⟨hi, Or.inl rfl⟩
          · exact ⟨hj, Or.inr hij⟩
        · rintro ⟨hj, rfl | hij⟩
          · exact Or.inl rfl
          · exact Or.inr ⟨hj, hij⟩

/-- From the start the cursor visits every occupied index. -/
theorem InStep.cursor_all : ∃ o is, sl.firstSet = .ok o ∧ sl.Cursor o is ∧ is.Pairwise sl.later ∧
    ∀ j, j ∈ is ↔ j ∈ sl.bitmap.members := by
  obtain ⟨o, ho, hfirst⟩ := h.isFirst_firstSet
  cases o with
  | none =>
    refine ⟨none, [], ho, rfl, List.Pairwise.nil, fun j => ?_⟩
    simp [show sl.bitmap.members = ∅ from hfirst]
  | some k =>
    obtain ⟨is, hcur, hpair, hmem⟩ := h.cursor_at hfirst.1
    exact ⟨some k, is, ho, hcur, hpair, fun j =>
      (hmem j).trans ⟨And.left, fun hj => ⟨hj, hfirst.2 j hj⟩⟩⟩

end Cursors

/-! The merge iterator. -/

/-- The array entry goes first unless the overflow entry is strictly better. -/
def arrayFirst (sl : SideLevels) (a o : ℤ × Level) : Bool := !sl.overflowFirst a o

/-- The iterator is about to hand out these entries. -/
def Yields (sl : SideLevels) (g : Grid) (it : BestFirst) (es : List (ℤ × Level)) : Prop :=
  ∃ is ovf, sl.Cursor (it.prime sl.side).arrCursor is ∧ (∀ i ∈ is, i < g.nLevels) ∧
    (it.prime sl.side).ovfPeek = ovf.head? ∧ sl.overflowOrder (it.prime sl.side).ovf = ovf.tail ∧
    es = (is.map (sl.entry g)).merge ovf sl.arrayFirst

theorem overflowOrder_pullOvf (sl : SideLevels) (it : BestFirst) :
    (it.pullOvf sl.side).ovfPeek = (sl.overflowOrder it.ovf).head? ∧
      sl.overflowOrder (it.pullOvf sl.side).ovf = (sl.overflowOrder it.ovf).tail := by
  unfold overflowOrder BestFirst.pullOvf
  cases sl.side <;> simp

theorem pullOvf_arrCursor (it : BestFirst) (s : Side) :
    (it.pullOvf s).arrCursor = it.arrCursor ∧ (it.pullOvf s).primed = it.primed := by
  cases s <;> exact ⟨rfl, rfl⟩

theorem prime_primed (it : BestFirst) (s : Side) : (it.prime s).primed = true := by
  unfold BestFirst.prime
  split <;> simp_all

theorem prime_of_primed {it : BestFirst} {s : Side} (hp : it.primed = true) : it.prime s = it :=
  if_pos hp

theorem next_prime (it : BestFirst) : it.next sl g = (it.prime sl.side).next sl g := by
  unfold BestFirst.next
  rw [prime_of_primed (prime_primed it sl.side)]

include hg h in
theorem InStep.entryAt_some {i : ℕ} (hi : i < g.nLevels) :
    sl.entryAt g (some i) = .ok (some (sl.entry g i)) := by
  have hlt : i < sl.levels.length := h.length_eq ▸ hi
  simp [entryAt, hg.pxOf_ok hi, index_ok (List.getElem?_eq_getElem hlt), entry, hlt]

include hg h in
/-- One call of `next` hands out the first entry of the merge. -/
theorem InStep.next_yields {it : BestFirst} {es : List (ℤ × Level)} (hy : sl.Yields g it es) :
    ∃ it', it.next sl g = .ok (es.head?, it') ∧ sl.Yields g it' es.tail := by
  obtain ⟨is, ovf, hcur, his, hpeek, hovf, rfl⟩ := hy
  have hp := prime_primed it sl.side
  rw [next_prime]
  generalize it.prime sl.side = it at *
  have hstart : it.prime sl.side = it := prime_of_primed hp
  have hpull := sl.overflowOrder_pullOvf it
  have hkeep := pullOvf_arrCursor it sl.side
  cases is with
  | nil =>
    have hnone : it.arrCursor = none := hcur
    cases ovf with
    | nil =>
      refine ⟨it, ?_, [], [], ?_⟩
      · simp [BestFirst.next, hstart, hnone, entryAt, show it.ovfPeek = none from hpeek]
      · rw [prime_of_primed hp]
        exact ⟨hcur, his, hpeek, hovf, by simp⟩
    | cons o ovf =>
      refine ⟨it.pullOvf sl.side, ?_, [], ovf, ?_⟩
      · simp [BestFirst.next, hstart, hnone, entryAt, show it.ovfPeek = some o from hpeek]
      · rw [prime_of_primed (hkeep.2.trans hp), hkeep.1, hpull.1, hpull.2, hovf]
        exact ⟨hcur, his, rfl, rfl, by simp⟩
  | cons i is =>
    obtain ⟨hsome, o', hadv, hcur'⟩ := hcur
    have hi := his i (List.mem_cons_self ..)
    have his' : ∀ j ∈ is, j < g.nLevels := fun j hj => his j (List.mem_cons_of_mem _ hj)
    have hentry := h.entryAt_some hg hi
    cases ovf with
    | nil =>
      refine ⟨{ it with arrCursor := o' }, ?_, is, [], ?_⟩
      · simp [BestFirst.next, hstart, hsome, hentry, show it.ovfPeek = none from hpeek, hadv]
      · rw [show BestFirst.prime { it with arrCursor := o' } sl.side =
          { it with arrCursor := o' } from
          prime_of_primed hp]
        exact ⟨hcur', his', hpeek, hovf, by simp⟩
    | cons o ovf =>
      by_cases hfirst : sl.overflowFirst (sl.entry g i) o = true
      · have hcons := List.cons_merge_cons_neg sl.arrayFirst (is.map (sl.entry g)) ovf
          (a := sl.entry g i) (b := o) (by simp [arrayFirst, hfirst])
        refine ⟨it.pullOvf sl.side, ?_, i :: is, ovf, ?_⟩
        · simp [BestFirst.next, hstart, hsome, hentry, show it.ovfPeek = some o from hpeek, hfirst,
            hcons]
        · rw [prime_of_primed (hkeep.2.trans hp), hkeep.1, hpull.1, hpull.2, hovf]
          exact ⟨⟨hsome, o', hadv, hcur'⟩, his, rfl, rfl, by simp [hcons]⟩
      · have hcons := List.cons_merge_cons_pos sl.arrayFirst (is.map (sl.entry g)) ovf
          (a := sl.entry g i) (b := o) (by simp [arrayFirst, hfirst])
        refine ⟨{ it with arrCursor := o' }, ?_, is, o :: ovf, ?_⟩
        · simp [BestFirst.next, hstart, hsome, hentry, show it.ovfPeek = some o from hpeek, hfirst,
            hadv, hcons]
        · rw [show BestFirst.prime { it with arrCursor := o' } sl.side =
            { it with arrCursor := o' } from
          prime_of_primed hp]
          exact ⟨hcur', his', hpeek, hovf, by simp [hcons]⟩

include hg h in
theorem InStep.handsOut {it : BestFirst} {es : List (ℤ × Level)} (hy : sl.Yields g it es) :
    HandsOut (fun it => it.next sl g) it es :=
  .of_keeps (fun _ _ hy => h.next_yields hg hy) hy

theorem collect_ok {it : BestFirst} {es : List (ℤ × Level)} {fuel : ℕ}
    (hout : HandsOut (fun it => it.next sl g) it es) (hfuel : es.length < fuel) :
    BestFirst.collect sl g fuel it = .ok es := by
  induction fuel generalizing it es with
  | zero => omega
  | succ fuel ih =>
    cases hout with
    | done hnext => simp [BestFirst.collect, hnext]
    | item hnext hrest => simp [BestFirst.collect, hnext, ih hrest (by simpa using hfuel)]

theorem collectTake_ok {it : BestFirst} {es : List (ℤ × Level)} (depth : ℕ)
    (hout : HandsOut (fun it => it.next sl g) it es) :
    BestFirst.collectTake sl g depth it = .ok (es.take depth) := by
  induction depth generalizing it es with
  | zero => rfl
  | succ depth ih =>
    cases hout with
    | done hnext => simp [BestFirst.collectTake, hnext]
    | item hnext hrest => simp [BestFirst.collectTake, hnext, ih hrest]

/-- The non-empty levels with their prices: the array by index, then the overflow map. -/
def occupied (sl : SideLevels) (g : Grid) : List (ℤ × Level) :=
  ((List.range g.nLevels).filter fun i => 0 < (sl.levels.getD i .empty).count).map (sl.entry g) ++
    sl.overflow.entries

theorem occupied_length_le : (sl.occupied g).length ≤ g.nLevels + sl.overflow.length := by
  have hfilter := List.length_filter_le (fun i => decide (0 < (sl.levels.getD i .empty).count))
    (List.range g.nLevels)
  rw [List.length_range] at hfilter
  rw [occupied, List.length_append, List.length_map, SortedMap.length]
  omega

section Walks

variable {is : List ℕ} (hpair : is.Pairwise sl.later)
  (hmem : ∀ j, j ∈ is ↔ j ∈ sl.bitmap.members)

theorem mem_overflowOrder {e : ℤ × Level} :
    e ∈ sl.overflowOrder sl.overflow.entries ↔ sl.overflow.get? e.1 = some e.2 := by
  rw [SortedMap.get?_eq_some_iff]
  unfold overflowOrder
  cases sl.side <;> simp

theorem overflowOrder_sorted (sl : SideLevels) : (sl.overflowOrder sl.overflow.entries).Pairwise
    fun a b => better sl.side a.1 b.1 := by
  unfold overflowOrder
  cases hs : sl.side with
  | bid => exact List.pairwise_reverse.mpr sl.overflow.ascending
  | ask => exact sl.overflow.ascending

include hg in
theorem entries_sorted (sl : SideLevels) (hpair : is.Pairwise sl.later) :
    (is.map (sl.entry g)).Pairwise fun a b => better sl.side a.1 b.1 := by
  refine List.pairwise_map.mpr (hpair.imp fun {i j} hij => ?_)
  unfold later at hij
  cases hs : sl.side <;> simp only [hs] at hij <;> exact hg.price_lt_price.mpr hij

include hg h hmem in
theorem InStep.mem_entries {e : ℤ × Level} :
    e ∈ is.map (sl.entry g) ↔
      ∃ i, g.locate e.1 = .inRange i ∧ sl.levels[i]? = some e.2 ∧ 0 < e.2.count := by
  simp only [List.mem_map, hmem]
  constructor
  · rintro ⟨i, hi, rfl⟩
    have hlt := h.lt_of_mem hi
    have hget : sl.levels[i]? = some (sl.levels.getD i .empty) := by
      simp [show i < sl.levels.length from h.length_eq ▸ hlt]
    exact ⟨i, hg.locate_price hlt, hget, (h.level_iff hget).mp hi⟩
  · rintro ⟨i, hloc, hget, hcount⟩
    refine ⟨i, (h.level_iff hget).mpr hcount, ?_⟩
    obtain ⟨-, hpx⟩ := hg.of_locate_inRange hloc
    simp [entry, ← hpx, hget]

theorem arrayFirst_iff {a o : ℤ × Level} :
    sl.arrayFirst a o = true ↔ ¬ better sl.side o.1 a.1 := by
  unfold arrayFirst overflowFirst
  cases sl.side <;> simp [better]

theorem better_of_ne {s : Side} {a b : ℤ} (hab : ¬ better s b a) (hne : a ≠ b) : better s a b := by
  cases s <;> simp only [better] at * <;> omega

theorem ne_of_better {s : Side} {a b : ℤ} (hab : better s a b) : a ≠ b := by
  cases s <;> simp only [better] at * <;> omega

include hg h hpair hmem in
/-- No price is both in the array and in the overflow map, so the merge is strictly sorted. -/
theorem InStep.merge_sorted : ((is.map (sl.entry g)).merge (sl.overflowOrder sl.overflow.entries)
    sl.arrayFirst).Pairwise fun a b => better sl.side a.1 b.1 := by
  have harr := sl.entries_sorted hg hpair
  have hovf := sl.overflowOrder_sorted
  have hle : ∀ {l : List (ℤ × Level)}, (l.Pairwise fun a b => better sl.side a.1 b.1) →
      l.Pairwise fun a b => sl.arrayFirst a b = true := fun hl =>
    hl.imp fun hab => arrayFirst_iff.mpr (better_asymm _ _ _ hab)
  have hmerge := List.pairwise_merge
    (fun a b c (hab : sl.arrayFirst a b) (hbc : sl.arrayFirst b c) => by
      rw [arrayFirst_iff] at *
      cases hs : sl.side <;> simp only [hs, better] at * <;> omega)
    (fun a b => by
      rw [Bool.or_eq_true, arrayFirst_iff, arrayFirst_iff]
      cases sl.side <;> simp only [better] <;> omega)
    _ _ (hle harr) (hle hovf)
  have hne : ((is.map (sl.entry g)).merge (sl.overflowOrder sl.overflow.entries)
      sl.arrayFirst).Pairwise fun a b => a.1 ≠ b.1 := by
    refine ((List.merge_perm_append _).pairwise_iff fun hab => Ne.symm hab).mpr ?_
    refine List.pairwise_append.mpr ⟨harr.imp ne_of_better, hovf.imp ne_of_better, ?_⟩
    intro a ha b hb heq
    obtain ⟨i, hloc, -, -⟩ := (h.mem_entries hg hmem).mp ha
    obtain ⟨-, hloc'⟩ := h.overflow_entry _ _ (mem_overflowOrder.mp hb)
    rw [heq, hloc'] at hloc
    simp at hloc
  exact (hmerge.and hne).imp fun hab => better_of_ne (arrayFirst_iff.mp hab.1) hab.2

include hg h hpair hmem in
/-- The merge of the occupied indices and the overflow entries is the walk. -/
theorem InStep.isWalk_merge : sl.IsWalk g ((is.map (sl.entry g)).merge
    (sl.overflowOrder sl.overflow.entries) sl.arrayFirst) where
  sorted := h.merge_sorted hg hpair hmem
  mem_iff e := by
    rw [List.mem_merge, h.mem_entries hg hmem, mem_overflowOrder]
    constructor
    · rintro (⟨i, hloc, hget, hcount⟩ | hget)
      · exact ⟨by rw [hloc]; exact hget, hcount⟩
      · obtain ⟨hcount, hloc⟩ := h.overflow_entry _ _ hget
        exact ⟨by rw [hloc]; exact hget, hcount⟩
    · rintro ⟨hat, hcount⟩
      cases hloc : g.locate e.1 with
      | inRange i => exact Or.inl ⟨i, rfl, by rwa [hloc] at hat, hcount⟩
      | overflow p =>
        obtain rfl := Grid.of_locate_overflow hloc
        exact Or.inr (by rwa [hloc] at hat)

include hg h in
theorem InStep.best_eq {o : Option ℕ} (ho : sl.firstSet = .ok o) (hcur : sl.Cursor o is)
    (hlt : ∀ i ∈ is, i < g.nLevels) :
    sl.best g = .ok ((is.map (sl.entry g)).merge (sl.overflowOrder sl.overflow.entries)
      sl.arrayFirst).head? := by
  have hextreme : sl.overflowBest = (sl.overflowOrder sl.overflow.entries).head? := by
    unfold overflowBest overflowOrder
    cases sl.side <;> simp
  unfold best
  rw [hextreme, ho, ok_bind]
  cases is with
  | nil =>
    rw [show o = none from hcur]
    cases sl.overflowOrder sl.overflow.entries <;> simp [entryAt]
  | cons i is =>
    rw [hcur.1, h.entryAt_some hg (hlt i (List.mem_cons_self ..)), ok_bind]
    cases sl.overflowOrder sl.overflow.entries with
    | nil => simp
    | cons e ovf =>
      by_cases hfirst : sl.overflowFirst (sl.entry g i) e = true
      · rw [List.map_cons, List.cons_merge_cons_neg _ _ _ (by simp [arrayFirst, hfirst])]
        simp [hfirst]
      · rw [List.map_cons, List.cons_merge_cons_pos _ _ _ (by simp [arrayFirst, hfirst])]
        simp [hfirst]

include h hpair hmem in
/-- The indices the cursor visits are those of the non-empty levels. -/
theorem InStep.indices_perm : is.Perm
    ((List.range g.nLevels).filter fun i => 0 < (sl.levels.getD i .empty).count) := by
  have hnodup : is.Nodup := hpair.imp fun {i j} hij => by
    unfold later at hij
    cases hs : sl.side <;> simp only [hs] at hij <;> omega
  refine (List.perm_ext_iff_of_nodup hnodup (List.nodup_range.filter _)).mpr fun i => ?_
  rw [hmem, List.mem_filter, List.mem_range, decide_eq_true_eq]
  have hlevel : ∀ hi : i < g.nLevels, i ∈ sl.bitmap.members ↔
      0 < (sl.levels.getD i .empty).count := fun hi =>
    h.level_iff (by simp [show i < sl.levels.length from h.length_eq ▸ hi])
  constructor
  · intro hi
    have hlt := h.lt_of_mem hi
    exact ⟨hlt, (hlevel hlt).mp hi⟩
  · exact fun ⟨hlt, hcount⟩ => (hlevel hlt).mpr hcount

include h hpair hmem in
theorem InStep.merge_perm : ((is.map (sl.entry g)).merge (sl.overflowOrder sl.overflow.entries)
    sl.arrayFirst).Perm (sl.occupied g) := by
  have hovf : (sl.overflowOrder sl.overflow.entries).Perm sl.overflow.entries := by
    unfold overflowOrder
    cases sl.side with
    | bid => exact List.reverse_perm _
    | ask => exact List.Perm.refl _
  exact (List.merge_perm_append _).trans (((h.indices_perm hpair hmem).map _).append hovf)

include hg h in
/-- The iterator hands out the walk, each non-empty level once, and `best` reads its head. -/
theorem InStep.iterates : ∃ it es, sl.iterBestFirst = .ok it ∧
    HandsOut (fun it => it.next sl g) it es ∧ sl.IsWalk g es ∧ es.Perm (sl.occupied g) ∧
    sl.best g = .ok es.head? := by
  obtain ⟨o, is, ho, hcur, hpair, hmem⟩ := h.cursor_all
  have hlt : ∀ i ∈ is, i < g.nLevels := fun i hi => h.lt_of_mem ((hmem i).mp hi)
  have hpull := sl.overflowOrder_pullOvf ⟨o, sl.overflow.entries, none, false⟩
  have hyields : sl.Yields g ⟨o, sl.overflow.entries, none, false⟩
      ((is.map (sl.entry g)).merge (sl.overflowOrder sl.overflow.entries) sl.arrayFirst) := by
    refine ⟨is, sl.overflowOrder sl.overflow.entries, ?_, hlt, hpull.1, hpull.2, rfl⟩
    rw [show (BestFirst.prime ⟨o, sl.overflow.entries, none, false⟩ sl.side).arrCursor = o from
      (pullOvf_arrCursor _ _).1]
    exact hcur
  exact ⟨_, _, by simp [iterBestFirst, ho], h.handsOut hg hyields, h.isWalk_merge hg hpair hmem,
    h.merge_perm hpair hmem, h.best_eq hg ho hcur hlt⟩

include hg h in
/-- Walking a side, whole or in part, and asking for its best level all agree: they read
the one sorted list of its non-empty levels. -/
theorem InStep.walk : ∃ es, sl.IsWalk g es ∧ sl.bestFirst g = .ok es ∧ sl.best g = .ok es.head? ∧
    (∀ depth, sl.bestFirstTake g depth = .ok (es.take depth)) ∧
    sl.ascending g = .ok (match sl.side with | .bid => es.reverse | .ask => es) := by
  obtain ⟨it, es, hit, hout, hwalk, hperm, hbest⟩ := h.iterates hg
  have hlength : es.length < sl.levels.length + sl.overflow.length + 1 := by
    rw [hperm.length_eq, h.length_eq]
    exact Nat.lt_succ_of_le occupied_length_le
  have hall : sl.bestFirst g = .ok es := by
    simp [bestFirst, hit, collect_ok hout hlength]
  refine ⟨es, hwalk, hall, hbest, fun depth => ?_, ?_⟩
  · simp [bestFirstTake, hit, collectTake_ok depth hout]
  · unfold ascending
    cases sl.side <;> simp [hall]

end Walks

end SideLevels

end Lobcore.PriceLevels
