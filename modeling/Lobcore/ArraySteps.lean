import Lobcore.ArrayReps

/-!
The three mutations of the array book keep the representation: a new order linked at the
tail of its level, an order unlinked and its slot freed, and an order reduced in place.
Each changes one line; the other lines, their cells and their levels stay as they are.
-/
namespace Lobcore.ArrayBooks

open Checked LinkedCells OrderTypes SortedMaps OrderSlab PriceLevels Markets

theorem getLastD_mem {xs : List ℕ} (hne : xs.getLastD nilSlot ≠ nilSlot) :
    xs.getLastD nilSlot ∈ xs :=
  getLastD_mem_of_ne fun hnil => hne (by rw [hnil]; rfl)

theorem headD_mem {xs : List ℕ} (hne : xs.headD nilSlot ≠ nilSlot) : xs.headD nilSlot ∈ xs :=
  headD_mem_of_ne fun hnil => hne (by rw [hnil]; rfl)

theorem Lines.mem_set {line : Lines} {s : Side} {px : ℤ} {xs : List ℕ} {j : ℕ} :
    (∃ s' px', j ∈ line.set s px xs s' px') ↔
      j ∈ xs ∨ ∃ s' px', ¬ (s' = s ∧ px' = px) ∧ j ∈ line s' px' := by
  constructor
  · rintro ⟨s', px', hj⟩
    by_cases hq : s' = s ∧ px' = px
    · obtain ⟨rfl, rfl⟩ := hq
      exact Or.inl (Lines.set_self line s' px' xs ▸ hj)
    · exact Or.inr ⟨s', px', hq, Lines.set_of_ne line xs hq ▸ hj⟩
  · rintro (hj | ⟨s', px', hq, hj⟩)
    · exact ⟨s, px, (Lines.set_self line s px xs).symm ▸ hj⟩
    · exact ⟨s', px', (Lines.set_of_ne line xs hq).symm ▸ hj⟩

namespace Represents

variable {b : ArrayBook} {m : Market} {line : Lines} {free : List ℕ} (h : Represents b m line free)

include h

/-- One line, its level and its queue replaced, with every other line left alone. -/
theorem change_line {m' : Market} {s : Side} {px : ℤ} {xs free' : List ℕ} {sl : SideLevels}
    {slab : Slab} {ids : IdMap} (hwf : m'.WF)
    (hqueue : m'.queue = m.setQueue s px (xs.map slab.order))
    (hside : sl.side = s) (hsl : sl.WF b.grid)
    (hlevel : ∀ k, sl.levelAt k = if k = b.grid.locate px then lineLevel xs (xs.map slab.order)
      else (b.side s).levelAt k)
    (hcell : ∀ s' px', ¬ (s' = s ∧ px' = px) → ∀ j ∈ line s' px', slab.cell j = b.slab.cell j)
    (hpx : ∀ j ∈ xs, (slab.cell j).px = signed s px)
    (hlinked : Linked (fun i => (slab.cell i).prev)
      (fun i => (slab.cell i).next) nilSlot xs nilSlot)
    (hids : ∀ id k, ids.get? id = some k ↔ (k ∈ xs ∧ (slab.cell k).id = id) ∨
      ∃ s' px', ¬ (s' = s ∧ px' = px) ∧ k ∈ line s' px' ∧ (b.slab.cell k).id = id)
    (hlength : ids.length = slab.live) (hfree : slab.FreeList free')
    (hused : ∀ j, (j ∈ xs ∨ ∃ s' px', ¬ (s' = s ∧ px' = px) ∧ j ∈ line s' px') ↔
      j < slab.slots.length ∧ j ∉ free') :
    Represents (b.withParts s sl slab ids) m' (line.set s px xs) free' where
  market := hwf
  grid := by simpa using h.grid
  side_eq s' := by
    by_cases hs : s' = s
    · simpa [hs] using hside
    · simpa [hs] using h.side_eq s'
  side_wf s' := by
    by_cases hs : s' = s
    · simpa [hs] using hsl
    · simpa [hs] using h.side_wf s'
  level_eq s' px' := by
    rw [side_withParts, grid_withParts, hqueue]
    by_cases hs : s' = s
    · subst hs
      rw [if_pos rfl, hlevel]
      by_cases hp : px' = px
      · subst hp
        rw [if_pos rfl, Lines.set_self, Market.setQueue_self]
      · have hne : ¬ (s' = s' ∧ px' = px) := fun hc => hp hc.2
        rw [if_neg fun heq => hp (h.grid.locate_inj heq), Lines.set_of_ne _ _ hne,
          Market.setQueue_of_ne _ _ hne, h.level_eq]
    · have hne : ¬ (s' = s ∧ px' = px) := fun hc => hs hc.1
      rw [if_neg hs, Lines.set_of_ne _ _ hne, Market.setQueue_of_ne _ _ hne, h.level_eq]
  queue_eq s' px' := by
    rw [hqueue, slab_withParts]
    by_cases hq : s' = s ∧ px' = px
    · obtain ⟨rfl, rfl⟩ := hq
      rw [Lines.set_self, Market.setQueue_self]
    · rw [Lines.set_of_ne _ _ hq, Market.setQueue_of_ne _ _ hq, h.queue_eq]
      exact List.map_congr_left fun j hj => by simp only [Slab.order, hcell s' px' hq j hj]
  px_eq s' px' j hj := by
    rw [slab_withParts]
    by_cases hq : s' = s ∧ px' = px
    · obtain ⟨rfl, rfl⟩ := hq
      exact hpx j (Lines.set_self line s' px' xs ▸ hj)
    · rw [Lines.set_of_ne _ _ hq] at hj
      rw [hcell s' px' hq j hj, h.px_eq s' px' j hj]
  linked s' px' := by
    rw [slab_withParts]
    by_cases hq : s' = s ∧ px' = px
    · obtain ⟨rfl, rfl⟩ := hq
      rw [Lines.set_self]
      exact hlinked
    · rw [Lines.set_of_ne _ _ hq]
      exact (h.linked s' px').congr (fun j hj => by rw [hcell s' px' hq j hj])
        fun j hj => by rw [hcell s' px' hq j hj]
  ids_iff id k := by
    rw [ids_withParts, slab_withParts, hids]
    constructor
    · rintro (⟨hk, hid⟩ | ⟨s', px', hq, hk, hid⟩)
      · exact ⟨s, px, by rwa [Lines.set_self], hid⟩
      · exact ⟨s', px', by rwa [Lines.set_of_ne _ _ hq], by rwa [hcell s' px' hq k hk]⟩
    · rintro ⟨s', px', hk, hid⟩
      by_cases hq : s' = s ∧ px' = px
      · obtain ⟨rfl, rfl⟩ := hq
        exact Or.inl ⟨Lines.set_self line s' px' xs ▸ hk, hid⟩
      · rw [Lines.set_of_ne _ _ hq] at hk
        exact Or.inr ⟨s', px', hq, hk, by rwa [hcell s' px' hq k hk] at hid⟩
  ids_length := hlength
  freeList := hfree
  used_iff j := Lines.mem_set.trans (hused j)

theorem tail_ne {s : Side} {px : ℤ} (hne : line s px ≠ []) :
    (line s px).getLastD nilSlot ≠ nilSlot := h.ne_nilSlot (getLastD_mem_of_ne hne)

/-- The slots in use, one line apart from the others. -/
theorem used_split (s : Side) (px : ℤ) (j : ℕ) :
    (j ∈ line s px ∨ ∃ s' px', ¬ (s' = s ∧ px' = px) ∧ j ∈ line s' px') ↔
      j < b.slab.slots.length ∧ j ∉ free := by
  rw [← h.used_iff]
  constructor
  · rintro (hj | ⟨s', px', -, hj⟩)
    · exact ⟨s, px, hj⟩
    · exact ⟨s', px', hj⟩
  · rintro ⟨s', px', hj⟩
    by_cases hq : s' = s ∧ px' = px
    · obtain ⟨rfl, rfl⟩ := hq
      exact Or.inl hj
    · exact Or.inr ⟨s', px', hq, hj⟩

theorem ids_split (s : Side) (px : ℤ) {id : OrderId} {k : ℕ} :
    b.ids.get? id = some k ↔ (k ∈ line s px ∧ (b.slab.cell k).id = id) ∨
      ∃ s' px', ¬ (s' = s ∧ px' = px) ∧ k ∈ line s' px' ∧ (b.slab.cell k).id = id := by
  rw [h.ids_iff]
  constructor
  · rintro ⟨s', px', hk, hid⟩
    by_cases hq : s' = s ∧ px' = px
    · obtain ⟨rfl, rfl⟩ := hq
      exact Or.inl ⟨hk, hid⟩
    · exact Or.inr ⟨s', px', hq, hk, hid⟩
  · rintro (⟨hk, hid⟩ | ⟨s', px', -, hk, hid⟩)
    · exact ⟨s, px, hk, hid⟩
    · exact ⟨s', px', hk, hid⟩

/-- An allocated slot stood in no line. -/
theorem fresh_slot {i : ℕ} (hsrc : free = i :: free.tail ∨ free = [] ∧ i = b.slab.slots.length)
    {s : Side} {px : ℤ} : i ∉ line s px := by
  intro hmem
  rcases hsrc with hf | ⟨-, rfl⟩
  · exact h.line_not_free hmem (hf ▸ List.mem_cons_self ..)
  · exact absurd (h.line_lt hmem) (lt_irrefl _)

/-- A slot allocated for a new order and linked at the tail of its level. -/
theorem push {id : OrderId} {s : Side} {px : ℤ} {qty : ℕ} (hid : m.home id = none)
    (hwf : (m.push id s px qty).WF) (hroom : b.slab.live < nilSlot) :
    ∃ i slab₁ sl' slab', b.slab.alloc id qty (signed s px) = .ok (i, slab₁) ∧
      linkTail (b.side s) slab₁ (b.grid.locate px) i = .ok (sl', slab') ∧
      Represents (b.withParts s sl' slab' (b.ids.insert id i)) (m.push id s px qty)
        (line.set s px (line s px ++ [i])) free.tail := by
  have hnew : (m.push id s px qty).queue s px = m.queue s px ++ [(id, qty)] := by
    simp [Market.push, Market.setQueue]
  have hpx := hwf.px_range s px (by simp [hnew])
  have hqty : 0 < qty := hwf.qty_pos s px (id, qty) (by simp [hnew])
  have htotal : total (m.queue s px) + qty < 2 ^ 32 := by
    simpa [hnew] using hwf.total_lt s px
  have hlen : (line s px).length ≤ total (m.queue s px) := by
    have := length_le_total (h.market.qty_pos s px)
    rwa [h.queue_eq, List.length_map, ← h.queue_eq] at this
  obtain ⟨i, slab₁, halloc, hfree₁, hi, hlive₁, hsrc, hlt₁, hcell₁⟩ :=
    h.freeList.alloc hroom id qty (signed s px)
  have hout : ∀ {s' px' j}, j ∈ line s' px' → j ≠ i := fun hj heq =>
    h.fresh_slot hsrc (heq ▸ hj)
  have hcell_of : ∀ {s' px' j}, j ∈ line s' px' → slab₁.cell j = b.slab.cell j := fun hj => by
    rw [hcell₁, if_neg (hout hj)]
  have hcell_i : slab₁.cell i = ⟨id, qty, signed s px, nilSlot, nilSlot⟩ := by
    rw [hcell₁, if_pos rfl]
  obtain ⟨sl', slab', hlink, hwf', hside, hat, hlen', hhead', hlive', hcell'⟩ :=
    linkTail_spec h.grid (h.side_wf s) ((Market.lowest_nonneg s).trans hpx.1)
      (h.level_eq s px) hi (by rw [hcell_i])
      (fun hne => by
        have hmem := getLastD_mem hne
        exact ⟨(hlt₁ _).mpr (Or.inr (h.line_lt hmem)), hout hmem⟩)
      (by rw [hcell_i]; exact htotal)
      (by simp only [lineLevel]; omega)
  rw [hcell_i] at hat
  replace hat : ∀ k, sl'.levelAt k = if k = b.grid.locate px then
      ⟨if (line s px).getLastD nilSlot = nilSlot then i else (line s px).headD nilSlot, i,
        total (m.queue s px) + qty, (line s px).length + 1⟩ else (b.side s).levelAt k := hat
  replace hcell' : ∀ j, slab'.cell j = (slab₁.cell j).relink
      (if j = i then (line s px).getLastD nilSlot else (slab₁.cell j).prev)
      (if j = (line s px).getLastD nilSlot ∧ (line s px).getLastD nilSlot ≠ nilSlot then i
        else (slab₁.cell j).next) := hcell'
  have horder : ∀ {s' px' j}, j ∈ line s' px' → slab'.order j = b.slab.order j := fun hj => by
    simp only [Slab.order, hcell', Slot.relink, hcell_of hj]
  have horder_i : slab'.order i = (id, qty) := by
    simp only [Slab.order, hcell', Slot.relink, hcell_i]
  have hqueue : (line s px ++ [i]).map slab'.order = m.queue s px ++ [(id, qty)] := by
    rw [List.map_append, List.map_singleton, horder_i, h.queue_eq]
    congr 1
    exact List.map_congr_left fun j hj => horder hj
  refine ⟨i, slab₁, sl', slab', halloc, hlink, h.change_line hwf ?_ ?_ hwf' ?_ ?_ ?_ ?_ ?_ ?_ ?_ ?_⟩
  · rw [hqueue]
    rfl
  · rw [hside, h.side_eq]
  · intro k
    rw [hat, hqueue]
    simp only [lineLevel, total_append, total_cons, total_nil, List.length_append,
      List.length_singleton, getLastD_concat, headD_append, Nat.add_zero]
    by_cases hnil : line s px = []
    · simp [hnil]
    · have htail := h.tail_ne hnil
      obtain ⟨x, xs, hx⟩ := List.exists_cons_of_ne_nil hnil
      simp only [htail, if_false]
      simp [hx]
  · intro s' px' hne j hj
    rw [hcell', if_neg (hout hj), if_neg, hcell_of hj]
    · rfl
    · rintro ⟨heq, htail⟩
      exact hne (h.line_unique hj (heq ▸ getLastD_mem htail))
  · intro j hj
    rcases List.mem_append.mp hj with hj | hj
    · simp only [hcell', Slot.relink, hcell_of hj, h.px_eq _ _ j hj]
    · simp only [List.mem_singleton.mp hj, hcell', Slot.relink, hcell_i]
  · refine (h.linked s px).concat (h.line_nodup s px) ?_ ?_ ?_ ?_ ?_
    · intro j hj
      simp only [hcell', Slot.relink, if_neg (hout hj), hcell_of hj]
    · intro j hj hne
      have hne' : ¬ (j = (line s px).getLastD nilSlot ∧ (line s px).getLastD nilSlot ≠ nilSlot) :=
        fun hc => hne hc.1
      simp only [hcell', Slot.relink, if_neg hne', hcell_of hj]
    · intro hnil
      simp only [hcell', Slot.relink]
      exact if_pos ⟨trivial, h.tail_ne hnil⟩
    · simp only [hcell', Slot.relink, if_true]
    · have hne : ¬ (i = (line s px).getLastD nilSlot ∧ (line s px).getLastD nilSlot ≠ nilSlot) :=
        fun hc => hout (getLastD_mem hc.2) hc.1.symm
      simp only [hcell', Slot.relink, if_neg hne, hcell_i]
  · intro id' k
    have hid' : ∀ {s' px' j}, j ∈ line s' px' → (slab'.cell j).id = (b.slab.cell j).id :=
      fun hj => congrArg Prod.fst (horder hj)
    have hid_i : (slab'.cell i).id = id := congrArg Prod.fst horder_i
    have hgone := h.get?_eq_none.mpr hid
    rw [SortedMap.get?_insert]
    by_cases hk : id' = id
    · subst hk
      rw [if_pos rfl, Option.some.injEq]
      constructor
      · rintro rfl
        exact Or.inl ⟨by simp, hid_i⟩
      · -- any other slot with this id would have been mapped before
        have hold : ¬ ((k ∈ line s px ∧ (b.slab.cell k).id = id') ∨ ∃ s' px',
            ¬ (s' = s ∧ px' = px) ∧ k ∈ line s' px' ∧ (b.slab.cell k).id = id') := by
          rw [← h.ids_split s px, hgone]
          simp
        rintro (⟨hmem, hidk⟩ | hmem)
        · rcases List.mem_append.mp hmem with hmem | hmem
          · exact absurd (Or.inl ⟨hmem, (hid' hmem).symm.trans hidk⟩) hold
          · exact (List.mem_singleton.mp hmem).symm
        · exact absurd (Or.inr hmem) hold
    · rw [if_neg hk, h.ids_split s px]
      refine or_congr_left ?_
      rw [List.mem_append, List.mem_singleton]
      constructor
      · rintro ⟨hmem, hidk⟩
        exact ⟨Or.inl hmem, (hid' hmem).trans hidk⟩
      · rintro ⟨hmem | rfl, hidk⟩
        · exact ⟨hmem, (hid' hmem).symm.trans hidk⟩
        · exact absurd (hidk.symm.trans hid_i) hk
  · rw [hlive', hlive₁, SortedMap.length_insert_of_fresh _ (h.get?_eq_none.mpr hid), h.ids_length]
  · refine hfree₁.frame (fun j hj => ?_) hlen' hhead' hlive'
    have hne : ¬ (j = (line s px).getLastD nilSlot ∧ (line s px).getLastD nilSlot ≠ nilSlot) := by
      rintro ⟨rfl, htail⟩
      exact h.line_not_free (getLastD_mem htail) (List.mem_of_mem_tail hj)
    simp only [hcell', Slot.relink, if_neg hne]
  · intro j
    rw [List.mem_append, List.mem_singleton, or_right_comm, h.used_split, hlen', hlt₁]
    have hnodup := h.freeList.nodup
    rcases hsrc with hf | ⟨hf, -⟩
    · rw [hf] at hnodup
      have hi' : i ∉ free.tail := (List.nodup_cons.mp hnodup).1
      rw [hf, List.tail_cons, List.mem_cons]
      by_cases hji : j = i
      · simp [hji, hi']
      · simp [hji]
    · simp [hf, or_comm]

/-- The order of a live id unlinked from its level and its slot freed. -/
theorem unlink {id : OrderId} {s : Side} {px : ℤ} {n : ℕ} (hfind : m.find id = some (s, px, n)) :
    ∃ i sl' slab' line' free', b.ids.get? id = some i ∧ i < b.slab.slots.length ∧
      (b.slab.cell i).id = id ∧ (b.slab.cell i).qty = n ∧ (b.slab.cell i).px = signed s px ∧
      ArrayBooks.unlink (b.side s) b.slab (b.grid.locate px) i = .ok (sl', slab') ∧
      Represents (b.withParts s sl' slab' (b.ids.erase id)) (m.take id s px 0) line' free' := by
  obtain ⟨i, xs, ys, hline, hget, hcell_i, hxs⟩ := h.located hfind
  have hi : i ∈ line s px := by simp [hline]
  have hnodup := h.line_nodup s px
  rw [hline] at hnodup
  obtain ⟨hxnodup, hiy, hdisj⟩ := List.nodup_append.mp hnodup
  obtain ⟨hiys, hynodup⟩ := List.nodup_cons.mp hiy
  have hixs : i ∉ xs := fun hmem => hdisj i hmem i (List.mem_cons_self ..) rfl
  have hxy : ∀ {j}, j ∈ xs → j ∉ ys := fun hx hy => hdisj _ hx _ (List.mem_cons_of_mem _ hy) rfl
  have hx_line : ∀ {j}, j ∈ xs → j ∈ line s px := fun hj => by simp [hline, hj]
  have hy_line : ∀ {j}, j ∈ ys → j ∈ line s px := fun hj => by simp [hline, hj]
  have hpx := h.px_nonneg hi
  have hqueue := h.queue_located hline hcell_i
  have hlive : 0 < b.slab.live := by
    rw [← h.ids_length]
    have := SortedMap.length_erase_of_mem hget
    omega
  obtain ⟨sl', slab', hunlink, hwf', hside, hat, hlen', hfree', hlive', hcell'⟩ :=
    unlink_spec h.grid (h.side_wf s) hpx.1 (h.level_eq s px) h.freeList (h.line_lt hi)
      (h.line_not_free hi) hlive
      (by
        rw [hcell_i]
        exact fun hne => ⟨h.line_lt (hx_line (getLastD_mem hne)),
          h.line_not_free (hx_line (getLastD_mem hne))⟩)
      (by
        rw [hcell_i]
        exact fun hne => ⟨h.line_lt (hy_line (headD_mem hne)),
          h.line_not_free (hy_line (headD_mem hne))⟩)
      (by
        rw [hcell_i]
        simp only [lineLevel, hqueue, total_append, total_cons]
        omega)
      (by simp [lineLevel, hline])
      (by
        intro hone
        simp only [lineLevel, hline, List.length_append, List.length_cons] at hone
        obtain rfl : xs = [] := List.eq_nil_of_length_eq_zero (by omega)
        obtain rfl : ys = [] := List.eq_nil_of_length_eq_zero (by omega)
        rw [hcell_i]
        exact ⟨rfl, rfl, by simp [lineLevel, hqueue]⟩)
  rw [hcell_i] at hat
  replace hat : ∀ k, sl'.levelAt k = if k = b.grid.locate px then
      ⟨if xs.getLastD nilSlot = nilSlot then ys.headD nilSlot else (line s px).headD nilSlot,
        if ys.headD nilSlot = nilSlot then xs.getLastD nilSlot else (line s px).getLastD nilSlot,
        total (m.queue s px) - n, (line s px).length - 1⟩ else (b.side s).levelAt k := hat
  rw [hcell_i] at hcell'
  have hout : ∀ {j}, j ∈ xs ++ ys → j ≠ i := by
    rintro j hj rfl
    exact (List.mem_append.mp hj).elim hixs hiys
  have horder : ∀ {j}, j ≠ i → slab'.order j = b.slab.order j := fun hj => by
    simp only [Slab.order, hcell' _ hj, Slot.relink]
  have hqueue' : (xs ++ ys).map slab'.order = xs.map b.slab.order ++ ys.map b.slab.order := by
    rw [← List.map_append]
    exact List.map_congr_left fun j hj => horder (hout hj)
  have hother : ∀ {s' px' j}, ¬ (s' = s ∧ px' = px) → j ∈ line s' px' → j ∉ line s px :=
    fun hne hj hmem => hne (h.line_unique hj hmem)
  refine ⟨i, sl', slab', line.set s px (xs ++ ys), i :: free, hget, h.line_lt hi, by rw [hcell_i],
    by rw [hcell_i], by rw [hcell_i], hunlink,
    h.change_line (h.market.take hfind (Nat.zero_le _)) ?_ ?_ hwf' ?_ ?_ ?_ ?_ ?_ ?_ hfree' ?_⟩
  · rw [hqueue']
    simp only [Market.take, hqueue, settle_split hxs, if_true]
  · rw [hside, h.side_eq]
  · intro k
    rw [hat, hqueue']
    by_cases hk : k = b.grid.locate px
    · rw [if_pos hk, if_pos hk]
      simp only [lineLevel, hline, hqueue, total_append, total_cons, List.length_append,
        List.length_cons, headD_append, getLastD_append, Level.mk.injEq]
      refine ⟨?_, ?_, by omega, by omega⟩
      · by_cases hnil : xs = []
        · simp [hnil]
        · have hne : xs.getLastD nilSlot ≠ nilSlot :=
            h.ne_nilSlot (hx_line (getLastD_mem_of_ne hnil))
          obtain ⟨x, xs', rfl⟩ := List.exists_cons_of_ne_nil hnil
          rw [if_neg hne]
          rfl
      · by_cases hnil : ys = []
        · simp [hnil]
        · have hne : ys.headD nilSlot ≠ nilSlot :=
            h.ne_nilSlot (hy_line (headD_mem_of_ne hnil))
          obtain ⟨y, ys', rfl⟩ := List.exists_cons_of_ne_nil hnil
          rw [if_neg hne]
          simp only [List.getLastD_cons]
    · rw [if_neg hk, if_neg hk]
  · intro s' px' hne j hj
    have hmem := hother hne hj
    rw [hcell' j fun heq => hmem (heq ▸ hi), if_neg, if_neg]
    · rfl
    · exact fun hc => hmem (hx_line (hc.1 ▸ getLastD_mem hc.2))
    · exact fun hc => hmem (hy_line (hc.1 ▸ headD_mem hc.2))
  · intro j hj
    rw [hcell' j (hout hj)]
    exact h.px_eq s px j ((List.mem_append.mp hj).elim hx_line hy_line)
  · have hlinked := h.linked s px
    rw [hline] at hlinked
    -- the only links that change are those of the two neighbours
    have hprev : ∀ j ∈ xs ++ ys, j ≠ ys.headD nilSlot →
        (slab'.cell j).prev = (b.slab.cell j).prev := fun j hj hne => by
      rw [hcell' j (hout hj)]
      exact if_neg fun hc => hne hc.1
    have hnext : ∀ j ∈ xs ++ ys, j ≠ xs.getLastD nilSlot →
        (slab'.cell j).next = (b.slab.cell j).next := fun j hj hne => by
      rw [hcell' j (hout hj)]
      exact if_neg fun hc => hne hc.1
    refine hlinked.remove hnodup hprev ?_ hnext ?_ ?_ ?_
    · intro j hj
      rw [hcell' j (hout (List.mem_append_left _ hj))]
      refine if_neg ?_
      rintro ⟨rfl, hc⟩
      exact hxy hj (headD_mem hc)
    · intro j hj
      rw [hcell' j (hout (List.mem_append_right _ hj))]
      refine if_neg ?_
      rintro ⟨rfl, hc⟩
      exact hxy (getLastD_mem hc) hj
    · intro hnil
      have hmem := getLastD_mem_of_ne (p := nilSlot) hnil
      rw [hcell' _ (hout (List.mem_append_left _ hmem))]
      exact if_pos ⟨rfl, h.ne_nilSlot (hx_line hmem)⟩
    · intro hnil
      have hmem := headD_mem_of_ne (n := nilSlot) hnil
      rw [hcell' _ (hout (List.mem_append_right _ hmem))]
      exact if_pos ⟨rfl, h.ne_nilSlot (hy_line hmem)⟩
  · intro id' k
    have hid_i : (b.slab.cell i).id = id := by rw [hcell_i]
    have hid' : ∀ {j}, j ≠ i → (slab'.cell j).id = (b.slab.cell j).id :=
      fun hj => congrArg Prod.fst (horder hj)
    rw [SortedMap.get?_erase]
    by_cases hk : id' = id
    · subst hk
      rw [if_pos rfl]
      refine ⟨fun hc => by simp at hc, fun hc => ?_⟩
      -- a slot with this id would be the one the id map names
      have hki : k = i := by
        have hold : b.ids.get? id' = some k := by
          refine (h.ids_split s px).mpr (hc.imp ?_ id)
          rintro ⟨hmem, hidk⟩
          exact ⟨(List.mem_append.mp hmem).elim hx_line hy_line,
            (hid' (hout hmem)).symm.trans hidk⟩
        exact Option.some.inj (hold.symm.trans hget)
      subst hki
      rcases hc with ⟨hmem, -⟩ | ⟨s', px', hne, hmem, -⟩
      · exact absurd rfl (hout hmem)
      · exact absurd hi (hother hne hmem)
    · rw [if_neg hk, h.ids_split s px]
      refine or_congr_left ?_
      rw [hline, List.mem_append, List.mem_append, List.mem_cons]
      constructor
      · rintro ⟨hmem, hidk⟩
        have hki : k ≠ i := fun heq => hk (hidk.symm.trans (heq ▸ hid_i))
        exact ⟨hmem.imp_right fun hmem => hmem.resolve_left hki, (hid' hki).trans hidk⟩
      · rintro ⟨hmem, hidk⟩
        exact ⟨hmem.imp_right Or.inr, (hid' (hout (List.mem_append.mpr hmem))).symm.trans hidk⟩
  · have hlength := SortedMap.length_erase_of_mem hget
    rw [hlive', ← h.ids_length]
    omega
  · intro j
    rw [hlen', List.mem_cons, not_or]
    have hsplit := h.used_split s px j
    rw [hline, List.mem_append, List.mem_cons] at hsplit
    rw [List.mem_append]
    constructor
    · intro hj
      have hji : j ≠ i := by
        rcases hj with hj | ⟨s', px', hne, hj⟩
        · exact hout (List.mem_append.mpr hj)
        · exact fun heq => hother hne hj (heq ▸ hi)
      obtain ⟨hlt, hnot⟩ := hsplit.mp (hj.imp_left fun hj => hj.imp_right Or.inr)
      exact ⟨hlt, hji, hnot⟩
    · rintro ⟨hlt, hji, hnot⟩
      exact (hsplit.mpr ⟨hlt, hnot⟩).imp_left fun hj => hj.imp_right fun hj => hj.resolve_left hji

/-- The order of a live id reduced in place. -/
theorem reduce {id : OrderId} {s : Side} {px : ℤ} {n amount : ℕ}
    (hfind : m.find id = some (s, px, n)) (hlt : amount < n) :
    ∃ i sl' slab' line' free', b.ids.get? id = some i ∧
      ArrayBooks.reduce (b.side s) b.slab (b.grid.locate px) i amount = .ok (sl', slab') ∧
      Represents (b.withParts s sl' slab' b.ids) (m.take id s px (n - amount)) line' free' := by
  obtain ⟨i, xs, ys, hline, hget, hcell_i, hxs⟩ := h.located hfind
  have hi : i ∈ line s px := by simp [hline]
  have hnodup := h.line_nodup s px
  rw [hline] at hnodup
  have hpx := h.px_nonneg hi
  have hrest : n - amount ≠ 0 := by omega
  have hqueue := h.queue_located hline hcell_i
  have htotal : amount ≤ total (m.queue s px) := by
    rw [hqueue, total_append, total_cons]
    omega
  have hcount : 0 < (line s px).length := by simp [hline]
  have hlvl := h.level_eq s px
  obtain ⟨sl', hput, hwf', hside, hat⟩ := (h.side_wf s).put_same h.grid hpx.1
    { lineLevel (line s px) (m.queue s px) with qty := total (m.queue s px) - amount }
    (by rw [hlvl]) hcount
  obtain ⟨slab', hmod, hcell', hlen', hhead', hlive'⟩ :=
    Slab.modify_spec (h.line_lt hi) fun t => { t with qty := n - amount }
  have hmut := (h.side_wf s).getMut_ok h.grid px (by rw [hlvl]; exact hcount)
  rw [hlvl] at hmut
  have hkeep : ∀ j, (slab'.cell j).prev = (b.slab.cell j).prev ∧
      (slab'.cell j).next = (b.slab.cell j).next ∧ (slab'.cell j).id = (b.slab.cell j).id ∧
      (slab'.cell j).px = (b.slab.cell j).px := by
    intro j
    rw [hcell']
    by_cases hj : j = i <;> simp [hj]
  have horder : ∀ {j}, j ≠ i → slab'.order j = b.slab.order j := fun hj => by
    simp only [Slab.order, hcell', if_neg hj]
  have hqueue' : (line s px).map slab'.order =
      xs.map b.slab.order ++ (id, n - amount) :: ys.map b.slab.order := by
    have hi_order : slab'.order i = (id, n - amount) := by
      simp [Slab.order, hcell', hcell_i]
    obtain ⟨-, hiy, hdisj⟩ := List.nodup_append.mp hnodup
    rw [hline, List.map_append, List.map_cons, hi_order]
    congr 1
    · exact List.map_congr_left fun j hj => horder fun heq =>
        hdisj j hj i (List.mem_cons_self ..) heq
    · congr 1
      exact List.map_congr_left fun j hj => horder fun heq =>
        (List.nodup_cons.mp hiy).1 (heq ▸ hj)
  refine ⟨i, sl', slab', line.set s px (line s px), free, hget, ?_,
    h.change_line (h.market.take hfind (Nat.sub_le _ _)) ?_ ?_ hwf' ?_ ?_ ?_ ?_ ?_ ?_ ?_ ?_⟩
  · simp only [ArrayBooks.reduce, hmut, ok_bind, lineLevel, subU_ok htotal,
      Slab.get_ok (h.line_lt hi), hcell_i, subU_ok hlt.le, hmod]
    simp only [lineLevel] at hput
    rw [hput]
    rfl
  · rw [hqueue']
    simp only [Market.take, hqueue, settle_split hxs, if_neg hrest]
  · rw [hside, h.side_eq]
  · intro k
    rw [hat, hqueue']
    by_cases hk : k = b.grid.locate px
    · rw [if_pos hk, if_pos hk]
      simp only [lineLevel, hqueue, total_append, total_cons, Level.mk.injEq, true_and, and_true]
      omega
    · rw [if_neg hk, if_neg hk]
  · intro s' px' hne j hj
    rw [hcell', if_neg]
    rintro rfl
    exact hne (h.line_unique hj hi)
  · exact fun j hj => (hkeep j).2.2.2.trans (h.px_eq s px j hj)
  · exact (h.linked s px).congr (fun j _ => (hkeep j).1) fun j _ => (hkeep j).2.1
  · intro id' k
    rw [h.ids_split s px, (hkeep k).2.2.1]
  · rw [hlive', h.ids_length]
  · exact h.freeList.frame (fun j _ => (hkeep j).2.1) hlen' hhead' hlive'
  · intro j
    rw [hlen']
    exact h.used_split s px j

end Represents

end Lobcore.ArrayBooks
