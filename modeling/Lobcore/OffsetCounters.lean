import Lobcore.ArrayWindows

/-!
The largest tick offset of an array book. Only an accepted add or replace moves it, and it then
covers the offset of the price; so it never sinks, and covers every price at which an order was
added, those of a snapshot included.
-/
namespace Lobcore.OffsetCounters

open Checked OrderTypes OrderSlab PriceLevels Markets ArrayBooks Sessions ArrayWindows

/-- The counters of a side: the prices off the window, and the largest tick offset. -/
def counters (sl : SideLevels) : ℕ × ℤ := (sl.overflowHits, sl.maxAbsOffset)

/-! One side: `noteAdd` apart, nothing moves the counters. -/

section Side

variable {sl sl' : SideLevels} {slab slab' : Slab} {locus : Locus} {slot : ℕ}

theorem counters_put {lvl : Level} (h : sl.put locus lvl = .ok sl') :
    counters sl' = counters sl := by
  cases locus with
  | inRange i =>
    obtain ⟨levels, -, h⟩ := bind_eq_ok.mp h
    exact Except.ok.inj h ▸ rfl
  | overflow px => exact Except.ok.inj h ▸ rfl

theorem counters_getOrInsert {lvl : Level} (h : sl.getOrInsert locus = .ok (lvl, sl')) :
    counters sl' = counters sl := by
  cases locus with
  | inRange i =>
    obtain ⟨l, -, h⟩ := bind_eq_ok.mp h
    exact (Prod.mk.inj (Except.ok.inj h)).2 ▸ rfl
  | overflow px =>
    simp only [SideLevels.getOrInsert] at h
    split at h <;> exact (Prod.mk.inj (Except.ok.inj h)).2 ▸ rfl

theorem counters_afterCountChange {before : ℕ} (h : sl.afterCountChange locus before = .ok sl') :
    counters sl' = counters sl := by
  cases locus with
  | inRange i =>
    obtain ⟨now, -, h⟩ := bind_eq_ok.mp h
    split at h
    · obtain ⟨bitmap, -, h⟩ := bind_eq_ok.mp h
      exact Except.ok.inj h ▸ rfl
    · split at h
      · obtain ⟨bitmap, -, h⟩ := bind_eq_ok.mp h
        exact Except.ok.inj h ▸ rfl
      · exact Except.ok.inj h ▸ rfl
  | overflow px =>
    simp only [SideLevels.afterCountChange] at h
    split at h
    · obtain rfl := Except.ok.inj h
      split <;> rfl
    · exact Except.ok.inj h ▸ rfl

theorem counters_linkTail (h : linkTail sl slab locus slot = .ok (sl', slab')) :
    counters sl' = counters sl := by
  obtain ⟨s, -, h⟩ := bind_eq_ok.mp h
  obtain ⟨⟨lvl, sl₁⟩, hget, h⟩ := bind_eq_ok.mp h
  obtain ⟨qty, -, h⟩ := bind_eq_ok.mp h
  obtain ⟨count, -, h⟩ := bind_eq_ok.mp h
  obtain ⟨sl₂, hput, h⟩ := bind_eq_ok.mp h
  have hlast : ∀ slab₁ : Slab, (do
      let sl₃ ← sl₂.afterCountChange locus lvl.count
      return (sl₃, slab₁) : Exec (SideLevels × Slab)) = .ok (sl', slab') →
      counters sl' = counters sl := by
    intro slab₁ h
    obtain ⟨sl₃, hcount, h⟩ := bind_eq_ok.mp h
    obtain ⟨rfl, -⟩ := Prod.mk.inj (Except.ok.inj h)
    rw [counters_afterCountChange hcount, counters_put hput, counters_getOrInsert hget]
  dsimp only at h
  split at h
  · obtain ⟨slab₁, -, h⟩ := bind_eq_ok.mp h
    obtain ⟨slab₂, -, h⟩ := bind_eq_ok.mp h
    exact hlast slab₂ h
  · exact hlast slab h

theorem counters_unlink (h : unlink sl slab locus slot = .ok (sl', slab')) :
    counters sl' = counters sl := by
  obtain ⟨s, -, h⟩ := bind_eq_ok.mp h
  obtain ⟨lvl, -, h⟩ := bind_eq_ok.mp h
  obtain ⟨qty, -, h⟩ := bind_eq_ok.mp h
  obtain ⟨count, -, h⟩ := bind_eq_ok.mp h
  obtain ⟨sl₁, hput, h⟩ := bind_eq_ok.mp h
  obtain ⟨slab₁, -, h⟩ := bind_eq_ok.mp h
  obtain ⟨slab₂, -, h⟩ := bind_eq_ok.mp h
  obtain ⟨sl₂, hcount, h⟩ := bind_eq_ok.mp h
  obtain ⟨slab₃, -, h⟩ := bind_eq_ok.mp h
  obtain ⟨rfl, -⟩ := Prod.mk.inj (Except.ok.inj h)
  rw [counters_afterCountChange hcount, counters_put hput]

theorem counters_reduce {amount : ℕ} (h : reduce sl slab locus slot amount = .ok (sl', slab')) :
    counters sl' = counters sl := by
  obtain ⟨lvl, -, h⟩ := bind_eq_ok.mp h
  obtain ⟨qty, -, h⟩ := bind_eq_ok.mp h
  obtain ⟨sl₁, hput, h⟩ := bind_eq_ok.mp h
  obtain ⟨s, -, h⟩ := bind_eq_ok.mp h
  obtain ⟨rest, -, h⟩ := bind_eq_ok.mp h
  obtain ⟨slab₁, -, h⟩ := bind_eq_ok.mp h
  obtain ⟨rfl, -⟩ := Prod.mk.inj (Except.ok.inj h)
  exact counters_put hput

theorem hits_eq (h : counters sl' = counters sl) : sl'.overflowHits = sl.overflowHits :=
  congrArg Prod.fst h

theorem offset_eq (h : counters sl' = counters sl) : sl'.maxAbsOffset = sl.maxAbsOffset :=
  congrArg Prod.snd h

theorem offset_noteAdd (sl : SideLevels) (g : Grid) (locus : Locus) (px : ℤ) :
    (sl.noteAdd g locus px).maxAbsOffset = max sl.maxAbsOffset |g.offset px| :=
  (max_def_lt sl.maxAbsOffset |g.offset px|).symm

end Side

/-! Both sides. -/

variable {b b' : ArrayBook}

/-- A side written back with no smaller counter. -/
theorem offset_withParts {s : Side} {sl : SideLevels}
    (h : (b.side s).maxAbsOffset ≤ sl.maxAbsOffset)
    (slab : Slab) (ids : IdMap) : b.maxAbsOffset ≤ (b.withParts s sl slab ids).maxAbsOffset ∧
      sl.maxAbsOffset ≤ (b.withParts s sl slab ids).maxAbsOffset := by
  cases s with
  | bid => exact ⟨max_le_max_right _ h, le_max_left _ _⟩
  | ask => exact ⟨max_le_max_left _ h, le_max_right _ _⟩

theorem take_offset {slot : ℕ} {s : Slot} {amount rest : ℕ}
    (h : b.take slot s amount = .ok (rest, b')) : b.maxAbsOffset ≤ b'.maxAbsOffset := by
  obtain ⟨px, -, h⟩ := bind_eq_ok.mp h
  obtain ⟨remaining, -, h⟩ := bind_eq_ok.mp h
  split at h
  · obtain ⟨⟨sl, slab⟩, hunlink, h⟩ := bind_eq_ok.mp h
    obtain ⟨-, rfl⟩ := Prod.mk.inj (Except.ok.inj h)
    exact (offset_withParts (offset_eq (counters_unlink hunlink)).ge _ _).1
  · obtain ⟨⟨sl, slab⟩, hreduce, h⟩ := bind_eq_ok.mp h
    obtain ⟨-, rfl⟩ := Prod.mk.inj (Except.ok.inj h)
    exact (offset_withParts (offset_eq (counters_reduce hreduce)).ge _ _).1

/-- The counter after a call: no smaller, and past the offset of a price that was accepted. -/
structure Covers (b : ArrayBook) (placed : Option ℤ) (r : Reply) (b' : ArrayBook) : Prop where
  grows : b.maxAbsOffset ≤ b'.maxAbsOffset
  covers : ∀ px ∈ placed, ∀ ev, r = .ok ev → |b.grid.offset px| ≤ b'.maxAbsOffset

theorem covers_refused {placed : Option ℤ} {e : BookError} {r : Reply}
    (h : (.ok (.error e, b) : Exec (Reply × ArrayBook)) = .ok (r, b')) : Covers b placed r b' := by
  obtain ⟨rfl, rfl⟩ := Prod.mk.inj (Except.ok.inj h)
  exact ⟨le_refl _, fun _ _ _ h => by cases h⟩

theorem covers_unplaced {r : Reply} (h : b.maxAbsOffset ≤ b'.maxAbsOffset) : Covers b none r b' :=
  ⟨h, fun _ hpx => by cases hpx⟩

/-- The side of an accepted price, its counter noted. -/
theorem covers_noted {s : Side} {px : ℤ} {locus : Locus} {sl : SideLevels}
    (h : sl.maxAbsOffset = ((b.side s).noteAdd b.grid locus px).maxAbsOffset) (slab : Slab)
    (ids : IdMap) (r : Reply) : Covers b (some px) r (b.withParts s sl slab ids) := by
  rw [offset_noteAdd] at h
  obtain ⟨hgrows, hcovers⟩ := offset_withParts (h ▸ le_max_left _ _) slab ids
  refine ⟨hgrows, fun px' hpx ev _ => ?_⟩
  obtain rfl := Option.some.inj hpx
  exact (h ▸ le_max_right _ _ : |b.grid.offset px| ≤ sl.maxAbsOffset).trans hcovers

theorem add_covers {id : OrderId} {s : Side} {px : ℤ} {qty : ℕ} {r : Reply}
    (h : b.add id s px qty = .ok (r, b')) : Covers b (some px) r b' := by
  unfold ArrayBook.add at h
  split at h
  · exact covers_refused h
  split at h
  · exact covers_refused h
  obtain ⟨full, -, h⟩ := bind_eq_ok.mp h
  split at h
  · exact covers_refused h
  split at h
  · exact covers_refused h
  obtain ⟨signed, -, h⟩ := bind_eq_ok.mp h
  obtain ⟨⟨slot, slab⟩, -, h⟩ := bind_eq_ok.mp h
  obtain ⟨⟨sl, slab'⟩, hlink, h⟩ := bind_eq_ok.mp h
  obtain ⟨rfl, rfl⟩ := Prod.mk.inj (Except.ok.inj h)
  exact covers_noted (offset_eq (counters_linkTail hlink)) ..

theorem replace_covers {old new : OrderId} {px : ℤ} {qty : ℕ} {r : Reply}
    (h : b.replace old new px qty = .ok (r, b')) : Covers b (some px) r b' := by
  unfold ArrayBook.replace at h
  split at h
  · exact covers_refused h
  split at h
  · exact covers_refused h
  split at h
  · exact covers_refused h
  split at h
  · exact covers_refused h
  obtain ⟨s, -, h⟩ := bind_eq_ok.mp h
  obtain ⟨oldPx, -, h⟩ := bind_eq_ok.mp h
  obtain ⟨there, -, h⟩ := bind_eq_ok.mp h
  split at h
  · exact covers_refused h
  obtain ⟨⟨sl, slab⟩, hunlink, h⟩ := bind_eq_ok.mp h
  obtain ⟨signed, -, h⟩ := bind_eq_ok.mp h
  obtain ⟨⟨fresh, slab₁⟩, -, h⟩ := bind_eq_ok.mp h
  obtain ⟨ids, -, h⟩ := bind_eq_ok.mp h
  obtain ⟨⟨sl₁, slab₂⟩, hlink, h⟩ := bind_eq_ok.mp h
  obtain ⟨rfl, rfl⟩ := Prod.mk.inj (Except.ok.inj h)
  exact covers_noted (offset_eq ((counters_linkTail hlink).trans (counters_unlink hunlink))) ..

/-- The price a call puts an order at. -/
def placedAt : Op → Option ℤ
  | .add _ _ px _ => some px.toInt
  | .replace _ _ px _ => some px.toInt
  | _ => none

/-- Taking shares off an order. -/
theorem covers_taken {slot : ℕ} {s : Slot} {amount rest : ℕ} {b₁ : ArrayBook} {r r₁ : Reply}
    (htake : b.take slot s amount = .ok (rest, b₁))
    (h : (.ok (r₁, b₁) : Exec (Reply × ArrayBook)) = .ok (r, b')) : Covers b none r b' := by
  obtain ⟨-, rfl⟩ := Prod.mk.inj (Except.ok.inj h)
  exact covers_unplaced (take_offset htake)

theorem apply_covers {op : Op} {r : Reply} (h : b.apply op = .ok (r, b')) :
    Covers b (placedAt op) r b' := by
  cases op with
  | add id s px qty => exact add_covers h
  | replace old new px qty => exact replace_covers h
  | cancel id qty =>
    rw [ArrayBook.apply, ArrayBook.cancel] at h
    split at h
    · exact covers_refused h
    split at h
    · exact covers_refused h
    obtain ⟨s, -, h⟩ := bind_eq_ok.mp h
    obtain ⟨⟨rest, b₁⟩, htake, h⟩ := bind_eq_ok.mp h
    obtain ⟨px, -, h⟩ := bind_eq_ok.mp h
    exact covers_taken htake h
  | execute id qty =>
    rw [ArrayBook.apply, ArrayBook.execute] at h
    split at h
    · exact covers_refused h
    split at h
    · exact covers_refused h
    obtain ⟨s, -, h⟩ := bind_eq_ok.mp h
    split at h
    · exact covers_refused h
    obtain ⟨⟨rest, b₁⟩, htake, h⟩ := bind_eq_ok.mp h
    obtain ⟨px, -, h⟩ := bind_eq_ok.mp h
    exact covers_taken htake h
  | delete id =>
    rw [ArrayBook.apply, ArrayBook.delete] at h
    split at h
    · exact covers_refused h
    obtain ⟨s, -, h⟩ := bind_eq_ok.mp h
    obtain ⟨⟨rest, b₁⟩, htake, h⟩ := bind_eq_ok.mp h
    obtain ⟨px, -, h⟩ := bind_eq_ok.mp h
    exact covers_taken htake h

/-! Re-adding. -/

/-- One order. -/
theorem readd_step {id : OrderId} {s : Side} {px : ℤ} {qty : ℕ}
    (h : (do
      match ← b.add id s px qty with
      | (.ok _, ab) => return ab
      | (.error _, _) => throw .assertion : Exec ArrayBook) = .ok b') :
    b'.grid = b.grid ∧ b.maxAbsOffset ≤ b'.maxAbsOffset ∧ |b.grid.offset px| ≤ b'.maxAbsOffset := by
  obtain ⟨⟨r, b₁⟩, hadd, h⟩ := bind_eq_ok.mp h
  cases r with
  | error e => cases h
  | ok ev =>
    obtain rfl := Except.ok.inj h
    have hcovers := add_covers hadd
    exact ⟨onGrid_add b _ _ _ _ _ hadd, hcovers.grows, hcovers.covers px rfl ev rfl⟩

/-- One level: its price is covered as soon as it has an order. -/
theorem readdLevel_covers {s : Side} {px : ℤ} {fifo : Queue} (h : readdLevel b s px fifo = .ok b') :
    b'.grid = b.grid ∧ b.maxAbsOffset ≤ b'.maxAbsOffset ∧
      (fifo ≠ [] → |b.grid.offset px| ≤ b'.maxAbsOffset) := by
  induction fifo generalizing b with
  | nil =>
    obtain rfl := Except.ok.inj h
    exact ⟨rfl, le_refl _, fun hne => absurd rfl hne⟩
  | cons e fifo ih =>
    rw [readdLevel, List.foldlM_cons] at h
    obtain ⟨b₁, hstep, h⟩ := bind_eq_ok.mp h
    obtain ⟨hgrid, hgrows, hcovers⟩ := readd_step hstep
    obtain ⟨hgrid', hgrows', -⟩ := ih h
    exact ⟨hgrid'.trans hgrid, hgrows.trans hgrows', fun _ => hcovers.trans hgrows'⟩

/-- Every price of the snapshot is covered. -/
theorem readd_covers {v : Snapshot} (h : readd b v = .ok b') :
    b.maxAbsOffset ≤ b'.maxAbsOffset ∧
      ∀ e ∈ v, e.2.2 ≠ [] → |b.grid.offset e.2.1| ≤ b'.maxAbsOffset := by
  induction v generalizing b with
  | nil => exact ⟨(Except.ok.inj h) ▸ le_refl _, fun e he => by cases he⟩
  | cons lvl v ih =>
    rw [readd, List.foldlM_cons] at h
    obtain ⟨b₁, hlevel, h⟩ := bind_eq_ok.mp h
    obtain ⟨hgrid, hgrows, hcovers⟩ := readdLevel_covers hlevel
    obtain ⟨hgrows', hrest⟩ := ih h
    refine ⟨hgrows.trans hgrows', List.forall_mem_cons.mpr ⟨fun hne => ?_, fun e he hne => ?_⟩⟩
    · exact (hcovers hne).trans hgrows'
    · rw [← hgrid]
      exact hrest e he hne

end Lobcore.OffsetCounters
