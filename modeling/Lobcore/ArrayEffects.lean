import Lobcore.OffsetCounters

/-!
What a call on the array book can do, said once: refuse and leave the book, link a new order,
unlink an order, reduce one in place, or unlink an order and link its replacement. Whatever a
call does to the counters of a side and to the number of slots is read off these five cases.
-/
namespace Lobcore.ArrayEffects

open Checked OrderTypes SortedMaps OrderSlab PriceLevels Markets ArrayBooks OffsetCounters

/-- The ways a call that returned can have gone. -/
inductive Effect (b : ArrayBook) : Op → Reply → ArrayBook → Prop
  | refused {op : Op} (e : BookError) : Effect b op (.error e) b
  | added {id : OrderId} {s : Side} {px : Int32} {qty : UInt32} {ev : Event} {slot : ℕ}
      {signed : ℤ} {slab slab' : Slab} {sl : SideLevels}
      (alloc : b.slab.alloc id qty.toNat signed = .ok (slot, slab))
      (link : linkTail ((b.side s).noteAdd b.grid (b.grid.locate px.toInt) px.toInt) slab
        (b.grid.locate px.toInt) slot = .ok (sl, slab')) :
      Effect b (.add id s px qty) (.ok ev) (b.withParts s sl slab' (b.ids.insert id slot))
  | unlinked {op : Op} {ev : Event} {s : Side} {locus : Locus} {slot : ℕ} {id : OrderId}
      {sl : SideLevels} {slab : Slab} (unplaced : placedAt op = none)
      (unlink : unlink (b.side s) b.slab locus slot = .ok (sl, slab)) :
      Effect b op (.ok ev) (b.withParts s sl slab (b.ids.erase id))
  | reduced {op : Op} {ev : Event} {s : Side} {locus : Locus} {slot amount : ℕ}
      {sl : SideLevels} {slab : Slab} (unplaced : placedAt op = none)
      (reduce : reduce (b.side s) b.slab locus slot amount = .ok (sl, slab)) :
      Effect b op (.ok ev) (b.withParts s sl slab b.ids)
  | replaced {old new : OrderId} {s : Side} {px : Int32} {qty : UInt32} {ev : Event}
      {locus : Locus} {slot fresh : ℕ} {signed : ℤ} {sl sl' : SideLevels} {ids : IdMap}
      {slab₁ slab₂ slab₃ : Slab}
      (unlink : unlink ((b.side s).noteAdd b.grid (b.grid.locate px.toInt) px.toInt) b.slab locus
        slot = .ok (sl, slab₁))
      (alloc : slab₁.alloc new qty.toNat signed = .ok (fresh, slab₂))
      (link : linkTail sl slab₂ (b.grid.locate px.toInt) fresh = .ok (sl', slab₃)) :
      Effect b (.replace old new px qty) (.ok ev) (b.withParts s sl' slab₃ ids)

variable {b b' : ArrayBook}

theorem effect_refused {op : Op} {e : BookError} {r : Reply}
    (h : (.ok (.error e, b) : Exec (Reply × ArrayBook)) = .ok (r, b')) : Effect b op r b' := by
  obtain ⟨rfl, rfl⟩ := Prod.mk.inj (Except.ok.inj h)
  exact .refused e

/-- Taking shares off an order unlinks it or reduces it. -/
theorem effect_take {op : Op} {ev : Event} {slot amount rest : ℕ} {s : Slot} {b₁ : ArrayBook}
    {r : Reply} (hplaced : placedAt op = none) (htake : b.take slot s amount = .ok (rest, b₁))
    (h : (.ok (.ok ev, b₁) : Exec (Reply × ArrayBook)) = .ok (r, b')) : Effect b op r b' := by
  obtain ⟨rfl, rfl⟩ := Prod.mk.inj (Except.ok.inj h)
  obtain ⟨px, -, htake⟩ := bind_eq_ok.mp htake
  obtain ⟨remaining, -, htake⟩ := bind_eq_ok.mp htake
  split at htake
  · obtain ⟨⟨sl, slab⟩, hunlink, htake⟩ := bind_eq_ok.mp htake
    obtain ⟨-, rfl⟩ := Prod.mk.inj (Except.ok.inj htake)
    exact .unlinked hplaced hunlink
  · obtain ⟨⟨sl, slab⟩, hreduce, htake⟩ := bind_eq_ok.mp htake
    obtain ⟨-, rfl⟩ := Prod.mk.inj (Except.ok.inj htake)
    exact .reduced hplaced hreduce

theorem effect_add {id : OrderId} {s : Side} {px : Int32} {qty : UInt32} {r : Reply}
    (h : b.add id s px.toInt qty.toNat = .ok (r, b')) : Effect b (.add id s px qty) r b' := by
  unfold ArrayBook.add at h
  split at h
  · exact effect_refused h
  split at h
  · exact effect_refused h
  obtain ⟨full, -, h⟩ := bind_eq_ok.mp h
  split at h
  · exact effect_refused h
  split at h
  · exact effect_refused h
  obtain ⟨signed, -, h⟩ := bind_eq_ok.mp h
  obtain ⟨⟨slot, slab⟩, halloc, h⟩ := bind_eq_ok.mp h
  obtain ⟨⟨sl, slab'⟩, hlink, h⟩ := bind_eq_ok.mp h
  obtain ⟨rfl, rfl⟩ := Prod.mk.inj (Except.ok.inj h)
  exact .added halloc hlink

theorem effect_replace {old new : OrderId} {px : Int32} {qty : UInt32} {r : Reply}
    (h : b.replace old new px.toInt qty.toNat = .ok (r, b')) :
    Effect b (.replace old new px qty) r b' := by
  unfold ArrayBook.replace at h
  split at h
  · exact effect_refused h
  split at h
  · exact effect_refused h
  split at h
  · exact effect_refused h
  split at h
  · exact effect_refused h
  obtain ⟨s, -, h⟩ := bind_eq_ok.mp h
  obtain ⟨oldPx, -, h⟩ := bind_eq_ok.mp h
  obtain ⟨there, -, h⟩ := bind_eq_ok.mp h
  split at h
  · exact effect_refused h
  obtain ⟨⟨sl, slab₁⟩, hunlink, h⟩ := bind_eq_ok.mp h
  obtain ⟨signed, -, h⟩ := bind_eq_ok.mp h
  obtain ⟨⟨fresh, slab₂⟩, halloc, h⟩ := bind_eq_ok.mp h
  obtain ⟨ids, -, h⟩ := bind_eq_ok.mp h
  obtain ⟨⟨sl', slab₃⟩, hlink, h⟩ := bind_eq_ok.mp h
  obtain ⟨rfl, rfl⟩ := Prod.mk.inj (Except.ok.inj h)
  exact .replaced hunlink halloc hlink

/-- Every call that returns went one of these ways. -/
theorem apply_effect {op : Op} {r : Reply} (h : b.apply op = .ok (r, b')) : Effect b op r b' := by
  cases op with
  | add id s px qty => exact effect_add h
  | replace old new px qty => exact effect_replace h
  | cancel id qty =>
    rw [ArrayBook.apply, ArrayBook.cancel] at h
    split at h
    · exact effect_refused h
    split at h
    · exact effect_refused h
    obtain ⟨s, -, h⟩ := bind_eq_ok.mp h
    obtain ⟨⟨rest, b₁⟩, htake, h⟩ := bind_eq_ok.mp h
    obtain ⟨px, -, h⟩ := bind_eq_ok.mp h
    exact effect_take rfl htake h
  | execute id qty =>
    rw [ArrayBook.apply, ArrayBook.execute] at h
    split at h
    · exact effect_refused h
    split at h
    · exact effect_refused h
    obtain ⟨s, -, h⟩ := bind_eq_ok.mp h
    split at h
    · exact effect_refused h
    obtain ⟨⟨rest, b₁⟩, htake, h⟩ := bind_eq_ok.mp h
    obtain ⟨px, -, h⟩ := bind_eq_ok.mp h
    exact effect_take rfl htake h
  | delete id =>
    rw [ArrayBook.apply, ArrayBook.delete] at h
    split at h
    · exact effect_refused h
    obtain ⟨s, -, h⟩ := bind_eq_ok.mp h
    obtain ⟨⟨rest, b₁⟩, htake, h⟩ := bind_eq_ok.mp h
    obtain ⟨px, -, h⟩ := bind_eq_ok.mp h
    exact effect_take rfl htake h

end Lobcore.ArrayEffects
