import Lobcore.Generators
import Mathlib.Tactic.NormNum

/-!
The draws of the generator. Whatever the random source holds, a draw stays in the range that
was asked for and changes nothing but the source; the first half of an add also moves the mid
of its locate. What is known of a drawn order is kept with the order.
-/
namespace Lobcore.GeneratorDraws

open Checked OrderTypes SortedMaps Markets TruthBooks Generators

theorem Rng.range_ok (rng : Rng) {lo hi : ℕ} (h : lo < hi) :
    ∃ n rng', rng.range lo hi = .ok (n, rng') ∧ lo ≤ n ∧ n < hi := by
  have hmod := Nat.mod_lt (rng.headD 0) (Nat.sub_pos_of_lt h)
  refine ⟨_, _, by rw [Rng.range, ensure_ok h, ok_bind]; rfl, Nat.le_add_right .., ?_⟩
  omega

theorem Rng.bool_ok (rng : Rng) {p : ℚ} (h : 0 ≤ p ∧ p ≤ 1) :
    ∃ b rng', rng.bool p = .ok (b, rng') ∧ (b = true → 0 < p) := by
  refine ⟨_, _, by rw [Rng.bool, ensure_ok h, ok_bind]; rfl, fun hb => ?_⟩
  split at hb
  · cases hb
  · rename_i hp
    exact lt_of_le_of_ne h.1 (Ne.symm hp)

/-- The ticks are a hundredth or a whole cent. -/
def Tick (tick : ℤ) : Prop := tick = 1 ∨ tick = 100

/-- An order crosses by nothing, or where it may by up to three ticks. -/
def Crosses (allowed : Bool) (tick cross : ℤ) : Prop :=
  cross = 0 ∨ allowed = true ∧ (cross = tick ∨ cross = 2 * tick ∨ cross = 3 * tick)

namespace Generator

variable (g : Generator)

theorem randomRange_ok {lo hi : ℕ} (h : lo < hi) :
    ∃ n rng, g.randomRange lo hi = .ok (n, { g with rng }) ∧ lo ≤ n ∧ n < hi := by
  obtain ⟨n, rng, hdraw, hn⟩ := Rng.range_ok g.rng h
  exact ⟨n, rng, by rw [Generator.randomRange, hdraw]; rfl, hn⟩

theorem randomBool_ok {p : ℚ} (h : 0 ≤ p ∧ p ≤ 1) :
    ∃ b rng, g.randomBool p = .ok (b, { g with rng }) ∧ (b = true → 0 < p) := by
  obtain ⟨b, rng, hdraw, hb⟩ := Rng.bool_ok g.rng h
  exact ⟨b, rng, by rw [Generator.randomBool, hdraw]; rfl, hb⟩

theorem half_unit : (0 : ℚ) ≤ 1 / 2 ∧ (1 / 2 : ℚ) ≤ 1 := by norm_num

theorem drawKind_eq : ∃ kind rng, g.drawKind = (kind, { g with rng }) := ⟨_, _, rfl⟩

theorem drawSide_ok : ∃ s rng, g.drawSide = .ok (s, { g with rng }) := by
  obtain ⟨b, rng, hdraw, -⟩ := randomBool_ok g half_unit
  exact ⟨if b then .bid else .ask, rng, by rw [Generator.drawSide, hdraw]; rfl⟩

theorem qty_ok : ∃ n rng, g.qty = .ok (n, { g with rng }) ∧ 0 < n ∧ n ≤ 1000 := by
  obtain ⟨round, rng, hround, -⟩ := randomBool_ok g (p := roundLotProb)
    (by norm_num [roundLotProb])
  rw [Generator.qty, hround, ok_bind]
  cases round with
  | true =>
    obtain ⟨n, rng', hn, hlow, hhigh⟩ :=
      randomRange_ok { g with rng } (show 1 < 11 by decide)
    refine ⟨100 * n, rng', ?_, by omega, by omega⟩
    simp only [if_true, hn, ok_bind, pure_eq_ok]
  | false =>
    obtain ⟨n, rng', hn, hlow, hhigh⟩ :=
      randomRange_ok { g with rng } (show 1 < 500 by decide)
    refine ⟨n, rng', ?_, by omega, by omega⟩
    simp only [Bool.false_eq_true, if_false, hn]

theorem offsetLoop_ok (left k : ℕ) :
    ∃ n rng, g.offsetLoop left k = .ok (n, { g with rng }) ∧ n ≤ k + left := by
  induction left generalizing g k with
  | zero => exact ⟨k, g.rng, rfl, Nat.le_refl _⟩
  | succ left ih =>
    obtain ⟨more, rng, hmore, -⟩ := randomBool_ok g half_unit
    rw [Generator.offsetLoop, hmore, ok_bind]
    cases more with
    | true =>
      obtain ⟨n, rng', hn, hle⟩ := ih { g with rng } (k + 1)
      exact ⟨n, rng', hn, by omega⟩
    | false => exact ⟨k, rng, rfl, by omega⟩

theorem offsetTicks_ok : ∃ n rng, g.offsetTicks = .ok (n, { g with rng }) ∧ n ≤ 15 := by
  obtain ⟨n, rng, hn, hle⟩ := offsetLoop_ok g maxOffsetTicks 0
  exact ⟨n, rng, hn, by simpa [maxOffsetTicks] using hle⟩

theorem drawCross_ok {tick : ℤ} (htick : Tick tick) :
    ∃ cross rng, g.drawCross tick = .ok (cross, { g with rng }) ∧
      Crosses g.crossingAllowed tick cross := by
  rw [Generator.drawCross]
  by_cases hallowed : g.crossingAllowed
  · rw [if_pos hallowed]
    obtain ⟨hit, rng, hhit, -⟩ := randomBool_ok g (p := crossProb) (by norm_num [crossProb])
    rw [hhit, ok_bind]
    cases hit with
    | false => exact ⟨0, rng, rfl, Or.inl rfl⟩
    | true =>
      obtain ⟨n, rng', hn, hlow, hhigh⟩ := randomRange_ok { g with rng } (show 1 < 4 by decide)
      have hfit : fitI32 (tick * n) = .ok (tick * n) := by
        refine fitI32_ok ?_
        rcases htick with rfl | rfl <;> omega
      refine ⟨tick * n, rng', ?_, Or.inr ⟨hallowed, ?_⟩⟩
      · simp only [if_true, hn, ok_bind, hfit, pure_eq_ok]
      · rcases htick with rfl | rfl <;> omega
  · rw [if_neg hallowed]
    exact ⟨0, g.rng, rfl, Or.inl rfl⟩

end Generator

theorem inUnit_getD {r : Single} (h : SynthConfig.inUnit r) : 0 ≤ r.getD 0 ∧ r.getD 0 ≤ 1 := by
  cases r with
  | none => cases h
  | some q => exact of_decide_eq_true h

/-! The price. -/

/-- Where the prices of a side lie. -/
def OnGrid (tick : ℤ) : Side → ℤ → Prop
  | .bid, px => tick ≤ px ∧ px ≤ maxPrice / 2 + 3 * tick
  | .ask, px => 0 ≤ px ∧ px < maxPrice

theorem OnGrid.nonneg {tick : ℤ} (htick : Tick tick) {s : Side} {px : ℤ} (h : OnGrid tick s px) :
    0 ≤ px := by
  cases s with
  | bid =>
    have hlow := h.1
    rcases htick with ht | ht <;> omega
  | ask => exact h.1

/-- What is known of a price: where it lies, and how it stands to the best prices where it may
not cross. -/
structure Priced (l : Locate) (allowed : Bool) (bestBid bestAsk : Option (ℤ × ℕ)) (side : Side)
    (offset : ℕ) (cross px : ℤ) : Prop where
  onGrid : OnGrid l.tick side px
  /-- Only an ask that crosses by three ticks at the lowest mid has no price. -/
  zero : px = 0 ↔ side = .ask ∧ l.mid = 2 * l.tick ∧ cross = 3 * l.tick ∧ offset = 0
  bid : allowed = false → side = .bid → ∀ a ∈ bestAsk, (px < a.1 ↔ l.tick < a.1)
  ask : allowed = false → side = .ask → ∀ b ∈ bestBid, b.1 < px

/-- The mid stays on the grid. -/
def MidOk (l : Locate) : Prop := 2 * l.tick ≤ l.mid ∧ l.mid ≤ maxPrice / 2

/-- The anchor of a bid that may not cross. -/
theorem belowAsk_ok (anchor : ℤ) {tick : ℤ} (htick : Tick tick) {bestAsk : Option (ℤ × ℕ)}
    (hask : ∀ a ∈ bestAsk, OnGrid tick .ask a.1) :
    ∃ x, belowAsk anchor tick bestAsk = .ok x ∧ x ≤ anchor ∧ (anchor ≤ x ∨ -100 ≤ x) ∧
      ∀ a ∈ bestAsk, x + tick ≤ a.1 := by
  cases bestAsk with
  | none => exact ⟨anchor, rfl, le_refl _, Or.inl (le_refl _), fun a ha => by cases ha⟩
  | some a =>
    have hgrid := hask a rfl
    simp only [OnGrid, maxPrice] at hgrid
    have hcap : fitI32 (a.1 - tick) = .ok (a.1 - tick) := by
      refine fitI32_ok ?_
      rcases htick with rfl | rfl <;> omega
    refine ⟨min anchor (a.1 - tick), by rw [belowAsk, hcap]; rfl, min_le_left _ _, ?_, ?_⟩
    · rcases htick with rfl | rfl <;> omega
    · intro b hb
      obtain rfl := Option.some.inj hb
      omega

/-- The anchor of an ask that may not cross. -/
theorem aboveBid_ok (anchor : ℤ) {tick : ℤ} (htick : Tick tick) {bestBid : Option (ℤ × ℕ)}
    (hbid : ∀ b ∈ bestBid, OnGrid tick .bid b.1) :
    ∃ x, aboveBid anchor tick bestBid = .ok x ∧ anchor ≤ x ∧ (x ≤ anchor ∨ x ≤ 1000000400) ∧
      ∀ b ∈ bestBid, b.1 + tick ≤ x := by
  cases bestBid with
  | none => exact ⟨anchor, rfl, le_refl _, Or.inl (le_refl _), fun b hb => by cases hb⟩
  | some b =>
    have hgrid := hbid b rfl
    simp only [OnGrid, maxPrice] at hgrid
    have hcap : fitI32 (b.1 + tick) = .ok (b.1 + tick) := by
      refine fitI32_ok ?_
      rcases htick with rfl | rfl <;> omega
    refine ⟨max anchor (b.1 + tick), by rw [aboveBid, hcap]; rfl, le_max_left _ _, ?_, ?_⟩
    · rcases htick with rfl | rfl <;> omega
    · intro a ha
      obtain rfl := Option.some.inj ha
      omega

theorem away_ok {t : ℤ} (ht : Tick t) {offset : ℕ} (hoffset : offset ≤ 15) :
    fitI32 (offset * t) = .ok (offset * t) := by
  refine fitI32_ok ?_
  rcases ht with h | h <;> rw [h] <;> omega

section Price

variable {l : Locate} {allowed : Bool} {offset : ℕ} {cross : ℤ} (htick : Tick l.tick)
  (hmid : MidOk l)
  (hcross : Crosses allowed l.tick cross) (hoffset : offset ≤ 15)

include htick hmid hcross hoffset

theorem bidPrice_ok (bestBid : Option (ℤ × ℕ)) {bestAsk : Option (ℤ × ℕ)}
    (hask : ∀ a ∈ bestAsk, OnGrid l.tick .ask a.1) :
    ∃ px, l.price .bid allowed offset cross bestBid bestAsk = .ok px ∧
      Priced l allowed bestBid bestAsk .bid offset cross px := by
  unfold MidOk Crosses maxPrice at *
  have haway := away_ok htick hoffset
  have hanchor : fitI32 (l.mid + cross) = .ok (l.mid + cross) := by
    refine fitI32_ok ?_
    rcases htick with h | h <;> rw [h] at hcross hmid <;> omega
  obtain ⟨x, hx, hle, hlow, hcap⟩ : ∃ x, (if allowed then .ok (l.mid + cross) else
      belowAsk (l.mid + cross) l.tick bestAsk) = .ok x ∧ x ≤ l.mid + cross ∧
      (l.mid + cross ≤ x ∨ -100 ≤ x) ∧
      (allowed = false → ∀ a ∈ bestAsk, x + l.tick ≤ a.1) := by
    cases allowed with
    | true => exact ⟨_, if_pos rfl, le_refl _, Or.inl (le_refl _), fun h => by cases h⟩
    | false =>
      obtain ⟨x, hx, hle, hlow, hcap⟩ := belowAsk_ok (l.mid + cross) htick hask
      exact ⟨x, by rw [if_neg (by decide), hx], hle, hlow, fun _ => hcap⟩
  have hback : fitI32 (x - offset * l.tick) = .ok (x - offset * l.tick) := by
    refine fitI32_ok ?_
    rcases htick with h | h <;> rw [h] at hcross hmid ⊢ <;> omega
  refine ⟨max (x - offset * l.tick) l.tick, ?_, ⟨le_max_right _ _, ?_⟩, ?_, ?_, by simp⟩
  · cases allowed with
    | true =>
      obtain rfl := Except.ok.inj hx
      simp only [Locate.price, haway, hanchor, if_true, hback, ok_bind, pure_eq_ok]
    | false =>
      rw [if_neg (by decide)] at hx
      simp only [Locate.price, haway, hanchor, Bool.false_eq_true, if_false, hx, hback, ok_bind,
        pure_eq_ok]
  · simp only [maxPrice]
    rcases htick with h | h <;> rw [h] at hcross hmid ⊢ <;> omega
  · simp only [reduceCtorEq, false_and, iff_false]
    rcases htick with h | h <;> rw [h] <;> omega
  · intro hallowed _ a ha
    have := hcap hallowed a ha
    rcases htick with h | h <;> rw [h] at this ⊢ <;> omega

theorem askPrice_ok (bestAsk : Option (ℤ × ℕ)) {bestBid : Option (ℤ × ℕ)}
    (hbid : ∀ b ∈ bestBid, OnGrid l.tick .bid b.1) :
    ∃ px, l.price .ask allowed offset cross bestBid bestAsk = .ok px ∧
      Priced l allowed bestBid bestAsk .ask offset cross px := by
  unfold MidOk Crosses maxPrice at *
  have haway := away_ok htick hoffset
  have hnext : fitI32 (l.mid + l.tick) = .ok (l.mid + l.tick) := by
    refine fitI32_ok ?_
    rcases htick with h | h <;> rw [h] at hmid ⊢ <;> omega
  have hanchor : fitI32 (l.mid + l.tick - cross) = .ok (l.mid + l.tick - cross) := by
    refine fitI32_ok ?_
    rcases htick with h | h <;> rw [h] at hcross hmid ⊢ <;> omega
  obtain ⟨x, hx, hle, hhigh, hcap⟩ : ∃ x, (if allowed then .ok (l.mid + l.tick - cross) else
      aboveBid (l.mid + l.tick - cross) l.tick bestBid) = .ok x ∧ l.mid + l.tick - cross ≤ x ∧
      (x ≤ l.mid + l.tick - cross ∨ allowed = false ∧ x ≤ 1000000400) ∧
      (allowed = false → ∀ b ∈ bestBid, b.1 + l.tick ≤ x) := by
    cases allowed with
    | true => exact ⟨_, if_pos rfl, le_refl _, Or.inl (le_refl _), fun h => by cases h⟩
    | false =>
      obtain ⟨x, hx, hle, hhigh, hcap⟩ := aboveBid_ok (l.mid + l.tick - cross) htick hbid
      exact ⟨x, by rw [if_neg (by decide), hx], hle, hhigh.imp_right fun h => ⟨rfl, h⟩,
        fun _ => hcap⟩
  have hout : fitI32 (x + offset * l.tick) = .ok (x + offset * l.tick) := by
    refine fitI32_ok ?_
    rcases htick with h | h <;> rw [h] at hcross hmid hhigh hle ⊢ <;> omega
  refine ⟨x + offset * l.tick, ?_, ⟨?_, ?_⟩, ?_, by simp, ?_⟩
  · have hcut : min (x + offset * l.tick) 2000000000 = x + offset * l.tick := by
      refine min_eq_left ?_
      rcases htick with h | h <;> rw [h] at hcross hmid hhigh ⊢ <;> omega
    cases allowed with
    | true =>
      obtain rfl := Except.ok.inj hx
      simp only [Locate.price, haway, hnext, hanchor, if_true, hout, ok_bind, pure_eq_ok, maxPrice,
        hcut]
    | false =>
      rw [if_neg (by decide)] at hx
      simp only [Locate.price, haway, hnext, hanchor, Bool.false_eq_true, if_false, hx, hout,
        ok_bind, pure_eq_ok, maxPrice, hcut]
  · rcases htick with h | h <;> rw [h] at hcross hmid hle ⊢ <;> omega
  · simp only [maxPrice]
    rcases htick with h | h <;> rw [h] at hcross hmid hhigh ⊢ <;> omega
  · simp only [true_and]
    cases allowed with
    | true =>
      simp only [Bool.true_eq_false, false_and, or_false] at hhigh
      rcases htick with h | h <;> rw [h] at hcross hmid hhigh hle ⊢ <;> omega
    | false =>
      simp only [Bool.false_eq_true, false_and, or_false] at hcross
      rcases htick with h | h <;> rw [h] at hmid hle ⊢ <;> omega
  · intro hallowed _ b hb
    have := hcap hallowed b hb
    rcases htick with h | h <;> rw [h] at this ⊢ <;> omega

end Price

/-! What a locate keeps. -/

/-- The index map is the inverse of the live list. -/
def Indexed (live : List OrderId) (idx : SortedMap OrderId ℕ) : Prop :=
  ∀ id i, idx.get? id = some i ↔ live[i]? = some id

/-- A locate of the generator keeps a market: its book shows it, its live list holds the live
orders, its dead references rest nowhere, and no reference is from the next one on. -/
structure Keeps (l : Locate) (next : ℕ) (m : Market) : Prop where
  tick : Tick l.tick
  mid : MidOk l
  shows : l.book.Shows m
  indexed : Indexed l.live l.liveIdx
  live_iff : ∀ id, id ∈ l.live ↔ (m.home id).isSome
  dead : ∀ id ∈ l.dead, m.home id = none
  live_lt : ∀ id, (m.home id).isSome → id.toNat < next
  dead_lt : ∀ id ∈ l.dead, id.toNat < next
  onGrid : ∀ s px, m.queue s px ≠ [] → OnGrid l.tick s px

/-- Another mid. -/
theorem Keeps.withMid {l : Locate} {next : ℕ} {m : Market} (h : Keeps l next m) {mid : ℤ}
    (hmid : 2 * l.tick ≤ mid ∧ mid ≤ maxPrice / 2) : Keeps { l with mid } next m :=
  { h with mid := hmid }

/-- A later reference. -/
theorem Keeps.mono {l : Locate} {next next' : ℕ} {m : Market} (h : Keeps l next m)
    (hle : next ≤ next') : Keeps l next' m :=
  { h with
    live_lt := fun id hid => lt_of_lt_of_le (h.live_lt id hid) hle
    dead_lt := fun id hid => lt_of_lt_of_le (h.dead_lt id hid) hle }

theorem Keeps.best_onGrid {l : Locate} {next : ℕ} {m : Market} (h : Keeps l next m) {s : Side}
    {e : ℤ × ℕ} (he : e ∈ best m s) : OnGrid l.tick s e.1 := by
  obtain ⟨e', hl, rfl⟩ := Option.map_eq_some_iff.mp he
  obtain ⟨hq, hne⟩ := Market.queue_of_mem_levels (List.mem_of_head? hl)
  exact h.onGrid s e'.1 (hq ▸ hne)

/-- The reference to come is not live. -/
theorem Keeps.fresh {l : Locate} {next : ℕ} {m : Market} (h : Keeps l next m)
    (hnext : next < 2 ^ 64) : m.home (.ofNat next) = none := by
  by_contra hne
  have hlt := h.live_lt (.ofNat next) (Option.isSome_iff_ne_none.mpr hne)
  rw [UInt64.toNat_ofNat_of_lt' hnext] at hlt
  exact lt_irrefl _ hlt

theorem Keeps.find_of_live {l : Locate} {next : ℕ} {m : Market} (h : Keeps l next m) {id : OrderId}
    (hid : (m.home id).isSome) : ∃ s px n, m.find id = some (s, px, n) := by
  cases hfind : m.find id with
  | none => simp [h.shows.sound.find_eq_none.mp hfind] at hid
  | some p => exact ⟨p.1, p.2.1, p.2.2, rfl⟩

/-! Drawn orders. -/

/-- What is known of a drawn order. -/
structure Drafted (l : Locate) (allowed : Bool) (m : Market) (d : Draft) : Prop where
  tick : Tick l.tick
  qty_pos : 0 < d.qty
  qty_le : d.qty ≤ 1000
  priced : d.placeholder = false →
    Priced l allowed (best m .bid) (best m .ask) d.side d.offset d.cross d.px
  placeholder : d.placeholder = true → d.px = match d.side with
    | .bid => placeholderBid
    | .ask => placeholderAsk

theorem Drafted.onGrid {l : Locate} {allowed : Bool} {m : Market} {d : Draft}
    (h : Drafted l allowed m d) : OnGrid l.tick d.side d.px := by
  have htick := h.tick
  cases hp : d.placeholder with
  | false => exact (h.priced hp).onGrid
  | true =>
    rw [h.placeholder hp]
    cases d.side with
    | bid =>
      simp only [OnGrid, placeholderBid, maxPrice]
      rcases htick with ht | ht <;> omega
    | ask =>
      simp only [OnGrid, placeholderAsk, maxPrice]
      omega

namespace Generator

section Locates

variable {g : Generator} {li : ℕ} {l : Locate} {next : ℕ} {m : Market} {Q : Prop}
  (hl : g.locs[li]? = some l) (hk : Keeps l next m)

include hl hk

omit hk in
theorem setLocate_self : g.setLocate li l = g := by
  have hset : g.locs.set li l = g.locs := by
    obtain ⟨hlt, rfl⟩ := List.getElem?_eq_some_iff.mp hl
    exact List.set_getElem_self hlt
  rw [Generator.setLocate, hset]

theorem walkMid_ok : ∃ mid rng, g.walkMid li = .ok ({ g with rng }.setLocate li { l with mid }) ∧
    2 * l.tick ≤ mid ∧ mid ≤ maxPrice / 2 := by
  obtain ⟨up, rng, hup, -⟩ := randomBool_ok g (p := midStepProb) (by norm_num [midStepProb])
  obtain ⟨down, rng', hdown, -⟩ :=
    randomBool_ok { g with rng } (p := midStepProb) (by norm_num [midStepProb])
  obtain ⟨hlow, hhigh⟩ := hk.mid
  have htick := hk.tick
  unfold maxPrice at *
  have hfit : fitI32 (l.mid + ((if up then 1 else 0) - (if down then 1 else 0)) * l.tick) =
      .ok (l.mid + ((if up then 1 else 0) - (if down then 1 else 0)) * l.tick) := by
    refine fitI32_ok ?_
    rcases htick with h | h <;> rw [h] at hlow ⊢ <;> cases up <;> cases down <;> simp <;> omega
  refine ⟨min (max (l.mid + ((if up then 1 else 0) - (if down then 1 else 0)) * l.tick)
    (2 * l.tick)) (2000000000 / 2), rng', ?_, ?_, ?_⟩
  · have hl' : ({ g with rng := rng' } : Generator).locs[li]? = some l := hl
    simp only [Generator.walkMid, hup, hdown, ok_bind, index_ok hl, hfit, pure_eq_ok]
    rfl
  · rcases htick with h | h <;> rw [h] at hlow ⊢ <;> omega
  · exact min_le_right _ _

theorem priceFor_returns (hq : Q → Bounded m) (s : Side) :
    Returns Q (fun p => (∃ rng, p.2 = { g with rng }) ∧
      Priced l g.crossingAllowed (best m .bid) (best m .ask) s p.1.1 p.1.2.1 p.1.2.2)
      (g.priceFor li s) := by
  obtain ⟨offset, rng, hoffset, hle⟩ := offsetTicks_ok g
  simp only [Generator.priceFor, hoffset, ok_bind, index_ok hl]
  refine (hk.shows.quote_returns hq .bid).bind fun bestBid hbid => ?_
  refine (hk.shows.quote_returns hq .ask).bind fun bestAsk hask => ?_
  obtain ⟨rfl, -⟩ := hbid
  obtain ⟨rfl, -⟩ := hask
  obtain ⟨cross, rng', hdraw, hcross⟩ := drawCross_ok { g with rng } hk.tick
  have hallowed : ({ g with rng } : Generator).crossingAllowed = g.crossingAllowed := rfl
  rw [hallowed] at hcross
  simp only [hdraw, ok_bind]
  cases s with
  | bid =>
    obtain ⟨px, hpx, hpriced⟩ := bidPrice_ok hk.tick hk.mid hcross hle (best m .bid)
      fun a ha => hk.best_onGrid ha
    simp only [hpx, ok_bind, pure_eq_ok]
    exact Returns.of_ok ⟨⟨rng', rfl⟩, hpriced⟩
  | ask =>
    obtain ⟨px, hpx, hpriced⟩ := askPrice_ok hk.tick hk.mid hcross hle (best m .ask)
      fun b hb => hk.best_onGrid hb
    simp only [hpx, ok_bind, pure_eq_ok]
    exact Returns.of_ok ⟨⟨rng', rfl⟩, hpriced⟩

theorem drawOrder_returns (hrate : SynthConfig.inUnit g.cfg.placeholderRate) (hq : Q → Bounded m) :
    Returns Q (fun p => ∃ mid rng, p.2 = { g with rng }.setLocate li { l with mid } ∧
      Keeps { l with mid } next m ∧ Drafted { l with mid } g.crossingAllowed m p.1)
      (g.drawOrder li) := by
  obtain ⟨s, rng, hside⟩ := drawSide_ok g
  obtain ⟨placeholder, rng', hplace, -⟩ := randomBool_ok { g with rng } (inUnit_getD hrate)
  simp only [Generator.drawOrder, hside, ok_bind, hplace]
  cases placeholder with
  | true =>
    obtain ⟨n, rng'', hn, hpos, hle⟩ := qty_ok { g with rng := rng' }
    have hself : { g with rng := rng'' }.setLocate li { l with mid := l.mid } =
        { g with rng := rng'' } :=
      setLocate_self (show { g with rng := rng'' }.locs[li]? = some l from hl)
    simp only [if_true, hn, ok_bind, pure_eq_ok]
    refine Returns.of_ok ⟨l.mid, rng'', hself.symm, hk, hk.tick, hpos, hle,
      fun h => ?_, fun _ => ?_⟩
    · cases h
    · cases s <;> rfl
  | false =>
    obtain ⟨mid, rng'', hwalk, hmid⟩ :=
      walkMid_ok (show { g with rng := rng' }.locs[li]? = some l from hl) hk
    have hkeep := hk.withMid hmid
    have hli : li < g.locs.length := (List.getElem?_eq_some_iff.mp hl).1
    have hl' : ({ g with rng := rng'' }.setLocate li { l with mid }).locs[li]? =
        some { l with mid } := List.getElem?_set_self hli
    simp only [Bool.false_eq_true, if_false, hwalk, ok_bind]
    refine (priceFor_returns hl' hkeep hq s).bind fun p hp => ?_
    obtain ⟨⟨offset, cross, px⟩, g'⟩ := p
    obtain ⟨⟨rng₁, rfl⟩, hpriced⟩ := hp
    obtain ⟨n, rng₂, hn, hpos, hle⟩ :=
      qty_ok { { g with rng := rng'' }.setLocate li { l with mid } with rng := rng₁ }
    simp only [hn, ok_bind, pure_eq_ok]
    exact Returns.of_ok ⟨mid, rng₂, rfl, hkeep, hk.tick, hpos, hle, fun _ => hpriced,
      fun h => by cases h⟩

theorem drawReplacement_returns (hq : Q → Bounded m) {old : OrderId} {s : Side} {px : ℤ}
    (hold : m.home old = some (s, px)) :
    Returns Q (fun p => (∃ rng, p.2 = { g with rng }) ∧
      Drafted l g.crossingAllowed m p.1 ∧ p.1.side = s) (g.drawReplacement li old) := by
  simp only [Generator.drawReplacement, index_ok hl, ok_bind, hk.shows.lookup_eq, hold,
    expect_some]
  refine (priceFor_returns hl hk hq s).bind fun p hp => ?_
  obtain ⟨⟨offset, cross, px⟩, g'⟩ := p
  obtain ⟨⟨rng, rfl⟩, hpriced⟩ := hp
  obtain ⟨n, rng', hn, hpos, hle⟩ := qty_ok { g with rng }
  simp only [hn, ok_bind, pure_eq_ok]
  exact Returns.of_ok ⟨⟨rng', rfl⟩, ⟨hk.tick, hpos, hle, fun _ => hpriced, fun h => by cases h⟩,
    rfl⟩

theorem pickLive_ok : ∃ o rng, g.pickLive li = .ok (o, { g with rng }) ∧
    ∀ id ∈ o, (m.home id).isSome := by
  simp only [Generator.pickLive, index_ok hl, ok_bind]
  cases hlive : l.live with
  | nil => exact ⟨none, g.rng, rfl, fun id hid => by cases hid⟩
  | cons a as =>
    obtain ⟨i, rng, hi, -, hlt⟩ := randomRange_ok g (show 0 < (a :: as).length by simp)
    have hget := List.getElem?_eq_getElem hlt
    simp only [List.isEmpty_cons, Bool.false_eq_true, if_false, hi, ok_bind, index_ok hget,
      pure_eq_ok]
    refine ⟨_, rng, rfl, fun id hid => ?_⟩
    obtain rfl := Option.some.inj hid
    refine (hk.live_iff _).mp ?_
    rw [hlive]
    exact List.getElem_mem hlt

theorem drawUnknown_ok (hrate : SynthConfig.inUnit g.cfg.unknownRefRate) :
    ∃ o rng, g.drawUnknown li = .ok (o, { g with rng }) ∧
      ∀ t ∈ o, m.home t.1 = none ∧ 0 < t.2 ∧ t.2 ≤ 1000 := by
  simp only [Generator.drawUnknown, index_ok hl, ok_bind]
  by_cases hnone : (!g.keepDead || l.dead.isEmpty) = true
  · rw [if_pos hnone]
    exact ⟨none, g.rng, rfl, fun t ht => by cases ht⟩
  · obtain ⟨hit, rng, hhit, -⟩ := randomBool_ok g (inUnit_getD hrate)
    simp only [if_neg hnone, hhit, ok_bind]
    cases hit with
    | false => exact ⟨none, rng, rfl, fun t ht => by cases ht⟩
    | true =>
      have hne : 0 < l.dead.length := by
        simp only [Bool.or_eq_true, not_or, Bool.not_eq_true, List.isEmpty_eq_false_iff] at hnone
        exact List.length_pos_of_ne_nil hnone.2
      obtain ⟨i, rng', hi, -, hlt⟩ := randomRange_ok { g with rng } hne
      obtain ⟨n, rng'', hn, hpos, hle⟩ := qty_ok { g with rng := rng' }
      simp only [Bool.not_true, Bool.false_eq_true, if_false, hi, ok_bind,
        index_ok (List.getElem?_eq_getElem hlt), hn, pure_eq_ok]
      refine ⟨_, rng'', rfl, fun t ht => ?_⟩
      obtain rfl := Option.some.inj ht
      exact ⟨hk.dead _ (List.getElem_mem hlt), hpos, hle⟩

end Locates

end Generator

end Lobcore.GeneratorDraws
