import Lobcore.Checked
import Lobcore.OrderFlow
import Mathlib.Algebra.Order.BigOperators.Group.List
import Mathlib.Algebra.Order.Field.Basic
import Mathlib.Data.Rat.Cast.Order
import Mathlib.Tactic.FieldSimp
import Mathlib.Tactic.Linarith
import Mathlib.Tactic.Ring

/-!
Mids, spread and imbalances of a snapshot (`lob-features`). Every feature is an exact rational: a
numerator and a denominator in fixed-width integers, where a result outside the width aborts. The
values are read off in the rationals.
-/
namespace Lobcore.WeightedMids

open Checked OrderFlow

/-- The result of a signed operation of `w + 1` bits, computed without bounds. -/
def fit (w : ℕ) (x : ℤ) : Exec ℤ :=
  if -2 ^ w ≤ x ∧ x < 2 ^ w then .ok x else .error .overflow

def fitI64 : ℤ → Exec ℤ := fit 63

def fitI128 : ℤ → Exec ℤ := fit 127

theorem fitI64_ok {x : ℤ} (h : -2 ^ 63 ≤ x ∧ x < 2 ^ 63) : fitI64 x = .ok x := if_pos h

theorem fitI128_ok {x : ℤ} (h : -2 ^ 127 ≤ x ∧ x < 2 ^ 127) : fitI128 x = .ok x := if_pos h

theorem fit_eq {w : ℕ} {x y : ℤ} (h : fit w x = .ok y) : y = x := by
  unfold fit at h
  split at h
  · exact (Except.ok.inj h).symm
  · cases h

/-- Top-five quantities per side, level 1 first; missing levels are zero. -/
structure L5 where
  bid : Vector UInt32 5
  ask : Vector UInt32 5
  deriving DecidableEq, Repr

/-- An exact rational; both fields are `i64`. -/
structure Ratio where
  num : ℤ
  den : ℤ
  deriving DecidableEq, Repr

/-- The quantity-weighted mid; the numerator is `i128`, the denominator `i64`. -/
structure Wmid where
  num : ℤ
  den : ℤ
  deriving DecidableEq, Repr

def Ratio.val (r : Ratio) : ℚ := r.num / r.den

def Wmid.val (w : Wmid) : ℚ := w.num / w.den

/-- Exact equality of two rationals by cross-multiplication. -/
def Ratio.eqExact (r other : Ratio) : Exec Bool := do
  let left ← fitI128 (r.num * other.den)
  let right ← fitI128 (other.num * r.den)
  return left == right

/-- Exact equality with a `Ratio` by cross-multiplication. -/
def Wmid.eqRatio (w : Wmid) (r : Ratio) : Exec Bool := do
  let left ← fitI128 (w.num * r.den)
  let right ← fitI128 (r.num * w.den)
  return left == right

/-- Weighted mid; nothing when both quantities are zero. -/
def wmid (bidPx : Int64) (bidQty : UInt32) (askPx : Int64) (askQty : UInt32) :
    Exec (Option Wmid) := do
  let den ← fitI64 (bidQty.toNat + askQty.toNat)
  if den = 0 then
    return none
  let bidPart ← fitI128 (bidPx.toInt * askQty.toNat)
  let askPart ← fitI128 (askPx.toInt * bidQty.toNat)
  let num ← fitI128 (bidPart + askPart)
  return some ⟨num, den⟩

/-- Mid price. -/
def mid (l1 : L1) : Exec Ratio := do
  let num ← fitI64 (l1.bidPx.toInt + l1.askPx.toInt)
  return ⟨num, 2⟩

/-- Spread, negative when the book is crossed. -/
def spread (l1 : L1) : Exec ℤ := fitI64 (l1.askPx.toInt - l1.bidPx.toInt)

/-- `i64::try_from(q).expect("depth fits i64")`. -/
def depthI64 (q : ℕ) : Exec ℤ := expect (if q < 2 ^ 63 then some (q : ℤ) else none)

def imbalance (bid ask : ℕ) : Exec (Option Ratio) := do
  let den ← addU64 bid ask
  if den = 0 then
    return none
  let num ← depthI64 bid
  let den ← depthI64 den
  return some ⟨num, den⟩

/-- L1 imbalance; nothing when both quantities are zero. -/
def imb1 (bidQty askQty : UInt32) : Exec (Option Ratio) := imbalance bidQty.toNat askQty.toNat

/-- Sum of the five quantities of one side. -/
def depth5 (levels : Vector UInt32 5) : Exec ℕ := sumU 64 (levels.toList.map UInt32.toNat)

/-- L5 imbalance; nothing when both depths are zero. -/
def imb5 (l5 : L5) : Exec (Option Ratio) := do
  let bid ← depth5 l5.bid
  let ask ← depth5 l5.ask
  imbalance bid ask

/-- Signed imbalance. -/
def signedImb (imb : Ratio) : Exec Ratio := do
  let twice ← fitI64 (2 * imb.num)
  let num ← fitI64 (twice - imb.den)
  return ⟨num, imb.den⟩

/-! Cross-multiplication. -/

theorem cross_iff {a b c d : ℤ} (hb : 0 < b) (hd : 0 < d) :
    a * d = c * b ↔ (a : ℚ) / b = c / d := by
  have hb' : (b : ℚ) ≠ 0 := by exact_mod_cast hb.ne'
  have hd' : (d : ℚ) ≠ 0 := by exact_mod_cast hd.ne'
  rw [div_eq_div_iff hb' hd']
  exact_mod_cast Iff.rfl

theorem Ratio.eqExact_iff {r other : Ratio} {b : Bool} (hr : 0 < r.den) (ho : 0 < other.den)
    (h : r.eqExact other = .ok b) : b = true ↔ r.val = other.val := by
  obtain ⟨left, hleft, h⟩ := bind_eq_ok.mp h
  obtain ⟨right, hright, h⟩ := bind_eq_ok.mp h
  obtain rfl := fit_eq hleft
  obtain rfl := fit_eq hright
  obtain rfl := Except.ok.inj h
  rw [beq_iff_eq]
  exact cross_iff hr ho

theorem Wmid.eqRatio_iff {w : Wmid} {r : Ratio} {b : Bool} (hw : 0 < w.den) (hr : 0 < r.den)
    (h : w.eqRatio r = .ok b) : b = true ↔ w.val = r.val := by
  obtain ⟨left, hleft, h⟩ := bind_eq_ok.mp h
  obtain ⟨right, hright, h⟩ := bind_eq_ok.mp h
  obtain rfl := fit_eq hleft
  obtain rfl := fit_eq hright
  obtain rfl := Except.ok.inj h
  rw [beq_iff_eq]
  exact cross_iff hw hr

/-! Imbalances. -/

theorem depthI64_ok {q : ℕ} (h : q < 2 ^ 63) : depthI64 q = .ok (q : ℤ) := by
  rw [depthI64, if_pos h, expect_some]

/-- The share of the bid side, below sums of `2 ^ 63`. -/
theorem imbalance_ok {bid ask : ℕ} (h : bid + ask < 2 ^ 63) :
    imbalance bid ask =
      .ok (if bid + ask = 0 then none else some ⟨bid, (bid + ask : ℕ)⟩) := by
  have hsum : addU64 bid ask = .ok (bid + ask) := addU64_ok (by omega)
  have hbid : depthI64 bid = .ok (bid : ℤ) := depthI64_ok (by omega)
  unfold imbalance
  rw [hsum, ok_bind]
  split_ifs with hzero
  · rfl
  · rw [hbid, depthI64_ok h]
    rfl

theorem signedImb_ok {bid ask : ℕ} (h : bid + ask < 2 ^ 62) :
    signedImb ⟨bid, (bid + ask : ℕ)⟩ = .ok ⟨(bid : ℤ) - ask, (bid + ask : ℕ)⟩ := by
  unfold signedImb
  dsimp only
  rw [fitI64_ok (by omega), ok_bind, fitI64_ok (by omega), ok_bind, pure_eq_ok]
  congr 2
  push_cast
  ring

/-- A share in `[0, 1]` is signed in `[-1, 1]`. -/
theorem signed_bounds {bid ask : ℕ} (h : bid + ask ≠ 0) :
    let imb : Ratio := ⟨bid, (bid + ask : ℕ)⟩
    let signed : Ratio := ⟨(bid : ℤ) - ask, (bid + ask : ℕ)⟩
    signed.val = 2 * imb.val - 1 ∧ -1 ≤ signed.val ∧ signed.val ≤ 1 := by
  have hpos : (0 : ℚ) < (bid : ℚ) + ask := by exact_mod_cast Nat.pos_of_ne_zero h
  have hbid : (0 : ℚ) ≤ bid := Nat.cast_nonneg bid
  have hask : (0 : ℚ) ≤ ask := Nat.cast_nonneg ask
  simp only [Ratio.val]
  push_cast
  refine ⟨?_, ?_, ?_⟩
  · field_simp
    ring
  · rw [le_div_iff₀ hpos]
    linarith
  · rw [div_le_iff₀ hpos]
    linarith

theorem depth5_le (levels : Vector UInt32 5) :
    ∃ n, depth5 levels = .ok n ∧ n < 5 * 2 ^ 32 := by
  have hlen : (levels.toList.map UInt32.toNat).length = 5 := by simp
  have hsum : (levels.toList.map UInt32.toNat).sum ≤ 5 * (2 ^ 32 - 1) := by
    have hle := List.sum_le_card_nsmul (levels.toList.map UInt32.toNat) (2 ^ 32 - 1) fun n hn => by
      obtain ⟨q, -, rfl⟩ := List.mem_map.mp hn
      have hq := q.toNat_lt
      omega
    rwa [hlen] at hle
  exact ⟨_, sumU_ok (by omega), by omega⟩

/-- The L5 imbalance of any snapshot, and its signed form. -/
theorem imb5_signed (l5 : L5) : ∃ i, imb5 l5 = .ok i ∧ ∀ imb ∈ i,
    ∃ g, signedImb imb = .ok g ∧ g.val = 2 * imb.val - 1 ∧ -1 ≤ g.val ∧ g.val ≤ 1 := by
  obtain ⟨bid, hbid, hblt⟩ := depth5_le l5.bid
  obtain ⟨ask, hask, halt⟩ := depth5_le l5.ask
  have himb := imbalance_ok (show bid + ask < 2 ^ 63 by omega)
  refine ⟨_, by rw [imb5, hbid, ok_bind, hask, ok_bind, himb], fun imb hmem => ?_⟩
  split_ifs at hmem with hzero
  · cases hmem
  · obtain rfl := Option.some.inj hmem
    exact ⟨_, signedImb_ok (by omega), signed_bounds hzero⟩

/-! The weighted mid. -/

variable {p q : ℤ} {b a : ℕ}

/-- The mid moved by the signed share of the bid side times half the spread. -/
theorem weighted_eq (h : b + a ≠ 0) :
    ((p * a + q * b : ℤ) : ℚ) / (b + a : ℕ) =
      ((p + q : ℤ) : ℚ) / 2 + ((b : ℚ) / (b + a : ℕ) - 1 / 2) * (q - p : ℤ) := by
  have hne : (b : ℚ) + a ≠ 0 := by exact_mod_cast h
  push_cast
  field_simp
  ring

theorem weighted_between (h : b + a ≠ 0) :
    min (p : ℚ) q ≤ ((p * a + q * b : ℤ) : ℚ) / (b + a : ℕ) ∧
      ((p * a + q * b : ℤ) : ℚ) / (b + a : ℕ) ≤ max (p : ℚ) q := by
  have hpos : (0 : ℚ) < (b : ℚ) + a := by exact_mod_cast Nat.pos_of_ne_zero h
  have hb : (0 : ℚ) ≤ b := Nat.cast_nonneg b
  have ha : (0 : ℚ) ≤ a := Nat.cast_nonneg a
  push_cast
  rw [le_div_iff₀ hpos, div_le_iff₀ hpos]
  constructor
  · calc min (p : ℚ) q * (b + a) = min (p : ℚ) q * a + min (p : ℚ) q * b := by ring
      _ ≤ p * a + q * b := add_le_add (mul_le_mul_of_nonneg_right (min_le_left _ _) ha)
          (mul_le_mul_of_nonneg_right (min_le_right _ _) hb)
  · calc (p : ℚ) * a + q * b ≤ max (p : ℚ) q * a + max (p : ℚ) q * b :=
          add_le_add (mul_le_mul_of_nonneg_right (le_max_left _ _) ha)
            (mul_le_mul_of_nonneg_right (le_max_right _ _) hb)
      _ = max (p : ℚ) q * (b + a) := by ring

/-- The weighted mid of prices within 32 bits. -/
theorem wmid_ok {bidPx askPx : Int64} (bidQty askQty : UInt32)
    (hbid : -2 ^ 31 ≤ bidPx.toInt ∧ bidPx.toInt < 2 ^ 31)
    (hask : -2 ^ 31 ≤ askPx.toInt ∧ askPx.toInt < 2 ^ 31) :
    wmid bidPx bidQty askPx askQty =
      .ok (if bidQty.toNat + askQty.toNat = 0 then none
        else some ⟨bidPx.toInt * askQty.toNat + askPx.toInt * bidQty.toNat,
          (bidQty.toNat + askQty.toNat : ℕ)⟩) := by
  have hbq := bidQty.toNat_lt
  have haq := askQty.toNat_lt
  have hpart : ∀ (px : ℤ) (n : ℕ), -2 ^ 31 ≤ px ∧ px < 2 ^ 31 → n < 2 ^ 32 →
      -2 ^ 63 ≤ px * n ∧ px * n ≤ 2 ^ 63 := by
    intro px n hpx hn
    have hn' : (0 : ℤ) ≤ n ∧ (n : ℤ) ≤ 2 ^ 32 := by omega
    constructor <;> nlinarith only [hpx.1, hpx.2, hn'.1, hn'.2]
  have hleft := hpart bidPx.toInt askQty.toNat hbid haq
  have hright := hpart askPx.toInt bidQty.toNat hask hbq
  unfold wmid
  rw [fitI64_ok (by omega), ok_bind]
  split_ifs with hz hzero hzero
  · rfl
  · omega
  · omega
  · rw [fitI128_ok (by omega), ok_bind, fitI128_ok (by omega), ok_bind, fitI128_ok (by omega),
      ok_bind, pure_eq_ok, Nat.cast_add]

theorem mid_ok {l1 : L1} (hbid : -2 ^ 31 ≤ l1.bidPx.toInt ∧ l1.bidPx.toInt < 2 ^ 31)
    (hask : -2 ^ 31 ≤ l1.askPx.toInt ∧ l1.askPx.toInt < 2 ^ 31) :
    mid l1 = .ok ⟨l1.bidPx.toInt + l1.askPx.toInt, 2⟩ := by
  rw [mid, fitI64_ok (by omega)]
  rfl

theorem spread_ok {l1 : L1} (hbid : -2 ^ 31 ≤ l1.bidPx.toInt ∧ l1.bidPx.toInt < 2 ^ 31)
    (hask : -2 ^ 31 ≤ l1.askPx.toInt ∧ l1.askPx.toInt < 2 ^ 31) :
    spread l1 = .ok (l1.askPx.toInt - l1.bidPx.toInt) := fitI64_ok (by omega)

/-- One snapshot at prices of 32 bits. Nothing overflows; the weighted mid and the imbalance are
undefined together, on two empty sides; the weighted mid is the mid moved by the imbalance over
the spread, between the two prices, and the signed imbalance lies between `-1` and `1`. -/
theorem weighted_mid (bid ask : Int32) (bidQty askQty : UInt32) :
    let l1 : L1 := ⟨bid.toInt64, bidQty, ask.toInt64, askQty⟩
    ∃ w i m s, wmid l1.bidPx l1.bidQty l1.askPx l1.askQty = .ok w ∧
      imb1 l1.bidQty l1.askQty = .ok i ∧ mid l1 = .ok m ∧ spread l1 = .ok s ∧
      (w = none ↔ bidQty = 0 ∧ askQty = 0) ∧ (i = none ↔ bidQty = 0 ∧ askQty = 0) ∧
      ∀ wm ∈ w, ∀ imb ∈ i, 0 < wm.den ∧ 0 < imb.den ∧
        wm.val = m.val + (imb.val - 1 / 2) * s ∧
        min (bid.toInt : ℚ) ask.toInt ≤ wm.val ∧ wm.val ≤ max (bid.toInt : ℚ) ask.toInt ∧
        ∃ g, signedImb imb = .ok g ∧ g.val = 2 * imb.val - 1 ∧ -1 ≤ g.val ∧ g.val ≤ 1 := by
  intro l1
  have hbid : l1.bidPx.toInt = bid.toInt := Int32.toInt_toInt64 bid
  have hask : l1.askPx.toInt = ask.toInt := Int32.toInt_toInt64 ask
  have hbpx : -2 ^ 31 ≤ l1.bidPx.toInt ∧ l1.bidPx.toInt < 2 ^ 31 := by
    rw [hbid]
    exact ⟨bid.le_toInt, bid.toInt_lt⟩
  have hapx : -2 ^ 31 ≤ l1.askPx.toInt ∧ l1.askPx.toInt < 2 ^ 31 := by
    rw [hask]
    exact ⟨ask.le_toInt, ask.toInt_lt⟩
  have hbq := bidQty.toNat_lt
  have haq := askQty.toNat_lt
  have hempty : bidQty.toNat + askQty.toNat = 0 ↔ bidQty = 0 ∧ askQty = 0 := by
    rw [Nat.add_eq_zero_iff, ← UInt32.toNat_inj, ← UInt32.toNat_inj]
    rfl
  have himb : imb1 bidQty askQty = _ := imbalance_ok (by omega)
  refine ⟨_, _, _, _, wmid_ok bidQty askQty hbpx hapx, himb, mid_ok hbpx hapx,
    spread_ok hbpx hapx, ?_, ?_, fun wm hwm imb hi => ?_⟩
  · simp only [ite_eq_left_iff, reduceCtorEq, imp_false, not_not, hempty]
  · simp only [ite_eq_left_iff, reduceCtorEq, imp_false, not_not, hempty]
  split_ifs at hwm hi with hzero
  · cases hwm
  obtain rfl := Option.some.inj hwm
  obtain rfl := Option.some.inj hi
  have hden : 0 < ((bidQty.toNat + askQty.toNat : ℕ) : ℤ) := by omega
  have hbetween := weighted_between (p := bid.toInt) (q := ask.toInt) hzero
  rw [hbid, hask]
  exact ⟨hden, hden, weighted_eq hzero, hbetween.1, hbetween.2,
    ⟨_, signedImb_ok (by omega), signed_bounds hzero⟩⟩

end Lobcore.WeightedMids
