import Lobcore.OrderTypes
import Lobcore.PathSums

/-!
Order-flow imbalance (`lob-features`). A step compares the best prices of two snapshots and adds
or takes away their quantities; a window adds up the steps between neighbours. The arithmetic
wraps in 64 bits, as the release build of the code does; it is the image of the arithmetic of
integers, where the laws are those of sums along a path.
-/
namespace Lobcore.OrderFlow

open PathSums

/-- Best bid and ask, both sides present. -/
structure L1 where
  bidPx : Int64
  bidQty : UInt32
  askPx : Int64
  askQty : UInt32
  deriving DecidableEq, Repr

/-- `i64::from` on a quantity. -/
def fromQty (q : UInt32) : Int64 := .ofNat q.toNat

/-- One order-flow imbalance step. -/
def ofiStep (prev cur : L1) : Int64 :=
  let (pb, pa) := (fromQty prev.bidQty, fromQty prev.askQty)
  let (cb, ca) := (fromQty cur.bidQty, fromQty cur.askQty)
  let e := 0
  let e := if prev.bidPx ≤ cur.bidPx then e + cb else e
  let e := if cur.bidPx ≤ prev.bidPx then e - pb else e
  let e := if cur.askPx ≤ prev.askPx then e - ca else e
  if prev.askPx ≤ cur.askPx then e + pa else e

/-- The loop over the snapshots behind the first one. -/
def ofiLoop (prev : L1) (sum : Int64) : List L1 → Int64
  | [] => sum
  | cur :: rest => ofiLoop cur (sum + ofiStep prev cur) rest

/-- Windowed imbalance: the sum of the steps over consecutive pairs. -/
def ofiWindow : List L1 → Int64
  | [] => 0
  | prev :: rest => ofiLoop prev 0 rest

/-! In the integers. -/

/-- What a side adds to the step when its price moves from `p` to `c` and its quantity from `old`
to `new`: the new quantity unless the price fell behind, less the old one unless it went ahead. -/
def sideFlow (p c old new : ℤ) : ℤ := (if p ≤ c then new else 0) - if c ≤ p then old else 0

/-- The step in the integers. An ask is a bid at the negated price. -/
def flow (prev cur : L1) : ℤ :=
  sideFlow prev.bidPx.toInt cur.bidPx.toInt prev.bidQty.toNat cur.bidQty.toNat -
    sideFlow (-prev.askPx.toInt) (-cur.askPx.toInt) prev.askQty.toNat cur.askQty.toNat

theorem ofiStep_eq (prev cur : L1) : ofiStep prev cur = .ofInt (flow prev cur) := by
  have hqty : ∀ q : UInt32, Int64.ofInt (q.toNat : ℤ) = fromQty q := fun q =>
    Int64.ofInt_eq_ofNat
  have hzero : Int64.ofInt 0 = 0 := rfl
  simp only [ofiStep, flow, sideFlow, Int64.le_iff_toInt_le, neg_le_neg_iff]
  split_ifs <;> simp only [Int64.ofInt_sub, hqty, hzero] <;> grind

theorem ofiLoop_eq (prev : L1) (sum : Int64) (rest : List L1) :
    ofiLoop prev sum rest = sum + .ofInt (pathSum flow (prev :: rest)) := by
  induction rest generalizing prev sum with
  | nil => exact (Int64.add_zero sum).symm
  | cons cur rest ih =>
    rw [ofiLoop, ih, ofiStep_eq, pathSum, Int64.ofInt_add, Int64.add_assoc]

/-- A window weighs what its steps weigh together. -/
theorem ofiWindow_eq (xs : List L1) : ofiWindow xs = .ofInt (pathSum flow xs) := by
  cases xs with
  | nil => rfl
  | cons prev rest => rw [ofiWindow, ofiLoop_eq, Int64.zero_add]

/-! Sizes. -/

theorem abs_flow_le (prev cur : L1) : |flow prev cur| ≤ 2 ^ 33 := by
  have hside : ∀ (p c : ℤ) (old new : UInt32),
      |sideFlow p c old.toNat new.toNat| ≤ 2 ^ 32 := by
    intro p c old new
    have hold := old.toNat_lt
    have hnew := new.toNat_lt
    rw [sideFlow, abs_le]
    split_ifs <;> omega
  have hbid := abs_le.mp (hside prev.bidPx.toInt cur.bidPx.toInt prev.bidQty cur.bidQty)
  have hask := abs_le.mp (hside (-prev.askPx.toInt) (-cur.askPx.toInt) prev.askQty cur.askQty)
  rw [flow, abs_le]
  omega

/-- Nothing wraps in a window of up to `2 ^ 30` snapshots. -/
theorem toInt_ofiWindow {xs : List L1} (h : xs.length ≤ 2 ^ 30) :
    (ofiWindow xs).toInt = pathSum flow xs := by
  rw [ofiWindow_eq]
  cases xs with
  | nil => rfl
  | cons x xs =>
    have habs := abs_pathSum_le abs_flow_le x xs
    rw [List.length_cons] at h
    have hlen : (xs.length : ℤ) * 2 ^ 33 ≤ (2 ^ 30 - 1) * 2 ^ 33 := by omega
    have hbound := abs_le.mp (habs.trans hlen)
    exact Int64.toInt_ofInt_of_le (by omega) (by omega)

/-! Prices that stay. -/

/-- The quantity at the bid over that at the ask. -/
def excess (x : L1) : ℤ := x.bidQty.toNat - x.askQty.toNat

theorem flow_of_same_prices {x y : L1} (hbid : y.bidPx = x.bidPx) (hask : y.askPx = x.askPx) :
    flow x y = excess y - excess x := by
  simp only [flow, sideFlow, hbid, hask, le_refl, if_true, excess]
  omega

theorem pathSum_of_same_prices {x : L1} {xs : List L1}
    (h : ∀ y ∈ xs, y.bidPx = x.bidPx ∧ y.askPx = x.askPx) :
    pathSum flow (x :: xs) = excess ((x :: xs).getLast (List.cons_ne_nil _ _)) - excess x := by
  refine pathSum_telescope ?_
  have hall : ∀ y ∈ x :: xs, y.bidPx = x.bidPx ∧ y.askPx = x.askPx :=
    List.forall_mem_cons.mpr ⟨⟨rfl, rfl⟩, h⟩
  refine List.Pairwise.isChain (List.pairwise_of_forall_mem_list fun a ha b hb => ?_)
  obtain ⟨habid, haask⟩ := hall a ha
  obtain ⟨hbbid, hbask⟩ := hall b hb
  exact flow_of_same_prices (hbbid.trans habid.symm) (hbask.trans haask.symm)

/-! Mirrors. -/

/-- The quantities swapped, the prices swapped and negated. -/
structure Mirrored (x y : L1) : Prop where
  bidPx : y.bidPx.toInt = -x.askPx.toInt
  askPx : y.askPx.toInt = -x.bidPx.toInt
  bidQty : y.bidQty = x.askQty
  askQty : y.askQty = x.bidQty

/-- A snapshot has a mirror unless a price is the least number, which has no negation. -/
theorem exists_mirrored (x : L1) : (∃ y, Mirrored x y) ↔
    x.bidPx ≠ Int64.minValue ∧ x.askPx ≠ Int64.minValue := by
  have hmin : Int64.minValue.toInt = -2 ^ 63 := rfl
  have hne : ∀ px : Int64, px ≠ Int64.minValue ↔ px.toInt ≠ -2 ^ 63 := fun px => by
    rw [← hmin, ne_eq, ne_eq, Int64.toInt_inj]
  have hbid := x.bidPx.le_toInt
  have hask := x.askPx.le_toInt
  have hbid' := x.bidPx.toInt_lt
  have hask' := x.askPx.toInt_lt
  rw [hne, hne]
  constructor
  · rintro ⟨y, h⟩
    have hy := y.bidPx.toInt_lt
    have hy' := y.askPx.toInt_lt
    rw [h.bidPx] at hy
    rw [h.askPx] at hy'
    omega
  · rintro ⟨hb, ha⟩
    exact ⟨⟨.ofInt (-x.askPx.toInt), x.askQty, .ofInt (-x.bidPx.toInt), x.bidQty⟩,
      Int64.toInt_ofInt_of_le (by omega) (by omega), Int64.toInt_ofInt_of_le (by omega) (by omega),
      rfl, rfl⟩

theorem flow_mirrored {x y x' y' : L1} (hx : Mirrored x x') (hy : Mirrored y y') :
    flow x' y' = -flow x y := by
  simp only [flow, hx.bidPx, hx.askPx, hx.bidQty, hx.askQty, hy.bidPx, hy.askPx, hy.bidQty,
    hy.askQty, neg_neg, neg_sub]

theorem pathSum_mirrored {xs ys : List L1} (h : List.Forall₂ Mirrored xs ys) :
    pathSum flow ys = -pathSum flow xs := by
  have hstep : ∀ x y x' y', Mirrored x x' → Mirrored y y' → flow x' y' = -flow x y :=
    fun _ _ _ _ hx hy => flow_mirrored hx hy
  exact pathSum_neg hstep h

/-- The laws of order-flow imbalance. Windows are additive at every snapshot; where the best
prices stay, a window is the change of the quantities; mirrored snapshots have the negated step and
window. -/
theorem ofi_laws :
    (∀ (xs : List L1) (m : L1) (ys : List L1),
      ofiWindow (xs ++ [m] ++ ys) = ofiWindow (xs ++ [m]) + ofiWindow ([m] ++ ys)) ∧
    (∀ (x : L1) (xs : List L1), (∀ y ∈ xs, y.bidPx = x.bidPx ∧ y.askPx = x.askPx) →
      ∃ z, (x :: xs).getLast? = some z ∧ (ofiWindow (x :: xs)).toInt =
        ((z.bidQty.toNat : ℤ) - x.bidQty.toNat) - (z.askQty.toNat - x.askQty.toNat)) ∧
    (∀ x y x' y' : L1, Mirrored x x' → Mirrored y y' → ofiStep x' y' = -ofiStep x y) ∧
    ∀ xs ys : List L1, List.Forall₂ Mirrored xs ys → ofiWindow ys = -ofiWindow xs := by
  refine ⟨fun xs m ys => ?_, fun x xs h => ?_, fun x y x' y' hx hy => ?_, fun xs ys h => ?_⟩
  · rw [ofiWindow_eq, ofiWindow_eq, ofiWindow_eq, ← Int64.ofInt_add, List.append_assoc,
      List.singleton_append, pathSum_append]
  · refine ⟨_, List.getLast?_eq_some_getLast (List.cons_ne_nil _ _), ?_⟩
    generalize hz : (x :: xs).getLast (List.cons_ne_nil _ _) = z
    have hsum := pathSum_of_same_prices h
    rw [hz, excess, excess] at hsum
    have hqtys := And.intro (And.intro x.bidQty.toNat_lt x.askQty.toNat_lt)
      (And.intro z.bidQty.toNat_lt z.askQty.toNat_lt)
    rw [ofiWindow_eq, Int64.toInt_ofInt_of_le (by omega) (by omega), hsum]
    omega
  · rw [ofiStep_eq, ofiStep_eq, flow_mirrored hx hy, Int64.ofInt_neg]
  · rw [ofiWindow_eq, ofiWindow_eq, pathSum_mirrored h, Int64.ofInt_neg]

end Lobcore.OrderFlow
