import Lobcore.Checked
import Lobcore.MarketViews

/-!
The reference book (`reference.rs`): a sorted map of queues per side and a map from
ids to side and price. Cancels and executes scan the level's queue for the id. The
book refines the market: every call returns the market's reply and the next book
describes the next market; no call aborts.
-/
namespace Lobcore.ReferenceBook

open Checked OrderTypes SortedMaps Markets

structure RefBook where
  bids : SortedMap ℤ Queue
  asks : SortedMap ℤ Queue
  ids : SortedMap OrderId (Side × ℤ)
  deriving DecidableEq

namespace RefBook

def new : RefBook := ⟨.empty, .empty, .empty⟩

def side (r : RefBook) : Side → SortedMap ℤ Queue
  | .bid => r.bids
  | .ask => r.asks

def withSide (r : RefBook) (s : Side) (levels : SortedMap ℤ Queue) : RefBook :=
  match s with
  | .bid => { r with bids := levels }
  | .ask => { r with asks := levels }

def levelQty (fifo : Queue) : Exec ℕ := sumU 64 (fifo.map Prod.snd)

def levelView (px : ℤ) (fifo : Queue) : Exec LevelView := do
  let qty ← levelQty fifo
  return (px, qty % 2 ^ 32, fifo.length % 2 ^ 32)

/-- Levels best first: bids descending, asks ascending. -/
def bestFirst (r : RefBook) : Side → List (ℤ × Queue)
  | .bid => r.bids.entries.reverse
  | .ask => r.asks.entries

/-- Side, price, position in the level and remaining quantity of a live id. -/
def find (r : RefBook) (id : OrderId) : Option (Side × ℤ × ℕ × ℕ) := do
  let (s, px) ← r.ids.get? id
  let fifo ← (r.side s).get? px
  let (e, pos) ← fifo.zipIdx.find? fun p => p.1.1 = id
  return (s, px, pos, e.2)

/-- Remove `by` from the order at `pos`; drop it, and an emptied level, at zero. -/
def take (r : RefBook) (id : OrderId) (s : Side) (px : ℤ) (pos amount : ℕ) :
    Exec (ℕ × RefBook) := do
  let fifo ← expect ((r.side s).get? px)
  let e ← index fifo pos
  let rest ← subU e.2 amount
  if rest = 0 then
    let fifo := fifo.eraseIdx pos
    let levels := if fifo.isEmpty then (r.side s).erase px else (r.side s).insert px fifo
    return (rest, { r.withSide s levels with ids := r.ids.erase id })
  else
    return (rest, r.withSide s ((r.side s).insert px (fifo.set pos (e.1, rest))))

def pushTail (r : RefBook) (id : OrderId) (s : Side) (px : ℤ) (qty : ℕ) : RefBook :=
  let fifo := ((r.side s).get? px).getD []
  { r.withSide s ((r.side s).insert px (fifo ++ [(id, qty)])) with
    ids := r.ids.insert id (s, px) }

def wouldOverflow (r : RefBook) (s : Side) (px : ℤ) (minus plus : ℕ) : Exec Bool := do
  let level ← ((r.side s).get? px).elim (.ok 0) levelQty
  let existing ← subU level minus
  let sum ← addU64 existing plus
  return 2 ^ 32 - 1 < sum

def add (r : RefBook) (id : OrderId) (s : Side) (px : ℤ) (qty : ℕ) : Exec (Reply × RefBook) := do
  if qty = 0 then return (.error .badQty, r)
  if px ≤ 0 then return (.error .badPrice, r)
  -- level overflow before the duplicate check, as in the array book
  if ← r.wouldOverflow s px 0 qty then return (.error .badQty, r)
  if r.ids.contains id then return (.error (.duplicateId id), r)
  return (.ok (.add id s px qty), r.pushTail id s px qty)

def cancel (r : RefBook) (id : OrderId) (qty : ℕ) : Exec (Reply × RefBook) :=
  match r.find id with
  | none => return (.error (.unknownId .cancel id), r)
  | some (s, px, pos, held) => do
    if qty = 0 then return (.error .badQty, r)
    let removed := min qty held
    let (rest, r) ← r.take id s px pos removed
    return (.ok (.cancel id s px removed rest), r)

def delete (r : RefBook) (id : OrderId) : Exec (Reply × RefBook) :=
  match r.find id with
  | none => return (.error (.unknownId .delete id), r)
  | some (s, px, pos, held) => do
    let (_, r) ← r.take id s px pos held
    return (.ok (.delete id s px held), r)

def execute (r : RefBook) (id : OrderId) (qty : ℕ) : Exec (Reply × RefBook) :=
  match r.find id with
  | none => return (.error (.unknownId .exec id), r)
  | some (s, px, pos, held) => do
    if qty = 0 then return (.error .badQty, r)
    if held < qty then return (.error (.overExecute id held qty), r)
    let (rest, r) ← r.take id s px pos qty
    return (.ok (.exec id s px qty rest), r)

def replace (r : RefBook) (old new : OrderId) (px : ℤ) (qty : ℕ) : Exec (Reply × RefBook) :=
  match r.find old with
  | none => return (.error (.unknownId .replace old), r)
  | some (s, oldPx, pos, held) => do
    if r.ids.contains new then return (.error (.duplicateId new), r)
    if qty = 0 then return (.error .badQty, r)
    if px ≤ 0 then return (.error .badPrice, r)
    let minus := if px = oldPx then held else 0
    if ← r.wouldOverflow s px minus qty then return (.error .badQty, r)
    let (_, r) ← r.take old s oldPx pos held
    return (.ok (.replace old new s px qty), r.pushTail new s px qty)

def apply (r : RefBook) : Op → Exec (Reply × RefBook)
  | .add id s px qty => r.add id s px.toInt qty.toNat
  | .cancel id qty => r.cancel id qty.toNat
  | .execute id qty => r.execute id qty.toNat
  | .delete id => r.delete id
  | .replace old new px qty => r.replace old new px.toInt qty.toNat

def best (r : RefBook) (s : Side) : Exec (Option LevelView) :=
  match (r.bestFirst s).head? with
  | none => return none
  | some (px, fifo) => some <$> levelView px fifo

def l1 (r : RefBook) : Exec (Option LevelView × Option LevelView) := do
  return (← r.best .bid, ← r.best .ask)

def depth (r : RefBook) (s : Side) (d : ℕ) : Exec (List LevelView) :=
  ((r.bestFirst s).take d).mapM fun e => levelView e.1 e.2

def l2 (r : RefBook) (d : ℕ) : Exec (List LevelView × List LevelView) := do
  return (← r.depth .bid d, ← r.depth .ask d)

def queueAhead (r : RefBook) (id : OrderId) : Exec (Option ℕ) :=
  match r.find id with
  | none => return none
  | some (s, px, pos, _) =>
    match (r.side s).get? px with
    | none => return none
    | some fifo => some <$> sumU 32 ((fifo.take pos).map Prod.snd)

def liveOrders (r : RefBook) : ℕ := r.ids.length

/-- The bytes fed to the state hash. -/
def stateBytes (r : RefBook) : List UInt8 :=
  (r.bids.entries ++ r.asks.entries).flatMap fun e => hashLevel e.1 (e.2.length % 2 ^ 32) e.2

def snapshot (r : RefBook) : Snapshot :=
  (r.bestFirst .bid).map (fun e => (.bid, e.1, e.2)) ++
    (r.bestFirst .ask).map fun e => (.ask, e.1, e.2)

/-- The book describes the market, and keeps no empty level. -/
structure Refines (r : RefBook) (m : Market) : Prop where
  wf : m.WF
  queue_eq : ∀ s px, m.queue s px = ((r.side s).get? px).getD []
  level_ne : ∀ s px, (r.side s).get? px ≠ some []
  home_eq : ∀ id, m.home id = r.ids.get? id

@[simp] theorem side_withSide (r : RefBook) (s s' : Side) (levels : SortedMap ℤ Queue) :
    (r.withSide s levels).side s' = if s' = s then levels else r.side s' := by
  cases s <;> cases s' <;> rfl

@[simp] theorem ids_withSide (r : RefBook) (s : Side) (levels : SortedMap ℤ Queue) :
    (r.withSide s levels).ids = r.ids := by cases s <;> rfl

@[simp] theorem side_with_ids (r : RefBook) (ids : SortedMap OrderId (Side × ℤ)) (s : Side) :
    ({ r with ids := ids } : RefBook).side s = r.side s := by cases s <;> rfl

theorem refines_new : new.Refines .empty where
  wf := Market.wf_empty
  queue_eq s px := by cases s <;> rfl
  level_ne s px := by cases s <;> simp [new, side]
  home_eq _ := rfl

theorem zipIdx_find_split {id : OrderId} (n k : ℕ) {xs : Queue} (ys : Queue)
    (hxs : id ∉ Markets.ids xs) :
    ((xs ++ (id, n) :: ys).zipIdx k).find? (fun p => decide (p.1.1 = id)) =
      some ((id, n), k + xs.length) := by
  induction xs generalizing k with
  | nil => simp
  | cons e xs ih =>
    simp only [ids_cons, List.mem_cons, not_or] at hxs
    rw [List.cons_append, List.zipIdx_cons, List.find?_cons_of_neg (by simpa using Ne.symm hxs.1),
      ih _ hxs.2, List.length_cons]
    congr 2
    omega

theorem levelQty_ok {q : Queue} (hq : total q < 2 ^ 32) : levelQty q = .ok (total q) :=
  sumU_ok (by unfold total at hq; omega)

section Refinement

variable {r : RefBook} {m : Market} (h : r.Refines m)

include h

theorem Refines.get?_eq {s : Side} {px : ℤ} (hq : m.queue s px ≠ []) :
    (r.side s).get? px = some (m.queue s px) := by
  rw [h.queue_eq] at hq ⊢
  cases hg : (r.side s).get? px with
  | none => simp [hg] at hq
  | some q => rfl

theorem Refines.find_none {id : OrderId} (hid : m.find id = none) : r.find id = none := by
  have hhome : r.ids.get? id = none := h.home_eq id ▸ h.wf.find_eq_none.mp hid
  simp [find, hhome]

/-- The position the book finds is the length of what stands in front. -/
theorem Refines.find_some {id : OrderId} {s : Side} {px : ℤ} {n : ℕ} {xs ys : Queue}
    (hid : m.find id = some (s, px, n)) (hq : m.queue s px = xs ++ (id, n) :: ys)
    (hxs : id ∉ Markets.ids xs) : r.find id = some (s, px, xs.length, n) := by
  have hhome : r.ids.get? id = some (s, px) := h.home_eq id ▸ (Market.find_eq_some.mp hid).1
  have hget : (r.side s).get? px = some (xs ++ (id, n) :: ys) := by
    rw [h.get?_eq (by simp [hq]), hq]
  have hpos := zipIdx_find_split n 0 ys hxs
  rw [Nat.zero_add] at hpos
  simp [find, hhome, hget, hpos]

theorem Refines.take {id : OrderId} {s : Side} {px : ℤ} {n amount : ℕ} {xs ys : Queue}
    (hid : m.find id = some (s, px, n)) (hq : m.queue s px = xs ++ (id, n) :: ys)
    (hxs : id ∉ Markets.ids xs) (hle : amount ≤ n) :
    ∃ r', r.take id s px xs.length amount = .ok (n - amount, r') ∧
      r'.Refines (m.take id s px (n - amount)) := by
  have hget : (r.side s).get? px = some (xs ++ (id, n) :: ys) := by
    rw [h.get?_eq (by simp [hq]), hq]
  have hidx : index (xs ++ (id, n) :: ys) xs.length = .ok (id, n) :=
    index_eq_ok.mpr (by rw [List.getElem?_append_right le_rfl]; simp)
  have hset : settle id (n - amount) (xs ++ (id, n) :: ys) =
      xs ++ (if n - amount = 0 then ys else (id, n - amount) :: ys) := settle_split hxs
  have hwf : (m.take id s px (n - amount)).WF := h.wf.take hid (Nat.sub_le _ _)
  simp only [RefBook.take, hget, expect_some, ok_bind, hidx, subU_ok hle]
  by_cases hrest : n - amount = 0
  · rw [if_pos hrest]
    rw [if_pos hrest] at hset
    have herase : (xs ++ (id, n) :: ys).eraseIdx xs.length = xs ++ ys := by
      rw [List.eraseIdx_append_of_length_le le_rfl, Nat.sub_self, List.eraseIdx_cons_zero]
    refine ⟨_, rfl, hwf, ?_, ?_, ?_⟩
    · intro s' px'
      simp only [Market.take, Market.setQueue, side_with_ids, side_withSide, herase, hq, hset]
      by_cases hs : s' = s
      · subst hs
        by_cases hp : px' = px
        · subst hp
          by_cases hempty : xs ++ ys = []
          · simp [hempty]
          · simp [hempty]
        · by_cases hempty : xs ++ ys = []
          · simp [hempty, hp, SortedMap.get?_erase_of_ne _ hp, h.queue_eq]
          · simp [hempty, hp, SortedMap.get?_insert_of_ne _ _ hp, h.queue_eq]
      · simp [hs, h.queue_eq]
    · intro s' px'
      simp only [side_with_ids, side_withSide, herase]
      by_cases hs : s' = s
      · subst hs
        by_cases hempty : xs ++ ys = []
        · have hold := h.level_ne s' px'
          simp only [if_true, List.isEmpty_iff, hempty, SortedMap.get?_erase]
          split <;> simp_all
        · have hold := h.level_ne s' px'
          simp only [if_true, List.isEmpty_iff, hempty, if_false, SortedMap.get?_insert]
          split <;> simp_all
      · simpa [hs] using h.level_ne s' px'
    · intro j
      simp only [Market.take, hrest, if_true, Function.update_apply,
        SortedMap.get?_erase, h.home_eq]
  · rw [if_neg hrest]
    rw [if_neg hrest] at hset
    have hfifo : (xs ++ (id, n) :: ys).set xs.length (id, n - amount) =
        xs ++ (id, n - amount) :: ys := by simp
    refine ⟨_, rfl, hwf, ?_, ?_, ?_⟩
    · intro s' px'
      simp only [Market.take, Market.setQueue, side_withSide, hfifo, hq, hset]
      by_cases hs : s' = s
      · subst hs
        by_cases hp : px' = px
        · subst hp
          simp
        · simp [hp, SortedMap.get?_insert_of_ne _ _ hp, h.queue_eq]
      · simp [hs, h.queue_eq]
    · intro s' px'
      simp only [side_withSide, hfifo]
      by_cases hs : s' = s
      · subst hs
        have hold := h.level_ne s' px'
        simp only [if_true, SortedMap.get?_insert]
        split <;> simp_all
      · simpa [hs] using h.level_ne s' px'
    · intro j
      simp only [Market.take, hrest, if_false, ids_withSide, h.home_eq]

theorem Refines.pushTail {id : OrderId} {s : Side} {px : ℤ} {qty : ℕ}
    (hwf : (m.push id s px qty).WF) : (r.pushTail id s px qty).Refines (m.push id s px qty) where
  wf := hwf
  queue_eq s' px' := by
    simp only [Market.push, Market.setQueue, RefBook.pushTail, side_with_ids, side_withSide,
      h.queue_eq]
    by_cases hs : s' = s
    · subst hs
      by_cases hp : px' = px
      · subst hp
        simp
      · simp [hp, SortedMap.get?_insert_of_ne _ _ hp]
    · simp [hs]
  level_ne s' px' := by
    have hold := h.level_ne s' px'
    simp only [RefBook.pushTail, side_with_ids, side_withSide]
    by_cases hs : s' = s
    · subst hs
      simp only [if_true, SortedMap.get?_insert]
      split <;> simp_all
    · simpa [hs] using hold
  home_eq j := by
    simp only [Market.push, RefBook.pushTail, Function.update_apply, SortedMap.get?_insert,
      h.home_eq]

theorem Refines.wouldOverflow (s : Side) (px : ℤ) {minus plus : ℕ}
    (hminus : minus ≤ total (m.queue s px)) (hplus : plus < 2 ^ 32) :
    r.wouldOverflow s px minus plus =
      .ok (decide (2 ^ 32 ≤ total (m.queue s px) - minus + plus)) := by
  have hlt := h.wf.total_lt s px
  have hlevel : ((r.side s).get? px).elim (.ok 0) levelQty = .ok (total (m.queue s px)) := by
    rw [h.queue_eq] at hlt ⊢
    cases hg : (r.side s).get? px with
    | none => rfl
    | some q => exact levelQty_ok (by simpa [hg] using hlt)
  simp only [RefBook.wouldOverflow, hlevel, ok_bind, subU_ok hminus,
    addU64_ok (show total (m.queue s px) - minus + plus < 2 ^ 64 by omega), pure_eq_ok]
  congr 2

end Refinement

end RefBook

end Lobcore.ReferenceBook
