import Lobcore.Checked
import Lobcore.MarketViews
import Lobcore.Payloads

/-!
The truth book of the generator (`truth.rs`): per side a sorted map from prices to queues, and
a map from ids to side and price. It shares no code with the two books of the feed. It refuses
nothing on account of a price or a level's total; what it shows is that of a market whose
prices and totals are not bounded.
-/
namespace Lobcore.TruthBooks

open Checked OrderTypes SortedMaps Markets Payloads

structure TruthBook where
  bids : SortedMap ℤ Queue
  asks : SortedMap ℤ Queue
  orders : SortedMap OrderId (Side × ℤ)
  deriving DecidableEq

/-- Sum of the quantities of a level; a sum past 32 bits is a data error. -/
def levelQty (level : Queue) : Exec ℕ := level.foldlM (fun acc e => addU32 acc e.2) 0

namespace TruthBook

def new : TruthBook := ⟨.empty, .empty, .empty⟩

def side (t : TruthBook) : Side → SortedMap ℤ Queue
  | .bid => t.bids
  | .ask => t.asks

/-- What `side_mut` is used for. -/
def withSide (t : TruthBook) (s : Side) (levels : SortedMap ℤ Queue) : TruthBook :=
  match s with
  | .bid => { t with bids := levels }
  | .ask => { t with asks := levels }

def liveOrders (t : TruthBook) : ℕ := t.orders.length

def lookup (t : TruthBook) (id : OrderId) : Option (Side × ℤ) := t.orders.get? id

def qty (t : TruthBook) (id : OrderId) : Option ℕ := do
  let (s, px) ← t.lookup id
  let level ← (t.side s).get? px
  let e ← level.find? fun e => e.1 = id
  return e.2

def add (t : TruthBook) (id : OrderId) (s : Side) (px : ℤ) (qty : ℕ) : Exec TruthBook := do
  ensure (0 < qty)
  ensure (t.orders.get? id = none)
  let level := ((t.side s).get? px).getD []
  return { t.withSide s ((t.side s).insert px (level ++ [(id, qty)])) with
    orders := t.orders.insert id (s, px) }

def delete (t : TruthBook) (id : OrderId) : Exec (Bool × TruthBook) :=
  match t.orders.get? id with
  | none => return (false, t)
  | some (s, px) => do
    let level ← expect ((t.side s).get? px)
    let pos ← expect (level.findIdx? fun e => e.1 = id)
    let level := level.eraseIdx pos
    let levels := if level.isEmpty then (t.side s).erase px else (t.side s).insert px level
    return (true, { t.withSide s levels with orders := t.orders.erase id })

def reduce (t : TruthBook) (id : OrderId) (qty : ℕ) : Exec (Bool × TruthBook) :=
  match t.lookup id with
  | none => return (false, t)
  | some (s, px) => do
    let level ← expect ((t.side s).get? px)
    match level.findIdx? fun e => e.1 = id with
    | none => return (false, t)
    | some pos =>
      let slot ← index level pos
      if slot.2 < qty then return (false, t)
      let t := t.withSide s ((t.side s).insert px (level.set pos (slot.1, slot.2 - qty)))
      if slot.2 - qty = 0 then
        let (_, t) ← t.delete id
        return (true, t)
      return (true, t)

def replace (t : TruthBook) (old new : OrderId) (px : ℤ) (qty : ℕ) : Exec (Bool × TruthBook) :=
  match t.lookup old with
  | none => return (false, t)
  | some (s, _) => do
    let (_, t) ← t.delete old
    let t ← t.add new s px qty
    return (true, t)

def bestLevel (t : TruthBook) : Side → Option (ℤ × Queue)
  | .bid => t.bids.entries.getLast?
  | .ask => t.asks.entries.head?

/-- Price and quantity of a level. -/
def quote : Option (ℤ × Queue) → Exec (Option (ℤ × ℕ))
  | none => return none
  | some (px, level) => return some (px, ← levelQty level)

def bestBid (t : TruthBook) : Exec (Option (ℤ × ℕ)) := quote (t.bestLevel .bid)

def bestAsk (t : TruthBook) : Exec (Option (ℤ × ℕ)) := quote (t.bestLevel .ask)

def headOfBest (t : TruthBook) (s : Side) : Option (OrderId × ℕ) :=
  (t.bestLevel s).bind fun e => e.2.head?

/-- Levels best first: bids descending, asks ascending. -/
def bestFirst (t : TruthBook) : Side → List (ℤ × Queue)
  | .bid => t.bids.entries.reverse
  | .ask => t.asks.entries

/-- The quantities of the five best levels, padded with zeros. -/
def l5 (t : TruthBook) (s : Side) : Exec (List ℕ) := do
  let out ← ((t.bestFirst s).take 5).mapM fun e => levelQty e.2
  return out ++ List.replicate (5 - out.length) 0

/-- The bytes of the book-state hash: bids then asks, ascending price. -/
def hashBytes (t : TruthBook) : Exec Bytes := do
  let levels ← (t.bids.entries ++ t.asks.entries).mapM fun e => do
    ensure (e.2.length < 2 ^ 32)
    return hashLevel e.1 e.2.length e.2
  return levels.flatten

/-- The book describes the market, and keeps no empty level. -/
structure Shows (t : TruthBook) (m : Market) : Prop where
  sound : m.Sound
  queue_eq : ∀ s px, m.queue s px = ((t.side s).get? px).getD []
  level_ne : ∀ s px, (t.side s).get? px ≠ some []
  home_eq : ∀ id, m.home id = t.orders.get? id

@[simp] theorem side_withSide (t : TruthBook) (s s' : Side) (levels : SortedMap ℤ Queue) :
    (t.withSide s levels).side s' = if s' = s then levels else t.side s' := by
  cases s <;> cases s' <;> rfl

@[simp] theorem orders_withSide (t : TruthBook) (s : Side) (levels : SortedMap ℤ Queue) :
    (t.withSide s levels).orders = t.orders := by cases s <;> rfl

@[simp] theorem side_with_orders (t : TruthBook) (orders : SortedMap OrderId (Side × ℤ))
    (s : Side) : ({ t with orders := orders } : TruthBook).side s = t.side s := by cases s <;> rfl

theorem shows_new : new.Shows .empty where
  sound := Market.wf_empty.sound
  queue_eq s px := by cases s <;> rfl
  level_ne s px := by cases s <;> simp [new, side]
  home_eq _ := rfl

theorem findIdx?_split {id : OrderId} {n : ℕ} {xs ys : Queue} (hxs : id ∉ ids xs) :
    (xs ++ (id, n) :: ys).findIdx? (fun e => decide (e.1 = id)) = some xs.length := by
  induction xs with
  | nil => simp [List.findIdx?_cons]
  | cons e xs ih =>
    simp only [ids_cons, List.mem_cons, not_or] at hxs
    rw [List.cons_append, List.findIdx?_cons, if_neg (by simpa using Ne.symm hxs.1), ih hxs.2]
    rfl

theorem find?_split {id : OrderId} {n : ℕ} {xs ys : Queue} (hxs : id ∉ ids xs) :
    (xs ++ (id, n) :: ys).find? (fun e => decide (e.1 = id)) = some (id, n) := by
  induction xs with
  | nil => simp
  | cons e xs ih =>
    simp only [ids_cons, List.mem_cons, not_or] at hxs
    rw [List.cons_append, List.find?_cons_of_neg (by simpa using Ne.symm hxs.1), ih hxs.2]

theorem replace_ok {t gone book : TruthBook} {old new : OrderId} {s : Side} {oldPx px : ℤ}
    {qty : ℕ} {found : Bool} (hold : t.orders.get? old = some (s, oldPx))
    (hdelete : t.delete old = .ok (found, gone)) (hadd : gone.add new s px qty = .ok book) :
    t.replace old new px qty = .ok (true, book) := by
  simp only [TruthBook.replace, TruthBook.lookup, hold, hdelete, ok_bind, hadd, pure_eq_ok]

section Calls

variable {t : TruthBook} {m : Market} (h : t.Shows m)

include h

theorem Shows.get?_eq {s : Side} {px : ℤ} (hq : m.queue s px ≠ []) :
    (t.side s).get? px = some (m.queue s px) := by
  rw [h.queue_eq] at hq ⊢
  cases hg : (t.side s).get? px with
  | none => simp [hg] at hq
  | some q => rfl

theorem Shows.queue_of_get {s : Side} {px : ℤ} {q : Queue} (hg : (t.side s).get? px = some q) :
    m.queue s px = q := by
  rw [h.queue_eq, hg]
  rfl

theorem Shows.lookup_eq (id : OrderId) : t.lookup id = m.home id := (h.home_eq id).symm

theorem Shows.qty_eq (id : OrderId) : t.qty id = (m.find id).map fun p => p.2.2 := by
  unfold TruthBook.qty
  cases hfind : m.find id with
  | none =>
    have hhome := h.sound.find_eq_none.mp hfind
    simp [h.lookup_eq, hhome]
  | some p =>
    obtain ⟨s, px, n⟩ := p
    obtain ⟨xs, ys, hq, hxs, -⟩ := h.sound.split hfind
    have hget := h.get?_eq (show m.queue s px ≠ [] by simp [hq])
    rw [hq] at hget
    simp [h.lookup_eq, (Market.find_eq_some.mp hfind).1, hget, find?_split hxs]

/-- Maps that differ from the book as taking shares off an order does. -/
theorem Shows.take_of {id : OrderId} {s : Side} {px : ℤ} {n rest : ℕ} {levels : SortedMap ℤ Queue}
    {orders : SortedMap OrderId (Side × ℤ)} (hfind : m.find id = some (s, px, n))
    (hlevels : ∀ px', levels.get? px' = if px' = px then
      (if settle id rest (m.queue s px) = [] then none else some (settle id rest (m.queue s px)))
      else (t.side s).get? px')
    (horders : ∀ j, orders.get? j = if rest = 0 ∧ j = id then none else t.orders.get? j) :
    ({ t.withSide s levels with orders := orders } : TruthBook).Shows (m.take id s px rest) where
  sound := h.sound.take hfind rest
  queue_eq s' px' := by
    simp only [Market.take, Market.setQueue, side_with_orders, side_withSide]
    by_cases hs : s' = s
    · subst hs
      simp only [true_and, if_true, hlevels]
      by_cases hp : px' = px
      · simp only [hp, if_true]
        split
        · simp_all
        · rfl
      · simp only [hp, if_false, h.queue_eq]
    · simp only [hs, false_and, if_false, h.queue_eq]
  level_ne s' px' := by
    simp only [side_with_orders, side_withSide]
    by_cases hs : s' = s
    · subst hs
      simp only [if_true, hlevels]
      split
      · split <;> simp_all
      · exact h.level_ne s' px'
    · simpa only [hs, if_false] using h.level_ne s' px'
  home_eq j := by
    simp only [Market.take, horders]
    by_cases hrest : rest = 0
    · simp only [hrest, if_true, true_and, Function.update_apply, h.home_eq]
    · simp only [hrest, if_false, false_and, h.home_eq]

omit h in
/-- What a delete does to a level that the order splits. -/
theorem delete_ok {id : OrderId} {s : Side} {px : ℤ} {n : ℕ} {xs ys : Queue}
    (hhome : t.orders.get? id = some (s, px))
    (hget : (t.side s).get? px = some (xs ++ (id, n) :: ys)) (hxs : id ∉ ids xs) :
    t.delete id = .ok (true, { t.withSide s (if (xs ++ ys).isEmpty then (t.side s).erase px else
      (t.side s).insert px (xs ++ ys)) with orders := t.orders.erase id }) := by
  have herase : (xs ++ (id, n) :: ys).eraseIdx xs.length = xs ++ ys := by
    rw [List.eraseIdx_append_of_length_le le_rfl, Nat.sub_self, List.eraseIdx_cons_zero]
  simp only [TruthBook.delete, hhome, hget, expect_some, ok_bind, findIdx?_split hxs, herase,
    pure_eq_ok]

theorem Shows.delete {id : OrderId} {s : Side} {px : ℤ} {n : ℕ}
    (hfind : m.find id = some (s, px, n)) :
    ∃ t', t.delete id = .ok (true, t') ∧ t'.Shows (m.take id s px 0) := by
  obtain ⟨xs, ys, hq, hxs, -⟩ := h.sound.split hfind
  have hget := h.get?_eq (show m.queue s px ≠ [] by simp [hq])
  have hhome := (h.home_eq id).symm.trans (Market.find_eq_some.mp hfind).1
  have hset : settle id 0 (m.queue s px) = xs ++ ys := by rw [hq, settle_split hxs, if_pos rfl]
  rw [hq] at hget
  refine ⟨_, delete_ok hhome hget hxs, h.take_of hfind (fun px' => ?_) fun j => ?_⟩
  · rw [hset]
    by_cases hempty : xs ++ ys = []
    · simp only [hempty, List.isEmpty_nil, if_true, SortedMap.get?_erase]
    · simp only [hempty, List.isEmpty_iff, if_false, SortedMap.get?_insert]
  · simp only [SortedMap.get?_erase, true_and]

theorem Shows.reduce {id : OrderId} {s : Side} {px : ℤ} {n k : ℕ}
    (hfind : m.find id = some (s, px, n)) (hk : k ≤ n) :
    ∃ t', t.reduce id k = .ok (true, t') ∧ t'.Shows (m.take id s px (n - k)) := by
  obtain ⟨xs, ys, hq, hxs, -⟩ := h.sound.split hfind
  have hget := h.get?_eq (show m.queue s px ≠ [] by simp [hq])
  have hhome := (h.home_eq id).symm.trans (Market.find_eq_some.mp hfind).1
  have hset : settle id (n - k) (m.queue s px) =
      xs ++ (if n - k = 0 then ys else (id, n - k) :: ys) := by rw [hq, settle_split hxs]
  rw [hq] at hget
  have hidx : index (xs ++ (id, n) :: ys) xs.length = .ok (id, n) :=
    index_eq_ok.mpr (by rw [List.getElem?_append_right le_rfl]; simp)
  have hfifo : (xs ++ (id, n) :: ys).set xs.length (id, n - k) = xs ++ (id, n - k) :: ys := by simp
  simp only [TruthBook.reduce, TruthBook.lookup, hhome, hget, expect_some, ok_bind,
    findIdx?_split hxs, hidx, if_neg (not_lt.mpr hk), hfifo]
  by_cases hrest : n - k = 0
  · -- the order is left with nothing and leaves its level
    rw [if_pos hrest] at hset ⊢
    have hhome' : (t.withSide s ((t.side s).insert px (xs ++ (id, n - k) :: ys))).orders.get? id =
        some (s, px) := by rw [orders_withSide, hhome]
    have hget' : ((t.withSide s ((t.side s).insert px (xs ++ (id, n - k) :: ys))).side s).get? px =
        some (xs ++ (id, n - k) :: ys) := by
      rw [side_withSide, if_pos rfl, SortedMap.get?_insert_self]
    have htwice : ∀ l l', (t.withSide s l).withSide s l' = t.withSide s l' := by
      intro l l'
      cases s <;> rfl
    simp only [delete_ok hhome' hget' hxs, ok_bind, pure_eq_ok, side_withSide, if_true, htwice,
      orders_withSide]
    refine ⟨_, rfl, h.take_of hfind (fun px' => ?_) fun j => ?_⟩
    · rw [hset]
      by_cases hempty : xs ++ ys = []
      · simp only [hempty, List.isEmpty_nil, if_true, SortedMap.get?_erase, SortedMap.get?_insert]
        split <;> rfl
      · simp only [hempty, List.isEmpty_iff, if_false, SortedMap.get?_insert]
        split <;> rfl
    · simp only [SortedMap.get?_erase, hrest, true_and]
  · rw [if_neg hrest] at hset ⊢
    have hlevels : ∀ px', ((t.side s).insert px (xs ++ (id, n - k) :: ys)).get? px' =
        if px' = px then (if settle id (n - k) (m.queue s px) = [] then none
          else some (settle id (n - k) (m.queue s px))) else (t.side s).get? px' := by
      intro px'
      have hne : xs ++ (id, n - k) :: ys ≠ [] := by simp
      rw [hset, if_neg hne, SortedMap.get?_insert]
    have horders : ∀ j, t.orders.get? j = if n - k = 0 ∧ j = id then none else t.orders.get? j := by
      intro j
      rw [if_neg fun hj => hrest hj.1]
    have hshows := h.take_of hfind hlevels horders
    refine ⟨_, rfl, ?_⟩
    cases s <;> exact hshows

theorem Shows.add {id : OrderId} (s : Side) (px : ℤ) {qty : ℕ} (hid : m.home id = none)
    (hqty : 0 < qty) :
    ∃ t', t.add id s px qty = .ok t' ∧ t'.Shows (m.push id s px qty) := by
  have hhome := (h.home_eq id).symm.trans hid
  simp only [TruthBook.add, ensure_ok hqty, ensure_ok hhome, ok_bind, pure_eq_ok]
  refine ⟨_, rfl, h.sound.push s px hid hqty, fun s' px' => ?_, fun s' px' => ?_, fun j => ?_⟩
  · simp only [Market.push, Market.setQueue, side_with_orders, side_withSide, h.queue_eq]
    by_cases hs : s' = s
    · subst hs
      by_cases hp : px' = px
      · subst hp
        simp
      · simp [hp, SortedMap.get?_insert_of_ne _ _ hp]
    · simp [hs]
  · have hold := h.level_ne s' px'
    simp only [side_with_orders, side_withSide]
    by_cases hs : s' = s
    · subst hs
      simp only [if_true, SortedMap.get?_insert]
      split <;> simp_all
    · simpa [hs] using hold
  · simp only [Market.push, Function.update_apply, SortedMap.get?_insert, h.home_eq]

theorem Shows.replace {old new : OrderId} {s : Side} {oldPx px : ℤ} {n qty : ℕ}
    (hfind : m.find old = some (s, oldPx, n)) (hnew : m.home new = none) (hqty : 0 < qty) :
    ∃ t', t.replace old new px qty = .ok (true, t') ∧
      t'.Shows ((m.take old s oldPx 0).push new s px qty) := by
  have hhome := (h.home_eq old).symm.trans (Market.find_eq_some.mp hfind).1
  obtain ⟨t₁, hdelete, h₁⟩ := h.delete hfind
  have hnew' : (m.take old s oldPx 0).home new = none := by
    rw [Market.home_take_zero, hnew, ite_self]
  obtain ⟨t₂, hadd, h₂⟩ := h₁.add s px hnew' hqty
  exact ⟨t₂, replace_ok hhome hdelete hadd, h₂⟩

end Calls

end TruthBook

/-! What the book shows. -/

/-- No level holds more shares than a 32-bit total can count. -/
def Bounded (m : Market) : Prop := ∀ s px, total (m.queue s px) < 2 ^ 32

theorem levelQty_eq (q : Queue) :
    levelQty q = if total q < 2 ^ 32 then .ok (total q) else .error .overflow := by
  have hfold : ∀ (q : Queue) (acc : ℕ), acc < 2 ^ 32 →
      q.foldlM (fun acc e => addU32 acc e.2) acc =
        if acc + total q < 2 ^ 32 then .ok (acc + total q) else .error .overflow := by
    intro q
    induction q with
    | nil =>
      intro acc hacc
      rw [total_nil, Nat.add_zero, if_pos hacc]
      rfl
    | cons e q ih =>
      intro acc hacc
      rw [List.foldlM_cons, total_cons, ← Nat.add_assoc]
      by_cases hsum : acc + e.2 < 2 ^ 32
      · rw [addU32_ok hsum, ok_bind, ih _ hsum]
      · have hover : addU32 acc e.2 = .error .overflow := if_neg hsum
        rw [hover, error_bind, if_neg (by omega)]
  rw [levelQty, hfold q 0 (by decide), Nat.zero_add]

theorem levelQty_returns {Q : Prop} {q : Queue} (hq : Q → total q < 2 ^ 32) :
    Returns Q (fun n => n = total q ∧ total q < 2 ^ 32) (levelQty q) := by
  rw [levelQty_eq]
  split
  · rename_i hlt
    exact Returns.of_ok ⟨rfl, hlt⟩
  · rename_i hlt
    exact Or.inr ⟨fun h => hlt (hq h), _, rfl⟩

/-- Price and quantity of the best level. -/
noncomputable def best (m : Market) (s : Side) : Option (ℤ × ℕ) :=
  (m.levels s).head?.map fun e => (e.1, total e.2)

/-- The quantities of the five best levels, padded with zeros. -/
noncomputable def five (m : Market) (s : Side) : List ℕ :=
  let out := ((m.levels s).take 5).map fun e => total e.2
  out ++ List.replicate (5 - out.length) 0

namespace TruthBook

section Views

variable {t : TruthBook} {m : Market} (h : t.Shows m)

include h

theorem Shows.isLevels (s : Side) : m.IsLevels s (t.bestFirst s) where
  sorted := by
    cases s with
    | bid => exact List.pairwise_reverse.mpr t.bids.ascending
    | ask => exact t.asks.ascending
  mem_iff := by
    rintro ⟨px, q⟩
    have hmem : (px, q) ∈ t.bestFirst s ↔ (t.side s).get? px = some q := by
      rw [SortedMap.get?_eq_some_iff]
      cases s <;> simp [bestFirst, side]
    rw [hmem]
    constructor
    · intro hg
      exact ⟨h.queue_of_get hg, fun hnil => h.level_ne s px (hnil ▸ hg)⟩
    · intro hq
      exact (h.get?_eq (hq.1 ▸ hq.2)).trans (congrArg some hq.1)

theorem Shows.bestFirst_eq (s : Side) : t.bestFirst s = m.levels s :=
  (Market.levels_eq (h.isLevels s)).symm

theorem Shows.bestLevel_eq (s : Side) : t.bestLevel s = (m.levels s).head? := by
  rw [← h.bestFirst_eq]
  cases s with
  | bid => exact List.head?_reverse.symm
  | ask => rfl

theorem Shows.quote_returns {Q : Prop} (hq : Q → Bounded m) (s : Side) :
    Returns Q (fun o => o = best m s ∧ ∀ e ∈ o, e.2 < 2 ^ 32) (quote (t.bestLevel s)) := by
  rw [h.bestLevel_eq, best]
  cases hl : (m.levels s).head? with
  | none => exact Returns.of_ok ⟨rfl, fun e he => by cases he⟩
  | some e =>
    obtain ⟨px, level⟩ := e
    have hqueue : m.queue s px = level := (Market.queue_of_mem_levels (List.mem_of_head? hl)).1
    refine (levelQty_returns fun hQ => hqueue ▸ hq hQ s px).bind fun n hn => Returns.of_ok ?_
    obtain ⟨rfl, hlt⟩ := hn
    exact ⟨rfl, fun e he => Option.some.inj he ▸ hlt⟩

theorem Shows.l5_returns {Q : Prop} (hq : Q → Bounded m) (s : Side) :
    Returns Q (fun out => out = five m s) (t.l5 s) := by
  unfold TruthBook.l5
  rw [h.bestFirst_eq]
  have hlevels : Returns Q (fun out => out = ((m.levels s).take 5).map fun e => total e.2)
      (((m.levels s).take 5).mapM fun e => levelQty e.2) := by
    refine mapM_returns fun e he => ?_
    have hqueue := (Market.queue_of_mem_levels (List.mem_of_mem_take he)).1
    exact (levelQty_returns fun hQ => hqueue ▸ hq hQ s e.1).mono fun n hn => hn.1
  refine hlevels.bind fun out hout => Returns.of_ok ?_
  rw [hout]
  rfl

theorem Shows.hashBytes_returns {Q : Prop} (hq : Q → Bounded m) :
    Returns Q (fun bytes => bytes = m.stateBytes) t.hashBytes := by
  have hbids : t.bids.entries = (m.levels .bid).reverse := by
    rw [← h.bestFirst_eq, bestFirst, List.reverse_reverse]
  have hasks : t.asks.entries = m.levels .ask := h.bestFirst_eq .ask
  unfold TruthBook.hashBytes
  rw [hbids, hasks]
  have hlevel : ∀ e ∈ (m.levels .bid).reverse ++ m.levels .ask,
      Returns Q (fun bytes => bytes = hashLevel e.1 e.2.length e.2) (do
        ensure (e.2.length < 2 ^ 32)
        return hashLevel e.1 e.2.length e.2) := by
    intro e he
    obtain ⟨s, hs⟩ := Market.exists_mem_levels he
    have hqueue := (Market.queue_of_mem_levels hs).1
    have hlen : e.2.length ≤ total e.2 := length_le_total (hqueue ▸ h.sound.qty_pos s e.1)
    refine (ensure_returns fun hQ => ?_).bind fun _ _ => Returns.of_ok rfl
    exact lt_of_le_of_lt hlen (hqueue ▸ hq hQ s e.1)
  refine (mapM_returns hlevel).bind fun out hout => Returns.of_ok ?_
  rw [hout, Market.stateBytes, List.flatMap_def]

theorem Shows.liveOrders_eq : t.liveOrders = m.live := by
  refine (Market.live_eq_map_length t.orders fun id => ?_).symm
  rw [h.home_eq, Option.isSome_iff_exists]

/-- The head order of the best level is a live order of the side. -/
theorem Shows.headOfBest_eq_some {s : Side} {id : OrderId} {n : ℕ}
    (hhead : t.headOfBest s = some (id, n)) :
    ∃ px rest, (m.levels s).head? = some (px, (id, n) :: rest) ∧
      m.find id = some (s, px, n) := by
  unfold headOfBest at hhead
  rw [h.bestLevel_eq] at hhead
  obtain ⟨e, hl, hfirst⟩ := Option.bind_eq_some_iff.mp hhead
  obtain ⟨rest, hrest⟩ := List.head?_eq_some_iff.mp hfirst
  have hqueue := (Market.queue_of_mem_levels (List.mem_of_head? hl)).1
  have hmem : id ∈ ids (m.queue s e.1) := by simp [hqueue, hrest]
  refine ⟨e.1, rest, by rw [hl, ← hrest], Market.find_eq_some.mpr ⟨?_, ?_⟩⟩
  · exact (h.sound.home_iff id s e.1).mpr hmem
  · rw [hqueue, hrest, remaining, if_pos rfl]

end Views

end TruthBook

end Lobcore.TruthBooks
