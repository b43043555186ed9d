import Lobcore.OrderTypes
import Lobcore.SortedMaps
import Mathlib.Algebra.BigOperators.Group.List.Basic
import Mathlib.Logic.Function.Basic
import Mathlib.Tactic.Linarith

/-!
What a limit order book is for: per side and price a queue of orders, and for every
live id the queue it stands in. The operations are given on these two functions, with
the documented precedence of errors; both books of the repository are compared with
this one. A market is well formed when the two functions describe the same orders.
-/
namespace Lobcore.Markets

open OrderTypes SortedMaps

structure Market where
  queue : Side → ℤ → Queue
  home : OrderId → Option (Side × ℤ)

def ids (q : Queue) : List OrderId := q.map Prod.fst

def total (q : Queue) : ℕ := (q.map Prod.snd).sum

/-- The remaining quantity of an order of the queue. -/
def remaining (id : OrderId) : Queue → Option ℕ
  | [] => none
  | (i, n) :: q => if i = id then some n else remaining id q

/-- The quantity standing in front of an order of the queue. -/
def ahead (id : OrderId) : Queue → ℕ
  | [] => 0
  | (i, n) :: q => if i = id then 0 else n + ahead id q

/-- Leave `rest` shares of an order; an order left with none leaves the queue. -/
def settle (id : OrderId) (rest : ℕ) : Queue → Queue
  | [] => []
  | (i, n) :: q =>
    if i = id then (if rest = 0 then q else (i, rest) :: q) else (i, n) :: settle id rest q

@[simp] theorem ids_nil : ids [] = [] := rfl

@[simp] theorem ids_cons (e : OrderId × ℕ) (q : Queue) : ids (e :: q) = e.1 :: ids q := rfl

@[simp] theorem ids_append (p q : Queue) : ids (p ++ q) = ids p ++ ids q := List.map_append

@[simp] theorem total_nil : total [] = 0 := rfl

@[simp] theorem total_cons (e : OrderId × ℕ) (q : Queue) : total (e :: q) = e.2 + total q := rfl

@[simp] theorem total_append (p q : Queue) : total (p ++ q) = total p + total q := by
  simp [total]

theorem remaining_split {id : OrderId} {n : ℕ} {xs ys : Queue} (h : id ∉ ids xs) :
    remaining id (xs ++ (id, n) :: ys) = some n := by
  induction xs with
  | nil => simp [remaining]
  | cons e xs ih =>
    simp only [ids_cons, List.mem_cons, not_or] at h
    simp only [List.cons_append, remaining, if_neg (Ne.symm h.1), ih h.2]

theorem ahead_split {id : OrderId} {n : ℕ} {xs ys : Queue} (h : id ∉ ids xs) :
    ahead id (xs ++ (id, n) :: ys) = total xs := by
  induction xs with
  | nil => simp [ahead]
  | cons e xs ih =>
    simp only [ids_cons, List.mem_cons, not_or] at h
    simp only [List.cons_append, ahead, if_neg (Ne.symm h.1), ih h.2, total_cons]

theorem settle_split {id : OrderId} {n rest : ℕ} {xs ys : Queue} (h : id ∉ ids xs) :
    settle id rest (xs ++ (id, n) :: ys) =
      xs ++ (if rest = 0 then ys else (id, rest) :: ys) := by
  induction xs with
  | nil => simp [settle]
  | cons e xs ih =>
    simp only [ids_cons, List.mem_cons, not_or] at h
    simp only [List.cons_append, settle, if_neg (Ne.symm h.1), ih h.2]

theorem settle_eq_self {id : OrderId} {rest : ℕ} {q : Queue} (h : id ∉ ids q) :
    settle id rest q = q := by
  induction q with
  | nil => rfl
  | cons e q ih =>
    simp only [ids_cons, List.mem_cons, not_or] at h
    simp only [settle, if_neg (Ne.symm h.1), ih h.2]

/-- An order of a queue splits it at its first occurrence. -/
theorem exists_split {id : OrderId} {q : Queue} (h : id ∈ ids q) :
    ∃ xs n ys, q = xs ++ (id, n) :: ys ∧ id ∉ ids xs := by
  induction q with
  | nil => simp at h
  | cons e q ih =>
    by_cases he : e.1 = id
    · exact ⟨[], e.2, q, by simp [← he], by simp⟩
    · obtain ⟨xs, n, ys, rfl, hxs⟩ := ih (by simpa [Ne.symm he] using h)
      exact ⟨e :: xs, n, ys, rfl, by simp [hxs, Ne.symm he]⟩

theorem remaining_isSome_iff {id : OrderId} {q : Queue} :
    (∃ n, remaining id q = some n) ↔ id ∈ ids q := by
  constructor
  · rintro ⟨n, hn⟩
    induction q with
    | nil => simp [remaining] at hn
    | cons e q ih =>
      by_cases he : e.1 = id
      · simp [he]
      · rw [remaining, if_neg he] at hn
        exact List.mem_cons_of_mem _ (ih hn)
  · intro h
    obtain ⟨xs, n, ys, rfl, hxs⟩ := exists_split h
    exact ⟨n, remaining_split hxs⟩

theorem remaining_mem {id : OrderId} {n : ℕ} {q : Queue} (h : remaining id q = some n) :
    (id, n) ∈ q := by
  obtain ⟨xs, k, ys, rfl, hxs⟩ := exists_split (remaining_isSome_iff.mp ⟨n, h⟩)
  rw [remaining_split hxs, Option.some.injEq] at h
  simp [h]

/-- Splitting a queue without repeated ids at one of its orders. -/
theorem split_of_remaining {id : OrderId} {n : ℕ} {q : Queue}
    (h : remaining id q = some n) (hnodup : (ids q).Nodup) :
    ∃ xs ys, q = xs ++ (id, n) :: ys ∧ id ∉ ids xs ∧ id ∉ ids ys := by
  obtain ⟨xs, k, ys, rfl, hxs⟩ := exists_split (remaining_isSome_iff.mp ⟨n, h⟩)
  rw [remaining_split hxs, Option.some.injEq] at h
  subst h
  refine ⟨xs, ys, rfl, hxs, ?_⟩
  rw [ids_append, ids_cons, List.nodup_append] at hnodup
  exact (List.nodup_cons.mp hnodup.2.1).1

theorem le_total_of_mem {e : OrderId × ℕ} {q : Queue} (h : e ∈ q) : e.2 ≤ total q := by
  induction q with
  | nil => simp at h
  | cons d q ih =>
    rw [total_cons]
    rcases List.mem_cons.mp h with rfl | h
    · omega
    · have := ih h
      omega

theorem length_le_total {q : Queue} (hq : ∀ e ∈ q, 0 < e.2) : q.length ≤ total q := by
  induction q with
  | nil => simp
  | cons e q ih =>
    have he := hq e (List.mem_cons_self ..)
    have := ih fun d hd => hq d (List.mem_cons_of_mem _ hd)
    simp only [List.length_cons, total_cons]
    omega

namespace Market

def empty : Market := ⟨fun _ _ => [], fun _ => none⟩

def setQueue (m : Market) (s : Side) (px : ℤ) (q : Queue) : Side → ℤ → Queue :=
  fun s' px' => if s' = s ∧ px' = px then q else m.queue s' px'

/-- Append a new order to its queue. -/
def push (m : Market) (id : OrderId) (s : Side) (px : ℤ) (qty : ℕ) : Market :=
  ⟨m.setQueue s px (m.queue s px ++ [(id, qty)]), Function.update m.home id (some (s, px))⟩

/-- Leave `rest` shares of a live order. -/
def take (m : Market) (id : OrderId) (s : Side) (px : ℤ) (rest : ℕ) : Market :=
  ⟨m.setQueue s px (settle id rest (m.queue s px)),
    if rest = 0 then Function.update m.home id none else m.home⟩

/-- Where a live order stands and what remains of it. -/
def find (m : Market) (id : OrderId) : Option (Side × ℤ × ℕ) :=
  match m.home id with
  | none => none
  | some (s, px) => (remaining id (m.queue s px)).map fun n => (s, px, n)

def add (m : Market) (id : OrderId) (s : Side) (px : ℤ) (qty : ℕ) : Reply × Market :=
  if qty = 0 then (.error .badQty, m)
  else if px ≤ 0 then (.error .badPrice, m)
  else if 2 ^ 32 ≤ total (m.queue s px) + qty then (.error .badQty, m)
  else if (m.home id).isSome then (.error (.duplicateId id), m)
  else (.ok (.add id s px qty), m.push id s px qty)

def cancel (m : Market) (id : OrderId) (qty : ℕ) : Reply × Market :=
  match m.find id with
  | none => (.error (.unknownId .cancel id), m)
  | some (s, px, held) =>
    if qty = 0 then (.error .badQty, m)
    else (.ok (.cancel id s px (min qty held) (held - min qty held)),
      m.take id s px (held - min qty held))

def delete (m : Market) (id : OrderId) : Reply × Market :=
  match m.find id with
  | none => (.error (.unknownId .delete id), m)
  | some (s, px, held) => (.ok (.delete id s px held), m.take id s px 0)

def execute (m : Market) (id : OrderId) (qty : ℕ) : Reply × Market :=
  match m.find id with
  | none => (.error (.unknownId .exec id), m)
  | some (s, px, held) =>
    if qty = 0 then (.error .badQty, m)
    else if held < qty then (.error (.overExecute id held qty), m)
    else (.ok (.exec id s px qty (held - qty)), m.take id s px (held - qty))

def replace (m : Market) (old new : OrderId) (px : ℤ) (qty : ℕ) : Reply × Market :=
  match m.find old with
  | none => (.error (.unknownId .replace old), m)
  | some (s, oldPx, held) =>
    if (m.home new).isSome then (.error (.duplicateId new), m)
    else if qty = 0 then (.error .badQty, m)
    else if px ≤ 0 then (.error .badPrice, m)
    else if 2 ^ 32 ≤ total (m.queue s px) - (if px = oldPx then held else 0) + qty then
      (.error .badQty, m)
    else (.ok (.replace old new s px qty), (m.take old s oldPx 0).push new s px qty)

def apply (m : Market) : Op → Reply × Market
  | .add id s px qty => m.add id s px.toInt qty.toNat
  | .cancel id qty => m.cancel id qty.toNat
  | .execute id qty => m.execute id qty.toNat
  | .delete id => m.delete id
  | .replace old new px qty => m.replace old new px.toInt qty.toNat

/-- The replies of a sequence of calls and the market after them. -/
def applyAll (m : Market) : List Op → List Reply × Market
  | [] => ([], m)
  | op :: ops =>
    let next := (m.apply op).2.applyAll ops
    ((m.apply op).1 :: next.1, next.2)

/-- The lowest price a side can keep: a slot tells the sides apart by the sign of its price, so
that a price of zero reads as a bid. -/
def lowest : Side → ℤ
  | .bid => 0
  | .ask => 1

theorem lowest_nonneg (s : Side) : 0 ≤ lowest s := by cases s <;> decide

theorem lowest_le {px : ℤ} (s : Side) (hpx : 0 < px) : lowest s ≤ px := by
  cases s
  · exact hpx.le
  · exact hpx

/-- Both functions describe the same orders, each order once and with shares. -/
structure Sound (m : Market) : Prop where
  home_iff : ∀ id s px, m.home id = some (s, px) ↔ id ∈ ids (m.queue s px)
  nodup : ∀ s px, (ids (m.queue s px)).Nodup
  qty_pos : ∀ s px, ∀ e ∈ m.queue s px, 0 < e.2

/-- Both functions describe the same orders, each order once, and every bound holds. -/
structure WF (m : Market) : Prop where
  home_iff : ∀ id s px, m.home id = some (s, px) ↔ id ∈ ids (m.queue s px)
  nodup : ∀ s px, (ids (m.queue s px)).Nodup
  qty_pos : ∀ s px, ∀ e ∈ m.queue s px, 0 < e.2
  total_lt : ∀ s px, total (m.queue s px) < 2 ^ 32
  px_range : ∀ s px, m.queue s px ≠ [] → lowest s ≤ px ∧ px < 2 ^ 31

theorem WF.sound {m : Market} (hm : m.WF) : m.Sound := ⟨hm.home_iff, hm.nodup, hm.qty_pos⟩

theorem WF.px_nonneg {m : Market} (hm : m.WF) {s : Side} {px : ℤ} (h : m.queue s px ≠ []) :
    0 ≤ px ∧ px < 2 ^ 31 :=
  ⟨(lowest_nonneg s).trans (hm.px_range s px h).1, (hm.px_range s px h).2⟩

theorem setQueue_self (m : Market) (s : Side) (px : ℤ) (q : Queue) :
    m.setQueue s px q s px = q := by simp [setQueue]

theorem setQueue_of_ne (m : Market) {s s' : Side} {px px' : ℤ} (q : Queue)
    (h : ¬ (s' = s ∧ px' = px)) : m.setQueue s px q s' px' = m.queue s' px' := by
  simp only [setQueue, if_neg h]

theorem wf_empty : empty.WF where
  home_iff id s px := by simp [empty]
  nodup _ _ := List.nodup_nil
  qty_pos _ _ e he := by simp [empty] at he
  total_lt _ _ := by simp [empty]
  px_range _ _ h := absurd rfl h

theorem find_eq_some {m : Market} {id : OrderId} {s : Side} {px : ℤ} {n : ℕ} :
    m.find id = some (s, px, n) ↔
      m.home id = some (s, px) ∧ remaining id (m.queue s px) = some n := by
  unfold find
  cases hh : m.home id with
  | none => simp
  | some p =>
    obtain ⟨s', px'⟩ := p
    simp only [Option.map_eq_some_iff, Prod.mk.injEq, Option.some.injEq]
    constructor
    · rintro ⟨k, hk, rfl, rfl, rfl⟩
      exact ⟨⟨rfl, rfl⟩, hk⟩
    · rintro ⟨⟨rfl, rfl⟩, hn⟩
      exact ⟨n, hn, rfl, rfl, rfl⟩

theorem Sound.find_eq_none {m : Market} (hm : m.Sound) {id : OrderId} :
    m.find id = none ↔ m.home id = none := by
  unfold find
  cases hh : m.home id with
  | none => simp
  | some p =>
    obtain ⟨n, hn⟩ := remaining_isSome_iff.mpr ((hm.home_iff id p.1 p.2).mp hh)
    simp [hn]

theorem WF.find_eq_none {m : Market} (hm : m.WF) {id : OrderId} :
    m.find id = none ↔ m.home id = none := hm.sound.find_eq_none

/-- A live order splits its queue, and stands in no other. -/
theorem Sound.split {m : Market} (hm : m.Sound) {id : OrderId} {s : Side} {px : ℤ} {n : ℕ}
    (h : m.find id = some (s, px, n)) :
    ∃ xs ys, m.queue s px = xs ++ (id, n) :: ys ∧ id ∉ ids xs ∧ id ∉ ids ys :=
  split_of_remaining (find_eq_some.mp h).2 (hm.nodup s px)

theorem WF.split {m : Market} (hm : m.WF) {id : OrderId} {s : Side} {px : ℤ} {n : ℕ}
    (h : m.find id = some (s, px, n)) :
    ∃ xs ys, m.queue s px = xs ++ (id, n) :: ys ∧ id ∉ ids xs ∧ id ∉ ids ys :=
  hm.sound.split h

theorem Sound.held_pos {m : Market} (hm : m.Sound) {id : OrderId} {s : Side} {px : ℤ} {n : ℕ}
    (h : m.find id = some (s, px, n)) : 0 < n :=
  hm.qty_pos s px _ (remaining_mem (find_eq_some.mp h).2)

theorem WF.held_pos {m : Market} (hm : m.WF) {id : OrderId} {s : Side} {px : ℤ} {n : ℕ}
    (h : m.find id = some (s, px, n)) : 0 < n := hm.sound.held_pos h

theorem WF.held_lt {m : Market} (hm : m.WF) {id : OrderId} {s : Side} {px : ℤ} {n : ℕ}
    (h : m.find id = some (s, px, n)) : n < 2 ^ 32 :=
  lt_of_le_of_lt (le_total_of_mem (remaining_mem (find_eq_some.mp h).2)) (hm.total_lt s px)

theorem Sound.push {m : Market} (hm : m.Sound) {id : OrderId} (s : Side) (px : ℤ) {qty : ℕ}
    (hid : m.home id = none) (hqty : 0 < qty) : (m.push id s px qty).Sound := by
  have hfresh : ∀ s' px', id ∉ ids (m.queue s' px') := fun s' px' h => by
    simp [(hm.home_iff id s' px').mpr h] at hid
  refine ⟨?_, ?_, ?_⟩
  · intro j s' px'
    simp only [Market.push, Function.update_apply]
    by_cases hq : s' = s ∧ px' = px
    · obtain ⟨rfl, rfl⟩ := hq
      rw [setQueue_self]
      by_cases hj : j = id
      · simp [hj]
      · simp [hj, hm.home_iff j]
    · rw [setQueue_of_ne m _ hq]
      by_cases hj : j = id
      · subst hj
        simp only [if_true, Option.some.injEq, Prod.mk.injEq]
        exact ⟨fun h => absurd ⟨h.1.symm, h.2.symm⟩ hq, fun h => absurd h (hfresh s' px')⟩
      · simp [hj, hm.home_iff j]
  · intro s' px'
    by_cases hq : s' = s ∧ px' = px
    · obtain ⟨rfl, rfl⟩ := hq
      simp only [Market.push, setQueue_self, ids_append, ids_cons, ids_nil]
      exact List.nodup_append.mpr ⟨hm.nodup s' px', List.nodup_singleton _, fun a ha b hb => by
        rintro rfl
        exact hfresh s' px' ((List.mem_singleton.mp hb) ▸ ha)⟩
    · simpa only [Market.push, setQueue_of_ne m _ hq] using hm.nodup s' px'
  · intro s' px' e he
    by_cases hq : s' = s ∧ px' = px
    · obtain ⟨rfl, rfl⟩ := hq
      simp only [Market.push, setQueue_self, List.mem_append, List.mem_singleton] at he
      rcases he with he | rfl
      · exact hm.qty_pos s' px' e he
      · exact hqty
    · exact hm.qty_pos s' px' e (by simpa only [Market.push, setQueue_of_ne m _ hq] using he)

theorem WF.push {m : Market} (hm : m.WF) {id : OrderId} {s : Side} {px : ℤ} {qty : ℕ}
    (hid : m.home id = none) (hqty : 0 < qty) (hpx : 0 < px ∧ px < 2 ^ 31)
    (htotal : total (m.queue s px) + qty < 2 ^ 32) : (m.push id s px qty).WF := by
  obtain ⟨hhome, hnodup, hpos⟩ := hm.sound.push s px hid hqty
  refine ⟨hhome, hnodup, hpos, ?_, ?_⟩
  · intro s' px'
    by_cases hq : s' = s ∧ px' = px
    · obtain ⟨rfl, rfl⟩ := hq
      simpa [Market.push, setQueue_self] using htotal
    · simpa only [Market.push, setQueue_of_ne m _ hq] using hm.total_lt s' px'
  · intro s' px' hne
    by_cases hq : s' = s ∧ px' = px
    · exact hq.2 ▸ hq.1 ▸ ⟨lowest_le s hpx.1, hpx.2⟩
    · exact hm.px_range s' px' (by simpa only [Market.push, setQueue_of_ne m _ hq] using hne)

theorem settle_sublist_ids (id : OrderId) (rest : ℕ) (q : Queue) :
    (ids (settle id rest q)).Sublist (ids q) := by
  induction q with
  | nil => exact List.Sublist.refl _
  | cons e q ih =>
    obtain ⟨i, n⟩ := e
    simp only [settle]
    split
    · split
      · exact List.sublist_cons_self _ _
      · exact List.Sublist.refl _
    · exact ih.cons_cons _

theorem Sound.take {m : Market} (hm : m.Sound) {id : OrderId} {s : Side} {px : ℤ} {n : ℕ}
    (h : m.find id = some (s, px, n)) (rest : ℕ) : (m.take id s px rest).Sound := by
  obtain ⟨xs, ys, hq, hxs, hys⟩ := hm.split h
  have hset : settle id rest (m.queue s px) =
      xs ++ (if rest = 0 then ys else (id, rest) :: ys) := by
    rw [hq, settle_split hxs]
  have hhome := (find_eq_some.mp h).1
  refine ⟨?_, ?_, ?_⟩
  · intro j s' px'
    by_cases hjm : j = id
    · subst hjm
      by_cases hr : rest = 0
      · simp only [Market.take, hr, if_true, Function.update_self]
        constructor
        · exact fun h => absurd h (by simp)
        · intro hmem
          by_cases hq' : s' = s ∧ px' = px
          · obtain ⟨rfl, rfl⟩ := hq'
            rw [setQueue_self, ← hr, hset, if_pos hr] at hmem
            simp [hxs, hys] at hmem
          · rw [setQueue_of_ne m _ hq', ← hm.home_iff, hhome] at hmem
            simp only [Option.some.injEq, Prod.mk.injEq] at hmem
            exact absurd ⟨hmem.1.symm, hmem.2.symm⟩ hq'
      · simp only [Market.take, hr, if_false]
        by_cases hq' : s' = s ∧ px' = px
        · obtain ⟨rfl, rfl⟩ := hq'
          simp [setQueue_self, hset, hr, hhome]
        · rw [setQueue_of_ne m _ hq', hm.home_iff]
    · have hkeep : (m.take id s px rest).home j = m.home j := by
        simp only [Market.take]
        split
        · exact Function.update_of_ne hjm _ _
        · rfl
      rw [hkeep]
      by_cases hq' : s' = s ∧ px' = px
      · obtain ⟨rfl, rfl⟩ := hq'
        simp only [Market.take, setQueue_self, hset, hm.home_iff]
        rw [hq]
        split <;> simp [hjm]
      · simp only [Market.take, setQueue_of_ne m _ hq', hm.home_iff]
  · intro s' px'
    by_cases hq' : s' = s ∧ px' = px
    · obtain ⟨rfl, rfl⟩ := hq'
      simpa only [Market.take, setQueue_self] using
        (hm.nodup s' px').sublist (settle_sublist_ids id rest _)
    · simpa only [Market.take, setQueue_of_ne m _ hq'] using hm.nodup s' px'
  · intro s' px' e he
    by_cases hq' : s' = s ∧ px' = px
    · obtain ⟨rfl, rfl⟩ := hq'
      have hold := hm.qty_pos s' px'
      rw [hq] at hold
      simp only [Market.take, setQueue_self, hset, List.mem_append] at he
      rcases he with he | he
      · exact hold e (by simp [he])
      · split at he
        · exact hold e (by simp [he])
        · rcases List.mem_cons.mp he with rfl | he
          · exact Nat.pos_of_ne_zero ‹_›
          · exact hold e (by simp [he])
    · exact hm.qty_pos s' px' e (by simpa only [Market.take, setQueue_of_ne m _ hq'] using he)

/-- Taking shares off an order takes none onto a level. -/
theorem Sound.total_take_le {m : Market} (hm : m.Sound) {id : OrderId} {s : Side} {px : ℤ}
    {n rest : ℕ} (h : m.find id = some (s, px, n)) (hrest : rest ≤ n) (s' : Side) (px' : ℤ) :
    total ((m.take id s px rest).queue s' px') ≤ total (m.queue s' px') := by
  by_cases hq' : s' = s ∧ px' = px
  · obtain ⟨rfl, rfl⟩ := hq'
    obtain ⟨xs, ys, hq, hxs, -⟩ := hm.split h
    simp only [Market.take, setQueue_self, hq, settle_split hxs, total_append, total_cons]
    split
    · omega
    · simp only [total_cons]
      omega
  · simp only [Market.take, setQueue_of_ne m _ hq', le_refl]

theorem WF.take {m : Market} (hm : m.WF) {id : OrderId} {s : Side} {px : ℤ} {n rest : ℕ}
    (h : m.find id = some (s, px, n)) (hrest : rest ≤ n) : (m.take id s px rest).WF := by
  obtain ⟨hhome, hnodup, hpos⟩ := hm.sound.take h rest
  refine ⟨hhome, hnodup, hpos, fun s' px' => ?_, fun s' px' hne => hm.px_range s' px' ?_⟩
  · exact lt_of_le_of_lt (hm.sound.total_take_le h hrest s' px') (hm.total_lt s' px')
  · by_cases hq' : s' = s ∧ px' = px
    · obtain ⟨rfl, rfl⟩ := hq'
      obtain ⟨xs, ys, hq, -, -⟩ := hm.split h
      simp [hq]
    · simpa only [Market.take, setQueue_of_ne m _ hq'] using hne

end Market

end Lobcore.Markets
