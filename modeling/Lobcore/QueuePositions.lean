import Lobcore.EventReplays
import Lobcore.MarketSnapshots

/-!
Positions in a queue. What stands ahead of an order only ever shrinks, by exactly the shares a
call takes from an order ahead of it; an order that arrives, by an add or by a replace, stands
behind everything its level holds.
-/
namespace Lobcore.QueuePositions

open Checked OrderTypes Markets ArrayBooks Sessions Migrations EventReplays

/-! Reading orders off a snapshot. -/

/-- The level an order stands in. -/
def standing (v : Snapshot) (id : OrderId) : Option (Side × ℤ × Queue) :=
  v.find? fun e => decide (id ∈ ids e.2.2)

def Live (v : Snapshot) (id : OrderId) : Prop := (standing v id).isSome

instance (v : Snapshot) (id : OrderId) : Decidable (Live v id) :=
  inferInstanceAs (Decidable ((standing v id).isSome = true))

/-- The orders of a level, first come first. -/
def queueAt (v : Snapshot) (s : Side) (px : ℤ) : Queue :=
  ((v.find? fun e => decide (e.1 = s ∧ e.2.1 = px)).map fun e => e.2.2).getD []

/-- What remains of an order, nothing for one that is not live. -/
def shares (v : Snapshot) (id : OrderId) : ℕ :=
  ((standing v id).bind fun e => remaining id e.2.2).getD 0

/-- The orders of a queue in front of one of them. -/
def before (id : OrderId) (q : Queue) : Queue := q.takeWhile fun e => decide (e.1 ≠ id)

/-- The orders standing ahead of an order, in its own level. -/
def front (v : Snapshot) (id : OrderId) : Queue :=
  ((standing v id).map fun e => before id e.2.2).getD []

/-- The order a call takes shares from. -/
def target : Op → Option OrderId
  | .add .. => none
  | .cancel id _ => some id
  | .execute id _ => some id
  | .delete id => some id
  | .replace old .. => some old

/-- The shares a call has taken from an order standing ahead of `id`; a refused call takes none. -/
def removedAhead (op : Op) (r : Reply) (v v' : Snapshot) (id : OrderId) : ℕ :=
  match r, target op with
  | .ok _, some t => if t ∈ ids (front v id) then shares v t - shares v' t else 0
  | _, _ => 0

/-- A level without one of its orders. -/
def others (id : OrderId) (q : Queue) : Queue := q.filter fun e => decide (e.1 ≠ id)

/-! One queue. -/

section Queues

variable {id t : OrderId} {q : Queue} {rest : ℕ}

theorem ahead_settle_of_not_before (ht : t ∉ ids (before id q)) (hkeep : t = id → rest ≠ 0) :
    ahead id (settle t rest q) = ahead id q := by
  induction q with
  | nil => rfl
  | cons e q ih =>
    obtain ⟨i, n⟩ := e
    by_cases hi : i = id
    · subst hi
      by_cases hit : i = t
      · simp [settle, hit, hkeep hit.symm, ahead]
      · simp [settle, hit, ahead]
    · simp only [before, List.takeWhile_cons, hi, ne_eq, not_false_eq_true, decide_true, if_true,
        ids_cons, List.mem_cons, not_or] at ht
      simp only [settle, if_neg (Ne.symm ht.1), ahead, if_neg hi, ih ht.2]

theorem ahead_settle_of_before {n : ℕ} (ht : t ∈ ids (before id q))
    (hn : remaining t q = some n) (hrest : rest ≤ n) :
    ahead id (settle t rest q) + (n - rest) = ahead id q := by
  induction q with
  | nil => cases ht
  | cons e q ih =>
    obtain ⟨i, k⟩ := e
    by_cases hi : i = id
    · simp [before, hi] at ht
    simp only [before, List.takeWhile_cons, hi, ne_eq, not_false_eq_true, decide_true, if_true,
      ids_cons, List.mem_cons] at ht
    by_cases hit : i = t
    · simp only [remaining, if_pos hit, Option.some.injEq] at hn
      by_cases hzero : rest = 0
      · simp only [settle, if_pos hit, if_pos hzero, ahead, if_neg hi]
        omega
      · simp only [settle, if_pos hit, if_neg hzero, ahead, if_neg hi]
        omega
    · simp only [remaining, if_neg hit] at hn
      have hrec := ih (ht.resolve_left (Ne.symm hit)) hn
      simp only [settle, if_neg hit, ahead, if_neg hi]
      omega

theorem ahead_append_of_mem (h : id ∈ ids q) (p : Queue) : ahead id (q ++ p) = ahead id q := by
  obtain ⟨xs, n, ys, rfl, hxs⟩ := exists_split h
  rw [List.append_assoc, List.cons_append, ahead_split hxs, ahead_split hxs]

theorem remaining_settle {n : ℕ} (hn : remaining t q = some n) (hnodup : (ids q).Nodup) :
    (remaining t (settle t rest q)).getD 0 = rest := by
  obtain ⟨xs, ys, rfl, hxs, hys⟩ := split_of_remaining hn hnodup
  rw [settle_split hxs]
  split
  · have hnot : t ∉ ids (xs ++ ys) := by simp [hxs, hys]
    rw [Option.eq_none_iff_forall_ne_some.mpr fun k hk => hnot (remaining_isSome_iff.mp ⟨k, hk⟩)]
    simp_all
  · rw [remaining_split hxs]
    rfl

theorem settle_zero (hnodup : (ids q).Nodup) : settle t 0 q = others t q := by
  have hskip : ∀ {p : Queue}, t ∉ ids p → others t p = p := by
    intro p hp
    refine List.filter_eq_self.mpr fun e he => decide_eq_true fun h => hp ?_
    exact h ▸ List.mem_map_of_mem he
  by_cases ht : t ∈ ids q
  · obtain ⟨n, hn⟩ := remaining_isSome_iff.mpr ht
    obtain ⟨xs, ys, rfl, hxs, hys⟩ := split_of_remaining hn hnodup
    rw [settle_split hxs, if_pos rfl]
    have hx := hskip hxs
    have hy := hskip hys
    simp only [others] at hx hy ⊢
    rw [List.filter_append, List.filter_cons_of_neg (by simp), hx, hy]
  · rw [settle_eq_self ht, hskip ht]

end Queues

/-! A snapshot and its market. -/

section Snapshots

variable {m : Market} (hm : m.WF)

include hm

theorem standing_eq (id : OrderId) :
    standing m.snapshot id = (m.home id).map fun p => (p.1, p.2, m.queue p.1 p.2) := by
  cases hhome : m.home id with
  | none =>
    refine List.find?_eq_none.mpr fun e he hid => ?_
    obtain ⟨hq, -⟩ := hm.mem_snapshot.mp he
    rw [decide_eq_true_eq, ← hq, ← hm.home_iff, hhome] at hid
    cases hid
  | some p =>
    obtain ⟨s, px⟩ := p
    have hmem := (hm.home_iff id s px).mp hhome
    have hin : (s, px, m.queue s px) ∈ m.snapshot :=
      hm.mem_snapshot.mpr ⟨rfl, fun hnil => by simp [hnil] at hmem⟩
    have hex : (m.snapshot.find? fun e => decide (id ∈ ids e.2.2)).isSome :=
      List.find?_isSome.mpr ⟨_, hin, decide_eq_true hmem⟩
    obtain ⟨e, he⟩ := Option.isSome_iff_exists.mp hex
    obtain ⟨hq, -⟩ := hm.mem_snapshot.mp (List.mem_of_find?_eq_some he)
    have hid := List.find?_some he
    rw [decide_eq_true_eq, ← hq, ← hm.home_iff, hhome, Option.some.injEq, Prod.mk.injEq] at hid
    obtain ⟨rfl, rfl⟩ := hid
    rw [standing, he, Option.map_some, hq]

theorem live_iff (id : OrderId) : Live m.snapshot id ↔ (m.home id).isSome := by
  rw [Live, standing_eq hm, Option.isSome_map]

theorem queueAt_eq (s : Side) (px : ℤ) : queueAt m.snapshot s px = m.queue s px := by
  rw [queueAt]
  cases hfind : m.snapshot.find? fun e => decide (e.1 = s ∧ e.2.1 = px) with
  | none =>
    by_contra hne
    have hin : (s, px, m.queue s px) ∈ m.snapshot := hm.mem_snapshot.mpr ⟨rfl, Ne.symm hne⟩
    simpa using List.find?_eq_none.mp hfind _ hin
  | some e =>
    have hat := List.find?_some hfind
    rw [decide_eq_true_eq] at hat
    obtain ⟨rfl, rfl⟩ := hat
    exact (hm.mem_snapshot.mp (List.mem_of_find?_eq_some hfind)).1.symm

theorem shares_eq (id : OrderId) :
    shares m.snapshot id = ((m.find id).map fun p => p.2.2).getD 0 := by
  rw [shares, standing_eq hm, Market.find]
  cases m.home id with
  | none => rfl
  | some p => cases h : remaining id (m.queue p.1 p.2) <;> simp [h]

theorem front_eq {id : OrderId} {s : Side} {px : ℤ} (h : m.home id = some (s, px)) :
    front m.snapshot id = before id (m.queue s px) := by
  rw [front, standing_eq hm, h]
  rfl

theorem queueAhead_of_home {id : OrderId} {s : Side} {px : ℤ} (h : m.home id = some (s, px)) :
    m.queueAhead id = some (ahead id (m.queue s px)) := by
  obtain ⟨n, hn⟩ := remaining_isSome_iff.mpr ((hm.home_iff id s px).mp h)
  rw [Market.queueAhead, Market.find_eq_some.mpr ⟨h, hn⟩]
  rfl

end Snapshots

/-! One call. -/

theorem add_cases (m : Market) (id : OrderId) (s : Side) (px : ℤ) (qty : ℕ) :
    (m.add id s px qty).2 = m ∨
      m.home id = none ∧ (m.add id s px qty).2 = m.push id s px qty := by
  unfold Market.add
  split
  · exact Or.inl rfl
  split
  · exact Or.inl rfl
  split
  · exact Or.inl rfl
  split
  · exact Or.inl rfl
  · rename_i hdup
    exact Or.inr ⟨by simpa using hdup, rfl⟩

theorem replace_cases {m : Market} {old : OrderId} {s : Side} {oldPx : ℤ} {n : ℕ}
    (hfind : m.find old = some (s, oldPx, n)) (new : OrderId) (px : ℤ) (qty : ℕ) :
    (m.replace old new px qty).2 = m ∨ m.home new = none ∧
      (m.replace old new px qty).2 = (m.take old s oldPx 0).push new s px qty := by
  simp only [Market.replace, hfind]
  split
  · exact Or.inl rfl
  · rename_i hdup
    split
    · exact Or.inl rfl
    split
    · exact Or.inl rfl
    by_cases hfull : 2 ^ 32 ≤ total (m.queue s px) - (if px = oldPx then n else 0) + qty
    · exact Or.inl (by rw [if_pos hfull])
    · exact Or.inr ⟨by simpa using hdup, by rw [if_neg hfull]⟩

/-- What a call does, in terms of the order it takes shares from. -/
theorem target_cases (m : Market) (op : Op) :
    (m.apply op).2 = m ∨
    (∃ id s px qty, op = .add id s px qty ∧ m.home id = none ∧
      (m.apply op).2 = m.push id s px.toInt qty.toNat) ∨
    (∃ t s px n rest, target op = some t ∧ m.find t = some (s, px, n) ∧ rest ≤ n ∧
      (m.apply op).2 = m.take t s px rest) ∨
    ∃ old new px qty s oldPx n, op = .replace old new px qty ∧ m.find old = some (s, oldPx, n) ∧
      m.home new = none ∧ (m.apply op).2 =
      (m.take old s oldPx 0).push new s px.toInt qty.toNat := by
  cases op with
  | add id s px qty =>
    rw [Market.apply]
    rcases add_cases m id s px.toInt qty.toNat with hsame | ⟨hnew, hpush⟩
    · exact Or.inl hsame
    · exact Or.inr (Or.inl ⟨id, s, px, qty, rfl, hnew, hpush⟩)
  | cancel id qty =>
    simp only [Market.apply, Market.cancel]
    cases hfind : m.find id with
    | none => exact Or.inl rfl
    | some p =>
      simp only
      split_ifs
      · exact Or.inl rfl
      · exact Or.inr (Or.inr (Or.inl ⟨id, _, _, _, _, rfl, hfind, Nat.sub_le _ _, rfl⟩))
  | execute id qty =>
    simp only [Market.apply, Market.execute]
    cases hfind : m.find id with
    | none => exact Or.inl rfl
    | some p =>
      simp only
      split_ifs
      · exact Or.inl rfl
      · exact Or.inl rfl
      · exact Or.inr (Or.inr (Or.inl ⟨id, _, _, _, _, rfl, hfind, Nat.sub_le _ _, rfl⟩))
  | delete id =>
    simp only [Market.apply, Market.delete]
    cases hfind : m.find id with
    | none => exact Or.inl rfl
    | some p => exact Or.inr (Or.inr (Or.inl ⟨id, _, _, _, _, rfl, hfind, Nat.zero_le _, rfl⟩))
  | replace old new px qty =>
    rw [Market.apply]
    cases hfind : m.find old with
    | none => exact Or.inl (by rw [Market.replace, hfind])
    | some p =>
      obtain ⟨s, oldPx, n⟩ := p
      rcases replace_cases hfind new px.toInt qty.toNat with hsame | ⟨hnew, hpush⟩
      · exact Or.inl hsame
      · exact Or.inr (Or.inr (Or.inr
          ⟨old, new, px, qty, s, oldPx, n, rfl, hfind, hnew, hpush⟩))

section Calls

variable {m : Market} (hm : m.WF) {id : OrderId} {s : Side} {px : ℤ}

include hm

/-- An order that arrives leaves the others where they are. -/
theorem queueAhead_push (hhome : m.home id = some (s, px)) {new : OrderId}
    (hnew : m.home new = none) (s' : Side) (px' : ℤ) (qty : ℕ) (h' : (m.push new s' px' qty).WF) :
    (m.push new s' px' qty).queueAhead id = m.queueAhead id := by
  have hne : id ≠ new := fun h => by simp [h, hnew] at hhome
  have hhome' : (m.push new s' px' qty).home id = some (s, px) := by
    simpa [Market.push, hne] using hhome
  rw [queueAhead_of_home h' hhome', queueAhead_of_home hm hhome]
  by_cases hq : s = s' ∧ px = px'
  · obtain ⟨rfl, rfl⟩ := hq
    simp only [Market.push, Market.setQueue_self]
    rw [ahead_append_of_mem ((hm.home_iff id s px).mp hhome)]
  · simp only [Market.push, Market.setQueue_of_ne m _ hq]

/-- An order that arrives stands behind its whole level. -/
theorem queueAhead_push_self {new : OrderId} (hnew : m.home new = none) {qty : ℕ}
    (h' : (m.push new s px qty).WF) :
    (m.push new s px qty).queueAhead new = some (total (m.queue s px)) := by
  have hfresh : new ∉ ids (m.queue s px) := fun h => by
    simp [(hm.home_iff new s px).mpr h] at hnew
  have hhome : (m.push new s px qty).home new = some (s, px) := by simp [Market.push]
  rw [queueAhead_of_home h' hhome]
  simp only [Market.push, Market.setQueue_self, ahead_split hfresh]

/-- Shares taken from an order ahead are shares less to wait for. -/
theorem queueAhead_take (hhome : m.home id = some (s, px)) {t : OrderId} {s' : Side} {px' : ℤ}
    {n rest : ℕ} (ht : m.find t = some (s', px', n)) (hrest : rest ≤ n)
    (h' : (m.take t s' px' rest).WF) (hlive : ((m.take t s' px' rest).home id).isSome) :
    ∃ k, (m.take t s' px' rest).queueAhead id = some k ∧
      k + (if t ∈ ids (before id (m.queue s px)) then n - rest else 0) =
        ahead id (m.queue s px) := by
  have hkeep : t = id → rest ≠ 0 := by
    intro hid hzero
    simp [Market.take, hid, hzero] at hlive
  have hhome' : (m.take t s' px' rest).home id = some (s, px) := by
    by_cases hzero : rest = 0
    · have hne : id ≠ t := fun h => hkeep h.symm hzero
      simpa [Market.take, hzero, hne] using hhome
    · simpa [Market.take, hzero] using hhome
  refine ⟨_, queueAhead_of_home h' hhome', ?_⟩
  by_cases hq : s = s' ∧ px = px'
  · obtain ⟨rfl, rfl⟩ := hq
    simp only [Market.take, Market.setQueue_self]
    split
    · exact ahead_settle_of_before ‹_› (Market.find_eq_some.mp ht).2 hrest
    · exact ahead_settle_of_not_before ‹_› hkeep
  · have hnot : t ∉ ids (before id (m.queue s px)) := by
      intro hmem
      have hin : t ∈ ids (m.queue s px) := by
        obtain ⟨e, he, rfl⟩ := List.mem_map.mp hmem
        exact List.mem_map_of_mem ((List.takeWhile_sublist _).subset he)
      have hthome := (Market.find_eq_some.mp ht).1
      rw [(hm.home_iff t s px).mpr hin, Option.some.injEq, Prod.mk.injEq] at hthome
      exact hq hthome
    simp only [Market.take, Market.setQueue_of_ne m _ hq, if_neg hnot, add_zero]

/-- What a call leaves of the order it takes shares from. -/
theorem shares_take {t : OrderId} {n rest : ℕ} (ht : m.find t = some (s, px, n))
    (h' : (m.take t s px rest).WF) : shares (m.take t s px rest).snapshot t = rest := by
  obtain ⟨hhome, hrem⟩ := Market.find_eq_some.mp ht
  rw [shares_eq h', Market.find]
  by_cases hzero : rest = 0
  · simp [Market.take, hzero]
  · have hleft := @remaining_settle t _ rest n hrem (hm.nodup s px)
    simp only [Market.take, if_neg hzero, hhome, Market.setQueue_self, Option.map_map]
    simpa only [Function.comp_def, Option.map_id'] using hleft

/-- A deleted order is missing from its level, and from no other. -/
theorem queue_take_zero {t : OrderId} {n : ℕ} (ht : m.find t = some (s, px, n)) (px' : ℤ) :
    (m.take t s px 0).queue s px' = others t (m.queue s px') := by
  rw [← settle_zero (hm.nodup s px')]
  by_cases hp : px' = px
  · subst hp
    simp only [Market.take, Market.setQueue_self]
  · have hnot : t ∉ ids (m.queue s px') := by
      intro hin
      have hthome := (Market.find_eq_some.mp ht).1
      rw [(hm.home_iff t s px').mpr hin, Option.some.injEq, Prod.mk.injEq] at hthome
      exact hp hthome.2
    rw [settle_eq_self hnot]
    simp only [Market.take, Market.setQueue_of_ne m _ fun h => hp h.2]

/-- The law of one call on a market. -/
theorem queueAhead_apply (op : Op) (hlive : (m.home id).isSome)
    (hlive' : ((m.apply op).2.home id).isSome) :
    ∃ n k, m.queueAhead id = some n ∧ (m.apply op).2.queueAhead id = some k ∧
      k + removedAhead op (m.apply op).1 m.snapshot (m.apply op).2.snapshot id = n := by
  obtain ⟨⟨s, px⟩, hhome⟩ := Option.isSome_iff_exists.mp hlive
  have hnow := queueAhead_of_home hm hhome
  have hm' := hm.apply op
  cases hr : (m.apply op).1 with
  | error e => exact ⟨_, _, hnow, by rw [Market.apply_error hr, hnow], rfl⟩
  | ok ev =>
    rcases target_cases m op with he | ⟨j, s', px', qty, rfl, hj, he⟩ |
      ⟨t, s', px', n, rest, htarget, ht, hrest, he⟩ |
      ⟨old, new, px', qty, s', oldPx, n, rfl, ht, hnew, he⟩
    · exact absurd he (hm.apply_ne hr)
    · rw [he] at hm' hlive' ⊢
      exact ⟨_, _, hnow, by rw [queueAhead_push hm hhome hj _ _ _ hm', hnow], rfl⟩
    · rw [he] at hm' hlive' ⊢
      obtain ⟨k, hk, hsum⟩ := queueAhead_take hm hhome ht hrest hm' hlive'
      refine ⟨_, k, hnow, hk, ?_⟩
      simp only [removedAhead, htarget, front_eq hm hhome, shares_take hm ht hm', shares_eq hm t,
        ht, Option.map_some, Option.getD_some]
      exact hsum
    · obtain ⟨hold, -⟩ := Market.find_eq_some.mp ht
      have hne : old ≠ new := fun h => by simp [h, hnew] at hold
      have h₁ : (m.take old s' oldPx 0).WF := hm.take ht (Nat.zero_le n)
      have hnew₁ : (m.take old s' oldPx 0).home new = none := by
        rw [Market.home_take_zero, if_neg hne.symm, hnew]
      have hidnew : id ≠ new := fun h => by simp [h, hnew] at hhome
      rw [he] at hm' hlive' ⊢
      have hlive₁ : ((m.take old s' oldPx 0).home id).isSome := by
        simpa [Market.push, hidnew] using hlive'
      obtain ⟨k, hk, hsum⟩ := queueAhead_take hm hhome ht (Nat.zero_le n) h₁ hlive₁
      obtain ⟨p, hp⟩ := Option.isSome_iff_exists.mp hlive₁
      have hgone : shares ((m.take old s' oldPx 0).push new s' px'.toInt qty.toNat).snapshot old =
          0 := by
        rw [shares_eq hm', Market.find]
        simp [Market.push, hne, Market.home_take_zero]
      refine ⟨_, k, hnow, by rw [queueAhead_push h₁ hp hnew₁ _ _ _ hm', hk], ?_⟩
      simp only [removedAhead, target, front_eq hm hhome, hgone, shares_eq hm old, ht,
        Option.map_some, Option.getD_some]
      exact hsum

theorem queueAhead_add {px : Int32} {qty : UInt32} {ev : Event}
    (h : (m.apply (.add id s px qty)).1 = .ok ev) :
    (m.apply (.add id s px qty)).2.queueAhead id = some (total (m.queue s px.toInt)) := by
  have hm' := hm.apply (.add id s px qty)
  simp only [Market.apply, Market.add] at h hm' ⊢
  split_ifs at h hm' ⊢ with _ _ _ hdup
  exact queueAhead_push_self hm (by simpa using hdup) hm'

theorem queueAhead_replace {old new : OrderId} {px : Int32} {qty : UInt32} {ev : Event}
    (h : (m.apply (.replace old new px qty)).1 = .ok ev) :
    ∃ s oldPx n, m.find old = some (s, oldPx, n) ∧
      (m.apply (.replace old new px qty)).2.queueAhead new =
        some (total (others old (m.queue s px.toInt))) := by
  have hm' := hm.apply (.replace old new px qty)
  simp only [Market.apply, Market.replace] at h hm' ⊢
  cases hfind : m.find old with
  | none => simp [hfind] at h
  | some p =>
    obtain ⟨s, oldPx, n⟩ := p
    simp only [hfind] at h hm' ⊢
    split_ifs at h hm' ⊢ with hdup
    all_goals
      have h₁ : (m.take old s oldPx 0).WF := hm.take hfind (Nat.zero_le n)
      have hnew₁ : (m.take old s oldPx 0).home new = none := by
        rw [Market.home_take_zero]
        split
        · rfl
        · simpa using hdup
      refine ⟨s, oldPx, n, rfl, ?_⟩
      rw [queueAhead_push_self h₁ hnew₁ hm', queue_take_zero hm hfind]

end Calls

/-- Along a run in which an order stays live, what stands ahead of it never grows. -/
theorem queueAhead_run {b b' : LocateBook} {m : Market} (h : b.Refines m) {ops : List Op}
    {replies : List Reply} {id : OrderId} (hrun : run LocateBook.apply b ops = .ok (replies, b'))
    (hlive : Along LocateBook.apply (fun c => ∃ w, c.snapshot = .ok w ∧ Live w id) b ops) :
    ∃ n k, b.queueAhead id = .ok (some n) ∧ b'.queueAhead id = .ok (some k) ∧ k ≤ n := by
  have hhome : ∀ {b : LocateBook} {m : Market}, b.Refines m →
      (∃ w, b.snapshot = .ok w ∧ Live w id) → (m.home id).isSome := by
    intro b m h hw
    obtain ⟨w, hsnap, hw⟩ := hw
    rw [h.snapshot_eq, Except.ok.injEq] at hsnap
    exact (live_iff h.wf id).mp (hsnap ▸ hw)
  induction ops generalizing b m replies with
  | nil =>
    obtain ⟨rfl, rfl⟩ := Prod.mk.inj (Except.ok.inj hrun)
    obtain ⟨p, hp⟩ := Option.isSome_iff_exists.mp (hhome h hlive.head)
    have hnow := queueAhead_of_home h.wf hp
    exact ⟨_, _, by rw [h.queueAhead_eq, hnow], by rw [h.queueAhead_eq, hnow], le_rfl⟩
  | cons op ops ih =>
    obtain ⟨r, rs, b₁, hstep, hrest, rfl⟩ := run_cons_eq_ok.mp hrun
    obtain ⟨rfl, h₁⟩ := refines_of_apply h hstep
    have htail := hlive.tail hstep
    obtain ⟨n, k, hn, hk, hsum⟩ := queueAhead_apply h.wf op (hhome h hlive.head)
      (hhome h₁ htail.head)
    obtain ⟨k', j, hk', hj, hle⟩ := ih h₁ hrest htail
    rw [h₁.queueAhead_eq, hk, Except.ok.injEq, Option.some.injEq] at hk'
    exact ⟨n, j, by rw [h.queueAhead_eq, hn], hj, by omega⟩

/-- What stands ahead of an order shrinks by exactly the shares a call takes from an order ahead
of it, so it never grows while the order lives; and an order that arrives stands behind all that
its level held, the order it replaces not counted. -/
theorem queue_position_law {b : LocateBook} (hb : Reached b) : ∃ v, b.snapshot = .ok v ∧
    (∀ op r b', b.apply op = .ok (r, b') → ∃ v', b'.snapshot = .ok v' ∧
      ∀ id, Live v id → Live v' id → ∃ n k, b.queueAhead id = .ok (some n) ∧
        b'.queueAhead id = .ok (some k) ∧ k + removedAhead op r v v' id = n) ∧
    (∀ ops replies b' id, run LocateBook.apply b ops = .ok (replies, b') →
      Along LocateBook.apply (fun c => ∃ w, c.snapshot = .ok w ∧ Live w id) b ops →
      ∃ n k, b.queueAhead id = .ok (some n) ∧ b'.queueAhead id = .ok (some k) ∧ k ≤ n) ∧
    (∀ id s px qty ev b', b.apply (.add id s px qty) = .ok (.ok ev, b') →
      b'.queueAhead id = .ok (some (total (queueAt v s px.toInt)))) ∧
    ∀ old new px qty ev b', b.apply (.replace old new px qty) = .ok (.ok ev, b') →
      ∃ s oldPx q, standing v old = some (s, oldPx, q) ∧
        b'.queueAhead new = .ok (some (total (others old (queueAt v s px.toInt)))) := by
  obtain ⟨m, hbm⟩ := hb.refines
  have hm := hbm.wf
  refine ⟨_, hbm.snapshot_eq, ?_, ?_, ?_, ?_⟩
  · intro op r b' hstep
    obtain ⟨rfl, hbm'⟩ := refines_of_apply hbm hstep
    refine ⟨_, hbm'.snapshot_eq, fun id hlive hlive' => ?_⟩
    obtain ⟨n, k, hn, hk, hsum⟩ := queueAhead_apply hm op ((live_iff hm id).mp hlive)
      ((live_iff hbm'.wf id).mp hlive')
    exact ⟨n, k, by rw [hbm.queueAhead_eq, hn], by rw [hbm'.queueAhead_eq, hk], hsum⟩
  · intro ops replies b' id hrun halong
    exact queueAhead_run hbm hrun halong
  · intro id s px qty ev b' hstep
    obtain ⟨hr, hbm'⟩ := refines_of_apply hbm hstep
    rw [hbm'.queueAhead_eq, queueAhead_add hm hr.symm, queueAt_eq hm]
  · intro old new px qty ev b' hstep
    obtain ⟨hr, hbm'⟩ := refines_of_apply hbm hstep
    obtain ⟨s, oldPx, n, hfind, hahead⟩ := queueAhead_replace hm hr.symm
    refine ⟨s, oldPx, m.queue s oldPx, ?_, by rw [hbm'.queueAhead_eq, hahead, queueAt_eq hm]⟩
    rw [standing_eq hm, (Market.find_eq_some.mp hfind).1]
    rfl

/-- Three bids at one price, and an execution against the first of them. -/
def executeInFront : Exec (ArrayBook × List Reply × LocateBook × Reply × LocateBook × Snapshot ×
    Snapshot) := do
  let ab ← ArrayBook.new ⟨100, 4, 5⟩
  let (replies, b) ← run LocateBook.apply (.array ab)
    [.add 1 .bid 105 5, .add 2 .bid 105 3, .add 3 .bid 105 4]
  let (r, b') ← b.apply (.execute 1 2)
  let v ← b.snapshot
  let v' ← b'.snapshot
  return (ab, replies, b, r, b', v, v')

/-- Three orders of one level; the first is filled in part. -/
theorem queue_position_law_three : ∃ ab replies b r b' v v' n k,
    ArrayBook.new ⟨100, 4, 5⟩ = .ok ab ∧
    run LocateBook.apply (.array ab) [.add 1 .bid 105 5, .add 2 .bid 105 3, .add 3 .bid 105 4] =
      .ok (replies, b) ∧
    b.apply (.execute 1 2) = .ok (r, b') ∧ b.snapshot = .ok v ∧ b'.snapshot = .ok v' ∧
    b.queueAhead 3 = .ok (some n) ∧ b'.queueAhead 3 = .ok (some k) ∧
    k + removedAhead (.execute 1 2) r v v' 3 = n ∧
    removedAhead (.execute 1 2) r v v' 3 = 2 := by
  obtain ⟨⟨ab, replies, b, r, b', v, v'⟩, hrun, hgood⟩ := ok_of_any (x := executeInFront)
    (f := fun p => decide (Live p.2.2.2.2.2.1 3 ∧ Live p.2.2.2.2.2.2 3 ∧
      removedAhead (.execute 1 2) p.2.2.2.1 p.2.2.2.2.2.1 p.2.2.2.2.2.2 3 = 2)) (by decide +kernel)
  obtain ⟨ab₁, hnew, hrun⟩ := bind_eq_ok.mp hrun
  obtain ⟨⟨replies₁, b₁⟩, hops, hrun⟩ := bind_eq_ok.mp hrun
  obtain ⟨⟨r₁, b₁'⟩, hstep, hrun⟩ := bind_eq_ok.mp hrun
  obtain ⟨v₁, hv, hrun⟩ := bind_eq_ok.mp hrun
  obtain ⟨v₁', hv', hrun⟩ := bind_eq_ok.mp hrun
  cases hrun
  obtain ⟨hlive, hlive', hremoved⟩ := of_decide_eq_true hgood
  have hfresh : Fresh (.array ab) := .array (by constructor <;> decide) hnew
  obtain ⟨w, hw, hlaw, -⟩ := queue_position_law ⟨_, _, _, hfresh, hops⟩
  obtain ⟨w', hw', hlaw⟩ := hlaw _ _ _ hstep
  obtain rfl := Except.ok.inj (hw.symm.trans hv)
  obtain rfl := Except.ok.inj (hw'.symm.trans hv')
  obtain ⟨n, k, hn, hk, hsum⟩ := hlaw 3 hlive hlive'
  exact ⟨ab, replies, b, r, b', _, _, n, k, hnew, hops, hstep, hv, hv', hn, hk, hsum, hremoved⟩

end Lobcore.QueuePositions
