import Lobcore.OverflowCounts

/-!
Time priority. An order arrives with the last accepted call that placed it, an add or the
replace that brought it in; cancels and executions of part of it do not touch its arrival. The
orders of every level stand in the order of their arrival, so what is ahead of an order is what
arrived at its level before it.
-/
namespace Lobcore.ArrivalOrders

open Checked OrderTypes Markets ArrayBooks Sessions Migrations EventReplays QueuePositions
open RealOffsets

/-- The order that a call placed; a refused call places none. -/
def places (op : Op) : Reply → Option OrderId
  | .error _ => none
  | .ok _ =>
    match op with
    | .add id .. => some id
    | .replace _ new .. => some new
    | _ => none

/-- How many calls were made up to the last one that placed the order, that one included. -/
def arrival (calls : List (Op × Reply)) (id : OrderId) : ℕ :=
  (calls.reverse.dropWhile fun c => decide (places c.1 c.2 ≠ some id)).length

theorem arrival_snoc (calls : List (Op × Reply)) (op : Op) (r : Reply) (id : OrderId) :
    arrival (calls ++ [(op, r)]) id =
      if places op r = some id then calls.length + 1 else arrival calls id := by
  unfold arrival
  rw [List.reverse_append, List.reverse_singleton, List.singleton_append, List.dropWhile_cons]
  by_cases hplace : places op r = some id
  · rw [if_neg (by simp [hplace]), if_pos hplace, List.length_cons, List.length_reverse]
  · rw [if_pos (by simp [hplace]), if_neg hplace]

theorem arrival_le (calls : List (Op × Reply)) (id : OrderId) :
    arrival calls id ≤ calls.length := by
  unfold arrival
  refine (List.dropWhile_sublist _).length_le.trans ?_
  rw [List.length_reverse]

/-- Every queue of the market stands in the order of a time. -/
def InTurn (m : Market) (time : OrderId → ℕ) : Prop :=
  ∀ s px, (ids (m.queue s px)).Pairwise fun i j => time i < time j

section Steps

variable {m : Market} {time time' : OrderId → ℕ}

/-- An order taken from, or taken away, leaves the others in turn. -/
theorem InTurn.take (h : InTurn m time) (id : OrderId) (s : Side) (px : ℤ) (rest : ℕ) :
    InTurn (m.take id s px rest) time := by
  intro s' px'
  by_cases hq : s' = s ∧ px' = px
  · obtain ⟨rfl, rfl⟩ := hq
    simp only [Market.take, Market.setQueue_self]
    exact (h s' px').sublist (Market.settle_sublist_ids id rest _)
  · simp only [Market.take, Market.setQueue_of_ne m _ hq]
    exact h s' px'

/-- An order that comes in later than all the others goes to the end. -/
theorem InTurn.push (h : InTurn m time) (hm : m.WF) {id : OrderId} (hnew : m.home id = none)
    (s : Side) (px : ℤ) (qty : ℕ) (hkeep : ∀ j, j ≠ id → time' j = time j)
    (hlast : ∀ j, j ≠ id → time j < time' id) : InTurn (m.push id s px qty) time' := by
  have hold : ∀ s' px', ∀ j ∈ ids (m.queue s' px'), j ≠ id := by
    rintro s' px' j hj rfl
    rw [(hm.home_iff j s' px').mpr hj] at hnew
    cases hnew
  have hturn : ∀ s' px', (ids (m.queue s' px')).Pairwise fun i j => time' i < time' j := by
    intro s' px'
    refine (h s' px').imp_of_mem fun hi hj hlt => ?_
    rw [hkeep _ (hold s' px' _ hi), hkeep _ (hold s' px' _ hj)]
    exact hlt
  intro s' px'
  by_cases hq : s' = s ∧ px' = px
  · obtain ⟨rfl, rfl⟩ := hq
    simp only [Market.push, Market.setQueue_self, ids_append, ids_cons, ids_nil]
    refine List.pairwise_append.mpr ⟨hturn s' px', List.pairwise_singleton _ _, fun i hi j hj => ?_⟩
    obtain rfl := List.mem_singleton.mp hj
    have hne := hold s' px' i hi
    rw [hkeep i hne]
    exact hlast i hne
  · simp only [Market.push, Market.setQueue_of_ne m _ hq]
    exact hturn s' px'

/-- One call keeps the queues in the order of arrival. -/
theorem inTurn_step {calls : List (Op × Reply)} (h : InTurn m (arrival calls)) (hm : m.WF)
    (op : Op) :
    InTurn (m.apply op).2 (arrival (calls ++ [(op, (m.apply op).1)])) := by
  have hplaced : ∀ {m₁ : Market} {id : OrderId} {s : Side} {px : ℤ} {qty : ℕ},
      places op (m.apply op).1 = some id → m₁.WF → InTurn m₁ (arrival calls) → m₁.home id = none →
      InTurn (m₁.push id s px qty) (arrival (calls ++ [(op, (m.apply op).1)])) := by
    intro m₁ id s px qty hplace hm₁ h₁ hnew
    refine h₁.push hm₁ hnew s px qty (fun j hj => ?_) fun j hj => ?_
    · rw [arrival_snoc, if_neg]
      rw [hplace]
      exact fun heq => hj (Option.some.inj heq).symm
    · rw [arrival_snoc, if_pos hplace]
      exact Nat.lt_succ_of_le (arrival_le calls j)
  have hunplaced : places op (m.apply op).1 = none →
      arrival (calls ++ [(op, (m.apply op).1)]) = arrival calls := by
    intro hnone
    funext id
    rw [arrival_snoc, hnone, if_neg (by simp)]
  cases hreply : (m.apply op).1 with
  | error e =>
    rw [hreply] at hunplaced
    rw [Market.apply_error hreply, hunplaced rfl]
    exact h
  | ok ev =>
    rw [hreply] at hplaced hunplaced
    have hleft : places op (.ok ev) = none → (∀ id s px qty, op ≠ .add id s px qty) →
        (∀ old new px qty, op ≠ .replace old new px qty) →
        InTurn (m.apply op).2 (arrival (calls ++ [(op, .ok ev)])) := by
      intro hnone hadd hreplace
      rw [hunplaced hnone]
      rcases target_cases m op with hsame | ⟨id, s, px, qty, hop, -⟩ |
        ⟨t, s, px, n, rest, -, -, -, htake⟩ | ⟨old, new, px, qty, s, oldPx, n, hop, -⟩
      · rw [hsame]
        exact h
      · exact absurd hop (hadd id s px qty)
      · rw [htake]
        exact h.take t s px rest
      · exact absurd hop (hreplace old new px qty)
    cases op with
    | add id s px qty =>
      obtain ⟨hnew, hpush⟩ := accepted_add hreply
      rw [Market.apply, hpush]
      exact hplaced rfl hm h hnew
    | replace old new px qty =>
      obtain ⟨s, oldPx, n, hfind, -, ⟨ev', hadd⟩, hsame⟩ := Replacements.accepted_replace hm hreply
      obtain ⟨hnew, hpush⟩ := accepted_add hadd
      rw [hsame, Market.apply, hpush]
      exact hplaced rfl (hm.take hfind (Nat.zero_le n)) (h.take old s oldPx 0) hnew
    | cancel id qty => exact hleft rfl (by simp) (by simp)
    | execute id qty => exact hleft rfl (by simp) (by simp)
    | delete id => exact hleft rfl (by simp) (by simp)

end Steps

/-- After any calls the queues stand in the order of arrival. -/
theorem inTurn_run {m : Market} {calls : List (Op × Reply)} (h : InTurn m (arrival calls))
    (hm : m.WF) (ops : List Op) :
    InTurn (m.applyAll ops).2 (arrival (calls ++ ops.zip (m.applyAll ops).1)) := by
  induction ops generalizing m calls with
  | nil =>
    rw [List.zip_nil_left, List.append_nil]
    exact h
  | cons op ops ih =>
    have hrest := ih (inTurn_step h hm op) (hm.apply op)
    rwa [List.append_assoc, List.singleton_append] at hrest

/-- In a queue in turn, what stands ahead of an order is what came earlier. -/
theorem ahead_inTurn {q : Queue} {time : OrderId → ℕ}
    (h : (ids q).Pairwise fun i j => time i < time j) {id : OrderId} (hid : id ∈ ids q) :
    ahead id q = total (q.filter fun e => decide (time e.1 < time id)) := by
  obtain ⟨xs, n, ys, rfl, hxs⟩ := exists_split hid
  rw [ids_append, ids_cons, List.pairwise_append] at h
  obtain ⟨-, hlater, hcross⟩ := h
  have hearly : xs.filter (fun e => decide (time e.1 < time id)) = xs :=
    List.filter_eq_self.mpr fun e he => decide_eq_true
      (hcross e.1 (List.mem_map_of_mem he) id (List.mem_cons_self ..))
  have hlate : ys.filter (fun e => decide (time e.1 < time id)) = [] := by
    refine List.filter_eq_nil_iff.mpr fun e he hlt => ?_
    have hafter : time id < time e.1 :=
      (List.pairwise_cons.mp hlater).1 e.1 (List.mem_map_of_mem he)
    exact absurd (of_decide_eq_true hlt) (Nat.lt_asymm hafter)
  rw [ahead_split hxs, List.filter_append, hearly, List.filter_cons_of_neg (by simp), hlate,
    List.append_nil]

/-- Every level of a book stands in the order of arrival, and `queue_ahead` of an order counts
the shares of its level that arrived before it. -/
theorem time_priority {b₀ b : LocateBook} (h₀ : Fresh b₀) {ops : List Op}
    {replies : List Reply} (hrun : run LocateBook.apply b₀ ops = .ok (replies, b)) :
    ∃ v, b.snapshot = .ok v ∧
      (∀ s px, (ids (queueAt v s px)).Pairwise fun i j =>
        arrival (ops.zip replies) i < arrival (ops.zip replies) j) ∧
      ∀ id s px q, standing v id = some (s, px, q) → b.queueAhead id = .ok (some (total
        (q.filter fun e =>
          decide (arrival (ops.zip replies) e.1 < arrival (ops.zip replies) id)))) := by
  obtain ⟨rfl, hb, -⟩ := follows_of_run h₀.refines hrun
  have hm := Market.wf_empty.applyAll ops
  have hnone : InTurn .empty (arrival []) := fun s px => List.Pairwise.nil
  have hturn := inTurn_run hnone Market.wf_empty ops
  rw [List.nil_append] at hturn
  refine ⟨_, hb.snapshot_eq, fun s px => ?_, fun id s px q hstand => ?_⟩
  · rw [queueAt_eq hm]
    exact hturn s px
  · rw [standing_eq hm] at hstand
    obtain ⟨⟨s', px'⟩, hhome, heq⟩ := Option.map_eq_some_iff.mp hstand
    obtain ⟨rfl, rfl, rfl⟩ : s' = s ∧ px' = px ∧ _ = q := by simpa using heq
    rw [hb.queueAhead_eq, queueAhead_of_home hm hhome]
    rw [ahead_inTurn (hturn s' px') ((hm.home_iff id s' px').mp hhome)]

/-- Three orders of one level; the first is replaced by one that goes to the end. -/
def turnOps : List Op := [.add 1 .bid 105 5, .add 2 .bid 105 3, .add 3 .bid 105 4, .execute 2 1,
  .replace 1 4 105 6]

def turned : Exec (ArrayBook × List Reply × LocateBook × Snapshot) := do
  let b₀ ← ArrayBook.new ⟨100, 4, 5⟩
  let p ← run LocateBook.apply (.array b₀) turnOps
  let v ← p.2.snapshot
  return (b₀, p.1, p.2, v)

theorem time_priority_turned : ∃ b₀ replies b, ArrayBook.new ⟨100, 4, 5⟩ = .ok b₀ ∧
    run LocateBook.apply (.array b₀) turnOps = .ok (replies, b) ∧
    b.snapshot = .ok [(.bid, 105, [(2, 2), (3, 4), (4, 6)])] ∧
    b.queueAhead 4 = .ok (some (total ([(2, 2), (3, 4), (4, 6)].filter fun e =>
      decide (arrival (turnOps.zip replies) e.1 < arrival (turnOps.zip replies) 4)))) := by
  obtain ⟨⟨b₀, replies, b, v⟩, hrun, hv⟩ := ok_of_any (x := turned)
    (f := fun p => decide (p.2.2.2 = [(Side.bid, 105, [(2, 2), (3, 4), (4, 6)])]))
    (by decide +kernel)
  obtain ⟨ab, hnew, hrun⟩ := bind_eq_ok.mp hrun
  obtain ⟨p, hops, hrun⟩ := bind_eq_ok.mp hrun
  obtain ⟨v', hsnap, hrun⟩ := bind_eq_ok.mp hrun
  simp only [pure_eq_ok, Except.ok.injEq, Prod.mk.injEq] at hrun
  obtain ⟨rfl, rfl, rfl, rfl⟩ := hrun
  obtain rfl : v' = [(.bid, 105, [(2, 2), (3, 4), (4, 6)])] := of_decide_eq_true hv
  obtain ⟨v, hv, -, hahead⟩ := time_priority (.array (by constructor <;> decide) hnew) hops
  obtain rfl := Except.ok.inj (hsnap.symm.trans hv)
  exact ⟨ab, p.1, p.2, hnew, hops, hsnap, hahead 4 .bid 105 _ (by decide)⟩

end Lobcore.ArrivalOrders
