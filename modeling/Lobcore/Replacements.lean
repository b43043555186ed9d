import Lobcore.QueuePositions

/-!
A replace is a delete followed by an add at the tail. The total the replace checks by hand is
the one the add finds after the delete, whether or not both prices name one level.
-/
namespace Lobcore.Replacements

open Checked OrderTypes OrderSlab Markets ReferenceBook ArrayBooks Sessions Migrations
open EventReplays QueuePositions

/-- The call returns and is accepted. -/
def Accepts (b : LocateBook) (op : Op) (b' : LocateBook) : Prop :=
  ∃ ev, b.apply op = .ok (.ok ev, b')

/-- Two books answer every question alike. -/
structure SameAnswers (b c : LocateBook) : Prop where
  snapshot : ∃ v, b.snapshot = .ok v ∧ c.snapshot = .ok v
  l1 : ∃ v, b.l1 = .ok v ∧ c.l1 = .ok v
  l2 : ∀ d, ∃ v, b.l2 d = .ok v ∧ c.l2 d = .ok v
  queueAhead : ∀ id, ∃ v, b.queueAhead id = .ok v ∧ c.queueAhead id = .ok v

theorem sameAnswers_of_refines {b c : LocateBook} {m : Market} (hb : b.Refines m)
    (hc : c.Refines m) : SameAnswers b c where
  snapshot := ⟨_, hb.snapshot_eq, hc.snapshot_eq⟩
  l1 := ⟨_, hb.l1_eq, hc.l1_eq⟩
  l2 d := ⟨_, hb.l2_eq d, hc.l2_eq d⟩
  queueAhead id := ⟨_, hb.queueAhead_eq id, hc.queueAhead_eq id⟩

section Markets

variable {m : Market} (hm : m.WF) {old new : OrderId} {s : Side} {oldPx : ℤ} {n : ℕ}

include hm

/-- On a market a replace is the add that follows the delete, but for its event. -/
theorem replace_eq (hfind : m.find old = some (s, oldPx, n)) (hnew : m.home new = none)
    (px : ℤ) (qty : ℕ) : m.replace old new px qty =
      match (m.take old s oldPx 0).add new s px qty with
      | (.ok _, m') => (.ok (.replace old new s px qty), m')
      | (.error e, _) => (.error e, m) := by
  have hnew' : (m.take old s oldPx 0).home new = none := by
    rw [Market.home_take_zero, hnew, ite_self]
  simp only [Market.replace, hfind, hnew, Option.isSome_none, Market.add,
    hm.total_take_replace hfind, hnew', Bool.false_eq_true, if_false]
  by_cases hzero : qty = 0
  · simp only [if_pos hzero]
  by_cases hneg : px ≤ 0
  · simp only [if_neg hzero, if_pos hneg]
  by_cases hover : 2 ^ 32 ≤ total (m.queue s px) - (if px = oldPx then n else 0) + qty
  · simp only [if_neg hzero, if_neg hneg, if_pos hover]
  · simp only [if_neg hzero, if_neg hneg, if_neg hover]

omit hm in
theorem live_pos (hfind : m.find old = some (s, oldPx, n)) : 0 < m.live := by
  have hmem : old ∈ {id | (m.home id).isSome} := by simp [(Market.find_eq_some.mp hfind).1]
  exact (Set.ncard_pos (Set.toFinite _)).mpr ⟨old, hmem⟩

/-- The level of a live order in a snapshot is where the market finds it. -/
theorem find_of_standing {q : Queue} (h : standing m.snapshot old = some (s, oldPx, q)) :
    ∃ n, m.find old = some (s, oldPx, n) := by
  rw [standing_eq hm] at h
  obtain ⟨⟨s', px'⟩, hhome, heq⟩ := Option.map_eq_some_iff.mp h
  obtain ⟨n, hn⟩ := remaining_isSome_iff.mpr ((hm.home_iff old s' px').mp hhome)
  rw [Prod.mk.injEq, Prod.mk.injEq] at heq
  rw [← heq.1, ← heq.2.1]
  exact ⟨n, Market.find_eq_some.mpr ⟨hhome, hn⟩⟩

/-- An accepted replace has an accepted add behind it, and leaves the same market. -/
theorem accepted_replace {px : Int32} {qty : UInt32} {ev : Event}
    (h : (m.apply (.replace old new px qty)).1 = .ok ev) : ∃ s oldPx n,
      m.find old = some (s, oldPx, n) ∧ m.home new = none ∧
      (∃ ev', ((m.take old s oldPx 0).apply (.add new s px qty)).1 = .ok ev') ∧
      (m.apply (.replace old new px qty)).2 =
        ((m.take old s oldPx 0).apply (.add new s px qty)).2 := by
  cases hfind : m.find old with
  | none => simp [Market.apply, Market.replace, hfind] at h
  | some p =>
    obtain ⟨s, oldPx, n⟩ := p
    cases hnew : m.home new with
    | some q => simp [Market.apply, Market.replace, hfind, hnew] at h
    | none =>
      refine ⟨s, oldPx, n, rfl, rfl, ?_⟩
      simp only [Market.apply, replace_eq hm hfind hnew] at h ⊢
      rcases hadd : (m.take old s oldPx 0).add new s px.toInt qty.toNat with ⟨e | ev', m'⟩
      · simp [hadd] at h
      · exact ⟨⟨ev', rfl⟩, rfl⟩

/-- An add accepted after the delete makes the replace accepted. -/
theorem replace_accepted {px : Int32} {qty : UInt32} {ev : Event}
    (hfind : m.find old = some (s, oldPx, n)) (hnew : m.home new = none)
    (h : ((m.take old s oldPx 0).apply (.add new s px qty)).1 = .ok ev) :
    ∃ ev', (m.apply (.replace old new px qty)).1 = .ok ev' := by
  simp only [Market.apply, replace_eq hm hfind hnew] at h ⊢
  rcases hadd : (m.take old s oldPx 0).add new s px.toInt qty.toNat with ⟨e | ev', m'⟩
  · simp [hadd] at h
  · exact ⟨_, rfl⟩

/-- A replace does not raise the number of live orders. -/
theorem live_replace_le (px : Int32) (qty : UInt32) :
    (m.apply (.replace old new px qty)).2.live ≤ m.live := by
  cases hr : (m.apply (.replace old new px qty)).1 with
  | error e => rw [Market.apply_error hr]
  | ok ev =>
    obtain ⟨s, oldPx, n, hfind, -, -, heq⟩ := accepted_replace hm hr
    have hle := (m.take old s oldPx 0).live_apply_le (.add new s px qty)
    have hpos := live_pos hfind
    rw [Market.live_take hfind, if_pos rfl] at hle
    rw [heq]
    omega

end Markets

/-! The books. -/

/-- A call that leaves room for every order returns. -/
theorem apply_answers {b : LocateBook} {m : Market} (h : b.Refines m) {op : Op}
    (hroom : ∀ ab, b = .array ab → (m.apply op).2.live ≤ nilSlot) : ∃ b',
      b.apply op = .ok ((m.apply op).1, b') ∧ b'.Refines (m.apply op).2 ∧
        ∀ ab, b' = .array ab → ∃ ab', b = .array ab' := by
  obtain ⟨⟨r, b'⟩, hb', rfl, h', hkind⟩ :=
    (h.apply_returns (Q := True) op fun _ => hroom).ok_of trivial
  exact ⟨b', hb', h', hkind⟩

theorem live_le {b : LocateBook} {m : Market} (h : b.Refines m) (ab : ArrayBook)
    (hab : b = .array ab) : m.live ≤ nilSlot := by
  subst hab
  exact ArrayBook.Refines.live_le h.shown

/-- A replace always returns. It is accepted exactly when the old id is live, the new one is not,
and the delete and the add that follows it would both be accepted; the book then answers every
question as it would after those two. -/
theorem replace_is_delete_then_add {b : LocateBook} (hb : Reached b) (old new : OrderId)
    (px : Int32) (qty : UInt32) : ∃ v, b.snapshot = .ok v ∧
      (∃ r b', b.apply (.replace old new px qty) = .ok (r, b')) ∧
      ((∃ b', Accepts b (.replace old new px qty) b') ↔
        ∃ s oldPx q, standing v old = some (s, oldPx, q) ∧ ¬ Live v new ∧
          ∃ b₁ b₂, Accepts b (.delete old) b₁ ∧ Accepts b₁ (.add new s px qty) b₂) ∧
      ∀ b' s oldPx q b₁ b₂, Accepts b (.replace old new px qty) b' →
        standing v old = some (s, oldPx, q) → Accepts b (.delete old) b₁ →
        Accepts b₁ (.add new s px qty) b₂ → SameAnswers b' b₂ := by
  obtain ⟨m, hbm⟩ := hb.refines
  have hm := hbm.wf
  -- What the delete leaves, once the old order is found.
  have hdelete : ∀ {s oldPx n}, m.find old = some (s, oldPx, n) →
      m.apply (.delete old) = (.ok (.delete old s oldPx n), m.take old s oldPx 0) := by
    intro s oldPx n hfind
    simp only [Market.apply, Market.delete, hfind]
  have hstand : ∀ {s oldPx n}, m.find old = some (s, oldPx, n) →
      standing m.snapshot old = some (s, oldPx, m.queue s oldPx) := by
    intro s oldPx n hfind
    rw [standing_eq hm, (Market.find_eq_some.mp hfind).1]
    rfl
  obtain ⟨b', hreplace, hbm', -⟩ := @apply_answers b m hbm (.replace old new px qty)
    fun ab hab => (live_replace_le hm px qty).trans (live_le hbm ab hab)
  refine ⟨_, hbm.snapshot_eq, ⟨_, b', hreplace⟩, ⟨?_, ?_⟩, ?_⟩
  · intro haccept
    obtain ⟨c, ev, hc⟩ := haccept
    obtain ⟨hr, -⟩ := refines_of_apply hbm hc
    obtain ⟨s, oldPx, n, hfind, hnew, ⟨ev', hadd⟩, -⟩ := accepted_replace hm hr.symm
    refine ⟨s, oldPx, _, hstand hfind, by simp [live_iff hm, hnew], ?_⟩
    have hless := m.live_take hfind 0
    obtain ⟨b₁, hb₁, hbm₁, hkind⟩ := @apply_answers b m hbm (.delete old) fun ab hab => by
      have hfull := live_le hbm ab hab
      rw [hdelete hfind, hless, if_pos rfl]
      omega
    simp only [hdelete hfind] at hb₁ hbm₁
    obtain ⟨b₂, hb₂, -, -⟩ := @apply_answers b₁ _ hbm₁ (.add new s px qty) fun ab hab => by
      obtain ⟨ab', hab'⟩ := hkind ab hab
      have hfull := live_le hbm ab' hab'
      have hpos := live_pos hfind
      have hle := (m.take old s oldPx 0).live_apply_le (.add new s px qty)
      rw [hless, if_pos rfl] at hle
      omega
    exact ⟨b₁, b₂, ⟨_, hb₁⟩, ev', by rw [hb₂, hadd]⟩
  · intro hsteps
    obtain ⟨s, oldPx, q, hold, hnew, b₁, b₂, ⟨ev₁, hb₁⟩, ev₂, hb₂⟩ := hsteps
    obtain ⟨n, hfind⟩ := find_of_standing hm hold
    have hnone : m.home new = none := by simpa [live_iff hm] using hnew
    obtain ⟨-, hbm₁⟩ := refines_of_apply hbm hb₁
    rw [hdelete hfind] at hbm₁
    obtain ⟨hr₂, -⟩ := refines_of_apply hbm₁ hb₂
    obtain ⟨ev, hev⟩ := replace_accepted hm hfind hnone hr₂.symm
    exact ⟨b', ev, by rw [hreplace, hev]⟩
  · intro c s oldPx q b₁ b₂ hc hold hb₁ hb₂
    obtain ⟨ev, hc⟩ := hc
    obtain ⟨ev₁, hb₁⟩ := hb₁
    obtain ⟨ev₂, hb₂⟩ := hb₂
    obtain ⟨hr, hbc⟩ := refines_of_apply hbm hc
    obtain ⟨s', oldPx', n, hfind, -, -, hmarket⟩ := accepted_replace hm hr.symm
    obtain ⟨n', hfind'⟩ := find_of_standing hm hold
    rw [hfind, Option.some.injEq, Prod.mk.injEq, Prod.mk.injEq] at hfind'
    obtain ⟨rfl, rfl, rfl⟩ := hfind'
    obtain ⟨-, hbm₁⟩ := refines_of_apply hbm hb₁
    rw [hdelete hfind] at hbm₁
    obtain ⟨-, hbm₂⟩ := refines_of_apply hbm₁ hb₂
    rw [hmarket] at hbc
    exact sameAnswers_of_refines hbc hbm₂

theorem replace_is_delete_then_add_same_level : ∃ replies b v,
    run LocateBook.apply (.ref .new) [.add 1 .bid 105 5, .add 2 .bid 105 3] = .ok (replies, b) ∧
    b.snapshot = .ok v ∧ ((∃ b', Accepts b (.replace 1 3 105 4) b') ↔
      ∃ s oldPx q, standing v 1 = some (s, oldPx, q) ∧ ¬ Live v 3 ∧
        ∃ b₁ b₂, Accepts b (.delete 1) b₁ ∧ Accepts b₁ (.add 3 s 105 4) b₂) := by
  obtain ⟨⟨replies, b⟩, hrun⟩ := ok_of_not_panics (x := run LocateBook.apply (.ref .new)
    [.add 1 .bid 105 5, .add 2 .bid 105 3]) (by decide +kernel)
  obtain ⟨v, hv, -, hiff, -⟩ := replace_is_delete_then_add ⟨_, _, _, .ref, hrun⟩ 1 3 105 4
  exact ⟨replies, b, v, hrun, hv, hiff⟩

end Lobcore.Replacements
