import Lobcore.OrderTables
import Lobcore.StateStreams

/-!
The read calls agree with each other. Whatever a book of either kind has been through, `l1`,
`l2`, `queue_ahead`, `live_orders` and the bytes of the state hash are all functions of its
snapshot, and the snapshot is tidy: prices in order of priority on each side, no empty level,
no order twice and none without shares.
-/
namespace Lobcore.ViewCoherence

open Checked OrderTypes Markets ArrayBooks Sessions Migrations EventReplays QueuePositions
open OrderTables StateStreams ReferenceBook

def topOf (v : Snapshot) : Option LevelView × Option LevelView :=
  ((levelsOf v .bid).head?.map Market.levelView, (levelsOf v .ask).head?.map Market.levelView)

def depthOf (v : Snapshot) (d : ℕ) : List LevelView × List LevelView :=
  (((levelsOf v .bid).take d).map Market.levelView, ((levelsOf v .ask).take d).map Market.levelView)

def aheadOf (v : Snapshot) (id : OrderId) : Option ℕ :=
  (standing v id).map fun e => ahead id e.2.2

def countOf (v : Snapshot) : ℕ := (v.map fun e => e.2.2.length).sum

def bytesOf (v : Snapshot) : List UInt8 := (ascending v).flatMap levelBytes

/-- What a snapshot never shows: levels out of order, empty or too large, an order twice, an
order without shares, a price that is not positive. -/
structure Tidy (v : Snapshot) : Prop where
  split : v = (levelsOf v .bid).map (fun e => (.bid, e)) ++ (levelsOf v .ask).map fun e => (.ask, e)
  bids : (levelsOf v .bid).Pairwise fun e f => f.1 < e.1
  asks : (levelsOf v .ask).Pairwise fun e f => e.1 < f.1
  level : ∀ e ∈ v, 0 < e.2.1 ∧ e.2.1 < 2 ^ 31 ∧ e.2.2 ≠ [] ∧ total e.2.2 < 2 ^ 32
  once : (v.flatMap fun e => ids e.2.2).Nodup
  filled : ∀ e ∈ v, ∀ o ∈ e.2.2, 0 < o.2

section Markets

variable {m : Market}

variable (hm : m.WF)

include hm

theorem countOf_snapshot : countOf m.snapshot = m.live := by
  rw [Market.live_eq_length (once_snapshot hm) fun id => ?_]
  · rw [List.length_flatMap, countOf]
    simp only [ids, List.length_map]
  · rw [List.mem_flatMap, ← live_iff hm, Live, standing, List.find?_isSome]
    simp only [decide_eq_true_eq]

theorem tidy_snapshot (hpriced : m.Priced) : Tidy m.snapshot where
  split := by rw [levelsOf_snapshot, levelsOf_snapshot]; rfl
  bids := by rw [levelsOf_snapshot]; exact (hm.isLevels .bid).sorted
  asks := by rw [levelsOf_snapshot]; exact (hm.isLevels .ask).sorted
  level e he := by
    obtain ⟨hqueue, hne⟩ := hm.mem_snapshot.mp he
    have hrest : m.queue e.1 e.2.1 ≠ [] := hqueue ▸ hne
    exact ⟨hpriced e.1 e.2.1 hrest, (hm.px_range e.1 e.2.1 hrest).2, hne,
      hqueue ▸ hm.total_lt e.1 e.2.1⟩
  once := once_snapshot hm
  filled e he o ho := by
    obtain ⟨hqueue, -⟩ := hm.mem_snapshot.mp he
    exact hm.qty_pos e.1 e.2.1 o (hqueue ▸ ho)

theorem aheadOf_snapshot (id : OrderId) : aheadOf m.snapshot id = m.queueAhead id := by
  rw [aheadOf, standing_eq hm]
  cases hhome : m.home id with
  | none =>
    rw [Market.queueAhead, hm.find_eq_none.mpr hhome]
    rfl
  | some p => rw [queueAhead_of_home hm hhome]; rfl

end Markets

/-- Every read call of a reached book is a function of its snapshot, and the snapshot is tidy. -/
theorem views_of_snapshot {b : LocateBook} (hb : Reached b) : ∃ v, b.snapshot = .ok v ∧ Tidy v ∧
    b.l1 = .ok (topOf v) ∧ (∀ d, b.l2 d = .ok (depthOf v d)) ∧
    (∀ id, b.queueAhead id = .ok (aheadOf v id)) ∧ b.liveOrders = countOf v ∧
    b.stateBytes = .ok (bytesOf v) := by
  obtain ⟨b₀, ops, replies, hfresh, hrun⟩ := hb
  obtain ⟨-, hb, -⟩ := follows_of_run hfresh.refines hrun
  have hm := Market.wf_empty.applyAll ops
  refine ⟨_, hb.snapshot_eq, ?_, ?_, fun d => ?_, fun id => ?_, ?_, ?_⟩
  · exact tidy_snapshot hm hb.priced
  · rw [hb.l1_eq, topOf, levelsOf_snapshot, levelsOf_snapshot]
    rfl
  · rw [hb.l2_eq, depthOf, levelsOf_snapshot, levelsOf_snapshot]
    rfl
  · rw [hb.queueAhead_eq, aheadOf_snapshot hm]
  · rw [hb.liveOrders_eq, countOf_snapshot hm]
  · rw [hb.stateBytes_eq, bytesOf, ascending_snapshot]
    rfl

theorem views_of_snapshot_filled : ∃ b₀ replies b v, ArrayBook.new ⟨100, 4, 5⟩ = .ok b₀ ∧
    run LocateBook.apply (.array b₀) mixedFills = .ok (replies, b) ∧ b.snapshot = .ok v ∧ Tidy v ∧
    b.l1 = .ok (topOf v) ∧ b.l2 3 = .ok (depthOf v 3) ∧ b.queueAhead 3 = .ok (aheadOf v 3) ∧
    b.liveOrders = countOf v ∧ b.stateBytes = .ok (bytesOf v) := by
  obtain ⟨⟨b₀, replies, b⟩, hrun⟩ := ok_of_not_panics (x := filled) (by decide +kernel)
  obtain ⟨ab, hnew, hrun⟩ := bind_eq_ok.mp hrun
  obtain ⟨p, hops, hrun⟩ := bind_eq_ok.mp hrun
  obtain ⟨v, hv, htidy, hl1, hl2, hahead, hlive, hbytes⟩ := views_of_snapshot
    ⟨.array ab, mixedFills, p.1, .array (by constructor <;> decide) hnew, hops⟩
  exact ⟨ab, p.1, p.2, v, hnew, hops, hv, htidy, hl1, hl2 3, hahead 3, hlive, hbytes⟩

end Lobcore.ViewCoherence
