import Lobcore.Markets
import Mathlib.Data.Set.Card

/-!
Running a market and looking at it. Every call keeps a market well formed, a rejected
call leaves it alone, and the number of live orders follows the replies. The levels of
a side are the one list of its non-empty queues in order of priority; the top of book,
the depth, the snapshot and the hashed byte stream are all read off that list.
-/
namespace Lobcore.Markets

open OrderTypes SortedMaps

namespace Market

theorem WF.add {m : Market} (hm : m.WF) (id : OrderId) (s : Side) {px : ℤ} (qty : ℕ)
    (hpx : px < 2 ^ 31) : (m.add id s px qty).2.WF := by
  unfold Market.add
  split
  · exact hm
  · split
    · exact hm
    · split
      · exact hm
      · split
        · exact hm
        · refine hm.push (by simp_all) ?_ ?_ ?_ <;> omega

theorem WF.cancel {m : Market} (hm : m.WF) (id : OrderId) (qty : ℕ) :
    (m.cancel id qty).2.WF := by
  unfold Market.cancel
  split
  · exact hm
  · rename_i s px held h
    split
    · exact hm
    · exact hm.take h (Nat.sub_le _ _)

theorem WF.delete {m : Market} (hm : m.WF) (id : OrderId) : (m.delete id).2.WF := by
  unfold Market.delete
  split
  · exact hm
  · rename_i s px held h
    exact hm.take h (Nat.zero_le _)

theorem WF.execute {m : Market} (hm : m.WF) (id : OrderId) (qty : ℕ) :
    (m.execute id qty).2.WF := by
  unfold Market.execute
  split
  · exact hm
  · rename_i s px held h
    split
    · exact hm
    · split
      · exact hm
      · exact hm.take h (Nat.sub_le _ _)

/-- Removing an order takes exactly its quantity off its level. -/
theorem WF.total_take_zero {m : Market} (hm : m.WF) {id : OrderId} {s : Side} {px : ℤ} {n : ℕ}
    (h : m.find id = some (s, px, n)) :
    total ((m.take id s px 0).queue s px) = total (m.queue s px) - n := by
  obtain ⟨xs, ys, hq, hxs, -⟩ := hm.split h
  simp only [Market.take, setQueue_self]
  rw [hq, settle_split hxs]
  simp only [if_true, total_append, total_cons]
  omega

theorem WF.total_take_replace {m : Market} (hm : m.WF) {id : OrderId} {s : Side} {old px : ℤ}
    {n : ℕ} (h : m.find id = some (s, old, n)) :
    total ((m.take id s old 0).queue s px) =
      total (m.queue s px) - if px = old then n else 0 := by
  by_cases hp : px = old
  · subst hp
    simp [hm.total_take_zero h]
  · simp [Market.take, setQueue, hp]

theorem home_take_zero (m : Market) (id j : OrderId) (s : Side) (px : ℤ) :
    (m.take id s px 0).home j = if j = id then none else m.home j := by
  simp [take, Function.update_apply]

theorem WF.replace {m : Market} (hm : m.WF) (old new : OrderId) {px : ℤ} (qty : ℕ)
    (hpx : px < 2 ^ 31) : (m.replace old new px qty).2.WF := by
  unfold Market.replace
  split
  · exact hm
  · rename_i s oldPx held h
    split
    · exact hm
    · split
      · exact hm
      · split
        · exact hm
        · by_cases hroom : 2 ^ 32 ≤ total (m.queue s px) - (if px = oldPx then held else 0) + qty
          · rw [if_pos hroom]
            exact hm
          · rw [if_neg hroom]
            refine (hm.take h (Nat.zero_le _)).push ?_ ?_ ?_ ?_
            · rw [home_take_zero]
              simp_all
            · omega
            · omega
            · rw [hm.total_take_replace h]
              omega

/-- Every call keeps a market well formed. -/
theorem WF.apply {m : Market} (hm : m.WF) (op : Op) : (m.apply op).2.WF := by
  cases op with
  | add id s px qty => exact hm.add id s _ (int32_bounds px).2
  | cancel id qty => exact hm.cancel id _
  | execute id qty => exact hm.execute id _
  | delete id => exact hm.delete id
  | replace old new px qty => exact hm.replace old new _ (int32_bounds px).2

theorem applyAll_snoc (m : Market) (ops : List Op) (op : Op) :
    (m.applyAll (ops ++ [op])).2 = ((m.applyAll ops).2.apply op).2 := by
  induction ops generalizing m with
  | nil => rfl
  | cons op' ops ih => exact ih (m.apply op').2

theorem WF.applyAll {m : Market} (hm : m.WF) (ops : List Op) : (m.applyAll ops).2.WF := by
  induction ops generalizing m with
  | nil => exact hm
  | cons op ops ih => exact ih (hm.apply op)

/-- Every order has a positive price, as calls ask for. -/
def Priced (m : Market) : Prop := ∀ s px, m.queue s px ≠ [] → 0 < px

theorem priced_empty : empty.Priced := fun _ _ h => absurd rfl h

theorem Priced.push {m : Market} (hm : m.Priced) (id : OrderId) (s : Side) {px : ℤ} (qty : ℕ)
    (hpx : 0 < px) : (m.push id s px qty).Priced := by
  intro s' px' hne
  by_cases hq : s' = s ∧ px' = px
  · exact hq.2 ▸ hpx
  · exact hm s' px' (by simpa only [Market.push, setQueue_of_ne m _ hq] using hne)

theorem Priced.take {m : Market} (hm : m.Priced) (id : OrderId) (s : Side) (px : ℤ) (rest : ℕ) :
    (m.take id s px rest).Priced := by
  intro s' px' hne
  by_cases hq : s' = s ∧ px' = px
  · obtain ⟨rfl, rfl⟩ := hq
    refine hm s' px' fun hnil => hne ?_
    simp [Market.take, setQueue_self, hnil, settle]
  · exact hm s' px' (by simpa only [Market.take, setQueue_of_ne m _ hq] using hne)

theorem Priced.apply {m : Market} (hm : m.Priced) (op : Op) : (m.apply op).2.Priced := by
  cases op with
  | add id s px qty =>
    simp only [Market.apply, Market.add]
    split_ifs with _ hneg
    · exact hm
    · exact hm
    · exact hm
    · exact hm
    · exact hm.push id s _ (not_le.mp hneg)
  | cancel id qty =>
    simp only [Market.apply, Market.cancel]
    split
    · exact hm
    · split_ifs
      · exact hm
      · exact hm.take id _ _ _
  | execute id qty =>
    simp only [Market.apply, Market.execute]
    split
    · exact hm
    · split_ifs
      · exact hm
      · exact hm
      · exact hm.take id _ _ _
  | delete id =>
    simp only [Market.apply, Market.delete]
    split
    · exact hm
    · exact hm.take id _ _ _
  | replace old new px qty =>
    simp only [Market.apply, Market.replace]
    split
    · exact hm
    · by_cases hneg : px.toInt ≤ 0
      · split_ifs
        all_goals exact hm
      · split_ifs
        all_goals first | exact hm | exact (hm.take old _ _ _).push new _ _ (not_le.mp hneg)

/-- A rejected call changes nothing. -/
theorem apply_error {m : Market} {op : Op} {e : BookError} (h : (m.apply op).1 = .error e) :
    (m.apply op).2 = m := by
  cases op <;> simp only [Market.apply, Market.add, Market.cancel, Market.execute, Market.delete,
    Market.replace] at h ⊢ <;> grind

/-- The event of a call that leaves `rest` shares of an order. -/
def Leaves (rest : ℕ) (ev : Event) : Prop :=
  (ev.kind = .delete ∧ rest = 0) ∨ ((ev.kind = .cancel ∨ ev.kind = .exec) ∧ ev.b = .ofNat rest)

/-- Everything a call can do: nothing, one order more, one order less or smaller, or one
order for another. -/
theorem apply_cases (m : Market) (op : Op) :
    (∃ e, m.apply op = (.error e, m)) ∨
    (∃ id s px qty, m.home id = none ∧
      m.apply op = (.ok (.add id s px qty), m.push id s px qty)) ∨
    (∃ id s px n rest ev, m.find id = some (s, px, n) ∧ rest ≤ n ∧ Leaves rest ev ∧
      m.apply op = (.ok ev, m.take id s px rest)) ∨
    ∃ old new s oldPx n px qty, m.find old = some (s, oldPx, n) ∧
      (m.take old s oldPx 0).home new = none ∧
      m.apply op = (.ok (.replace old new s px qty), (m.take old s oldPx 0).push new s px qty) := by
  cases op with
  | add id s px qty =>
    simp only [Market.apply, Market.add]
    split_ifs with _ _ _ hdup
    · exact Or.inl ⟨_, rfl⟩
    · exact Or.inl ⟨_, rfl⟩
    · exact Or.inl ⟨_, rfl⟩
    · exact Or.inl ⟨_, rfl⟩
    · exact Or.inr (Or.inl ⟨id, s, _, _, by simpa using hdup, rfl⟩)
  | cancel id qty =>
    simp only [Market.apply, Market.cancel]
    cases hfind : m.find id with
    | none => exact Or.inl ⟨_, rfl⟩
    | some p =>
      simp only
      split_ifs
      · exact Or.inl ⟨_, rfl⟩
      · exact Or.inr (Or.inr (Or.inl ⟨id, _, _, _, _, _, hfind, Nat.sub_le _ _,
          Or.inr ⟨Or.inl rfl, rfl⟩, rfl⟩))
  | execute id qty =>
    simp only [Market.apply, Market.execute]
    cases hfind : m.find id with
    | none => exact Or.inl ⟨_, rfl⟩
    | some p =>
      simp only
      split_ifs
      · exact Or.inl ⟨_, rfl⟩
      · exact Or.inl ⟨_, rfl⟩
      · exact Or.inr (Or.inr (Or.inl ⟨id, _, _, _, _, _, hfind, Nat.sub_le _ _,
          Or.inr ⟨Or.inr rfl, rfl⟩, rfl⟩))
  | delete id =>
    simp only [Market.apply, Market.delete]
    cases hfind : m.find id with
    | none => exact Or.inl ⟨_, rfl⟩
    | some p =>
      exact Or.inr (Or.inr (Or.inl ⟨id, _, _, _, _, _, hfind, Nat.zero_le _,
        Or.inl ⟨rfl, rfl⟩, rfl⟩))
  | replace old new px qty =>
    simp only [Market.apply, Market.replace]
    cases hfind : m.find old with
    | none => exact Or.inl ⟨_, rfl⟩
    | some p =>
      have hgone : ¬ (m.home new).isSome → (m.take old p.1 p.2.1 0).home new = none := by
        intro hdup
        rw [home_take_zero]
        split
        · rfl
        · simpa using hdup
      simp only
      by_cases hdup : (m.home new).isSome
      · exact Or.inl ⟨_, if_pos hdup⟩
      rw [if_neg hdup]
      by_cases hzero : qty.toNat = 0
      · exact Or.inl ⟨_, if_pos hzero⟩
      rw [if_neg hzero]
      by_cases hneg : px.toInt ≤ 0
      · exact Or.inl ⟨_, if_pos hneg⟩
      rw [if_neg hneg]
      by_cases hover : 2 ^ 32 ≤ total (m.queue p.1 px.toInt) -
          (if px.toInt = p.2.1 then p.2.2 else 0) + qty.toNat
      · exact Or.inl ⟨_, if_pos hover⟩
      rw [if_neg hover]
      exact Or.inr (Or.inr (Or.inr ⟨old, new, p.1, p.2.1, p.2.2, _, _, hfind, hgone hdup, rfl⟩))

/-! The number of live orders. -/

instance : Finite UInt64 := Finite.of_injective UInt64.toFin fun _ _ h => UInt64.toFin_inj.mp h

noncomputable def live (m : Market) : ℕ := {id | (m.home id).isSome}.ncard

theorem live_eq_length {m : Market} {l : List OrderId} (hl : l.Nodup)
    (h : ∀ id, id ∈ l ↔ (m.home id).isSome) : m.live = l.length := by
  have hset : {id | (m.home id).isSome} = (l.toFinset : Set OrderId) := by
    ext id
    simp [h]
  rw [live, hset, Set.ncard_coe_finset, List.toFinset_card_of_nodup hl]

theorem live_push {m : Market} {id : OrderId} (hid : m.home id = none) (s : Side) (px : ℤ)
    (qty : ℕ) : (m.push id s px qty).live = m.live + 1 := by
  have hset : {j | ((m.push id s px qty).home j).isSome} = insert id {j | (m.home j).isSome} := by
    ext j
    by_cases hj : j = id <;> simp [push, hj]
  rw [live, hset, Set.ncard_insert_of_notMem (by simp [hid])]
  rfl

theorem live_take {m : Market} {id : OrderId} {s : Side} {px : ℤ} {n : ℕ}
    (hfind : m.find id = some (s, px, n)) (rest : ℕ) :
    (m.take id s px rest).live = if rest = 0 then m.live - 1 else m.live := by
  by_cases hrest : rest = 0
  · subst hrest
    have hset : {j | ((m.take id s px 0).home j).isSome} = {j | (m.home j).isSome} \ {id} := by
      ext j
      by_cases hj : j = id <;> simp [home_take_zero, hj]
    have hmem : id ∈ {j | (m.home j).isSome} := by simp [(find_eq_some.mp hfind).1]
    rw [if_pos rfl, live, hset, Set.ncard_sdiff_singleton_of_mem hmem]
    rfl
  · simp [live, take, hrest]

theorem live_empty : empty.live = 0 := by
  simp [live, empty]

/-- A call adds at most one live order. -/
theorem live_apply_le (m : Market) (op : Op) : (m.apply op).2.live ≤ m.live + 1 := by
  have htake : ∀ {id s px n} rest, m.find id = some (s, px, n) →
      (m.take id s px rest).live ≤ m.live := by
    intro id s px n rest hfind
    rw [live_take hfind]
    split <;> omega
  rcases m.apply_cases op with ⟨e, he⟩ | ⟨id, s, px, qty, hid, he⟩ |
    ⟨id, s, px, n, rest, ev, hfind, -, -, he⟩ | ⟨old, new, s, oldPx, n, px, qty, hfind, hgone, he⟩
  · rw [he]
    exact Nat.le_succ _
  · rw [he, live_push hid]
  · rw [he]
    exact (htake rest hfind).trans (Nat.le_succ _)
  · rw [he, live_push hgone]
    exact Nat.succ_le_succ (htake 0 hfind)

theorem live_applyAll_le (m : Market) (ops : List Op) :
    (m.applyAll ops).2.live ≤ m.live + ops.length := by
  induction ops generalizing m with
  | nil => exact le_rfl
  | cons op ops ih =>
    have hhead := m.live_apply_le op
    have hrest := ih (m.apply op).2
    simp only [applyAll, List.length_cons]
    omega

/-- The id map of a book counts the live orders of the market it describes. -/
theorem live_eq_map_length {ν : Type} {m : Market} (ids : SortedMap OrderId ν)
    (h : ∀ id, (∃ v, ids.get? id = some v) ↔ (m.home id).isSome) : m.live = ids.length := by
  rw [live_eq_length ids.keys_nodup fun id => SortedMap.mem_keys.trans (h id)]
  simp [SortedMap.keys, SortedMap.length]

/-! The levels of a side and what is read off them. -/

/-- The first price has priority over the second. -/
def better : Side → ℤ → ℤ → Prop
  | .bid, a, b => b < a
  | .ask, a, b => a < b

instance (s : Side) (a b : ℤ) : Decidable (better s a b) := by
  cases s <;> unfold better <;> infer_instance

theorem better_asymm (s : Side) (a b : ℤ) (h : better s a b) : ¬ better s b a := by
  cases s <;> simp only [better] at * <;> omega

structure IsLevels (m : Market) (s : Side) (levels : List (ℤ × Queue)) : Prop where
  sorted : levels.Pairwise fun a b => better s a.1 b.1
  mem_iff : ∀ e, e ∈ levels ↔ m.queue s e.1 = e.2 ∧ e.2 ≠ []

theorem IsLevels.unique {m : Market} {s : Side} {l l' : List (ℤ × Queue)}
    (h : m.IsLevels s l) (h' : m.IsLevels s l') : l = l' :=
  eq_of_pairwise_of_mem_iff (fun a b => better_asymm s a.1 b.1) h.sorted h'.sorted
    fun e => (h.mem_iff e).trans (h'.mem_iff e).symm

open Classical in
/-- The non-empty queues of a side, best price first. -/
noncomputable def levels (m : Market) (s : Side) : List (ℤ × Queue) :=
  if h : ∃ l, m.IsLevels s l then h.choose else []

theorem levels_eq {m : Market} {s : Side} {l : List (ℤ × Queue)} (h : m.IsLevels s l) :
    m.levels s = l := by
  have hex : ∃ l, m.IsLevels s l := ⟨l, h⟩
  rw [levels, dif_pos hex]
  exact hex.choose_spec.unique h

theorem queue_of_mem_levels {m : Market} {s : Side} {e : ℤ × Queue} (he : e ∈ m.levels s) :
    m.queue s e.1 = e.2 ∧ e.2 ≠ [] := by
  unfold levels at he
  split at he
  · rename_i h
    exact (h.choose_spec.mem_iff e).mp he
  · cases he

theorem exists_mem_levels {m : Market} {e : ℤ × Queue}
    (he : e ∈ (m.levels .bid).reverse ++ m.levels .ask) : ∃ s, e ∈ m.levels s := by
  rcases List.mem_append.mp he with he | he
  · exact ⟨.bid, List.mem_reverse.mp he⟩
  · exact ⟨.ask, he⟩

/-- The levels of a side are those of its queues. -/
theorem levels_congr {m m' : Market} {s : Side} (h : m'.queue s = m.queue s) :
    m'.levels s = m.levels s := by
  have hiff : ∀ l, m'.IsLevels s l ↔ m.IsLevels s l := fun l =>
    ⟨fun hl => ⟨hl.sorted, fun e => by rw [hl.mem_iff, h]⟩,
      fun hl => ⟨hl.sorted, fun e => by rw [hl.mem_iff, h]⟩⟩
  by_cases hex : ∃ l, m.IsLevels s l
  · obtain ⟨l, hl⟩ := hex
    rw [levels_eq hl, levels_eq ((hiff l).mpr hl)]
  · rw [levels, levels, dif_neg hex, dif_neg]
    exact fun hex' => hex (hex'.imp fun l => (hiff l).mp)

/-- Price, total quantity and number of orders of a level. -/
def levelView (e : ℤ × Queue) : LevelView := (e.1, total e.2, e.2.length)

noncomputable def l1 (m : Market) : Option LevelView × Option LevelView :=
  ((m.levels .bid).head?.map levelView, (m.levels .ask).head?.map levelView)

noncomputable def l2 (m : Market) (depth : ℕ) : List LevelView × List LevelView :=
  (((m.levels .bid).take depth).map levelView, ((m.levels .ask).take depth).map levelView)

noncomputable def snapshot (m : Market) : Snapshot :=
  (m.levels .bid).map (fun e => (.bid, e.1, e.2)) ++
    (m.levels .ask).map fun e => (.ask, e.1, e.2)

theorem mem_snapshot {m : Market} (hlevels : ∀ s, m.IsLevels s (m.levels s)) {s : Side} {px : ℤ}
    {q : Queue} : (s, px, q) ∈ m.snapshot ↔ m.queue s px = q ∧ q ≠ [] := by
  rw [← (hlevels s).mem_iff (px, q), snapshot, List.mem_append, List.mem_map, List.mem_map]
  cases s <;> simp

/-- The stream fed to the state hash: bids then asks, ascending price. -/
noncomputable def stateBytes (m : Market) : List UInt8 :=
  ((m.levels .bid).reverse ++ m.levels .ask).flatMap fun e => hashLevel e.1 e.2.length e.2

def queueAhead (m : Market) (id : OrderId) : Option ℕ :=
  (m.find id).map fun p => ahead id (m.queue p.1 p.2.1)

end Market

end Lobcore.Markets
