import Lobcore.MarketViews
import Mathlib.Data.Finset.Sort

/-!
A snapshot is the whole market. Every well formed market has its levels as a list, since it
has no more prices than ids; so two markets with one snapshot are equal, and a call changes
the snapshot exactly when it is accepted.
-/
namespace Lobcore.Markets.Market

open OrderTypes SortedMaps

variable {m m' : Market}

/-- Every price in use is the home of an id. -/
theorem WF.finite_prices (hm : m.WF) (s : Side) : {px | m.queue s px ≠ []}.Finite := by
  have hsub : {px | m.queue s px ≠ []} ⊆
      (fun id => ((m.home id).map Prod.snd).getD 0) '' Set.univ := by
    intro px hpx
    obtain ⟨e, q, hq⟩ := List.exists_cons_of_ne_nil hpx
    have hhome : m.home e.1 = some (s, px) := (hm.home_iff e.1 s px).mpr (by rw [hq]; simp)
    refine ⟨e.1, Set.mem_univ _, ?_⟩
    simp only [hhome, Option.map_some, Option.getD_some]
  exact (Set.finite_univ.image _).subset hsub

/-- Finitely many prices in order of priority. -/
theorem exists_sorted (s : Side) {P : ℤ → Prop} (hfin : {px | P px}.Finite) :
    ∃ ps : List ℤ, ps.Pairwise (better s) ∧ ∀ px, px ∈ ps ↔ P px := by
  cases s with
  | bid =>
    refine ⟨hfin.toFinset.sort (· ≥ ·), (Finset.sortedGT_sort _).pairwise, fun px => ?_⟩
    rw [Finset.mem_sort, Set.Finite.mem_toFinset]
    rfl
  | ask =>
    refine ⟨hfin.toFinset.sort (· ≤ ·), (Finset.sortedLT_sort _).pairwise, fun px => ?_⟩
    rw [Finset.mem_sort, Set.Finite.mem_toFinset]
    rfl

/-- Every well formed market has the list of its levels. -/
theorem WF.isLevels (hm : m.WF) (s : Side) : m.IsLevels s (m.levels s) := by
  obtain ⟨ps, hsorted, hmem⟩ := exists_sorted s (hm.finite_prices s)
  have hlevels : m.IsLevels s (ps.map fun px => (px, m.queue s px)) := by
    refine ⟨List.pairwise_map.mpr hsorted, fun e => ?_⟩
    rw [List.mem_map]
    constructor
    · intro he
      obtain ⟨px, hpx, rfl⟩ := he
      exact ⟨rfl, (hmem px).mp hpx⟩
    · intro he
      exact ⟨e.1, (hmem e.1).mpr (he.1 ▸ he.2), Prod.ext rfl he.1⟩
  rw [levels_eq hlevels]
  exact hlevels

/-- The entries of a snapshot are the queues in use. -/
theorem WF.mem_snapshot (hm : m.WF) {s : Side} {px : ℤ} {q : Queue} :
    (s, px, q) ∈ m.snapshot ↔ m.queue s px = q ∧ q ≠ [] :=
  Market.mem_snapshot hm.isLevels

/-- A market can be read off its snapshot. -/
theorem WF.eq_of_snapshot (hm : m.WF) (hm' : m'.WF) (h : m.snapshot = m'.snapshot) : m = m' := by
  have hle : ∀ {m m' : Market}, m.WF → m'.WF → m.snapshot = m'.snapshot → ∀ s px,
      m.queue s px ≠ [] → m'.queue s px = m.queue s px := by
    intro m m' hm hm' h s px hne
    have hmem := hm.mem_snapshot.mpr ⟨rfl, hne⟩
    rw [h] at hmem
    exact (hm'.mem_snapshot.mp hmem).1
  have hqueue : m.queue = m'.queue := by
    funext s px
    by_cases hne : m.queue s px = []
    · by_cases hne' : m'.queue s px = []
      · rw [hne, hne']
      · exact hle hm' hm h.symm s px hne'
    · exact (hle hm hm' h s px hne).symm
  have hhome : m.home = m'.home := by
    funext id
    refine Option.ext fun p => ?_
    rw [hm.home_iff id p.1 p.2, hm'.home_iff id p.1 p.2, hqueue]
  obtain ⟨queue, home⟩ := m
  obtain ⟨queue', home'⟩ := m'
  rw [Market.mk.injEq]
  exact ⟨hqueue, hhome⟩

/-! An accepted call is not without effect. -/

theorem WF.push_ne (hm : m.WF) {m₀ : Market} {id : OrderId} (hid : m.home id = none) (s : Side)
    (px : ℤ) (qty : ℕ) : m₀.push id s px qty ≠ m := by
  intro h
  have hmem : id ∈ ids (m.queue s px) := by
    rw [← h]
    simp [Market.push, setQueue_self]
  rw [(hm.home_iff id s px).mpr hmem] at hid
  cases hid

theorem WF.take_ne (hm : m.WF) {id : OrderId} {s : Side} {px : ℤ} {n rest : ℕ}
    (h : m.find id = some (s, px, n)) (hrest : rest < n) : m.take id s px rest ≠ m := by
  intro heq
  obtain ⟨xs, ys, hq, hxs, -⟩ := hm.split h
  have htotal : total (settle id rest (m.queue s px)) = total (m.queue s px) := by
    have hqueue := congrArg (fun m => total (m.queue s px)) heq
    simpa only [Market.take, setQueue_self] using hqueue
  rw [hq, settle_split hxs] at htotal
  simp only [total_append, total_cons] at htotal
  split at htotal
  · omega
  · rw [total_cons] at htotal
    omega

theorem WF.apply_ne (hm : m.WF) {op : Op} {ev : Event} (h : (m.apply op).1 = .ok ev) :
    (m.apply op).2 ≠ m := by
  cases op with
  | add id s px qty =>
    simp only [Market.apply, Market.add] at h ⊢
    split_ifs at h ⊢ with _ _ _ hdup
    exact hm.push_ne (by simpa using hdup) s _ _
  | cancel id qty =>
    simp only [Market.apply, Market.cancel] at h ⊢
    cases hfind : m.find id with
    | none => simp [hfind] at h
    | some p =>
      simp only [hfind] at h ⊢
      split_ifs at h ⊢ with hzero
      have hpos := hm.held_pos hfind
      exact hm.take_ne hfind (by omega)
  | execute id qty =>
    simp only [Market.apply, Market.execute] at h ⊢
    cases hfind : m.find id with
    | none => simp [hfind] at h
    | some p =>
      simp only [hfind] at h ⊢
      split_ifs at h ⊢ with hzero hover
      exact hm.take_ne hfind (by omega)
  | delete id =>
    simp only [Market.apply, Market.delete] at h ⊢
    cases hfind : m.find id with
    | none => simp [hfind] at h
    | some p => exact hm.take_ne hfind (hm.held_pos hfind)
  | replace old new px qty =>
    simp only [Market.apply, Market.replace] at h ⊢
    cases hfind : m.find old with
    | none => simp [hfind] at h
    | some p =>
      obtain ⟨s, oldPx, held⟩ := p
      simp only [hfind] at h ⊢
      split_ifs at h ⊢ with hdup
      all_goals exact hm.push_ne (by simpa using hdup) s _ _

/-- The snapshot changes exactly when the call is accepted. -/
theorem WF.snapshot_apply_ne_iff (hm : m.WF) (op : Op) :
    (m.apply op).2.snapshot ≠ m.snapshot ↔ ∃ ev, (m.apply op).1 = .ok ev := by
  constructor
  · intro hne
    cases hr : (m.apply op).1 with
    | ok ev => exact ⟨ev, rfl⟩
    | error e =>
      rw [apply_error hr] at hne
      exact absurd rfl hne
  · intro hok heq
    obtain ⟨ev, hev⟩ := hok
    exact hm.apply_ne hev ((hm.apply op).eq_of_snapshot hm heq)

theorem snapshot_empty : empty.snapshot = [] := by
  refine List.eq_nil_iff_forall_not_mem.mpr fun e he => ?_
  obtain ⟨s, px, q⟩ := e
  obtain ⟨hq, hne⟩ := wf_empty.mem_snapshot.mp he
  exact hne hq.symm

end Lobcore.Markets.Market
