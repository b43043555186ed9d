import Lobcore.ArrayEffects
import Lobcore.RealOffsets
import Lobcore.SlabMarks

/-!
The window counters of an array book, said of whole runs. Only a call that puts an order at a
price moves them: the hits count the accepted prices off the window, the largest offset is that
of an accepted price, and a level outside the array stands at a price that was counted.
-/
namespace Lobcore.OverflowCounts

open Checked OrderTypes SortedMaps OrderSlab PriceLevels Markets ArrayBooks ArrayEffects BookRuns
open OffsetCounters QueuePositions RealOffsets SlabMarks

/-- The price at which a call put an order; a refused call puts none. -/
def putAt (op : Op) : Reply → Option ℤ
  | .ok _ => placedAt op
  | .error _ => none

/-- The prices at which the calls of a run put orders, in turn. -/
def putPrices (ops : List Op) (replies : List Reply) : List ℤ :=
  (ops.zip replies).filterMap fun p => putAt p.1 p.2

/-- The price is that of no level of the window. -/
def OffWindow (w : BookConfig) (px : ℤ) : Prop :=
  ∀ i : ℕ, i < w.nLevels → px ≠ w.basePx + i * w.tick

instance decidableOffWindow (w : BookConfig) (px : ℤ) : Decidable (OffWindow w px) :=
  inferInstanceAs (Decidable (∀ i : ℕ, i < w.nLevels → px ≠ w.basePx + i * w.tick))

theorem putPrices_cons (op : Op) (ops : List Op) (r : Reply) (replies : List Reply) :
    putPrices (op :: ops) (r :: replies) = (putAt op r).toList ++ putPrices ops replies := by
  unfold putPrices
  rw [List.zip_cons_cons, List.filterMap_cons]
  cases putAt op r <;> rfl

/-! Prices off the window. -/

/-- The grid sends a price to the overflow map when no level has it. -/
theorem locate_overflow_iff {b : ArrayBook} (hg : b.grid.WF) (px : ℤ) :
    b.grid.locate px = .overflow px ↔ OffWindow b.config px := by
  constructor
  · rintro hloc i hi rfl
    have hin := hg.locate_price hi
    rw [Grid.price] at hin
    cases hin.symm.trans hloc
  · intro hoff
    cases hloc : b.grid.locate px with
    | inRange i =>
      obtain ⟨hi, hpx⟩ := hg.of_locate_inRange hloc
      exact absurd hpx (hoff i hi)
    | overflow p => rw [Grid.of_locate_overflow hloc]

theorem hits_noteAdd {b : ArrayBook} (hg : b.grid.WF) (sl : SideLevels) (px : ℤ) :
    (sl.noteAdd b.grid (b.grid.locate px) px).overflowHits =
      sl.overflowHits + if OffWindow b.config px then 1 else 0 := by
  cases hloc : b.grid.locate px with
  | inRange i =>
    have hin : ¬ OffWindow b.config px := fun hoff => by
      cases ((locate_overflow_iff hg px).mpr hoff).symm.trans hloc
    rw [if_neg hin]
    rfl
  | overflow p =>
    obtain rfl := Grid.of_locate_overflow hloc
    rw [if_pos ((locate_overflow_iff hg p).mp hloc)]
    rfl

/-! Both sides. -/

section Calls

variable {b b' : ArrayBook} {m : Market}

/-- The counters after a call that put an order at a price, or at none: a price off the window
is one hit more, and the largest offset is raised to that of the price. -/
structure Counted (b : ArrayBook) (put : Option ℤ) (b' : ArrayBook) : Prop where
  hits : b'.overflowHits =
    b.overflowHits + put.toList.countP fun px => decide (OffWindow b.config px)
  still : put = none → b'.maxAbsOffset = b.maxAbsOffset
  reach : ∀ px, put = some px → b'.maxAbsOffset = max b.maxAbsOffset (ticks b.config px)

/-- A side written back with its counters. -/
theorem counted_none {s : Side} {sl : SideLevels} (slab : Slab) (ids : IdMap)
    (h : counters sl = counters (b.side s)) : Counted b none (b.withParts s sl slab ids) := by
  have hhits := hits_eq h
  have hmax := offset_eq h
  refine ⟨?_, fun _ => ?_, fun px hpx => by cases hpx⟩
  · cases s <;> simp_all only [ArrayBook.side, ArrayBook.withParts, ArrayBook.withSide,
      ArrayBook.overflowHits] <;> rfl
  · cases s <;> simp_all only [ArrayBook.side, ArrayBook.withParts, ArrayBook.withSide,
      ArrayBook.maxAbsOffset]

/-- A side written back with the counters of `noteAdd`. -/
theorem counted_some (hg : b.grid.WF) {s : Side} {sl : SideLevels} {px : ℤ} (slab : Slab)
    (ids : IdMap) (h : counters sl = counters ((b.side s).noteAdd b.grid (b.grid.locate px) px)) :
    Counted b (some px) (b.withParts s sl slab ids) := by
  have hhits := hits_eq h
  have hmax := offset_eq h
  rw [hits_noteAdd hg] at hhits
  rw [offset_noteAdd, ← ticks_config] at hmax
  refine ⟨?_, fun h => absurd h (Option.some_ne_none px), fun p hp => ?_⟩
  · rw [Option.toList_some, List.countP_singleton]
    simp only [decide_eq_true_eq]
    cases s <;> simp only [ArrayBook.side, ArrayBook.withParts, ArrayBook.withSide,
      ArrayBook.overflowHits] at hhits ⊢ <;> omega
  · obtain rfl := Option.some.inj hp
    cases s <;> simp only [ArrayBook.side, ArrayBook.withParts, ArrayBook.withSide,
      ArrayBook.maxAbsOffset] at hmax ⊢ <;> omega

/-- One call counts the price at which it put an order. -/
theorem counted_step (h : b.Refines m) {op : Op} {r : Reply} (hstep : b.apply op = .ok (r, b')) :
    Counted b (putAt op r) b' := by
  obtain ⟨line, free, hrep⟩ := h
  cases apply_effect hstep with
  | refused e => exact ⟨rfl, fun _ => rfl, fun px hpx => by cases hpx⟩
  | added halloc hlink =>
    exact counted_some hrep.grid _ _ (counters_linkTail hlink)
  | unlinked hplaced hunlink =>
    rw [putAt, hplaced]
    exact counted_none _ _ (counters_unlink hunlink)
  | reduced hplaced hreduce =>
    rw [putAt, hplaced]
    exact counted_none _ _ (counters_reduce hreduce)
  | replaced hunlink halloc hlink =>
    exact counted_some hrep.grid _ _ ((counters_linkTail hlink).trans (counters_unlink hunlink))

/-! Runs. -/

theorem config_step {op : Op} {r : Reply} (hstep : b.apply op = .ok (r, b')) :
    b'.config = b.config := ArrayWindows.config_of_grid (ArrayWindows.onGrid_apply b op _ hstep)

/-- The counters after a run. -/
theorem counters_run (h : b.Refines m) {ops : List Op} {out : List Reply}
    (hrun : run ArrayBook.apply b ops = .ok (out, b')) :
    b'.overflowHits =
        b.overflowHits + (putPrices ops out).countP (fun px => decide (OffWindow b.config px)) ∧
      IsGreatest (insert b.maxAbsOffset (Set.image (ticks b.config) {px | px ∈ putPrices ops out}))
        b'.maxAbsOffset := by
  induction ops generalizing b m out with
  | nil =>
    obtain ⟨rfl, rfl⟩ := Prod.mk.inj (Except.ok.inj hrun)
    refine ⟨rfl, Set.mem_insert .., ?_⟩
    rintro z (rfl | ⟨px, hpx, rfl⟩)
    · exact le_refl _
    · cases hpx
  | cons op ops ih =>
    obtain ⟨r, rs, b₁, hstep, hrest, rfl⟩ := run_cons_eq_ok.mp hrun
    obtain ⟨hhits, hstill, hreach⟩ := counted_step h hstep
    obtain ⟨-, h₁⟩ := (h.apply_returns (Q := False) op False.elim).of_run hstep
    obtain ⟨hhits', hmem, hbound⟩ := ih h₁ hrest
    rw [config_step hstep] at hhits' hmem hbound
    rw [putPrices_cons]
    refine ⟨?_, ?_⟩
    · rw [hhits', hhits, List.countP_append]
      omega
    · cases hput : putAt op r with
      | none =>
        rw [hstill hput] at hmem hbound
        exact ⟨hmem, hbound⟩
      | some px =>
        rw [hreach px hput] at hmem hbound
        constructor
        · rcases hmem with heq | ⟨p, hp, heq⟩
          · rcases max_choice b.maxAbsOffset (ticks b.config px) with hmax | hmax
            · exact Or.inl (heq.trans hmax)
            · exact Or.inr ⟨px, List.mem_cons_self .., (heq.trans hmax).symm⟩
          · exact Or.inr ⟨p, List.mem_cons_of_mem _ hp, heq⟩
        · have hstart := hbound (Set.mem_insert ..)
          rintro z (rfl | ⟨p, hp, rfl⟩)
          · exact (le_max_left _ _).trans hstart
          · rcases List.mem_cons.mp hp with rfl | hp
            · exact (le_max_right _ _).trans hstart
            · exact hbound (Or.inr ⟨p, hp, rfl⟩)

end Calls

/-! Levels off the window. -/

theorem rests_of_take {m : Market} {id : OrderId} {s s' : Side} {px px' : ℤ} {rest : ℕ}
    (h : (m.take id s px rest).queue s' px' ≠ []) : m.queue s' px' ≠ [] := by
  intro hnil
  refine h ?_
  show m.setQueue s px _ s' px' = []
  unfold Market.setQueue
  split_ifs with heq
  · obtain ⟨rfl, rfl⟩ := heq
    rw [hnil]
    rfl
  · exact hnil

theorem rests_of_push {m : Market} {id : OrderId} {s s' : Side} {px px' : ℤ} {qty : ℕ}
    (h : (m.push id s px qty).queue s' px' ≠ []) : px = px' ∨ m.queue s' px' ≠ [] := by
  by_cases hpx : px = px'
  · exact Or.inl hpx
  · refine Or.inr ?_
    rwa [show (m.push id s px qty).queue s' px' = m.queue s' px' from
      Market.setQueue_of_ne m _ fun heq => hpx heq.2.symm] at h

/-- After one call an order rests only at the price that was put, or where one did before. -/
theorem rests_step {m : Market} (hm : m.WF) (op : Op) {s : Side} {px : ℤ}
    (hrest : (m.apply op).2.queue s px ≠ []) :
    putAt op (m.apply op).1 = some px ∨ m.queue s px ≠ [] := by
  cases hreply : (m.apply op).1 with
  | error e =>
    rw [Market.apply_error hreply] at hrest
    exact Or.inr hrest
  | ok ev =>
    cases op with
    | add id s' px' qty =>
      obtain ⟨-, hpush⟩ := accepted_add hreply
      rw [Market.apply, hpush] at hrest
      exact (rests_of_push hrest).imp_left (congrArg some)
    | cancel id qty =>
      simp only [Market.apply, Market.cancel] at hreply hrest
      split at hrest
      · exact Or.inr hrest
      · split_ifs at hrest
        · exact Or.inr hrest
        · exact Or.inr (rests_of_take hrest)
    | execute id qty =>
      simp only [Market.apply, Market.execute] at hreply hrest
      split at hrest
      · exact Or.inr hrest
      · split_ifs at hrest
        · exact Or.inr hrest
        · exact Or.inr hrest
        · exact Or.inr (rests_of_take hrest)
    | delete id =>
      simp only [Market.apply, Market.delete] at hreply hrest
      split at hrest
      · exact Or.inr hrest
      · exact Or.inr (rests_of_take hrest)
    | replace old new px' qty =>
      obtain ⟨s', oldPx, n, -, -, ⟨ev', hadd⟩, hsame⟩ := Replacements.accepted_replace hm hreply
      obtain ⟨-, hpush⟩ := accepted_add hadd
      rw [hsame, Market.apply, hpush] at hrest
      exact (rests_of_push hrest).imp (congrArg some) rests_of_take

/-- A price at which an order rests was put by a call of the run, or rested at its start. -/
theorem rests_run {m : Market} (hm : m.WF) (ops : List Op) {s : Side} {px : ℤ}
    (hrest : (m.applyAll ops).2.queue s px ≠ []) :
    px ∈ putPrices ops (m.applyAll ops).1 ∨ m.queue s px ≠ [] := by
  induction ops generalizing m with
  | nil => exact Or.inr hrest
  | cons op ops ih =>
    rw [Market.applyAll, putPrices_cons]
    rcases ih (hm.apply op) hrest with hput | hrest
    · exact Or.inl (List.mem_append_right _ hput)
    · refine (rests_step hm op hrest).imp_left fun hput => List.mem_append_left _ ?_
      exact Option.mem_toList.mpr hput

/-- Prices of the overflow levels of a side, ascending. -/
def overflowPrices (b : ArrayBook) (s : Side) : List ℤ := (b.side s).overflow.keys

/-- The overflow map has a level exactly where orders rest off the window. -/
theorem mem_overflowPrices_iff {b : ArrayBook} {m : Market} (h : b.Refines m) (s : Side) (px : ℤ) :
    px ∈ overflowPrices b s ↔ OffWindow b.config px ∧ m.queue s px ≠ [] := by
  obtain ⟨line, free, hrep⟩ := h
  rw [overflowPrices, SortedMap.mem_keys, ← locate_overflow_iff hrep.grid]
  constructor
  · rintro ⟨l, hget⟩
    obtain ⟨hcount, -, hloc⟩ := (hrep.side_wf s).overflow_entry px l hget
    refine ⟨hloc, fun hnil => ?_⟩
    have hlevel := hrep.level_eq s px
    rw [hloc, SideLevels.levelAt, SideLevels.at?, hget, Option.getD_some] at hlevel
    have hlen : l.count = (m.queue s px).length := by rw [hlevel, ← hrep.line_length]; rfl
    rw [hlen, hnil] at hcount
    exact absurd hcount (Nat.lt_irrefl 0)
  · rintro ⟨hloc, hrest⟩
    have hcount : 0 < (line s px).length := by
      rw [hrep.line_length]
      exact List.length_pos_iff.mpr hrest
    have hat := hrep.at?_eq hcount
    rw [hloc, SideLevels.at?] at hat
    exact ⟨_, hat⟩

theorem counters_new {cfg : BookConfig} {b : ArrayBook} (hnew : ArrayBook.new cfg = .ok b) :
    b.overflowHits = 0 ∧ b.maxAbsOffset = 0 := by
  have hside : ∀ {s : Side} {sl : SideLevels}, SideLevels.new s cfg.nLevels = .ok sl →
      sl.overflowHits = 0 ∧ sl.maxAbsOffset = 0 := by
    intro s sl hsl
    obtain ⟨bitmap, -, hsl⟩ := bind_eq_ok.mp hsl
    exact Except.ok.inj hsl ▸ ⟨rfl, rfl⟩
  obtain ⟨-, -, hnew⟩ := bind_eq_ok.mp hnew
  obtain ⟨-, -, hnew⟩ := bind_eq_ok.mp hnew
  obtain ⟨-, -, hnew⟩ := bind_eq_ok.mp hnew
  obtain ⟨-, -, hnew⟩ := bind_eq_ok.mp hnew
  obtain ⟨bids, hbids, hnew⟩ := bind_eq_ok.mp hnew
  obtain ⟨asks, hasks, hnew⟩ := bind_eq_ok.mp hnew
  obtain rfl := Except.ok.inj hnew
  obtain ⟨hbh, hbm⟩ := hside hbids
  obtain ⟨hah, ham⟩ := hside hasks
  simp only [ArrayBook.overflowHits, ArrayBook.maxAbsOffset, hbh, hbm, hah, ham, max_self,
    Nat.add_zero, and_self]

/-- From an empty book: the hits of both sides are the accepted prices off the window, the
largest offset is that of an accepted price (or zero), and the overflow map of a side has, in
ascending order, the prices off the window where orders rest; each of them was hit. -/
theorem window_counters_exact {cfg : BookConfig} (hcfg : ValidConfig cfg) {b₀ b : ArrayBook}
    (hopen : Opened cfg b₀) {ops : List Op} {out : List Reply}
    (hrun : run ArrayBook.apply b₀ ops = .ok (out, b)) : ∃ v, b.snapshot = .ok v ∧
    b.overflowHits = (putPrices ops out).countP (fun px => decide (OffWindow cfg px)) ∧
    IsGreatest (insert 0 (Set.image (ticks cfg) {px | px ∈ putPrices ops out})) b.maxAbsOffset ∧
    ∀ s, (overflowPrices b s).Pairwise (· < ·) ∧
      ∀ px, (px ∈ overflowPrices b s ↔ OffWindow cfg px ∧ queueAt v s px ≠ []) ∧
        (px ∈ overflowPrices b s → px ∈ putPrices ops out) := by
  obtain ⟨b₁, hnew, href, hconfig, -⟩ := ArrayBook.new_spec hcfg
  obtain rfl := Except.ok.inj (hnew.symm.trans hopen.new)
  obtain ⟨hhits, hmax⟩ := counters_run href hrun
  obtain ⟨rfl, hfollow⟩ := refines_of_run href hrun
  obtain ⟨hhits₀, hmax₀⟩ := counters_new hnew
  rw [hconfig, hhits₀, Nat.zero_add] at hhits
  rw [hconfig, hmax₀] at hmax
  have hwindow : b.config = cfg := run_invariant (P := fun b => b.config = cfg)
    (fun _ _ _ _ hb hstep => (config_step hstep).trans hb) hconfig hrun
  refine ⟨_, hfollow.snapshot_eq, hhits, hmax, fun s => ⟨SortedMap.keys_pairwise _, fun px => ?_⟩⟩
  have hmem := mem_overflowPrices_iff hfollow s px
  rw [hwindow] at hmem
  rw [queueAt_eq (Market.wf_empty.applyAll ops)]
  refine ⟨hmem, fun hin => ?_⟩
  obtain ⟨-, hrests⟩ := hmem.mp hin
  exact (rests_run Market.wf_empty ops hrests).resolve_right fun hne => hne rfl

/-- Prices on the window, above and below it and between two of its levels; one call is refused. -/
def windowOps : List Op := [.add 1 .bid 105 5, .add 2 .ask 250 3, .replace 1 3 102 4,
  .add 3 .bid 90 1, .add 4 .bid 90 1]

def windowed : Exec (ArrayBook × List Reply × ArrayBook) := do
  let b₀ ← ArrayBook.new ⟨100, 4, 5⟩
  let p ← run ArrayBook.apply b₀ windowOps
  return (b₀, p.1, p.2)

theorem window_counters_exact_mixed : ∃ b₀ out b v, ArrayBook.new ⟨100, 4, 5⟩ = .ok b₀ ∧
    run ArrayBook.apply b₀ windowOps = .ok (out, b) ∧ b.snapshot = .ok v ∧
    putPrices windowOps out = [105, 250, 102, 90] ∧ b.overflowHits = 3 ∧
    IsGreatest (insert 0 (Set.image (ticks ⟨100, 4, 5⟩) {px | px ∈ putPrices windowOps out}))
      b.maxAbsOffset ∧
    overflowPrices b .bid = [90, 102] ∧ queueAt v .bid 102 ≠ [] ∧ queueAt v .ask 250 ≠ [] := by
  obtain ⟨⟨b₀, out, b⟩, hrun, hgood⟩ := ok_of_any (x := windowed)
    (f := fun p => decide (putPrices windowOps p.2.1 = [105, 250, 102, 90] ∧
      overflowPrices p.2.2 .bid = [90, 102] ∧ overflowPrices p.2.2 .ask = [250]))
    (by decide +kernel)
  obtain ⟨b₁, hnew, hrun⟩ := bind_eq_ok.mp hrun
  obtain ⟨p, hops, hrun⟩ := bind_eq_ok.mp hrun
  simp only [pure_eq_ok, Except.ok.injEq, Prod.mk.injEq] at hrun
  obtain ⟨rfl, rfl, rfl⟩ := hrun
  obtain ⟨hput, hbids, hasks⟩ : putPrices windowOps p.1 = [105, 250, 102, 90] ∧
      overflowPrices p.2 .bid = [90, 102] ∧ overflowPrices p.2 .ask = [250] :=
    of_decide_eq_true hgood
  obtain ⟨v, hv, hhits, hmax, hlevels⟩ :=
    window_counters_exact (by constructor <;> decide) (.inl hnew) hops
  refine ⟨b₁, p.1, p.2, v, hnew, hops, hv, hput, ?_, hmax, hbids, ?_, ?_⟩
  · rw [hhits, hput]
    decide
  · exact (((hlevels .bid).2 102).1.mp (hbids ▸ by decide)).2
  · exact (((hlevels .ask).2 250).1.mp (hasks ▸ by decide)).2

end Lobcore.OverflowCounts
