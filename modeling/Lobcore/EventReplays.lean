import Lobcore.Closings
import Lobcore.MarketViews
import Lobcore.SessionAccounts

/-!
The event log is enough to rebuild the book. Every event of an accepted call stands for a
call again, with what was removed in place of what was asked for; on the market before the
event that call has the same reply and the same effect. Since a rejected call does nothing, a
book that makes only the calls of the log keeps in step with the logged one.
-/
namespace Lobcore.EventReplays

open Checked OrderTypes OrderSlab Markets ReferenceBook ArrayBooks BookRuns Sessions Migrations
open SessionAccounts

/-- The call that an event stands for; a record of a rejected call stands for none. -/
def redo (ev : Event) : Option Op :=
  match ev.kind with
  | .add => (Side.fromCode ev.side).map fun s =>
    .add ev.a s (.ofInt ev.px.toInt) (.ofNat ev.qty.toNat)
  | .cancel => some (.cancel ev.a (.ofNat ev.qty.toNat))
  | .exec => some (.execute ev.a (.ofNat ev.qty.toNat))
  | .delete => some (.delete ev.a)
  | .replace => some (.replace ev.a ev.b (.ofInt ev.px.toInt) (.ofNat ev.qty.toNat))
  | _ => none

/-- The calls that a log stands for. -/
def redoAll (replies : List Reply) : List Op := (replies.map loggedEvent).filterMap redo

/-- The replies without the rejections. -/
def accepted (replies : List Reply) : List Reply :=
  (replies.filterMap Except.toOption).map .ok

theorem fromCode_code (s : Side) : Side.fromCode s.code = some s := by
  cases s <;> rfl

theorem ofInt_event_px (px : Int32) : Int32.ofInt (Int64.ofInt px.toInt).toInt = px := by
  have hbounds := int32_bounds px
  rw [Int64.toInt_ofInt_of_le (by omega) (by omega), Int32.ofInt_toInt]

theorem toNat_event_qty {n : ℕ} (h : n < 2 ^ 32) :
    (UInt32.ofNat (UInt64.ofNat n).toNat).toNat = n := by
  rw [UInt64.toNat_ofNat_of_lt' (Nat.lt_trans h (by decide)), UInt32.toNat_ofNat_of_lt' h]

/-- The record of an error stands for no call. -/
theorem redo_error (e : BookError) : redo e.event = none := by
  cases e <;> rfl

/-- The event of an accepted call stands for a call that does the same. -/
theorem redo_ok {m : Market} (hm : m.WF) {op : Op} {ev : Event} (h : (m.apply op).1 = .ok ev) :
    ∃ op', redo ev = some op' ∧ m.apply op' = m.apply op := by
  cases op with
  | add id s px qty =>
    simp only [Market.apply, Market.add] at h
    split_ifs at h
    obtain rfl := (Except.ok.inj h).symm
    refine ⟨.add id s px qty, ?_, rfl⟩
    have hqty : UInt32.ofNat (UInt64.ofNat qty.toNat).toNat = qty :=
      UInt32.toNat_inj.mp (toNat_event_qty (uint32_bound qty))
    simp only [redo, Event.add, fromCode_code, Option.map_some, ofInt_event_px, hqty]
  | cancel id qty =>
    simp only [Market.apply, Market.cancel] at h
    cases hfind : m.find id with
    | none => simp [hfind] at h
    | some p =>
      obtain ⟨s, px, held⟩ := p
      simp only [hfind] at h
      split_ifs at h with hzero
      obtain rfl := (Except.ok.inj h).symm
      have hheld := hm.held_pos hfind
      have hbound := uint32_bound qty
      refine ⟨.cancel id _, rfl, ?_⟩
      have hremoved : (UInt32.ofNat (UInt64.ofNat (min qty.toNat held)).toNat).toNat =
          min qty.toNat held := toNat_event_qty (by omega)
      have hsame : min (min qty.toNat held) held = min qty.toNat held := by omega
      have hpos : min qty.toNat held ≠ 0 := by omega
      simp only [Market.apply, Market.cancel, Event.cancel, hfind, hremoved, if_neg hzero,
        if_neg hpos, hsame]
  | execute id qty =>
    simp only [Market.apply, Market.execute] at h
    cases hfind : m.find id with
    | none => simp [hfind] at h
    | some p =>
      obtain ⟨s, px, held⟩ := p
      simp only [hfind] at h
      split_ifs at h with hzero hover
      obtain rfl := (Except.ok.inj h).symm
      refine ⟨.execute id _, rfl, ?_⟩
      have hqty : (UInt32.ofNat (UInt64.ofNat qty.toNat).toNat).toNat = qty.toNat :=
        toNat_event_qty (uint32_bound qty)
      simp only [Market.apply, Event.exec, hqty]
  | delete id =>
    simp only [Market.apply, Market.delete] at h
    cases hfind : m.find id with
    | none => simp [hfind] at h
    | some p =>
      simp only [hfind] at h
      obtain rfl := (Except.ok.inj h).symm
      exact ⟨.delete id, rfl, rfl⟩
  | replace old new px qty =>
    simp only [Market.apply, Market.replace] at h
    cases hfind : m.find old with
    | none => simp [hfind] at h
    | some p =>
      obtain ⟨s, oldPx, held⟩ := p
      simp only [hfind] at h
      split_ifs at h
      all_goals
        obtain rfl := (Except.ok.inj h).symm
        refine ⟨.replace old new px qty, ?_, rfl⟩
        have hqty : UInt32.ofNat (UInt64.ofNat qty.toNat).toNat = qty :=
          UInt32.toNat_inj.mp (toNat_event_qty (uint32_bound qty))
        simp only [redo, Event.replace, ofInt_event_px, hqty]

/-- A book makes the calls of the log of its market. -/
theorem run_redoAll {b : LocateBook} {m : Market} (h : b.Refines m) {ops : List Op}
    (hroom : b.isArray = true → Within m ops) :
    ∃ b', run LocateBook.apply b (redoAll (m.applyAll ops).1) =
        .ok (accepted (m.applyAll ops).1, b') ∧ b'.Refines (m.applyAll ops).2 := by
  induction ops generalizing b m with
  | nil => exact ⟨b, rfl, h⟩
  | cons op ops ih =>
    cases hr : (m.apply op).1 with
    | error e =>
      have hkeep := Market.apply_error hr
      have htail : b.isArray = true → Within m ops := fun harray => by
        have hnext := (hroom harray).tail
        rwa [hkeep] at hnext
      obtain ⟨b', hrun, h'⟩ := ih h htail
      refine ⟨b', ?_, ?_⟩
      · simpa only [Market.applyAll, hr, hkeep, redoAll, accepted, List.map_cons, loggedEvent,
          List.filterMap_cons, redo_error, Except.toOption] using hrun
      · simpa only [Market.applyAll, hkeep] using h'
    | ok ev =>
      obtain ⟨op', hredo, hsame⟩ := redo_ok h.wf hr
      have hfits : True → ∀ ab, b = .array ab → (m.apply op').2.live ≤ nilSlot := by
        intro _ ab hab
        rw [hsame]
        exact hroom (by rw [hab]; rfl) [op] (List.cons_prefix_cons.mpr ⟨rfl, List.nil_prefix⟩)
      obtain ⟨⟨r, b₁⟩, hstep, hreply, h₁, hkind⟩ := (h.apply_returns op' hfits).ok_of trivial
      rw [hsame] at hreply h₁
      have htail : b₁.isArray = true → Within (m.apply op).2 ops := by
        intro harray
        cases hb₁ : b₁ with
        | ref r =>
          rw [hb₁] at harray
          cases harray
        | array ab =>
          obtain ⟨ab', hab'⟩ := hkind ab hb₁
          exact (hroom (by rw [hab']; rfl)).tail
      obtain ⟨b', hrun, h'⟩ := ih h₁ htail
      have hreply' : r = .ok ev := hreply.trans hr
      refine ⟨b', ?_, h'⟩
      have hcons := run_cons_ok hstep hrun
      simpa only [Market.applyAll, hr, hreply', redoAll, accepted, List.map_cons, loggedEvent,
        List.filterMap_cons, hredo, Except.toOption] using hcons

/-- A book as it is made: a reference book, or an array book with any window, with or without
a reserve. -/
inductive Fresh : LocateBook → Prop
  | ref : Fresh (.ref .new)
  | array {cfg : BookConfig} {ab : ArrayBook} (hcfg : ValidConfig cfg)
      (hnew : ArrayBook.new cfg = .ok ab) : Fresh (.array ab)
  | reserved {cfg : BookConfig} {orders : ℕ} {ab : ArrayBook} (hcfg : ValidConfig cfg)
      (hnew : ArrayBook.withCapacity cfg orders = .ok ab) : Fresh (.array ab)

theorem Fresh.refines {b : LocateBook} (h : Fresh b) : b.Refines .empty := by
  cases h with
  | ref => exact LocateBook.refines_new
  | array hcfg hnew => exact ⟨Market.priced_empty, BookRuns.new_refines hcfg hnew⟩
  | reserved hcfg hnew =>
    exact ⟨Market.priced_empty,
      ((ArrayBook.withCapacity_returns (Q := False) hcfg False.elim).of_run hnew).1⟩

/-- A run that returns follows the market, and an array book never had more orders than a
slab has slots. -/
theorem follows_of_run {b b' : LocateBook} {m : Market} (h : b.Refines m) {ops : List Op}
    {replies : List Reply} (hrun : run LocateBook.apply b ops = .ok (replies, b')) :
    replies = (m.applyAll ops).1 ∧ b'.Refines (m.applyAll ops).2 ∧
      (b.isArray = true → Within m ops) := by
  have hhere : ∀ {b : LocateBook} {m : Market}, b.Refines m → b.isArray = true →
      m.live ≤ nilSlot := by
    intro b m h harray
    cases b with
    | ref r => cases harray
    | array ab => exact ArrayBook.Refines.live_le h.shown
  induction ops generalizing b m replies with
  | nil =>
    obtain ⟨rfl, rfl⟩ := Prod.mk.inj (Except.ok.inj hrun)
    refine ⟨rfl, h, fun harray pre hpre => ?_⟩
    obtain rfl := List.prefix_nil.mp hpre
    exact hhere h harray
  | cons op ops ih =>
    obtain ⟨r, rs, b₁, hstep, hrest, rfl⟩ := run_cons_eq_ok.mp hrun
    obtain ⟨rfl, h₁, -⟩ := (h.apply_returns (Q := False) op False.elim).of_run hstep
    obtain ⟨rfl, h', hroom⟩ := ih h₁ hrest
    refine ⟨rfl, h', fun harray pre hpre => ?_⟩
    cases pre with
    | nil => exact hhere h harray
    | cons op' pre =>
      obtain ⟨rfl, hprefix⟩ := List.cons_prefix_cons.mp hpre
      have harray₁ : b₁.isArray = true := by
        cases b with
        | ref r => cases harray
        | array ab =>
          obtain ⟨⟨r, ab'⟩, -, hret⟩ := bind_eq_ok.mp hstep
          obtain ⟨-, rfl⟩ := Prod.mk.inj (Except.ok.inj hret)
          rfl
      exact hroom harray₁ pre hprefix

/-- The event log rebuilds the book: replayed on a fresh book of either kind, its events come
out again and the snapshot is the one that was logged. Only a reference book can have held
more orders than an array book has slots for. -/
theorem log_rebuilds_book {b₀ b₁ b : LocateBook} (h₀ : Fresh b₀) (h₁ : Fresh b₁) {ops : List Op}
    {replies : List Reply} (hrun : run LocateBook.apply b₀ ops = .ok (replies, b))
    (hroom : b₀.isArray = false → b₁.isArray = true →
      Along LocateBook.apply (fun b => b.liveOrders ≤ 2 ^ 32 - 1) b₀ ops) :
    ∃ b', run LocateBook.apply b₁ (redoAll replies) = .ok (accepted replies, b') ∧
      ∃ v, b.snapshot = .ok v ∧ b'.snapshot = .ok v := by
  obtain ⟨rfl, hb, harray⟩ := follows_of_run h₀.refines hrun
  have hwithin : b₁.isArray = true → Within .empty ops := by
    intro h
    cases hkind : b₀.isArray with
    | true => exact harray hkind
    | false =>
      have halong := hroom hkind h
      intro pre hpre
      obtain ⟨post, rfl⟩ := hpre
      rw [run_append] at hrun
      obtain ⟨⟨out, b₂⟩, hpre, -⟩ := bind_eq_ok.mp hrun
      have hle : b₂.liveOrders ≤ 2 ^ 32 - 1 := halong pre out b₂ (List.prefix_append ..) hpre
      obtain ⟨-, h₂, -⟩ := follows_of_run h₀.refines hpre
      rw [h₂.liveOrders_eq] at hle
      exact hle
  obtain ⟨b', hrun', hb'⟩ := run_redoAll h₁.refines hwithin
  exact ⟨b', hrun', _, hb.snapshot_eq, hb'.snapshot_eq⟩

/-- Calls of every kind, some of them refused, on a window of four levels. -/
def mixedOps : List Op := [.add 1 .bid 105 5, .add 1 .ask 110 5, .add 2 .ask 90 3, .cancel 1 9,
  .execute 2 2, .replace 2 3 250 4, .delete 9, .delete 3]

theorem log_rebuilds_book_mixed : ∃ b₀ replies b b', ArrayBook.new ⟨100, 4, 5⟩ = .ok b₀ ∧
    run LocateBook.apply (.array b₀) mixedOps = .ok (replies, b) ∧
    run LocateBook.apply (.ref .new) (redoAll replies) = .ok (accepted replies, b') ∧
      ∃ v, b.snapshot = .ok v ∧ b'.snapshot = .ok v := by
  obtain ⟨⟨b₀, replies, b⟩, hrun⟩ := ok_of_not_panics (x := (do
    let b₀ ← ArrayBook.new ⟨100, 4, 5⟩
    let (replies, b) ← run LocateBook.apply (.array b₀) mixedOps
    return (b₀, replies, b) : Exec (ArrayBook × List Reply × LocateBook))) (by decide +kernel)
  obtain ⟨ab, hnew, hrun⟩ := bind_eq_ok.mp hrun
  obtain ⟨⟨rs, b₂⟩, hrun, hret⟩ := bind_eq_ok.mp hrun
  have hfresh : Fresh (.array ab) := .array (by constructor <;> decide) hnew
  obtain ⟨b', hrun', hsnap⟩ :=
    log_rebuilds_book hfresh .ref hrun fun _ => by simp [LocateBook.isArray]
  exact ⟨ab, rs, b₂, b', hnew, hrun, hrun', hsnap⟩

/-- A reference book makes any calls. -/
theorem reference_runs {b : LocateBook} {m : Market} (h : b.Refines m) (hkind : b.isArray = false)
    (ops : List Op) : ∃ replies b', run LocateBook.apply b ops = .ok (replies, b') := by
  induction ops generalizing b m with
  | nil => exact ⟨[], b, rfl⟩
  | cons op ops ih =>
    have hroom : True → ∀ ab, b = .array ab → (m.apply op).2.live ≤ nilSlot := by
      intro _ ab hab
      rw [hab] at hkind
      cases hkind
    obtain ⟨⟨r, b₁⟩, hstep, -, h₁, hsame⟩ := (h.apply_returns op hroom).ok_of trivial
    have hkind₁ : b₁.isArray = false := by
      cases hb₁ : b₁ with
      | ref r => rfl
      | array ab =>
        obtain ⟨ab', rfl⟩ := hsame ab hb₁
        cases hkind
    obtain ⟨rs, b', hrest⟩ := ih h₁ hkind₁
    exact ⟨r :: rs, b', run_cons_ok hstep hrest⟩

/-- Buy orders of one share with the ids below `n`. -/
def fillOps (n : ℕ) : List Op :=
  (List.range n).map fun i => .add (.ofNat i) .bid (fillPx i).toInt32 1

theorem filled_fillOps {n : ℕ} (hn : n ≤ 2 ^ 32) :
    Filled n (Market.empty.applyAll (fillOps n)).2 := by
  induction n with
  | zero => exact ⟨fun id => by simp [Market.applyAll, fillOps, Market.empty], rfl, rfl,
      Market.live_empty⟩
  | succ n ih =>
    have hsnoc : fillOps (n + 1) = fillOps n ++ [.add (.ofNat n) .bid (fillPx n).toInt32 1] := by
      rw [fillOps, List.range_succ, List.map_append]
      rfl
    rw [hsnoc, Market.applyAll_snoc]
    exact (ih (Nat.le_of_succ_le hn)).add hn

/-- The log of a reference book with more orders than slots rebuilds no array book. -/
theorem fill_overflows {n : ℕ} (hlong : nilSlot < n) (hn : n ≤ 2 ^ 32) : ∃ replies b ab,
    run LocateBook.apply (.ref .new) (fillOps n) = .ok (replies, b) ∧
      ArrayBook.new ⟨100, 4, 5⟩ = .ok ab ∧
      ∃ e, run LocateBook.apply (.array ab) (redoAll replies) = .error e := by
  have hempty : LocateBook.Refines (.ref .new) .empty := Fresh.ref.refines
  obtain ⟨replies, b, hrun⟩ := reference_runs hempty rfl (fillOps n)
  obtain ⟨ab, hnew⟩ := ok_of_not_panics (x := ArrayBook.new ⟨100, 4, 5⟩) (by decide +kernel)
  have hfresh : Fresh (.array ab) := .array (by constructor <;> decide) hnew
  refine ⟨replies, b, ab, hrun, hnew, ?_⟩
  obtain ⟨rfl, -, -⟩ := follows_of_run hempty hrun
  -- replayed on a reference book the log ends with `n` orders, and so it would on an array book
  have hnever : LocateBook.isArray (.ref .new) = true → Within .empty (fillOps n) := fun h => by
    cases h
  obtain ⟨b₁, hredo, hb₁⟩ := run_redoAll hempty hnever
  obtain ⟨-, hb₁', -⟩ := follows_of_run hempty hredo
  rcases hagain : run LocateBook.apply (.array ab) (redoAll (Market.empty.applyAll (fillOps n)).1)
    with e | ⟨rs, b₂⟩
  · exact ⟨e, rfl⟩
  · obtain ⟨-, -, hwithin⟩ := follows_of_run hfresh.refines hagain
    have hle := hwithin rfl _ (List.prefix_refl _)
    rw [← hb₁'.liveOrders_eq, hb₁.liveOrders_eq, (filled_fillOps hn).live] at hle
    omega

theorem long_log_overflows_array_book : ∃ replies b ab,
    run LocateBook.apply (.ref .new) (fillOps (2 ^ 32)) = .ok (replies, b) ∧
      ArrayBook.new ⟨100, 4, 5⟩ = .ok ab ∧
      ∃ e, run LocateBook.apply (.array ab) (redoAll replies) = .error e :=
  fill_overflows (by decide) (Nat.le_refl _)

/-! Reached books. -/

/-- The book is what some calls have made of a fresh book. -/
def Reached (b : LocateBook) : Prop :=
  ∃ b₀ ops replies, Fresh b₀ ∧ run LocateBook.apply b₀ ops = .ok (replies, b)

theorem reached_of_fresh {b : LocateBook} (h : Fresh b) : Reached b := ⟨b, [], [], h, rfl⟩

theorem Reached.refines {b : LocateBook} (h : Reached b) : ∃ m, b.Refines m := by
  obtain ⟨b₀, ops, replies, hfresh, hrun⟩ := h
  exact ⟨_, (follows_of_run hfresh.refines hrun).2.1⟩

/-- One more call leaves a reached book. -/
theorem Reached.apply {b b' : LocateBook} (h : Reached b) {op : Op} {r : Reply}
    (hstep : b.apply op = .ok (r, b')) : Reached b' := by
  obtain ⟨b₀, ops, replies, hfresh, hrun⟩ := h
  have hone : run LocateBook.apply b [op] = .ok ([r], b') := run_cons_ok hstep rfl
  refine ⟨b₀, ops ++ [op], replies ++ [r], hfresh, ?_⟩
  rw [run_append, hrun, ok_bind]
  simp only [hone, ok_bind, pure_eq_ok]

/-- A call that returns has the reply of the market, and its effect. -/
theorem refines_of_apply {b b' : LocateBook} {m : Market} (h : b.Refines m) {op : Op} {r : Reply}
    (hstep : b.apply op = .ok (r, b')) : r = (m.apply op).1 ∧ b'.Refines (m.apply op).2 := by
  obtain ⟨hreply, hbook, -⟩ := (h.apply_returns (Q := False) op False.elim).of_run hstep
  exact ⟨hreply, hbook⟩

end Lobcore.EventReplays
