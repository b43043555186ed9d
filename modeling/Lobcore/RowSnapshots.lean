import Lobcore.WatchedRows

/-!
What the rows of a locate are made of. At every accepted order of a sampled locate its book could
be shown; the cadence picks some of these snapshots, and a row is rendered from each of them and
from the one picked before it. So a slower count gives every `n`-th row of the fastest one, and
the features that come from the best prices can be computed again from the cells of the quotes.
-/
namespace Lobcore.RowSnapshots

open Checked OrderTypes Payloads SessionStats Sessions Migrations Replays Interleavings Handlers
open Desks DeskSteps SessionRefines SessionSteps SessionRuns LocateIsolation Closings
open OrderFlow WeightedMids ReplayColumns SampledRows SamplingCadences WatchedRows

/-- What a row can show of a book: the best prices and five levels, with the time. -/
structure Snap where
  ts : UInt64
  best : Option LevelView × Option LevelView
  levels : List LevelView × List LevelView

/-- A level that is shown holds shares. -/
def Snap.Held (x : Snap) : Prop := (∀ e ∈ x.best.1, e.2.1 ≠ 0) ∧ ∀ e ∈ x.best.2, e.2.1 ≠ 0

/-- The snapshots that the cadence picks, by the count and the time since the last one. -/
def pick (c : Cadence) : ℕ → Option UInt64 → List Snap → List Snap
  | _, _, [] => []
  | since, last, x :: xs =>
    if due c x.ts ⟨since + 1, last, none⟩ then x :: pick c 0 (some x.ts) xs
    else pick c (since + 1) last xs

theorem pick_sublist (c : Cadence) (since : ℕ) (last : Option UInt64) (xs : List Snap) :
    (pick c since last xs).Sublist xs := by
  induction xs generalizing since last with
  | nil => exact .slnil
  | cons x xs ih =>
    rw [pick]
    split
    · exact (ih _ _).cons_cons x
    · exact (ih _ _).cons x

section Render

variable {F : Type} (fl : Floats F) (features : Bool) (l : UInt16)

/-- The row of a snapshot, and the best prices it leaves behind. -/
def renderOne (prev : Option L1) (x : Snap) : Exec (Row F × Option L1) :=
  if ¬ features then .ok (⟨quoteOf x.ts l x.best, none⟩, prev)
  else do
    let (f, cur) ← featuresOf fl prev x.best x.levels
    return (⟨quoteOf x.ts l x.best, some f⟩, cur)

/-- The rows of picked snapshots. -/
def render : Option L1 → List Snap → Exec (List (Row F))
  | _, [] => .ok []
  | prev, x :: xs => do
    let (row, cur) ← renderOne fl features l prev x
    let rows ← render cur xs
    return row :: rows

/-- The row of a book is that of its snapshot. -/
theorem shot_eq {book : LocateBook} {x : Snap} (hbest : book.l1 = .ok x.best)
    (hlevels : book.l2 5 = .ok x.levels) (prev : Option L1) :
    shot fl features prev x.ts l book = renderOne fl features l prev x := by
  unfold shot renderOne
  rw [hbest, hlevels]
  rfl

end Render

/-! The snapshots of a run. -/

/-- What could be shown of the locate behind a message with the answer `b`. -/
def snapsAt (r : Request) (l : UInt16) (m : Msg) (b : Bool) (s : Session) : Exec (List Snap) :=
  if isBookMsg m && carries l m && b && sampled r s l then
    match s.book l.toNat with
    | none => .ok []
    | some book => do return [⟨tsOf m, ← book.l1, ← book.l2 5⟩]
  else .ok []

def snapStep (r : Request) (l : UInt16) (s : Session) (m : Msg) :
    Exec (List Snap × Session) := do
  let (b, s') ← s.applyMsg m
  return (← snapsAt r l m b s', s')

theorem held_of_refines {book : LocateBook} {mk : Markets.Market} (h : book.Refines mk)
    (ts : UInt64) : Snap.Held ⟨ts, mk.l1, mk.l2 5⟩ := by
  have hside : ∀ s, ∀ e ∈ (mk.levels s).head?.map Markets.Market.levelView, e.2.1 ≠ 0 := by
    intro s e he
    obtain ⟨lvl, hlvl, rfl⟩ := Option.map_eq_some_iff.mp he
    obtain ⟨hq, hne⟩ := Markets.Market.queue_of_mem_levels (List.mem_of_head? hlvl)
    obtain ⟨order, rest, hcons⟩ := List.exists_cons_of_ne_nil hne
    have hpos := h.wf.qty_pos s lvl.1 order (by rw [hq, hcons]; exact List.mem_cons_self)
    show Markets.total lvl.2 ≠ 0
    rw [hcons, Markets.total, List.map_cons, List.sum_cons]
    omega
  exact ⟨hside .bid, hside .ask⟩

theorem went_book {F : Type} {r : Request} {c : Cadence} {l : UInt16} {e : Entry F}
    {s s' : Sampler} (h : Went r c l e s s') (hqual : qualifies r l e = true) :
    ∃ book, e.session.book l.toNat = some book := by
  cases h with
  | pass hno hrows =>
    rw [hno] at hqual
    cases hqual
  | @count _ book _ _ _ hbook _ => exact ⟨book, hbook⟩

section Steps

variable {F : Type} (fl : Floats F) (r : Request) (c : Cadence)

theorem due_prev (ts : UInt64) (since : ℕ) (last : Option UInt64) (prev prev' : Option L1) :
    due c ts ⟨since, last, prev⟩ = due c ts ⟨since, last, prev'⟩ := by
  cases c <;> rfl

/-- What a locate gets from a message: nothing, or the turn of its sampler. -/
theorem own_turn {st : Loop F} {a : Replay} {m : Msg} {b : Bool} {s' : Session} {l : UInt16}
    {rows : List (Row F)} {st' : Loop F} (h : Follows r.config st.session a)
    (hstep : st.session.applyMsg m = .ok (b, s'))
    (hvisit : visit fl r c l (desk st.session l.toNat, samplerAt st l) m =
      .ok (rowsOf l rows, (desk s' l.toNat, samplerAt st' l))) :
    (qualifies r l (⟨m, b, s', rows⟩ : Entry F) = false ∧ rowsOf l rows = [] ∧
      samplerAt st' l = samplerAt st l) ∨
    (qualifies r l (⟨m, b, s', rows⟩ : Entry F) = true ∧
      turn fl r c (samplerAt st l) (tsOf m) l (s'.book l.toNat) =
        .ok (rowsOf l rows, samplerAt st' l)) := by
  rw [visit_eq fl r c (aligned_of_follows h) h.cfg_eq hstep l (samplerAt st l) rows] at hvisit
  cases hqual : qualifies r l (⟨m, b, s', rows⟩ : Entry F) with
  | false =>
    rw [hqual, if_neg Bool.false_ne_true] at hvisit
    obtain ⟨hrows, hrest⟩ := Prod.mk.inj (Except.ok.inj hvisit)
    exact Or.inl ⟨rfl, hrows.symm, (Prod.mk.inj hrest).2.symm⟩
  | true =>
    rw [hqual, if_pos rfl] at hvisit
    obtain ⟨⟨own, smp⟩, hturn, hend⟩ := bind_eq_ok.mp hvisit
    obtain ⟨rfl, hrest⟩ := Prod.mk.inj (Except.ok.inj hend)
    obtain rfl := (Prod.mk.inj hrest).2
    exact Or.inr ⟨rfl, hturn⟩

/-- The sampler of a locate renders the snapshots to come as these rows. -/
def Renders (l : UInt16) (s : Sampler) (xs : List Snap) (rows : List (Row F)) : Prop :=
  render fl r.features l s.prevL1 (pick c s.since s.lastTs xs) = .ok rows

/-- A turn of the sampler is the first step of picking and rendering. -/
theorem renders_turn {l : UInt16} {s s' : Sampler} {x : Snap} {xs : List Snap}
    {rows rest : List (Row F)} {book : LocateBook} (hbest : book.l1 = .ok x.best)
    (hlevels : book.l2 5 = .ok x.levels)
    (hturn : turn fl r c s x.ts l (some book) = .ok (rows, s'))
    (hrest : Renders fl r c l s' xs rest) : Renders fl r c l s (x :: xs) (rows ++ rest) := by
  unfold turn at hturn
  unfold Renders at hrest ⊢
  rw [pick, due_prev c x.ts (s.since + 1) s.lastTs none s.prevL1]
  by_cases hdue : due c x.ts { s with since := s.since + 1 } = true
  · rw [if_neg (not_not_intro hdue)] at hturn
    dsimp only at hturn
    rw [shot_eq fl r.features l hbest hlevels] at hturn
    obtain ⟨⟨row, cur⟩, hrow, hend⟩ := bind_eq_ok.mp hturn
    obtain ⟨rfl, rfl⟩ := Prod.mk.inj (Except.ok.inj hend)
    rw [if_pos hdue, render, hrow, ok_bind]
    dsimp only
    rw [hrest]
    rfl
  · rw [if_pos hdue] at hturn
    obtain ⟨rfl, rfl⟩ := Prod.mk.inj (Except.ok.inj hturn)
    rw [if_neg hdue]
    exact hrest

/-- One message: every locate has its snapshots, and renders them in front of those to come. -/
theorem rendered_step {st : Loop F} {a : Replay} {m : Msg} {b : Bool} {s' : Session}
    (h : Follows r.config st.session a) (hstep : st.session.applyMsg m = .ok (b, s')) :
    ∃ rows st', sample fl r c st m = .ok st' ∧ st'.session = s' ∧
      st'.cols = rows.foldl push st.cols ∧
      ∀ l, ∃ snaps, snapStep r l st.session m = .ok (snaps, s') ∧ (∀ x ∈ snaps, x.Held) ∧
        ∀ xs rest, Renders fl r c l (samplerAt st' l) xs rest →
          Renders fl r c l (samplerAt st l) (snaps ++ xs) (rowsOf l rows ++ rest) := by
  obtain ⟨rows, st', hsample, hsession, hcols, -, hlocates⟩ := sample_step fl r c h hstep
  obtain ⟨a', h', -⟩ := message_step _ _ _ _ _ h hstep
  refine ⟨rows, st', hsample, hsession, hcols, fun l => ?_⟩
  have hsnap : snapStep r l st.session m = (do return (← snapsAt r l m b s', s')) := by
    rw [snapStep, hstep, ok_bind]
  rw [hsnap]
  obtain ⟨hwent, hvisit⟩ := hlocates l
  rcases own_turn fl r c h hstep hvisit with ⟨hqual, hrows, hsame⟩ | ⟨hqual, hturn⟩
  · have hno : (isBookMsg m && carries l m && b && sampled r s' l) = false := hqual
    refine ⟨[], ?_, nofun, fun xs rest hrest => ?_⟩
    · rw [snapsAt, hno, if_neg Bool.false_ne_true]
      rfl
    · rw [hrows, ← hsame]
      exact hrest
  · have hyes : (isBookMsg m && carries l m && b && sampled r s' l) = true := hqual
    obtain ⟨book, hbook⟩ := went_book hwent hqual
    obtain ⟨mk, -, hrefines⟩ := h'.refines hbook
    refine ⟨[⟨tsOf m, mk.l1, mk.l2 5⟩], ?_, fun x hx => ?_, fun xs rest hrest => ?_⟩
    · rw [snapsAt, hyes, if_pos rfl, hbook]
      dsimp only
      rw [hrefines.l1_eq, hrefines.l2_eq 5]
      rfl
    · rw [List.mem_singleton.mp hx]
      exact held_of_refines hrefines (tsOf m)
    · rw [hbook] at hturn
      exact renders_turn fl r c (x := ⟨tsOf m, mk.l1, mk.l2 5⟩) hrefines.l1_eq (hrefines.l2_eq 5)
        hturn hrest

/-- A run: the rows of every locate are rendered from what its cadence picks of its snapshots. -/
theorem rendered_run {st : Loop F} {a : Replay} (h : Follows r.config st.session a)
    {frames : List Bytes} {ms : List Msg} (hparse : frames.map parse = ms.map .ok)
    {out : List Bool} {s' : Session} (hrun : run Session.applyMsg st.session ms = .ok (out, s'))
    (seen : ℕ) : ∃ rows st', replayFrames fl r c st seen frames = .ok (.ok st') ∧
      st'.session = s' ∧ st'.cols = rows.foldl push st.cols ∧
      ∀ l, ∃ snapss, run (snapStep r l) st.session ms = .ok (snapss, s') ∧
        (∀ x ∈ snapss.flatten, x.Held) ∧
        Renders fl r c l (samplerAt st l) snapss.flatten (rowsOf l rows) := by
  induction ms generalizing st a frames out seen with
  | nil =>
    obtain rfl : frames = [] := List.map_eq_nil_iff.mp hparse
    obtain ⟨-, rfl⟩ := Prod.mk.inj (Except.ok.inj hrun)
    exact ⟨[], st, rfl, rfl, rfl, fun l => ⟨[], rfl, nofun, rfl⟩⟩
  | cons m ms ih =>
    obtain ⟨p, frames, rfl, hp, hps⟩ := List.map_eq_cons_iff.mp hparse
    obtain ⟨b, bs, s₁, hstep, hrest, -⟩ := run_cons_eq_ok.mp hrun
    obtain ⟨rows, st₁, hsample, rfl, hcols, hlocates⟩ := rendered_step fl r c h hstep
    obtain ⟨a₁, h₁, -⟩ := message_step _ _ _ _ _ h hstep
    obtain ⟨rows', st', hloop, hlast, hcols', hlocates'⟩ := ih h₁ hps hrest (seen + 1)
    refine ⟨rows ++ rows', st', ?_, hlast, ?_, fun l => ?_⟩
    · simp only [replayFrames, hp, hsample, ok_bind]
      exact hloop
    · rw [hcols', hcols, List.foldl_append]
    · obtain ⟨snaps, hsnap, hheld, hrenders⟩ := hlocates l
      obtain ⟨snapss, hsnaps, hheld', hrenders'⟩ := hlocates' l
      refine ⟨snaps :: snapss, run_cons_ok hsnap hsnaps, fun x hx => ?_, ?_⟩
      · rcases List.mem_append.mp hx with hx | hx
        · exact hheld x hx
        · exact hheld' x hx
      · rw [List.flatten_cons, rowsOf, List.filter_append]
        exact hrenders _ _ hrenders'

end Steps

/-! Every n-th row. -/

theorem pick_count {n : UInt64} (hn : n ≠ 0) (xs : List Snap) {k : ℕ} (hk : k < n.toNat)
    (last : Option UInt64) (i : ℕ) :
    (pick (.everyN n hn) k last xs)[i]? = xs[(i + 1) * n.toNat - 1 - k]? := by
  induction xs generalizing k last i with
  | nil => rfl
  | cons x xs ih =>
    have hpos : 0 < n.toNat := Nat.zero_lt_of_lt hk
    have hnext : (i + 1) * n.toNat = i * n.toNat + n.toNat := Nat.succ_mul i n.toNat
    rw [pick]
    by_cases hdue : n.toNat ≤ k + 1
    · have hlast : k + 1 = n.toNat := by omega
      have hyes : due (.everyN n hn) x.ts ⟨k + 1, last, none⟩ = true := decide_eq_true hdue
      rw [if_pos hyes]
      cases i with
      | zero =>
        rw [show (0 + 1) * n.toNat - 1 - k = 0 by omega]
        rfl
      | succ i =>
        have hindex : (i + 1 + 1) * n.toNat - 1 - k = (i + 1) * n.toNat - 1 - 0 + 1 := by
          have hfirst : (i + 1) * n.toNat = i * n.toNat + n.toNat := Nat.succ_mul i n.toNat
          omega
        rw [List.getElem?_cons_succ, ih hpos, hindex, List.getElem?_cons_succ]
    · have hindex : (i + 1) * n.toNat - 1 - k = (i + 1) * n.toNat - 1 - (k + 1) + 1 := by omega
      have hno : due (.everyN n hn) x.ts ⟨k + 1, last, none⟩ = false := decide_eq_false hdue
      rw [hno, if_neg Bool.false_ne_true, ih (Nat.lt_of_not_le hdue), hindex,
        List.getElem?_cons_succ]

/-! Cells. -/

/-- The order flow between two rows that have both sides. -/
def stepOf : Option L1 → Option L1 → Int64
  | some p, some c => ofiStep p c
  | _, _ => 0

/-- The cells that come from the best prices of the row alone. -/
def priceCells {F : Type} (fl : Floats F) (cur : Option L1) : Exec (F × F × Int32) := do
  let w ← cur.elim (.ok none) fun l => wmid l.bidPx l.bidQty l.askPx l.askQty
  let i ← cur.elim (.ok none) fun l => imb1 l.bidQty l.askQty
  let s ← cur.elim (.ok 0) spread
  return (w.elim fl.nan fun w => fl.div w.num w.den, i.elim fl.nan fun r => fl.div r.num r.den,
    .ofInt s)

/-- The cells that do not look at the row before. -/
def core {F : Type} (row : Row F) : Quote × Option (Features F) :=
  (row.quote, row.features.map fun f => { f with ofi := 0 })

section Cells

variable {F : Type} (fl : Floats F) (features : Bool) (l : UInt16)

/-- Only the order flow looks at the row before. -/
theorem featuresOf_prev (prev : Option L1) (v : Option LevelView × Option LevelView)
    (levels : List LevelView × List LevelView) : featuresOf fl prev v levels = (do
      let (f, cur) ← featuresOf fl none v levels
      return ({ f with ofi := stepOf prev cur }, cur)) := by
  unfold featuresOf
  simp only [bind_assoc, pure_bind]
  rfl

theorem featuresOf_prices {prev : Option L1} {v : Option LevelView × Option LevelView}
    {levels : List LevelView × List LevelView} {f : Features F} {cur : Option L1}
    (h : featuresOf fl prev v levels = .ok (f, cur)) : cur = both v ∧
      priceCells fl cur = .ok (f.wmid, f.imb1, f.spread) ∧ f.ofi = stepOf prev cur := by
  unfold featuresOf at h
  obtain ⟨bids, -, h⟩ := bind_eq_ok.mp h
  obtain ⟨asks, -, h⟩ := bind_eq_ok.mp h
  obtain ⟨db, -, h⟩ := bind_eq_ok.mp h
  obtain ⟨da, -, h⟩ := bind_eq_ok.mp h
  obtain ⟨i5, -, h⟩ := bind_eq_ok.mp h
  obtain ⟨w, hw, h⟩ := bind_eq_ok.mp h
  obtain ⟨i, hi, h⟩ := bind_eq_ok.mp h
  obtain ⟨s, hs, h⟩ := bind_eq_ok.mp h
  obtain ⟨rfl, rfl⟩ := Prod.mk.inj (Except.ok.inj h)
  refine ⟨rfl, ?_, rfl⟩
  rw [priceCells, hw, ok_bind, hi, ok_bind, hs]
  rfl

/-- What a snapshot shows whatever row came before. -/
def cellsOf (x : Snap) : Option (Quote × Option (Features F)) :=
  ((renderOne fl features l none x).map fun p => core p.1).toOption

theorem core_renderOne {prev : Option L1} {x : Snap} {row : Row F} {cur : Option L1}
    (h : renderOne fl features l prev x = .ok (row, cur)) :
    some (core row) = cellsOf fl features l x := by
  unfold cellsOf
  unfold renderOne at h ⊢
  by_cases hf : ¬ features
  · rw [if_pos hf] at h ⊢
    obtain ⟨rfl, -⟩ := Prod.mk.inj (Except.ok.inj h)
    rfl
  · rw [if_neg hf] at h ⊢
    obtain ⟨⟨f, cur'⟩, hfeatures, h⟩ := bind_eq_ok.mp h
    rw [featuresOf_prev] at hfeatures
    obtain ⟨⟨f₀, cur₀⟩, hnone, hfeatures⟩ := bind_eq_ok.mp hfeatures
    obtain ⟨rfl, -⟩ := Prod.mk.inj (Except.ok.inj hfeatures)
    obtain ⟨rfl, -⟩ := Prod.mk.inj (Except.ok.inj h)
    rw [hnone]
    rfl

theorem core_render {prev : Option L1} {xs : List Snap} {rows : List (Row F)}
    (h : render fl features l prev xs = .ok rows) :
    rows.map (fun row => some (core row)) = xs.map (cellsOf fl features l) := by
  induction xs generalizing prev rows with
  | nil =>
    obtain rfl := Except.ok.inj h
    rfl
  | cons x xs ih =>
    obtain ⟨⟨row, cur⟩, hrow, h⟩ := bind_eq_ok.mp h
    obtain ⟨rest, hrest, h⟩ := bind_eq_ok.mp h
    obtain rfl := Except.ok.inj h
    rw [List.map_cons, List.map_cons, core_renderOne fl features l hrow, ih hrest]

end Cells

/-! The features again, from the quotes. -/

/-- Best bid and ask as the cells of a quote tell them; an empty side has no shares. -/
def l1Of (q : Quote) : Option L1 :=
  if q.bidQty = 0 ∨ q.askQty = 0 then none
  else some ⟨.ofInt q.bidPx, .ofNat q.bidQty, .ofInt q.askPx, .ofNat q.askQty⟩

theorem l1Of_quoteOf {x : Snap} (h : x.Held) (l : UInt16) :
    l1Of (quoteOf x.ts l x.best) = both x.best := by
  obtain ⟨ts, ⟨bid, ask⟩, levels⟩ := x
  obtain ⟨hbid, hask⟩ := h
  cases bid with
  | none => exact if_pos (Or.inl rfl)
  | some b =>
    cases ask with
    | none => exact if_pos (Or.inr rfl)
    | some a => exact if_neg (not_or_intro (hbid b rfl) (hask a rfl))

section Recomputed

variable {F : Type} (fl : Floats F)

/-- The weighted mid, the imbalance, the spread and the order flow of every row are those of its
own quote and of the quote of the row before. -/
def Recomputed : Option L1 → List (Row F) → Prop
  | _, [] => True
  | prev, row :: rows =>
    (∃ f, row.features = some f ∧
      priceCells fl (l1Of row.quote) = .ok (f.wmid, f.imb1, f.spread) ∧
      f.ofi = stepOf prev (l1Of row.quote)) ∧ Recomputed (l1Of row.quote) rows

theorem recomputed_render {l : UInt16} {prev : Option L1} {xs : List Snap} {rows : List (Row F)}
    (hheld : ∀ x ∈ xs, x.Held) (h : render fl true l prev xs = .ok rows) :
    Recomputed fl prev rows := by
  induction xs generalizing prev rows with
  | nil =>
    obtain rfl := Except.ok.inj h
    trivial
  | cons x xs ih =>
    obtain ⟨hx, hxs⟩ := List.forall_mem_cons.mp hheld
    obtain ⟨⟨row, cur⟩, hrow, h⟩ := bind_eq_ok.mp h
    obtain ⟨rest, hrest, h⟩ := bind_eq_ok.mp h
    obtain rfl := Except.ok.inj h
    obtain ⟨⟨f, cur'⟩, hfeatures, hrow⟩ := bind_eq_ok.mp hrow
    obtain ⟨rfl, rfl⟩ := Prod.mk.inj (Except.ok.inj hrow)
    obtain ⟨rfl, hcells, hofi⟩ := featuresOf_prices fl hfeatures
    rw [← l1Of_quoteOf hx l] at hcells hofi hrest
    exact ⟨⟨f, rfl, hcells, hofi⟩, ih hxs hrest⟩

/-- Without features there is no order flow. -/
theorem bare_render {l : UInt16} {prev : Option L1} {xs : List Snap} {rows : List (Row F)}
    (h : render fl false l prev xs = .ok rows) : ∀ row ∈ rows, row.features = none := by
  induction xs generalizing prev rows with
  | nil =>
    obtain rfl := Except.ok.inj h
    exact fun row hrow => by cases hrow
  | cons x xs ih =>
    obtain ⟨⟨row, cur⟩, hrow, h⟩ := bind_eq_ok.mp h
    obtain ⟨rest, hrest, h⟩ := bind_eq_ok.mp h
    obtain rfl := Except.ok.inj h
    obtain ⟨rfl, -⟩ := Prod.mk.inj (Except.ok.inj hrow)
    exact List.forall_mem_cons.mpr ⟨rfl, ih hrest⟩

/-- The order flow of the `i`-th row is that from the quote in front of it. -/
theorem Recomputed.ofi {prev : Option L1} {rows : List (Row F)} (h : Recomputed fl prev rows)
    {i : ℕ} {row : Row F} (hrow : rows[i]? = some row) : ∃ f, row.features = some f ∧
      f.ofi = stepOf (if i = 0 then prev else rows[i - 1]?.bind fun row => l1Of row.quote)
        (l1Of row.quote) := by
  induction rows generalizing prev i with
  | nil => cases hrow
  | cons first rows ih =>
    obtain ⟨⟨f, hf, -, hofi⟩, hrest⟩ := h
    cases i with
    | zero =>
      obtain rfl := Option.some.inj hrow
      exact ⟨f, hf, hofi⟩
    | succ i =>
      obtain ⟨f', hf', hofi'⟩ := ih hrest hrow
      refine ⟨f', hf', hofi'.trans ?_⟩
      cases i <;> rfl

theorem Recomputed.append {prev : Option L1} {pre post : List (Row F)}
    (h : Recomputed fl prev (pre ++ post)) : ∃ prev', Recomputed fl prev' post := by
  induction pre generalizing prev with
  | nil => exact ⟨prev, h⟩
  | cons row pre ih => exact ih h.2

/-- The order flow of a row; none without features. -/
def ofiOf (row : Row F) : Int64 := row.features.elim 0 Features.ofi

theorem ofiLoop_add (prev : L1) (sum : Int64) (rest : List L1) :
    ofiLoop prev sum rest = sum + ofiLoop prev 0 rest := by
  induction rest generalizing prev sum with
  | nil => exact (Int64.add_zero sum).symm
  | cons cur rest ih =>
    rw [ofiLoop, ofiLoop, ih cur (sum + ofiStep prev cur), ih cur (0 + ofiStep prev cur),
      Int64.zero_add, Int64.add_assoc]

/-- The order flow behind a row adds up to the window from its quote on, as long as both sides
are there. -/
theorem sum_ofi {first : L1} {rows post : List (Row F)} {l1s : List L1}
    (hboth : rows.map (fun row => l1Of row.quote) = l1s.map some)
    (h : Recomputed fl (some first) (rows ++ post)) :
    (rows.map ofiOf).sum = ofiWindow (first :: l1s) := by
  induction rows generalizing first l1s with
  | nil =>
    obtain rfl : l1s = [] := List.map_eq_nil_iff.mp hboth.symm
    rfl
  | cons row rows ih =>
    obtain ⟨cur, rest, rfl, hcur, hrest⟩ := List.map_eq_cons_iff.mp hboth.symm
    obtain ⟨⟨f, hf, -, hofi⟩, htail⟩ := h
    have hquote : l1Of row.quote = some cur := hcur.symm
    rw [hquote] at hofi htail
    have hown : ofiOf row = ofiStep first cur := by rw [ofiOf, hf, Option.elim_some, hofi, stepOf]
    rw [List.map_cons, List.sum_cons, hown, ih hrest.symm htail]
    show ofiStep first cur + ofiLoop cur 0 rest = ofiLoop cur (0 + ofiStep first cur) rest
    rw [ofiLoop_add cur (0 + ofiStep first cur), Int64.zero_add]

end Recomputed

/-! Every n-th row of a locate, and the quotes between. -/

section Picked

variable {F : Type} (fl : Floats F) {features : Bool} {l : UInt16} {xs : List Snap}
variable {rows rows' : List (Row F)} {n : UInt64} {hn : n ≠ 0}

/-- The quote of the `i`-th row that is picked from each `n`; none before the first one. -/
def quoteBefore (rows : List (Row F)) (n i : ℕ) : Option L1 :=
  if i = 0 then none else rows[i * n - 1]?.bind fun row => l1Of row.quote

theorem core_picked
    (h : render fl features l none (pick (.everyN 1 (by decide)) 0 none xs) = .ok rows)
    (h' : render fl features l none (pick (.everyN n hn) 0 none xs) = .ok rows') (i : ℕ) :
    rows'[i]?.map core = rows[(i + 1) * n.toNat - 1]?.map core := by
  have hpos : 0 < n.toNat := Nat.pos_of_ne_zero fun h => hn (UInt64.toNat_inj.mp h)
  have hone := congrArg (fun xs => xs[(i + 1) * n.toNat - 1]?) (core_render fl features l h)
  have hnth := congrArg (fun xs => xs[i]?) (core_render fl features l h')
  have hsame : ((i + 1) * n.toNat - 1 + 1) * (1 : UInt64).toNat - 1 = (i + 1) * n.toNat - 1 := by
    rw [show (1 : UInt64).toNat = 1 from rfl]
    omega
  simp only [List.getElem?_map, pick_count hn _ hpos, Nat.sub_zero] at hnth
  have hfast := fun xs => pick_count (n := 1) (by decide) xs (by decide : 0 < _) none
  simp only [List.getElem?_map, hfast, Nat.sub_zero, hsame] at hone
  have hcells := hnth.trans hone.symm
  rw [← Function.comp_def, ← Option.map_map, ← Option.map_map] at hcells
  exact Option.map_injective (Option.some_injective _) hcells

/-- The order flow of a picked row is that from the last one that was picked. -/
theorem ofi_picked (hheld : ∀ x ∈ xs, x.Held)
    (h : render fl features l none (pick (.everyN 1 (by decide)) 0 none xs) = .ok rows)
    (h' : render fl features l none (pick (.everyN n hn) 0 none xs) = .ok rows') {i : ℕ}
    {row : Row F} (hrow : rows'[i]? = some row) {f : Features F} (hf : row.features = some f) :
    f.ofi = stepOf (quoteBefore rows n.toNat i) (l1Of row.quote) := by
  cases features with
  | false =>
    rw [bare_render fl h' row (List.mem_of_getElem? hrow)] at hf
    cases hf
  | true =>
    have hall : Recomputed fl none rows' :=
      recomputed_render fl (fun x hx => hheld x ((pick_sublist _ 0 none xs).subset hx)) h'
    obtain ⟨f', hf', hofi⟩ := hall.ofi fl hrow
    obtain rfl := Option.some.inj (hf.symm.trans hf')
    rw [hofi, quoteBefore]
    cases i with
    | zero => rfl
    | succ i =>
      have hquote := congrArg (fun o => o.bind fun c : Quote × Option (Features F) => l1Of c.1)
        (core_picked fl h h' i)
      simp only [Option.bind_map] at hquote
      exact congrArg (fun q => stepOf q (l1Of row.quote)) hquote

end Picked

/-! Whole replays. -/

section Replays

variable {F : Type} (fl : Floats F) (hash : Bytes → Bytes) {r : Request} {c : Cadence}
variable {frames : List Bytes} {ms : List Msg}

/-- The columns of a file that parses are those of the rows rendered from its snapshots. -/
theorem replay_rendered (hwindow : r.checkWindow = .ok ()) (hcadence : r.cadence = .ok c)
    (hparse : frames.map parse = ms.map .ok)
    (hbound : Along Session.applyMsg Roomy (.new r.config) ms) :
    ∃ rows, replayItch fl hash r (.ok (frames, none)) = .ok (.ok (columnsOf rows)) ∧
      ∀ l, ∃ snapss s', run (snapStep r l) (.new r.config) ms = .ok (snapss, s') ∧
        (∀ x ∈ snapss.flatten, x.Held) ∧
        render fl r.features l none (pick c 0 none snapss.flatten) = .ok (rowsOf l rows) := by
  have hvalid := valid_of_checkWindow hwindow
  have hfits := fits_along (follows_new hvalid) (fun _ => reservable_default) hbound (fits_new _ _)
  obtain ⟨s, hrun, hend⟩ := run_follows hvalid (fun _ => reservable_default) hfits
  obtain ⟨rows, st, hloop, rfl, hcols, hlocates⟩ := @rendered_run F fl r c
    ⟨.new r.config, .empty, []⟩ _ (follows_new hvalid) frames ms hparse _ _ hrun 0
  refine ⟨rows, ?_, fun l => ?_⟩
  · rw [replayItch_ended hwindow hcadence hloop hend none, hcols]
    rfl
  · obtain ⟨snapss, hsnaps, hheld, hrenders⟩ := hlocates l
    exact ⟨snapss, _, hsnaps, hheld, hrenders⟩

/-- A row for every accepted order. -/
def everyOne (r : Request) : Request := { r with everyN := none, everyNs := none }

/-- A row for every `n`-th accepted order of a locate. -/
def everyNth (r : Request) (n : UInt64) : Request := { r with everyN := some n, everyNs := none }

/-- With a slower count a locate has every `n`-th of its rows, with the same cells apart from the
order flow, which is that between the quotes of the picked rows. -/
theorem every_nth_row (hwindow : r.checkWindow = .ok ()) {n : UInt64} (hn : n ≠ 0)
    (hparse : frames.map parse = ms.map .ok)
    (hbound : Along Session.applyMsg Roomy (.new r.config) ms) :
    ∃ rows rows',
      replayItch fl hash (everyOne r) (.ok (frames, none)) = .ok (.ok (columnsOf rows)) ∧
      replayItch fl hash (everyNth r n) (.ok (frames, none)) = .ok (.ok (columnsOf rows')) ∧
      ∀ l i, (rowsOf l rows')[i]?.map core =
          (rowsOf l rows)[(i + 1) * n.toNat - 1]?.map core ∧
        ∀ row, (rowsOf l rows')[i]? = some row → ∀ f, row.features = some f →
          f.ofi = stepOf (quoteBefore (rowsOf l rows) n.toNat i) (l1Of row.quote) := by
  have hcadence : (everyNth r n).cadence = .ok (.everyN n hn) := dif_neg hn
  obtain ⟨rows, hreplay, hrows⟩ := replay_rendered fl hash (r := everyOne r) hwindow rfl hparse
    hbound
  obtain ⟨rows', hreplay', hrows'⟩ := replay_rendered fl hash (r := everyNth r n) hwindow hcadence
    hparse hbound
  refine ⟨rows, rows', hreplay, hreplay', fun l i => ?_⟩
  obtain ⟨snapss, s, hsnaps, hheld, hrender⟩ := hrows l
  obtain ⟨snapss', s', hsnaps', -, hrender'⟩ := hrows' l
  obtain ⟨rfl, -⟩ := Prod.mk.inj (Except.ok.inj (hsnaps'.symm.trans hsnaps))
  exact ⟨core_picked fl hrender hrender' i,
    fun row hrow f hf => ofi_picked fl hheld hrender hrender' hrow hf⟩

/-- The features that come from the best prices say nothing new: in every row they are those of
its own quote and of the quote in front of it in the rows of its locate. Over rows in a line that
all have both sides the order flow adds up to the window over their quotes. -/
theorem features_from_quotes (hfeatures : r.features = true) (hwindow : r.checkWindow = .ok ())
    (hcadence : r.cadence = .ok c) (hparse : frames.map parse = ms.map .ok)
    (hbound : Along Session.applyMsg Roomy (.new r.config) ms) :
    ∃ rows, replayItch fl hash r (.ok (frames, none)) = .ok (.ok (columnsOf rows)) ∧
      ∀ l, Recomputed fl none (rowsOf l rows) ∧
        ∀ pre row block post l1s, rowsOf l rows = pre ++ row :: (block ++ post) →
          (row :: block).map (fun row => l1Of row.quote) = l1s.map some →
          (block.map ofiOf).sum = ofiWindow l1s := by
  obtain ⟨rows, hreplay, hrows⟩ := replay_rendered fl hash hwindow hcadence hparse hbound
  refine ⟨rows, hreplay, fun l => ?_⟩
  obtain ⟨snapss, s, -, hheld, hrender⟩ := hrows l
  rw [hfeatures] at hrender
  have hall : Recomputed fl none (rowsOf l rows) :=
    recomputed_render fl (fun x hx => hheld x ((pick_sublist c 0 none _).subset hx)) hrender
  refine ⟨hall, fun pre row block post l1s hsplit hboth => ?_⟩
  rw [hsplit] at hall
  obtain ⟨prev, hown⟩ := hall.append
  obtain ⟨first, rest, rfl, hfirst, hrest⟩ := List.map_eq_cons_iff.mp hboth.symm
  have hquote : l1Of row.quote = some first := hfirst.symm
  have htail := hown.2
  rw [hquote] at htail
  exact sum_ofi fl hrest.symm htail

end Replays

/-! The orders of two locates. -/

theorem roomy_mixed : Along Session.applyMsg Roomy (.new everyMessage.config) mixedMsgs :=
  along_of_few message_step (follows_new (valid_of_checkWindow rfl))
    (fun l => (liveAt_new _ _ l).le) (by decide)

/-- A replay whose columns are known. -/
theorem columns_of {r : Request} {frames : List Bytes} {rows : List (Row (Option ℚ))}
    {f : Columns (Option ℚ) → Bool} (h : replayItch quotients id r (.ok (frames, none)) =
      .ok (.ok (columnsOf rows)))
    (hany : (replayItch quotients id r (.ok (frames, none))).toOption.any
      (fun p => p.toOption.any f) = true) : f (columnsOf rows) = true := by
  rw [h] at hany
  exact hany

/-- Locate 1 has its second and its fourth row; between them the ask fell and the bid rose. -/
theorem every_nth_row_second : ∃ rows rows' : List (Row (Option ℚ)),
    replayItch quotients id (everyOne everyMessage) (.ok (mixedFrames, none)) =
      .ok (.ok (columnsOf rows)) ∧
    replayItch quotients id (everyNth everyMessage 2) (.ok (mixedFrames, none)) =
      .ok (.ok (columnsOf rows')) ∧
    (columnsOf rows).locate = [1, 1, 2, 1, 1] ∧ (columnsOf rows').locate = [1, 1] ∧
    (columnsOf rows).ofi = [0, 0, 0, -6, 3] ∧ (columnsOf rows').ofi = [0, -3] ∧
    ∀ l i, (rowsOf l rows')[i]?.map core =
        (rowsOf l rows)[(i + 1) * (2 : UInt64).toNat - 1]?.map core ∧
      ∀ row, (rowsOf l rows')[i]? = some row → ∀ f, row.features = some f →
        f.ofi = stepOf (quoteBefore (rowsOf l rows) 2 i) (l1Of row.quote) := by
  obtain ⟨rows, rows', hreplay, hreplay', hcells⟩ := every_nth_row quotients id
    (r := everyMessage) (n := 2) rfl (by decide) parse_mixed roomy_mixed
  obtain ⟨hlocate, hofi⟩ := of_decide_eq_true (columns_of (f := fun c =>
    decide (c.locate = [1, 1, 2, 1, 1] ∧ c.ofi = [0, 0, 0, -6, 3])) hreplay (by decide +kernel))
  obtain ⟨hlocate', hofi'⟩ := of_decide_eq_true (columns_of (f := fun c =>
    decide (c.locate = [1, 1] ∧ c.ofi = [0, -3])) hreplay' (by decide +kernel))
  exact ⟨rows, rows', hreplay, hreplay', hlocate, hlocate', hofi, hofi', hcells⟩

/-- The quotes behind the orders, three of them in a line of locate 1 with both sides. -/
def mixedQuotes : List Quote :=
  [⟨10, 1, 10000, 5, 0, 0⟩, ⟨20, 1, 10000, 5, 10300, 4⟩, ⟨25, 2, 10000, 5, 0, 0⟩,
    ⟨40, 1, 10000, 5, 10200, 6⟩, ⟨70, 1, 10100, 3, 10200, 6⟩]

theorem features_from_quotes_mixed : ∃ (rows : List (Row (Option ℚ))) (first row : Row (Option ℚ))
    (block : List (Row (Option ℚ))),
    replayItch quotients id everyMessage (.ok (mixedFrames, none)) =
      .ok (.ok (columnsOf rows)) ∧ rows.map Row.quote = mixedQuotes ∧
    Recomputed quotients none (rowsOf 1 rows) ∧ rowsOf 1 rows = first :: row :: block ∧
    (block.map ofiOf).sum =
      ofiWindow [⟨10000, 5, 10300, 4⟩, ⟨10000, 5, 10200, 6⟩, ⟨10100, 3, 10200, 6⟩] := by
  obtain ⟨rows, hreplay, hrows⟩ :=
    features_from_quotes quotients id (r := everyMessage) rfl rfl rfl parse_mixed roomy_mixed
  have hquotes : rows.map Row.quote = mixedQuotes := quotes_columnsOf (of_decide_eq_true
    (columns_of (f := fun c => decide (Quotes c mixedQuotes)) hreplay (by decide +kernel)))
  obtain ⟨hall, hsum⟩ := hrows 1
  have hown : (rowsOf 1 rows).map Row.quote = mixedQuotes.filter fun q => q.locate = 1 := by
    rw [← hquotes, List.filter_map]
    rfl
  obtain ⟨first, t, hsplit, -, ht⟩ := List.map_eq_cons_iff.mp hown
  obtain ⟨row, block, rfl, hrow, hblock⟩ := List.map_eq_cons_iff.mp ht
  refine ⟨rows, first, row, block, hreplay, hquotes, hall, hsplit, ?_⟩
  refine hsum [first] row block [] _ (by rw [hsplit, List.append_nil]; rfl) ?_
  rw [← Function.comp_def l1Of, ← List.map_map, List.map_cons, hrow, hblock]
  rfl

end Lobcore.RowSnapshots
