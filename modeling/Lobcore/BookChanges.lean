import Lobcore.Closings
import Lobcore.Ledgers
import Lobcore.MarketSnapshots

/-!
The answer of `apply_msg`. It is `true` exactly when the snapshot of the message's locate
changes, a locate without a book counting as one with an empty reference book; no other
snapshot ever changes, and a message answered with `false` leaves the kinds of the books and
every statistic that follows the books.
-/
namespace Lobcore.BookChanges

open Checked OrderTypes Markets Payloads SessionStats ReferenceBook ArrayBooks Sessions Migrations
open Replays Handlers Desks DeskSteps SessionRefines SessionSteps SessionRuns Ledgers Closings

/-- The snapshot of a locate. -/
def snapshotAt (s : Session) (i : ℕ) : Exec Snapshot :=
  match s.book i with
  | some b => b.snapshot
  | none => .ok RefBook.new.snapshot

/-- The window of a locate with an array book. -/
def windowAt (s : Session) (i : ℕ) : Option BookConfig :=
  match s.book i with
  | some (.array ab) => some ab.config
  | _ => none

/-- The counters that only a book change moves. -/
structure Tally where
  live : ℕ
  liveHwm : ℕ
  ecTotal : ℕ
  ecAtHead : ℕ
  overCancel : ℕ
  crossedBeforeQ : ℕ
  crossedAfterQ : ℕ
  crossedAfterQTrading : ℕ
  deriving DecidableEq, Repr

def tally (st : Stats) : Tally :=
  ⟨st.live, st.liveHwm, st.ecTotal, st.ecAtHead, st.overCancel, st.crossedBeforeQ,
    st.crossedAfterQ, st.crossedAfterQTrading⟩

/-- What a message answered with `b` has done to the books. -/
structure Reported (m : Msg) (s : Session) (b : Bool) (s' : Session) : Prop where
  readable : ∀ i, ∃ v, snapshotAt s i = .ok v
  own : b = true ↔ ∃ l, m.locate = .ok (some l) ∧ snapshotAt s' l.toNat ≠ snapshotAt s l.toNat
  other : ∀ i, m.locate.map (Option.map UInt16.toNat) ≠ .ok (some i) →
    snapshotAt s' i = snapshotAt s i
  windows : b = false → ∀ i, windowAt s' i = windowAt s i
  tally : b = false → tally s'.stats = tally s.stats
  locates : b = false → ∀ i,
    let ls := s.stats.locates.getD i .new
    let ls' := s'.stats.locates.getD i .new
    ls'.live = ls.live ∧ ls'.liveHwm = ls.liveHwm ∧ ls'.maxAbsOffsetReal = ls.maxAbsOffsetReal

/-! The snapshots are those of the markets. -/

theorem snapshotAt_eq {cfg : SessionConfig} {s : Session} {a : Replay} (h : Follows cfg s a)
    (i : ℕ) : snapshotAt s i = .ok (a.marketAt i).snapshot := by
  unfold snapshotAt Replay.marketAt
  cases hm : a.market i with
  | none =>
    rw [h.book_none hm, Option.getD_none, Market.snapshot_empty]
    rfl
  | some m =>
    obtain ⟨b, hb, hrefines, -, -⟩ := h.book_some hm
    rw [hb, Option.getD_some]
    exact hrefines.snapshot_eq

/-- The book of a locate, or the one it would start on, follows its market. -/
theorem refines_getD {cfg : SessionConfig} {s : Session} {a : Replay}
    (h : Follows cfg s a) (i : ℕ) :
    ((s.book i).getD (.ref .new)).Refines (a.marketAt i) := by
  cases hm : a.market i with
  | none =>
    rw [h.book_none hm, Replay.marketAt, hm]
    exact LocateBook.refines_new
  | some m =>
    obtain ⟨b, hb, hrefines, -, -⟩ := h.book_some hm
    rw [hb, Replay.marketAt, hm]
    exact hrefines

theorem wf_marketAt {cfg : SessionConfig} {s : Session} {a : Replay} (h : Follows cfg s a) (i : ℕ) :
    (a.marketAt i).WF :=
  (refines_getD h i).wf

/-- Only an order changes a market, and only the market of its locate. -/
theorem marketAt_ne {a : Replay} {n : Note} {i : ℕ} (h : (a.apply n).2.marketAt i ≠ a.marketAt i) :
    ∃ l o, n.body = .order l o ∧ i = l.toNat := by
  rw [Replay.marketAt_apply] at h
  cases hbody : n.body with
  | order l o =>
    simp only [hbody] at h
    by_cases hi : i = l.toNat
    · exact ⟨l, o, rfl, hi⟩
    · rw [if_neg hi] at h
      exact absurd rfl h
  | _ =>
    simp only [hbody] at h
    exact absurd rfl h

/-- The replay answers `true` when the market of the order's locate has another snapshot. -/
theorem accepts_iff {cfg : SessionConfig} {s : Session} {a : Replay} (h : Follows cfg s a)
    (n : Note) : (a.apply n).1 = true ↔ ∃ l o, n.body = .order l o ∧
      ((a.apply n).2.marketAt l.toNat).snapshot ≠ (a.marketAt l.toNat).snapshot := by
  rw [apply_accepts]
  cases hbody : n.body with
  | order l o =>
    have hwf : (a.marketOf l).WF := wf_marketAt h l.toNat
    have hafter := Replay.marketAt_apply a n l.toNat
    simp only [hbody, if_true] at hafter
    have honly : (∃ l' o', Body.order l o = Body.order l' o' ∧
        ((a.apply n).2.marketAt l'.toNat).snapshot ≠ (a.marketAt l'.toNat).snapshot) ↔
        ((a.apply n).2.marketAt l.toNat).snapshot ≠ (a.marketOf l).snapshot := by
      constructor
      · intro ⟨l', o', heq, hne⟩
        cases heq
        exact hne
      · intro hne
        exact ⟨l, o, rfl, hne⟩
    rw [honly, hafter]
    cases ho : o.op with
    | none =>
      rw [effect_none ho]
      simp [Effect.accepts]
    | some op =>
      rw [effect_some ho, Option.elim_some, hwf.snapshot_apply_ne_iff op]
      cases hr : ((a.marketOf l).apply op).1 with
      | error e => simp [Effect.accepts]
      | ok ev => simp [Effect.accepts]
  | _ => simp [effect, Effect.accepts]

/-! What a message answered with `false` leaves. -/

/-- A move of the shared counters that no book change stands behind. -/
def Mild : Count → Prop
  | .noDirectory => True
  | .placeholder => True
  | .badSide => True
  | .logged _ => True
  | .rejected _ => True
  | _ => False

theorem tally_countAll {cs : List Count} (h : ∀ c ∈ cs, Mild c) (st : Stats) :
    tally (countAll cs st) = tally st := by
  induction cs generalizing st with
  | nil => rfl
  | cons c cs ih =>
    refine (ih (fun c' hc' => h c' (List.mem_cons_of_mem _ hc')) (c.stats st)).trans ?_
    have hmild := h c (List.mem_cons_self ..)
    cases c with
    | rejected e => cases e <;> rfl
    | noDirectory => rfl
    | placeholder => rfl
    | badSide => rfl
    | logged e => rfl
    | _ => cases hmild

theorem tally_noted (s : Session) (n : Note) : tally (noted s n).stats = tally s.stats := by
  unfold noted Stats.noteMessage
  cases n.ts <;> rfl

/-- Nothing that follows the books has changed on the desk. -/
structure Calm (d d' : Desk) : Prop where
  window : (match d'.book with | some (.array ab) => some ab.config | _ => none) =
    (match d.book with | some (.array ab) => some ab.config | _ => none : Option BookConfig)
  live : d'.stats.live = d.stats.live
  liveHwm : d'.stats.liveHwm = d.stats.liveHwm
  maxAbsOffsetReal : d'.stats.maxAbsOffsetReal = d.stats.maxAbsOffsetReal

theorem Calm.trans {d d₁ d₂ : Desk} (h : Calm d d₁) (h₁ : Calm d₁ d₂) : Calm d d₂ where
  window := h₁.window.trans h.window
  live := h₁.live.trans h.live
  liveHwm := h₁.liveHwm.trans h.liveHwm
  maxAbsOffsetReal := h₁.maxAbsOffsetReal.trans h.maxAbsOffsetReal

theorem calm_watch (cfg : SessionConfig) (l : UInt16) (symbol : Option Bytes) (d : Desk) :
    Calm d (d.watch cfg l symbol) := by
  unfold Desk.watch
  split <;> exact ⟨rfl, rfl, rfl, rfl⟩

/-- An empty reference book where there was none is no change. -/
theorem calm_openBook {d : Desk} (h : d.book = none) : Calm d d.openBook where
  window := by
    rw [h]
    rfl
  live := rfl
  liveHwm := rfl
  maxAbsOffsetReal := rfl

theorem book_watch (cfg : SessionConfig) (l : UInt16) (symbol : Option Bytes) (d : Desk) :
    (d.watch cfg l symbol).book = d.book := by
  unfold Desk.watch
  split <;> rfl

theorem calm_openMissing (cfg : SessionConfig) (l : UInt16) (d : Desk) :
    Calm d (d.openMissing cfg l).1 ∧ ∀ c ∈ (d.openMissing cfg l).2, Mild c := by
  cases hb : d.book with
  | some b =>
    rw [openMissing_some hb]
    exact ⟨⟨rfl, rfl, rfl, rfl⟩, fun c hc => by cases hc⟩
  | none =>
    have hopen : d.openMissing cfg l = ((d.watch cfg l none).openBook, [.noDirectory]) := by
      rw [Desk.openMissing, hb]
    rw [hopen]
    refine ⟨(calm_watch cfg l none d).trans (calm_openBook ((book_watch ..).trans hb)),
      fun c hc => ?_⟩
    rw [List.mem_singleton.mp hc]
    trivial

theorem calm_directory (cfg : SessionConfig) (l : UInt16) (stock : Bytes) (d : Desk) :
    Calm d (d.directory cfg l stock) := by
  have hsymbol : Calm d (d.onStats fun ls => { ls with symbol := stock }) := ⟨rfl, rfl, rfl, rfl⟩
  have hwatch := hsymbol.trans (calm_watch cfg l (some stock) _)
  cases hb : d.book with
  | some b =>
    rw [directory_some hb]
    exact hwatch
  | none =>
    have hnone := (book_watch cfg l (some stock) (d.onStats fun ls =>
      { ls with symbol := stock })).trans hb
    simp only [Desk.directory, hnone]
    exact hwatch.trans (calm_openBook hnone)

theorem mild_placeholderOf (o : Order) : ∀ c ∈ Desk.placeholderOf o, Mild c := by
  intro c hc
  cases o with
  | add id side px qty =>
    simp only [Desk.placeholderOf] at hc
    split at hc
    · rw [List.mem_singleton.mp hc]
      trivial
    · cases hc
  | _ => cases hc

theorem mild_record (cfg : SessionConfig) (e : BookError) (d : Desk) :
    ∀ c ∈ (d.record cfg (.error e)).2, Mild c := by
  intro c hc
  simp only [Desk.record, List.mem_append, List.mem_singleton] at hc
  rcases hc with hc | rfl
  · split at hc
    · rw [List.mem_singleton.mp hc]
      trivial
    · cases hc
  · trivial

/-- A step answered with `false`. -/
theorem act_false {cfg : SessionConfig} {afterQ : Bool} {body : Body} {d d' : Desk}
    {cs : List Count} (h : act cfg afterQ d body = .ok (false, d', cs)) :
    Calm d d' ∧ ∀ c ∈ cs, Mild c := by
  cases body with
  | directory l stock =>
    obtain ⟨-, h⟩ := Prod.mk.inj (Except.ok.inj h)
    obtain ⟨rfl, rfl⟩ := Prod.mk.inj h
    exact ⟨calm_directory cfg l stock d, fun c hc => by cases hc⟩
  | order l o =>
    obtain ⟨hcalm, hopened⟩ := calm_openMissing cfg l d
    cases ordered h with
    | unsided hop =>
      refine ⟨hcalm, fun c hc => ?_⟩
      rcases List.mem_append.mp hc with hc | hc
      · exact (List.mem_append.mp hc).elim (hopened c) (mild_placeholderOf o c)
      · rw [List.mem_singleton.mp hc]
        trivial
    | refused hop hcall =>
      refine ⟨hcalm, fun c hc => ?_⟩
      rcases List.mem_append.mp hc with hc | hc
      · exact (List.mem_append.mp hc).elim (hopened c) (mild_placeholderOf o c)
      · exact mild_record cfg _ _ c hc
  | _ =>
    obtain ⟨-, h⟩ := Prod.mk.inj (Except.ok.inj h)
    obtain ⟨rfl, rfl⟩ := Prod.mk.inj h
    exact ⟨⟨rfl, rfl, rfl, rfl⟩, fun c hc => by cases hc⟩

theorem moved_false {s s' : Session} {m : Msg} (h : Moved s m false s') :
    (∀ i, Calm (desk s i) (desk s' i)) ∧ tally s'.stats = tally s.stats := by
  cases h with
  | idle hl hdone =>
    obtain ⟨locates, hstats⟩ := hdone.stats
    refine ⟨fun i => ?_, ?_⟩
    · rw [hdone.desks, desk_noted]
      exact ⟨rfl, rfl, rfl, rfl⟩
    · rw [hstats, ← tally_noted s (note m)]
      cases body m <;> rfl
  | @worked l b d cs hl hact =>
    obtain ⟨hcalm, hmild⟩ := act_false hact
    refine ⟨fun i => ?_, (tally_countAll hmild _).trans (tally_noted s (note m))⟩
    by_cases hi : i = l.toNat
    · subst hi
      rw [desk_worked hact]
      exact hcalm
    · rw [desk_put_ne _ _ _ _ hi, desk_noted]
      exact ⟨rfl, rfl, rfl, rfl⟩

theorem locate_of_order {m : Msg} {l : UInt16} {o : Order} (h : body m = .order l o) :
    m.locate = .ok (some l) := by
  rw [headerLocate_ok, headerLocate_of_target (l := l) (by rw [h]; rfl)]

/-- Every message tells whether it changed a book, from every state that messages, payloads
and closes lead to in a session with `array_window` in `1..=4096` (`ValidSession`). -/
theorem apply_msg_reports_changes {hash : Bytes → Bytes} {cfg : SessionConfig}
    (hcfg : ValidSession cfg) {calls : List Call} {out : List Unit} {s : Session}
    (hrun : run (call hash) (.new cfg) calls = .ok (out, s)) (m : Msg) :
    (∀ b s', s.applyMsg m = .ok (b, s') → Reported m s b s') ∧
    ((Watching cfg → Reservable cfg.arrayReserve) → Roomy s →
      ∃ b s', s.applyMsg m = .ok (b, s')) := by
  have htidy := tidy_run (tidy_new hcfg) hrun
  obtain ⟨a, hfollows⟩ := htidy.follows
  constructor
  · intro b s' hstep
    obtain ⟨hb, hnext⟩ : b = (a.apply (note m)).1 ∧ Follows cfg s' (a.apply (note m)).2 :=
      (applyMsg_answers (Q := False) hfollows False.elim m False.elim).of_run hstep
    have hmoved := (tidy_message htidy hstep).2
    have hsnap : ∀ i, snapshotAt s' i ≠ snapshotAt s i ↔
        ((a.apply (note m)).2.marketAt i).snapshot ≠ (a.marketAt i).snapshot := by
      intro i
      rw [snapshotAt_eq hfollows, snapshotAt_eq hnext, ne_eq, Except.ok.injEq]
    have horder : ∀ i, snapshotAt s' i ≠ snapshotAt s i →
        ∃ l o, body m = .order l o ∧ i = l.toNat := fun i hne =>
      marketAt_ne fun heq => (hsnap i).mp hne (by rw [heq])
    refine ⟨fun i => ⟨_, snapshotAt_eq hfollows i⟩, ?_, fun i hi => ?_, ?_, ?_, ?_⟩
    · rw [hb, accepts_iff hfollows]
      constructor
      · intro ⟨l, o, hbody, hne⟩
        exact ⟨l, locate_of_order hbody, (hsnap _).mpr hne⟩
      · intro ⟨l, hl, hne⟩
        obtain ⟨l', o, hbody, heq⟩ := horder _ hne
        obtain rfl := UInt16.toNat_inj.mp heq
        exact ⟨l, o, hbody, (hsnap _).mp hne⟩
    · by_contra hne
      obtain ⟨l, o, hbody, rfl⟩ := horder i hne
      exact hi (by rw [locate_of_order hbody]; rfl)
    · intro hfalse i
      subst hfalse
      exact ((moved_false hmoved).1 i).window
    · intro hfalse
      subst hfalse
      exact (moved_false hmoved).2
    · intro hfalse i
      subst hfalse
      have hcalm := (moved_false hmoved).1 i
      exact ⟨hcalm.live, hcalm.liveHwm, hcalm.maxAbsOffsetReal⟩
  · intro hsize hroom
    obtain ⟨⟨b, s'⟩, hstep, -⟩ := (applyMsg_answers (Q := True) hfollows (fun _ => hsize) m
      fun _ _ => fits_apply hfollows hroom (note m)).ok_of trivial
    exact ⟨b, s', hstep⟩

theorem apply_msg_reports_changes_first : ∃ out s,
    run (call fun b => b) (.new (watchEvery 64)) [.message firstMsg, .finish] = .ok (out, s) ∧
      (∀ b s', s.applyMsg firstMsg = .ok (b, s') → Reported firstMsg s b s') ∧
      ((Watching (watchEvery 64) → Reservable 64) → Roomy s →
        ∃ b s', s.applyMsg firstMsg = .ok (b, s')) := by
  obtain ⟨⟨out, s⟩, hrun⟩ := ok_of_not_panics (x := run (call fun b => b) (.new (watchEvery 64))
    [.message firstMsg, .finish]) (by decide +kernel)
  exact ⟨out, s, hrun, apply_msg_reports_changes (watchEvery_valid 64) hrun firstMsg⟩

end Lobcore.BookChanges
