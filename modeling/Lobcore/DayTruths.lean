import Lobcore.DayReplays
import Lobcore.DayShapes
import Lobcore.UncrossedDays

/-!
The truth of a generated day beside a session. After every message the book of the locate shows
the row of the truth, and the only messages rejected are those whose reference was made up; for
this every order that is placed must have a price and fit its level.
-/
namespace Lobcore.DayTruths

open Checked OrderTypes OrderSlab Markets Payloads Drives SessionStats Sessions
open Migrations ArrayBooks
open Replays SessionRefines SessionSteps SessionRuns SessionAccounts TruthBooks Writers RoundTrips
open Generators GeneratorDraws DayEvents GeneratorRuns GeneratorMessages GeneratorPaths
open GeneratedDays DayShapes UncrossedDays DayMarkets DayReplays

/-! What is compared. -/

/-- The quantities of five levels, padded with zeros. -/
def l5 (levels : List LevelView) : List ℕ :=
  let out := levels.map fun v => v.2.1
  out ++ List.replicate (5 - out.length) 0

/-- The price and the quantity of a level. -/
def priceQty (v : LevelView) : ℤ × ℕ := (v.1, v.2.1)

/-- The book shows the row. -/
structure ShowsRow (b : LocateBook) (row : Truth) : Prop where
  best : ∃ bid ask, b.l1 = .ok (bid, ask) ∧ bid.map priceQty = row.bestBid ∧
    ask.map priceQty = row.bestAsk
  five : ∃ bids asks, b.l2 5 = .ok (bids, asks) ∧ l5 bids = row.l5Bid ∧
    l5 asks = row.l5Ask
  live : b.liveOrders = row.liveOrders
  state : b.stateBytes = .ok row.bookBytes

/-- The session has for the locate of the row what the row says; where it has no book the row is
empty. -/
def Agrees (s : Session) (row : Truth) : Prop :=
  match s.book row.locate.toNat with
  | none => row = ⟨row.ts, row.locate, none, none, [0, 0, 0, 0, 0], [0, 0, 0, 0, 0], 0, []⟩
  | some b => ShowsRow b row

/-- Nothing has been rejected but references that are not known, and no cancel asked for more
than there was. -/
structure OnlyUnknown (st : Stats) : Prop where
  duplicateId : st.duplicateId = 0
  overExecute : st.overExecute = 0
  overCancel : st.overCancel = 0
  badQty : st.badQty = 0
  badPrice : st.badPrice = 0
  badSide : st.badSide = 0

/-- The session takes the message of a moment: it agrees with the row, and where it rejects an
order message the reference was made up. -/
structure Step (s : Session) (mo : Moment) (row : Truth) (s' : Session) : Prop where
  applied : s.applyPayload mo.call.payload = .ok (.ok (), s')
  agrees : Agrees s' row
  known : OnlyUnknown s'.stats
  rejected : ∀ m, parse mo.call.payload = .ok m → isOrder m = true →
    s.applyMsg m = .ok (false, s') → Injected mo.before mo.after

/-- The messages of a path one after the other, each with its row. -/
inductive Replayed : Session → List Moment → List Truth → Prop
  | nil (s : Session) : Replayed s [] []
  | cons {s s' : Session} {mo : Moment} {row : Truth} {path : List Moment} {rows : List Truth}
      (hstep : Step s mo row s') (hrest : Replayed s' path rows) :
      Replayed s (mo :: path) (row :: rows)

/-! The rows. -/

theorem l5_eq (m : Market) (s : Side) :
    l5 (((m.levels s).take 5).map Market.levelView) = five m s := by
  simp only [l5, five, List.map_map, Function.comp_def, Market.levelView]

/-- A book that represents a market shows its row. -/
theorem shows_row {b : LocateBook} {m : Market} (h : b.Refines m) (c : Call) :
    ShowsRow b (rowOf c m) := by
  refine ⟨⟨_, _, h.l1_eq, ?_, ?_⟩, ⟨_, _, h.l2_eq 5, l5_eq m .bid, l5_eq m .ask⟩,
    h.liveOrders_eq, h.stateBytes_eq⟩
  · rw [Option.map_map]
    rfl
  · rw [Option.map_map]
    rfl

theorem agrees_of_follows {cfg : SessionConfig} {s : Session} {a : Replay} (h : Follows cfg s a)
    (c : Call) : Agrees s (rowOf c (a.marketAt c.header.locate.toNat)) := by
  have hlocate : (rowOf c (a.marketAt c.header.locate.toNat)).locate.toNat =
      c.header.locate.toNat := rfl
  unfold Agrees
  rw [hlocate]
  cases hm : a.market c.header.locate.toNat with
  | none =>
    have hempty : Market.empty.stateBytes = [] := by simp [Market.stateBytes, levels_empty]
    rw [h.book_none hm, Replay.marketAt, hm, Option.getD_none, rowOf_empty, hempty]
  | some m =>
    obtain ⟨b, hb, hrefines, -, -⟩ := h.book_some hm
    rw [hb, Replay.marketAt, hm, Option.getD_some]
    exact shows_row hrefines c

/-! One message. -/

theorem faults_of_follows {cfg : SessionConfig} {s : Session} {a : Replay} (h : Follows cfg s a) :
    faults s.stats = faults a.stats := by
  have hport : faults s.stats.portable = faults s.stats := rfl
  rw [← hport, h.stats]

theorem onlyUnknown_of_faults {st st' : Stats} (h : OnlyUnknown st) {n : ℕ}
    (hfaults : faults st' = { faults st with unknownId := n }) : OnlyUnknown st' := by
  simp only [faults, Faults.mk.injEq] at hfaults
  obtain ⟨-, hdup, hexec, hcancel, hqty, hpx, hside⟩ := hfaults
  exact ⟨hdup.trans h.duplicateId, hexec.trans h.overExecute, hcancel.trans h.overCancel,
    hqty.trans h.badQty, hpx.trans h.badPrice, hside.trans h.badSide⟩

theorem order_of_isOrder {m : Msg} (h : isOrder m = true) : ∃ l o, body m = .order l o := by
  cases m with
  | add m => exact ⟨_, _, rfl⟩
  | addMpid m => exact ⟨_, _, rfl⟩
  | exec m => exact ⟨_, _, rfl⟩
  | execPx m => exact ⟨_, _, rfl⟩
  | cancel m => exact ⟨_, _, rfl⟩
  | delete m => exact ⟨_, _, rfl⟩
  | replace m => exact ⟨_, _, rfl⟩
  | _ => cases h

section Messages

variable {markets markets' : ℕ → Market} {mo : Moment}

/-- A turn treats the market of the locate that its call names, and no other. -/
theorem treats_of_turn (hwf : ∀ l, (markets l).WF) (h : Turn Takable markets mo markets') :
    ∃ m, Treats (markets mo.call.header.locate.toNat) mo.call m ∧
      markets' = Function.update markets mo.call.header.locate.toNat m ∧
      ∀ id, target mo.call.body = some id →
        (markets mo.call.header.locate.toNat).home id = none → Injected mo.before mo.after := by
  cases h with
  | event hnone hcall =>
    rw [hcall]
    exact ⟨_, .quiet fun _ _ => nofun, (Function.update_eq_self ..).symm, nofun⟩
  | deal hlocate hdeal hmade =>
    rw [hlocate]
    exact ⟨_, treats_of_deal (hwf _) hdeal, rfl, hmade⟩

/-- A message of a day in a session that follows the markets. -/
theorem step_of_turn {cfg : SessionConfig} {s : Session} {a : Replay} (h : Follows cfg s a)
    (hsize : Watching cfg → Reservable cfg.arrayReserve) (hknown : OnlyUnknown s.stats)
    (hturn : Turn Takable a.marketAt mo markets') (hlive : ∀ l, (markets' l).live < 2 ^ 32) :
    ∃ s' a', Step s mo (rowOf mo.call (markets' mo.call.header.locate.toNat)) s' ∧
      Follows cfg s' a' ∧ a'.marketAt = markets' := by
  obtain ⟨m, htreats, rfl, hmade⟩ := treats_of_turn (BookChanges.wf_marketAt h) hturn
  obtain ⟨msg, hparse, hnote⟩ := spells_call (by rw [mo.writes.ts]; exact mo.writes.ts_lt)
  have hnext := marketAt_treated htreats
  have hfits : Fits (a.apply (note msg)).2 := by
    intro l m' hm'
    have hlt := hlive l
    rw [hnote] at hm'
    rw [← hnext, Replay.marketAt, hm', Option.getD_some] at hlt
    exact Nat.le_of_lt_succ hlt
  obtain ⟨⟨b, s'⟩, happly, hb, hfollow⟩ :=
    (applyMsg_answers (Q := True) h (fun _ => hsize) msg fun _ _ => hfits).ok_of trivial
  rw [hnote] at hb hfollow
  dsimp only at hb hfollow
  have hfaults := faults_of_follows hfollow
  have hbefore := faults_of_follows h
  have hagrees := agrees_of_follows hfollow mo.call
  rw [hnext] at hagrees
  refine ⟨s', _, ⟨?_, hagrees, ?_, fun msg' hparse' horder hrejected => ?_⟩, hfollow, hnext⟩
  · simp only [Session.applyPayload, hparse, happly, ok_bind]
    rfl
  · rcases faults_treated htreats with ⟨hsame, -⟩ | ⟨hmore, -⟩
    · exact onlyUnknown_of_faults hknown (hfaults.trans (hsame.trans hbefore.symm))
    · rw [← hbefore] at hmore
      exact onlyUnknown_of_faults hknown (hfaults.trans hmore)
  · obtain rfl := Except.ok.inj (hparse'.symm.trans hparse)
    obtain ⟨l, o, hbody⟩ := order_of_isOrder horder
    have hfalse : b = false := congrArg Prod.fst (Except.ok.inj (happly.symm.trans hrejected))
    rcases faults_treated htreats with ⟨-, htrue⟩ | ⟨-, id, htarget, hgone⟩
    · have hread : noteBody mo.call.header mo.call.body = .order l o :=
        (congrArg Note.body hnote).symm.trans hbody
      rw [← hb, hfalse] at htrue
      cases htrue ⟨l, o, hread⟩
    · exact hmade id htarget hgone

/-- A day in a session that follows its markets. -/
theorem replayed_of_turns {cfg : SessionConfig} (hsize : Watching cfg → Reservable cfg.arrayReserve)
    {path : List Moment} {rows : List Truth} (h : Turns Takable markets path rows) :
    ∀ {s : Session} {a : Replay}, Follows cfg s a → OnlyUnknown s.stats → a.marketAt = markets →
      Replayed s path rows := by
  induction h with
  | nil markets =>
    intro s a _ _ _
    exact .nil s
  | cons hturn hlive hrest ih =>
    intro s a hfollow hknown hmarkets
    rw [← hmarkets] at hturn
    obtain ⟨s', a', hstep, hfollow', hmarkets'⟩ := step_of_turn hfollow hsize hknown hturn hlive
    exact .cons hstep (ih hfollow' hstep.known hmarkets')

end Messages

/-! Whole days. -/

/-- The frames of the day, one after the other in a new session, with the rows of the truth. -/
def DayAgrees (fl : Floats) (rng : Rng) (nMsgs : ℕ) (cfg : SynthConfig) (day : SynthDay)
    (session : SessionConfig) : Prop :=
  ∃ g path g', Generator.new fl rng cfg true nMsgs = .ok g ∧ Passage g path g' ∧
    unframe day.bytes = (path.map fun mo => mo.call.payload, []) ∧
    Replayed (.new session) path day.truth

/-- A session agrees with a day after every message, when every order has a price and fits. -/
theorem replay_agrees {fl : Floats} {rng : Rng} {nMsgs : ℕ} {cfg : SynthConfig} {day : SynthDay}
    {session : SessionConfig} (hday : synthItch fl rng nMsgs cfg = .ok day)
    (htakable : ∀ p ∈ placements fl rng nMsgs cfg true, Takable p) (hvalid : ValidSession session)
    (hsize : Watching session → Reservable session.arrayReserve) :
    DayAgrees fl rng nMsgs cfg day session := by
  obtain ⟨g, path, g', hnew, hpath, hbytes, hturns⟩ := day_turns hday htakable
  have hframed : (path.map fun mo => mo.call.framed) =
      (path.map fun mo => mo.call).map Call.framed := by
    rw [List.map_map]
    rfl
  have hunframe : unframe day.bytes = (path.map fun mo => mo.call.payload, []) := by
    rw [hbytes, hframed, unframe_framed, List.map_map]
    rfl
  exact ⟨g, path, g', hnew, hpath, hunframe,
    replayed_of_turns hsize hturns (follows_new hvalid) ⟨rfl, rfl, rfl, rfl, rfl, rfl⟩ rfl⟩

theorem replay_agrees_short : ∃ day, synthItch exactly (List.range 120) 30 shortDay = .ok day ∧
    DayAgrees exactly (List.range 120) 30 shortDay day (watchEvery 64) := by
  have hreturns : panics (synthItch exactly (List.range 120) 30 shortDay) = false := by
    decide +kernel
  obtain ⟨day, hday⟩ := ok_of_not_panics hreturns
  exact ⟨day, hday, replay_agrees hday (by decide +kernel) (watchEvery_valid 64)
    fun _ => reservable_small⟩

/-- Where a day agrees, the session has rejected nothing but references that are not known. -/
theorem onlyUnknown_of_replayed {s : Session} {path : List Moment} {rows : List Truth}
    (h : Replayed s path rows) (hknown : OnlyUnknown s.stats) : ∃ out s',
    run Session.applyPayload s (path.map fun mo => mo.call.payload) = .ok (out, s') ∧
      OnlyUnknown s'.stats := by
  induction h with
  | nil s => exact ⟨[], s, rfl, hknown⟩
  | cons hstep hrest ih =>
    obtain ⟨out, s', hrun, hknown'⟩ := ih hstep.known
    exact ⟨.ok () :: out, s', run_cons_ok hstep.applied hrun, hknown'⟩

/-- Asks down to a mid of two ticks, and there one that crosses by three. -/
def freeDraws : Rng :=
  [0] ++ (List.replicate 23 (askDraws 0 [0])).flatten ++ askDraws 0 [1, 2]

/-- The last ask before the opening has price zero, and the session rejects it. -/
theorem free_ask_rejected : checkArgs exactly 32 crossingAdds = .ok () ∧
    ValidSession watchNone ∧ ¬ Watching watchNone ∧
    ∃ day, synthItch exactly freeDraws 32 crossingAdds = .ok day ∧
      ¬ DayAgrees exactly freeDraws 32 crossingAdds day watchNone := by
  have hrun : (synthItch exactly freeDraws 32 crossingAdds).toOption.any (fun day =>
      (run Session.applyPayload (.new watchNone) (unframe day.bytes).1).toOption.any fun r =>
        r.2.stats.badPrice = 1) = true := by decide +kernel
  obtain ⟨day, hday, hfacts⟩ := ok_of_any hrun
  obtain ⟨r, hpayloads, hbad⟩ := ok_of_any hfacts
  refine ⟨by decide +kernel, watchNone_valid, not_watching_watchNone, day, hday, fun h => ?_⟩
  obtain ⟨g, path, g', -, -, hunframe, hreplayed⟩ := h
  obtain ⟨out, s', hout, hknown⟩ :=
    onlyUnknown_of_replayed hreplayed ⟨rfl, rfl, rfl, rfl, rfl, rfl⟩
  rw [hunframe, hout] at hpayloads
  obtain rfl := Except.ok.inj hpayloads
  have hone := of_decide_eq_true hbad
  rw [hknown.badPrice] at hone
  cases hone

end Lobcore.DayTruths
