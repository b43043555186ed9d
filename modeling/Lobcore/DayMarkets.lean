import Lobcore.DayReferences

/-!
The markets of a day. Every moment of a path is a system event or a deal on the market of one
locate, and its row of the truth shows that market as the deal leaves it. A message for an order
that is not live has a reference that was made up.
-/
namespace Lobcore.DayMarkets

open Checked OrderTypes SortedMaps Markets Payloads TruthBooks Writers RoundTrips Generators
open GeneratorDraws GeneratorDraws.Generator GeneratorBooks DayEvents GeneratorSteps GeneratorRuns
open LiveReferences GeneratorMessages GeneratorPaths GeneratedDays DayPaths DayReferences

/-- The floor of these markets, with the numbers that the generator has come to. -/
def floorOf (g : Generator) (markets : ℕ → Market) : Floor :=
  ⟨markets, g.nextRef, g.nextMatch, 0, .early⟩

/-- The generator keeps the markets, after `sent` messages. -/
def Holds (g : Generator) (markets : ℕ → Market) (sent : ℕ) : Prop :=
  At g (floorOf g markets) sent

/-- Clock and phase are no part of what a generator keeps. -/
theorem holds_of_at {g : Generator} {fl : Floor} {sent : ℕ} (h : At g fl sent) :
    Holds g fl.market sent := by
  obtain ⟨hfew, hplace, hunknown, hkeeps, hnothing, hblank, href, hmatch, href_le, hmatch_le,
    hlive⟩ := h
  rw [← href] at hkeeps href_le
  rw [← hmatch] at hmatch_le
  exact ⟨hfew, hplace, hunknown, hkeeps, hnothing, hblank, rfl, rfl, href_le, hmatch_le, hlive⟩

/-- What a moment does to the markets. -/
inductive Turn (C : Placement → Prop) (markets : ℕ → Market) (mo : Moment) :
    (ℕ → Market) → Prop
  | event {code : UInt8} (hnone : markets 0 = .empty) (hcall : mo.call = systemAt mo.before code) :
      Turn C markets mo markets
  | deal {li next : ℕ} {allowed : Bool} {m : Market}
      (hlocate : mo.call.header.locate.toNat = li + 1)
      (hdeal : Deal C allowed next (markets (li + 1)) mo.call.body m)
      (hmade : ∀ id, target mo.call.body = some id → (markets (li + 1)).home id = none →
        Injected mo.before mo.after) :
      Turn C markets mo (Function.update markets (li + 1) m)

/-- Moments one after the other, with their rows; no market has more orders than 32 bits count. -/
inductive Turns (C : Placement → Prop) : (ℕ → Market) → List Moment → List Truth → Prop
  | nil (markets : ℕ → Market) : Turns C markets [] []
  | cons {markets markets' : ℕ → Market} {mo : Moment} {path : List Moment} {rows : List Truth}
      (hturn : Turn C markets mo markets') (hlive : ∀ l, (markets' l).live < 2 ^ 32)
      (hrest : Turns C markets' path rows) :
      Turns C markets (mo :: path) (rowOf mo.call (markets' mo.call.header.locate.toNat) :: rows)

/-! One message. -/

section Events

variable {g g' : Generator} {markets : ℕ → Market} {sent : ℕ} {code : UInt8}

/-- A system event leaves the markets, and its row is empty. -/
theorem event_holds (h : Holds g markets sent) (hts : g.ts < 2 ^ 48)
    (hrun : g.systemEvent code = .ok g') : Holds g' markets sent ∧
      g'.truth = g.truth.map fun old => old ++ [rowOf (systemAt g code) (markets 0)] := by
  have hts' := toNat_ts_systemAt hts code
  rw [systemEvent_eq hts] at hrun
  obtain rfl := Except.ok.inj hrun
  refine ⟨⟨h.few, h.placeholder, h.unknown, h.keeps, h.nothing, h.blank, rfl, rfl, h.nextRef_le,
    h.nextMatch_le, h.live_le⟩, ?_⟩
  have hempty : markets 0 = .empty := h.nothing 0 (Or.inl rfl)
  rw [hempty, rowOf_empty, hts', ← h.blank]
  rfl

end Events

section Moments

variable {C : Placement → Prop} {mo : Moment} {markets : ℕ → Market} {sent : ℕ}

theorem Plain.sends {g g' : Generator} (h : Holds g markets sent) (hts : g.ts < 2 ^ 48)
    (hsent : sent + 1 < 2 ^ 32) (hplain : Plain g g') :
    (∃ code, g.systemEvent code = .ok g') ∨
      ∃ li c m, Sends False C g (floorOf g markets) sent li c m g' := by
  have hready : Ready False g (floorOf g markets) sent := ⟨h, False.elim, Nat.zero_le _⟩
  cases hplain with
  | event code hrun => exact Or.inl ⟨code, hrun⟩
  | directory li hrun =>
    obtain ⟨l, hl⟩ := directory_found.of_run hrun
    exact Or.inr ⟨li, (directory_returns hready hl hsent hts).of_run hrun⟩
  | action li hrun =>
    obtain ⟨l, hl⟩ := action_found.of_run hrun
    exact Or.inr ⟨li, (action_returns hready hl hsent hts).of_run hrun⟩
  | @uncross li l s id n q hl hhead hpos hle hrun =>
    obtain ⟨px, rest, hlevel, hfind⟩ := (h.keeps li l hl).shows.headOfBest_eq_some hhead
    obtain ⟨c, hsends⟩ := (executeKnown_sends (Q := False) (C := C) h hl hsent hts (Nat.zero_le _)
      False.elim hlevel hfind hpos hle false).of_run hrun
    exact Or.inr ⟨li, c, _, hsends⟩

/-- Every moment is a system event or sends its call on a locate. -/
theorem Moment.sends (h : Holds mo.before markets sent) (hplaces : Places C mo)
    (hsent : sent + 1 < 2 ^ 32) :
    (∃ code, mo.before.systemEvent code = .ok mo.after) ∨
      ∃ li c m, Sends False C mo.before (floorOf mo.before markets) sent li c m mo.after := by
  rcases hplaces with hplain | hC
  · exact Plain.sends h mo.writes.ts_lt hsent hplain
  · cases mo.message with
    | plain hplain => exact Plain.sends h mo.writes.ts_lt hsent hplain
    | step hrun =>
      exact Or.inr ((step_returns h hsent mo.writes.ts_lt (Nat.zero_le _) False.elim False.elim
        hC).of_run hrun)

/-- A call stands behind the output once. -/
theorem sends_call {c : Call} {m : Market} (hts : c.header.ts.toNat = mo.before.ts)
    (hwrote : Wrote mo.before mo.after [(c, rowOf c m)]) : mo.call = c := by
  have hout := mo.writes.out.symm.trans hwrote.out
  simp only [List.map_cons, List.map_nil, List.flatten_singleton] at hout
  have hlt := mo.writes.ts_lt
  exact framed_inj (by rw [mo.writes.ts]; exact hlt) (by rw [hts]; exact hlt)
    (List.append_cancel_left hout)

/-- A message for an order that is not live was made up. -/
theorem Moment.made {li : ℕ} (h : Holds mo.before markets sent) (hstep : InStep mo.before)
    (hli : li < mo.before.locs.length) (hlocate : mo.call.header.locate = .ofNat (li + 1))
    {id : OrderId} (htarget : target mo.call.body = some id)
    (hgone : (markets (li + 1)).home id = none) : Injected mo.before mo.after := by
  rcases mo.cases hstep with ⟨code, hcall, -⟩ | ⟨lj, l, hcall, hemits, haimed⟩
  · rw [hcall] at htarget
    cases htarget
  · refine (haimed.resolve_left fun haimed => ?_).2
    have hfew := h.few.2
    have hlj := hemits.li_lt
    have hsame : UInt16.ofNat (lj + 1) = .ofNat (li + 1) := by
      rw [← hlocate, hcall]
      rfl
    have hnat := congrArg UInt16.toNat hsame
    rw [UInt16.toNat_ofNat_of_lt' hlj, UInt16.toNat_ofNat_of_lt' (show li + 1 < 2 ^ 16 by omega)]
      at hnat
    obtain rfl : lj = li := Nat.succ_inj.mp hnat
    have hkeep := h.keeps lj l hemits.found
    have hlive := (Aimed.strikes (tracks_of_keeps hkeep) haimed htarget).1
    have hhome := (hkeep.live_iff id).mp hlive
    change ((markets (lj + 1)).home id).isSome at hhome
    rw [hgone] at hhome
    cases hhome

/-- A system event. -/
def isEvent : Body → Bool
  | .systemEvent _ => true
  | _ => false

theorem isEvent_of_deal {allowed : Bool} {next : ℕ} {m m' : Market} {body : Body}
    (h : Deal C allowed next m body m') : isEvent body = false := by
  cases body with
  | systemEvent code => exact h.not_systemEvent.elim
  | _ => rfl

/-- A moment turns the markets, and leaves its row. -/
theorem Moment.turns (h : Holds mo.before markets sent) (hstep : InStep mo.before)
    (hplaces : Places C mo) (hsent : sent + 1 < 2 ^ 32) :
    ∃ markets', Turn C markets mo markets' ∧
      Holds mo.after markets' (sent + if isEvent mo.call.body then 0 else 1) ∧
      mo.after.truth = mo.before.truth.map fun old =>
        old ++ [rowOf mo.call (markets' mo.call.header.locate.toNat)] := by
  rcases Moment.sends h hplaces hsent with ⟨code, hrun⟩ | ⟨li, c, m, hsends⟩
  · obtain ⟨hholds, htruth⟩ := event_holds h mo.writes.ts_lt hrun
    obtain ⟨g', hrun', -, hwrites⟩ := systemEvent_writes mo.writes.ts_lt code
    obtain rfl := Except.ok.inj (hrun'.symm.trans hrun)
    have hcall := writes_unique mo.writes hwrites
    have hevent : isEvent mo.call.body = true := by
      rw [hcall]
      rfl
    have hzero : mo.call.header.locate.toNat = 0 := by
      rw [hcall]
      rfl
    refine ⟨markets, .event (h.nothing 0 (Or.inl rfl)) hcall, ?_, ?_⟩
    · rw [hevent]
      exact hholds
    · rw [hzero, hcall]
      exact htruth
  · have hcall := sends_call hsends.ts hsends.wrote
    subst hcall
    have hfew := h.few.2
    have hli := hsends.li_lt
    have hlocate : mo.call.header.locate.toNat = li + 1 := by
      rw [hsends.locate]
      exact UInt16.toNat_ofNat_of_lt' (show li + 1 < 2 ^ 16 by omega)
    have hevent := isEvent_of_deal hsends.deal
    refine ⟨_, .deal hlocate hsends.deal fun id htarget hgone =>
      Moment.made h hstep hsends.li_lt hsends.locate htarget hgone, ?_, ?_⟩
    · rw [hevent]
      exact holds_of_at hsends.stands
    · rw [hlocate, Function.update_self]
      exact hsends.wrote.truth

end Moments

/-! A path. -/

/-- A path turns the markets moment by moment, and its rows stand behind what was there. -/
theorem passage_turns {C : Placement → Prop} {g g' : Generator} {path : List Moment}
    (h : Passage g path g') : ∀ {markets : ℕ → Market} {sent : ℕ}, Holds g markets sent → InStep g →
      (∀ mo ∈ path, Places C mo) →
      sent + path.countP (fun mo => !isEvent mo.call.body) + 1 < 2 ^ 32 →
      ∃ rows, Turns C markets path rows ∧ g'.truth = g.truth.map fun old => old ++ rows := by
  induction h with
  | nil g rng ts =>
    intro markets sent _ _ _ _
    exact ⟨[], .nil markets, by simp⟩
  | @cons g g' mo path rng ts hbefore hrest ih =>
    intro markets sent hholds hstep hplaces hsent
    have hholds' : Holds mo.before markets sent := by
      rw [hbefore]
      exact hholds.withClock rng ts
    have hstep' : InStep mo.before := by
      rw [hbefore]
      exact hstep.of_locs rfl (le_refl _)
    obtain ⟨markets', hturn, hafter, htruth⟩ := Moment.turns hholds' hstep'
      (hplaces mo (List.mem_cons_self ..)) (by omega)
    have hcount : sent + (if isEvent mo.call.body then 0 else 1) + path.countP
        (fun mo => !isEvent mo.call.body) =
        sent + (mo :: path).countP fun mo => !isEvent mo.call.body := by
      rw [List.countP_cons]
      cases isEvent mo.call.body with
      | true => simp
      | false => simp only [Bool.not_false, if_true, Bool.false_eq_true, if_false]; omega
    rw [← hcount] at hsent
    obtain ⟨rows, hturns, hrows⟩ := ih hafter (mo.message.inStep mo.writes.ts_lt hstep')
      (fun mo' hmo' => hplaces mo' (List.mem_cons_of_mem _ hmo')) hsent
    refine ⟨_ :: rows, .cons hturn (fun l => ?_) hturns, ?_⟩
    · have hlive : (markets' l).live ≤ _ := hafter.live_le l
      omega
    · rw [hrows, htruth, hbefore, Option.map_map]
      congr 1
      funext old
      simp

/-- The close of a day is told by system events. -/
theorem countP_tail {tail : List Moment} (h : tail.map (fun mo => entry mo.call) = tailEntries) :
    tail.countP (fun mo => !isEvent mo.call.body) = 0 ∧ tail.length = 3 := by
  have hcount := congrArg (List.countP fun e => !isEvent e.2) h
  have hlen := congrArg List.length h
  rw [List.countP_map] at hcount
  rw [List.length_map] at hlen
  exact ⟨hcount, hlen⟩

/-- A day that is generated turns the markets from empty ones. -/
theorem day_turns {C : Placement → Prop} {fl : Floats} {rng : Rng} {nMsgs : ℕ} {cfg : SynthConfig}
    {day : SynthDay} (hday : synthItch fl rng nMsgs cfg = .ok day)
    (hC : ∀ p ∈ placements fl rng nMsgs cfg true, C p) :
    ∃ g path g', Generator.new fl rng cfg true nMsgs = .ok g ∧ Passage g path g' ∧
      day.bytes = (path.map fun mo => mo.call.framed).flatten ∧
      Turns C (fun _ => .empty) path day.truth := by
  obtain ⟨g, hnew, hrun⟩ := bind_eq_ok.mp hday
  have hbegun := begun_of_new hnew
  obtain ⟨g₀, hnew', -, -, -, -, -, -, hat⟩ := new_ok rng true (check_of_new hnew)
  obtain rfl := Except.ok.inj (hnew'.symm.trans hnew)
  rw [placements, hnew] at hC
  obtain ⟨path, g', hpath, rfl⟩ := (run_path hbegun hC).of_run hrun
  have hmax := hbegun.accepted.max
  have hcount : path.countP (fun mo => !isEvent mo.call.body) + 3 ≤ nMsgs := by
    obtain ⟨stock, heads, mid, tail, hsplit, -, -, htail, -⟩ := hpath.parts
    obtain ⟨hnone, hthree⟩ := countP_tail htail
    have hlen := hpath.length
    have hle := List.countP_le_length (p := fun mo : Moment => !isEvent mo.call.body)
      (l := heads ++ mid)
    rw [hsplit, List.countP_append, hnone, ← hlen, hsplit, List.length_append, hthree]
    omega
  obtain ⟨rows, hturns, htruth⟩ := passage_turns hpath.passes (holds_of_at hat) hbegun.inStep
    hpath.places (by omega)
  refine ⟨g₀, path, g', hnew, hpath.passes, ?_, ?_⟩
  · show g'.out = _
    rw [hpath.passes.out, hbegun.out, List.nil_append]
  · show Turns C _ path (g'.truth.getD [])
    rw [htruth, hbegun.truth, if_pos rfl, Option.map_some, Option.getD_some, List.nil_append]
    exact hturns

end Lobcore.DayMarkets
