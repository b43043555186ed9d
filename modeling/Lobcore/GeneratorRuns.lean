import Lobcore.GeneratorSteps

/-!
Whole runs of the generator: the header, the opening, the loop over the mix and the close. Every
run is a sequence of events from the empty floor on. The rounds of the opening and of the loop
are counted by the messages written, so that a day has as many messages as were asked for.
-/
namespace Lobcore.GeneratorRuns

open Checked OrderTypes SortedMaps Markets Payloads TruthBooks Writers RoundTrips Generators
open GeneratorDraws GeneratorDraws.Generator GeneratorBooks DayEvents GeneratorSteps

/-! The orders of a run. -/

/-- The order of the next step. -/
def placed (g : Generator) : List Placement :=
  match placing g with
  | .ok (some p) => [p]
  | _ => []

/-- The orders that the loop goes to place, up to where it stops. -/
def loopPlacements (budget gapMax : ℕ) : ℕ → Mix → List Placement
  | 0, _ => []
  | fuel + 1, m =>
    if m.emitted < budget then
      match m.ready budget gapMax with
      | .error _ => []
      | .ok m =>
        if budget ≤ m.emitted then [] else placed m.g ++ match m.g.step with
          | .error _ => []
          | .ok g => loopPlacements budget gapMax fuel ⟨g, m.emitted + 1, m.qDone⟩
    else []

/-- The orders that a run goes to place. -/
def runPlacements (g : Generator) (nMsgs : ℕ) : List Placement :=
  let prepared : Exec (ℕ × ℕ × Generator) := do
    let budget ← g.mixBudget nMsgs
    let g ← g.start
    let t0 := g.ts
    let g ← g.header
    return (budget, ← g.gapMax t0 budget, g)
  match prepared with
  | .error _ => []
  | .ok (budget, gapMax, g) => loopPlacements budget gapMax budget ⟨g, 0, false⟩

/-- The orders that a day goes to place, with or without its truth. -/
def placements (fl : Floats) (rng : Rng) (nMsgs : ℕ) (cfg : SynthConfig) (wantTruth : Bool) :
    List Placement :=
  match Generator.new fl rng cfg wantTruth nMsgs with
  | .error _ => []
  | .ok g => runPlacements g nMsgs

/-! Messages one after the other. -/

/-- The generator goes from one floor to another with `n` messages. -/
def Goes (C : Placement → Prop) (g : Generator) (fl : Floor) (n : ℕ) (g' : Generator)
    (fl' : Floor) : Prop :=
  ∃ rows, rows.length = n ∧ Events C g.cfg.crossedPreopen fl rows fl' ∧ Wrote g g' rows

section Goes

variable {Q : Prop} {C : Placement → Prop} {g g' g'' : Generator} {fl fl' fl'' : Floor}

theorem Goes.refl (g : Generator) (fl : Floor) : Goes C g fl 0 g fl :=
  ⟨[], rfl, .nil fl, .refl g⟩

theorem Goes.trans {n n' : ℕ} (h : Goes C g fl n g' fl') (h' : Goes C g' fl' n' g'' fl'') :
    Goes C g fl (n + n') g'' fl'' := by
  obtain ⟨rows, hlen, hevents, hwrote⟩ := h
  obtain ⟨rows', hlen', hevents', hwrote'⟩ := h'
  rw [hwrote.cfg] at hevents'
  exact ⟨rows ++ rows', by rw [List.length_append, hlen, hlen'], hevents.append hevents',
    hwrote.trans hwrote'⟩

/-- The clock and the random source write nothing. -/
theorem Goes.quiet (g : Generator) (fl : Floor) (rng : Rng) (ts : ℕ) :
    Goes C g fl 0 { g with rng, ts } fl :=
  ⟨[], rfl, .nil fl, ⟨rfl, rfl, (Wrote.refl g).out, (Wrote.refl g).truth, rfl,
    (Wrote.refl g).counted⟩⟩

theorem Goes.cfg {n : ℕ} (h : Goes C g fl n g' fl') : g'.cfg = g.cfg := by
  obtain ⟨rows, -, -, hwrote⟩ := h
  exact hwrote.cfg

theorem Goes.length {n : ℕ} (h : Goes C g fl n g' fl') : g'.locs.length = g.locs.length := by
  obtain ⟨rows, -, -, hwrote⟩ := h
  exact hwrote.length

/-- The floor after a message on a locate. -/
def Floor.moved (fl : Floor) (c : Call) (li : ℕ) (m : Market) : Floor :=
  fl.after c (Function.update fl.market (li + 1) m) fl.phase

theorem moved_self (fl : Floor) (c : Call) (li : ℕ) (m : Market) :
    (Floor.moved fl c li m).market (li + 1) = m := Function.update_self ..

theorem moved_ne (fl : Floor) (c : Call) {li j : ℕ} (m : Market) (hj : j ≠ li + 1) :
    (Floor.moved fl c li m).market j = fl.market j := Function.update_of_ne hj ..

/-- Prices may cross only on a day that allows it, and before the opening. -/
def Calm (g : Generator) (fl : Floor) : Prop :=
  g.crossingAllowed = true → g.cfg.crossedPreopen = true ∧ fl.phase = .early

/-- A message on a locate is an event. -/
theorem goes_of_sends {sent li : ℕ} {c : Call} {m : Market} (h : Sends Q C g fl sent li c m g')
    (hfew : g.locs.length < 2 ^ 16) (hphase : fl.phase ≠ .closing) (hcalm : Calm g fl) :
    Goes C g fl 1 g' (Floor.moved fl c li m) := by
  have hlocate : c.header.locate.toNat = li + 1 := by
    rw [h.locate]
    exact UInt16.toNat_ofNat_of_lt' (lt_of_le_of_lt h.li_lt hfew)
  have hne : c.header.locate ≠ 0 := by
    intro hzero
    rw [hzero] at hlocate
    exact absurd hlocate (Nat.succ_ne_zero li).symm
  have hevent : Event C g.cfg.crossedPreopen fl c (Floor.moved fl c li m) := by
    rw [Floor.moved, ← hlocate]
    exact .deal hphase hne hcalm (hlocate.symm ▸ h.deal)
  have hrow : (Floor.moved fl c li m).market c.header.locate.toNat = m := by
    rw [hlocate]
    exact Function.update_self ..
  refine ⟨[(c, rowOf c m)], rfl, ?_, h.wrote⟩
  have hevents := Events.single h.numbered hevent
  rwa [hrow] at hevents

end Goes

/-! The opening. -/

/-- The best level of a side with an order stands before every other of them. -/
theorem best_of_queue {t : TruthBook} {m : Market} (h : t.Shows m) {s : Side} {px : ℤ}
    (hne : m.queue s px ≠ []) : ∃ e ∈ best m s, px = e.1 ∨ Market.better s e.1 px := by
  have hlevels := h.isLevels s
  rw [h.bestFirst_eq] at hlevels
  have hmem := (hlevels.mem_iff (px, m.queue s px)).mpr ⟨rfl, hne⟩
  cases hl : m.levels s with
  | nil =>
    rw [hl] at hmem
    cases hmem
  | cons e rest =>
    refine ⟨(e.1, total e.2), by simp [best, hl], ?_⟩
    rw [hl] at hmem hlevels
    rcases List.mem_cons.mp hmem with rfl | hmem
    · exact Or.inl rfl
    · exact Or.inr ((List.pairwise_cons.mp hlevels.sorted).1 _ hmem)

theorem uncrossed_of_best {t : TruthBook} {m : Market} (h : t.Shows m)
    (hlt : ∀ b ∈ best m .bid, ∀ a ∈ best m .ask, b.1 < a.1) : Uncrossed m := by
  intro b a hb ha
  obtain ⟨eb, heb, hbid⟩ := best_of_queue h hb
  obtain ⟨ea, hea, hask⟩ := best_of_queue h ha
  have := hlt eb heb ea hea
  simp only [Market.better] at hbid hask
  omega

/-- A side with a best level has a head order. -/
theorem head_of_best {t : TruthBook} {m : Market} (h : t.Shows m) {s : Side} {e : ℤ × ℕ}
    (he : e ∈ best m s) : ∃ id n, t.headOfBest s = some (id, n) := by
  obtain ⟨e', hl, -⟩ := Option.map_eq_some_iff.mp he
  have hne := (Market.queue_of_mem_levels (List.mem_of_head? hl)).2
  obtain ⟨e₀, rest, hq⟩ := List.exists_cons_of_ne_nil hne
  exact ⟨e₀.1, e₀.2, by rw [TruthBook.headOfBest, h.bestLevel_eq, hl, Option.bind_some, hq]; rfl⟩

theorem find_of_head {m : Market} (hm : m.Sound) {s : Side} {px : ℤ} {id : OrderId} {n : ℕ}
    {rest : Queue} (hl : (m.levels s).head? = some (px, (id, n) :: rest)) :
    m.find id = some (s, px, n) := by
  have hq : m.queue s px = (id, n) :: rest :=
    (Market.queue_of_mem_levels (List.mem_of_head? hl)).1
  refine Market.find_eq_some.mpr ⟨(hm.home_iff id s px).mpr ?_, ?_⟩
  · rw [hq]
    exact List.mem_cons_self ..
  · rw [hq, remaining, if_pos rfl]

/-- What some rounds of the opening leave. -/
structure Worked (Q : Prop) (C : Placement → Prop) (g : Generator) (fl : Floor)
    (sent budget n : ℕ) (spent : Bool) (n' : ℕ) (g' : Generator) (fl' : Floor) : Prop where
  le : n ≤ n'
  le_budget : n' ≤ budget
  goes : Goes C g fl (n' - n) g' fl'
  stands : At g' fl' (sent + n')
  bounded : Q → ∀ l, Bounded (fl'.market l)
  clock : fl'.clock ≤ g'.ts
  phase : fl'.phase = fl.phase
  ts : g'.ts = g.ts
  spent : spent = true → n' = budget

section Opening

variable {Q : Prop} {C : Placement → Prop} {sent budget : ℕ}

theorem Worked.refl {g : Generator} {fl : Floor} {n : ℕ} {spent : Bool} (hat : At g fl (sent + n))
    (hb : Q → ∀ l, Bounded (fl.market l)) (hclock : fl.clock ≤ g.ts) (hn : n ≤ budget)
    (hspent : spent = true → n = budget) : Worked Q C g fl sent budget n spent n g fl :=
  ⟨le_refl n, hn, by rw [Nat.sub_self]; exact Goes.refl g fl, hat, hb, hclock, rfl, rfl, hspent⟩

theorem Worked.trans {g g' g'' : Generator} {fl fl' fl'' : Floor} {n n' n'' : ℕ}
    {spent spent' : Bool}
    (h : Worked Q C g fl sent budget n spent n' g' fl')
    (h' : Worked Q C g' fl' sent budget n' spent' n'' g'' fl'') :
    Worked Q C g fl sent budget n spent' n'' g'' fl'' where
  le := h.le.trans h'.le
  le_budget := h'.le_budget
  goes := by
    have hsum : n'' - n = (n' - n) + (n'' - n') := by
      have := h.le
      have := h'.le
      omega
    rw [hsum]
    exact h.goes.trans h'.goes
  stands := h'.stands
  bounded := h'.bounded
  clock := h'.clock
  phase := h'.phase.trans h.phase
  ts := h'.ts.trans h.ts
  spent := h'.spent

/-- One half of a pair. -/
theorem half_worked {g g' : Generator} {fl : Floor} {n li : ℕ} {c : Call}
    {m : Market} {spent : Bool}
    (hat : At g fl (sent + n)) (hb : Q → ∀ l, Bounded (fl.market l))
    (hphase : fl.phase ≠ .closing) (hopen : g.cfg.openNs.toNat ≤ g.ts) (hn : n < budget)
    (hspent : spent = true → n + 1 = budget) (h : Sends Q C g fl (sent + n) li c m g') :
    Worked Q C g fl sent budget n spent (n + 1) g' (Floor.moved fl c li m) where
  le := Nat.le_succ n
  le_budget := hn
  goes := by
    rw [Nat.add_sub_cancel_left]
    refine goes_of_sends h hat.few.2 hphase fun hallowed => ?_
    simp [Generator.crossingAllowed, not_lt.mpr hopen] at hallowed
  stands := h.stands
  bounded hQ j := by
    show Bounded (Function.update fl.market (li + 1) m j)
    by_cases hj : j = li + 1
    · rw [hj, Function.update_self]
      exact h.bounded hQ
    · rw [Function.update_of_ne hj]
      exact hb hQ j
  clock := by
    show c.header.ts.toNat ≤ g'.ts
    rw [h.ts, h.clock]
  phase := rfl
  ts := h.clock
  spent := hspent

theorem uncross_returns (li fuel : ℕ) : ∀ {n : ℕ} {g : Generator} {fl : Floor},
    budget < n + fuel → n ≤ budget → sent + budget < 2 ^ 32 → li < g.locs.length →
    At g fl (sent + n) → g.ts < 2 ^ 48 → fl.clock ≤ g.ts → g.cfg.openNs.toNat ≤ g.ts →
    fl.phase ≠ .closing → (Q → ∀ l, Bounded (fl.market l)) →
    Returns Q (fun out => ∃ fl', Worked Q C g fl sent budget n out.1 out.2.1 out.2.2 fl' ∧
      (∀ j, j ≠ li + 1 → fl'.market j = fl.market j) ∧
      (out.1 = false → Uncrossed (fl'.market (li + 1))))
        (Generator.uncross li budget fuel n g) := by
  induction fuel with
  | zero =>
    intro n g fl hfuel hn
    omega
  | succ fuel ih =>
    intro n g fl hfuel hn hsent hli hat hts hclock hopen hphase hb
    obtain ⟨l, hl⟩ : ∃ l, g.locs[li]? = some l := ⟨_, List.getElem?_eq_getElem hli⟩
    have hk := hat.keeps li l hl
    simp only [Generator.uncross, index_ok hl, ok_bind]
    refine (hk.shows.quote_returns (fun hQ => hb hQ (li + 1)) .bid).bind fun bestBid hbid => ?_
    refine (hk.shows.quote_returns (fun hQ => hb hQ (li + 1)) .ask).bind fun bestAsk hask => ?_
    obtain ⟨hbid, -⟩ := hbid
    obtain ⟨hask, -⟩ := hask
    have hdone : (∀ b ∈ bestBid, ∀ a ∈ bestAsk, b.1 < a.1) →
        Returns Q (fun out => ∃ fl', Worked Q C g fl sent budget n out.1 out.2.1 out.2.2 fl' ∧
          (∀ j, j ≠ li + 1 → fl'.market j = fl.market j) ∧
          (out.1 = false → Uncrossed (fl'.market (li + 1)))) (.ok (false, n, g)) := by
      intro hlt
      subst hbid hask
      exact Returns.of_ok ⟨fl, Worked.refl hat hb hclock hn fun h => (by cases h), fun _ _ => rfl,
        fun _ => uncrossed_of_best hk.shows hlt⟩
    cases bestBid with
    | none => exact hdone fun b hb => by cases hb
    | some eb =>
      cases bestAsk with
      | none => exact hdone fun b _ a ha => by cases ha
      | some ea =>
        obtain ⟨bb, nb⟩ := eb
        obtain ⟨ba, na⟩ := ea
        by_cases hlt : bb < ba
        · simp only [if_pos hlt]
          refine hdone fun b hb a ha => ?_
          obtain rfl := Option.some.inj hb
          obtain rfl := Option.some.inj ha
          exact hlt
        · obtain ⟨hb', qb, hheadb⟩ := head_of_best hk.shows hbid.symm
          obtain ⟨ha', qa, hheada⟩ := head_of_best hk.shows hask.symm
          obtain ⟨pb, restb, hlevelb, hfindb⟩ := hk.shows.headOfBest_eq_some hheadb
          obtain ⟨pa, resta, hlevela, hfinda⟩ := hk.shows.headOfBest_eq_some hheada
          have hqb := hk.shows.sound.held_pos hfindb
          have hqa := hk.shows.sound.held_pos hfinda
          simp only [if_neg hlt, hheadb, hheada, expect_some, ok_bind]
          by_cases hfull : budget ≤ n
          · rw [if_pos hfull]
            exact Returns.of_ok ⟨fl, Worked.refl hat hb hclock hn fun _ => le_antisymm hn hfull,
              fun _ _ => rfl, fun h => by cases h⟩
          · rw [if_neg hfull]
            refine (executeKnown_sends (C := C) hat hl (by omega) hts hclock hb hlevelb hfindb
              (lt_min hqb hqa) (min_le_left qb qa) false).bind fun g₁ h₁ => ?_
            obtain ⟨c₁, h₁⟩ := h₁
            have hn₁ := not_le.mp hfull
            have hself₁ := moved_self fl c₁ li
              ((fl.market (li + 1)).take hb' .bid pb (qb - min qb qa))
            by_cases hfull₁ : budget ≤ n + 1
            · rw [if_pos hfull₁]
              exact Returns.of_ok ⟨_, half_worked hat hb hphase hopen hn₁ (fun _ => by omega) h₁,
                fun j hj => moved_ne fl c₁ _ hj, fun h => by cases h⟩
            · rw [if_neg hfull₁]
              have hw₁ := half_worked hat hb hphase hopen hn₁
                (fun h : false = true => by cases h) h₁
              obtain ⟨l₁, hl₁⟩ : ∃ l₁, g₁.locs[li]? = some l₁ :=
                ⟨_, List.getElem?_eq_getElem (by rw [hw₁.goes.length]; exact hli)⟩
              have hk₁ := hw₁.stands.keeps li l₁ hl₁
              have hasks : ((fl.market (li + 1)).take hb' .bid pb (qb - min qb qa)).queue .ask =
                  (fl.market (li + 1)).queue .ask := by
                funext px
                simp [Market.take, Market.setQueue]
              have hlevela₁ := hlevela
              rw [← Market.levels_congr hasks, ← hself₁] at hlevela₁
              have hopen₁ : g₁.cfg.openNs.toNat ≤ g₁.ts := by rw [hw₁.goes.cfg, hw₁.ts]; exact hopen
              have hphase₁ : (Floor.moved fl c₁ li ((fl.market (li + 1)).take hb' .bid pb
                  (qb - min qb qa))).phase ≠ .closing := hphase
              refine (executeKnown_sends (C := C) hw₁.stands hl₁ (by omega)
                (by rw [hw₁.ts]; exact hts)
                hw₁.clock hw₁.bounded hlevela₁ (find_of_head hk₁.shows.sound hlevela₁)
                (lt_min hqb hqa) (min_le_right qb qa) false).bind fun g₂ h₂ => ?_
              obtain ⟨c₂, h₂⟩ := h₂
              have hw₂ := half_worked hw₁.stands hw₁.bounded hphase₁ hopen₁ (not_le.mp hfull₁)
                (fun h : false = true => by cases h) h₂
              have hw := hw₁.trans hw₂
              refine (ih (by omega) hw.le_budget hsent (by rw [hw.goes.length]; exact hli) hw.stands
                (by rw [hw.ts]; exact hts) hw.clock (by rw [hw.goes.cfg, hw.ts]; exact hopen)
                (by rw [hw.phase]; exact hphase) hw.bounded).mono fun out h => ?_
              obtain ⟨fl', hrest, hother, huncrossed⟩ := h
              refine ⟨fl', hw.trans hrest, fun j hj => ?_, huncrossed⟩
              rw [hother j hj, moved_ne _ c₂ _ hj, moved_ne _ c₁ _ hj]

/-- The rounds on every locate of a list. -/
theorem uncrossAll_returns (lis : List ℕ) : ∀ {n : ℕ} {g : Generator} {fl : Floor}, lis.Nodup →
    (∀ li ∈ lis, li < g.locs.length) → n ≤ budget → sent + budget < 2 ^ 32 →
    At g fl (sent + n) → g.ts < 2 ^ 48 → fl.clock ≤ g.ts → g.cfg.openNs.toNat ≤ g.ts →
    fl.phase ≠ .closing → (Q → ∀ l, Bounded (fl.market l)) →
    Returns Q (fun out => ∃ fl', Worked Q C g fl sent budget n false out.1 out.2 fl' ∧
      (∀ j, (∀ li ∈ lis, j ≠ li + 1) → fl'.market j = fl.market j) ∧
      (out.1 < budget → ∀ li ∈ lis, Uncrossed (fl'.market (li + 1))))
      (Generator.uncrossAll budget lis n g) := by
  induction lis with
  | nil =>
    intro n g fl _ _ hn _ hat _ hclock _ _ hb
    exact Returns.of_ok ⟨fl, Worked.refl hat hb hclock hn fun h => (by cases h), fun _ _ => rfl,
      fun _ li hli => by cases hli⟩
  | cons li lis ih =>
    intro n g fl hnodup hlis hn hsent hat hts hclock hopen hphase hb
    obtain ⟨hout, hnodup'⟩ := List.nodup_cons.mp hnodup
    simp only [Generator.uncrossAll]
    refine (uncross_returns (C := C) li (budget + 1) (by omega) hn hsent
      (hlis li (List.mem_cons_self ..)) hat hts hclock hopen hphase hb).bind fun out hout' => ?_
    obtain ⟨spent, n', g'⟩ := out
    obtain ⟨fl', hw, hother, huncrossed⟩ := hout'
    cases spent with
    | true =>
      have hfull := hw.spent rfl
      refine Returns.of_ok ⟨fl', ⟨hw.le, hw.le_budget, hw.goes, hw.stands, hw.bounded, hw.clock,
        hw.phase, hw.ts, fun h => by cases h⟩, fun j hj => hother j (hj li (List.mem_cons_self ..)),
        fun hlt => ?_⟩
      dsimp only at hlt hfull
      omega
    | false =>
      refine (ih hnodup' (fun lj hlj => ?_) hw.le_budget hsent hw.stands (by rw [hw.ts]; exact hts)
        hw.clock (by rw [hw.goes.cfg, hw.ts]; exact hopen) (by rw [hw.phase]; exact hphase)
        hw.bounded).mono fun out h => ?_
      · rw [hw.goes.length]
        exact hlis lj (List.mem_cons_of_mem _ hlj)
      · obtain ⟨fl'', hw', hother', huncrossed'⟩ := h
        refine ⟨fl'', hw.trans hw', fun j hj => ?_, fun hlt lj hlj => ?_⟩
        · rw [hother' j fun lk hlk => hj lk (List.mem_cons_of_mem _ hlk),
            hother j (hj li (List.mem_cons_self ..))]
        · rcases List.mem_cons.mp hlj with rfl | hlj
          · rw [hother' (lj + 1) fun lk hlk heq => hout (Nat.succ_inj.mp heq ▸ hlk)]
            exact huncrossed rfl
          · exact huncrossed' hlt lj hlj

end Opening

/-! System events. -/

/-- The generator keeps the floor after `sent` messages, and its clock is not behind. -/
structure Ready (Q : Prop) (g : Generator) (fl : Floor) (sent : ℕ) : Prop where
  stands : At g fl sent
  bounded : Q → ∀ l, Bounded (fl.market l)
  clock : fl.clock ≤ g.ts

theorem levels_empty (s : Side) : Market.empty.levels s = [] := by
  rw [← TruthBook.shows_new.bestFirst_eq]
  cases s <;> rfl

/-- The row beside a system event. -/
theorem rowOf_empty (c : Call) : rowOf c .empty =
    ⟨c.header.ts.toNat, c.header.locate, none, none, [0, 0, 0, 0, 0], [0, 0, 0, 0, 0], 0,
      Market.empty.stateBytes⟩ := by
  simp only [rowOf, best, five, levels_empty, Market.live_empty]
  rfl

/-- The call of a system event. -/
def systemAt (g : Generator) (code : UInt8) : Call :=
  ⟨⟨0, g.tracking, .ofNat g.ts⟩, .systemEvent code⟩

section Events

variable {Q : Prop} {C : Placement → Prop} {g : Generator} {fl : Floor} {sent : ℕ}

theorem toNat_ts_systemAt (hts : g.ts < 2 ^ 48) (code : UInt8) :
    (systemAt g code).header.ts.toNat = g.ts :=
  UInt64.toNat_ofNat_of_lt' (lt_trans hts (by decide))

/-- A system event writes its call, and a row with nothing in it. -/
theorem systemEvent_eq (hts : g.ts < 2 ^ 48) (code : UInt8) : g.systemEvent code = .ok { g with
    tracking := g.tracking + 1
    out := g.out ++ (systemAt g code).framed
    truth := g.truth.map fun rows => rows ++
      [⟨g.ts, 0, none, none, [0, 0, 0, 0, 0], [0, 0, 0, 0, 0], 0, g.emptyBytes⟩] } := by
  have hwrite : ∀ out, Writers.systemEvent out ⟨0, g.tracking, .ofNat g.ts⟩ code =
      (systemAt g code).write out := fun _ => rfl
  have hlt : (systemAt g code).header.ts.toNat < 2 ^ 48 := (toNat_ts_systemAt hts code).trans_lt hts
  simp only [Generator.systemEvent, write_call hwrite hlt, ok_bind, pure_eq_ok]

theorem systemEvent_goes (h : Ready Q g fl sent) (hts : g.ts < 2 ^ 48) {code : UInt8}
    {phase : Phase} (hrings : Rings fl code phase) : ∃ g' fl', g.systemEvent code = .ok g' ∧
      Goes C g fl 1 g' fl' ∧ Ready Q g' fl' (sent + 1) ∧ g'.ts = g.ts ∧ fl'.phase = phase := by
  obtain ⟨hat, hb, hclock⟩ := h
  have hts' := toNat_ts_systemAt hts code
  have hnumbered : Numbered fl (systemAt g code) := by
    refine ⟨by rw [hts']; exact hts, by rw [hts']; exact hclock, fun r hr => ?_, fun n hn => ?_⟩
    · cases hr
    · cases hn
  have hmarket : fl.market (systemAt g code).header.locate.toNat = .empty :=
    hat.nothing 0 (Or.inl rfl)
  have hrow : rowOf (systemAt g code) (fl.market (systemAt g code).header.locate.toNat) =
      ⟨g.ts, 0, none, none, [0, 0, 0, 0, 0], [0, 0, 0, 0, 0], 0, g.emptyBytes⟩ := by
    rw [hmarket, rowOf_empty, hts', hat.blank]
    rfl
  have hevents := Events.single hnumbered
    (show Event C g.cfg.crossedPreopen fl _ _ from .system rfl rfl hrings)
  rw [systemEvent_eq hts]
  refine ⟨_, fl.after (systemAt g code) fl.market phase, rfl, ⟨_, rfl, hevents,
    rfl, rfl, by simp, ?_, rfl, fun _ p hp e he => ?_⟩,
    ⟨⟨hat.few, hat.placeholder, hat.unknown, hat.keeps, hat.nothing, hat.blank, hat.nextRef,
      hat.nextMatch, Nat.le_succ_of_le hat.nextRef_le, Nat.le_succ_of_le hat.nextMatch_le,
      fun l => Nat.le_succ_of_le (hat.live_le l)⟩, hb, hts'.le⟩, rfl, rfl⟩
  · show g.truth.map _ = g.truth.map _
    congr 1
    funext old
    exact congrArg (fun row => old ++ [row]) hrow.symm
  · obtain rfl := List.mem_singleton.mp hp
    have hnone : best (fl.market (systemAt g code).header.locate.toNat) .bid = none := by
      rw [hmarket, best, levels_empty]
      rfl
    have he' : e ∈ best (fl.market (systemAt g code).header.locate.toNat) .bid := he
    rw [hnone] at he'
    cases he'

theorem uncrossed_empty : Uncrossed .empty := fun _ _ hb => absurd rfl hb

/-- The opening leaves every market uncrossed, or it has used up the messages that it may write. -/
theorem openMarket_returns {budget : ℕ} (h : Ready Q g fl sent) (hphase : fl.phase = .early)
    (hopen : g.cfg.openNs.toNat ≤ g.ts) (hts : g.ts < 2 ^ 48) (hsent : sent + budget < 2 ^ 32) :
    Returns Q (fun out => ∃ fl', out.1 ≤ budget ∧ Goes C g fl (out.1 + 1) out.2 fl' ∧
      Ready Q out.2 fl' (sent + out.1 + 1) ∧ out.2.ts = g.ts ∧
      (fl'.phase = .trading ∨ out.1 = budget ∧ fl'.phase = .closing)) (g.openMarket budget) := by
  have hne : fl.phase ≠ .closing := by
    rw [hphase]
    intro heq
    cases heq
  have hlis : ∀ li ∈ List.range g.locs.length, li < g.locs.length := fun li => List.mem_range.mp
  simp only [Generator.openMarket]
  refine (uncrossAll_returns (C := C) (n := 0) _ List.nodup_range hlis (Nat.zero_le budget) hsent
    h.stands hts h.clock hopen hne h.bounded).bind fun out hout => ?_
  obtain ⟨n, g'⟩ := out
  obtain ⟨fl', hw, -, huncrossed⟩ := hout
  have hgoes := hw.goes
  rw [Nat.sub_zero] at hgoes
  have hready : Ready Q g' fl' (sent + n) := ⟨hw.stands, hw.bounded, hw.clock⟩
  have hphase' := hw.phase.trans hphase
  obtain ⟨phase, hrings, hend⟩ : ∃ phase, Rings fl' 81 phase ∧
      (phase = .trading ∨ n = budget ∧ phase = .closing) := by
    rcases Nat.lt_or_eq_of_le hw.le_budget with hlt | heq
    · refine ⟨.trading, .opening hphase' fun l => ?_, Or.inl rfl⟩
      by_cases hl : l = 0 ∨ g'.locs.length < l
      · rw [hw.stands.nothing l hl]
        exact uncrossed_empty
      · obtain ⟨li, rfl⟩ := Nat.exists_eq_succ_of_ne_zero fun hzero => hl (Or.inl hzero)
        refine huncrossed hlt li (List.mem_range.mpr ?_)
        have hlen : g'.locs.length = g.locs.length := hw.goes.length
        have hlt := (not_or.mp hl).2
        omega
    · exact ⟨.closing, .last hphase', Or.inr ⟨heq, rfl⟩⟩
  obtain ⟨g'', fl'', hevent, hgoes', hready', hts', hphase''⟩ :=
    systemEvent_goes (C := C) hready (by rw [hw.ts]; exact hts) hrings
  rw [hevent]
  refine Returns.of_ok ⟨fl'', hw.le_budget, hgoes.trans hgoes', hready', hts'.trans hw.ts, ?_⟩
  rw [hphase'']
  exact hend

end Events

/-! The loop. -/

/-- What the loop keeps, with `base` messages in front of it. -/
structure Mixing (Q : Prop) (budget base : ℕ) (m : Mix) (fl : Floor) : Prop where
  ready : Ready Q m.g fl (base + m.emitted + m.qDone.toNat)
  emitted : m.emitted ≤ budget
  ts_lt : m.g.ts < m.g.cfg.closeNs.toNat
  early : m.qDone = false → fl.phase = .early ∧ m.g.ts ≤ m.g.cfg.openNs.toNat
  late : m.qDone = true → m.g.cfg.openNs.toNat ≤ m.g.ts ∧
    (fl.phase = .trading ∨ budget ≤ m.emitted ∧ fl.phase = .closing)

section Loop

variable {Q : Prop} {C : Placement → Prop} {budget base gapMax : ℕ}

theorem advanceClock_ok {g : Generator} (hts : g.ts < 2 ^ 48) (hgap : gapMax < 2 ^ 63) :
    ∃ rng gap, g.advanceClock gapMax = .ok { g with
      rng, ts := min (g.ts + gap) (g.cfg.closeNs.toNat - 1) } := by
  obtain ⟨gap, rng, hdraw, -, hlt⟩ := randomRange_ok g (Nat.succ_pos gapMax)
  refine ⟨rng, gap, ?_⟩
  have hsum : addU64 g.ts gap = .ok (g.ts + gap) := addU64_ok (by omega)
  simp only [Generator.advanceClock, hdraw, ok_bind, hsum, pure_eq_ok]

/-- A round of the loop up to its step. -/
theorem ready_returns {m : Mix} {fl : Floor} (h : Mixing Q budget base m fl)
    (hclose : m.g.cfg.closeNs.toNat < 2 ^ 48)
    (hopen : m.g.cfg.openNs.toNat < m.g.cfg.closeNs.toNat) (hgap : gapMax < 2 ^ 63)
    (hsize : base + budget + 4 ≤ 2 ^ 32) : Returns Q (fun m' => ∃ fl' k, Goes C m.g fl k m'.g fl' ∧
      Mixing Q budget base m' fl' ∧ m.emitted ≤ m'.emitted ∧
      m'.emitted + m'.qDone.toNat = m.emitted + m.qDone.toNat + k ∧
      (m'.qDone = false → m'.g.ts < m'.g.cfg.openNs.toNat)) (m.ready budget gapMax) := by
  obtain ⟨⟨hat, hb, hclock⟩, hemitted, hlt, hearly, hlate⟩ := h
  obtain ⟨rng, gap, hadvance⟩ := advanceClock_ok (hlt.trans hclose) hgap
  obtain ⟨ts, hts⟩ : ∃ ts, ts = min (m.g.ts + gap) (m.g.cfg.closeNs.toNat - 1) := ⟨_, rfl⟩
  have hle : m.g.ts ≤ ts := by
    rw [hts]
    exact le_min (Nat.le_add_right ..) (Nat.le_sub_one_of_lt hlt)
  have hts_lt : ts < m.g.cfg.closeNs.toNat := by
    rw [hts]
    have := min_le_right (m.g.ts + gap) (m.g.cfg.closeNs.toNat - 1)
    omega
  rw [← hts] at hadvance
  simp only [Mix.ready, hadvance, ok_bind]
  by_cases hdue : (!m.qDone && decide (m.g.cfg.openNs.toNat ≤ ts)) = true
  · have hq : m.qDone = false := by simpa using (Bool.and_eq_true_iff.mp hdue).1
    have hopened : m.g.cfg.openNs.toNat ≤ ts := of_decide_eq_true (Bool.and_eq_true_iff.mp hdue).2
    obtain ⟨hphase, hbefore⟩ := hearly hq
    rw [hq] at hat
    have hready : Ready Q { m.g with rng, ts := m.g.cfg.openNs.toNat } fl (base + m.emitted) :=
      ⟨hat.withClock rng _, hb, hclock.trans hbefore⟩
    simp only [if_pos hdue, subU_ok hemitted, ok_bind]
    refine (openMarket_returns (C := C) hready hphase (le_refl _) (hopen.trans hclose)
      (by omega)).bind fun out hout => ?_
    obtain ⟨n, g'⟩ := out
    obtain ⟨fl', hn, hgoes, hready', hstill, hend⟩ := hout
    dsimp only at hn hgoes hready' hstill hend
    have hsum : addU64 m.emitted n = .ok (m.emitted + n) := addU64_ok (by omega)
    have hcfg : g'.cfg = m.g.cfg := hgoes.cfg
    simp only [hsum, ok_bind, pure_eq_ok]
    have hfull : Goes C m.g fl (n + 1) { g' with ts } fl' := by
      have hsteps := ((Goes.quiet m.g fl rng m.g.cfg.openNs.toNat).trans hgoes).trans
        (Goes.quiet g' fl' g'.rng ts)
      rwa [Nat.zero_add] at hsteps
    have hstands : At { g' with ts } fl' (base + (m.emitted + n) + 1) := by
      rw [← Nat.add_assoc]
      exact hready'.stands.withClock g'.rng ts
    have hbehind : fl'.clock ≤ ts := by
      have hbehind := hready'.clock
      rw [hstill] at hbehind
      exact hbehind.trans hopened
    refine Returns.of_ok ⟨fl', n + 1, hfull, ⟨⟨hstands, hready'.bounded, hbehind⟩, ?_, ?_, ?_,
      fun _ => ⟨?_, ?_⟩⟩, ?_, ?_, ?_⟩
    · show m.emitted + n ≤ budget
      omega
    · show ts < g'.cfg.closeNs.toNat
      rw [hcfg]
      exact hts_lt
    · intro h
      cases h
    · show g'.cfg.openNs.toNat ≤ ts
      rw [hcfg]
      exact hopened
    · rcases hend with htrading | ⟨hn', hclosing⟩
      · exact Or.inl htrading
      · refine Or.inr ⟨?_, hclosing⟩
        show budget ≤ m.emitted + n
        omega
    · exact Nat.le_add_right ..
    · rw [hq]
      show m.emitted + n + 1 = m.emitted + 0 + (n + 1)
      omega
    · intro h
      cases h
  · rw [if_neg hdue]
    have hbefore : m.qDone = false → ts < m.g.cfg.openNs.toNat := by
      intro hq
      rw [hq, Bool.not_false, Bool.true_and, decide_eq_true_eq] at hdue
      exact not_le.mp hdue
    refine Returns.of_ok ⟨fl, 0, Goes.quiet m.g fl rng ts, ⟨⟨hat.withClock rng ts, hb,
      hclock.trans hle⟩, hemitted, hts_lt, fun hq => ⟨(hearly hq).1, (hbefore hq).le⟩,
      fun hq => ⟨(hlate hq).1.trans hle, (hlate hq).2⟩⟩, le_refl _, rfl, hbefore⟩

theorem Mixing.phase_ne {m : Mix} {fl : Floor} (h : Mixing Q budget base m fl)
    (hlt : m.emitted < budget) : fl.phase ≠ .closing := by
  intro hphase
  cases hq : m.qDone with
  | false =>
    rw [(h.early hq).1] at hphase
    cases hphase
  | true =>
    rcases (h.late hq).2 with htrading | ⟨hle, -⟩
    · rw [htrading] at hphase
      cases hphase
    · omega

theorem Mixing.calm {m : Mix} {fl : Floor} (h : Mixing Q budget base m fl) : Calm m.g fl := by
  intro hallowed
  obtain ⟨hcrossed, hbefore⟩ := Bool.and_eq_true_iff.mp hallowed
  refine ⟨hcrossed, ?_⟩
  cases hq : m.qDone with
  | false => exact (h.early hq).1
  | true => exact absurd (h.late hq).1 (not_le.mpr (of_decide_eq_true hbefore))

/-- The step of a round. -/
theorem Mixing.step {m : Mix} {fl : Floor} (h : Mixing Q budget base m fl)
    (hlt : m.emitted < budget) (hbefore : m.qDone = false → m.g.ts < m.g.cfg.openNs.toNat)
    {li : ℕ} {c : Call} {m' : Market} {g : Generator}
    (hsends : Sends Q C m.g fl (base + m.emitted + m.qDone.toNat) li c m' g) :
    Goes C m.g fl 1 g (Floor.moved fl c li m') ∧
      Mixing Q budget base ⟨g, m.emitted + 1, m.qDone⟩ (Floor.moved fl c li m') := by
  have hgoes := goes_of_sends hsends h.ready.stands.few.2 (h.phase_ne hlt) h.calm
  have hcfg := hgoes.cfg
  refine ⟨hgoes, ⟨?_, fun hQ j => ?_, ?_⟩, hlt, ?_, fun hq => ⟨(h.early hq).1, ?_⟩,
    fun hq => ⟨?_, ?_⟩⟩
  · have hstands := hsends.stands
    have hsum : base + (m.emitted + 1) + m.qDone.toNat = base + m.emitted + m.qDone.toNat + 1 := by
      omega
    show At g (Floor.moved fl c li m') (base + (m.emitted + 1) + m.qDone.toNat)
    rw [hsum]
    exact hstands
  · by_cases hj : j = li + 1
    · rw [hj, moved_self]
      exact hsends.bounded hQ
    · rw [moved_ne _ c m' hj]
      exact h.ready.bounded hQ j
  · show c.header.ts.toNat ≤ g.ts
    rw [hsends.ts, hsends.clock]
  · show g.ts < g.cfg.closeNs.toNat
    rw [hsends.clock, hcfg]
    exact h.ts_lt
  · show g.ts ≤ g.cfg.openNs.toNat
    rw [hsends.clock, hcfg]
    exact (hbefore hq).le
  · show g.cfg.openNs.toNat ≤ g.ts
    rw [hsends.clock, hcfg]
    exact (h.late hq).1
  · rcases (h.late hq).2 with htrading | ⟨hle, -⟩
    · exact Or.inl htrading
    · omega

/-- The loop writes messages up to its budget. -/
theorem loop_returns (hfit : Q → ∀ p, C p → p.Fits) (hgap : gapMax < 2 ^ 63)
    (hsize : base + budget + 4 ≤ 2 ^ 32) (fuel : ℕ) : ∀ {m : Mix} {fl : Floor},
    budget ≤ m.emitted + fuel → Mixing Q budget base m fl → m.g.cfg.closeNs.toNat < 2 ^ 48 →
    m.g.cfg.openNs.toNat < m.g.cfg.closeNs.toNat →
    (∀ p ∈ loopPlacements budget gapMax fuel m, C p) →
    Returns Q (fun m' => ∃ fl' k, Goes C m.g fl k m'.g fl' ∧ Mixing Q budget base m' fl' ∧
      m'.emitted = budget ∧ m'.emitted + m'.qDone.toNat = m.emitted + m.qDone.toNat + k)
      (Mix.loop budget gapMax fuel m) := by
  induction fuel with
  | zero =>
    intro m fl hfuel h _ _ _
    have hfull : m.emitted = budget := le_antisymm h.emitted hfuel
    rw [Mix.loop, if_neg (by omega)]
    exact Returns.of_ok ⟨fl, 0, Goes.refl m.g fl, h, hfull, rfl⟩
  | succ fuel ih =>
    intro m fl hfuel h hclose hopen hC
    rw [Mix.loop]
    rw [loopPlacements] at hC
    by_cases hlt : m.emitted < budget
    · rw [if_pos hlt] at hC ⊢
      refine (ready_returns (C := C) h hclose hopen hgap hsize).with_eq.bind fun m₁ h₁ => ?_
      obtain ⟨heq, fl₁, k₁, hgoes₁, hmix₁, hle, hcount₁, hbefore⟩ := h₁
      simp only [heq] at hC
      by_cases hfull : budget ≤ m₁.emitted
      · rw [if_pos hfull]
        exact Returns.of_ok ⟨fl₁, k₁, hgoes₁, hmix₁, le_antisymm hmix₁.emitted hfull, hcount₁⟩
      · rw [if_neg hfull] at hC ⊢
        have hlt₁ := not_le.mp hfull
        have hcfg₁ := hgoes₁.cfg
        have hplaced : ∀ p, placing m₁.g = .ok (some p) → C p := by
          intro p hp
          refine hC p (List.mem_append_left _ ?_)
          rw [placed, hp]
          exact List.mem_singleton_self p
        have hq : m₁.qDone.toNat ≤ 1 := Bool.toNat_le m₁.qDone
        have hts : m₁.g.ts < 2 ^ 48 := by
          have hlt := hmix₁.ts_lt
          rw [hcfg₁] at hlt
          exact hlt.trans hclose
        refine (step_returns hmix₁.ready.stands (by omega) hts hmix₁.ready.clock
          hmix₁.ready.bounded hfit hplaced).with_eq.bind fun g₂ h₂ => ?_
        obtain ⟨heq₂, li, c, m', hsends⟩ := h₂
        obtain ⟨hgoes₂, hmix₂⟩ := hmix₁.step hlt₁ hbefore hsends
        have hcfg₂ : g₂.cfg = m.g.cfg := hgoes₂.cfg.trans hcfg₁
        refine (ih (m := ⟨g₂, m₁.emitted + 1, m₁.qDone⟩) ?_ hmix₂ ?_ ?_ fun p hp => ?_).mono
          fun m₃ h₃ => ?_
        · show budget ≤ m₁.emitted + 1 + fuel
          omega
        · show g₂.cfg.closeNs.toNat < 2 ^ 48
          rw [hcfg₂]
          exact hclose
        · show g₂.cfg.openNs.toNat < g₂.cfg.closeNs.toNat
          rw [hcfg₂]
          exact hopen
        · refine hC p (List.mem_append_right _ ?_)
          simp only [heq₂]
          exact hp
        · obtain ⟨fl₃, k₃, hgoes₃, hmix₃, hfull₃, hcount₃⟩ := h₃
          refine ⟨fl₃, k₁ + 1 + k₃, (hgoes₁.trans hgoes₂).trans hgoes₃, hmix₃, hfull₃, ?_⟩
          rw [hcount₃]
          dsimp only
          omega
    · rw [if_neg hlt]
      have hfull : m.emitted = budget := le_antisymm h.emitted (not_lt.mp hlt)
      exact Returns.of_ok ⟨fl, 0, Goes.refl m.g fl, h, hfull, rfl⟩

end Loop

/-! The header. -/

section Header

variable {Q : Prop} {C : Placement → Prop}

/-- A call on each locate of a list, of one message each. -/
theorem each_returns {f : Generator → ℕ → Exec Generator}
    (hf : ∀ {g : Generator} {fl : Floor} {sent li : ℕ} {l : Locate}, Ready Q g fl sent →
      g.locs[li]? = some l → sent + 1 < 2 ^ 32 → g.ts < 2 ^ 48 → Sent Q C g fl sent li (f g li))
    (lis : List ℕ) : ∀ {g : Generator} {fl : Floor} {sent : ℕ},
    (∀ li ∈ lis, li < g.locs.length) → Ready Q g fl sent → fl.phase = .early →
    g.ts < 2 ^ 48 → sent + lis.length < 2 ^ 32 →
    Returns Q (fun g' => ∃ fl', Goes C g fl lis.length g' fl' ∧ Ready Q g' fl' (sent + lis.length) ∧
      g'.ts = g.ts ∧ fl'.phase = .early) (lis.foldlM f g) := by
  induction lis with
  | nil =>
    intro g fl sent _ h hphase _ _
    exact Returns.of_ok ⟨fl, Goes.refl g fl, h, rfl, hphase⟩
  | cons li lis ih =>
    intro g fl sent hlis h hphase hts hsent
    rw [List.length_cons] at hsent
    have hli := hlis li (List.mem_cons_self ..)
    have hne : fl.phase ≠ .closing := by
      rw [hphase]
      intro heq
      cases heq
    have hcalm : Calm g fl := fun hallowed => ⟨(Bool.and_eq_true_iff.mp hallowed).1, hphase⟩
    rw [List.foldlM_cons]
    refine (hf h (List.getElem?_eq_getElem hli) (by omega) hts).bind fun g₁ h₁ => ?_
    obtain ⟨c, m, hsends⟩ := h₁
    have hgoes := goes_of_sends hsends h.stands.few.2 hne hcalm
    have hready : Ready Q g₁ (Floor.moved fl c li m) (sent + 1) := by
      refine ⟨hsends.stands, fun hQ j => ?_, ?_⟩
      · by_cases hj : j = li + 1
        · rw [hj, moved_self]
          exact hsends.bounded hQ
        · rw [moved_ne _ c m hj]
          exact h.bounded hQ j
      · show c.header.ts.toNat ≤ g₁.ts
        rw [hsends.ts, hsends.clock]
    refine (ih (fun lj hlj => ?_) hready hphase (by rw [hsends.clock]; exact hts) (by omega)).mono
      fun g₂ h₂ => ?_
    · rw [hgoes.length]
      exact hlis lj (List.mem_cons_of_mem _ hlj)
    · obtain ⟨fl₂, hgoes₂, hready₂, hts₂, hphase₂⟩ := h₂
      have hsum : sent + 1 + lis.length = sent + (lis.length + 1) := by omega
      rw [hsum] at hready₂
      have hboth := hgoes.trans hgoes₂
      rw [Nat.add_comm] at hboth
      exact ⟨fl₂, hboth, hready₂, hts₂.trans hsends.clock, hphase₂⟩

/-- One `R`. -/
def directory (g : Generator) (li : ℕ) : Exec Generator := do
  let (h, g) ← g.hdr li
  let stock := (← index g.locs li).stock
  let g ← g.write fun out => stockDirectory out h stock
  g.record li

/-- One `H`. -/
def action (g : Generator) (li : ℕ) : Exec Generator := do
  let (h, g) ← g.hdr li
  let stock := (← index g.locs li).stock
  let g ← g.write fun out => tradingAction out h stock 84
  g.record li

theorem directories_eq (lis : List ℕ) (g : Generator) :
    g.directories lis = lis.foldlM directory g := by
  induction lis generalizing g with
  | nil => rfl
  | cons li lis ih =>
    simp only [Generator.directories, List.foldlM_cons, directory, bind_assoc, ih]

theorem actions_eq (lis : List ℕ) (g : Generator) : g.actions lis = lis.foldlM action g := by
  induction lis generalizing g with
  | nil => rfl
  | cons li lis ih =>
    simp only [Generator.actions, List.foldlM_cons, action, bind_assoc, ih]

theorem directory_returns {g : Generator} {fl : Floor} {sent li : ℕ} {l : Locate}
    (h : Ready Q g fl sent) (hl : g.locs[li]? = some l) (hsent : sent + 1 < 2 ^ 32)
    (hts : g.ts < 2 ^ 48) : Sent Q C g fl sent li (directory g li) := by
  have hwrite : ∀ out, stockDirectory out ⟨.ofNat (li + 1), g.tracking, .ofNat g.ts⟩ l.stock =
      (callAt g li (.stockDirectory l.stock)).write out := fun _ => rfl
  simp only [directory, hdr_ok (li_lt h.stands hl).2, ok_bind, index_ok hl,
    write_call hwrite (by rw [toNat_ts hts]; exact hts)]
  exact unchanged_returns h.stands hl hsent hts h.clock h.bounded (.mark rfl) (uses_none rfl rfl)

theorem action_returns {g : Generator} {fl : Floor} {sent li : ℕ} {l : Locate}
    (h : Ready Q g fl sent) (hl : g.locs[li]? = some l) (hsent : sent + 1 < 2 ^ 32)
    (hts : g.ts < 2 ^ 48) : Sent Q C g fl sent li (action g li) := by
  have hwrite : ∀ out, tradingAction out ⟨.ofNat (li + 1), g.tracking, .ofNat g.ts⟩ l.stock 84 =
      (callAt g li (.tradingAction l.stock 84)).write out := fun _ => rfl
  simp only [action, hdr_ok (li_lt h.stands hl).2, ok_bind, index_ok hl,
    write_call hwrite (by rw [toNat_ts hts]; exact hts)]
  exact unchanged_returns h.stands hl hsent hts h.clock h.bounded (.mark rfl) (uses_none rfl rfl)

/-- Two system events, then two messages for each locate. -/
theorem header_returns {g : Generator} {fl : Floor} (h : Ready Q g fl 0)
    (hphase : fl.phase = .early)
    (hts : g.ts < 2 ^ 48) : Returns Q (fun g' => ∃ fl', Goes C g fl (2 + 2 * g.locs.length) g' fl' ∧
      Ready Q g' fl' (2 + 2 * g.locs.length) ∧ g'.ts = g.ts ∧ fl'.phase = .early) g.header := by
  have hfew := h.stands.few.2
  obtain ⟨g₁, fl₁, hevent₁, hgoes₁, hready₁, hts₁, hphase₁⟩ :=
    systemEvent_goes (C := C) h hts (.other (show (79 : UInt8) ≠ 81 by decide))
  obtain ⟨g₂, fl₂, hevent₂, hgoes₂, hready₂, hts₂, hphase₂⟩ :=
    systemEvent_goes (C := C) hready₁ (hts₁ ▸ hts) (.other (show (83 : UInt8) ≠ 81 by decide))
  have hgoes := hgoes₁.trans hgoes₂
  have hlen := hgoes.length
  have hearly : fl₂.phase = .early := by rw [hphase₂, hphase₁, hphase]
  simp only [Generator.header, hevent₁, hevent₂, ok_bind, directories_eq, actions_eq]
  refine (each_returns (C := C) directory_returns (List.range g₂.locs.length)
    (fun li => List.mem_range.mp) hready₂ hearly (by rw [hts₂, hts₁]; exact hts)
    (by rw [List.length_range]; omega)).bind fun g₃ h₃ => ?_
  obtain ⟨fl₃, hgoes₃, hready₃, hts₃, hearly₃⟩ := h₃
  rw [List.length_range, hlen] at hgoes₃ hready₃
  have hlen₃ := hgoes₃.length
  refine (each_returns (C := C) action_returns (List.range g₃.locs.length)
    (fun li => List.mem_range.mp) hready₃ hearly₃ (by rw [hts₃, hts₂, hts₁]; exact hts)
    (by rw [List.length_range]; omega)).mono fun g₄ h₄ => ?_
  obtain ⟨fl₄, hgoes₄, hready₄, hts₄, hearly₄⟩ := h₄
  rw [List.length_range, hlen₃, hlen] at hgoes₄ hready₄
  have hcount : 2 + 2 * g.locs.length = 1 + 1 + g.locs.length + g.locs.length := by omega
  have hsent : 0 + 1 + 1 + g.locs.length + g.locs.length = 2 + 2 * g.locs.length := by omega
  rw [hsent] at hready₄
  rw [hcount]
  refine ⟨fl₄, (hgoes.trans hgoes₃).trans hgoes₄, hcount ▸ hready₄, ?_, hearly₄⟩
  rw [hts₄, hts₃, hts₂, hts₁]

end Header

/-! The close. -/

section Close

variable {Q : Prop} {C : Placement → Prop} {budget base : ℕ}

/-- What follows the mix: the opening if it is still due, and three events at the close. -/
theorem trailer_goes {m : Mix} {fl : Floor} (h : Mixing Q budget base m fl)
    (hclose : m.g.cfg.closeNs.toNat < 2 ^ 48)
    (hopen : m.g.cfg.openNs.toNat < m.g.cfg.closeNs.toNat) :
    ∃ g' fl' k, Generator.trailer m = .ok g' ∧ Goes C m.g fl k g' fl' ∧ k + m.qDone.toNat = 4 := by
  obtain ⟨g₁, fl₁, k₁, hfirst, hgoes₁, hready₁, hts₁, hk₁⟩ : ∃ g₁ fl₁ k₁,
      (if m.qDone then pure m.g else
        Generator.systemEvent { m.g with ts := max m.g.ts m.g.cfg.openNs.toNat } 81) = .ok g₁ ∧
      Goes C m.g fl k₁ g₁ fl₁ ∧ Ready Q g₁ fl₁ (base + m.emitted + 1) ∧
      g₁.ts < m.g.cfg.closeNs.toNat ∧ k₁ + m.qDone.toNat = 1 := by
    have hready := h.ready
    cases hq : m.qDone with
    | true =>
      rw [hq] at hready
      exact ⟨m.g, fl, 0, rfl, Goes.refl m.g fl, hready, h.ts_lt, rfl⟩
    | false =>
      rw [hq] at hready
      have hlt : max m.g.ts m.g.cfg.openNs.toNat < m.g.cfg.closeNs.toNat := max_lt h.ts_lt hopen
      have hready' : Ready Q { m.g with ts := max m.g.ts m.g.cfg.openNs.toNat } fl
          (base + m.emitted) :=
        ⟨hready.stands.withClock m.g.rng _, hready.bounded, hready.clock.trans (le_max_left _ _)⟩
      obtain ⟨g', fl', hevent, hgoes, hready'', hts, -⟩ :=
        systemEvent_goes (C := C) hready' (hlt.trans hclose) (.last (h.early hq).1)
      exact ⟨g', fl', 1, hevent, (Goes.quiet m.g fl m.g.rng _).trans hgoes, hready'',
        hts ▸ hlt, rfl⟩
  have hcfg₁ := hgoes₁.cfg
  have hready₂ : Ready Q { g₁ with ts := g₁.cfg.closeNs.toNat } fl₁ (base + m.emitted + 1) :=
    ⟨hready₁.stands.withClock g₁.rng _, hready₁.bounded, by
      have := hready₁.clock
      show fl₁.clock ≤ g₁.cfg.closeNs.toNat
      rw [hcfg₁]
      omega⟩
  have hts₂ : g₁.cfg.closeNs.toNat < 2 ^ 48 := hcfg₁ ▸ hclose
  obtain ⟨g₃, fl₃, hevent₃, hgoes₃, hready₃, hts₃, -⟩ :=
    systemEvent_goes (C := C) hready₂ hts₂ (.other (show (77 : UInt8) ≠ 81 by decide))
  obtain ⟨g₄, fl₄, hevent₄, hgoes₄, hready₄, hts₄, -⟩ :=
    systemEvent_goes (C := C) hready₃ (hts₃ ▸ hts₂) (.other (show (69 : UInt8) ≠ 81 by decide))
  obtain ⟨g₅, fl₅, hevent₅, hgoes₅, -, -, -⟩ := systemEvent_goes (C := C) hready₄
    (by rw [hts₄, hts₃]; exact hts₂) (.other (show (67 : UInt8) ≠ 81 by decide))
  refine ⟨g₅, fl₅, _, ?_, (((hgoes₁.trans (Goes.quiet g₁ fl₁ g₁.rng _)).trans hgoes₃).trans
    hgoes₄).trans hgoes₅, ?_⟩
  · unfold Generator.trailer
    cases hq : m.qDone with
    | true =>
      rw [hq, if_pos rfl] at hfirst
      obtain rfl := Except.ok.inj hfirst
      simp only [if_true, pure_bind, hevent₃, ok_bind, hevent₄, hevent₅]
    | false =>
      rw [hq, if_neg Bool.false_ne_true] at hfirst
      simp only [Bool.false_eq_true, if_false, hfirst, ok_bind, hevent₃, hevent₄, hevent₅]
  · omega

end Close

end Lobcore.GeneratorRuns
