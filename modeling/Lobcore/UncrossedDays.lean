import Lobcore.GeneratedDays

/-!
Crossed prices over a day. An order that may not cross is held below the best ask, but a bid is
never priced below one tick, and a bid at the placeholder is not held at all. While every bid
stays below the best ask the books of a day are uncrossed from the opening on, and all day where
no order may cross; a bid at the lowest tick can meet an ask that was left there before the opening.
-/
namespace Lobcore.UncrossedDays

open Checked OrderTypes SortedMaps Markets Payloads Drives TruthBooks Writers RoundTrips Generators
open GeneratorDraws GeneratorDraws.Generator GeneratorBooks DayEvents GeneratorSteps GeneratorRuns
open GeneratedDays

/-- A bid that may not cross finds the best ask above the lowest price that it can have: one tick,
or the placeholder. -/
def Clear (p : Placement) : Prop :=
  p.allowed = false → p.draft.side = .bid →
    ∀ a ∈ p.l.book.bestLevel .ask, (if p.draft.placeholder then placeholderBid else p.l.tick) < a.1

instance (p : Placement) : Decidable (Clear p) := inferInstanceAs (Decidable (_ → _ → _))

/-- The best bid of the row is below its best ask. -/
def RowUncrossed (row : Truth) : Prop := ∀ b ∈ row.bestBid, ∀ a ∈ row.bestAsk, b.1 < a.1

instance (row : Truth) : Decidable (RowUncrossed row) := inferInstanceAs (Decidable (∀ _ ∈ _, _))

/-! One message. -/

/-- No bid reaches the placeholder ask. -/
def Low (m : Market) : Prop := ∀ px, m.queue .bid px ≠ [] → px < placeholderAsk

section Deals

variable {m m' : Market}

theorem best_price {s : Side} {e : ℤ × ℕ} (he : e ∈ best m s) : m.queue s e.1 ≠ [] := by
  obtain ⟨e', hl, rfl⟩ := Option.map_eq_some_iff.mp he
  obtain ⟨hq, hne⟩ := Market.queue_of_mem_levels (List.mem_of_head? hl)
  exact hq ▸ hne

theorem row_uncrossed (c : Call) (h : Uncrossed m) : RowUncrossed (rowOf c m) :=
  fun _ hb _ ha => h _ _ (best_price hb) (best_price ha)

theorem queue_push_ne {id : OrderId} {s s' : Side} {px px' : ℤ} {n : ℕ}
    (h : (m.push id s px n).queue s' px' ≠ []) : (s' = s ∧ px' = px) ∨ m.queue s' px' ≠ [] := by
  by_cases hsame : s' = s ∧ px' = px
  · exact Or.inl hsame
  · refine Or.inr ?_
    simpa only [Market.push, Market.setQueue_of_ne _ _ hsame] using h

theorem queue_take_ne {id : OrderId} {s s' : Side} {px px' : ℤ} {rest : ℕ}
    (h : (m.take id s px rest).queue s' px' ≠ []) : m.queue s' px' ≠ [] := by
  by_cases hsame : s' = s ∧ px' = px
  · obtain ⟨rfl, rfl⟩ := hsame
    intro hnil
    simp [Market.take, Market.setQueue, hnil, settle] at h
  · simpa only [Market.take, Market.setQueue_of_ne _ _ hsame] using h

theorem uncrossed_take {id : OrderId} {s : Side} {px : ℤ} {rest : ℕ} (h : Uncrossed m) :
    Uncrossed (m.take id s px rest) := fun b a hb ha => h b a (queue_take_ne hb) (queue_take_ne ha)

theorem low_take {id : OrderId} {s : Side} {px : ℤ} {rest : ℕ} (h : Low m) :
    Low (m.take id s px rest) := fun px hq => h px (queue_take_ne hq)

theorem low_push {l : Locate} {allowed : Bool} {d : Draft} {id : OrderId}
    (hdraft : Drafted l allowed m' d) (h : Low m) : Low (m.push id d.side d.px d.qty) := by
  intro px hq
  rcases queue_push_ne hq with ⟨hs, rfl⟩ | hq
  · have hgrid := hdraft.onGrid
    rw [← hs] at hgrid
    have htick := hdraft.tick
    simp only [OnGrid, maxPrice, placeholderAsk] at hgrid ⊢
    rcases htick with ht | ht <;> omega
  · exact h px hq

/-- A drawn order keeps off the other side of the market it was drawn on. -/
theorem keeps_off {p : Placement} (hshows : p.l.book.Shows m)
    (hdraft : Drafted p.l false m p.draft) (hclear : Clear p) (hallowed : p.allowed = false)
    (hlow : Low m) : match p.draft.side with
      | .bid => ∀ a, m.queue .ask a ≠ [] → p.draft.px < a
      | .ask => ∀ b, m.queue .bid b ≠ [] → b < p.draft.px := by
  cases hs : p.draft.side with
  | bid =>
    intro a ha
    obtain ⟨e, he, hbest⟩ := best_of_queue hshows ha
    obtain ⟨e', hl, rfl⟩ := Option.map_eq_some_iff.mp he
    have habove := hclear hallowed hs e' (hshows.bestLevel_eq .ask ▸ hl)
    have hpx : p.draft.px < e'.1 := by
      cases hp : p.draft.placeholder with
      | true =>
        rw [hp, if_pos rfl] at habove
        rwa [hdraft.placeholder hp, hs]
      | false =>
        rw [hp, if_neg Bool.false_ne_true] at habove
        exact ((hdraft.priced hp).bid rfl hs _ he).mpr habove
    simp only [Market.better] at hbest
    omega
  | ask =>
    intro b hb
    cases hp : p.draft.placeholder with
    | true =>
      rw [hdraft.placeholder hp, hs]
      exact hlow b hb
    | false =>
      obtain ⟨e, he, hbest⟩ := best_of_queue hshows hb
      have hbelow := (hdraft.priced hp).ask rfl hs e he
      simp only [Market.better] at hbest
      omega

theorem uncrossed_push {d : Draft} {id : OrderId} (h : Uncrossed m)
    (hoff : match d.side with
      | .bid => ∀ a, m.queue .ask a ≠ [] → d.px < a
      | .ask => ∀ b, m.queue .bid b ≠ [] → b < d.px) :
    Uncrossed (m.push id d.side d.px d.qty) := by
  intro b a hb ha
  cases hs : d.side with
  | bid =>
    rw [hs] at hoff hb ha
    have ha' : m.queue .ask a ≠ [] := (queue_push_ne ha).resolve_left fun h => by cases h.1
    rcases queue_push_ne hb with ⟨-, rfl⟩ | hb
    · exact hoff a ha'
    · exact h b a hb ha'
  | ask =>
    rw [hs] at hoff hb ha
    have hb' : m.queue .bid b ≠ [] := (queue_push_ne hb).resolve_left fun h => by cases h.1
    rcases queue_push_ne ha with ⟨-, rfl⟩ | ha
    · exact hoff b hb'
    · exact h b a hb' ha

theorem low_of_deal {C : Placement → Prop} {allowed : Bool} {next : ℕ} {body : Body}
    (h : Deal C allowed next m body m') (hlow : Low m) : Low m' := by
  cases h with
  | mark _ => exact hlow
  | missed _ _ => exact hlow
  | placed _ _ _ _ hdraft _ _ => exact low_push hdraft hlow
  | replaced _ _ _ _ hdraft _ _ => exact low_push hdraft (low_take hlow)
  | deleted _ => exact low_take hlow
  | cancelled _ _ _ => exact low_take hlow
  | executed _ _ _ _ _ => exact low_take hlow

/-- A message that may not cross leaves the market uncrossed. -/
theorem uncrossed_of_deal {next : ℕ} {body : Body} (h : Deal Clear false next m body m')
    (hlow : Low m) (hm : Uncrossed m) : Uncrossed m' := by
  cases h with
  | mark _ => exact hm
  | missed _ _ => exact hm
  | placed hC _ hallowed hshows hdraft _ _ =>
    exact uncrossed_push hm (keeps_off hshows hdraft hC hallowed hlow)
  | @replaced p old oldPx held hC _ hallowed hshows hdraft _ _ =>
    refine uncrossed_push (uncrossed_take hm) ?_
    have hoff := keeps_off hshows hdraft hC hallowed hlow
    cases hs : p.draft.side with
    | bid =>
      rw [hs] at hoff
      exact fun a ha => hoff a (queue_take_ne ha)
    | ask =>
      rw [hs] at hoff
      exact fun b hb => hoff b (queue_take_ne hb)
  | deleted _ => exact uncrossed_take hm
  | cancelled _ _ _ => exact uncrossed_take hm
  | executed _ _ _ _ _ => exact uncrossed_take hm

end Deals

/-! Messages one after the other. -/

/-- In the phases in which no order may cross, nothing does. -/
structure Tidy (preopen : Bool) (fl : Floor) : Prop where
  nothing : fl.market 0 = .empty
  low : ∀ l, Low (fl.market l)
  uncrossed : fl.phase = .trading ∨ preopen = false ∧ fl.phase = .early →
    ∀ l, Uncrossed (fl.market l)

theorem tidy_new (preopen : Bool) : Tidy preopen Floor.new :=
  ⟨rfl, fun _ _ hb => absurd rfl hb, fun _ _ => uncrossed_empty⟩

section Events

variable {preopen : Bool} {fl fl' : Floor} {c : Call}

theorem Tidy.step (h : Tidy preopen fl) (hevent : Event Clear preopen fl c fl') :
    Tidy preopen fl' ∧ (preopen = false ∨ fl'.phase ≠ .early →
      RowUncrossed (rowOf c (fl'.market c.header.locate.toNat))) := by
  cases hevent with
  | system _ hlocate hrings =>
    refine ⟨⟨h.nothing, h.low, fun hcalm => ?_⟩, fun _ => row_uncrossed c ?_⟩
    · cases hrings with
      | other _ => exact h.uncrossed hcalm
      | opening _ huncrossed => exact huncrossed
      | last _ => rcases hcalm with hcalm | ⟨-, hcalm⟩ <;> cases hcalm
    · rw [hlocate]
      show Uncrossed (fl.market 0)
      rw [h.nothing]
      exact uncrossed_empty
  | @deal allowed m hphase hlocate hallowed hdeal =>
    have hne : (0 : ℕ) ≠ c.header.locate.toNat := fun hzero =>
      hlocate (UInt16.toNat_inj.mp hzero.symm)
    have hquiet : fl.phase = .trading ∨ preopen = false ∧ fl.phase = .early → Uncrossed m := by
      intro hcalm
      have hnot : allowed = false := by
        by_contra hyes
        obtain ⟨hpre, hearly⟩ := hallowed (Bool.eq_true_of_not_eq_false hyes)
        rcases hcalm with hcalm | ⟨hcalm, -⟩
        · rw [hearly] at hcalm
          cases hcalm
        · rw [hpre] at hcalm
          cases hcalm
      subst hnot
      exact uncrossed_of_deal hdeal (h.low _) (h.uncrossed hcalm _)
    refine ⟨⟨?_, fun l => ?_, fun hcalm l => ?_⟩, fun hcalm => row_uncrossed c ?_⟩
    · exact (Function.update_of_ne hne ..).trans h.nothing
    · show Low (Function.update fl.market _ m l)
      by_cases hl : l = c.header.locate.toNat
      · rw [hl, Function.update_self]
        exact low_of_deal hdeal (h.low _)
      · rw [Function.update_of_ne hl]
        exact h.low l
    · show Uncrossed (Function.update fl.market _ m l)
      by_cases hl : l = c.header.locate.toNat
      · rw [hl, Function.update_self]
        exact hquiet hcalm
      · rw [Function.update_of_ne hl]
        exact h.uncrossed hcalm l
    · show Uncrossed (Function.update fl.market _ m _)
      rw [Function.update_self]
      refine hquiet ?_
      have hphase' : fl.phase ≠ .closing := hphase
      change preopen = false ∨ fl.phase ≠ .early at hcalm
      cases hp : fl.phase with
      | early => exact Or.inr ⟨hcalm.resolve_right fun hn => hn hp, rfl⟩
      | trading => exact Or.inl rfl
      | closing => exact absurd hp hphase'

/-- Once the day is opened it stays so. -/
theorem phase_ne_early (hevent : Event Clear preopen fl c fl') (h : fl.phase ≠ .early) :
    fl'.phase ≠ .early := by
  cases hevent with
  | system _ _ hrings =>
    cases hrings with
    | other _ => exact h
    | opening hphase _ => exact absurd hphase h
    | last hphase => exact absurd hphase h
  | deal _ _ _ _ => exact h

theorem phase_of_opening (hevent : Event Clear preopen fl c fl')
    (hbody : c.body = .systemEvent 81) :
    fl'.phase ≠ .early := by
  intro hearly
  cases hevent with
  | @system code _ hbody' _ hrings =>
    obtain rfl : code = 81 := by
      rw [hbody] at hbody'
      injection hbody' with hcode
      exact hcode.symm
    cases hrings with
    | other hcode => exact hcode rfl
    | opening _ _ => cases hearly
    | last _ => cases hearly
  | deal _ _ _ hdeal =>
    rw [hbody] at hdeal
    exact hdeal.not_systemEvent

/-- Where no order may cross any more, no row is crossed. -/
theorem rows_uncrossed {rows : List (Call × Truth)} (h : Events Clear preopen fl rows fl')
    (htidy : Tidy preopen fl) (hcalm : preopen = false ∨ fl.phase ≠ .early) :
    ∀ p ∈ rows, RowUncrossed p.2 := by
  induction h with
  | nil fl =>
    intro p hp
    cases hp
  | cons hnumbered hevent hrest ih =>
    intro p hp
    obtain ⟨htidy', hrow⟩ := htidy.step hevent
    have hcalm' := hcalm.imp_right (phase_ne_early hevent)
    rcases List.mem_cons.mp hp with rfl | hp
    · exact hrow hcalm'
    · exact ih htidy' hcalm' p hp

/-- After the opening no row is crossed. -/
theorem rows_after_opening {rows : List (Call × Truth)} (h : Events Clear preopen fl rows fl')
    (htidy : Tidy preopen fl) : ∀ {i j : ℕ} {p q : Call × Truth}, rows[i]? = some p →
      p.1.body = .systemEvent 81 → i < j → rows[j]? = some q → RowUncrossed q.2 := by
  induction h with
  | nil fl =>
    intro i j p q hp
    cases hp
  | cons hnumbered hevent hrest ih =>
    intro i j p q hp hbody hlt hq
    obtain ⟨htidy', -⟩ := htidy.step hevent
    obtain ⟨j, rfl⟩ := Nat.exists_eq_succ_of_ne_zero (Nat.ne_zero_of_lt hlt)
    rw [List.getElem?_cons_succ] at hq
    cases i with
    | zero =>
      obtain rfl := Option.some.inj hp
      exact rows_uncrossed hrest htidy' (Or.inr (phase_of_opening hevent hbody)) q
        (List.mem_of_getElem? hq)
    | succ i =>
      rw [List.getElem?_cons_succ] at hp
      exact ih htidy' hp hbody (Nat.lt_of_succ_lt_succ hlt) hq

end Events

/-! Days. -/

/-- The payload is a system event that opens the market. -/
def Opens (payload : Bytes) : Prop :=
  ∃ m, parse payload = .ok (.system m) ∧ m.eventCode = .ok 81

theorem body_of_opens {c : Call} (hts : c.header.ts.toNat < 2 ^ 48) (h : Opens c.payload) :
    c.body = .systemEvent 81 := by
  obtain ⟨m, hm, hcode⟩ := h
  obtain ⟨m', hm', -, -, -, hback⟩ := parse_payload hts c.body
  obtain rfl : m' = .system m := Except.ok.inj (hm'.symm.trans hm)
  cases hbody : c.body with
  | systemEvent code =>
    rw [hbody] at hback
    rw [Except.ok.inj (hback.2.symm.trans hcode)]
  | _ =>
    rw [hbody] at hback
    cases hback

theorem opens_payload {h : Header} (hts : h.ts.toNat < 2 ^ 48) :
    Opens (Call.mk h (.systemEvent 81)).payload := by
  obtain ⟨m, hm, -, -, -, hback⟩ := parse_payload hts (.systemEvent 81)
  cases m with
  | system m => exact ⟨m, hm, hback.2⟩
  | _ => cases hback

/-- Behind the message that opens the market no row is crossed. -/
def UncrossedOnceOpen (day : SynthDay) : Prop :=
  ∀ (i j : ℕ) (payload : Bytes) (row : Truth), (unframe day.bytes).1[i]? = some payload →
    Opens payload → i < j → day.truth[j]? = some row → RowUncrossed row

/-- While every bid that may not cross stays below the best ask, no row after the opening is
crossed, and none of the day where no order may cross. -/
theorem day_uncrossed_after_opening {fl : Floats} {rng : Rng} {nMsgs : ℕ} {cfg : SynthConfig}
    {day : SynthDay} (hargs : checkArgs fl nMsgs cfg = .ok ())
    (hday : synthItch fl rng nMsgs cfg = .ok day)
    (hclear : ∀ p ∈ placements fl rng nMsgs cfg true, Clear p) :
    UncrossedOnceOpen day ∧
      (cfg.crossedPreopen = false → ∀ row ∈ day.truth, RowUncrossed row) := by
  obtain ⟨rows, fl', hdays⟩ :=
    (run_returns (Q := False) (C := Clear) hargs (fun h => h.elim) hclear).of_run hday
  have hevents := hdays.events
  have htidy := tidy_new cfg.crossedPreopen
  have htruth := hdays.truth rfl
  have hunframe : (unframe day.bytes).1 = rows.map fun p => p.1.payload := by
    have hframed := unframe_framed (rows.map Prod.fst)
    rw [List.map_map, List.map_map] at hframed
    rw [hdays.bytes]
    exact congrArg Prod.fst hframed
  refine ⟨fun i j payload row hpayload hopens hlt hrow => ?_, fun hcalm row hrow => ?_⟩
  · rw [hunframe, List.getElem?_map] at hpayload
    rw [htruth, List.getElem?_map] at hrow
    obtain ⟨p, hp, rfl⟩ := Option.map_eq_some_iff.mp hpayload
    obtain ⟨q, hq, rfl⟩ := Option.map_eq_some_iff.mp hrow
    have hbody := body_of_opens (hevents.ts_lt p (List.mem_of_getElem? hp)) hopens
    exact rows_after_opening hevents htidy hp hbody hlt hq
  · rw [htruth] at hrow
    obtain ⟨p, hp, rfl⟩ := List.mem_map.mp hrow
    exact rows_uncrossed hevents htidy (Or.inl hcalm) p hp

/-! A bid that meets an ask. -/

/-- One locate, and nothing but adds, which may cross before the opening. -/
def crossingAdds : SynthConfig where
  locates := 1
  mix := ⟨some 1 :: List.replicate 8 (some 0), length_addsMix⟩
  placeholderRate := some 0
  unknownRefRate := some 0
  subpenny := false
  crossedPreopen := true
  openNs := 80
  closeNs := 160

/-- The draws of an ask a tick further down, which crosses by no tick or by some. -/
def askDraws (gap : ℕ) (cross : List ℕ) : List ℕ :=
  [gap, 0, 0, 0, 0, 0, 1, 0] ++ cross ++ [1, 0]

/-- Asks down to the lowest ticks, the last of which crosses, and a bid after the opening. -/
def downDraws (cross : List ℕ) : Rng :=
  [0] ++ (List.replicate 23 (askDraws 0 [0])).flatten ++ askDraws 6 cross ++
    [6, 0, 0, 1, 0, 0, 0, 0, 1, 0]

/-- The bid after the opening, which may not cross, is placed under a best ask above one tick. -/
theorem day_uncrossed_after_opening_small :
    (∃ p ∈ placements exactly (downDraws [1, 0]) 33 crossingAdds true,
      p.allowed = false ∧ p.draft.side = .bid ∧ (p.l.book.bestLevel .ask).isSome) ∧
    ∃ day, synthItch exactly (downDraws [1, 0]) 33 crossingAdds = .ok day ∧
      UncrossedOnceOpen day ∧
      (crossingAdds.crossedPreopen = false → ∀ row ∈ day.truth, RowUncrossed row) := by
  have hreturns : panics (synthItch exactly (downDraws [1, 0]) 33 crossingAdds) = false := by
    decide +kernel
  obtain ⟨day, hday⟩ := ok_of_not_panics hreturns
  exact ⟨by decide +kernel, day, hday,
    day_uncrossed_after_opening (by decide +kernel) hday (by decide +kernel)⟩

/-- The last ask before the opening rests at one tick, where the bid after it meets it. -/
theorem bid_meets_ask : checkArgs exactly 33 crossingAdds = .ok () ∧
    ∃ day, synthItch exactly (downDraws [1, 1]) 33 crossingAdds = .ok day ∧
    ¬ UncrossedOnceOpen day := by
  have hrun : (synthItch exactly (downDraws [1, 1]) 33 crossingAdds).toOption.any (fun day =>
      (unframe day.bytes).1[28]? = some (Call.mk ⟨0, 28, 80⟩ (.systemEvent 81)).payload ∧
      day.truth[29]?.any fun row => ¬ RowUncrossed row) = true := by decide +kernel
  obtain ⟨day, hday, hfacts⟩ := ok_of_any hrun
  obtain ⟨hpayload, htruth⟩ := of_decide_eq_true hfacts
  obtain ⟨row, hrow, hcrossed⟩ := (Option.any_eq_true ..).mp htruth
  refine ⟨by decide +kernel, day, hday, fun h => ?_⟩
  exact of_decide_eq_true hcrossed
    (h 28 29 _ row hpayload (opens_payload (by decide)) (by decide) hrow)

end Lobcore.UncrossedDays
