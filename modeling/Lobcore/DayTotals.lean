import Lobcore.GeneratedDays

/-!
The totals of a day. Accepted arguments can make the generator abort at one place only: where the
shares at a price no longer fit 32 bits. A day on which every order leaves them countable comes to
its end, with the truth and without; a day of placeholder bids alone does not.
-/
namespace Lobcore.DayTotals

open Checked OrderTypes SortedMaps Markets Payloads TruthBooks Writers RoundTrips Generators
open GeneratorDraws GeneratorDraws.Generator GeneratorBooks DayEvents GeneratorSteps GeneratorRuns
open GeneratedDays

/-- A day whose orders all fit their levels is written to its end. Without the truth this asks
more than the code needs: there a total is taken of best levels only, and a level that is never
the best of its side may outgrow it. -/
theorem fitting_day_returns {fl : Floats} {rng : Rng} {nMsgs : ℕ} {cfg : SynthConfig}
    (hargs : checkArgs fl nMsgs cfg = .ok ()) :
    ((∀ p ∈ placements fl rng nMsgs cfg true, p.Fits) →
      ∃ day, synthItch fl rng nMsgs cfg = .ok day) ∧
    ((∀ p ∈ placements fl rng nMsgs cfg false, p.Fits) →
      ∃ bytes, synthItchBytes fl rng nMsgs cfg = .ok bytes) := by
  refine ⟨fun hfits => ?_, fun hfits => ?_⟩
  · obtain ⟨day, hday, -⟩ :=
      (run_returns (Q := True) (C := Placement.Fits) hargs (fun _ _ h => h) hfits).ok_of trivial
    exact ⟨day, hday⟩
  · obtain ⟨day, hday, -⟩ :=
      (run_returns (Q := True) (C := Placement.Fits) hargs (fun _ _ h => h) hfits).ok_of trivial
    refine ⟨day.bytes, ?_⟩
    obtain ⟨g, hnew, hrun⟩ := bind_eq_ok.mp hday
    simp only [synthItchBytes, hnew, ok_bind, hrun, pure_eq_ok]

/-- One locate, and every kind of message. -/
def allKinds : SynthConfig where
  locates := 1
  mix := ⟨List.replicate 9 (some 1), length_evenMix⟩
  placeholderRate := some (1 / 2)
  unknownRefRate := some (1 / 2)
  subpenny := true
  crossedPreopen := true
  openNs := 80
  closeNs := 160

theorem fitting_day_returns_small :
    (∃ day, synthItch exactly (List.range 90) 20 allKinds = .ok day) ∧
      ∃ bytes, synthItchBytes exactly (List.range 90) 20 allKinds = .ok bytes := by
  have hargs : checkArgs exactly 20 allKinds = .ok () := by decide +kernel
  obtain ⟨hday, hbytes⟩ := @fitting_day_returns exactly (List.range 90) 20 allKinds hargs
  exact ⟨hday (by decide +kernel), hbytes (by decide +kernel)⟩

/-! A day of placeholder bids. -/

/-- One locate, and nothing but adds at the placeholders. -/
def allPlaceholders : SynthConfig where
  locates := 1
  mix := ⟨some 1 :: List.replicate 8 (some 0), length_addsMix⟩
  placeholderRate := some 1
  unknownRefRate := some 0
  subpenny := false
  crossedPreopen := false
  openNs := 1
  closeNs := 9

theorem range_nines (rest : Rng) {lo hi : ℕ} (h : lo < hi) :
    Rng.range (9 :: rest) lo hi = .ok (lo + 9 % (hi - lo), rest) := by
  rw [Rng.range, ensure_ok h]
  rfl

theorem bool_nines (rest : Rng) {p : ℚ} (hpos : 0 < p) (hle : p ≤ 1) :
    Rng.bool (9 :: rest) p = .ok (true, rest) := by
  rw [Rng.bool, ensure_ok ⟨hpos.le, hle⟩, ok_bind, if_neg hpos.ne', ite_eq_left_iff.mpr]
  · rfl
  · exact fun _ => decide_eq_true (show 9 % 2 = 1 from rfl)

/-- The bids at the placeholder. -/
def bidsOf (l : Locate) : Queue := (l.book.bids.get? placeholderBid).getD []

/-- After some adds: so many shares rest at the placeholder bid and no other bid does. -/
structure Piled (g : Generator) (left shares : ℕ) : Prop where
  cfg : g.cfg = allPlaceholders
  rng : g.rng = List.replicate left 9
  cum : g.cum = List.replicate 9 1
  ts : g.ts = 0
  truth : g.truth.isSome
  locs : ∃ l, g.locs = [l] ∧ (∀ px, px ≠ placeholderBid → l.book.bids.get? px = none) ∧
    total (bidsOf l) = shares

/-- The truth row of a market with too many shares cannot be made. -/
theorem shares_lt_of_record {g g' : Generator} {left shares : ℕ} (h : Piled g left shares)
    (hrecord : g.record 0 = .ok g') : shares < 2 ^ 32 ∧ Piled g' left shares := by
  obtain ⟨hcfg, hrng, hcum, hts, htruth, l, hlocs, honly, htotal⟩ := h
  obtain ⟨rows, hrows⟩ := Option.isSome_iff_exists.mp htruth
  have hl : g.locs[0]? = some l := by rw [hlocs]; rfl
  simp only [Generator.record, hrows, index_ok hl, ok_bind] at hrecord
  obtain ⟨-, -, hrecord⟩ := bind_eq_ok.mp hrecord
  obtain ⟨bestBid, hbid, hrecord⟩ := bind_eq_ok.mp hrecord
  obtain ⟨bestAsk, -, hrecord⟩ := bind_eq_ok.mp hrecord
  obtain ⟨l5Bid, -, hrecord⟩ := bind_eq_ok.mp hrecord
  obtain ⟨l5Ask, -, hrecord⟩ := bind_eq_ok.mp hrecord
  obtain ⟨-, -, hrecord⟩ := bind_eq_ok.mp hrecord
  obtain ⟨bytes, -, hrecord⟩ := bind_eq_ok.mp hrecord
  obtain rfl := Except.ok.inj hrecord
  refine ⟨?_, hcfg, hrng, hcum, hts, rfl, l, hlocs, honly, htotal⟩
  cases hlevel : l.book.bids.get? placeholderBid with
  | none =>
    rw [bidsOf, hlevel] at htotal
    exact htotal ▸ show 0 < 2 ^ 32 by decide
  | some level =>
  have hbest : l.book.bestLevel .bid = some (placeholderBid, level) := by
    have hmem := SortedMap.get?_eq_some_iff.mp hlevel
    obtain ⟨e, he⟩ := Option.ne_none_iff_exists'.mp fun hnone =>
      List.ne_nil_of_mem hmem (List.getLast?_eq_none_iff.mp hnone)
    have hget := SortedMap.get?_eq_some_iff.mpr (List.mem_of_getLast? he)
    have hpx : e.1 = placeholderBid := by
      by_contra hne
      rw [honly e.1 hne] at hget
      cases hget
    rw [hpx, hlevel] at hget
    obtain rfl := Option.some.inj hget
    rw [← hpx]
    exact he
  rw [TruthBook.bestBid, hbest] at hbid
  obtain ⟨n, hn, -⟩ := bind_eq_ok.mp hbid
  rw [levelQty_eq] at hn
  rw [bidsOf, hlevel] at htotal
  by_contra hover
  rw [Option.getD_some] at htotal
  rw [htotal, if_neg hover] at hn
  cases hn

theorem drawOrder_nines {g : Generator} {rest : Rng} (hcfg : g.cfg = allPlaceholders)
    (hrng : g.rng = 9 :: 9 :: 9 :: 9 :: rest) (li : ℕ) :
    g.drawOrder li = .ok (⟨.bid, true, 0, 0, placeholderBid, 1000⟩, { g with rng := rest }) := by
  have hrate : g.cfg.placeholderRate.getD 0 = 1 := by rw [hcfg]; rfl
  simp only [Generator.drawOrder, Generator.drawSide, Generator.randomBool, Generator.randomRange,
    Generator.qty, hrng, hrate, roundLotProb, ok_bind, pure_eq_ok, if_true,
    bool_nines _ (show (0 : ℚ) < 1 / 2 by norm_num) (by norm_num),
    bool_nines _ (show (0 : ℚ) < 1 by norm_num) (le_refl _),
    bool_nines _ (show (0 : ℚ) < 8 / 10 by norm_num) (by norm_num),
    range_nines _ (show 1 < 11 by decide)]

/-- An add puts a thousand shares more at the placeholder bid. -/
theorem add_piles {g g' : Generator} {left shares : ℕ} (h : Piled g (left + 4) shares)
    (hadd : g.add 0 false = .ok g') : shares + 1000 < 2 ^ 32 ∧ Piled g' left (shares + 1000) := by
  obtain ⟨l, hlocs, honly, htotal⟩ := h.locs
  have hl : g.locs[0]? = some l := by rw [hlocs]; rfl
  simp only [Generator.add, drawOrder_nines h.cfg h.rng, ok_bind] at hadd
  obtain ⟨⟨id, g₁⟩, htake, hadd⟩ := bind_eq_ok.mp hadd
  obtain ⟨nextRef, -, htake⟩ := bind_eq_ok.mp htake
  obtain ⟨rfl, rfl⟩ := Prod.mk.inj (Except.ok.inj htake)
  obtain ⟨⟨hd, g₂⟩, hhdr, hadd⟩ := bind_eq_ok.mp hadd
  obtain ⟨-, -, hhdr⟩ := bind_eq_ok.mp hhdr
  obtain ⟨rfl, rfl⟩ := Prod.mk.inj (Except.ok.inj hhdr)
  simp only [index_ok hl, ok_bind] at hadd
  obtain ⟨px, -, hadd⟩ := bind_eq_ok.mp hadd
  obtain ⟨g₃, hwrite, hadd⟩ := bind_eq_ok.mp hadd
  obtain ⟨out, -, hwrite⟩ := bind_eq_ok.mp hwrite
  obtain rfl := Except.ok.inj hwrite
  obtain ⟨book, hbook, hadd⟩ := bind_eq_ok.mp hadd
  obtain ⟨-, -, hbook⟩ := bind_eq_ok.mp hbook
  obtain ⟨-, -, hbook⟩ := bind_eq_ok.mp hbook
  obtain rfl := Except.ok.inj hbook
  refine shares_lt_of_record ?_ hadd
  have hset : ∀ l', g.locs.set 0 l' = [l'] := fun l' => by rw [hlocs, List.set_cons_zero]
  refine ⟨h.cfg, rfl, h.cum, h.ts, h.truth, _, hset _, ?_, ?_⟩
  · intro px hpx
    exact (SortedMap.get?_insert_of_ne _ _ hpx).trans (honly px hpx)
  · show total (((l.book.bids.insert placeholderBid _).get? placeholderBid).getD []) = _
    rw [SortedMap.get?_insert_self, Option.getD_some, total_append]
    exact congrArg (· + 1000) htotal

theorem drawKind_nines {g : Generator} {rest : Rng} (hcum : g.cum = List.replicate 9 1)
    (hrng : g.rng = 9 :: rest) : g.drawKind = (.a, { g with rng := rest }) := by
  have hunit : ((9 % 2 ^ 53 : ℕ) : ℚ) / 2 ^ 53 < 1 := by norm_num
  have hfind : (Kind.all.zip (List.replicate 9 (1 : ℚ))).find?
      (fun p => decide (((9 % 2 ^ 53 : ℕ) : ℚ) / 2 ^ 53 < p.2)) = some (.a, 1) :=
    List.find?_cons_of_pos (decide_eq_true hunit)
  simp only [Generator.drawKind, Rng.unit, hcum, hrng, List.headD_cons, List.tail_cons, hfind,
    Option.elim_some]

theorem ready_piles {m m' : Mix} {budget left shares : ℕ} (h : Piled m.g (left + 1) shares)
    (hready : m.ready budget 0 = .ok m') : m'.emitted = m.emitted ∧ Piled m'.g left shares := by
  have hgap : m.g.advanceClock 0 = .ok { m.g with rng := List.replicate left 9, ts := 0 } := by
    simp only [Generator.advanceClock, Generator.randomRange, h.rng, h.ts, List.replicate_succ,
      range_nines _ (show 0 < 0 + 1 by decide), ok_bind, pure_eq_ok]
    rfl
  have hopen : ¬ m.g.cfg.openNs.toNat ≤ 0 := by
    rw [h.cfg]
    decide
  simp only [Mix.ready, hgap, ok_bind, hopen, decide_false, Bool.and_false, Bool.false_eq_true,
    if_false, pure_eq_ok] at hready
  obtain rfl := Except.ok.inj hready
  exact ⟨rfl, h.cfg, rfl, h.cum, rfl, h.truth, h.locs⟩

theorem step_piles {g g' : Generator} {left shares : ℕ} (h : Piled g (left + 6) shares)
    (hstep : g.step = .ok g') : shares + 1000 < 2 ^ 32 ∧ Piled g' left (shares + 1000) := by
  obtain ⟨l, hlocs, -⟩ := h.locs
  have hlen : g.locs.length = 1 := by rw [hlocs, List.length_singleton]
  have hkind : Generator.drawKind { g with rng := 9 :: List.replicate (left + 4) 9 } =
      (.a, { g with rng := List.replicate (left + 4) 9 }) := drawKind_nines h.cum rfl
  have hrng : g.rng = 9 :: 9 :: List.replicate (left + 4) 9 := h.rng
  simp only [Generator.step, Generator.randomRange, hlen, hrng,
    range_nines _ (show 0 < 1 by decide), ok_bind, pure_eq_ok, hkind] at hstep
  have hadd : Generator.add { g with rng := List.replicate (left + 4) 9 } 0 false = .ok g' := hstep
  refine add_piles ?_ hadd
  exact ⟨h.cfg, rfl, h.cum, h.ts, h.truth, h.locs⟩

/-- Rounds of the loop pile up what no 32-bit total counts. -/
theorem loop_piles {budget : ℕ} (fuel : ℕ) : ∀ {m m' : Mix} {shares : ℕ},
    Piled m.g (7 * fuel) shares → shares < 2 ^ 32 → m.emitted + fuel = budget →
    Mix.loop budget 0 fuel m = .ok m' → shares + 1000 * fuel < 2 ^ 32 := by
  induction fuel with
  | zero =>
    intro m m' shares _ hshares _ _
    exact hshares
  | succ fuel ih =>
    intro m m' shares h _ hemitted hloop
    rw [Mix.loop, if_pos (by omega)] at hloop
    obtain ⟨m₁, hready, hloop⟩ := bind_eq_ok.mp hloop
    obtain ⟨hsame, hpiled⟩ := ready_piles h hready
    rw [if_neg (by omega)] at hloop
    obtain ⟨g', hstep, hloop⟩ := bind_eq_ok.mp hloop
    obtain ⟨hlt, hpiled'⟩ := step_piles hpiled hstep
    have htotal := ih hpiled' hlt (by dsimp only; omega) hloop
    rw [Nat.mul_succ, Nat.add_comm (1000 * fuel), ← Nat.add_assoc]
    exact htotal

/-! Nothing rests before the loop. -/

section Before

variable {g g' : Generator} {left shares : ℕ} (h : Piled g left shares)

include h

theorem write_piled {f : Bytes → Exec Bytes} (hwrite : g.write f = .ok g') :
    Piled g' left shares := by
  obtain ⟨out, -, hwrite⟩ := bind_eq_ok.mp hwrite
  obtain rfl := Except.ok.inj hwrite
  exact ⟨h.cfg, h.rng, h.cum, h.ts, h.truth, h.locs⟩

theorem hdr_piled {li : ℕ} {hd : Header} (hhdr : g.hdr li = .ok (hd, g')) :
    Piled g' left shares := by
  obtain ⟨-, -, hhdr⟩ := bind_eq_ok.mp hhdr
  obtain ⟨-, rfl⟩ := Prod.mk.inj (Except.ok.inj hhdr)
  exact ⟨h.cfg, h.rng, h.cum, h.ts, h.truth, h.locs⟩

theorem systemEvent_piled {code : UInt8} (hevent : g.systemEvent code = .ok g') :
    Piled g' left shares := by
  obtain ⟨g₁, hwrite, hevent⟩ := bind_eq_ok.mp hevent
  have h₁ : Piled { g with tracking := g.tracking + 1 } left shares :=
    ⟨h.cfg, h.rng, h.cum, h.ts, h.truth, h.locs⟩
  obtain ⟨hcfg, hrng, hcum, hts, htruth, hlocs⟩ := write_piled h₁ hwrite
  obtain rfl := Except.ok.inj hevent
  refine ⟨hcfg, hrng, hcum, hts, ?_, hlocs⟩
  rw [Option.isSome_map]
  exact htruth

theorem directory_piled (hdir : directory g 0 = .ok g') : Piled g' left shares := by
  obtain ⟨⟨hd, g₁⟩, hhdr, hdir⟩ := bind_eq_ok.mp hdir
  obtain ⟨l, -, hdir⟩ := bind_eq_ok.mp hdir
  obtain ⟨g₂, hwrite, hdir⟩ := bind_eq_ok.mp hdir
  exact (shares_lt_of_record (write_piled (hdr_piled h hhdr) hwrite) hdir).2

theorem action_piled (haction : action g 0 = .ok g') : Piled g' left shares := by
  obtain ⟨⟨hd, g₁⟩, hhdr, haction⟩ := bind_eq_ok.mp haction
  obtain ⟨l, -, haction⟩ := bind_eq_ok.mp haction
  obtain ⟨g₂, hwrite, haction⟩ := bind_eq_ok.mp haction
  exact (shares_lt_of_record (write_piled (hdr_piled h hhdr) hwrite) haction).2

theorem range_locs : List.range g.locs.length = [0] := by
  obtain ⟨l, hlocs, -⟩ := h.locs
  rw [hlocs]
  rfl

theorem header_piled (hheader : g.header = .ok g') : Piled g' left shares := by
  obtain ⟨g₁, hfirst, hheader⟩ := bind_eq_ok.mp hheader
  obtain ⟨g₂, hsecond, hheader⟩ := bind_eq_ok.mp hheader
  obtain ⟨g₃, hdirs, hheader⟩ := bind_eq_ok.mp hheader
  have h₂ := systemEvent_piled (systemEvent_piled h hfirst) hsecond
  rw [range_locs h₂, directories_eq, List.foldlM_cons] at hdirs
  obtain ⟨g₄, hdir, hdirs⟩ := bind_eq_ok.mp hdirs
  obtain rfl := Except.ok.inj hdirs
  have h₃ := directory_piled h₂ hdir
  rw [range_locs h₃, actions_eq, List.foldlM_cons] at hheader
  obtain ⟨g₅, haction, hheader⟩ := bind_eq_ok.mp hheader
  obtain rfl := Except.ok.inj hheader
  exact action_piled h₃ haction

end Before

theorem new_piled {g : Generator} {left nMsgs : ℕ}
    (hnew : Generator.new exactly (List.replicate (left + 1) 9) allPlaceholders true nMsgs =
      .ok g) :
    Piled g left 0 := by
  unfold Generator.new at hnew
  split at hnew
  · cases hnew
  · obtain ⟨⟨ls, rng⟩, hlocs, hnew⟩ := bind_eq_ok.mp hnew
    obtain ⟨bytes, -, hnew⟩ := bind_eq_ok.mp hnew
    obtain rfl := Except.ok.inj hnew
    obtain ⟨⟨l, rng'⟩, hfirst, hlocs⟩ := bind_eq_ok.mp hlocs
    obtain ⟨rfl, rfl⟩ := Prod.mk.inj (Except.ok.inj hlocs)
    obtain ⟨⟨base, rng''⟩, hbase, hfirst⟩ := bind_eq_ok.mp hfirst
    obtain ⟨stock, -, hfirst⟩ := bind_eq_ok.mp hfirst
    obtain ⟨rfl, rfl⟩ := Prod.mk.inj (Except.ok.inj hfirst)
    rw [List.replicate_succ, range_nines _ (by decide)] at hbase
    obtain ⟨rfl, rfl⟩ := Prod.mk.inj (Except.ok.inj hbase)
    have hcum : cumulate exactly (allPlaceholders.weightSum exactly) 0
        (allPlaceholders.mix.val.map fun w => w.getD 0) = List.replicate 9 1 := by decide +kernel
    exact ⟨rfl, rfl, hcum, rfl, rfl, _, rfl, fun _ _ => rfl, rfl⟩

/-- A day of placeholder bids ends before a total passes 32 bits. -/
theorem placeholder_day {budget : ℕ} {day : SynthDay}
    (hday : synthItch exactly (List.replicate (7 * budget + 1) 9) (budget + 8) allPlaceholders =
      .ok day) : 1000 * budget < 2 ^ 32 := by
  obtain ⟨g, hnew, hrun⟩ := bind_eq_ok.mp hday
  have hpiled := new_piled hnew
  have hcfg := hpiled.cfg
  obtain ⟨left, hbudget, hrun⟩ := bind_eq_ok.mp hrun
  rw [Generator.mixBudget, hcfg] at hbudget
  have hleft : left = budget := by
    have hsub : subU (budget + 8) (2 + 2 * 1 + 1 + 3) = .ok left := hbudget
    rw [subU_ok (by omega)] at hsub
    exact (Except.ok.inj hsub).symm.trans (Nat.add_sub_cancel ..)
  subst hleft
  obtain ⟨g₁, hstart, hrun⟩ := bind_eq_ok.mp hrun
  obtain ⟨span, hspan, hstart⟩ := bind_eq_ok.mp hstart
  obtain rfl := Except.ok.inj hstart
  obtain ⟨g₂, hheader, hrun⟩ := bind_eq_ok.mp hrun
  have hts : g.cfg.openNs.toNat - span / 8 = 0 := by
    rw [hcfg] at hspan ⊢
    have hspan' : subU 9 1 = .ok span := hspan
    obtain rfl := Except.ok.inj ((subU_ok (by decide)).symm.trans hspan')
    rfl
  have hpiled₂ := header_piled
    (show Piled { g with ts := g.cfg.openNs.toNat - span / 8 } _ 0 from
      ⟨hcfg, hpiled.rng, hpiled.cum, hts, hpiled.truth, hpiled.locs⟩) hheader
  obtain ⟨gap, hgap, hrun⟩ := bind_eq_ok.mp hrun
  obtain ⟨m, hloop, -⟩ := bind_eq_ok.mp hrun
  obtain ⟨rest, hrest, hgap⟩ := bind_eq_ok.mp hgap
  have hnine : rest = 9 := by
    dsimp only at hrest
    rw [hpiled₂.cfg, hts] at hrest
    exact Except.ok.inj (hrest.symm.trans (subU_ok (Nat.zero_le _)))
  by_cases hsmall : left ≤ 9
  · omega
  · have hdiv : rest / left = 0 := by
      rw [hnine]
      exact Nat.div_eq_of_lt (not_le.mp hsmall)
    rw [if_neg (by omega), hdiv] at hgap
    obtain rfl : 0 = gap := Except.ok.inj hgap
    have htotal := loop_piles (m := ⟨g₂, 0, false⟩) left hpiled₂ (by decide) (Nat.zero_add left)
      hloop
    rwa [Nat.zero_add] at htotal

theorem placeholder_args (budget : ℕ) (hsmall : budget ≤ 2 ^ 31) :
    checkArgs exactly (budget + 8) allPlaceholders = .ok () := by
  have hvalid : allPlaceholders.validate exactly = .ok () := by decide +kernel
  have hmin : ¬ budget + 8 < 2 * 1 + 6 := by omega
  have hmax : ¬ maxMsgs < budget + 8 := by
    unfold maxMsgs
    omega
  rw [checkArgs, hvalid]
  show (if budget + 8 < 2 * 1 + 6 then Except.error (ConfigError.tooFew (2 * 1 + 6) (budget + 8))
    else if maxMsgs < budget + 8 then Except.error (ConfigError.tooMany (budget + 8))
    else Except.ok ()) = _
  rw [if_neg hmin, if_neg hmax]

/-- 4,300,000 bids of a thousand shares at one price are more than 32 bits count. -/
theorem total_overflows : checkArgs exactly (4300000 + 8) allPlaceholders = .ok () ∧
    ¬ ∃ day, synthItch exactly (List.replicate (7 * 4300000 + 1) 9) (4300000 + 8)
      allPlaceholders = .ok day := by
  refine ⟨placeholder_args _ (by norm_num), fun h => ?_⟩
  obtain ⟨day, hday⟩ := h
  exact absurd (placeholder_day hday) (by norm_num)

end Lobcore.DayTotals
