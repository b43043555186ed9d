import Lobcore.DayPaths

/-!
The shape of a generated day: how many messages there are and of which kinds, the truth rows
beside them, and the numbers that they carry, read off the path of the day.
-/
namespace Lobcore.DayShapes

open Checked OrderTypes Markets Payloads Writers RoundTrips Drives Generators GeneratorDraws
open DayEvents GeneratorSteps GeneratorRuns GeneratorMessages GeneratorPaths GeneratedDays DayPaths

/-- The opening event. -/
def isOpening (c : Call) : Bool := decide (c.body = .systemEvent 81)

/-- A message of the mix, for one of the locates. -/
structure MixCall (cfg : SynthConfig) (c : Call) : Prop where
  mix : isMix c.body = true
  locate_pos : 0 < c.header.locate.toNat
  locate_le : c.header.locate.toNat ≤ cfg.locates.toNat

/-- The parts of a day: the header, the mix around the one opening event, and the close. -/
structure Parts (cfg : SynthConfig) (stock : ℕ → Alpha 8) (heads before : List Call) (ring : Call)
    (after tail : List Call) : Prop where
  begins : heads.map entry = headEntries stock cfg.locates.toNat
  early : ∀ c ∈ before, MixCall cfg c
  rings : entry ring = (0, .systemEvent 81)
  opens : ring.header.ts = cfg.openNs
  late : ∀ c ∈ after, MixCall cfg c
  ends : tail.map entry = tailEntries
  closes : ∀ c ∈ tail, c.header.ts = cfg.closeNs

/-- What the calls of a day of `nMsgs` messages are. -/
structure DayShape (nMsgs : ℕ) (cfg : SynthConfig) (day : SynthDay) (calls : List Call) : Prop where
  frames : unframe day.bytes = (calls.map Call.payload, [])
  count : calls.length = nMsgs
  sizes : ∀ c ∈ calls, Payloads.specLen c.body.ty = some c.payload.length
  reads : ∀ c ∈ calls, ∃ m, parse c.payload = .ok m ∧ c.ReadsBack m
  rows : List.Forall₂ (fun (c : Call) (row : Truth) => row.ts = c.header.ts.toNat ∧
    row.locate = c.header.locate) calls day.truth
  parts : ∃ stock heads before ring after tail,
    calls = heads ++ (before ++ ring :: after) ++ tail ∧
    Parts cfg stock heads before ring after tail
  opening : calls.countP isOpening = 1
  sorted : calls.Pairwise fun c c' => c.header.ts ≤ c'.header.ts
  ts_lt : ∀ c ∈ calls, c.header.ts.toNat < 2 ^ 48
  refs : (calls.filterMap fun c => newRef c.body).Pairwise (· < ·)
  matchNos : (calls.filterMap fun c => newMatch c.body).Pairwise (· < ·)

/-- Numbers that follow each other increase. -/
theorem pairwise_of_range {xs : List UInt64} {lo k : ℕ}
    (h : xs.map UInt64.toNat = List.range' lo k) : xs.Pairwise (· < ·) := by
  have hsorted : (xs.map UInt64.toNat).Pairwise (· < ·) := by
    rw [h]
    exact List.pairwise_lt_range'
  exact (List.pairwise_map.mp hsorted).imp fun hlt => UInt64.lt_iff_toNat_lt.mpr hlt

/-- Nothing in the header or the close is the opening event. -/
theorem not_opening_of_entries {calls : List Call} {said : List (UInt16 × Body)}
    (h : calls.map entry = said) (hsaid : ∀ e ∈ said, e.2 ≠ .systemEvent 81) :
    calls.countP isOpening = 0 := by
  refine List.countP_eq_zero.mpr fun c hc hbody => ?_
  exact hsaid (entry c) (h ▸ List.mem_map_of_mem hc) (of_decide_eq_true hbody)

theorem not_opening_of_mix {cfg : SynthConfig} {calls : List Call}
    (h : ∀ c ∈ calls, MixCall cfg c) :
    calls.countP isOpening = 0 := by
  refine List.countP_eq_zero.mpr fun c hc hbody => ?_
  have hmix := (h c hc).mix
  rw [of_decide_eq_true hbody] at hmix
  cases hmix

theorem headEntries_ne (stock : ℕ → Alpha 8) (n : ℕ) :
    ∀ e ∈ headEntries stock n, e.2 ≠ .systemEvent 81 := by
  intro e he
  rcases List.mem_append.mp he with he | he
  · rcases List.mem_append.mp he with he | he
    · rcases List.mem_cons.mp he with rfl | he
      · decide
      · obtain rfl := List.mem_singleton.mp he
        decide
    · obtain ⟨li, -, rfl⟩ := List.mem_map.mp he
      intro heq
      cases heq
  · obtain ⟨li, -, rfl⟩ := List.mem_map.mp he
    intro heq
    cases heq

/-- The opening event stands in a day once. -/
theorem Parts.opening {cfg : SynthConfig} {stock : ℕ → Alpha 8} {heads before : List Call}
    {ring : Call} {after tail : List Call} (h : Parts cfg stock heads before ring after tail) :
    (heads ++ (before ++ ring :: after) ++ tail).countP isOpening = 1 := by
  have hring : isOpening ring = true := decide_eq_true (congrArg Prod.snd h.rings)
  have htail : ∀ e ∈ tailEntries, e.2 ≠ .systemEvent 81 := by decide
  rw [List.countP_append, List.countP_append, List.countP_append,
    not_opening_of_entries h.begins (headEntries_ne stock _), not_opening_of_mix h.early,
    List.countP_cons_of_pos hring, not_opening_of_mix h.late,
    not_opening_of_entries h.ends htail]

/-- The parts of a path are those of its calls. -/
theorem parts_of_path {C : Placement → Prop} {nMsgs : ℕ} {g g' : Generator} {path : List Moment}
    (h : DayPath C nMsgs g path g') (hlen : g.locs.length = g.cfg.locates.toNat) :
    ∃ stock heads before ring after tail,
      path.map Moment.call = heads ++ (before ++ ring :: after) ++ tail ∧
        Parts g.cfg stock heads before ring after tail := by
  obtain ⟨stock, heads, mid, tail, rfl, hheads, hopened, htail, hclose⟩ := h.parts
  obtain ⟨before, ring, after, rfl, hring, htime, hmix⟩ := hopened
  have hcall : ∀ mo ∈ before ++ after, MixCall g.cfg mo.call := by
    intro mo hmo
    have hmem : mo ∈ heads ++ (before ++ ring :: after) ++ tail := by
      rcases List.mem_append.mp hmo with hmo | hmo
      · simp [hmo]
      · simp [hmo]
    obtain ⟨hmix, hpos, hle⟩ := hmix mo hmo
    rw [h.passes.length_before hmem, hlen] at hle
    exact ⟨hmix, hpos, hle⟩
  have hts : ∀ (mo : Moment) (ts : UInt64), mo.time = ts.toNat → mo.call.header.ts = ts :=
    fun mo ts heq => UInt64.toNat_inj.mp (mo.writes.ts.trans heq)
  refine ⟨stock, heads.map Moment.call, before.map Moment.call, ring.call, after.map Moment.call,
    tail.map Moment.call, by simp, ?_, fun c hc => ?_, hring, hts ring _ htime, fun c hc => ?_, ?_,
    fun c hc => ?_⟩
  · rw [List.map_map, ← hlen]
    exact hheads
  · obtain ⟨mo, hmo, rfl⟩ := List.mem_map.mp hc
    exact hcall mo (List.mem_append_left _ hmo)
  · obtain ⟨mo, hmo, rfl⟩ := List.mem_map.mp hc
    exact hcall mo (List.mem_append_right _ hmo)
  · rw [List.map_map]
    exact htail
  · obtain ⟨mo, hmo, rfl⟩ := List.mem_map.mp hc
    exact hts mo _ (hclose mo hmo)

/-- A day that is generated at all has this shape. -/
theorem day_shape {fl : Floats} {rng : Rng} {nMsgs : ℕ} {cfg : SynthConfig} {day : SynthDay}
    (hday : synthItch fl rng nMsgs cfg = .ok day) : ∃ calls, DayShape nMsgs cfg day calls := by
  obtain ⟨g, hnew, hrun⟩ := bind_eq_ok.mp hday
  have hbegun := begun_of_new hnew
  obtain ⟨path, g', hpath, rfl⟩ := (run_path hbegun fun _ _ => trivial).of_run hrun
  obtain ⟨rows, htruth, hrows⟩ := hpath.passes.truth
  obtain ⟨_, -, hrefs⟩ := hpath.passes.refs
  obtain ⟨_, -, hmatches⟩ := hpath.passes.matches
  have hcfg := hbegun.cfg_eq
  obtain ⟨stock, heads, before, ring, after, tail, hsplit, hparts⟩ :=
    parts_of_path hpath (by rw [hcfg]; exact hbegun.length)
  rw [hcfg] at hparts
  have hlt : ∀ c ∈ path.map Moment.call, c.header.ts.toNat < 2 ^ 48 := by
    intro c hc
    obtain ⟨mo, -, rfl⟩ := List.mem_map.mp hc
    rw [mo.writes.ts]
    exact mo.writes.ts_lt
  refine ⟨path.map Moment.call, ?_, by rw [List.length_map, hpath.length], fun c _ => ?_,
    fun c hc => parse_payload (hlt c hc) c.body, ?_,
    ⟨stock, heads, before, ring, after, tail, hsplit, hparts⟩, ?_, ?_, hlt, ?_, ?_⟩
  · have hout := hpath.passes.out
    rw [hbegun.out, List.nil_append] at hout
    rw [hout, ← unframe_framed, List.map_map]
    rfl
  · rw [specLen_body, length_payload_call]
  · show List.Forall₂ _ _ (g'.truth.getD [])
    rw [htruth, hbegun.truth, if_pos rfl, Option.map_some, Option.getD_some, List.nil_append,
      List.forall₂_map_left_iff]
    exact hrows.imp fun mo row hrow => ⟨hrow.1.trans mo.writes.ts.symm, hrow.2⟩
  · rw [hsplit]
    exact hparts.opening
  · refine List.pairwise_map.mpr
      ((List.pairwise_map.mp hpath.timed.sorted).imp fun {mo mo'} hle => ?_)
    rw [UInt64.le_iff_toNat_le, mo.writes.ts, mo'.writes.ts]
    exact hle
  · rw [List.filterMap_map]
    exact pairwise_of_range hrefs
  · rw [List.filterMap_map]
    exact pairwise_of_range hmatches

/-- Two locates, every kind of message, and crossed books before the opening. -/
def shortDay : SynthConfig where
  locates := 2
  mix := ⟨List.replicate 9 (some 1), length_evenMix⟩
  placeholderRate := some (1 / 4)
  unknownRefRate := some (1 / 2)
  subpenny := true
  crossedPreopen := true
  openNs := 80
  closeNs := 160

theorem day_shape_short : ∃ day, synthItch exactly (List.range 120) 30 shortDay = .ok day ∧
    ∃ calls, DayShape 30 shortDay day calls := by
  have hargs : checkArgs exactly 30 shortDay = .ok () := by decide +kernel
  obtain ⟨day, hday, -⟩ :=
    (@run_returns True Placement.Fits exactly (List.range 120) 30 shortDay true
    hargs (fun _ _ h => h) (by decide +kernel)).ok_of trivial
  exact ⟨day, hday, day_shape hday⟩

end Lobcore.DayShapes
