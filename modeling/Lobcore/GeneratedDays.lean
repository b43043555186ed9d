import Lobcore.GeneratorRuns

/-!
Generated days. Arguments that pass the check give a generator that stands on the empty floor,
and a run of it writes as many messages as were asked for. No run aborts in which every order
leaves the shares at its price countable in 32 bits.
-/
namespace Lobcore.GeneratedDays

open Checked OrderTypes SortedMaps Markets Payloads TruthBooks Writers RoundTrips Generators
open GeneratorDraws GeneratorDraws.Generator GeneratorBooks DayEvents GeneratorSteps GeneratorRuns

/-- Sums and quotients that do not round. -/
def exactly : Floats := ⟨(· + ·), (· / ·)⟩

/-- What accepted arguments satisfy. -/
structure Accepted (nMsgs : ℕ) (cfg : SynthConfig) : Prop where
  locates : 0 < cfg.locates.toNat
  placeholder : SynthConfig.inUnit cfg.placeholderRate
  unknown : SynthConfig.inUnit cfg.unknownRefRate
  order : cfg.openNs.toNat < cfg.closeNs.toNat
  close : cfg.closeNs.toNat < 2 ^ 48
  min : 2 * cfg.locates.toNat + 6 ≤ nMsgs
  max : nMsgs ≤ 2 ^ 32

theorem of_guard {p : Prop} [Decidable p] {e : ConfigError} {x : Except ConfigError Unit}
    (h : (if p then .error e else x) = .ok ()) : ¬ p ∧ x = .ok () :=
  of_ite_ne h nofun

theorem accepted_of_check {fl : Floats} {nMsgs : ℕ} {cfg : SynthConfig}
    (h : checkArgs fl nMsgs cfg = .ok ()) : Accepted nMsgs cfg := by
  unfold checkArgs at h
  cases hvalid : cfg.validate fl with
  | error e =>
    rw [hvalid] at h
    cases h
  | ok u =>
    rw [hvalid] at h
    obtain ⟨hmin, h⟩ := of_guard h
    obtain ⟨hmax, -⟩ := of_guard h
    unfold SynthConfig.validate at hvalid
    obtain ⟨hlocates, hvalid⟩ := of_guard hvalid
    obtain ⟨-, hvalid⟩ := of_guard hvalid
    obtain ⟨-, hvalid⟩ := of_guard hvalid
    obtain ⟨hplaceholder, hvalid⟩ := of_guard hvalid
    obtain ⟨hunknown, hvalid⟩ := of_guard hvalid
    obtain ⟨horder, hvalid⟩ := of_guard hvalid
    obtain ⟨hclose, -⟩ := of_guard hvalid
    have hpos : 0 < cfg.locates.toNat := by
      by_contra hzero
      exact hlocates (UInt16.toNat_inj.mp (Nat.eq_zero_of_not_pos hzero))
    exact ⟨hpos, not_not.mp hplaceholder, not_not.mp hunknown,
      UInt64.lt_iff_toNat_lt.mp (UInt64.not_le.mp horder), not_le.mp hclose, not_lt.mp hmin,
      not_lt.mp hmax⟩

/-! The first state. -/

theorem length_digits4 (n : ℕ) : (digits4 n).length ≤ 5 := by
  unfold digits4
  split <;> simp

theorem symbol8_ok (locate : ℕ) : ∃ stock, symbol8 (ascii "SYN" ++ digits4 locate) = .ok stock := by
  have hlen : (ascii "SYN" ++ digits4 locate).length ≤ 8 := by
    have := length_digits4 locate
    rw [List.length_append, length_ascii]
    show 3 + _ ≤ 8
    omega
  exact ⟨_, dif_pos hlen⟩

/-- A locate starts on an empty market. -/
theorem newLocate_ok (rng : Rng) (cfg : SynthConfig) (locate : ℕ) :
    ∃ l rng', newLocate rng cfg locate = .ok (l, rng') ∧ Keeps l 1 .empty ∧ l.dead = [] := by
  have hbucket : (bucket locate).1 < (bucket locate).2 ∧ 2500 ≤ (bucket locate).1 ∧
      (bucket locate).2 ≤ 4000000 := by
    unfold bucket
    split <;> decide
  obtain ⟨base, rng', hbase, hlow, hhigh⟩ := Rng.range_ok rng hbucket.1
  obtain ⟨stock, hstock⟩ := symbol8_ok locate
  obtain ⟨tick, htick, heq⟩ : ∃ tick : ℤ, Tick tick ∧
      (if base < 10000 ∧ cfg.subpenny then (1 : ℤ) else 100) = tick := by
    split
    · exact ⟨1, Or.inl rfl, rfl⟩
    · exact ⟨100, Or.inr rfl, rfl⟩
  simp only [newLocate, hbase, ok_bind, hstock, heq, pure_eq_ok]
  refine ⟨_, _, rfl, ⟨htick, ⟨le_max_right _ _, ?_⟩, TruthBook.shows_new, fun id i => ?_,
    fun id => ?_, fun id hid => ?_, fun id hid => ?_, fun id hid => ?_, fun s px hne => ?_⟩, rfl⟩
  · simp only [maxPrice]
    rcases htick with rfl | rfl <;> omega
  · simp
  · simp [Market.empty]
  · cases hid
  · cases hid
  · cases hid
  · exact absurd rfl hne

theorem newLocates_ok (cfg : SynthConfig) (is : List ℕ) (rng : Rng) :
    ∃ ls rng', newLocates cfg is rng = .ok (ls, rng') ∧ ls.length = is.length ∧
      ∀ l ∈ ls, Keeps l 1 .empty ∧ l.dead = [] := by
  induction is generalizing rng with
  | nil => exact ⟨[], rng, rfl, rfl, fun l hl => by cases hl⟩
  | cons i is ih =>
    obtain ⟨l, rng', hl, hkeep⟩ := newLocate_ok rng cfg i
    obtain ⟨ls, rng'', hls, hlen, hkeeps⟩ := ih rng'
    refine ⟨l :: ls, rng'', ?_, by rw [List.length_cons, List.length_cons, hlen], fun l' hl' => ?_⟩
    · simp only [newLocates, hl, ok_bind, hls, pure_eq_ok]
    · rcases List.mem_cons.mp hl' with rfl | hl'
      · exact hkeep
      · exact hkeeps l' hl'

/-- Accepted arguments give a generator on the empty floor. -/
theorem new_ok {fl : Floats} (rng : Rng) {nMsgs : ℕ} {cfg : SynthConfig} (wantTruth : Bool)
    (h : checkArgs fl nMsgs cfg = .ok ()) :
    ∃ g, Generator.new fl rng cfg wantTruth nMsgs = .ok g ∧ g.cfg = cfg ∧ g.out = [] ∧
      g.truth = (if wantTruth then some [] else none) ∧ g.locs.length = cfg.locates.toNat ∧
      g.keepDead = decide (0 < cfg.unknownRefRate.getD 0) ∧ (∀ l ∈ g.locs, l.dead = []) ∧
      At g Floor.new 0 := by
  have hacc := accepted_of_check h
  obtain ⟨ls, rng', hls, hlen, hkeeps⟩ :=
    newLocates_ok cfg (List.range' 1 cfg.locates.toNat) rng
  rw [List.length_range'] at hlen
  have hbytes : TruthBook.new.hashBytes = .ok Market.empty.stateBytes := by
    have hstate : Market.empty.stateBytes = [] := by
      simp [Market.stateBytes, levels_empty]
    rw [hstate]
    rfl
  simp only [Generator.new, h, hls, ok_bind, hbytes, pure_eq_ok]
  refine ⟨_, rfl, rfl, rfl, rfl, hlen, rfl, fun l hl => (hkeeps l hl).2, ⟨?_, ?_⟩,
    hacc.placeholder, hacc.unknown, fun li l hl => (hkeeps l (List.mem_of_getElem? hl)).1,
    fun _ _ => rfl, rfl, rfl, rfl, le_refl _, le_refl _, fun l => ?_⟩
  · rw [hlen]
    exact hacc.locates
  · rw [hlen]
    exact cfg.locates.toNat_lt
  · exact Market.live_empty.le

/-! A run. -/

/-- A run that can hold its header and its trailer starts at or before the opening. -/
theorem start_ok {g : Generator} {nMsgs : ℕ} (hmin : 2 * g.cfg.locates.toNat + 6 ≤ nMsgs)
    (horder : g.cfg.openNs.toNat < g.cfg.closeNs.toNat) :
    ∃ budget t0, nMsgs = budget + (2 * g.cfg.locates.toNat + 6) ∧ t0 ≤ g.cfg.openNs.toNat ∧
      g.mixBudget nMsgs = .ok budget ∧ g.start = .ok { g with ts := t0 } := by
  obtain ⟨budget, hsum⟩ := Nat.exists_eq_add_of_le' hmin
  have hsub : nMsgs - (2 + 2 * g.cfg.locates.toNat + 1 + 3) = budget := by omega
  refine ⟨budget, _, hsum, Nat.sub_le _ ((g.cfg.closeNs.toNat - g.cfg.openNs.toNat) / 8), ?_, ?_⟩
  · rw [Generator.mixBudget, subU_ok (by omega), hsub]
  · rw [Generator.start, subU_ok horder.le]
    rfl

/-- A day of `n` messages: the bytes of its calls, and where the truth was asked for its rows, whose
best bids are counted in 32 bits. -/
structure IsDay (C : Placement → Prop) (preopen : Bool) (n : ℕ) (wantTruth : Bool) (day : SynthDay)
    (rows : List (Call × Truth)) (fl : Floor) : Prop where
  length : rows.length = n
  events : Events C preopen Floor.new rows fl
  bytes : day.bytes = (rows.map fun p => p.1.framed).flatten
  truth : wantTruth = true → day.truth = rows.map Prod.snd
  counted : wantTruth = true → ∀ p ∈ rows, ∀ e ∈ p.2.bestBid, e.2 < 2 ^ 32

theorem bounded_empty : Bounded .empty := fun _ _ => show 0 < 2 ^ 32 by decide

theorem gapMax_ok {g : Generator} (t0 budget : ℕ) (ht0 : t0 ≤ g.cfg.closeNs.toNat)
    (hclose : g.cfg.closeNs.toNat < 2 ^ 48) :
    ∃ gapMax, g.gapMax t0 budget = .ok gapMax ∧ gapMax < 2 ^ 63 := by
  simp only [Generator.gapMax, subU_ok ht0, ok_bind]
  by_cases hbudget : budget = 0
  · rw [if_pos hbudget]
    exact ⟨0, rfl, by decide⟩
  · rw [if_neg hbudget]
    have hle := Nat.div_le_self (g.cfg.closeNs.toNat - t0) budget
    exact ⟨_, addU64_ok (by omega), by omega⟩

section Run

variable {Q : Prop} {C : Placement → Prop} {fl : Floats} {rng : Rng} {nMsgs : ℕ} {cfg : SynthConfig}
  {wantTruth : Bool}

/-- A run writes as many messages as were asked for. -/
theorem run_returns (h : checkArgs fl nMsgs cfg = .ok ()) (hfit : Q → ∀ p, C p → p.Fits)
    (hC : ∀ p ∈ placements fl rng nMsgs cfg wantTruth, C p) :
    Returns Q (fun day => ∃ rows fl', IsDay C cfg.crossedPreopen nMsgs wantTruth day rows fl')
      (do let g ← Generator.new fl rng cfg wantTruth nMsgs; g.run nMsgs) := by
  have hacc := accepted_of_check h
  obtain ⟨g, hnew, rfl, hout, htruth, hlen, -, -, hat⟩ := new_ok rng wantTruth h
  have hmin := hacc.min
  have hmax := hacc.max
  have horder := hacc.order
  have hclose := hacc.close
  obtain ⟨budget, t0, hsum, hopen, hbudget, hstart⟩ := start_ok hmin horder
  have hready : Ready Q { g with ts := t0 } Floor.new 0 :=
    ⟨hat.withClock g.rng t0, fun _ _ => bounded_empty, Nat.zero_le t0⟩
  simp only [placements, hnew, runPlacements, hbudget, hstart, ok_bind] at hC
  simp only [hnew, Generator.run, hbudget, hstart, ok_bind]
  refine (header_returns (C := C) hready rfl (show t0 < 2 ^ 48 by omega)).with_eq.bind
    fun g₁ h₁ => ?_
  obtain ⟨heq₁, fl₁, hgoes₁, hready₁, hts₁, hearly₁⟩ := h₁
  have hcfg₁ : g₁.cfg = g.cfg := hgoes₁.cfg
  change g₁.ts = t0 at hts₁
  obtain ⟨gapMax, hgap, hgap_lt⟩ := gapMax_ok (g := g₁) t0 budget
    (by rw [hcfg₁]; omega) (by rw [hcfg₁]; exact hclose)
  simp only [heq₁, ok_bind, hgap, pure_eq_ok] at hC
  simp only [hgap, ok_bind]
  have hlocs : { g with ts := t0 }.locs.length = g.cfg.locates.toNat := hlen
  rw [hlocs] at hgoes₁ hready₁
  have hmixing : Mixing Q budget (2 + 2 * g.cfg.locates.toNat) ⟨g₁, 0, false⟩ fl₁ := by
    refine ⟨hready₁, Nat.zero_le budget, ?_, fun _ => ⟨hearly₁, ?_⟩, fun h => by cases h⟩
    · show g₁.ts < g₁.cfg.closeNs.toNat
      rw [hts₁, hcfg₁]
      omega
    · show g₁.ts ≤ g₁.cfg.openNs.toNat
      rw [hts₁, hcfg₁]
      exact hopen
  refine (loop_returns hfit hgap_lt (by omega) budget (by simp) hmixing
    (by rw [hcfg₁]; exact hclose)
    (by rw [hcfg₁]; exact horder) hC).bind fun m hm => ?_
  obtain ⟨fl₂, k, hgoes₂, hmixing₂, hfull, hcount⟩ := hm
  have hcfg₂ : m.g.cfg = g.cfg := hgoes₂.cfg.trans hcfg₁
  obtain ⟨g₃, fl₃, k', htrailer, hgoes₃, hcount'⟩ := trailer_goes (C := C) hmixing₂
    (by rw [hcfg₂]; exact hclose) (by rw [hcfg₂]; exact horder)
  obtain ⟨rows, hrows, hevents, hwrote⟩ := (hgoes₁.trans hgoes₂).trans hgoes₃
  have hn : rows.length = nMsgs := by
    rw [hrows]
    simp only [Bool.toNat_false] at hcount
    omega
  have hkept : g₃.truth = (if wantTruth then some [] else none).map
      fun old => old ++ rows.map Prod.snd := by
    rw [hwrote.truth, ← htruth]
  simp only [htrailer, ok_bind]
  have hall : ∀ kept ∈ g₃.truth, kept.length = nMsgs := by
    intro kept hkept'
    rw [hkept] at hkept'
    cases wantTruth with
    | false => cases hkept'
    | true =>
      obtain rfl := Option.some.inj hkept'
      show ([] ++ rows.map Prod.snd).length = nMsgs
      rw [List.nil_append, List.length_map, hn]
  rw [ensure_ok hall]
  refine Returns.of_ok ⟨rows, fl₃, hn, hevents, ?_, fun hwant => ?_, fun hwant => ?_⟩
  · show g₃.out = _
    rw [hwrote.out]
    show g.out ++ _ = _
    rw [hout, List.nil_append]
  · show g₃.truth.getD [] = _
    rw [hkept, hwant]
    rfl
  · refine hwrote.counted ?_
    show g.truth.isSome
    rw [htruth, hwant]
    rfl

end Run

end Lobcore.GeneratedDays
