import Lobcore.GeneratedDays
import Lobcore.OpeningRounds

/-!
Whole days as paths. A run that returns has passed from the first state of its generator to the
last, one message at a time: the header, the mix with the opening somewhere in it or behind it,
and the close. The clock never goes back from one message to the next.
-/
namespace Lobcore.DayPaths

open Checked OrderTypes SortedMaps Markets Payloads TruthBooks Writers RoundTrips Generators
open GeneratorDraws GeneratorDraws.Generator GeneratorBooks DayEvents GeneratorSteps GeneratorRuns
open LiveReferences GeneratorMessages GeneratorPaths OpeningRounds GeneratedDays

/-! The first state. -/

/-- A generator before its first message. -/
structure Begun (nMsgs : ℕ) (cfg : SynthConfig) (wantTruth : Bool) (g : Generator) : Prop where
  accepted : Accepted nMsgs cfg
  cfg_eq : g.cfg = cfg
  out : g.out = []
  truth : g.truth = if wantTruth then some [] else none
  length : g.locs.length = cfg.locates.toNat
  keepDead : g.keepDead = decide (0 < cfg.unknownRefRate.getD 0)
  inStep : InStep g

theorem check_of_new {fl : Floats} {rng : Rng} {nMsgs : ℕ} {cfg : SynthConfig} {wantTruth : Bool}
    {g : Generator} (h : Generator.new fl rng cfg wantTruth nMsgs = .ok g) :
    checkArgs fl nMsgs cfg = .ok () := by
  cases hcheck : checkArgs fl nMsgs cfg with
  | ok u => rfl
  | error e =>
    rw [Generator.new, hcheck] at h
    cases h

/-- A generator on the empty floor that remembers no dead reference keeps none at all. -/
theorem inStep_of_at {g : Generator} (h : At g Floor.new 0) (hdead : ∀ l ∈ g.locs, l.dead = []) :
    InStep g := by
  have hkeeps : ∀ l ∈ g.locs, Keeps l 1 .empty := by
    intro l hl
    obtain ⟨li, hli, rfl⟩ := List.getElem_of_mem hl
    exact h.keeps li _ (List.getElem?_eq_getElem hli)
  have hnone : ∀ l ∈ g.locs, ∀ id, ¬ Refers l id := by
    intro l hl id hid
    rcases hid with hlive | hid
    · cases ((hkeeps l hl).live_iff id).mp hlive
    · rw [hdead l hl] at hid
      cases hid
  exact ⟨fun l hl => tracks_of_keeps (hkeeps l hl),
    fun l hl id hid => absurd (Or.inr hid) (hnone l hl id),
    fun l hl id hid => absurd hid (hnone l hl id),
    fun i j l l' hl _ _ id hid => absurd hid (hnone l (List.mem_of_getElem? hl) id)⟩

theorem begun_of_new {fl : Floats} {rng : Rng} {nMsgs : ℕ} {cfg : SynthConfig} {wantTruth : Bool}
    {g : Generator} (h : Generator.new fl rng cfg wantTruth nMsgs = .ok g) :
    Begun nMsgs cfg wantTruth g := by
  have hcheck := check_of_new h
  obtain ⟨g', hnew, hcfg, hout, htruth, hlen, hkeep, hdead, hat⟩ := new_ok rng wantTruth hcheck
  obtain rfl := Except.ok.inj (hnew.symm.trans h)
  exact ⟨accepted_of_check hcheck, hcfg, hout, htruth, hlen, hkeep, inStep_of_at hat hdead⟩

/-! Times. -/

/-- The times of a path do not decrease and lie between two bounds. -/
structure Timed (lo : ℕ) (path : List Moment) (hi : ℕ) : Prop where
  le : lo ≤ hi
  low : ∀ mo ∈ path, lo ≤ mo.time
  high : ∀ mo ∈ path, mo.time ≤ hi
  sorted : (path.map Moment.time).Pairwise (· ≤ ·)

theorem timed_nil {lo hi : ℕ} (h : lo ≤ hi) : Timed lo [] hi :=
  ⟨h, fun mo hmo => (by cases hmo), fun mo hmo => (by cases hmo), List.Pairwise.nil⟩

theorem timed_still {path : List Moment} {ts : ℕ} (h : ∀ mo ∈ path, mo.time = ts) :
    Timed ts path ts := by
  refine ⟨le_refl _, fun mo hmo => (h mo hmo).ge, fun mo hmo => (h mo hmo).le, ?_⟩
  refine List.pairwise_map.mpr (List.pairwise_iff_forall_sublist.mpr fun {a b} hab => ?_)
  have hmem := hab.subset
  rw [h a (hmem (by simp)), h b (hmem (by simp))]

theorem Timed.append {lo mid hi : ℕ} {path path' : List Moment} (h : Timed lo path mid)
    (h' : Timed mid path' hi) : Timed lo (path ++ path') hi := by
  refine ⟨h.le.trans h'.le, fun mo hmo => ?_, fun mo hmo => ?_, ?_⟩
  · rcases List.mem_append.mp hmo with hmo | hmo
    · exact h.low mo hmo
    · exact h.le.trans (h'.low mo hmo)
  · rcases List.mem_append.mp hmo with hmo | hmo
    · exact (h.high mo hmo).trans h'.le
    · exact h'.high mo hmo
  · rw [List.map_append, List.pairwise_append]
    refine ⟨h.sorted, h'.sorted, fun a ha b hb => ?_⟩
    obtain ⟨mo, hmo, rfl⟩ := List.mem_map.mp ha
    obtain ⟨mo', hmo', rfl⟩ := List.mem_map.mp hb
    exact (h.high mo hmo).trans (h'.low mo' hmo')

theorem Timed.later {lo hi hi' : ℕ} {path : List Moment} (h : Timed lo path hi) (hle : hi ≤ hi') :
    Timed lo path hi' := by
  have happend := h.append (timed_nil hle)
  rwa [List.append_nil] at happend

/-! The header. -/

/-- The locate and the body of a call. -/
def entry (c : Call) : UInt16 × Body := (c.header.locate, c.body)

/-- A path on which neither the clock nor a locate changes, and what its calls say. -/
structure Still (g : Generator) (path : List Moment) (g' : Generator)
    (said : List (UInt16 × Body)) : Prop where
  passes : Passage g path g'
  locs : g'.locs = g.locs
  ts : g'.ts = g.ts
  time : ∀ mo ∈ path, mo.time = g.ts
  plain : ∀ mo ∈ path, Plain mo.before mo.after
  entries : path.map (fun mo => entry mo.call) = said

theorem Still.nil (g : Generator) : Still g [] g [] :=
  ⟨Passage.refl g, rfl, rfl, fun mo hmo => (by cases hmo), fun mo hmo => (by cases hmo), rfl⟩

theorem Still.append {g g' g'' : Generator} {path path' : List Moment}
    {said said' : List (UInt16 × Body)} (h : Still g path g' said)
    (h' : Still g' path' g'' said') : Still g (path ++ path') g'' (said ++ said') := by
  refine ⟨h.passes.append h'.passes, h'.locs.trans h.locs, h'.ts.trans h.ts, fun mo hmo => ?_,
    fun mo hmo => ?_, ?_⟩
  · rcases List.mem_append.mp hmo with hmo | hmo
    · exact h.time mo hmo
    · rw [h'.time mo hmo, h.ts]
  · rcases List.mem_append.mp hmo with hmo | hmo
    · exact h.plain mo hmo
    · exact h'.plain mo hmo
  · rw [List.map_append, h.entries, h'.entries]

theorem Still.length {g g' : Generator} {path : List Moment} {said : List (UInt16 × Body)}
    (h : Still g path g' said) : path.length = said.length := by
  rw [← h.entries, List.length_map]

theorem still_single {g g' : Generator} {c : Call} (hplain : Plain g g') (h : Writes g c g')
    (hlocs : g'.locs = g.locs) : ∃ path, Still g path g' [entry c] :=
  ⟨[⟨g, c, g', .plain hplain, h⟩], Passage.single _ rfl, hlocs, h.clock,
    fun mo hmo => by rw [List.mem_singleton.mp hmo]; rfl,
    fun mo hmo => by rw [List.mem_singleton.mp hmo]; exact hplain, rfl⟩

theorem systemEvent_still {g : Generator} (hts : g.ts < 2 ^ 48) (code : UInt8) :
    ∃ g' path, g.systemEvent code = .ok g' ∧ Still g path g' [(0, .systemEvent code)] := by
  obtain ⟨g', hrun, hlocs, hwrites⟩ := systemEvent_writes hts code
  obtain ⟨path, hstill⟩ := still_single (.event code hrun) hwrites hlocs
  exact ⟨g', path, hrun, hstill⟩

/-- The stock of a locate. -/
def stockAt (g : Generator) (li : ℕ) : Alpha 8 :=
  g.locs[li]?.elim ⟨List.replicate 8 32, length_blank⟩ Locate.stock

/-- What a call on each locate of a list says. -/
def eachEntry (g : Generator) (body : Alpha 8 → Body) (lis : List ℕ) : List (UInt16 × Body) :=
  lis.map fun li => (.ofNat (li + 1), body (stockAt g li))

/-- A call on each locate of a list, of one message each. -/
theorem each_still {f : Generator → ℕ → Exec Generator} {body : Alpha 8 → Body}
    (hf : ∀ {g : Generator} {li : ℕ} {l : Locate}, g.locs[li]? = some l → Tracks l →
      g.ts < 2 ^ 48 →
      Returns False (fun g' => Emits g li l (body l.stock) g' ∧ g'.locs = g.locs) (f g li))
    (hplain : ∀ {g g' : Generator} {li : ℕ}, f g li = .ok g' → Plain g g') (lis : List ℕ) :
    ∀ {g : Generator}, (∀ li ∈ lis, li < g.locs.length) → (∀ l ∈ g.locs, Tracks l) →
      g.ts < 2 ^ 48 →
      Returns False (fun g' => ∃ path, Still g path g' (eachEntry g body lis))
      (lis.foldlM f g) := by
  induction lis with
  | nil =>
    intro g _ _ _
    exact Returns.of_ok ⟨[], Still.nil g⟩
  | cons li lis ih =>
    intro g hlis htracks hts
    obtain ⟨l, hl⟩ : ∃ l, g.locs[li]? = some l :=
      ⟨_, List.getElem?_eq_getElem (hlis li (List.mem_cons_self ..))⟩
    rw [List.foldlM_cons]
    refine (hf hl (htracks _ (List.mem_of_getElem? hl)) hts).with_eq.bind fun g₁ h₁ => ?_
    obtain ⟨hrun, hemits, hlocs⟩ := h₁
    obtain ⟨path, hstill⟩ := still_single (hplain hrun) hemits.writes hlocs
    refine (ih (fun lj hlj => ?_) (fun l hl => htracks l (hlocs ▸ hl))
      (by rw [hstill.ts]; exact hts)).mono fun g₂ h₂ => ?_
    · rw [hlocs]
      exact hlis lj (List.mem_cons_of_mem _ hlj)
    · obtain ⟨path', hstill'⟩ := h₂
      have hentries : eachEntry g₁ body lis = eachEntry g body lis := by
        simp only [eachEntry, stockAt, hlocs]
      have hfirst : stockAt g li = l.stock := by
        rw [stockAt, hl]
        rfl
      rw [hentries] at hstill'
      refine ⟨path ++ path', ?_⟩
      have hboth := hstill.append hstill'
      rw [eachEntry, List.map_cons, hfirst]
      exact hboth

/-- What the header says: two system events, then two messages for each locate. -/
def headEntries (stock : ℕ → Alpha 8) (n : ℕ) : List (UInt16 × Body) :=
  [(0, .systemEvent 79), (0, .systemEvent 83)] ++
    (List.range n).map (fun li => (.ofNat (li + 1), .stockDirectory (stock li))) ++
    (List.range n).map fun li => (.ofNat (li + 1), .tradingAction (stock li) 84)

theorem header_still {g : Generator} (htracks : ∀ l ∈ g.locs, Tracks l) (hts : g.ts < 2 ^ 48) :
    Returns False (fun g' => ∃ path, Still g path g' (headEntries (stockAt g) g.locs.length))
      g.header := by
  obtain ⟨g₁, path₁, hrun₁, h₁⟩ := systemEvent_still hts 79
  obtain ⟨g₂, path₂, hrun₂, h₂⟩ := systemEvent_still (by rw [h₁.ts]; exact hts) 83
  have h := h₁.append h₂
  have hlis : ∀ {g' : Generator}, g'.locs = g.locs →
      ∀ li ∈ List.range g.locs.length, li < g'.locs.length := by
    intro g' hlocs li hli
    rw [hlocs]
    exact List.mem_range.mp hli
  have hstock : ∀ {g' : Generator}, g'.locs = g.locs → stockAt g' = stockAt g := by
    intro g' hlocs
    funext li
    rw [stockAt, hlocs, stockAt]
  simp only [Generator.header, hrun₁, hrun₂, ok_bind, directories_eq, actions_eq, h.locs]
  refine (@each_still directory .stockDirectory (fun hl ht hts => directory_emits hl ht hts)
    (fun hrun => .directory _ hrun) (List.range g.locs.length) _ (hlis h.locs)
    (fun l hl => htracks l (h.locs ▸ hl)) (by rw [h.ts]; exact hts)).bind fun g₃ h₃ => ?_
  obtain ⟨path₃, h₃⟩ := h₃
  rw [eachEntry, hstock h.locs] at h₃
  have h' := h.append h₃
  rw [h'.locs]
  refine (@each_still action (.tradingAction · 84) (fun hl ht hts => action_emits hl ht hts)
    (fun hrun => .action _ hrun) (List.range g.locs.length) _ (hlis h'.locs)
    (fun l hl => htracks l (h'.locs ▸ hl)) (by rw [h'.ts]; exact hts)).mono fun g₄ h₄ => ?_
  obtain ⟨path₄, h₄⟩ := h₄
  rw [eachEntry, hstock h'.locs] at h₄
  exact ⟨_, h'.append h₄⟩

/-! The mix. -/

/-- A message of the mix, for one of the locates. -/
structure OfMix (mo : Moment) : Prop where
  mix : isMix mo.call.body = true
  locate_pos : 0 < mo.call.header.locate.toNat
  locate_le : mo.call.header.locate.toNat ≤ mo.before.locs.length

theorem ofMix_of_call {mo : Moment} {li : ℕ} {l : Locate} {body : Body}
    (hl : mo.before.locs[li]? = some l) (hli : li + 1 < 2 ^ 16)
    (hcall : mo.call = callAt mo.before li body)
    (hmix : isMix body = true) : OfMix mo := by
  have hlocate : mo.call.header.locate.toNat = li + 1 := by
    rw [hcall]
    exact UInt16.toNat_ofNat_of_lt' hli
  have hlt := (List.getElem?_eq_some_iff.mp hl).1
  exact ⟨by rw [hcall]; exact hmix, by omega, by omega⟩

theorem ofMix_of_fills {li : ℕ} {s : Side} {k : ℕ} {mo : Moment} (h : Fills li s k mo) :
    OfMix mo := by
  obtain ⟨l, id, n, px, hl, -, -, -, hcall⟩ := h.hit
  exact ofMix_of_call hl h.li_lt hcall rfl

/-- Messages of the mix around one opening event. -/
def Opened (openNs : ℕ) (path : List Moment) : Prop :=
  ∃ before ring after, path = before ++ ring :: after ∧ entry ring.call = (0, .systemEvent 81) ∧
    ring.time = openNs ∧ ∀ mo ∈ before ++ after, OfMix mo

theorem Opened.append {openNs : ℕ} {path path' : List Moment} (h : Opened openNs path)
    (h' : ∀ mo ∈ path', OfMix mo) : Opened openNs (path ++ path') := by
  obtain ⟨before, ring, after, rfl, hring, htime, hmix⟩ := h
  refine ⟨before, ring, after ++ path', by simp, hring, htime, fun mo hmo => ?_⟩
  rw [← List.append_assoc] at hmo
  rcases List.mem_append.mp hmo with hmo | hmo
  · exact hmix mo hmo
  · exact h' mo hmo

/-- A moment at which an order goes to be placed only as `C` has it. -/
def Places (C : Placement → Prop) (mo : Moment) : Prop :=
  Plain mo.before mo.after ∨ ∀ p, placing mo.before = .ok (some p) → C p

/-- The loop over the mix, on its way from the generator `g`. -/
structure Mixed (C : Placement → Prop) (budget : ℕ) (g : Generator) (path : List Moment)
    (m : Mix) : Prop where
  passes : Passage g path m.g
  places : ∀ mo ∈ path, Places C mo
  count : path.length = m.emitted + m.qDone.toNat
  within : m.emitted ≤ budget
  timed : Timed g.ts path m.g.ts
  ts_lt : m.g.ts < g.cfg.closeNs.toNat
  early : m.qDone = false → m.g.ts ≤ g.cfg.openNs.toNat ∧ ∀ mo ∈ path, OfMix mo
  late : m.qDone = true → Opened g.cfg.openNs.toNat path

theorem advanceClock_yields {g : Generator} (hlt : g.ts < g.cfg.closeNs.toNat) (gapMax : ℕ) :
    Returns False (fun g' => ∃ rng ts, g' = { g with rng, ts } ∧ g.ts ≤ ts ∧
      ts < g.cfg.closeNs.toNat) (g.advanceClock gapMax) := by
  refine (randomRange_yields g 0 (gapMax + 1)).bind fun p hp => ?_
  obtain ⟨gap, g'⟩ := p
  obtain ⟨⟨rng, rfl⟩, -⟩ := hp
  refine (Returns.any _).with_eq.bind fun ts hts => ?_
  obtain rfl := addU64_eq hts.1
  refine Returns.of_ok ⟨rng, _, rfl, le_min (Nat.le_add_right ..) (Nat.le_sub_one_of_lt hlt), ?_⟩
  have hle := min_le_right (g.ts + gap) (g.cfg.closeNs.toNat - 1)
  show min (g.ts + gap) (g.cfg.closeNs.toNat - 1) < g.cfg.closeNs.toNat
  omega

section Loop

variable {C : Placement → Prop} {budget gapMax : ℕ} {g : Generator} (hg : InStep g)
  (hclose : g.cfg.closeNs.toNat < 2 ^ 48) (hopen : g.cfg.openNs.toNat < g.cfg.closeNs.toNat)

include hg hclose

/-- The step of a round. -/
theorem step_mixed {m : Mix} {path : List Moment} (h : Mixed C budget g path m)
    (hlt : m.emitted < budget) (hbefore : m.qDone = false → m.g.ts < g.cfg.openNs.toNat)
    (hC : ∀ p, placing m.g = .ok (some p) → C p) :
    Returns False (fun g' => ∃ mo, Mixed C budget g (path ++ [mo]) ⟨g', m.emitted + 1, m.qDone⟩)
      m.g.step := by
  have hts : m.g.ts < 2 ^ 48 := h.ts_lt.trans hclose
  refine (step_mixes (h.passes.inStep hg).1 hts).with_eq.mono fun g' h' => ?_
  obtain ⟨hrun, li, l, body, hemits, hmix, -⟩ := h'
  obtain ⟨mo, hmo⟩ : ∃ mo : Moment, mo = ⟨m.g, _, g', .step hrun, hemits.writes⟩ := ⟨_, rfl⟩
  have hof : OfMix mo := by
    rw [hmo]
    exact ofMix_of_call hemits.found hemits.li_lt rfl hmix
  have hafter : mo.after = g' := by rw [hmo]
  have hat : mo.before = m.g := by rw [hmo]
  have htime : mo.time = m.g.ts := by rw [Moment.time, hat]
  have hone : ∀ mo' ∈ [mo], OfMix mo' := fun mo' hmo' => List.mem_singleton.mp hmo' ▸ hof
  have hplaces : Places C mo := Or.inr (hat ▸ hC)
  refine ⟨mo, ⟨hafter ▸ h.passes.append (Passage.single mo hat), fun mo' hmo' => ?_,
    ?_, hlt, ?_, ?_, fun hq => ⟨?_, ?_⟩, fun hq => (h.late hq).append hone⟩⟩
  · rcases List.mem_append.mp hmo' with hmo' | hmo'
    · exact h.places mo' hmo'
    · exact List.mem_singleton.mp hmo' ▸ hplaces
  · rw [List.length_append, h.count, List.length_singleton]
    show _ = m.emitted + 1 + m.qDone.toNat
    omega
  · show Timed g.ts _ g'.ts
    rw [hemits.writes.clock]
    exact h.timed.append (timed_still fun mo' hmo' => by rw [List.mem_singleton.mp hmo', htime])
  · show g'.ts < _
    rw [hemits.writes.clock]
    exact h.ts_lt
  · show g'.ts ≤ _
    rw [hemits.writes.clock]
    exact (hbefore hq).le
  · intro mo' hmo'
    rcases List.mem_append.mp hmo' with hmo' | hmo'
    · exact (h.early hq).2 mo' hmo'
    · exact hone mo' hmo'

include hopen

/-- A round of the loop up to its step. -/
theorem ready_mixed {m : Mix} {path : List Moment} (h : Mixed C budget g path m) :
    Returns False (fun m' => ∃ path', Mixed C budget g (path ++ path') m' ∧
      (m'.qDone = false → m'.g.ts < g.cfg.openNs.toNat)) (m.ready budget gapMax) := by
  have hcfg : m.g.cfg = g.cfg := h.passes.cfg
  have htracks := (h.passes.inStep hg).1.tracks
  refine (advanceClock_yields (by rw [hcfg]; exact h.ts_lt) gapMax).bind fun g₁ h₁ => ?_
  obtain ⟨rng, ts, rfl, hle, hts⟩ := h₁
  rw [hcfg] at hts
  have hns : m.g.cfg.openNs.toNat = g.cfg.openNs.toNat := by rw [hcfg]
  dsimp only
  rw [hns]
  by_cases hdue : (!m.qDone && decide (g.cfg.openNs.toNat ≤ ts)) = true
  · have hq : m.qDone = false := by simpa using (Bool.and_eq_true_iff.mp hdue).1
    have hopened : g.cfg.openNs.toNat ≤ ts := of_decide_eq_true (Bool.and_eq_true_iff.mp hdue).2
    obtain ⟨hbefore, hmix⟩ := h.early hq
    have hcount := h.count
    rw [hq] at hcount
    simp only [if_pos hdue, subU_ok h.within, ok_bind]
    refine (openMarket_opens (Q := False)
      (g := { m.g with rng, ts := g.cfg.openNs.toNat }) htracks (hopen.trans hclose)
      (budget - m.emitted) False.elim).bind fun out hout => ?_
    obtain ⟨n, g₂⟩ := out
    obtain ⟨fills, ring, hopens, hplain⟩ := hout
    refine (Returns.any _).with_eq.bind fun emitted hemitted => ?_
    obtain rfl := addU64_eq hemitted.1
    have htime : Timed g.cfg.openNs.toNat (fills ++ [ring]) g.cfg.openNs.toNat :=
      timed_still hopens.time
    have hlen := hopens.count
    have hle_left := hopens.within
    have hwithin := h.within
    dsimp only at hlen hle_left
    refine Returns.of_ok ⟨fills ++ [ring], ⟨?_, fun mo hmo => ?_, ?_, ?_, ?_, hts,
      fun hq => (by cases hq), fun _ => ?_⟩, fun hq => (by cases hq)⟩
    · exact (h.passes.append hopens.passes.quiet).withClock g₂.rng ts
    · rcases List.mem_append.mp hmo with hmo | hmo
      · exact h.places mo hmo
      · exact Or.inl (hplain mo hmo)
    · rw [List.length_append, List.length_append, List.length_singleton, hcount, hlen]
      show m.emitted + 0 + (n + 1) = m.emitted + n + 1
      omega
    · show m.emitted + n ≤ budget
      omega
    · exact ((h.timed.later hbefore).append htime).later hopened
    · refine ⟨path ++ fills, ring, [], by simp, by rw [hopens.rings]; rfl,
        hopens.time ring (by simp), fun mo hmo => ?_⟩
      rw [List.append_nil] at hmo
      rcases List.mem_append.mp hmo with hmo | hmo
      · exact hmix mo hmo
      · obtain ⟨li, -, s, k, hfills⟩ := hopens.fills mo hmo
        exact ofMix_of_fills hfills
  · rw [if_neg hdue]
    have hbefore : m.qDone = false → ts < g.cfg.openNs.toNat := by
      intro hq
      rw [hq, Bool.not_false, Bool.true_and, decide_eq_true_eq] at hdue
      exact not_le.mp hdue
    refine Returns.of_ok ⟨[], ?_, hbefore⟩
    rw [List.append_nil]
    exact ⟨h.passes.withClock rng ts, h.places, h.count, h.within, h.timed.later hle, hts,
      fun hq => ⟨(hbefore hq).le, (h.early hq).2⟩, h.late⟩

/-- The loop writes messages up to its budget. -/
theorem loop_mixed (fuel : ℕ) : ∀ {m : Mix} {path : List Moment}, Mixed C budget g path m →
    (∀ p ∈ loopPlacements budget gapMax fuel m, C p) →
    Returns False (fun m' => ∃ path', Mixed C budget g path' m' ∧ m'.emitted = budget)
      (Mix.loop budget gapMax fuel m) := by
  induction fuel with
  | zero =>
    intro m path h _
    rw [Mix.loop]
    by_cases hlt : m.emitted < budget
    · rw [if_pos hlt]
      exact Or.inr ⟨id, _, rfl⟩
    · rw [if_neg hlt]
      exact Returns.of_ok ⟨path, h, le_antisymm h.within (not_lt.mp hlt)⟩
  | succ fuel ih =>
    intro m path h hC
    rw [Mix.loop]
    rw [loopPlacements] at hC
    by_cases hlt : m.emitted < budget
    · rw [if_pos hlt] at hC ⊢
      refine (ready_mixed hg hclose hopen h).with_eq.bind fun m₁ h₁ => ?_
      obtain ⟨heq₁, path₁, hmixed₁, hbefore⟩ := h₁
      simp only [heq₁] at hC
      by_cases hfull : budget ≤ m₁.emitted
      · rw [if_pos hfull]
        exact Returns.of_ok ⟨_, hmixed₁, le_antisymm hmixed₁.within hfull⟩
      · rw [if_neg hfull] at hC ⊢
        have hplaced : ∀ p, placing m₁.g = .ok (some p) → C p := by
          intro p hp
          refine hC p (List.mem_append_left _ ?_)
          rw [placed, hp]
          exact List.mem_singleton_self p
        refine (step_mixed hg hclose hmixed₁ (not_le.mp hfull) hbefore hplaced).with_eq.bind
          fun g₂ h₂ => ?_
        obtain ⟨heq₂, mo, hmixed₂⟩ := h₂
        refine ih hmixed₂ fun p hp => hC p (List.mem_append_right _ ?_)
        simp only [heq₂]
        exact hp
    · rw [if_neg hlt]
      exact Returns.of_ok ⟨path, h, le_antisymm h.within (not_lt.mp hlt)⟩

end Loop

/-! The close, and the whole day. -/

/-- What the close says. -/
def tailEntries : List (UInt16 × Body) :=
  [(0, .systemEvent 77), (0, .systemEvent 69), (0, .systemEvent 67)]

/-- Behind the loop the opening is still rung if it is due. -/
theorem ring_returns {C : Placement → Prop} {budget : ℕ} {g : Generator}
    {path : List Moment} {m : Mix}
    (h : Mixed C budget g path m) (hclose : g.cfg.closeNs.toNat < 2 ^ 48)
    (hopen : g.cfg.openNs.toNat < g.cfg.closeNs.toNat) :
    ∃ g' path', (if m.qDone then pure m.g else
        Generator.systemEvent { m.g with ts := max m.g.ts m.g.cfg.openNs.toNat } 81) = .ok g' ∧
      Passage g path' g' ∧ (∀ mo ∈ path', Places C mo) ∧ path'.length = m.emitted + 1 ∧
      Opened g.cfg.openNs.toNat path' ∧ Timed g.ts path' g.cfg.closeNs.toNat := by
  have hcfg : m.g.cfg = g.cfg := h.passes.cfg
  have hcount := h.count
  cases hq : m.qDone with
  | true =>
    rw [hq] at hcount
    exact ⟨m.g, path, rfl, h.passes, h.places, hcount, h.late hq, h.timed.later h.ts_lt.le⟩
  | false =>
    obtain ⟨hbefore, hmix⟩ := h.early hq
    have hmax : max m.g.ts m.g.cfg.openNs.toNat = g.cfg.openNs.toNat := by
      rw [hcfg]
      exact max_eq_right hbefore
    rw [hq] at hcount
    rw [hmax]
    obtain ⟨g', rings, hrun, hstill⟩ := systemEvent_still
      (show { m.g with ts := g.cfg.openNs.toNat }.ts < 2 ^ 48 from hopen.trans hclose) 81
    obtain ⟨ring, rfl⟩ := List.length_eq_one_iff.mp hstill.length
    have hring := List.singleton_inj.mp hstill.entries
    refine ⟨g', path ++ [ring], hrun, h.passes.append hstill.passes.quiet, fun mo hmo => ?_, ?_,
      ⟨path, ring, [], rfl, hring, hstill.time ring (List.mem_singleton_self _), fun mo hmo => ?_⟩,
      ((h.timed.later hbefore).append (timed_still hstill.time)).later hopen.le⟩
    · rcases List.mem_append.mp hmo with hmo | hmo
      · exact h.places mo hmo
      · exact Or.inl (hstill.plain mo hmo)
    · rw [List.length_append, hcount]
      rfl
    · rw [List.append_nil] at hmo
      exact hmix mo hmo

theorem trailer_returns {C : Placement → Prop} {budget : ℕ} {g : Generator} {path : List Moment}
    {m : Mix} (h : Mixed C budget g path m) (hclose : g.cfg.closeNs.toNat < 2 ^ 48)
    (hopen : g.cfg.openNs.toNat < g.cfg.closeNs.toNat) :
    ∃ g' mid tail, Generator.trailer m = .ok g' ∧ Passage g (mid ++ tail) g' ∧
      (∀ mo ∈ mid ++ tail, Places C mo) ∧ mid.length = m.emitted + 1 ∧
      Opened g.cfg.openNs.toNat mid ∧ tail.map (fun mo => entry mo.call) = tailEntries ∧
      (∀ mo ∈ tail, mo.time = g.cfg.closeNs.toNat) ∧
      Timed g.ts (mid ++ tail) g.cfg.closeNs.toNat := by
  obtain ⟨g₁, mid, hrun₁, hpath₁, hplaces, hlen, hopened, htimed⟩ := ring_returns h hclose hopen
  have hns : g₁.cfg.closeNs.toNat = g.cfg.closeNs.toNat := by rw [hpath₁.cfg]
  have hlt : g₁.cfg.closeNs.toNat < 2 ^ 48 := hns ▸ hclose
  obtain ⟨g₂, path₂, hrun₂, h₂⟩ := systemEvent_still
    (show { g₁ with ts := g₁.cfg.closeNs.toNat }.ts < 2 ^ 48 from hlt) 77
  obtain ⟨g₃, path₃, hrun₃, h₃⟩ := systemEvent_still (by rw [h₂.ts]; exact hlt) 69
  have h' := h₂.append h₃
  obtain ⟨g₄, path₄, hrun₄, h₄⟩ := systemEvent_still (by rw [h'.ts]; exact hlt) 67
  have hstill := h'.append h₄
  have htime : ∀ mo ∈ path₂ ++ path₃ ++ path₄, mo.time = g.cfg.closeNs.toNat :=
    fun mo hmo => (hstill.time mo hmo).trans hns
  have hall : ∀ mo ∈ mid ++ (path₂ ++ path₃ ++ path₄), Places C mo := by
    intro mo hmo
    rcases List.mem_append.mp hmo with hmo | hmo
    · exact hplaces mo hmo
    · exact Or.inl (hstill.plain mo hmo)
  refine ⟨g₄, mid, _, ?_, hpath₁.append hstill.passes.quiet, hall, hlen, hopened, hstill.entries,
    htime, htimed.append (timed_still htime)⟩
  unfold Generator.trailer
  cases hq : m.qDone with
  | true =>
    rw [hq, if_pos rfl] at hrun₁
    obtain rfl := Except.ok.inj hrun₁
    simp only [if_true, pure_bind, hrun₂, ok_bind, hrun₃, hrun₄]
  | false =>
    rw [hq, if_neg Bool.false_ne_true] at hrun₁
    simp only [Bool.false_eq_true, if_false, hrun₁, ok_bind, hrun₂, hrun₃, hrun₄]

/-- The path of a day: the header, the mix with one opening event, and the close. -/
structure DayPath (C : Placement → Prop) (nMsgs : ℕ) (g : Generator) (path : List Moment)
    (g' : Generator) : Prop where
  passes : Passage g path g'
  places : ∀ mo ∈ path, Places C mo
  length : path.length = nMsgs
  timed : Timed 0 path g.cfg.closeNs.toNat
  parts : ∃ stock heads mid tail, path = heads ++ mid ++ tail ∧
    heads.map (fun mo => entry mo.call) = headEntries stock g.locs.length ∧
    Opened g.cfg.openNs.toNat mid ∧ tail.map (fun mo => entry mo.call) = tailEntries ∧
    ∀ mo ∈ tail, mo.time = g.cfg.closeNs.toNat

theorem length_headEntries (stock : ℕ → Alpha 8) (n : ℕ) :
    (headEntries stock n).length = 2 + 2 * n := by
  simp only [headEntries, List.length_append, List.length_map, List.length_range,
    List.length_cons, List.length_nil]
  omega

/-- A run that returns has gone a day's path. -/
theorem run_path {C : Placement → Prop} {nMsgs : ℕ} {cfg : SynthConfig} {wantTruth : Bool}
    {g : Generator} (h : Begun nMsgs cfg wantTruth g) (hC : ∀ p ∈ runPlacements g nMsgs, C p) :
    Returns False (fun day => ∃ path g', DayPath C nMsgs g path g' ∧
      day = ⟨g'.out, g'.truth.getD []⟩) (g.run nMsgs) := by
  obtain ⟨hacc, hcfg, -, -, hlen, -, hin⟩ := h
  have hmin := hacc.min
  have horder := hacc.order
  have hclose := hacc.close
  rw [← hcfg] at hmin horder hclose hlen
  obtain ⟨budget, t0, hsum, hopen, hbudget, hstart⟩ := start_ok hmin horder
  simp only [runPlacements, hbudget, hstart, ok_bind] at hC
  simp only [Generator.run, hbudget, hstart, ok_bind]
  refine (header_still (g := { g with ts := t0 }) hin.tracks
    (show t0 < 2 ^ 48 by omega)).with_eq.bind fun g₁ h₁ => ?_
  obtain ⟨heq₁, heads, hstill⟩ := h₁
  have hcfg₁ : g₁.cfg = g.cfg := hstill.passes.cfg
  have hin₁ : InStep g₁ := (hstill.passes.quiet.inStep hin).1
  have hts₁ : g₁.ts = t0 := hstill.ts
  have hmixed : Mixed C budget g₁ [] ⟨g₁, 0, false⟩ := by
    refine ⟨Passage.refl g₁, fun mo hmo => (by cases hmo), rfl, Nat.zero_le budget,
      timed_nil (le_refl _), ?_,
      fun _ => ⟨?_, fun mo hmo => (by cases hmo)⟩, fun hq => (by cases hq)⟩
    · show g₁.ts < g₁.cfg.closeNs.toNat
      rw [hts₁, hcfg₁]
      omega
    · show g₁.ts ≤ g₁.cfg.openNs.toNat
      rw [hts₁, hcfg₁]
      exact hopen
  rw [← hcfg₁] at hclose horder
  refine (Returns.any _).with_eq.bind fun gapMax hgap => ?_
  obtain ⟨hgap, -⟩ := hgap
  simp only [heq₁, ok_bind, hgap, pure_eq_ok] at hC
  refine (loop_mixed hin₁ hclose horder budget hmixed hC).bind fun m hm => ?_
  obtain ⟨path, hmixed', hfull⟩ := hm
  obtain ⟨g', mid, tail, hrun, hpath, hplaces, hmid, hopened, htail, hat, htimed⟩ :=
    trailer_returns hmixed' hclose horder
  simp only [hrun, ok_bind]
  refine (Returns.any _).bind fun _ _ => Returns.of_ok ⟨heads ++ mid ++ tail,
    g', ⟨?_, fun mo hmo => ?_,
    ?_, ?_, stockAt { g with ts := t0 }, heads, mid, tail, rfl, hstill.entries, ?_, htail, ?_⟩, rfl⟩
  · rw [List.append_assoc]
    exact hstill.passes.quiet.append hpath
  · rw [List.append_assoc] at hmo
    rcases List.mem_append.mp hmo with hmo | hmo
    · exact Or.inl (hstill.plain mo hmo)
    · exact hplaces mo hmo
  · have htails : tail.length = 3 := by
      rw [← List.length_map (f := fun mo : Moment => entry mo.call), htail]
      rfl
    have hheads := hstill.length
    rw [length_headEntries] at hheads
    change heads.length = 2 + 2 * g.locs.length at hheads
    rw [List.length_append, List.length_append]
    omega
  · rw [List.append_assoc, ← hcfg₁]
    have hstart : Timed t0 heads t0 := timed_still hstill.time
    rw [hts₁] at htimed
    have hboth := ((timed_nil (Nat.zero_le t0)).append hstart).append htimed
    rwa [List.nil_append] at hboth
  · rw [← hcfg₁]
    exact hopened
  · rw [← hcfg₁]
    exact hat

end Lobcore.DayPaths
