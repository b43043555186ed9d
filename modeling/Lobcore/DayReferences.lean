import Lobcore.DayPaths

/-!
The references over a whole day. After every message the live list of a locate, its index map and
its book hold the same orders, no reference is kept twice, and all are older than the next one.
Where no reference is made up, every message for an order finds it live.
-/
namespace Lobcore.DayReferences

open Checked OrderTypes SortedMaps Markets Payloads TruthBooks Writers RoundTrips Generators
open GeneratorDraws GeneratorDraws.Generator GeneratorBooks DayEvents GeneratorSteps GeneratorRuns
open LiveReferences GeneratorMessages GeneratorPaths GeneratedDays DayPaths

/-- The bookkeeping of live and dead references, on all locates. -/
structure Kept (g : Generator) : Prop where
  nodup : ∀ l ∈ g.locs, l.live.Nodup
  index : ∀ l ∈ g.locs, ∀ id i, l.liveIdx.get? id = some i ↔ l.live[i]? = some id
  orders : ∀ l ∈ g.locs, ∀ id, id ∈ l.live ↔ (l.book.lookup id).isSome
  levels : ∀ l ∈ g.locs, ∀ id,
    id ∈ l.live ↔ ∃ s px q, (l.book.side s).get? px = some q ∧ id ∈ ids q
  dead : ∀ l ∈ g.locs, ∀ id ∈ l.dead, ∀ l' ∈ g.locs, id ∉ l'.live
  below : ∀ l ∈ g.locs, ∀ id, id ∈ l.live ∨ id ∈ l.dead → id.toNat < g.nextRef
  apart : ∀ (i j : ℕ) (l l' : Locate) (id : OrderId), g.locs[i]? = some l →
    g.locs[j]? = some l' → id ∈ l.live ∨ id ∈ l.dead → id ∈ l'.live ∨ id ∈ l'.dead → i = j

/-- The orders of a book are those that stand on its levels. -/
theorem Tracks.mem_level {l : Locate} (h : Tracks l) (id : OrderId) :
    id ∈ l.live ↔ ∃ s px q, (l.book.side s).get? px = some q ∧ id ∈ ids q := by
  have hhome : (shown l.book).home id = l.book.lookup id := rfl
  rw [h.live_iff id, Option.isSome_iff_exists]
  constructor
  · intro hsome
    obtain ⟨⟨s, px⟩, hlookup⟩ := hsome
    have hid := (h.shows.sound.home_iff id s px).mp (hhome.trans hlookup)
    rw [h.shows.queue_eq] at hid
    cases hlevel : (l.book.side s).get? px with
    | none =>
      rw [hlevel] at hid
      cases hid
    | some q =>
      rw [hlevel] at hid
      exact ⟨s, px, q, hlevel, hid⟩
  · intro hlevel
    obtain ⟨s, px, q, hlevel, hid⟩ := hlevel
    refine ⟨(s, px), hhome.symm.trans ((h.shows.sound.home_iff id s px).mpr ?_)⟩
    rw [h.shows.queue_eq, hlevel]
    exact hid

theorem InStep.kept {g : Generator} (h : InStep g) : Kept g := by
  refine ⟨fun l hl => Indexed.nodup (h.tracks l hl).indexed, fun l hl => (h.tracks l hl).indexed,
    fun l hl => (h.tracks l hl).live_iff, fun l hl => Tracks.mem_level (h.tracks l hl),
    fun l hl id hid l' hl' hlive => ?_, fun l hl id hid => h.below l hl id hid,
    fun i j l l' id hl hl' hid hid' => ?_⟩
  · obtain ⟨i, hi, rfl⟩ := List.getElem_of_mem hl
    obtain ⟨j, hj, rfl⟩ := List.getElem_of_mem hl'
    by_cases hij : i = j
    · subst hij
      exact h.gone _ hl id hid hlive
    · exact h.apart i j _ _ (List.getElem?_eq_getElem hi) (List.getElem?_eq_getElem hj) hij id
        (Or.inr hid) (Or.inl hlive)
  · by_contra hij
    exact h.apart i j l l' hl hl' hij id hid hid'

/-- What a message for the live order `id` of a locate may do: a cancel leaves some of it, and an
execution is for the head of the best level of the order's side and takes no more than it has. -/
def Strikes (l : Locate) (id : OrderId) : Body → Prop
  | .orderCancel _ k => ∃ n, l.book.qty id = some n ∧ k.toNat < n
  | .orderExecuted _ k _ => ∃ s px n, l.book.lookup id = some (s, px) ∧
    l.book.headOfBest s = some (id, n) ∧ k.toNat ≤ n
  | .orderExecutedWithPrice _ k .. => ∃ s px n, l.book.lookup id = some (s, px) ∧
    l.book.headOfBest s = some (id, n) ∧ k.toNat ≤ n
  | _ => True

/-- A message for an order finds it live on the locate that it names. -/
def Finds (mo : Moment) : Prop :=
  ∀ id, target mo.call.body = some id → ∃ li l, mo.before.locs[li]? = some l ∧
    mo.call.header.locate.toNat = li + 1 ∧ id ∈ l.live ∧ Strikes l id mo.call.body

theorem lookup_of_head {l : Locate} (ht : Tracks l) {s : Side} {id : OrderId} {n : ℕ}
    (hhead : l.book.headOfBest s = some (id, n)) : ∃ px, l.book.lookup id = some (s, px) := by
  obtain ⟨px, rest, -, hfind⟩ := ht.shows.headOfBest_eq_some hhead
  exact ⟨px, (Market.find_eq_some.mp hfind).1⟩

/-- An execution at the head of its side strikes it. -/
theorem strikes_head {l : Locate} (ht : Tracks l) {id : OrderId} {k : ℕ}
    (h : ∃ s n, l.book.headOfBest s = some (id, n) ∧ k ≤ n) : ∃ s px n,
    l.book.lookup id = some (s, px) ∧ l.book.headOfBest s = some (id, n) ∧ k ≤ n := by
  obtain ⟨s, n, hhead, hle⟩ := h
  obtain ⟨px, hlookup⟩ := lookup_of_head ht hhead
  exact ⟨s, px, n, hlookup, hhead, hle⟩

theorem Aimed.strikes {l : Locate} (ht : Tracks l) {body : Body} (h : Aimed l body) {id : OrderId}
    (htarget : target body = some id) : id ∈ l.live ∧ Strikes l id body := by
  cases body with
  | orderDelete r =>
    obtain rfl := Option.some.inj htarget
    exact ⟨h, trivial⟩
  | orderCancel r k =>
    obtain rfl := Option.some.inj htarget
    exact h
  | orderReplace old new n px =>
    obtain rfl := Option.some.inj htarget
    exact ⟨h, trivial⟩
  | orderExecuted r k m =>
    obtain rfl := Option.some.inj htarget
    exact ⟨h.1, strikes_head ht h.2⟩
  | orderExecutedWithPrice r k m printable px' =>
    obtain rfl := Option.some.inj htarget
    exact ⟨h.1, strikes_head ht h.2⟩
  | _ => cases htarget

theorem Moment.finds {mo : Moment} (h : InStep mo.before) (hkeep : mo.before.keepDead = false) :
    Finds mo := by
  intro id htarget
  rcases mo.cases h with ⟨code, hcall, -⟩ | ⟨li, l, hcall, hemits, haimed⟩
  · rw [hcall] at htarget
    cases htarget
  · have ht := h.tracks l (List.mem_of_getElem? hemits.found)
    have haimed := haimed.resolve_right fun hinjected => by
      rw [hkeep] at hinjected
      cases hinjected.1
    obtain ⟨hlive, hstrikes⟩ := Aimed.strikes ht haimed htarget
    refine ⟨li, l, hemits.found, ?_, hlive, hstrikes⟩
    rw [hcall]
    exact UInt16.toNat_ofNat_of_lt' hemits.li_lt

/-- Whatever is drawn, the references are kept after every message, and where none is made up
every message for an order finds it. The messages of a day that comes to its end are among these. -/
theorem references_kept {fl : Floats} {rng : Rng} {nMsgs : ℕ} {cfg : SynthConfig}
    {wantTruth : Bool} {g : Generator}
    (h : Generator.new fl rng cfg wantTruth nMsgs = .ok g) :
    (∀ path g', Passage g path g' → ∀ mo ∈ path, Kept mo.after ∧
      (cfg.unknownRefRate = some 0 → Finds mo)) ∧
    ∀ day, g.run nMsgs = .ok day → ∃ path g', Passage g path g' ∧ path.length = nMsgs ∧
      day.bytes = (path.map fun mo => mo.call.framed).flatten := by
  have hbegun := begun_of_new h
  refine ⟨fun path g' hpath mo hmo => ?_, fun day hday => ?_⟩
  · obtain ⟨hbefore, hafter⟩ := (hpath.inStep hbegun.inStep).2 mo hmo
    refine ⟨InStep.kept hafter, fun hrate => Moment.finds hbefore ?_⟩
    have hkeep : g.keepDead = false := by
      rw [hbegun.keepDead, hrate]
      rfl
    rw [hpath.keepDead_before hmo, hkeep]
  · obtain ⟨path, g', hdays, rfl⟩ := (run_path hbegun fun _ _ => trivial).of_run hday
    refine ⟨path, g', hdays.passes, hdays.length, ?_⟩
    rw [hdays.passes.out, hbegun.out, List.nil_append]

/-- One locate, every kind of message, and no reference made up. -/
def knownOnly : SynthConfig where
  locates := 1
  mix := ⟨List.replicate 9 (some 1), length_evenMix⟩
  placeholderRate := some (1 / 2)
  unknownRefRate := some 0
  subpenny := true
  crossedPreopen := true
  openNs := 80
  closeNs := 160

theorem references_kept_small : ∃ g,
    Generator.new exactly (List.range 90) knownOnly true 20 = .ok g ∧
      (∀ path g', Passage g path g' → ∀ mo ∈ path, Kept mo.after ∧
        (knownOnly.unknownRefRate = some 0 → Finds mo)) ∧
      (∀ day, g.run 20 = .ok day → ∃ path g', Passage g path g' ∧ path.length = 20 ∧
        day.bytes = (path.map fun mo => mo.call.framed).flatten) ∧
      ∃ day, g.run 20 = .ok day := by
  have hargs : checkArgs exactly 20 knownOnly = .ok () := by decide +kernel
  obtain ⟨day, hday, -⟩ :=
    (@run_returns True Placement.Fits exactly (List.range 90) 20 knownOnly true
    hargs (fun _ _ h => h) (by decide +kernel)).ok_of trivial
  obtain ⟨g, hnew, hrun⟩ := bind_eq_ok.mp hday
  obtain ⟨hkept, hpath⟩ := references_kept hnew
  exact ⟨g, hnew, hkept, hpath, day, hrun⟩

end Lobcore.DayReferences
