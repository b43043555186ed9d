import Lobcore.GeneratorMessages

/-!
The states that a generator passes through. A moment is one call of the source that writes a
message, with the generator before and after it; between two moments only the random source and
the clock move. Along every path, whatever calls it is made of and whatever is drawn, the
references stay in step.
-/
namespace Lobcore.GeneratorPaths

open Checked OrderTypes SortedMaps Markets Payloads TruthBooks Writers RoundTrips Generators
open GeneratorDraws GeneratorDraws.Generator GeneratorBooks DayEvents GeneratorSteps GeneratorRuns
open LiveReferences GeneratorMessages

/-- The calls of the source that write one message and draw nothing. -/
inductive Plain (g : Generator) : Generator → Prop
  | event {g' : Generator} (code : UInt8) (hrun : g.systemEvent code = .ok g') : Plain g g'
  | directory {g' : Generator} (li : ℕ) (hrun : directory g li = .ok g') : Plain g g'
  | action {g' : Generator} (li : ℕ) (hrun : action g li = .ok g') : Plain g g'
  /-- Half a round of the opening. -/
  | uncross {g' : Generator} {li : ℕ} {l : Locate} {s : Side} {id : OrderId} {n q : ℕ}
      (hl : g.locs[li]? = some l) (hhead : l.book.headOfBest s = some (id, n)) (hpos : 0 < q)
      (hle : q ≤ n) (hrun : g.executeKnown li id q false = .ok g') : Plain g g'

/-- The calls of the source that write one message. -/
inductive Message (g : Generator) : Generator → Prop
  | plain {g' : Generator} (h : Plain g g') : Message g g'
  | step {g' : Generator} (hrun : g.step = .ok g') : Message g g'

/-- One message: the call that was written, and the generator before and after it. -/
structure Moment where
  before : Generator
  call : Call
  after : Generator
  message : Message before after
  writes : Writes before call after

/-- From one generator to another through moments. -/
inductive Passage : Generator → List Moment → Generator → Prop
  | nil (g : Generator) (rng : Rng) (ts : ℕ) : Passage g [] { g with rng, ts }
  | cons {g g' : Generator} {mo : Moment} {path : List Moment} (rng : Rng) (ts : ℕ)
      (hbefore : mo.before = { g with rng, ts }) (hrest : Passage mo.after path g') :
      Passage g (mo :: path) g'

theorem Passage.refl (g : Generator) : Passage g [] g := Passage.nil g g.rng g.ts

/-- The clock and the random source in front of a path. -/
theorem Passage.quiet {g g' : Generator} {path : List Moment} {rng : Rng} {ts : ℕ}
    (h : Passage { g with rng, ts } path g') : Passage g path g' := by
  cases h with
  | nil _ rng' ts' => exact Passage.nil g rng' ts'
  | cons rng' ts' hbefore hrest => exact Passage.cons rng' ts' hbefore hrest

theorem Passage.single {g : Generator} (mo : Moment) (hbefore : mo.before = g) :
    Passage g [mo] mo.after := Passage.cons g.rng g.ts hbefore (Passage.refl _)

theorem Passage.append {g g' g'' : Generator} {path path' : List Moment} (h : Passage g path g')
    (h' : Passage g' path' g'') : Passage g (path ++ path') g'' := by
  induction h with
  | nil g rng ts => exact Passage.quiet h'
  | cons rng ts hbefore hrest ih => exact Passage.cons rng ts hbefore (ih h')

/-- The clock behind a path. -/
theorem Passage.withClock {g g' : Generator} {path : List Moment} (h : Passage g path g')
    (rng : Rng)
    (ts : ℕ) : Passage g path { g' with rng, ts } := by
  have happend := h.append (Passage.nil g' rng ts)
  rwa [List.append_nil] at happend

/-- The time of a moment. -/
def Moment.time (mo : Moment) : ℕ := mo.before.ts

/-! What a path leaves. -/

section Paths

variable {g g' : Generator} {path : List Moment} (h : Passage g path g')

include h

/-- What neither draws nor messages change stays the same along a path. -/
theorem Passage.same {α : Type} {f : Generator → α}
    (hquiet : ∀ (g : Generator) (rng : Rng) (ts : ℕ), f { g with rng, ts } = f g)
    (hwrites : ∀ {g g' : Generator} {c : Call}, Writes g c g' → f g' = f g) :
    f g' = f g ∧ ∀ mo ∈ path, f mo.before = f g := by
  induction h with
  | nil g rng ts => exact ⟨hquiet g rng ts, fun mo hmo => by cases hmo⟩
  | @cons g g' mo path rng ts hbefore hrest ih =>
    obtain ⟨hend, hall⟩ := ih
    have hfirst : f mo.before = f g := by rw [hbefore, hquiet]
    have hafter := (hwrites mo.writes).trans hfirst
    refine ⟨hend.trans hafter, fun mo' hmo' => ?_⟩
    rcases List.mem_cons.mp hmo' with rfl | hmo'
    · exact hfirst
    · exact (hall mo' hmo').trans hafter

theorem Passage.cfg : g'.cfg = g.cfg :=
  (@Passage.same g g' path h _ Generator.cfg (fun _ _ _ => rfl) fun hw => hw.cfg).1

theorem Passage.keepDead_before {mo : Moment} (hmo : mo ∈ path) : mo.before.keepDead = g.keepDead :=
  (@Passage.same g g' path h _ Generator.keepDead (fun _ _ _ => rfl) fun hw => hw.keepDead).2 mo hmo

theorem Passage.length : g'.locs.length = g.locs.length :=
  (@Passage.same g g' path h _ (fun g => g.locs.length) (fun _ _ _ => rfl) fun hw => hw.length).1

theorem Passage.length_before {mo : Moment} (hmo : mo ∈ path) :
    mo.before.locs.length = g.locs.length :=
  (@Passage.same g g' path h _ (fun g => g.locs.length) (fun _ _ _ => rfl) fun hw =>
    hw.length).2 mo hmo

/-- The frames of the calls stand behind what was there. -/
theorem Passage.out : g'.out = g.out ++ (path.map fun mo => mo.call.framed).flatten := by
  induction h with
  | nil g rng ts => simp
  | @cons g g' mo path rng ts hbefore hrest ih =>
    rw [ih, mo.writes.out, hbefore, List.map_cons, List.flatten_cons, List.append_assoc]

/-- One row for every moment, with its time and its locate. -/
theorem Passage.truth : ∃ rows : List Truth, g'.truth = g.truth.map (fun old => old ++ rows) ∧
    List.Forall₂ (fun mo row => row.ts = mo.time ∧ row.locate = mo.call.header.locate) path
      rows := by
  induction h with
  | nil g rng ts => exact ⟨[], by simp, List.Forall₂.nil⟩
  | @cons g g' mo path rng ts hbefore hrest ih =>
    obtain ⟨rows, htruth, hrows⟩ := ih
    obtain ⟨row, hts, hlocate, hrow⟩ := mo.writes.truth
    refine ⟨row :: rows, ?_, List.Forall₂.cons ⟨hts, hlocate⟩ hrows⟩
    rw [htruth, hrow, hbefore, Option.map_map]
    congr 1
    funext old
    simp

/-- Numbers taken from a counter follow each other. -/
theorem Passage.counted {number : Body → Option UInt64} {counter : Generator → ℕ}
    (hquiet : ∀ (g : Generator) (rng : Rng) (ts : ℕ), counter { g with rng, ts } = counter g)
    (hnone : ∀ mo : Moment, number mo.call.body = none → counter mo.after = counter mo.before)
    (hsome : ∀ (mo : Moment) (r : UInt64), number mo.call.body = some r →
      r.toNat = counter mo.before ∧ counter mo.after = counter mo.before + 1) :
    ∃ k, counter g' = counter g + k ∧
      (path.filterMap fun mo => number mo.call.body).map UInt64.toNat =
        List.range' (counter g) k := by
  induction h with
  | nil g rng ts => exact ⟨0, hquiet g rng ts, rfl⟩
  | @cons g g' mo path rng ts hbefore hrest ih =>
    obtain ⟨k, hk, hnumbers⟩ := ih
    have hcounter : counter mo.before = counter g := by rw [hbefore, hquiet]
    cases hnew : number mo.call.body with
    | none =>
      have heq := hnone mo hnew
      refine ⟨k, by omega, ?_⟩
      rw [List.filterMap_cons_none (f := fun mo : Moment => number mo.call.body) hnew, hnumbers,
        heq, hcounter]
    | some r =>
      obtain ⟨hr, heq⟩ := hsome mo r hnew
      refine ⟨k + 1, by omega, ?_⟩
      rw [List.filterMap_cons_some (f := fun mo : Moment => number mo.call.body) hnew,
        List.map_cons, hnumbers, heq, hcounter, List.range'_succ, hr, hcounter]

theorem Passage.refs : ∃ k, g'.nextRef = g.nextRef + k ∧
    (path.filterMap fun mo => newRef mo.call.body).map UInt64.toNat =
      List.range' g.nextRef k := by
  refine @Passage.counted _ _ _ h newRef Generator.nextRef (fun _ _ _ => rfl) (fun mo hnew => ?_)
    fun mo r hnew => ?_
  · have heq := mo.writes.takes.nextRef_eq
    rwa [hnew] at heq
  · have htakes := mo.writes.takes
    have heq := htakes.nextRef_eq
    have hlt := htakes.nextRef_lt (by rw [hnew]; rfl)
    rw [hnew] at heq
    change mo.after.nextRef = mo.before.nextRef + 1 at heq
    have hfit : mo.before.nextRef < 2 ^ 64 := by omega
    rw [htakes.ref r hnew]
    exact ⟨UInt64.toNat_ofNat_of_lt' hfit, heq⟩

theorem Passage.matches : ∃ k, g'.nextMatch = g.nextMatch + k ∧
    (path.filterMap fun mo => newMatch mo.call.body).map UInt64.toNat =
      List.range' g.nextMatch k := by
  refine @Passage.counted _ _ _ h newMatch Generator.nextMatch (fun _ _ _ => rfl)
    (fun mo hnew => ?_)
    fun mo r hnew => ?_
  · have heq := mo.writes.takes.nextMatch_eq
    rwa [hnew] at heq
  · have htakes := mo.writes.takes
    have heq := htakes.nextMatch_eq
    have hlt := htakes.nextMatch_lt (by rw [hnew]; rfl)
    rw [hnew] at heq
    change mo.after.nextMatch = mo.before.nextMatch + 1 at heq
    have hfit : mo.before.nextMatch < 2 ^ 64 := by omega
    rw [htakes.matchNo r hnew]
    exact ⟨UInt64.toNat_ofNat_of_lt' hfit, heq⟩

end Paths

/-! References along a path. -/

theorem directory_found {g : Generator} {li : ℕ} :
    Returns False (fun _ => ∃ l, g.locs[li]? = some l) (directory g li) :=
  (hdr_returns False.elim).bind fun p hp => by
    obtain ⟨-, rfl⟩ := hp
    exact (index_returns False.elim).bind fun l hl => (Returns.any _).mono fun _ _ => ⟨l, hl⟩

theorem action_found {g : Generator} {li : ℕ} :
    Returns False (fun _ => ∃ l, g.locs[li]? = some l) (action g li) :=
  (hdr_returns False.elim).bind fun p hp => by
    obtain ⟨-, rfl⟩ := hp
    exact (index_returns False.elim).bind fun l hl => (Returns.any _).mono fun _ _ => ⟨l, hl⟩

theorem Plain.cases {g g' : Generator} (h : Plain g g') (hts : g.ts < 2 ^ 48) (hstep : InStep g) :
    (∃ code, g'.locs = g.locs ∧ Writes g (systemAt g code) g') ∨
      ∃ li l body, Emits g li l body g' ∧ Aimed l body := by
  cases h with
  | event code hrun =>
    obtain ⟨g₁, hrun', hlocs, hwrites⟩ := systemEvent_writes hts code
    obtain rfl := Except.ok.inj (hrun'.symm.trans hrun)
    exact Or.inl ⟨code, hlocs, hwrites⟩
  | directory li hrun =>
    obtain ⟨l, hl⟩ := directory_found.of_run hrun
    obtain ⟨hemits, -⟩ :=
      (directory_emits hl (hstep.tracks l (List.mem_of_getElem? hl)) hts).of_run hrun
    exact Or.inr ⟨li, l, _, hemits, trivial⟩
  | action li hrun =>
    obtain ⟨l, hl⟩ := action_found.of_run hrun
    obtain ⟨hemits, -⟩ :=
      (action_emits hl (hstep.tracks l (List.mem_of_getElem? hl)) hts).of_run hrun
    exact Or.inr ⟨li, l, _, hemits, trivial⟩
  | @uncross li l s id n q hl hhead hpos hle hrun =>
    have ht := hstep.tracks l (List.mem_of_getElem? hl)
    obtain ⟨body, hemits, rfl, l', px, -, -, hfind, -⟩ := (executeKnown_emits (Q := False) hl ht hts
      hhead hle false False.elim False.elim False.elim False.elim).of_run hrun
    have hq : (UInt32.ofNat q).toNat ≤ n := by
      rw [UInt32.toNat_ofNat']
      exact (Nat.mod_le q _).trans hle
    exact Or.inr ⟨li, l, _, hemits, Tracks.live_of_find ht hfind, s, n, hhead, hq⟩

/-- What a message is: a system event, or a message of a locate, which is aimed unless its
reference was made up. -/
theorem Message.cases {g g' : Generator} (h : Message g g') (hts : g.ts < 2 ^ 48)
    (hstep : InStep g) :
    (∃ code, g'.locs = g.locs ∧ Writes g (systemAt g code) g') ∨
      ∃ li l body, Emits g li l body g' ∧ (Aimed l body ∨ g.keepDead = true ∧ Injected g g') := by
  cases h with
  | plain h =>
    rcases h.cases hts hstep with hevent | ⟨li, l, body, hemits, haimed⟩
    · exact Or.inl hevent
    · exact Or.inr ⟨li, l, body, hemits, Or.inl haimed⟩
  | step hrun =>
    obtain ⟨li, l, body, hemits, -, haimed⟩ := (step_mixes hstep hts).of_run hrun
    exact Or.inr ⟨li, l, body, hemits, haimed⟩

/-- A message keeps the references in step. -/
theorem Message.inStep {g g' : Generator} (h : Message g g') (hts : g.ts < 2 ^ 48)
    (hstep : InStep g) : InStep g' := by
  rcases h.cases hts hstep with ⟨code, hlocs, hwrites⟩ | ⟨li, l, body, hemits, -⟩
  · refine hstep.of_locs hlocs ?_
    rw [hwrites.takes.nextRef_eq]
    exact Nat.le_add_right ..
  · exact hemits.inStep hstep

/-- The frame behind the output tells the call. -/
theorem writes_unique {g g' : Generator} {c c' : Call} (h : Writes g c g') (h' : Writes g c' g') :
    c = c' := by
  have hout := h.out.symm.trans h'.out
  exact framed_inj (by rw [h.ts]; exact h.ts_lt) (by rw [h'.ts]; exact h.ts_lt)
    (List.append_cancel_left hout)

theorem Moment.cases (mo : Moment) (hstep : InStep mo.before) :
    (∃ code, mo.call = systemAt mo.before code ∧ mo.after.locs = mo.before.locs) ∨
      ∃ li l, mo.call = callAt mo.before li mo.call.body ∧
        Emits mo.before li l mo.call.body mo.after ∧
        (Aimed l mo.call.body ∨ mo.before.keepDead = true ∧ Injected mo.before mo.after) := by
  rcases mo.message.cases mo.writes.ts_lt hstep with ⟨code, hlocs, hwrites⟩ |
    ⟨li, l, body, hemits, haimed⟩
  · exact Or.inl ⟨code, writes_unique mo.writes hwrites, hlocs⟩
  · have hcall := writes_unique mo.writes hemits.writes
    have hbody : mo.call.body = body := congrArg Call.body hcall
    refine Or.inr ⟨li, l, ?_, ?_, ?_⟩
    · rw [hbody]
      exact hcall
    · rw [hbody]
      exact hemits
    · rw [hbody]
      exact haimed

/-- Along a path the references stay in step. -/
theorem Passage.inStep {g g' : Generator} {path : List Moment} (h : Passage g path g')
    (hstep : InStep g) : InStep g' ∧ ∀ mo ∈ path, InStep mo.before ∧ InStep mo.after := by
  induction h with
  | nil g rng ts => exact ⟨hstep.of_locs rfl (le_refl _), fun mo hmo => by cases hmo⟩
  | @cons g g' mo path rng ts hbefore hrest ih =>
    have hin : InStep mo.before := by
      rw [hbefore]
      exact hstep.of_locs rfl (le_refl _)
    have hout := mo.message.inStep mo.writes.ts_lt hin
    obtain ⟨hend, hall⟩ := ih hout
    refine ⟨hend, fun mo' hmo' => ?_⟩
    rcases List.mem_cons.mp hmo' with rfl | hmo'
    · exact ⟨hin, hout⟩
    · exact hall mo' hmo'

end Lobcore.GeneratorPaths
