import Lobcore.GeneratorRuns
import Lobcore.LiveReferences

/-!
The messages of a generator, whatever state it is in. A call that writes a message puts one frame
behind the output and one row behind the truth, takes its numbers in turn, and changes the
references of one locate at most. Nothing is asked of the draws: a call may abort, and what is
said of it is said where it returns.
-/
namespace Lobcore.GeneratorMessages

open Checked OrderTypes SortedMaps Markets Payloads TruthBooks Writers RoundTrips Generators
open GeneratorDraws GeneratorDraws.Generator GeneratorBooks DayEvents GeneratorSteps GeneratorRuns
open LiveReferences

/-! What a message is. -/

/-- The numbers that stand for the next message, which are counted in 64 bits. -/
structure Takes (g : Generator) (body : Body) (nextRef nextMatch : ℕ) : Prop
    extends Uses g body nextRef nextMatch where
  nextRef_lt : (newRef body).isSome → nextRef < 2 ^ 64
  nextMatch_lt : (newMatch body).isSome → nextMatch < 2 ^ 64

theorem takes_none {g : Generator} {body : Body} (href : newRef body = none)
    (hmatch : newMatch body = none) : Takes g body g.nextRef g.nextMatch :=
  ⟨uses_none href hmatch, by simp [href], by simp [hmatch]⟩

theorem takes_ref {g : Generator} {body : Body} (href : newRef body = some (.ofNat g.nextRef))
    (hmatch : newMatch body = none) (hlt : g.nextRef + 1 < 2 ^ 64) :
    Takes g body (g.nextRef + 1) g.nextMatch :=
  ⟨uses_ref href hmatch, fun _ => hlt, by simp [hmatch]⟩

theorem takes_match {g : Generator} {body : Body} (href : newRef body = none)
    (hmatch : newMatch body = some (.ofNat g.nextMatch)) (hlt : g.nextMatch + 1 < 2 ^ 64) :
    Takes g body g.nextRef (g.nextMatch + 1) :=
  ⟨uses_match href hmatch, by simp [href], fun _ => hlt⟩

/-- One message behind the output, and its row behind the truth where one is kept. -/
structure Writes (g : Generator) (c : Call) (g' : Generator) : Prop where
  cfg : g'.cfg = g.cfg
  keepDead : g'.keepDead = g.keepDead
  length : g'.locs.length = g.locs.length
  clock : g'.ts = g.ts
  ts_lt : g.ts < 2 ^ 48
  ts : c.header.ts.toNat = g.ts
  out : g'.out = g.out ++ c.framed
  truth : ∃ row : Truth, row.ts = g.ts ∧ row.locate = c.header.locate ∧
    g'.truth = g.truth.map fun rows => rows ++ [row]
  takes : Takes g c.body g'.nextRef g'.nextMatch

/-- A message of the locate `l` at `li`, whose references it turns. -/
structure Emits (g : Generator) (li : ℕ) (l : Locate) (body : Body) (g' : Generator) : Prop where
  found : g.locs[li]? = some l
  li_lt : li + 1 < 2 ^ 16
  writes : Writes g (callAt g li body) g'
  turns : ∃ l' new, g'.locs = g.locs.set li l' ∧ Turns l l' new ∧ ∀ id ∈ new, newRef body = some id

/-- A message for an order is for one that is live, takes no more than the order has, and where
it executes hits the head of the best level of a side. -/
def Aimed (l : Locate) : Body → Prop
  | .orderDelete id => id ∈ l.live
  | .orderCancel id k => id ∈ l.live ∧ ∃ n, l.book.qty id = some n ∧ k.toNat < n
  | .orderReplace old .. => old ∈ l.live
  | .orderExecuted id k _ =>
    id ∈ l.live ∧ ∃ s n, l.book.headOfBest s = some (id, n) ∧ k.toNat ≤ n
  | .orderExecutedWithPrice id k .. =>
    id ∈ l.live ∧ ∃ s n, l.book.headOfBest s = some (id, n) ∧ k.toNat ≤ n
  | _ => True

/-- The kinds of the mix. -/
def isMix : Body → Bool
  | .systemEvent _ => false
  | .stockDirectory _ => false
  | .tradingAction .. => false
  | _ => true

/-- The body of an execution of `k` shares. -/
def IsFill (g : Generator) (id : OrderId) (k : ℕ) : Bool → Body → Prop
  | false, body => body = .orderExecuted id (.ofNat k) (.ofNat g.nextMatch)
  | true, body => ∃ printable px,
    body = .orderExecutedWithPrice id (.ofNat k) (.ofNat g.nextMatch) printable px

theorem IsFill.numbers {g : Generator} {id : OrderId} {k : ℕ} {withPrice : Bool} {body : Body}
    (h : IsFill g id k withPrice body) :
    newRef body = none ∧ newMatch body = some (.ofNat g.nextMatch) := by
  cases withPrice with
  | false =>
    obtain rfl := h
    exact ⟨rfl, rfl⟩
  | true =>
    obtain ⟨printable, px, rfl⟩ := h
    exact ⟨rfl, rfl⟩

/-- An execution of `k` shares of the `n` that the order at the head of a best level has. -/
structure Hits (g : Generator) (li : ℕ) (l : Locate) (s : Side) (id : OrderId) (n k : ℕ)
    (withPrice : Bool) (body : Body) (g' : Generator) : Prop where
  emits : Emits g li l body g'
  fill : IsFill g id k withPrice body
  book : ∃ l' px, g'.locs = g.locs.set li l' ∧ Tracks l' ∧
    (shown l.book).find id = some (s, px, n) ∧
    shown l'.book = (shown l.book).take id s px (n - k)

/-- A message keeps the references in step. -/
theorem Emits.inStep {g g' : Generator} {li : ℕ} {l : Locate} {body : Body}
    (h : Emits g li l body g') (hstep : InStep g) : InStep g' := by
  obtain ⟨l', new, hlocs, hturns, hnew⟩ := h.turns
  have htakes := h.writes.takes
  have hnext : g.nextRef ≤ g'.nextRef := by
    rw [htakes.nextRef_eq]
    exact Nat.le_add_right ..
  refine hstep.turn h.found hturns hlocs (fun id hid => ?_) hnext
  have hbody : newRef (callAt g li body).body = some id := hnew id hid
  have hsome : (newRef (callAt g li body).body).isSome := by rw [hbody]; rfl
  have hlt := htakes.nextRef_lt hsome
  have heq := htakes.nextRef_eq
  rw [if_pos hsome] at heq
  exact ⟨htakes.ref id hbody, by omega, by omega⟩

/-! Calls that abort or go on. -/

theorem Returns.any {α : Type} (x : Exec α) : Returns False (fun _ => True) x := by
  cases x with
  | ok a => exact Returns.of_ok trivial
  | error e => exact Or.inr ⟨id, e, rfl⟩

section Calls

variable {Q : Prop} {g : Generator}

theorem index_returns {α : Type} {xs : List α} {i : ℕ} (h : Q → i < xs.length) :
    Returns Q (fun a => xs[i]? = some a) (index xs i) := by
  cases hx : xs[i]? with
  | some a => exact Returns.of_eq (index_ok hx) rfl
  | none =>
    have hle := List.getElem?_eq_none_iff.mp hx
    exact Or.inr ⟨fun hQ => not_lt.mpr hle (h hQ), _, index_error hle⟩

theorem hdr_returns {li : ℕ} (h : Q → li + 1 < 2 ^ 16) : Returns Q (fun p => li + 1 < 2 ^ 16 ∧
    p = (⟨.ofNat (li + 1), g.tracking, .ofNat g.ts⟩, { g with tracking := g.tracking + 1 }))
    (g.hdr li) :=
  (ensure_returns h).bind fun _ hli => Returns.of_ok ⟨hli, rfl⟩

theorem takeRef_returns (h : Q → g.nextRef + 1 < 2 ^ 64) :
    Returns Q (fun p => g.nextRef + 1 < 2 ^ 64 ∧
      p = (.ofNat g.nextRef, { g with nextRef := g.nextRef + 1 })) g.takeRef := by
  by_cases hlt : g.nextRef + 1 < 2 ^ 64
  · exact Returns.of_eq (takeRef_ok hlt) ⟨hlt, rfl⟩
  · refine Or.inr ⟨fun hQ => hlt (h hQ), .overflow, ?_⟩
    rw [Generator.takeRef, addU64, if_neg hlt]
    rfl

theorem takeMatch_returns (h : Q → g.nextMatch + 1 < 2 ^ 64) :
    Returns Q (fun p => g.nextMatch + 1 < 2 ^ 64 ∧
      p = (.ofNat g.nextMatch, { g with nextMatch := g.nextMatch + 1 })) g.takeMatch := by
  by_cases hlt : g.nextMatch + 1 < 2 ^ 64
  · exact Returns.of_eq (takeMatch_ok hlt) ⟨hlt, rfl⟩
  · refine Or.inr ⟨fun hQ => hlt (h hQ), .overflow, ?_⟩
    rw [Generator.takeMatch, addU64, if_neg hlt]
    rfl

theorem unsigned_returns {px : ℤ} (h : Q → 0 ≤ px) :
    Returns Q (fun n => n = .ofNat px.toNat) (unsigned px) :=
  (ensure_returns h).bind fun _ _ => Returns.of_ok rfl

end Calls

/-! Draws. -/

section Draws

variable (g : Generator)

theorem randomRange_yields (lo hi : ℕ) : Returns False
    (fun p => (∃ rng, p.2 = { g with rng }) ∧ lo ≤ p.1 ∧ p.1 < hi) (g.randomRange lo hi) := by
  by_cases hlt : lo < hi
  · obtain ⟨n, rng, hdraw, hn⟩ := randomRange_ok g hlt
    exact Returns.of_eq hdraw ⟨⟨rng, rfl⟩, hn⟩
  · refine Or.inr ⟨id, .assertion, ?_⟩
    rw [Generator.randomRange, Rng.range, ensure, if_neg hlt]
    rfl

theorem randomBool_yields (p : ℚ) :
    Returns False (fun q => ∃ rng, q.2 = { g with rng }) (g.randomBool p) := by
  by_cases hp : 0 ≤ p ∧ p ≤ 1
  · obtain ⟨b, rng, hdraw, -⟩ := randomBool_ok g hp
    exact Returns.of_eq hdraw ⟨rng, rfl⟩
  · refine Or.inr ⟨id, .assertion, ?_⟩
    rw [Generator.randomBool, Rng.bool, ensure, if_neg hp]
    rfl

theorem drawCross_yields (tick : ℤ) :
    Returns False (fun p => ∃ rng, p.2 = { g with rng }) (g.drawCross tick) := by
  rw [Generator.drawCross]
  split
  · refine (randomBool_yields g crossProb).bind fun p hp => ?_
    obtain ⟨hit, g'⟩ := p
    obtain ⟨rng, rfl⟩ := hp
    dsimp only
    split
    · refine (randomRange_yields _ 1 4).bind fun p hp => ?_
      obtain ⟨n, g''⟩ := p
      obtain ⟨⟨rng', rfl⟩, -⟩ := hp
      exact (Returns.any _).bind fun _ _ => Returns.of_ok ⟨rng', rfl⟩
    · exact Returns.of_ok ⟨rng, rfl⟩
  · exact Returns.of_ok ⟨g.rng, rfl⟩

theorem priceFor_yields (li : ℕ) (s : Side) :
    Returns False (fun p => ∃ rng, p.2 = { g with rng }) (g.priceFor li s) := by
  obtain ⟨offset, rng, hoffset, -⟩ := offsetTicks_ok g
  simp only [Generator.priceFor, hoffset, ok_bind]
  refine (Returns.any _).bind fun l _ => ?_
  refine (Returns.any _).bind fun bestBid _ => ?_
  refine (Returns.any _).bind fun bestAsk _ => ?_
  refine (drawCross_yields _ l.tick).bind fun p hp => ?_
  obtain ⟨cross, g'⟩ := p
  obtain ⟨rng', rfl⟩ := hp
  exact (Returns.any _).bind fun _ _ => Returns.of_ok ⟨rng', rfl⟩

section Locates

variable {g} {li : ℕ} {l : Locate} (hl : g.locs[li]? = some l)

include hl

theorem walkMid_yields : Returns False
    (fun g' => ∃ mid rng, g' = { g with rng }.setLocate li { l with mid }) (g.walkMid li) := by
  refine (randomBool_yields g midStepProb).bind fun p hp => ?_
  obtain ⟨up, g'⟩ := p
  obtain ⟨rng, rfl⟩ := hp
  refine (randomBool_yields _ midStepProb).bind fun p hp => ?_
  obtain ⟨down, g'⟩ := p
  obtain ⟨rng', rfl⟩ := hp
  simp only [index_ok hl, ok_bind]
  exact (Returns.any _).bind fun _ _ => Returns.of_ok ⟨_, rng', rfl⟩

theorem drawOrder_yields : Returns False (fun p => 0 < p.1.qty ∧
    ∃ mid rng, p.2 = { g with rng }.setLocate li { l with mid }) (g.drawOrder li) := by
  obtain ⟨s, rng, hside⟩ := drawSide_ok g
  simp only [Generator.drawOrder, hside, ok_bind]
  refine (randomBool_yields _ _).bind fun p hp => ?_
  obtain ⟨placeholder, g'⟩ := p
  obtain ⟨rng', rfl⟩ := hp
  cases placeholder with
  | true =>
    obtain ⟨n, rng'', hn, hpos, -⟩ := qty_ok { g with rng := rng' }
    simp only [if_true, hn, ok_bind, pure_eq_ok]
    exact Returns.of_ok ⟨hpos, l.mid, rng'',
      (setLocate_self (show { g with rng := rng'' }.locs[li]? = some l from hl)).symm⟩
  | false =>
    simp only [Bool.false_eq_true, if_false]
    refine (walkMid_yields (show { g with rng := rng' }.locs[li]? = some l from hl)).bind
      fun g₁ h₁ => ?_
    obtain ⟨mid, rng₁, rfl⟩ := h₁
    refine (priceFor_yields _ li s).bind fun p hp => ?_
    obtain ⟨⟨offset, cross, px⟩, g₂⟩ := p
    obtain ⟨rng₂, rfl⟩ := hp
    obtain ⟨n, rng₃, hn, hpos, -⟩ :=
      qty_ok { { g with rng := rng₁ }.setLocate li { l with mid } with rng := rng₂ }
    simp only [hn, ok_bind, pure_eq_ok]
    exact Returns.of_ok ⟨hpos, mid, rng₃, rfl⟩

omit hl in
theorem drawReplacement_yields (old : OrderId) : Returns False (fun p => 0 < p.1.qty ∧
    ∃ rng, p.2 = { g with rng }) (g.drawReplacement li old) := by
  refine (Returns.any _).bind fun l _ => ?_
  refine (Returns.any _).bind fun home _ => ?_
  refine (priceFor_yields g li home.1).bind fun p hp => ?_
  obtain ⟨⟨offset, cross, px⟩, g₁⟩ := p
  obtain ⟨rng, rfl⟩ := hp
  obtain ⟨n, rng', hn, hpos, -⟩ := qty_ok { g with rng }
  simp only [hn, ok_bind, pure_eq_ok]
  exact Returns.of_ok ⟨hpos, rng', rfl⟩

theorem pickLive_yields : Returns False (fun p => (∃ rng, p.2 = { g with rng }) ∧
    ∀ id ∈ p.1, id ∈ l.live) (g.pickLive li) := by
  simp only [Generator.pickLive, index_ok hl, ok_bind]
  split
  · exact Returns.of_ok ⟨⟨g.rng, rfl⟩, fun id hid => by cases hid⟩
  · refine (randomRange_yields g 0 _).bind fun p hp => ?_
    obtain ⟨i, g'⟩ := p
    obtain ⟨⟨rng, rfl⟩, -⟩ := hp
    refine (index_returns False.elim).bind fun id hid => Returns.of_ok ⟨⟨rng, rfl⟩, fun j hj => ?_⟩
    obtain rfl := Option.some.inj hj
    exact List.mem_of_getElem? hid

/-- Where no reference is remembered none is drawn. -/
theorem drawUnknown_yields : Returns False (fun p => (∃ rng, p.2 = { g with rng }) ∧
    (g.keepDead = false → p.1 = none)) (g.drawUnknown li) := by
  simp only [Generator.drawUnknown, index_ok hl, ok_bind]
  by_cases hnone : (!g.keepDead || l.dead.isEmpty) = true
  · rw [if_pos hnone]
    exact Returns.of_ok ⟨⟨g.rng, rfl⟩, fun _ => rfl⟩
  · have hkeep : g.keepDead ≠ false := fun hkeep => hnone (by rw [hkeep]; rfl)
    rw [if_neg hnone]
    refine (randomBool_yields g _).bind fun p hp => ?_
    obtain ⟨hit, g₁⟩ := p
    obtain ⟨rng, rfl⟩ := hp
    cases hit with
    | false => exact Returns.of_ok ⟨⟨rng, rfl⟩, fun _ => rfl⟩
    | true =>
      simp only [Bool.not_true, Bool.false_eq_true, if_false]
      refine (randomRange_yields _ 0 _).bind fun p hp => ?_
      obtain ⟨i, g₂⟩ := p
      obtain ⟨⟨rng', rfl⟩, -⟩ := hp
      refine (Returns.any _).bind fun id _ => ?_
      obtain ⟨n, rng'', hn, -, -⟩ := qty_ok { g with rng := rng' }
      simp only [hn, ok_bind, pure_eq_ok]
      exact Returns.of_ok ⟨⟨rng'', rfl⟩, fun h => absurd h hkeep⟩

end Locates

end Draws

/-! Messages of a locate. -/

/-- What a row of the truth asks of its book. -/
def Countable (t : TruthBook) : Prop := Bounded (shown t) ∧ t.liveOrders < 2 ^ 32

section Messages

variable {Q : Prop} {g : Generator} {li : ℕ} {l : Locate} (hl : g.locs[li]? = some l)
  (ht : Tracks l) (hts : g.ts < 2 ^ 48)

include hl ht

/-- The row of a locate. -/
theorem record_returns (hli : li + 1 < 2 ^ 16)
    (hcount : Q → g.truth.isSome → Countable l.book) :
    Returns Q (fun g' => ∃ row : Truth, row.ts = g.ts ∧ row.locate = .ofNat (li + 1) ∧
      g' = { g with truth := g.truth.map fun rows => rows ++ [row] }) (g.record li) := by
  unfold Generator.record
  cases htruth : g.truth with
  | none =>
    refine Returns.of_ok ⟨⟨g.ts, .ofNat (li + 1), none, none, [], [], 0, []⟩, rfl, rfl, ?_⟩
    rw [Option.map_none, ← htruth]
  | some rows =>
    have hbounded : Q → Bounded (shown l.book) := fun hQ => (hcount hQ (by rw [htruth]; rfl)).1
    simp only [index_ok hl, ok_bind, ensure_ok hli]
    refine (ht.shows.quote_returns hbounded .bid).bind fun bestBid _ => ?_
    refine (ht.shows.quote_returns hbounded .ask).bind fun bestAsk _ => ?_
    refine (ht.shows.l5_returns hbounded .bid).bind fun l5Bid _ => ?_
    refine (ht.shows.l5_returns hbounded .ask).bind fun l5Ask _ => ?_
    refine (ensure_returns fun hQ => (hcount hQ (by rw [htruth]; rfl)).2).bind fun _ _ => ?_
    refine (ht.shows.hashBytes_returns hbounded).bind fun bookBytes _ => ?_
    exact Returns.of_ok ⟨⟨g.ts, .ofNat (li + 1), bestBid, bestAsk, l5Bid, l5Ask,
      l.book.liveOrders, bookBytes⟩, rfl, rfl, rfl⟩

omit ht in
/-- The row behind a frame whose locate is changed already. -/
theorem record_emits {l' : Locate} {new : Option OrderId} {nextRef nextMatch : ℕ} {rng : Rng}
    {body : Body} (hts : g.ts < 2 ^ 48) (hli : li + 1 < 2 ^ 16) (hturns : Turns l l' new)
    (hnew : ∀ id ∈ new, newRef body = some id) (htakes : Takes g body nextRef nextMatch)
    (hcount : Q → g.truth.isSome → Countable l'.book) :
    Returns Q (fun g' => Emits g li l body g' ∧ g'.locs = g.locs.set li l')
      (Generator.record { g with
        rng, nextRef, nextMatch, tracking := g.tracking + 1
        out := g.out ++ (callAt g li body).framed, locs := g.locs.set li l' } li) := by
  have hset : (g.locs.set li l')[li]? = some l' :=
    List.getElem?_set_self (List.getElem?_eq_some_iff.mp hl).1
  have hrecord := record_returns (Q := Q) (g := { g with
    rng, nextRef, nextMatch, tracking := g.tracking + 1
    out := g.out ++ (callAt g li body).framed, locs := g.locs.set li l' }) hset hturns.tracks hli
    hcount
  refine hrecord.mono fun g' h => ?_
  obtain ⟨row, hrow, hlocate, rfl⟩ := h
  refine ⟨⟨hl, hli, ⟨rfl, rfl, List.length_set, rfl, hts, toNat_ts hts li body, rfl,
    ⟨row, hrow, hlocate, rfl⟩, htakes⟩, ⟨l', new, rfl, hturns, hnew⟩⟩, rfl⟩

include hts

/-- A message that leaves its locate as it is. -/
theorem unchanged_emits {nextRef nextMatch : ℕ} {rng : Rng} {body : Body} (hli : li + 1 < 2 ^ 16)
    (htakes : Takes g body nextRef nextMatch) :
    Returns False (fun g' => Emits g li l body g' ∧ g'.locs = g.locs)
      (Generator.record { g with
        rng, nextRef, nextMatch, tracking := g.tracking + 1
        out := g.out ++ (callAt g li body).framed } li) := by
  have hself : g.locs = g.locs.set li l := by
    obtain ⟨hlt, rfl⟩ := List.getElem?_eq_some_iff.mp hl
    exact (List.set_getElem_self hlt).symm
  have hstate : { g with
      rng, nextRef, nextMatch, tracking := g.tracking + 1
      out := g.out ++ (callAt g li body).framed } = { g with
      rng, nextRef, nextMatch, tracking := g.tracking + 1
      out := g.out ++ (callAt g li body).framed, locs := g.locs.set li l } := by rw [← hself]
  rw [hstate]
  refine (record_emits hl hts hli (Tracks.turns ht) (fun id hid => by cases hid) htakes
    False.elim).mono fun g' h => ⟨h.1, ?_⟩
  rw [h.2, ← hself]

theorem directory_emits : Returns False
    (fun g' => Emits g li l (.stockDirectory l.stock) g' ∧ g'.locs = g.locs)
    (directory g li) := by
  refine (hdr_returns False.elim).bind fun p hp => ?_
  obtain ⟨hli, rfl⟩ := hp
  have hwrite : ∀ out, stockDirectory out ⟨.ofNat (li + 1), g.tracking, .ofNat g.ts⟩ l.stock =
      (callAt g li (.stockDirectory l.stock)).write out := fun _ => rfl
  simp only [index_ok hl, ok_bind, write_call hwrite (by rw [toNat_ts hts]; exact hts)]
  exact unchanged_emits hl ht hts hli (takes_none rfl rfl)

theorem action_emits : Returns False
    (fun g' => Emits g li l (.tradingAction l.stock 84) g' ∧ g'.locs = g.locs)
    (action g li) := by
  refine (hdr_returns False.elim).bind fun p hp => ?_
  obtain ⟨hli, rfl⟩ := hp
  have hwrite : ∀ out, tradingAction out ⟨.ofNat (li + 1), g.tracking, .ofNat g.ts⟩ l.stock 84 =
      (callAt g li (.tradingAction l.stock 84)).write out := fun _ => rfl
  simp only [index_ok hl, ok_bind, write_call hwrite (by rw [toNat_ts hts]; exact hts)]
  exact unchanged_emits hl ht hts hli (takes_none rfl rfl)

/-- The message is one that `maybe_unknown` wrote. -/
def Injected (g g' : Generator) : Prop :=
  ∃ rng li kind, Generator.maybeUnknown { g with rng } li kind = .ok (true, g')

/-- A message of the mix, which is aimed unless its reference was made up. -/
def Mixes (g : Generator) (li : ℕ) (l : Locate) (g' : Generator) : Prop :=
  ∃ body, Emits g li l body g' ∧ isMix body = true ∧
    (Aimed l body ∨ g.keepDead = true ∧ Injected g g')

omit hl ht hts in
/-- The random source is no part of what a message is. -/
theorem Emits.of_rng {g' : Generator} {rng : Rng} {body : Body}
    (h : Emits { g with rng } li l body g') : Emits g li l body g' := by
  obtain ⟨hl, hli, ⟨hcfg, hkeep, hlen, hclock, hts, hts', hout, htruth, htakes⟩, hturns⟩ := h
  obtain ⟨⟨href, hmatch, hnewRef, hnewMatch⟩, href_lt, hmatch_lt⟩ := htakes
  exact ⟨hl, hli, ⟨hcfg, hkeep, hlen, hclock, hts, hts', hout, htruth,
    ⟨⟨href, hmatch, hnewRef, hnewMatch⟩, href_lt, hmatch_lt⟩⟩, hturns⟩

omit hl ht hts in
theorem mixes_of_rng {rng : Rng} {x : Exec Generator}
    (h : Returns False (Mixes { g with rng } li l) x) : Returns False (Mixes g li l) x :=
  h.mono fun g' h' => by
    obtain ⟨body, hemits, hmix, haimed⟩ := h'
    exact ⟨body, hemits.of_rng, hmix, haimed⟩

/-- A trade off the book. -/
theorem trade_mixes : Returns False (Mixes g li l) (g.trade li) := by
  obtain ⟨n, rng, hn, -, -⟩ := qty_ok g
  simp only [Generator.trade, hn, ok_bind]
  refine (takeMatch_returns False.elim).bind fun p hp => ?_
  obtain ⟨hnext, rfl⟩ := hp
  refine (hdr_returns False.elim).bind fun p hp => ?_
  obtain ⟨hli, rfl⟩ := hp
  simp only [index_ok hl, ok_bind]
  refine (Returns.any _).bind fun bestBid _ => ?_
  refine (unsigned_returns False.elim).bind fun px _ => ?_
  have hwrite : ∀ out, Writers.trade out ⟨.ofNat (li + 1), g.tracking, .ofNat g.ts⟩ (.ofNat n)
      l.stock px (.ofNat g.nextMatch) =
      (callAt g li (.trade (.ofNat n) l.stock px (.ofNat g.nextMatch))).write out := fun _ => rfl
  rw [write_call hwrite (by rw [toNat_ts hts]; exact hts), ok_bind]
  exact (unchanged_emits hl ht hts hli (takes_match rfl rfl hnext)).mono fun g' h =>
    ⟨_, h.1, rfl, Or.inl trivial⟩

theorem mpid_mixes : Returns False (Mixes g li l) (g.mpid li) := by
  refine (hdr_returns False.elim).bind fun p hp => ?_
  obtain ⟨hli, rfl⟩ := hp
  have hwrite : ∀ out, mpidPosition out ⟨.ofNat (li + 1), g.tracking, .ofNat g.ts⟩ mpidName
      l.stock = (callAt g li (.mpidPosition mpidName l.stock)).write out := fun _ => rfl
  simp only [index_ok hl, ok_bind, write_call hwrite (by rw [toNat_ts hts]; exact hts)]
  exact (unchanged_emits hl ht hts hli (takes_none rfl rfl)).mono fun g' h =>
    ⟨_, h.1, rfl, Or.inl trivial⟩

omit ht in
/-- A message for a dead reference. -/
theorem writeUnknown_yields (kind : Kind) (id : OrderId) (n : ℕ) : Returns False
    (fun g' => ∃ body nextRef nextMatch, isMix body = true ∧ Takes g body nextRef nextMatch ∧
      g' = { g with
        nextRef, nextMatch, tracking := g.tracking + 1
        out := g.out ++ (callAt g li body).framed })
    (Generator.writeUnknown { g with tracking := g.tracking + 1 } li kind
      ⟨.ofNat (li + 1), g.tracking, .ofNat g.ts⟩ id n) := by
  have hts' : ∀ body, (callAt g li body).header.ts.toNat < 2 ^ 48 := fun body => by
    rw [toNat_ts hts]
    exact hts
  simp only [Generator.writeUnknown, index_ok hl, ok_bind]
  cases kind with
  | d =>
    exact Returns.of_eq (write_call (c := callAt g li (.orderDelete id)) (fun _ => rfl) (hts' _))
      ⟨_, _, _, rfl, takes_none rfl rfl, rfl⟩
  | x =>
    exact Returns.of_eq (write_call (c := callAt g li (.orderCancel id (.ofNat n))) (fun _ => rfl)
      (hts' _)) ⟨_, _, _, rfl, takes_none rfl rfl, rfl⟩
  | u =>
    refine (takeRef_returns False.elim).bind fun p hp => ?_
    obtain ⟨hnext, rfl⟩ := hp
    refine (unsigned_returns False.elim).bind fun px _ => ?_
    exact Returns.of_eq (write_call (c := callAt g li (.orderReplace id (.ofNat g.nextRef)
      (.ofNat n) px)) (fun _ => rfl) (hts' _)) ⟨_, _, _, rfl, takes_ref rfl rfl hnext, rfl⟩
  | e =>
    refine (takeMatch_returns False.elim).bind fun p hp => ?_
    obtain ⟨hnext, rfl⟩ := hp
    exact Returns.of_eq (write_call (c := callAt g li (.orderExecuted id (.ofNat n)
      (.ofNat g.nextMatch))) (fun _ => rfl) (hts' _)) ⟨_, _, _, rfl, takes_match rfl rfl hnext, rfl⟩
  | _ =>
    refine (takeMatch_returns False.elim).bind fun p hp => ?_
    obtain ⟨hnext, rfl⟩ := hp
    refine (unsigned_returns False.elim).bind fun px _ => ?_
    exact Returns.of_eq (write_call (c := callAt g li (.orderExecutedWithPrice id (.ofNat n)
      (.ofNat g.nextMatch) 89 px)) (fun _ => rfl) (hts' _))
      ⟨_, _, _, rfl, takes_match rfl rfl hnext, rfl⟩

/-- Only draws, or a message for a dead reference. -/
theorem maybeUnknown_yields (kind : Kind) : Returns False
    (fun p => (p.1 = false → ∃ rng, p.2 = { g with rng }) ∧ (p.1 = true → g.keepDead = true ∧
      ∃ body, Emits g li l body p.2 ∧ isMix body = true)) (g.maybeUnknown li kind) := by
  refine (drawUnknown_yields hl).bind fun p hp => ?_
  obtain ⟨o, g₁⟩ := p
  obtain ⟨⟨rng, rfl⟩, hnone⟩ := hp
  cases o with
  | none => exact Returns.of_ok ⟨fun _ => ⟨rng, rfl⟩, fun hit => by cases hit⟩
  | some t =>
    obtain ⟨id, n⟩ := t
    have hkeep : g.keepDead = true := by
      by_contra hkeep
      cases hnone (Bool.eq_false_of_not_eq_true hkeep)
    refine (hdr_returns False.elim).bind fun p hp => ?_
    obtain ⟨hli, rfl⟩ := hp
    refine (writeUnknown_yields (g := { g with rng }) hl hts kind id n).bind fun g₂ h₂ => ?_
    obtain ⟨body, nextRef, nextMatch, hmix, htakes, rfl⟩ := h₂
    refine (unchanged_emits (g := { g with rng }) hl ht hts hli htakes).bind fun g' h => ?_
    exact Returns.of_ok ⟨fun hit => (by cases hit), fun _ => ⟨hkeep, body, h.1.of_rng, hmix⟩⟩

/-- A message for an order, or for a dead reference in its place. -/
theorem orderKind_mixes (kind : Kind) {x : Generator → Exec Generator}
    (hx : ∀ rng, Returns False (Mixes { g with rng } li l) (x { g with rng })) :
    Returns False (Mixes g li l) (do
      let (hit, g) ← g.maybeUnknown li kind
      if hit then return g
      x g) := by
  refine (maybeUnknown_yields hl ht hts kind).with_eq.bind fun p hp => ?_
  obtain ⟨hit, g₁⟩ := p
  obtain ⟨hrun, hmiss, hhit⟩ := hp
  cases hit with
  | false =>
    obtain ⟨rng, rfl⟩ := hmiss rfl
    exact mixes_of_rng (hx rng)
  | true =>
    obtain ⟨hkeep, body, hemits, hmix⟩ := hhit rfl
    exact Returns.of_ok ⟨body, hemits, hmix, Or.inr ⟨hkeep, g.rng, li, kind, hrun⟩⟩

/-- A delete of a live order. -/
theorem deleted_mixes {id : OrderId} (hid : id ∈ l.live) : Returns False (Mixes g li l) (do
    let (h, g) ← g.hdr li
    let g ← g.write fun out => orderDelete out h id
    let g ← g.removeLive li id
    g.record li) := by
  refine (hdr_returns False.elim).bind fun p hp => ?_
  obtain ⟨hli, rfl⟩ := hp
  obtain ⟨book, l', hdelete, hremove, -, hturns⟩ := Tracks.delete ht hid g.keepDead
  have hwrite : ∀ out, orderDelete out ⟨.ofNat (li + 1), g.tracking, .ofNat g.ts⟩ id =
      (callAt g li (.orderDelete id)).write out := fun _ => rfl
  dsimp only
  rw [write_call hwrite (by rw [toNat_ts hts]; exact hts)]
  simp only [ok_bind, Generator.removeLive, index_ok hl, hdelete, ensure_ok, hremove, pure_eq_ok,
    Generator.setLocate]
  exact (record_emits hl hts hli hturns (fun id hid => by cases hid) (takes_none rfl rfl)
    False.elim).mono fun g' h => ⟨_, h.1, rfl, Or.inl hid⟩

/-- An execution of the head of a best level. -/
theorem executeKnown_emits {id : OrderId} {s : Side} {n k : ℕ}
    (hhead : l.book.headOfBest s = some (id, n)) (hle : k ≤ n) (withPrice : Bool)
    (hli : Q → li + 1 < 2 ^ 16) (hnext : Q → g.nextMatch + 1 < 2 ^ 64)
    (hpx : Q → withPrice = false) (hcount : Q → g.truth.isSome → Countable l.book) :
    Returns Q (fun g' => ∃ body, Hits g li l s id n k withPrice body g')
      (g.executeKnown li id k withPrice) := by
  obtain ⟨px, rest, hlevel, hfind⟩ := ht.shows.headOfBest_eq_some hhead
  obtain ⟨book, l', hreduce, htrack, hshown, hturns⟩ := Tracks.execute ht hfind hle g.keepDead
  have hcount' : Q → g.truth.isSome → Countable l'.book := by
    intro hQ htruth
    obtain ⟨hbounded, hlive⟩ := hcount hQ htruth
    refine ⟨?_, ?_⟩
    · rw [hshown]
      exact bounded_take ht.shows.sound hfind (Nat.sub_le n k) hbounded
    · rw [hturns.tracks.shows.liveOrders_eq, hshown, Market.live_take hfind]
      rw [ht.shows.liveOrders_eq] at hlive
      split <;> omega
  have hrecord : ∀ (body : Body) (rng : Rng), g.nextMatch + 1 < 2 ^ 64 → li + 1 < 2 ^ 16 →
      IsFill g id k withPrice body →
      Returns Q (fun g' => ∃ body, Hits g li l s id n k withPrice body g')
        (Generator.record { g with
          rng, nextMatch := g.nextMatch + 1, tracking := g.tracking + 1
          out := g.out ++ (callAt g li body).framed, locs := g.locs.set li l' } li) := by
    intro body rng hnext hli hbody
    obtain ⟨hnone, hnew⟩ := hbody.numbers
    exact (record_emits hl hts hli hturns (fun id hid => by cases hid)
      (takes_match hnone hnew hnext)
      hcount').mono fun g' h => ⟨body, h.1, hbody, l', px, h.2, hturns.tracks, hfind, hshown⟩
  refine (takeMatch_returns hnext).bind fun p hp => ?_
  obtain ⟨hnext, rfl⟩ := hp
  refine (hdr_returns hli).bind fun p hp => ?_
  obtain ⟨hli, rfl⟩ := hp
  simp only [index_ok hl, ok_bind]
  cases withPrice with
  | false =>
    have hwrite : ∀ out, orderExecuted out ⟨.ofNat (li + 1), g.tracking, .ofNat g.ts⟩ id (.ofNat k)
        (.ofNat g.nextMatch) =
        (callAt g li (.orderExecuted id (.ofNat k) (.ofNat g.nextMatch))).write out := fun _ => rfl
    rw [if_neg Bool.false_ne_true, write_call hwrite (by rw [toNat_ts hts]; exact hts)]
    simp only [ok_bind, hreduce, ensure_ok, Generator.setLocate]
    have hdone := hrecord _ g.rng hnext hli rfl
    rw [htrack]
    exact hdone
  | true =>
    obtain ⟨yes, rng, hyes, -⟩ := randomBool_ok { g with
      nextMatch := g.nextMatch + 1, tracking := g.tracking + 1 } half_unit
    have hhome : l.book.lookup id = some (s, px) := (Market.find_eq_some.mp hfind).1
    simp only [if_true, hhome, expect_some, ok_bind, hyes]
    refine (unsigned_returns fun hQ => by cases hpx hQ).bind fun px' _ => ?_
    have hwrite : ∀ out, orderExecutedWithPrice out ⟨.ofNat (li + 1), g.tracking, .ofNat g.ts⟩ id
        (.ofNat k) (.ofNat g.nextMatch) (if yes then 89 else 78) px' =
        (callAt g li (.orderExecutedWithPrice id (.ofNat k) (.ofNat g.nextMatch)
          (if yes then 89 else 78) px')).write out := fun _ => rfl
    rw [write_call hwrite (by rw [toNat_ts hts]; exact hts)]
    simp only [ok_bind, hreduce, ensure_ok, Generator.setLocate]
    have hdone := hrecord _ rng hnext hli ⟨if yes then 89 else 78, px', rfl⟩
    rw [htrack]
    exact hdone

end Messages

section Steps

variable {g : Generator} {li : ℕ} {l : Locate} (h : InStep g) (hl : g.locs[li]? = some l)
  (hts : g.ts < 2 ^ 48)

include h hl hts

theorem add_mixes (withMpid : Bool) : Returns False (Mixes g li l) (g.add li withMpid) := by
  have hmem := List.mem_of_getElem? hl
  refine (drawOrder_yields hl).bind fun p hp => ?_
  obtain ⟨d, g₁⟩ := p
  obtain ⟨hpos, mid, rng, rfl⟩ := hp
  refine (takeRef_returns False.elim).bind fun p hp => ?_
  obtain ⟨hnext, rfl⟩ := hp
  refine (hdr_returns False.elim).bind fun p hp => ?_
  obtain ⟨hli, rfl⟩ := hp
  have hset : (g.locs.set li { l with mid })[li]? = some { l with mid } :=
    List.getElem?_set_self (List.getElem?_eq_some_iff.mp hl).1
  change g.nextRef + 1 < 2 ^ 64 at hnext
  have hfresh : UInt64.ofNat g.nextRef ∉ l.live := fun hid =>
    h.fresh (by omega) hmem (Or.inl hid)
  obtain ⟨shows, indexed, live_iff⟩ := h.tracks l hmem
  obtain ⟨book, hadd, htracks, hlive, hdead⟩ :=
    Tracks.add (l := { l with mid }) ⟨shows, indexed, live_iff⟩ d.side d.px hfresh hpos
  dsimp only at hadd
  simp only [Generator.setLocate, index_ok hset, ok_bind]
  refine (unsigned_returns False.elim).bind fun px _ => ?_
  obtain ⟨body, hbody, hnew, hnone, hwrite⟩ := add_writes g li (sideByte d.side) (.ofNat d.qty)
    l.stock px withMpid
  rw [write_call hwrite (by rw [toNat_ts hts li body]; exact hts)]
  simp only [hadd, ok_bind, List.set_set]
  have hmix : isMix body = true ∧ Aimed l body := by
    rcases hbody with rfl | rfl
    · exact ⟨rfl, trivial⟩
    · exact ⟨rfl, trivial⟩
  refine (record_emits hl hts hli ⟨htracks, hlive, hdead⟩ (fun id hid => ?_)
    (takes_ref hnew hnone hnext) False.elim).mono fun g' h' => ⟨body, h'.1, hmix.1, Or.inl hmix.2⟩
  obtain rfl := Option.some.inj hid
  exact hnew

theorem delete_mixes : Returns False (Mixes g li l) (g.delete li) := by
  refine (pickLive_yields hl).bind fun p hp => ?_
  obtain ⟨o, g₁⟩ := p
  obtain ⟨⟨rng, rfl⟩, hlive⟩ := hp
  have h' : InStep { g with rng } := h.of_locs rfl (le_refl _)
  cases o with
  | none => exact mixes_of_rng (add_mixes h' hl hts false)
  | some id =>
    exact mixes_of_rng (deleted_mixes (g := { g with rng }) hl
      (h'.tracks l (List.mem_of_getElem? hl))
      hts (hlive id rfl))

theorem cancel_mixes : Returns False (Mixes g li l) (g.cancel li) := by
  have ht := h.tracks l (List.mem_of_getElem? hl)
  refine (pickLive_yields hl).bind fun p hp => ?_
  obtain ⟨o, g₁⟩ := p
  obtain ⟨⟨rng, rfl⟩, hlive⟩ := hp
  have h' : InStep { g with rng } := h.of_locs rfl (le_refl _)
  cases o with
  | none => exact mixes_of_rng (add_mixes h' hl hts false)
  | some id =>
    have hid := hlive id rfl
    obtain ⟨s, px, n, hfind⟩ := Tracks.find ht hid
    have hqty : l.book.qty id = some n := by rw [ht.shows.qty_eq, hfind]; rfl
    simp only [index_ok hl, ok_bind, hqty, expect_some]
    by_cases hone : n ≤ 1
    · rw [if_pos hone]
      exact mixes_of_rng (deleted_mixes (g := { g with rng }) hl ht hts hid)
    · rw [if_neg hone]
      obtain ⟨k, rng', hdraw, hpos, hkn⟩ := randomRange_ok { g with rng } (not_le.mp hone)
      simp only [hdraw, ok_bind]
      refine (hdr_returns False.elim).bind fun p hp => ?_
      obtain ⟨hli, rfl⟩ := hp
      obtain ⟨book, hreduce, -, -, hturns⟩ := Tracks.reduce ht hfind hkn
      have hwrite : ∀ out,
          orderCancel out ⟨.ofNat (li + 1), g.tracking, .ofNat g.ts⟩ id (.ofNat k) =
          (callAt g li (.orderCancel id (.ofNat k))).write out := fun _ => rfl
      dsimp only
      rw [write_call hwrite (by rw [toNat_ts hts]; exact hts)]
      simp only [ok_bind, hreduce, ensure_ok, Generator.setLocate]
      have hle : (UInt32.ofNat k).toNat ≤ k := by
        rw [UInt32.toNat_ofNat']
        exact Nat.mod_le k _
      refine (record_emits hl hts hli hturns (fun id hid => by cases hid) (takes_none rfl rfl)
        False.elim).mono fun g' h' => ⟨_, h'.1, rfl, Or.inl ⟨hid, n, hqty, by omega⟩⟩

theorem replace_mixes : Returns False (Mixes g li l) (g.replace li) := by
  have hmem := List.mem_of_getElem? hl
  have ht := h.tracks l hmem
  refine (pickLive_yields hl).bind fun p hp => ?_
  obtain ⟨o, g₁⟩ := p
  obtain ⟨⟨rng, rfl⟩, hlive⟩ := hp
  have h' : InStep { g with rng } := h.of_locs rfl (le_refl _)
  cases o with
  | none => exact mixes_of_rng (add_mixes h' hl hts false)
  | some old =>
    have hold := hlive old rfl
    refine (drawReplacement_yields (g := { g with rng }) old).bind fun p hp => ?_
    obtain ⟨d, g₁⟩ := p
    obtain ⟨hpos, rng', rfl⟩ := hp
    refine (takeRef_returns False.elim).bind fun p hp => ?_
    obtain ⟨hnext, rfl⟩ := hp
    refine (hdr_returns False.elim).bind fun p hp => ?_
    obtain ⟨hli, rfl⟩ := hp
    refine (unsigned_returns False.elim).bind fun px _ => ?_
    change g.nextRef + 1 < 2 ^ 64 at hnext
    have hfresh : UInt64.ofNat g.nextRef ∉ l.live := fun hid =>
      h.fresh (by omega) hmem (Or.inl hid)
    obtain ⟨book, l', hreplace, hremove, hturns⟩ :=
      @Tracks.replace l ht old _ d.px _ hold hfresh hpos g.keepDead
    have hwrite : ∀ out, orderReplace out ⟨.ofNat (li + 1), g.tracking, .ofNat g.ts⟩ old
        (.ofNat g.nextRef) (.ofNat d.qty) px =
        (callAt g li (.orderReplace old (.ofNat g.nextRef) (.ofNat d.qty) px)).write out :=
      fun _ => rfl
    dsimp only
    rw [write_call hwrite (by rw [toNat_ts hts]; exact hts)]
    simp only [index_ok hl, hreplace, ok_bind, ensure_ok, hremove, Generator.setLocate]
    refine (record_emits hl hts hli hturns (fun id hid => ?_) (takes_ref rfl rfl hnext)
      False.elim).mono fun g' h' => ⟨_, h'.1, rfl, Or.inl hold⟩
    obtain rfl := Option.some.inj hid
    rfl

theorem execute_mixes (withPrice : Bool) :
    Returns False (Mixes g li l) (g.execute li withPrice) := by
  have ht := h.tracks l (List.mem_of_getElem? hl)
  obtain ⟨first, rng, hside⟩ := drawSide_ok g
  have h' : InStep { g with rng } := h.of_locs rfl (le_refl _)
  simp only [Generator.execute, hside, ok_bind, index_ok hl]
  cases hhead : Generator.headFor l first with
  | none => exact mixes_of_rng (add_mixes h' hl hts false)
  | some e =>
    obtain ⟨id, n⟩ := e
    obtain ⟨s, hbest⟩ := headOfBest_of_headFor hhead
    refine (randomRange_yields _ 1 (n + 1)).bind fun p hp => ?_
    obtain ⟨k, g₁⟩ := p
    obtain ⟨⟨rng', rfl⟩, -, hkn⟩ := hp
    have hkn' : k ≤ n := Nat.lt_succ_iff.mp hkn
    have hle : (UInt32.ofNat k).toNat ≤ k := by
      rw [UInt32.toNat_ofNat']
      exact Nat.mod_le k _
    have hemits := executeKnown_emits (Q := False) (g := { g with rng := rng' }) hl ht hts hbest
      hkn' withPrice False.elim False.elim False.elim False.elim
    refine @mixes_of_rng _ _ _ rng' _ (hemits.mono fun g' h' => ?_)
    obtain ⟨body, hemits, hfill, l', px, -, -, hfind, -⟩ := h'
    have hid := Tracks.live_of_find ht hfind
    cases withPrice with
    | false =>
      obtain rfl := hfill
      exact ⟨_, hemits, rfl, Or.inl ⟨hid, s, n, hbest, by omega⟩⟩
    | true =>
      obtain ⟨printable, px, rfl⟩ := hfill
      exact ⟨_, hemits, rfl, Or.inl ⟨hid, s, n, hbest, by omega⟩⟩

omit hl in
/-- A step writes one message of the mix. -/
theorem step_mixes : Returns False (fun g' => ∃ li l, Mixes g li l g') g.step := by
  refine (randomRange_yields g 0 g.locs.length).bind fun p hp => ?_
  obtain ⟨li, g₁⟩ := p
  obtain ⟨⟨rng, rfl⟩, -, hlt⟩ := hp
  obtain ⟨kind, rng', hkind⟩ := drawKind_eq { g with rng }
  obtain ⟨l, hl⟩ : ∃ l, g.locs[li]? = some l := ⟨_, List.getElem?_eq_getElem hlt⟩
  have ht := h.tracks l (List.mem_of_getElem? hl)
  have h' : ∀ rng, InStep { g with rng } := fun rng => h.of_locs rfl (le_refl _)
  dsimp only
  rw [hkind]
  have hmixes : ∀ {x : Exec Generator}, Returns False (Mixes { g with rng := rng' } li l) x →
      Returns False (fun g' => ∃ li l, Mixes g li l g') x := fun hx =>
    (mixes_of_rng hx).mono fun g' hg' => ⟨li, l, hg'⟩
  refine hmixes ?_
  cases kind with
  | a => exact add_mixes (h' rng') hl hts false
  | f => exact add_mixes (h' rng') hl hts true
  | p => exact trade_mixes hl ht hts
  | l => exact mpid_mixes hl ht hts
  | d =>
    exact orderKind_mixes (g := { g with rng := rng' }) hl ht hts .d
      (x := fun g => g.delete li) fun rng =>
      delete_mixes (h' rng) hl hts
  | x =>
    exact orderKind_mixes (g := { g with rng := rng' }) hl ht hts .x
      (x := fun g => g.cancel li) fun rng =>
      cancel_mixes (h' rng) hl hts
  | u =>
    exact orderKind_mixes (g := { g with rng := rng' }) hl ht hts .u
      (x := fun g => g.replace li) fun rng =>
      replace_mixes (h' rng) hl hts
  | e =>
    exact orderKind_mixes (g := { g with rng := rng' }) hl ht hts .e
      (x := fun g => g.execute li false) fun rng =>
      execute_mixes (h' rng) hl hts false
  | c =>
    exact orderKind_mixes (g := { g with rng := rng' }) hl ht hts .c
      (x := fun g => g.execute li true) fun rng =>
      execute_mixes (h' rng) hl hts true

end Steps

/-! System events. -/

theorem systemEvent_writes {g : Generator} (hts : g.ts < 2 ^ 48) (code : UInt8) :
    ∃ g', g.systemEvent code = .ok g' ∧ g'.locs = g.locs ∧ Writes g (systemAt g code) g' := by
  exact ⟨_, systemEvent_eq hts code, rfl, rfl, rfl, rfl, rfl, hts, toNat_ts_systemAt hts code, rfl,
    ⟨_, rfl, rfl, rfl⟩, takes_none rfl rfl⟩

end Lobcore.GeneratorMessages
