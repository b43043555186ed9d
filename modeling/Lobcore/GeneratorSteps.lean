import Lobcore.DayEvents
import Lobcore.GeneratorBooks

/-!
One step of the generator. Whatever is drawn, a step writes one message with its row of the
truth and moves the market of one locate as the message says. It fails only where the total of a
level does not fit 32 bits; so while the orders that are placed fit their levels it returns.
-/
namespace Lobcore.GeneratorSteps

open Checked OrderTypes SortedMaps Markets Payloads TruthBooks Writers RoundTrips Generators
open GeneratorDraws GeneratorDraws.Generator GeneratorBooks DayEvents

/-! The order of a step. -/

/-- The order that an add places. -/
def adding (g : Generator) (li : ℕ) : Exec Placement := do
  let (draft, g') ← g.drawOrder li
  return { l := ← index g'.locs li, old := none, allowed := g.crossingAllowed, draft }

/-- The order that a replace places. -/
def replacing (g : Generator) (li : ℕ) (old : OrderId) : Exec Placement := do
  let (draft, _) ← g.drawReplacement li old
  return { l := ← index g.locs li, old := some old, allowed := g.crossingAllowed, draft }

/-- The order that the next step places, if any: an add, a replace, or the add in place of a
message that finds no order. -/
def placing (g : Generator) : Exec (Option Placement) := do
  let (li, g) ← g.randomRange 0 g.locs.length
  let (kind, g) := g.drawKind
  match kind with
  | .a => return some (← adding g li)
  | .f => return some (← adding g li)
  | .p => return none
  | .l => return none
  | kind =>
    let (hit, g) ← g.drawUnknown li
    if hit.isSome then return none
    match kind with
    | .u =>
      let (old, g) ← g.pickLive li
      match old with
      | none => return some (← adding g li)
      | some old => return some (← replacing g li old)
    | .d =>
      let (id, g) ← g.pickLive li
      if id.isSome then return none else return some (← adding g li)
    | .x =>
      let (id, g) ← g.pickLive li
      if id.isSome then return none else return some (← adding g li)
    | _ =>
      let (first, g) ← g.drawSide
      if (Generator.headFor (← index g.locs li) first).isSome then return none
      else return some (← adding g li)

/-! What a generator stands for. -/

/-- The generator keeps the markets of the floor, after `sent` messages. -/
structure At (g : Generator) (fl : Floor) (sent : ℕ) : Prop where
  few : 0 < g.locs.length ∧ g.locs.length < 2 ^ 16
  placeholder : SynthConfig.inUnit g.cfg.placeholderRate
  unknown : SynthConfig.inUnit g.cfg.unknownRefRate
  keeps : ∀ li l, g.locs[li]? = some l → Keeps l fl.nextRef (fl.market (li + 1))
  nothing : ∀ j, j = 0 ∨ g.locs.length < j → fl.market j = .empty
  blank : g.emptyBytes = Market.empty.stateBytes
  nextRef : g.nextRef = fl.nextRef
  nextMatch : g.nextMatch = fl.nextMatch
  nextRef_le : fl.nextRef ≤ sent + 1
  nextMatch_le : fl.nextMatch ≤ sent + 1
  live_le : ∀ l, (fl.market l).live ≤ sent

/-- The messages and their rows stand behind what was there. -/
structure Wrote (g g' : Generator) (rows : List (Call × Truth)) : Prop where
  cfg : g'.cfg = g.cfg
  emptyBytes : g'.emptyBytes = g.emptyBytes
  out : g'.out = g.out ++ (rows.map fun p => p.1.framed).flatten
  truth : g'.truth = g.truth.map fun old => old ++ rows.map Prod.snd
  length : g'.locs.length = g.locs.length
  /-- The shares of a best bid have been counted in 32 bits. -/
  counted : g.truth.isSome → ∀ p ∈ rows, ∀ e ∈ p.2.bestBid, e.2 < 2 ^ 32

theorem Wrote.refl (g : Generator) : Wrote g g [] where
  cfg := rfl
  emptyBytes := rfl
  out := by simp
  truth := by simp
  length := rfl
  counted _ p hp := by cases hp

theorem Wrote.trans {g g' g'' : Generator} {rows rows' : List (Call × Truth)}
    (h : Wrote g g' rows) (h' : Wrote g' g'' rows') : Wrote g g'' (rows ++ rows') where
  cfg := h'.cfg.trans h.cfg
  emptyBytes := h'.emptyBytes.trans h.emptyBytes
  out := by rw [h'.out, h.out, List.map_append, List.flatten_append, List.append_assoc]
  truth := by
    rw [h'.truth, h.truth, Option.map_map]
    congr 1
    funext old
    simp only [Function.comp_apply, List.map_append, List.append_assoc]
  length := h'.length.trans h.length
  counted hsome p hp := by
    rcases List.mem_append.mp hp with hp | hp
    · exact h.counted hsome p hp
    · exact h'.counted (by rw [h.truth, Option.isSome_map, hsome]) p hp

/-- One message on a locate. -/
structure Sends (Q : Prop) (C : Placement → Prop) (g : Generator) (fl : Floor) (sent li : ℕ)
    (c : Call) (m : Market) (g' : Generator) : Prop where
  li_lt : li < g.locs.length
  locate : c.header.locate = .ofNat (li + 1)
  ts : c.header.ts.toNat = g.ts
  numbered : Numbered fl c
  deal : Deal C g.crossingAllowed fl.nextRef (fl.market (li + 1)) c.body m
  wrote : Wrote g g' [(c, rowOf c m)]
  stands : At g' (fl.after c (Function.update fl.market (li + 1) m) fl.phase) (sent + 1)
  bounded : Q → Bounded m
  clock : g'.ts = g.ts

/-- The call returns with one message on the locate, or aborts where the circumstances are bad. -/
def Sent (Q : Prop) (C : Placement → Prop) (g : Generator) (fl : Floor) (sent li : ℕ)
    (x : Exec Generator) : Prop := Returns Q (fun g' => ∃ c m, Sends Q C g fl sent li c m g') x

theorem At.withClock {g : Generator} {fl : Floor} {sent : ℕ} (h : At g fl sent) (rng : Rng)
    (ts : ℕ) : At { g with rng, ts } fl sent :=
  ⟨h.few, h.placeholder, h.unknown, h.keeps, h.nothing, h.blank, h.nextRef, h.nextMatch,
    h.nextRef_le, h.nextMatch_le, h.live_le⟩

/-- Taking shares makes no order live. -/
theorem At.live_take_le {g : Generator} {fl : Floor} {sent : ℕ} (h : At g fl sent) {i : ℕ}
    {id : OrderId} {s : Side} {px : ℤ} {n : ℕ} (hfind : (fl.market i).find id = some (s, px, n))
    (rest : ℕ) : ((fl.market i).take id s px rest).live ≤ sent := by
  have hle := h.live_le i
  rw [Market.live_take hfind]
  split <;> omega

theorem At.withRng {g : Generator} {fl : Floor} {sent : ℕ} (h : At g fl sent) (rng : Rng) :
    At { g with rng } fl sent := h.withClock rng g.ts

/-- The numbers that stand for the next message once a message has used up its own. -/
structure Uses (g : Generator) (body : Body) (nextRef nextMatch : ℕ) : Prop where
  nextRef_eq : nextRef = g.nextRef + if (newRef body).isSome then 1 else 0
  nextMatch_eq : nextMatch = g.nextMatch + if (newMatch body).isSome then 1 else 0
  ref : ∀ r ∈ newRef body, r = .ofNat g.nextRef
  matchNo : ∀ n ∈ newMatch body, n = .ofNat g.nextMatch

theorem uses_none {g : Generator} {body : Body} (href : newRef body = none)
    (hmatch : newMatch body = none) : Uses g body g.nextRef g.nextMatch := by
  constructor <;> simp [href, hmatch]

theorem uses_ref {g : Generator} {body : Body} (href : newRef body = some (.ofNat g.nextRef))
    (hmatch : newMatch body = none) : Uses g body (g.nextRef + 1) g.nextMatch := by
  constructor <;> simp [href, hmatch]

theorem uses_match {g : Generator} {body : Body} (href : newRef body = none)
    (hmatch : newMatch body = some (.ofNat g.nextMatch)) :
    Uses g body g.nextRef (g.nextMatch + 1) := by
  constructor <;> simp [href, hmatch]

/-- The call of a writer for a locate. -/
def callAt (g : Generator) (li : ℕ) (body : Body) : Call :=
  ⟨⟨.ofNat (li + 1), g.tracking, .ofNat g.ts⟩, body⟩

section Calls

variable {g : Generator}

theorem toNat_ts (hts : g.ts < 2 ^ 48) (li : ℕ) (body : Body) :
    (callAt g li body).header.ts.toNat = g.ts := by
  show (UInt64.ofNat g.ts).toNat = g.ts
  exact UInt64.toNat_ofNat_of_lt' (lt_trans hts (by decide))

theorem hdr_ok {li : ℕ} (hli : li + 1 < 2 ^ 16) : g.hdr li =
    .ok (⟨.ofNat (li + 1), g.tracking, .ofNat g.ts⟩, { g with tracking := g.tracking + 1 }) := by
  rw [Generator.hdr, ensure_ok hli]
  rfl

theorem takeRef_ok (h : g.nextRef + 1 < 2 ^ 64) :
    g.takeRef = .ok (.ofNat g.nextRef, { g with nextRef := g.nextRef + 1 }) := by
  rw [Generator.takeRef, addU64_ok h]
  rfl

theorem takeMatch_ok (h : g.nextMatch + 1 < 2 ^ 64) :
    g.takeMatch = .ok (.ofNat g.nextMatch, { g with nextMatch := g.nextMatch + 1 }) := by
  rw [Generator.takeMatch, addU64_ok h]
  rfl

theorem write_call {c : Call} {f : Bytes → Exec Bytes} (hf : ∀ out, f out = c.write out)
    (hts : c.header.ts.toNat < 2 ^ 48) : g.write f = .ok { g with out := g.out ++ c.framed } := by
  rw [Generator.write, hf, write_ok hts]
  rfl

/-- An add, with or without a participant. -/
theorem add_writes (g : Generator) (li : ℕ) (side : UInt8) (qty : UInt32) (stock : Alpha 8)
    (px : UInt32) (withMpid : Bool) : ∃ body : Body,
    (body = .addOrder (.ofNat g.nextRef) side qty stock px ∨
      body = .addOrderMpid (.ofNat g.nextRef) side qty stock px mpidName) ∧
    newRef body = some (.ofNat g.nextRef) ∧ newMatch body = none ∧ ∀ out,
    (if withMpid then addOrderMpid out ⟨.ofNat (li + 1), g.tracking, .ofNat g.ts⟩
      (.ofNat g.nextRef) side qty stock px mpidName
    else addOrder out ⟨.ofNat (li + 1), g.tracking, .ofNat g.ts⟩ (.ofNat g.nextRef) side qty
      stock px) = (callAt g li body).write out := by
  cases withMpid with
  | true => exact ⟨_, Or.inr rfl, rfl, rfl, fun _ => rfl⟩
  | false => exact ⟨_, Or.inl rfl, rfl, rfl, fun _ => rfl⟩

theorem unsigned_ok {px : ℤ} (hpx : 0 ≤ px) : unsigned px = .ok (.ofNat px.toNat) := by
  rw [unsigned, ensure_ok hpx]
  rfl

end Calls

section Locates

variable {Q : Prop} {C : Placement → Prop} {g : Generator} {fl : Floor} {sent li : ℕ} {l : Locate}
  (hat : At g fl sent) (hl : g.locs[li]? = some l)

include hat hl

omit hat hl in
theorem some_sends {c : Call} {m : Market} {x : Exec Generator}
    (h : Returns Q (Sends Q C g fl sent li c m) x) : Sent Q C g fl sent li x :=
  h.mono fun _ h' => ⟨c, m, h'⟩

omit hat hl in
/-- The random source is no part of what a message leaves. -/
theorem Sent.of_rng {rng : Rng} {x : Exec Generator}
    (h : Sent Q C { g with rng } fl sent li x) : Sent Q C g fl sent li x := by
  refine h.mono fun g' h' => ?_
  obtain ⟨c, m, hsends⟩ := h'
  obtain ⟨hcfg, hempty, hout, htruth, hlength, hcounted⟩ := hsends.wrote
  exact ⟨c, m, { hsends with
    deal := hsends.deal
    wrote := ⟨hcfg, hempty, hout, htruth, hlength, hcounted⟩ }⟩

theorem li_lt : li < g.locs.length ∧ li + 1 < 2 ^ 16 := by
  have hlt := (List.getElem?_eq_some_iff.mp hl).1
  exact ⟨hlt, by have := hat.few.2; omega⟩

/-- The row of a message whose locate is changed already. -/
theorem record_sends {l' : Locate} {m : Market} {nextRef nextMatch : ℕ} {rng : Rng}
    {tracking : UInt16} {body : Body} (hsent : sent + 1 < 2 ^ 32) (hts : g.ts < 2 ^ 48)
    (hclock : fl.clock ≤ g.ts) (hkeep : Keeps l' nextRef m) (hbounded : Q → Bounded m)
    (hdeal : Deal C g.crossingAllowed g.nextRef (fl.market (li + 1)) body m)
    (hlive : m.live ≤ sent + 1) (huses : Uses g body nextRef nextMatch) :
    Returns Q (Sends Q C g fl sent li (callAt g li body) m)
      (Generator.record { g with
        rng, tracking, nextRef, nextMatch, out := g.out ++ (callAt g li body).framed,
        locs := g.locs.set li l' } li) := by
  have hts' := toNat_ts hts li body
  obtain ⟨href, hmatch, hnewRef, hnewMatch⟩ := huses
  rw [hat.nextRef] at hdeal href hnewRef
  rw [hat.nextMatch] at hmatch hnewMatch
  have hnumbered : Numbered fl (callAt g li body) :=
    ⟨by rw [hts']; exact hts, by rw [hts']; exact hclock, hnewRef, hnewMatch⟩
  obtain ⟨hlt, hli⟩ := li_lt hat hl
  have hstands : ∀ truth, At { g with
      rng, tracking, nextRef, nextMatch, truth, out := g.out ++ (callAt g li body).framed,
      locs := g.locs.set li l' }
      (fl.after (callAt g li body) (Function.update fl.market (li + 1) m) fl.phase)
      (sent + 1) := by
    intro truth
    have hnext : (fl.after (callAt g li body) (Function.update fl.market (li + 1) m)
        fl.phase).nextRef = nextRef := href.symm
    have hnext' : (fl.after (callAt g li body) (Function.update fl.market (li + 1) m)
        fl.phase).nextMatch = nextMatch := hmatch.symm
    have hle : fl.nextRef ≤ nextRef ∧ nextRef ≤ fl.nextRef + 1 := by
      rw [href]
      split <;> omega
    have hle' : nextMatch ≤ fl.nextMatch + 1 := by
      rw [hmatch]
      split <;> omega
    refine ⟨by simpa using hat.few, hat.placeholder, hat.unknown, fun lj k hk => ?_,
      fun j hj => ?_, hat.blank, hnext.symm, hnext'.symm, ?_, ?_, fun j => ?_⟩
    · rw [hnext]
      show Keeps k nextRef (Function.update fl.market (li + 1) m (lj + 1))
      simp only [List.getElem?_set] at hk
      by_cases hj : li = lj
      · subst hj
        rw [if_pos rfl, if_pos hlt] at hk
        obtain rfl := Option.some.inj hk
        rw [Function.update_self]
        exact hkeep
      · rw [if_neg hj] at hk
        rw [Function.update_of_ne (by omega)]
        exact (hat.keeps lj k hk).mono hle.1
    · show Function.update fl.market (li + 1) m j = .empty
      simp only [List.length_set] at hj
      rw [Function.update_of_ne (by omega), hat.nothing j hj]
    · rw [hnext]
      exact hle.2.trans (Nat.succ_le_succ hat.nextRef_le)
    · rw [hnext']
      exact hle'.trans (Nat.succ_le_succ hat.nextMatch_le)
    · show (Function.update fl.market (li + 1) m j).live ≤ sent + 1
      by_cases hj : j = li + 1
      · rw [hj, Function.update_self]
        exact hlive
      · rw [Function.update_of_ne hj]
        exact Nat.le_succ_of_le (hat.live_le j)
  have hset : (g.locs.set li l')[li]? = some l' := List.getElem?_set_self hlt
  simp only [Generator.record]
  cases htruth : g.truth with
  | none =>
    refine Returns.of_ok ⟨hlt, rfl, hts', hnumbered, hdeal, ⟨rfl, rfl, by simp, ?_, by simp, ?_⟩,
      hstands _, hbounded, rfl⟩
    · rw [htruth]
      rfl
    · rw [htruth]
      intro hsome
      cases hsome
  | some rows =>
    simp only [index_ok hset, ok_bind, ensure_ok hli]
    refine (hkeep.shows.quote_returns hbounded .bid).bind fun bestBid hbid => ?_
    refine (hkeep.shows.quote_returns hbounded .ask).bind fun bestAsk hask => ?_
    refine (hkeep.shows.l5_returns hbounded .bid).bind fun l5Bid hfive => ?_
    refine (hkeep.shows.l5_returns hbounded .ask).bind fun l5Ask hfive' => ?_
    obtain ⟨rfl, hcounted⟩ := hbid
    obtain ⟨rfl, -⟩ := hask
    rw [ensure_ok (by rw [hkeep.shows.liveOrders_eq]; omega), ok_bind]
    refine (hkeep.shows.hashBytes_returns hbounded).bind fun bookBytes hbytes => ?_
    refine Returns.of_ok ⟨hlt, rfl, hts', hnumbered, hdeal, ⟨rfl, rfl, by simp, ?_, by simp, ?_⟩,
      hstands _, hbounded, rfl⟩
    · rw [htruth, hfive, hfive', hbytes, hkeep.shows.liveOrders_eq]
      simp only [Option.map_some, List.map_cons, List.map_nil, rowOf, hts']
      rfl
    · intro _ p hp e he
      obtain rfl := List.mem_singleton.mp hp
      exact hcounted e he

end Locates

/-- An order that fits leaves every level countable. -/
theorem bounded_push {p : Placement} {m : Market} {id : OrderId} (hshows : p.l.book.Shows m)
    (hold : p.old = none) (hfits : p.Fits) (hb : Bounded m) :
    Bounded (m.push id p.draft.side p.draft.px p.draft.qty) := by
  intro s px
  by_cases hq : s = p.draft.side ∧ px = p.draft.px
  · obtain ⟨rfl, rfl⟩ := hq
    rw [Placement.Fits, Placement.others, hold, Option.elim_none, ← hshows.queue_eq] at hfits
    simpa [Market.push, Market.setQueue_self] using hfits
  · simpa only [Market.push, Market.setQueue_of_ne m _ hq] using hb s px

theorem bounded_take {m : Market} (hm : m.Sound) {id : OrderId} {s : Side} {px : ℤ} {n rest : ℕ}
    (hfind : m.find id = some (s, px, n)) (hrest : rest ≤ n) (hb : Bounded m) :
    Bounded (m.take id s px rest) := fun s' px' =>
  lt_of_le_of_lt (hm.total_take_le hfind hrest s' px') (hb s' px')

section Messages

variable {Q : Prop} {C : Placement → Prop} {g : Generator} {fl : Floor} {sent li : ℕ} {l : Locate}
  (hat : At g fl sent) (hl : g.locs[li]? = some l) (hsent : sent + 1 < 2 ^ 32)
  (hts : g.ts < 2 ^ 48) (hclock : fl.clock ≤ g.ts) (hb : Q → ∀ j, Bounded (fl.market j))

include hat hl hsent hts hclock hb

/-- A message that leaves its locate as it is. -/
theorem unchanged_returns {body : Body} {nextRef nextMatch : ℕ} {rng : Rng} {tracking : UInt16}
    (hdeal : Deal C g.crossingAllowed g.nextRef (fl.market (li + 1)) body (fl.market (li + 1)))
    (huses : Uses g body nextRef nextMatch) :
    Sent Q C g fl sent li (Generator.record { g with
      rng, tracking, nextRef, nextMatch, out := g.out ++ (callAt g li body).framed } li) := by
  have hself : g.locs.set li l = g.locs := by
    obtain ⟨hlt, rfl⟩ := List.getElem?_eq_some_iff.mp hl
    exact List.set_getElem_self hlt
  have hle : fl.nextRef ≤ nextRef := by
    rw [huses.nextRef_eq, hat.nextRef]
    exact Nat.le_add_right ..
  have hstate : { g with
      rng, tracking, nextRef, nextMatch, out := g.out ++ (callAt g li body).framed } = { g with
      rng, tracking, nextRef, nextMatch, out := g.out ++ (callAt g li body).framed,
      locs := g.locs.set li l } := by rw [hself]
  rw [hstate]
  exact some_sends (record_sends hat hl hsent hts hclock ((hat.keeps li l hl).mono hle)
    (fun hQ => hb hQ (li + 1)) hdeal (Nat.le_succ_of_le (hat.live_le (li + 1))) huses)

/-- A delete of a live order. -/
theorem deleted_returns {id : OrderId} {s : Side} {px : ℤ} {n : ℕ}
    (hfind : (fl.market (li + 1)).find id = some (s, px, n)) :
    Sent Q C g fl sent li (do
      let (h, g) ← g.hdr li
      let g ← g.write fun out => orderDelete out h id
      let g ← g.removeLive li id
      g.record li) := by
  obtain ⟨hlt, hli⟩ := li_lt hat hl
  have hk := hat.keeps li l hl
  obtain ⟨book, l', hdelete, hremove, hkeep⟩ := Keeps.delete hk hfind g.keepDead
  have hwrite : ∀ out, orderDelete out ⟨.ofNat (li + 1), g.tracking, .ofNat g.ts⟩ id =
      (callAt g li (.orderDelete id)).write out := fun _ => rfl
  have hts' := toNat_ts hts li (.orderDelete id)
  simp only [hdr_ok hli, ok_bind, write_call hwrite (hts' ▸ hts), Generator.removeLive,
    index_ok hl, hdelete, ensure_ok, hremove, pure_eq_ok, Generator.setLocate]
  rw [← hat.nextRef] at hkeep
  refine some_sends (record_sends hat hl hsent hts hclock hkeep (fun hQ => ?_) (.deleted hfind) ?_
    (uses_none rfl rfl))
  · exact bounded_take hk.shows.sound hfind (Nat.zero_le n) (hb hQ (li + 1))
  · exact Nat.le_succ_of_le (hat.live_take_le hfind _)

/-- An execution at the head of a best level. -/
theorem executeKnown_sends {id : OrderId} {s : Side} {px : ℤ} {n k : ℕ} {rest : Queue}
    (hhead : ((fl.market (li + 1)).levels s).head? = some (px, (id, n) :: rest))
    (hfind : (fl.market (li + 1)).find id = some (s, px, n)) (hpos : 0 < k) (hle : k ≤ n)
    (withPrice : Bool) :
    Returns Q (fun g' => ∃ c,
      Sends Q C g fl sent li c ((fl.market (li + 1)).take id s px (n - k)) g')
      (g.executeKnown li id k withPrice) := by
  obtain ⟨hlt, hli⟩ := li_lt hat hl
  have hk := hat.keeps li l hl
  have hnext : g.nextMatch + 1 < 2 ^ 64 := by
    have := hat.nextMatch
    have := hat.nextMatch_le
    omega
  have hhome := (Market.find_eq_some.mp hfind).1
  have hpx : 0 ≤ px := by
    have hne : (fl.market (li + 1)).queue s px ≠ [] := by
      intro hnil
      have hmem := (hk.shows.sound.home_iff id s px).mp hhome
      simp [hnil] at hmem
    exact OnGrid.nonneg hk.tick (hk.onGrid s px hne)
  obtain ⟨book, l', hreduce, htrack, hkeep⟩ := Keeps.execute hk hfind hle g.keepDead
  rw [← hat.nextRef] at hkeep
  have hrecord : ∀ (body : Body) (rng : Rng),
      (body = .orderExecuted id (.ofNat k) (.ofNat g.nextMatch) ∨
      ∃ printable, body = .orderExecutedWithPrice id (.ofNat k) (.ofNat g.nextMatch) printable
        (.ofNat px.toNat)) →
      Returns Q (fun g' => ∃ c,
        Sends Q C g fl sent li c ((fl.market (li + 1)).take id s px (n - k)) g')
        (Generator.record { g with
          rng, nextMatch := g.nextMatch + 1, tracking := g.tracking + 1
          out := g.out ++ (callAt g li body).framed, locs := g.locs.set li l' } li) := by
    intro body rng hbody
    have hnone : newRef body = none := by
      obtain rfl | ⟨printable, rfl⟩ := hbody <;> rfl
    have hnew : newMatch body = some (.ofNat g.nextMatch) := by
      obtain rfl | ⟨printable, rfl⟩ := hbody <;> rfl
    refine (record_sends hat hl hsent hts hclock hkeep (fun hQ => ?_)
      (.executed hhead hfind hpos hle hbody) ?_ (uses_match hnone hnew)).mono fun g' h => ⟨_, h⟩
    · exact bounded_take hk.shows.sound hfind (Nat.sub_le n k) (hb hQ (li + 1))
    · exact Nat.le_succ_of_le (hat.live_take_le hfind _)
  simp only [Generator.executeKnown, takeMatch_ok, hnext, ok_bind, hdr_ok hli, index_ok hl]
  cases withPrice with
  | false =>
    have hwrite : ∀ out, orderExecuted out ⟨.ofNat (li + 1), g.tracking, .ofNat g.ts⟩ id (.ofNat k)
        (.ofNat g.nextMatch) =
        (callAt g li (.orderExecuted id (.ofNat k) (.ofNat g.nextMatch))).write out := fun _ => rfl
    rw [if_neg Bool.false_ne_true, write_call hwrite (by rw [toNat_ts hts]; exact hts)]
    simp only [ok_bind, hreduce, ensure_ok, Generator.setLocate]
    have hdone := hrecord _ g.rng (Or.inl rfl)
    rw [htrack]
    exact hdone
  | true =>
    obtain ⟨yes, rng, hyes, -⟩ := randomBool_ok { g with
      nextMatch := g.nextMatch + 1, tracking := g.tracking + 1 } half_unit
    have hwrite : ∀ out, orderExecutedWithPrice out ⟨.ofNat (li + 1), g.tracking, .ofNat g.ts⟩ id
        (.ofNat k) (.ofNat g.nextMatch) (if yes then 89 else 78) (.ofNat px.toNat) =
        (callAt g li (.orderExecutedWithPrice id (.ofNat k) (.ofNat g.nextMatch)
          (if yes then 89 else 78) (.ofNat px.toNat))).write out := fun _ => rfl
    simp only [if_true, hk.shows.lookup_eq, hhome, expect_some, ok_bind, hyes, unsigned_ok hpx]
    rw [write_call hwrite (by rw [toNat_ts hts]; exact hts)]
    simp only [ok_bind, hreduce, ensure_ok, Generator.setLocate]
    have hdone := hrecord _ rng (Or.inr ⟨if yes then 89 else 78, rfl⟩)
    rw [htrack]
    exact hdone

/-- A trade off the book. -/
theorem trade_returns : Sent Q C g fl sent li (g.trade li) := by
  obtain ⟨hlt, hli⟩ := li_lt hat hl
  have hk := hat.keeps li l hl
  have hnext : g.nextMatch + 1 < 2 ^ 64 := by
    have := hat.nextMatch
    have := hat.nextMatch_le
    omega
  obtain ⟨n, rng, hn, -, -⟩ := qty_ok g
  simp only [Generator.trade, hn, ok_bind, takeMatch_ok, hnext, hdr_ok hli, index_ok hl]
  refine (hk.shows.quote_returns (fun hQ => hb hQ (li + 1)) .bid).bind fun bestBid hbid => ?_
  obtain ⟨rfl, -⟩ := hbid
  have hpx : 0 ≤ (best (fl.market (li + 1)) .bid).elim l.mid Prod.fst := by
    cases hbest : best (fl.market (li + 1)) .bid with
    | none =>
      have hmid := hk.mid.1
      rcases hk.tick with ht | ht <;> simp only [Option.elim_none] <;> omega
    | some e => exact OnGrid.nonneg hk.tick (hk.best_onGrid hbest)
  have hwrite : ∀ out, Writers.trade out ⟨.ofNat (li + 1), g.tracking, .ofNat g.ts⟩ (.ofNat n)
      l.stock (.ofNat ((best (fl.market (li + 1)) .bid).elim l.mid Prod.fst).toNat)
      (.ofNat g.nextMatch) = (callAt g li (.trade (.ofNat n) l.stock
        (.ofNat ((best (fl.market (li + 1)) .bid).elim l.mid Prod.fst).toNat)
        (.ofNat g.nextMatch))).write out := fun _ => rfl
  rw [unsigned_ok hpx, ok_bind, write_call hwrite (by rw [toNat_ts hts]; exact hts), ok_bind]
  exact unchanged_returns hat hl hsent hts hclock hb (.mark rfl) (uses_match rfl rfl)

theorem mpid_returns : Sent Q C g fl sent li (g.mpid li) := by
  obtain ⟨hlt, hli⟩ := li_lt hat hl
  have hwrite : ∀ out, mpidPosition out ⟨.ofNat (li + 1), g.tracking, .ofNat g.ts⟩ mpidName
      l.stock = (callAt g li (.mpidPosition mpidName l.stock)).write out := fun _ => rfl
  simp only [Generator.mpid, hdr_ok hli, ok_bind, index_ok hl,
    write_call hwrite (by rw [toNat_ts hts]; exact hts)]
  exact unchanged_returns hat hl hsent hts hclock hb (.mark rfl) (uses_none rfl rfl)

omit hsent hclock hb in
/-- A message for a dead reference. -/
theorem writeUnknown_ok (hnext : g.nextRef + 1 < 2 ^ 64) (hnext' : g.nextMatch + 1 < 2 ^ 64)
    (kind : Kind) (id : OrderId) (n : ℕ) : ∃ body nextRef nextMatch, target body = some id ∧
      Uses g body nextRef nextMatch ∧
      Generator.writeUnknown { g with tracking := g.tracking + 1 } li kind
        ⟨.ofNat (li + 1), g.tracking, .ofNat g.ts⟩ id n = .ok { g with
          nextRef, nextMatch, tracking := g.tracking + 1
          out := g.out ++ (callAt g li body).framed } := by
  have hk := hat.keeps li l hl
  have hmid : 0 ≤ l.mid := by
    have hmid := hk.mid.1
    rcases hk.tick with ht | ht <;> omega
  have hts' : ∀ body, (callAt g li body).header.ts.toNat < 2 ^ 48 := fun body => by
    rw [toNat_ts hts]
    exact hts
  cases kind with
  | d =>
    refine ⟨.orderDelete id, _, _, rfl, uses_none rfl rfl, ?_⟩
    simp only [Generator.writeUnknown, index_ok hl, ok_bind]
    exact write_call (fun _ => rfl) (hts' _)
  | x =>
    refine ⟨.orderCancel id (.ofNat n), _, _, rfl, uses_none rfl rfl, ?_⟩
    simp only [Generator.writeUnknown, index_ok hl, ok_bind]
    exact write_call (fun _ => rfl) (hts' _)
  | u =>
    refine ⟨.orderReplace id (.ofNat g.nextRef) (.ofNat n) (.ofNat l.mid.toNat), _, _, rfl,
      uses_ref rfl rfl, ?_⟩
    simp only [Generator.writeUnknown, index_ok hl, ok_bind, takeRef_ok, hnext, unsigned_ok hmid]
    exact write_call (fun _ => rfl) (hts' _)
  | e =>
    refine ⟨.orderExecuted id (.ofNat n) (.ofNat g.nextMatch), _, _, rfl, uses_match rfl rfl, ?_⟩
    simp only [Generator.writeUnknown, index_ok hl, ok_bind, takeMatch_ok, hnext']
    exact write_call (fun _ => rfl) (hts' _)
  | _ =>
    refine ⟨.orderExecutedWithPrice id (.ofNat n) (.ofNat g.nextMatch) 89 (.ofNat l.mid.toNat),
      _, _,
      rfl, uses_match rfl rfl, ?_⟩
    simp only [Generator.writeUnknown, index_ok hl, ok_bind, takeMatch_ok, hnext', unsigned_ok hmid]
    exact write_call (fun _ => rfl) (hts' _)

theorem unknown_returns {id : OrderId} (hgone : (fl.market (li + 1)).home id = none) (kind : Kind)
    (n : ℕ) : Sent Q C g fl sent li (do
      let (h, g) ← g.hdr li
      let g ← g.writeUnknown li kind h id n
      g.record li) := by
  obtain ⟨hlt, hli⟩ := li_lt hat hl
  have hnext := hat.nextRef_le
  have hnext' := hat.nextMatch_le
  rw [← hat.nextRef] at hnext
  rw [← hat.nextMatch] at hnext'
  obtain ⟨body, nextRef, nextMatch, htarget, huses, hwrite⟩ :=
    writeUnknown_ok hat hl hts (by omega) (by omega) kind id n
  simp only [hdr_ok hli, ok_bind, hwrite]
  exact unchanged_returns hat hl hsent hts hclock hb (.missed htarget hgone) huses

end Messages

/-- An order that leaves is settled at every price of its side. -/
theorem queue_settled {m : Market} (hm : m.Sound) {old : OrderId} {s : Side} {oldPx : ℤ} {held : ℕ}
    (hfind : m.find old = some (s, oldPx, held)) (px : ℤ) :
    (m.take old s oldPx 0).queue s px = settle old 0 (m.queue s px) := by
  by_cases hpx : px = oldPx
  · rw [hpx]
    exact Market.setQueue_self ..
  · have hout : old ∉ ids (m.queue s px) := by
      intro hmem
      have hhome := (hm.home_iff _ _ _).mpr hmem
      rw [(Market.find_eq_some.mp hfind).1] at hhome
      exact hpx (congrArg Prod.snd (Option.some.inj hhome)).symm
    rw [settle_eq_self hout]
    exact Market.setQueue_of_ne m _ fun h => hpx h.2

/-- An order that fits in place of another. -/
theorem bounded_replace {p : Placement} {m : Market} {old new : OrderId} {oldPx : ℤ} {held : ℕ}
    (hshows : p.l.book.Shows m) (hold : p.old = some old) (hfits : p.Fits)
    (hfind : m.find old = some (p.draft.side, oldPx, held)) (hb : Bounded m) :
    Bounded ((m.take old p.draft.side oldPx 0).push new p.draft.side p.draft.px p.draft.qty) := by
  have hrest := bounded_take hshows.sound hfind (Nat.zero_le held) hb
  intro s px
  by_cases hq : s = p.draft.side ∧ px = p.draft.px
  · obtain ⟨rfl, rfl⟩ := hq
    rw [Placement.Fits, Placement.others, hold, Option.elim_some, ← hshows.queue_eq] at hfits
    simpa [Market.push, Market.setQueue_self, queue_settled hshows.sound hfind] using hfits
  · simpa only [Market.push, Market.setQueue_of_ne _ _ hq] using hrest s px

section Steps

variable {Q : Prop} {C : Placement → Prop} {g : Generator} {fl : Floor} {sent li : ℕ} {l : Locate}
  (hat : At g fl sent) (hl : g.locs[li]? = some l) (hsent : sent + 1 < 2 ^ 32)
  (hts : g.ts < 2 ^ 48) (hclock : fl.clock ≤ g.ts) (hb : Q → ∀ j, Bounded (fl.market j))
  (hfit : Q → ∀ p, C p → p.Fits)

include hat hl hsent hts hclock hb hfit

theorem add_returns (hC : ∀ p, adding g li = .ok p → C p) (withMpid : Bool) :
    Sent Q C g fl sent li (g.add li withMpid) := by
  obtain ⟨hlt, hli⟩ := li_lt hat hl
  have hk := hat.keeps li l hl
  have hnext : g.nextRef + 1 < 2 ^ 64 := by
    have := hat.nextRef
    have := hat.nextRef_le
    omega
  simp only [Generator.add]
  refine (drawOrder_returns hl hk hat.placeholder fun hQ => hb hQ (li + 1)).with_eq.bind
    fun p hp => ?_
  obtain ⟨d, g'⟩ := p
  obtain ⟨heq, mid, rng, rfl, hkeep, hdraft⟩ := hp
  have hset : (g.locs.set li { l with mid })[li]? = some { l with mid } :=
    List.getElem?_set_self hlt
  have hplace : adding g li = .ok ⟨{ l with mid }, none, g.crossingAllowed, d⟩ := by
    simp only [adding, heq, ok_bind, Generator.setLocate, index_ok hset, pure_eq_ok]
  have hCp := hC _ hplace
  have hgrid := hdraft.onGrid
  dsimp only at hdraft hgrid
  rw [← hat.nextRef] at hkeep
  obtain ⟨book, hadd, hkeep'⟩ := Keeps.add hkeep (by omega) hdraft.qty_pos hgrid
  have hfresh := hkeep.fresh (by omega)
  dsimp only at hadd
  simp only [Generator.setLocate, takeRef_ok, hnext, ok_bind, hdr_ok hli, index_ok hset,
    unsigned_ok (OnGrid.nonneg hk.tick hgrid)]
  obtain ⟨body, hbody, hnew, hnone, hwrite⟩ := add_writes g li (sideByte d.side) (.ofNat d.qty)
    l.stock (.ofNat d.px.toNat) withMpid
  rw [write_call hwrite (by rw [toNat_ts hts li body]; exact hts)]
  simp only [hadd, ok_bind, List.set_set]
  refine some_sends (record_sends hat hl hsent hts hclock hkeep' (fun hQ => ?_)
    (.placed hCp rfl rfl hkeep.shows hdraft hfresh hbody) ?_ (uses_ref hnew hnone))
  · exact bounded_push hkeep.shows rfl (hfit hQ _ hCp) (hb hQ (li + 1))
  · rw [Market.live_push hfresh]
    exact Nat.succ_le_succ (hat.live_le (li + 1))

theorem delete_returns (hC : ∀ rng p, g.pickLive li = .ok (none, { g with rng }) →
    adding { g with rng } li = .ok p → C p) : Sent Q C g fl sent li (g.delete li) := by
  obtain ⟨o, rng, hpick, hsome⟩ := pickLive_ok hl (hat.keeps li l hl)
  simp only [Generator.delete, hpick, ok_bind]
  cases o with
  | none =>
    exact Sent.of_rng (add_returns (hat.withRng rng) hl hsent hts hclock hb hfit
      (fun p => hC rng p hpick) false)
  | some id =>
    obtain ⟨s, px, n, hfind⟩ := (hat.keeps li l hl).find_of_live (hsome id rfl)
    exact Sent.of_rng (deleted_returns (hat.withRng rng) hl hsent hts hclock hb hfind)

theorem cancel_returns (hC : ∀ rng p, g.pickLive li = .ok (none, { g with rng }) →
    adding { g with rng } li = .ok p → C p) : Sent Q C g fl sent li (g.cancel li) := by
  obtain ⟨hlt, hli⟩ := li_lt hat hl
  have hk := hat.keeps li l hl
  obtain ⟨o, rng, hpick, hsome⟩ := pickLive_ok hl hk
  simp only [Generator.cancel, hpick, ok_bind]
  cases o with
  | none =>
    exact Sent.of_rng (add_returns (hat.withRng rng) hl hsent hts hclock hb hfit
      (fun p => hC rng p hpick) false)
  | some id =>
    obtain ⟨s, px, n, hfind⟩ := hk.find_of_live (hsome id rfl)
    simp only [index_ok hl, ok_bind, hk.shows.qty_eq, hfind, Option.map_some, expect_some]
    by_cases hone : n ≤ 1
    · rw [if_pos hone]
      exact Sent.of_rng (deleted_returns (hat.withRng rng) hl hsent hts hclock hb hfind)
    · rw [if_neg hone]
      obtain ⟨k, rng', hdraw, hpos, hkn⟩ := randomRange_ok { g with rng } (not_le.mp hone)
      obtain ⟨book, hreduce, -, hkeep⟩ := Keeps.reduce hk hfind hkn
      have hwrite : ∀ out,
          orderCancel out ⟨.ofNat (li + 1), g.tracking, .ofNat g.ts⟩ id (.ofNat k) =
          (callAt g li (.orderCancel id (.ofNat k))).write out := fun _ => rfl
      simp only [hdraw, ok_bind, hdr_ok hli]
      rw [write_call hwrite (by rw [toNat_ts hts]; exact hts), ok_bind]
      simp only [hreduce, ok_bind, ensure_ok, Generator.setLocate]
      rw [← hat.nextRef] at hkeep
      refine some_sends (record_sends hat hl hsent hts hclock hkeep (fun hQ => ?_)
        (.cancelled hfind hpos hkn) ?_ (uses_none rfl rfl))
      · exact bounded_take hk.shows.sound hfind (Nat.sub_le n k) (hb hQ (li + 1))
      · exact Nat.le_succ_of_le (hat.live_take_le hfind _)

theorem replace_returns (hC : ∀ rng p, g.pickLive li = .ok (none, { g with rng }) →
      adding { g with rng } li = .ok p → C p)
    (hC' : ∀ rng old p, g.pickLive li = .ok (some old, { g with rng }) →
      replacing { g with rng } li old = .ok p → C p) :
    Sent Q C g fl sent li (g.replace li) := by
  obtain ⟨hlt, hli⟩ := li_lt hat hl
  have hk := hat.keeps li l hl
  have hnext : g.nextRef + 1 < 2 ^ 64 := by
    have := hat.nextRef
    have := hat.nextRef_le
    omega
  obtain ⟨o, rng, hpick, hsome⟩ := pickLive_ok hl hk
  simp only [Generator.replace, hpick, ok_bind]
  cases o with
  | none =>
    exact Sent.of_rng (add_returns (hat.withRng rng) hl hsent hts hclock hb hfit
      (fun p => hC rng p hpick) false)
  | some old =>
    obtain ⟨s, oldPx, held, hfind⟩ := hk.find_of_live (hsome old rfl)
    refine (drawReplacement_returns (show { g with rng }.locs[li]? = some l from hl) hk
      (fun hQ => hb hQ (li + 1)) (Market.find_eq_some.mp hfind).1).with_eq.bind fun p hp => ?_
    obtain ⟨d, g'⟩ := p
    obtain ⟨heq, ⟨rng', rfl⟩, hdraft, hside⟩ := hp
    have hplace : replacing { g with rng } li old = .ok ⟨l, some old, g.crossingAllowed, d⟩ := by
      simp only [replacing, heq, ok_bind, index_ok hl, pure_eq_ok]
      rfl
    have hCp := hC' rng old _ hpick hplace
    have hgrid := hdraft.onGrid
    dsimp only at hdraft hgrid hside
    subst hside
    rw [← hat.nextRef] at hk
    obtain ⟨book, l', hreplace, hremove, hkeep⟩ :=
      Keeps.replace hk hfind (by omega) hdraft.qty_pos hgrid g.keepDead
    have hfresh := hk.fresh (by omega)
    have hwrite : ∀ out, orderReplace out ⟨.ofNat (li + 1), g.tracking, .ofNat g.ts⟩ old
        (.ofNat g.nextRef) (.ofNat d.qty) (.ofNat d.px.toNat) =
        (callAt g li (.orderReplace old (.ofNat g.nextRef) (.ofNat d.qty)
          (.ofNat d.px.toNat))).write out := fun _ => rfl
    simp only [takeRef_ok, hnext, ok_bind, hdr_ok hli, unsigned_ok (OnGrid.nonneg hk.tick hgrid)]
    rw [write_call hwrite (by rw [toNat_ts hts]; exact hts), ok_bind]
    simp only [index_ok hl, hreplace, ok_bind, ensure_ok, hremove, Generator.setLocate]
    refine some_sends (record_sends hat hl hsent hts hclock hkeep (fun hQ => ?_)
      (.replaced hCp rfl rfl hk.shows hdraft hfresh hfind) ?_ (uses_ref rfl rfl))
    · exact bounded_replace hk.shows rfl (hfit hQ _ hCp) hfind (hb hQ (li + 1))
    · have hgone : ((fl.market (li + 1)).take old d.side oldPx 0).home (.ofNat g.nextRef) =
          none := by
        rw [Market.home_take_zero, hfresh, ite_self]
      rw [Market.live_push hgone]
      exact Nat.succ_le_succ (hat.live_take_le hfind _)

theorem execute_returns (hC : ∀ rng first p, g.drawSide = .ok (first, { g with rng }) →
      Generator.headFor l first = none → adding { g with rng } li = .ok p → C p)
    (withPrice : Bool) : Sent Q C g fl sent li (g.execute li withPrice) := by
  have hk := hat.keeps li l hl
  obtain ⟨first, rng, hside⟩ := drawSide_ok g
  simp only [Generator.execute, hside, ok_bind, index_ok hl]
  cases hhead : Generator.headFor l first with
  | none =>
    exact Sent.of_rng (add_returns (hat.withRng rng) hl hsent hts hclock hb hfit
      (fun p => hC rng first p hside hhead) false)
  | some e =>
    obtain ⟨id, n⟩ := e
    obtain ⟨s, hbest⟩ := headOfBest_of_headFor hhead
    obtain ⟨px, rest, hlevel, hfind⟩ := hk.shows.headOfBest_eq_some hbest
    obtain ⟨k, rng', hdraw, hpos, hkn⟩ := randomRange_ok { g with rng } (show 1 < n + 1 by
      have := hk.shows.sound.held_pos hfind
      omega)
    simp only [hdraw, ok_bind]
    have hsends := executeKnown_sends (C := C) (hat.withRng rng') hl hsent hts hclock hb hlevel
      hfind hpos (Nat.lt_succ_iff.mp hkn) withPrice
    have hone : Sent Q C { g with rng := rng' } fl sent li
        (Generator.executeKnown { g with rng := rng' } li id k withPrice) :=
      hsends.mono fun g' h => ⟨h.choose, _, h.choose_spec⟩
    exact Sent.of_rng hone

end Steps

/-- One message for an order. -/
theorem orderKind_returns {Q : Prop} {C : Placement → Prop} {g : Generator} {fl : Floor}
    {sent li : ℕ} {l : Locate} (hat : At g fl sent) (hl : g.locs[li]? = some l)
    (hsent : sent + 1 < 2 ^ 32) (hts : g.ts < 2 ^ 48) (hclock : fl.clock ≤ g.ts)
    (hb : Q → ∀ j, Bounded (fl.market j)) (kind : Kind) {x : Generator → Exec Generator}
    (hx : ∀ rng, g.drawUnknown li = .ok (none, { g with rng }) →
      Sent Q C { g with rng } fl sent li (x { g with rng })) :
    Sent Q C g fl sent li (do
      let (hit, g) ← g.maybeUnknown li kind
      if hit then return g
      x g) := by
  obtain ⟨o, rng, hdraw, hgone⟩ := drawUnknown_ok hl (hat.keeps li l hl) hat.unknown
  simp only [Generator.maybeUnknown, hdraw, ok_bind]
  cases o with
  | none => exact Sent.of_rng (hx rng hdraw)
  | some t =>
    have hmissed := unknown_returns (C := C) (hat.withRng rng) hl hsent hts hclock hb
      (hgone t rfl).1 kind t.2
    simp only [bind_assoc, pure_bind, if_true, bind_pure]
    exact Sent.of_rng hmissed

section Step

variable {Q : Prop} {C : Placement → Prop} {g : Generator} {fl : Floor} {sent : ℕ}
  (hat : At g fl sent) (hsent : sent + 1 < 2 ^ 32) (hts : g.ts < 2 ^ 48)
  (hclock : fl.clock ≤ g.ts) (hb : Q → ∀ j, Bounded (fl.market j))
  (hfit : Q → ∀ p, C p → p.Fits) (hC : ∀ p, placing g = .ok (some p) → C p)

include hat hsent hts hclock hb hfit hC

/-- A step writes one message. -/
theorem step_returns : Returns Q (fun g' => ∃ li c m, Sends Q C g fl sent li c m g') g.step := by
  obtain ⟨li, rng, hrange, -, hlt⟩ := randomRange_ok g hat.few.1
  obtain ⟨kind, rng', hkind⟩ := drawKind_eq { g with rng }
  obtain ⟨l, hl⟩ : ∃ l, g.locs[li]? = some l := ⟨_, List.getElem?_eq_getElem hlt⟩
  have hat' := hat.withRng rng'
  simp only [placing, hrange, ok_bind, hkind] at hC
  simp only [Generator.step, hrange, ok_bind, hkind]
  have hsent' : ∀ {x : Exec Generator}, Sent Q C { g with rng := rng' } fl sent li x →
      Returns Q (fun g' => ∃ li c m, Sends Q C g fl sent li c m g') x := fun h =>
    (Sent.of_rng h).mono fun g' h' => ⟨li, h'⟩
  refine hsent' ?_
  cases kind with
  | a =>
    refine add_returns hat' hl hsent hts hclock hb hfit (fun p hp => hC p ?_) false
    simp only [hp, ok_bind, pure_eq_ok]
  | f =>
    refine add_returns hat' hl hsent hts hclock hb hfit (fun p hp => hC p ?_) true
    simp only [hp, ok_bind, pure_eq_ok]
  | p => exact trade_returns hat' hl hsent hts hclock hb
  | l => exact mpid_returns hat' hl hsent hts hclock hb
  | d =>
    refine orderKind_returns hat' hl hsent hts hclock hb .d (x := fun g => g.delete li)
      fun rng hnone => ?_
    refine delete_returns (hat'.withRng rng) hl hsent hts hclock hb hfit fun rng' p hpick hp =>
      hC p ?_
    simp [hnone, hpick, hp]
  | x =>
    refine orderKind_returns hat' hl hsent hts hclock hb .x (x := fun g => g.cancel li)
      fun rng hnone => ?_
    refine cancel_returns (hat'.withRng rng) hl hsent hts hclock hb hfit fun rng' p hpick hp =>
      hC p ?_
    simp [hnone, hpick, hp]
  | u =>
    refine orderKind_returns hat' hl hsent hts hclock hb .u (x := fun g => g.replace li)
      fun rng hnone => ?_
    refine replace_returns (hat'.withRng rng) hl hsent hts hclock hb hfit
      (fun rng' p hpick hp => hC p ?_) fun rng' old p hpick hp => hC p ?_
    · simp [hnone, hpick, hp]
    · simp [hnone, hpick, hp]
  | e =>
    refine orderKind_returns hat' hl hsent hts hclock hb .e (x := fun g => g.execute li false)
      fun rng hnone => ?_
    refine execute_returns (hat'.withRng rng) hl hsent hts hclock hb hfit
      (fun rng' first p hside hhead hp => hC p ?_) _
    simp [hnone, hside, index_ok hl, hhead, hp]
  | c =>
    refine orderKind_returns hat' hl hsent hts hclock hb .c (x := fun g => g.execute li true)
      fun rng hnone => ?_
    refine execute_returns (hat'.withRng rng) hl hsent hts hclock hb hfit
      (fun rng' first p hside hhead hp => hC p ?_) _
    simp [hnone, hside, index_ok hl, hhead, hp]

end Step

end Lobcore.GeneratorSteps
