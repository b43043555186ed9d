import Lobcore.GeneratorPaths
import Mathlib.Algebra.Order.BigOperators.Group.List

/-!
The rounds of the opening, on books of any kind. A round executes as many shares of the best bid's
head as of the best ask's, so that one of the two orders leaves its book; a locate with `n` live
orders is done after at most `n` rounds. The budget can end a round in its middle.
-/
namespace Lobcore.OpeningRounds

open Checked OrderTypes SortedMaps Markets Payloads TruthBooks Writers RoundTrips Generators
open GeneratorDraws GeneratorDraws.Generator GeneratorBooks DayEvents GeneratorSteps GeneratorRuns
open LiveReferences GeneratorMessages GeneratorPaths

/-! One execution. -/

/-- An execution of `k` shares on a side of the locate `li`: it hits the order that is the head of
the best level at that moment, and takes no more than the order has. -/
structure Fills (li : ℕ) (s : Side) (k : ℕ) (mo : Moment) : Prop where
  li_lt : li + 1 < 2 ^ 16
  pos : 0 < k
  lt : k < 2 ^ 32
  hit : ∃ l id n px, mo.before.locs[li]? = some l ∧ l.book.headOfBest s = some (id, n) ∧
    l.book.lookup id = some (s, px) ∧ k ≤ n ∧
    mo.call = callAt mo.before li (.orderExecuted id (.ofNat k) (.ofNat mo.before.nextMatch))

/-- The shares that a moment executes on a side of a locate. -/
def filled (li : ℕ) (s : Side) (mo : Moment) : ℕ :=
  match mo.call.body with
  | .orderExecuted id k _ =>
    if mo.call.header.locate.toNat = li + 1 ∧
        ((mo.before.locs[li]?.bind fun l => l.book.lookup id).map Prod.fst) = some s then k.toNat
    else 0
  | _ => 0

/-- The shares executed on a side of a locate. -/
def shares (li : ℕ) (s : Side) (path : List Moment) : ℕ := (path.map (filled li s)).sum

theorem Fills.filled_eq {li : ℕ} {s : Side} {k : ℕ} {mo : Moment} (h : Fills li s k mo)
    (s' : Side) :
    filled li s' mo = if s' = s then k else 0 := by
  obtain ⟨hli, -, hlt, l, id, n, px, hl, -, hhome, -, hcall⟩ := h
  have hlocate : (UInt16.ofNat (li + 1)).toNat = li + 1 := UInt16.toNat_ofNat_of_lt' hli
  have hk : (UInt32.ofNat k).toNat = k := UInt32.toNat_ofNat_of_lt' hlt
  simp only [filled, hcall, callAt, hl, Option.bind_some, hhome, Option.map_some, hlocate, hk,
    true_and, Option.some.injEq]
  by_cases hs : s' = s
  · rw [if_pos hs.symm, if_pos hs]
  · rw [if_neg (Ne.symm hs), if_neg hs]

theorem Fills.filled_other {li lj : ℕ} {s : Side} {k : ℕ} {mo : Moment} (h : Fills li s k mo)
    (hne : lj ≠ li) (s' : Side) : filled lj s' mo = 0 := by
  obtain ⟨hli, -, -, l, id, n, px, -, -, -, -, hcall⟩ := h
  have hlocate : (UInt16.ofNat (li + 1)).toNat = li + 1 := UInt16.toNat_ofNat_of_lt' hli
  simp only [filled, hcall, callAt, hlocate]
  exact if_neg fun hboth => hne (by omega)

/-- Half a round: what an execution leaves of its locate. -/
structure Halved (g : Generator) (li : ℕ) (l : Locate) (s : Side) (id : OrderId) (n k : ℕ)
    (mo : Moment) (l' : Locate) : Prop where
  before : mo.before = g
  plain : Plain mo.before mo.after
  fills : Fills li s k mo
  locs : mo.after.locs = g.locs.set li l'
  tracks : Tracks l'
  book : ∃ px, (shown l.book).find id = some (s, px, n) ∧
    shown l'.book = (shown l.book).take id s px (n - k)

section Halves

variable {g : Generator} {li : ℕ} {l l' : Locate} {s : Side} {id : OrderId} {n k : ℕ} {mo : Moment}

theorem half_returns {Q : Prop} (hl : g.locs[li]? = some l) (ht : Tracks l) (hts : g.ts < 2 ^ 48)
    (hhead : l.book.headOfBest s = some (id, n)) (hpos : 0 < k) (hle : k ≤ n) (hlt : k < 2 ^ 32)
    (hli : Q → li + 1 < 2 ^ 16) (hnext : Q → g.nextMatch + 1 < 2 ^ 64)
    (hcount : Q → g.truth.isSome → Countable l.book) :
    Returns Q (fun g' => ∃ mo l', Halved g li l s id n k mo l' ∧ mo.after = g')
      (g.executeKnown li id k false) := by
  refine (executeKnown_emits hl ht hts hhead hle false hli hnext (fun _ => rfl) hcount).with_eq.mono
    fun g' h => ?_
  obtain ⟨hrun, body, hemits, rfl, l', px, hlocs, htracks, hfind, hshown⟩ := h
  have hhome : l.book.lookup id = some (s, px) := (Market.find_eq_some.mp hfind).1
  have hplain : Plain g g' := .uncross hl hhead hpos hle hrun
  exact ⟨⟨g, _, g', .plain hplain, hemits.writes⟩, l', ⟨rfl, hplain, ⟨hemits.li_lt, hpos, hlt, l,
    id, n, px, hl, hhead, hhome, hle, rfl⟩, hlocs, htracks, px, hfind, hshown⟩, rfl⟩

theorem live_pos {px : ℤ} (ht : Tracks l) (hfind : (shown l.book).find id = some (s, px, n)) :
    0 < l.book.liveOrders := by
  have hmem : id ∈ {j | ((shown l.book).home j).isSome} := by
    simp [(Market.find_eq_some.mp hfind).1]
  rw [ht.shows.liveOrders_eq]
  exact (Set.ncard_pos).mpr ⟨id, hmem⟩

variable (h : Halved g li l s id n k mo l')

include h

theorem Halved.live (ht : Tracks l) (hle : k ≤ n) : 0 < l.book.liveOrders ∧
    l'.book.liveOrders + (if k = n then 1 else 0) = l.book.liveOrders := by
  obtain ⟨px, hfind, hshown⟩ := h.book
  have hpos := live_pos ht hfind
  refine ⟨hpos, ?_⟩
  rw [ht.shows.liveOrders_eq] at hpos ⊢
  rw [h.tracks.shows.liveOrders_eq, hshown, Market.live_take hfind]
  by_cases hk : k = n
  · rw [if_pos (by omega), if_pos hk]
    omega
  · rw [if_neg (by omega), if_neg hk, Nat.add_zero]

theorem Halved.bounded (ht : Tracks l) (hbounded : Bounded (shown l.book)) :
    Bounded (shown l'.book) := by
  obtain ⟨px, hfind, hshown⟩ := h.book
  rw [hshown]
  exact bounded_take ht.shows.sound hfind (Nat.sub_le n k) hbounded

/-- The other side keeps its levels. -/
theorem Halved.other (ht : Tracks l) :
    l'.book.bestLevel s.opposite = l.book.bestLevel s.opposite := by
  obtain ⟨px, hfind, hshown⟩ := h.book
  have hqueue : (shown l'.book).queue s.opposite = (shown l.book).queue s.opposite := by
    rw [hshown]
    funext px'
    cases s <;> simp [Market.take, Market.setQueue, Side.opposite]
  rw [h.tracks.shows.bestLevel_eq, ht.shows.bestLevel_eq, Market.levels_congr hqueue]

theorem Halved.get (hl : g.locs[li]? = some l) : mo.after.locs[li]? = some l' := by
  rw [h.locs]
  exact List.getElem?_set_self (List.getElem?_eq_some_iff.mp hl).1

theorem Halved.nextMatch : mo.after.nextMatch = g.nextMatch + 1 := by
  obtain ⟨-, -, -, l, id, n, px, -, -, -, -, hcall⟩ := h.fills
  have heq := mo.writes.takes.nextMatch_eq
  rw [hcall, h.before] at heq
  exact heq

theorem Halved.ts : mo.after.ts = g.ts := by rw [mo.writes.clock, h.before]

theorem Halved.truth : mo.after.truth.isSome = g.truth.isSome := by
  obtain ⟨row, -, -, htruth⟩ := mo.writes.truth
  rw [htruth, Option.isSome_map, h.before]

end Halves

/-! The rounds on a locate. -/

/-- A side is empty, or the best bid is below the best ask. -/
def Settled (l : Locate) : Prop :=
  ∀ b ∈ l.book.bestLevel .bid, ∀ a ∈ l.book.bestLevel .ask, b.1 < a.1

theorem settled_of_best {l : Locate} (ht : Tracks l)
    (h : ∀ b ∈ best (shown l.book) .bid, ∀ a ∈ best (shown l.book) .ask, b.1 < a.1) :
      Settled l := by
  intro b hb a ha
  rw [ht.shows.bestLevel_eq] at hb ha
  exact h (b.1, total b.2) (Option.mem_map_of_mem _ hb) (a.1, total a.2)
    (Option.mem_map_of_mem _ ha)

/-- What the rounds on a locate leave, of `n` messages and a budget. -/
structure Uncrosses (g : Generator) (li : ℕ) (l : Locate) (budget n : ℕ) (spent : Bool) (n' : ℕ)
    (g' : Generator) (path : List Moment) (l' : Locate) : Prop where
  passes : Passage g path g'
  count : n' = n + path.length
  within : n ≤ budget → n' ≤ budget
  plain : ∀ mo ∈ path, Plain mo.before mo.after
  fills : ∀ mo ∈ path, ∃ s k, Fills li s k mo
  time : ∀ mo ∈ path, mo.time = g.ts
  ts : g'.ts = g.ts
  nextMatch : g'.nextMatch = g.nextMatch + path.length
  locs : g'.locs = g.locs.set li l'
  tracks : Tracks l'
  bounded : Bounded (shown l.book) → Bounded (shown l'.book)
  fewer : l'.book.liveOrders ≤ l.book.liveOrders
  short : path.length ≤ 2 * l.book.liveOrders
  full : spent = true → n ≤ budget → n' = budget
  settled : spent = false → Settled l' ∧ shares li .bid path = shares li .ask path

section Rounds

variable {budget li : ℕ}

theorem Uncrosses.refl {g : Generator} {l : Locate} {n : ℕ} {spent : Bool}
    (hl : g.locs[li]? = some l) (ht : Tracks l) (hspent : spent = true → budget ≤ n)
    (hsettled : spent = false → Settled l) : Uncrosses g li l budget n spent n g [] l where
  passes := Passage.refl g
  count := rfl
  within hn := hn
  plain mo hmo := by cases hmo
  fills mo hmo := by cases hmo
  time mo hmo := by cases hmo
  ts := rfl
  nextMatch := rfl
  locs := by
    obtain ⟨hlt, rfl⟩ := List.getElem?_eq_some_iff.mp hl
    exact (List.set_getElem_self hlt).symm
  tracks := ht
  bounded := id
  fewer := le_refl _
  short := Nat.zero_le _
  full h hn := le_antisymm hn (hspent h)
  settled h := ⟨hsettled h, rfl⟩

/-- A round that the budget ends in its middle. -/
theorem uncrosses_half {g : Generator} {l l' : Locate} {s : Side} {id : OrderId} {n k m : ℕ}
    {mo : Moment} (ht : Tracks l) (h : Halved g li l s id n k mo l') (hle : k ≤ n)
    (hm : m < budget) (hfull : budget ≤ m + 1) :
    Uncrosses g li l budget m true (m + 1) mo.after [mo] l' where
  passes := Passage.single mo h.before
  count := rfl
  within _ := hm
  plain mo' hmo' := by
    obtain rfl := List.mem_singleton.mp hmo'
    exact h.plain
  fills mo' hmo' := by
    obtain rfl := List.mem_singleton.mp hmo'
    exact ⟨s, k, h.fills⟩
  time mo' hmo' := by
    obtain rfl := List.mem_singleton.mp hmo'
    rw [Moment.time, h.before]
  ts := h.ts
  nextMatch := h.nextMatch
  locs := h.locs
  tracks := h.tracks
  bounded := h.bounded ht
  fewer := by
    have hlive := (h.live ht hle).2
    omega
  short := by
    have hlive := (h.live ht hle).1
    simp only [List.length_singleton]
    omega
  full _ _ := by omega
  settled hfalse := by cases hfalse

/-- The smaller of the two heads leaves its book. -/
theorem round_live {g : Generator} {l l₁ l₂ : Locate} {hb ha : OrderId} {qb qa : ℕ}
    {mo₁ mo₂ : Moment} (ht : Tracks l) (h₁ : Halved g li l .bid hb qb (min qb qa) mo₁ l₁)
    (h₂ : Halved mo₁.after li l₁ .ask ha qa (min qb qa) mo₂ l₂) :
    l₂.book.liveOrders + 1 ≤ l.book.liveOrders := by
  obtain ⟨-, hlive₁⟩ := h₁.live ht (min_le_left qb qa)
  obtain ⟨-, hlive₂⟩ := h₂.live h₁.tracks (min_le_right qb qa)
  rcases min_choice qb qa with heq | heq
  · rw [if_pos heq] at hlive₁
    omega
  · rw [if_pos heq] at hlive₂
    omega

/-- A whole round, and what follows it. -/
theorem uncrosses_round {g g' : Generator} {l l₁ l₂ l' : Locate} {hb ha : OrderId}
    {qb qa m n' : ℕ} {spent : Bool} {mo₁ mo₂ : Moment} {path : List Moment} (ht : Tracks l)
    (h₁ : Halved g li l .bid hb qb (min qb qa) mo₁ l₁)
    (h₂ : Halved mo₁.after li l₁ .ask ha qa (min qb qa) mo₂ l₂) (hm : m + 1 < budget)
    (h : Uncrosses mo₂.after li l₂ budget (m + 2) spent n' g' path l') :
    Uncrosses g li l budget m spent n' g' (mo₁ :: mo₂ :: path) l' where
  passes := (Passage.single mo₁ h₁.before).append ((Passage.single mo₂ h₂.before).append h.passes)
  count := by
    rw [h.count, List.length_cons, List.length_cons]
    omega
  within _ := h.within hm
  plain mo hmo := by
    rcases List.mem_cons.mp hmo with rfl | hmo
    · exact h₁.plain
    · rcases List.mem_cons.mp hmo with rfl | hmo
      · exact h₂.plain
      · exact h.plain mo hmo
  fills mo hmo := by
    rcases List.mem_cons.mp hmo with rfl | hmo
    · exact ⟨_, _, h₁.fills⟩
    · rcases List.mem_cons.mp hmo with rfl | hmo
      · exact ⟨_, _, h₂.fills⟩
      · exact h.fills mo hmo
  time mo hmo := by
    rcases List.mem_cons.mp hmo with rfl | hmo
    · rw [Moment.time, h₁.before]
    · rcases List.mem_cons.mp hmo with rfl | hmo
      · rw [Moment.time, h₂.before, h₁.ts]
      · rw [h.time mo hmo, h₂.ts, h₁.ts]
  ts := by rw [h.ts, h₂.ts, h₁.ts]
  nextMatch := by
    rw [h.nextMatch, h₂.nextMatch, h₁.nextMatch, List.length_cons, List.length_cons]
    omega
  locs := by rw [h.locs, h₂.locs, h₁.locs, List.set_set, List.set_set]
  tracks := h.tracks
  bounded hbounded := h.bounded (h₂.bounded h₁.tracks (h₁.bounded ht hbounded))
  fewer := by
    have hgone := round_live ht h₁ h₂
    have hfewer := h.fewer
    omega
  short := by
    have hgone := round_live ht h₁ h₂
    have hshort := h.short
    rw [List.length_cons, List.length_cons]
    omega
  full hspent _ := h.full hspent hm
  settled hsettled := by
    obtain ⟨hdone, hequal⟩ := h.settled hsettled
    refine ⟨hdone, ?_⟩
    simp only [shares, List.map_cons, List.sum_cons, h₁.fills.filled_eq, h₂.fills.filled_eq,
      reduceCtorEq, if_true, if_false] at hequal ⊢
    omega

theorem uncross_rounds {Q : Prop} (fuel : ℕ) : ∀ {n : ℕ} {g : Generator} {l : Locate},
    g.locs[li]? = some l → Tracks l → g.ts < 2 ^ 48 → (Q → n ≤ budget) → (Q → budget < n + fuel) →
    (Q → li + 1 < 2 ^ 16) → (Q → Bounded (shown l.book)) →
    (Q → g.truth.isSome → l.book.liveOrders < 2 ^ 32) →
    (Q → g.nextMatch + 2 * l.book.liveOrders < 2 ^ 64) →
    Returns Q (fun out => ∃ path l', Uncrosses g li l budget n out.1 out.2.1 out.2.2 path l')
      (Generator.uncross li budget fuel n g) := by
  induction fuel with
  | zero =>
    intro n g l _ _ _ hn hfuel _ _ _ _
    refine Or.inr ⟨fun hQ => ?_, .unfinished, rfl⟩
    have := hn hQ
    have := hfuel hQ
    omega
  | succ fuel ih =>
    intro n g l hl ht hts hn hfuel hli hbounded hlive hnext
    simp only [Generator.uncross, index_ok hl, ok_bind]
    refine (ht.shows.quote_returns hbounded .bid).bind fun bestBid hbid => ?_
    refine (ht.shows.quote_returns hbounded .ask).bind fun bestAsk hask => ?_
    obtain ⟨hbid, hcount⟩ := hbid
    obtain ⟨hask, -⟩ := hask
    have hdone : (∀ b ∈ bestBid, ∀ a ∈ bestAsk, b.1 < a.1) → Returns Q (fun out => ∃ path l',
        Uncrosses g li l budget n out.1 out.2.1 out.2.2 path l') (.ok (false, n, g)) := by
      intro hlt
      subst hbid hask
      exact Returns.of_ok ⟨[], l, Uncrosses.refl hl ht (fun h => by cases h)
        fun _ => settled_of_best ht hlt⟩
    cases bestBid with
    | none => exact hdone fun b hb => by cases hb
    | some eb =>
      cases bestAsk with
      | none => exact hdone fun b _ a ha => by cases ha
      | some ea =>
        obtain ⟨bb, nb⟩ := eb
        obtain ⟨ba, na⟩ := ea
        by_cases hlt : bb < ba
        · simp only [if_pos hlt]
          refine hdone fun b hb a ha => ?_
          obtain rfl := Option.some.inj hb
          obtain rfl := Option.some.inj ha
          exact hlt
        · obtain ⟨hb, qb, hheadb⟩ := head_of_best ht.shows hbid.symm
          obtain ⟨ha, qa, hheada⟩ := head_of_best ht.shows hask.symm
          obtain ⟨pb, restb, hlevelb, hfindb⟩ := ht.shows.headOfBest_eq_some hheadb
          obtain ⟨pa, resta, hlevela, hfinda⟩ := ht.shows.headOfBest_eq_some hheada
          have hqb := ht.shows.sound.held_pos hfindb
          have hqa := ht.shows.sound.held_pos hfinda
          have hfew : qb < 2 ^ 32 := by
            have hbest : best (shown l.book) .bid = some (pb, total ((hb, qb) :: restb)) := by
              rw [best, hlevelb]
              rfl
            have hle := hcount (bb, nb) rfl
            obtain rfl : nb = total ((hb, qb) :: restb) :=
              congrArg Prod.snd (Option.some.inj (hbid.trans hbest))
            rw [total_cons] at hle
            omega
          have hsum : Q → g.truth.isSome → Countable l.book := fun hQ htruth =>
            ⟨hbounded hQ, hlive hQ htruth⟩
          simp only [if_neg hlt, hheadb, hheada, expect_some, ok_bind]
          by_cases hfull : budget ≤ n
          · rw [if_pos hfull]
            exact Returns.of_ok ⟨[], l, Uncrosses.refl hl ht (fun _ => hfull) fun h => by cases h⟩
          · rw [if_neg hfull]
            have hpos := lt_min hqb hqa
            have hmin : min qb qa < 2 ^ 32 := (min_le_left qb qa).trans_lt hfew
            refine (half_returns (Q := Q) hl ht hts hheadb hpos (min_le_left qb qa) hmin hli
              (fun hQ => ?_) hsum).bind fun g₁ h₁ => ?_
            · have hpos := live_pos ht hfindb
              have hroom := hnext hQ
              omega
            · obtain ⟨mo₁, l₁, h₁, rfl⟩ := h₁
              by_cases hfull₁ : budget ≤ n + 1
              · rw [if_pos hfull₁]
                exact Returns.of_ok ⟨[mo₁], l₁, uncrosses_half ht h₁ (min_le_left qb qa)
                  (not_le.mp hfull) hfull₁⟩
              · rw [if_neg hfull₁]
                obtain ⟨hone, hlive₁⟩ := h₁.live ht (min_le_left qb qa)
                have hnext₁ := h₁.nextMatch
                have hhead₁ : l₁.book.headOfBest .ask = some (ha, qa) := by
                  have hother : l₁.book.bestLevel .ask = l.book.bestLevel .ask := h₁.other ht
                  rw [TruthBook.headOfBest, hother]
                  exact hheada
                have hsum₁ : Q → mo₁.after.truth.isSome → Countable l₁.book := by
                  intro hQ htruth
                  have hlt := hlive hQ (h₁.truth ▸ htruth)
                  exact ⟨h₁.bounded ht (hbounded hQ), by omega⟩
                refine (half_returns (Q := Q) (h₁.get hl) h₁.tracks
                  (by rw [h₁.ts]; exact hts) hhead₁
                  hpos (min_le_right qb qa) hmin hli (fun hQ => ?_) hsum₁).bind fun g₂ h₂ => ?_
                · have hroom := hnext hQ
                  omega
                · obtain ⟨mo₂, l₂, h₂, rfl⟩ := h₂
                  have hgone := round_live ht h₁ h₂
                  have hnext₂ := h₂.nextMatch
                  refine (ih (h₂.get (h₁.get hl)) h₂.tracks (by rw [h₂.ts, h₁.ts]; exact hts)
                    (fun _ => not_le.mp hfull₁) (fun hQ => ?_) hli
                    (fun hQ => h₂.bounded h₁.tracks (h₁.bounded ht (hbounded hQ)))
                    (fun hQ htruth => ?_) fun hQ => ?_).mono fun out h => ?_
                  · have hroom := hfuel hQ
                    omega
                  · have hlt := hlive hQ (h₁.truth ▸ h₂.truth ▸ htruth)
                    omega
                  · have hroom := hnext hQ
                    omega
                  · obtain ⟨path, l', h⟩ := h
                    exact ⟨_, l', uncrosses_round ht h₁ h₂ (not_le.mp hfull₁) h⟩

end Rounds

/-! The rounds on all locates. -/

/-- The live orders of a locate. -/
def ordersAt (g : Generator) (li : ℕ) : ℕ := (g.locs[li]?.map fun l => l.book.liveOrders).getD 0

/-- What the rounds on the locates of a list leave. -/
structure Works (g : Generator) (lis : List ℕ) (budget n n' : ℕ) (g' : Generator)
    (path : List Moment) : Prop where
  passes : Passage g path g'
  count : n' = n + path.length
  within : n' ≤ budget
  plain : ∀ mo ∈ path, Plain mo.before mo.after
  fills : ∀ mo ∈ path, ∃ li ∈ lis, ∃ s k, Fills li s k mo
  time : ∀ mo ∈ path, mo.time = g.ts
  ts : g'.ts = g.ts
  nextMatch : g'.nextMatch = g.nextMatch + path.length
  tracks : ∀ l ∈ g'.locs, Tracks l
  others : ∀ j, j ∉ lis → g'.locs[j]? = g.locs[j]?
  short : path.length ≤ 2 * (lis.map (ordersAt g)).sum
  settled : n' < budget → ∀ li ∈ lis, (∀ l, g'.locs[li]? = some l → Settled l) ∧
    shares li .bid path = shares li .ask path

/-- What the rounds ask so that no call aborts. -/
structure Roomy (g : Generator) (lis : List ℕ) : Prop where
  few : g.locs.length < 2 ^ 16
  bounded : ∀ l ∈ g.locs, Bounded (shown l.book)
  live_lt : g.truth.isSome → ∀ l ∈ g.locs, l.book.liveOrders < 2 ^ 32
  nextMatch : g.nextMatch + 2 * (lis.map (ordersAt g)).sum < 2 ^ 64

section All

variable {budget : ℕ}

theorem shares_other {lis : List ℕ} {li : ℕ} {path : List Moment}
    (h : ∀ mo ∈ path, ∃ lj ∈ lis, ∃ s k, Fills lj s k mo) (hli : li ∉ lis) (s : Side) :
    shares li s path = 0 := by
  refine List.sum_eq_zero fun n hn => ?_
  obtain ⟨mo, hmo, rfl⟩ := List.mem_map.mp hn
  obtain ⟨lj, hlj, s', k, hfills⟩ := h mo hmo
  have hne : li ≠ lj := by
    intro heq
    exact hli (heq.symm ▸ hlj)
  exact hfills.filled_other hne s

theorem shares_append (li : ℕ) (s : Side) (path path' : List Moment) :
    shares li s (path ++ path') = shares li s path + shares li s path' := by
  rw [shares, List.map_append, List.sum_append]
  rfl

/-- The rounds on one locate, as far as the budget goes. -/
theorem works_spent {g g' : Generator} {li n n' : ℕ} {l l' : Locate} {lis : List ℕ}
    {path : List Moment} (htracks : ∀ l ∈ g.locs, Tracks l) (hl : g.locs[li]? = some l)
    (hn : n ≤ budget) (h : Uncrosses g li l budget n true n' g' path l') :
    Works g (li :: lis) budget n n' g' path where
  passes := h.passes
  count := h.count
  within := h.within hn
  plain := h.plain
  fills mo hmo := by
    obtain ⟨s, k, hfills⟩ := h.fills mo hmo
    exact ⟨li, List.mem_cons_self .., s, k, hfills⟩
  time := h.time
  ts := h.ts
  nextMatch := h.nextMatch
  tracks k hk := by
    rw [h.locs] at hk
    rcases List.mem_or_eq_of_mem_set hk with hk | rfl
    · exact htracks k hk
    · exact h.tracks
  others j hj := by
    have hne : li ≠ j := by
      intro heq
      exact hj (heq ▸ List.mem_cons_self ..)
    rw [h.locs, List.getElem?_set_ne hne]
  short := by
    have horders : ordersAt g li = l.book.liveOrders := by rw [ordersAt, hl]; rfl
    have hshort := h.short
    rw [List.map_cons, List.sum_cons, horders]
    omega
  settled hlt := by
    have hfull := h.full rfl hn
    omega

/-- The rounds on one locate leave the others as they were. -/
theorem orders_others {g g' : Generator} {li n n' : ℕ} {l l' : Locate} {lis : List ℕ}
    {spent : Bool} {path : List Moment} (hout : li ∉ lis)
    (h : Uncrosses g li l budget n spent n' g' path l') :
    lis.map (ordersAt g') = lis.map (ordersAt g) := by
  refine List.map_congr_left fun lj hlj => ?_
  have hne : li ≠ lj := by
    intro heq
    exact hout (heq.symm ▸ hlj)
  rw [ordersAt, ordersAt, h.locs, List.getElem?_set_ne hne]

/-- Room for the locates that follow. -/
theorem roomy_rest {g g' : Generator} {li n n' : ℕ} {l l' : Locate} {lis : List ℕ} {spent : Bool}
    {path : List Moment} (hl : g.locs[li]? = some l) (hout : li ∉ lis)
    (h : Uncrosses g li l budget n spent n' g' path l') (hroomy : Roomy g (li :: lis)) :
    Roomy g' lis := by
  have hmem := List.mem_of_getElem? hl
  have horders : ordersAt g li = l.book.liveOrders := by rw [ordersAt, hl]; rfl
  obtain ⟨rows, htruth, -⟩ := h.passes.truth
  refine ⟨by rw [h.passes.length]; exact hroomy.few, fun k hk => ?_, fun hsome k hk => ?_, ?_⟩
  · rw [h.locs] at hk
    rcases List.mem_or_eq_of_mem_set hk with hk | rfl
    · exact hroomy.bounded k hk
    · exact h.bounded (hroomy.bounded l hmem)
  · rw [htruth, Option.isSome_map] at hsome
    rw [h.locs] at hk
    rcases List.mem_or_eq_of_mem_set hk with hk | rfl
    · exact hroomy.live_lt hsome k hk
    · exact h.fewer.trans_lt (hroomy.live_lt hsome l hmem)
  · have hroom := hroomy.nextMatch
    have hnext := h.nextMatch
    have hshort := h.short
    rw [List.map_cons, List.sum_cons, horders] at hroom
    rw [orders_others hout h]
    omega

/-- The rounds on one locate, and then on the others. -/
theorem works_cons {g g' g'' : Generator} {li n n' n'' : ℕ} {l l' : Locate} {lis : List ℕ}
    {path path' : List Moment} (hl : g.locs[li]? = some l) (hout : li ∉ lis)
    (h : Uncrosses g li l budget n false n' g' path l')
    (h' : Works g' lis budget n' n'' g'' path') :
    Works g (li :: lis) budget n n'' g'' (path ++ path') where
  passes := h.passes.append h'.passes
  count := by rw [h'.count, h.count, List.length_append, Nat.add_assoc]
  within := h'.within
  plain mo hmo := by
    rcases List.mem_append.mp hmo with hmo | hmo
    · exact h.plain mo hmo
    · exact h'.plain mo hmo
  fills mo hmo := by
    rcases List.mem_append.mp hmo with hmo | hmo
    · obtain ⟨s, k, hfills⟩ := h.fills mo hmo
      exact ⟨li, List.mem_cons_self .., s, k, hfills⟩
    · obtain ⟨lj, hlj, hfills⟩ := h'.fills mo hmo
      exact ⟨lj, List.mem_cons_of_mem _ hlj, hfills⟩
  time mo hmo := by
    rcases List.mem_append.mp hmo with hmo | hmo
    · exact h.time mo hmo
    · rw [h'.time mo hmo, h.ts]
  ts := by rw [h'.ts, h.ts]
  nextMatch := by rw [h'.nextMatch, h.nextMatch, List.length_append, Nat.add_assoc]
  tracks := h'.tracks
  others j hj := by
    obtain ⟨hne, hj⟩ := not_or.mp fun hmem => hj (List.mem_cons.mpr hmem)
    rw [h'.others j hj, h.locs, List.getElem?_set_ne (Ne.symm hne)]
  short := by
    have horders : ordersAt g li = l.book.liveOrders := by rw [ordersAt, hl]; rfl
    have hshort := h.short
    have hshort' := h'.short
    rw [orders_others hout h] at hshort'
    rw [List.map_cons, List.sum_cons, horders, List.length_append]
    omega
  settled hlt lj hlj := by
    have hfills' : ∀ mo ∈ path, ∃ lk ∈ [li], ∃ s k, Fills lk s k mo := fun mo hmo =>
      ⟨li, List.mem_cons_self .., h.fills mo hmo⟩
    rw [shares_append, shares_append]
    rcases List.mem_cons.mp hlj with rfl | hlj
    · obtain ⟨hdone, hequal⟩ := h.settled rfl
      refine ⟨fun k hk => ?_, ?_⟩
      · have hget : g'.locs[lj]? = some l' := by
          rw [h.locs]
          exact List.getElem?_set_self (List.getElem?_eq_some_iff.mp hl).1
        rw [h'.others lj hout, hget] at hk
        exact Option.some.inj hk ▸ hdone
      · rw [hequal, shares_other h'.fills hout .bid, shares_other h'.fills hout .ask]
    · have hne : lj ∉ [li] := fun hmem => hout (List.mem_singleton.mp hmem ▸ hlj)
      obtain ⟨hdone, hequal⟩ := h'.settled hlt lj hlj
      exact ⟨hdone, by rw [hequal, shares_other hfills' hne .bid, shares_other hfills' hne .ask]⟩

theorem uncrossAll_works {Q : Prop} (lis : List ℕ) : ∀ {n : ℕ} {g : Generator}, lis.Nodup →
    (∀ li ∈ lis, li < g.locs.length) → (∀ l ∈ g.locs, Tracks l) → g.ts < 2 ^ 48 → n ≤ budget →
    (Q → Roomy g lis) →
    Returns Q (fun out => ∃ path, Works g lis budget n out.1 out.2 path)
      (Generator.uncrossAll budget lis n g) := by
  induction lis with
  | nil =>
    intro n g _ _ htracks hts hn _
    exact Returns.of_ok ⟨[], Passage.refl g, rfl, hn, fun mo hmo => (by cases hmo),
      fun mo hmo => (by cases hmo), fun mo hmo => (by cases hmo), rfl, rfl,
      htracks, fun _ _ => rfl, Nat.zero_le _, fun _ li hli => (by cases hli)⟩
  | cons li lis ih =>
    intro n g hnodup hlis htracks hts hn hroomy
    obtain ⟨hout, hnodup'⟩ := List.nodup_cons.mp hnodup
    have hli := hlis li (List.mem_cons_self ..)
    obtain ⟨l, hl⟩ : ∃ l, g.locs[li]? = some l := ⟨_, List.getElem?_eq_getElem hli⟩
    have hmem := List.mem_of_getElem? hl
    have horders : ordersAt g li = l.book.liveOrders := by rw [ordersAt, hl]; rfl
    simp only [Generator.uncrossAll]
    refine (uncross_rounds (Q := Q) (budget + 1) hl (htracks l hmem) hts (fun _ => hn)
      (fun _ => by omega) (fun hQ => ?_) (fun hQ => (hroomy hQ).bounded l hmem)
      (fun hQ htruth => (hroomy hQ).live_lt htruth l hmem) fun hQ => ?_).bind fun out hout' => ?_
    · have hfew := (hroomy hQ).few
      omega
    · have hroom := (hroomy hQ).nextMatch
      rw [List.map_cons, List.sum_cons, horders] at hroom
      omega
    · obtain ⟨spent, n', g'⟩ := out
      obtain ⟨path, l', h⟩ := hout'
      cases spent with
      | true => exact Returns.of_ok ⟨path, works_spent htracks hl hn h⟩
      | false =>
        dsimp only at h
        have hlen : g'.locs.length = g.locs.length := h.passes.length
        refine (ih hnodup' (fun lj hlj => ?_) (fun k hk => ?_) (by rw [h.ts]; exact hts)
          (h.within hn) fun hQ => ?_).mono fun out h' => ?_
        · rw [hlen]
          exact hlis lj (List.mem_cons_of_mem _ hlj)
        · rw [h.locs] at hk
          rcases List.mem_or_eq_of_mem_set hk with hk | rfl
          · exact htracks k hk
          · exact h.tracks
        · exact roomy_rest hl hout h (hroomy hQ)
        · obtain ⟨path', h'⟩ := h'
          exact ⟨path ++ path', works_cons hl hout h h'⟩

end All

/-! The opening. -/

/-- What the opening does: executions at the heads of best levels, not more than the budget nor
than two for each live order, and then the event, all at the time at which it was called. -/
structure Opening (g : Generator) (budget n : ℕ) (g' : Generator) (path : List Moment)
    (ring : Moment) : Prop where
  passes : Passage g (path ++ [ring]) g'
  count : path.length = n
  within : n ≤ budget
  short : n ≤ 2 * (g.locs.map fun l => l.book.liveOrders).sum
  fills : ∀ mo ∈ path, ∃ li < g.locs.length, ∃ s k, Fills li s k mo
  rings : ring.call = systemAt ring.before 81
  time : ∀ mo ∈ path ++ [ring], mo.time = g.ts
  ts : g'.ts = g.ts
  settled : n < budget → (∀ l ∈ g'.locs, Settled l) ∧
    ∀ li < g.locs.length, shares li .bid path = shares li .ask path

theorem orders_range (g : Generator) :
    (List.range g.locs.length).map (ordersAt g) = g.locs.map fun l => l.book.liveOrders := by
  refine List.ext_getElem (by simp) fun i hi hi' => ?_
  rw [List.length_map, List.length_range] at hi
  rw [List.getElem_map, List.getElem_map, List.getElem_range, ordersAt, List.getElem?_eq_getElem hi]
  rfl

theorem openMarket_opens {Q : Prop} {g : Generator} (htracks : ∀ l ∈ g.locs, Tracks l)
    (hts : g.ts < 2 ^ 48) (budget : ℕ) (hroomy : Q → Roomy g (List.range g.locs.length)) :
    Returns Q (fun out => ∃ path ring, Opening g budget out.1 out.2 path ring ∧
      ∀ mo ∈ path ++ [ring], Plain mo.before mo.after) (g.openMarket budget) := by
  have hlis : ∀ li ∈ List.range g.locs.length, li < g.locs.length := fun li => List.mem_range.mp
  refine (uncrossAll_works (Q := Q) _ List.nodup_range hlis htracks hts (Nat.zero_le budget)
    hroomy).bind fun out hout => ?_
  obtain ⟨n, g₁⟩ := out
  obtain ⟨path, h⟩ := hout
  dsimp only at h
  have hts₁ : g₁.ts < 2 ^ 48 := by rw [h.ts]; exact hts
  obtain ⟨g', hrun, hlocs, hwrites⟩ := systemEvent_writes hts₁ 81
  have hshort := h.short
  have hcount := h.count
  rw [orders_range] at hshort
  simp only [hrun, ok_bind, pure_eq_ok]
  refine Returns.of_ok ⟨path, ⟨g₁, _, g', .plain (.event 81 hrun), hwrites⟩,
    ⟨h.passes.append (Passage.single _ rfl), by omega, h.within, by omega, fun mo hmo => ?_, rfl,
    fun mo hmo => ?_, by rw [hwrites.clock, h.ts], fun hlt => ⟨fun l hl => ?_, fun li hli => ?_⟩⟩,
    fun mo hmo => ?_⟩
  · obtain ⟨li, hli, hfills⟩ := h.fills mo hmo
    exact ⟨li, hlis li hli, hfills⟩
  · rcases List.mem_append.mp hmo with hmo | hmo
    · exact h.time mo hmo
    · obtain rfl := List.mem_singleton.mp hmo
      exact h.ts
  · rw [hlocs] at hl
    obtain ⟨li, hli, rfl⟩ := List.getElem_of_mem hl
    have hlen : g₁.locs.length = g.locs.length := h.passes.length
    exact (h.settled hlt li (List.mem_range.mpr (hlen ▸ hli))).1 _ (List.getElem?_eq_getElem hli)
  · exact (h.settled hlt li (List.mem_range.mpr hli)).2
  · rcases List.mem_append.mp hmo with hmo | hmo
    · exact h.plain mo hmo
    · obtain rfl := List.mem_singleton.mp hmo
      exact .event 81 hrun

/-- Valid books, one for each locate: the orders of each are tracked, the shares of a level and,
where rows are kept, the orders of a book can be counted in 32 bits. The other counters are not
used up: locates, clock and match numbers. -/
structure ValidBooks (g : Generator) : Prop where
  tracks : ∀ l ∈ g.locs, Tracks l
  bounded : ∀ l ∈ g.locs, Bounded (shown l.book)
  live_lt : g.truth.isSome → ∀ l ∈ g.locs, l.book.liveOrders < 2 ^ 32
  few : g.locs.length < 2 ^ 16
  ts_lt : g.ts < 2 ^ 48
  nextMatch : g.nextMatch + 2 * (g.locs.map fun l => l.book.liveOrders).sum < 2 ^ 64

/-- The opening of valid books, however they cross, returns for every budget: it executes heads of
best levels, rings once, and where the budget is not used up leaves every locate uncrossed, with
as many shares executed on one side of it as on the other. -/
theorem opening_uncrosses {g : Generator} (h : ValidBooks g) (budget : ℕ) :
    ∃ n g' path ring, g.openMarket budget = .ok (n, g') ∧ Opening g budget n g' path ring ∧
      g'.out = g.out ++ ((path.map fun mo => mo.call.framed).flatten ++ ring.call.framed) := by
  have hroomy : Roomy g (List.range g.locs.length) :=
    ⟨h.few, h.bounded, h.live_lt, by rw [orders_range]; exact h.nextMatch⟩
  obtain ⟨⟨n, g'⟩, hrun, path, ring, hopens, -⟩ :=
    (openMarket_opens (Q := True) h.tracks h.ts_lt budget fun _ => hroomy).ok_of trivial
  refine ⟨n, g', path, ring, hrun, hopens, ?_⟩
  have hout := hopens.passes.out
  simpa only [List.map_append, List.map_cons, List.map_nil, List.flatten_append,
    List.flatten_singleton] using hout

/-- An order put on a book. -/
def resting (l : Locate) (id : OrderId) (s : Side) (px : ℤ) (n : ℕ) : Locate :=
  match l.book.add id s px n with
  | .ok book => { l with book }.trackAdd id
  | .error _ => l

theorem resting_tracks {l : Locate} (ht : Tracks l) {id : OrderId} (s : Side) (px : ℤ) {n : ℕ}
    (hid : id ∉ l.live) (hpos : 0 < n) : Tracks (resting l id s px n) := by
  obtain ⟨book, hadd, hturns⟩ := Tracks.add ht s px hid hpos
  rw [resting, hadd]
  exact hturns.tracks

/-- A bid that reaches two asks. -/
def crossedLocate : Locate :=
  resting (resting (resting ⟨⟨ascii "SYN0001 ", rfl⟩, 100, 2500, .new, [], .empty, []⟩ 1 .bid 300 5)
    2 .ask 200 3) 3 .ask 300 4

theorem crossedLocate_tracks : Tracks crossedLocate := by
  have hempty : Tracks ⟨⟨ascii "SYN0001 ", rfl⟩, 100, 2500, .new, [], .empty, []⟩ :=
    tracks_of_shows TruthBook.shows_new (fun id i => by simp) fun id => by simp [Market.empty]
  exact resting_tracks (resting_tracks (resting_tracks hempty .bid 300 (by decide) (by decide)) .ask
    200 (by decide +kernel) (by decide)) .ask 300 (by decide +kernel) (by decide)

/-- The levels of a book are those that it lists. -/
theorem bounded_of_levels {t : TruthBook} (h : ∀ s, ∀ e ∈ (t.side s).entries, total e.2 < 2 ^ 32) :
    Bounded (shown t) := by
  intro s px
  show total (((t.side s).get? px).getD []) < 2 ^ 32
  cases hget : (t.side s).get? px with
  | none => decide
  | some q => exact h s (px, q) (SortedMap.get?_eq_some_iff.mp hget)

/-- A generator that has only this locate. -/
def crossedBooks : Generator where
  rng := []
  cfg := ⟨1, ⟨List.replicate 9 (some 1), length_evenMix⟩, some 0, some 0, false, true, 80, 160⟩
  out := []
  truth := some []
  locs := [crossedLocate]
  cum := []
  nextRef := 4
  nextMatch := 1
  tracking := 0
  ts := 80
  keepDead := false
  emptyBytes := []

theorem opening_uncrosses_crossed : ValidBooks crossedBooks ∧
    ∃ n g' path ring, crossedBooks.openMarket 9 = .ok (n, g') ∧
      Opening crossedBooks 9 n g' path ring ∧
      g'.out = crossedBooks.out ++
        ((path.map fun mo => mo.call.framed).flatten ++ ring.call.framed) := by
  have hvalid : ValidBooks crossedBooks := by
    refine ⟨fun l hl => ?_, fun l hl => ?_, fun _ l hl => ?_, by decide, by decide,
      by decide +kernel⟩
    · obtain rfl := List.mem_singleton.mp hl
      exact crossedLocate_tracks
    · obtain rfl := List.mem_singleton.mp hl
      refine bounded_of_levels fun s => ?_
      cases s with
      | bid => decide +kernel
      | ask => decide +kernel
    · obtain rfl := List.mem_singleton.mp hl
      decide +kernel
  exact ⟨hvalid, opening_uncrosses hvalid 9⟩

end Lobcore.OpeningRounds
