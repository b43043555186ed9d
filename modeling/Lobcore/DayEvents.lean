import Lobcore.GeneratorDraws
import Lobcore.RoundTrips

/-!
The events of a synthetic day, told by what they do to the markets of its locates. An event is a
message with the row of the truth beside it; the numbers it uses up, its clock and the phase of
the day are kept in the floor that it leaves. An order is placed as it was drawn, and whatever is
known of the orders that a day places is a parameter of its events.
-/
namespace Lobcore.DayEvents

open OrderTypes Markets TruthBooks Writers RoundTrips Generators GeneratorDraws

/-! Orders to be placed. -/

/-- An order on its way to a book: the locate it was drawn on, the order it replaces, and whether
its price may cross. -/
structure Placement where
  l : Locate
  old : Option OrderId
  allowed : Bool
  draft : Draft

/-- The orders at its price, without the one it replaces. -/
def Placement.others (p : Placement) : Queue :=
  let level := ((p.l.book.side p.draft.side).get? p.draft.px).getD []
  p.old.elim level fun id => settle id 0 level

/-- The shares at its price can be counted in 32 bits. -/
def Placement.Fits (p : Placement) : Prop := total p.others + p.draft.qty < 2 ^ 32

instance (p : Placement) : Decidable p.Fits := inferInstanceAs (Decidable (_ < _))

/-! Messages. -/

/-- The reference that a message uses up. -/
def newRef : Body → Option OrderId
  | .addOrder r .. => some r
  | .addOrderMpid r .. => some r
  | .orderReplace _ r .. => some r
  | _ => none

/-- The match number that a message uses up. -/
def newMatch : Body → Option UInt64
  | .orderExecuted _ _ n => some n
  | .orderExecutedWithPrice _ _ n .. => some n
  | .trade _ _ _ n => some n
  | _ => none

/-- The order that a message is for. -/
def target : Body → Option OrderId
  | .orderExecuted r .. => some r
  | .orderExecutedWithPrice r .. => some r
  | .orderCancel r _ => some r
  | .orderDelete r => some r
  | .orderReplace r .. => some r
  | _ => none

/-- A message of a locate that is for no order. -/
def isMark : Body → Bool
  | .stockDirectory _ => true
  | .tradingAction .. => true
  | .mpidPosition .. => true
  | .trade .. => true
  | _ => false

/-- What a message does to the market of its locate. -/
inductive Deal (C : Placement → Prop) (allowed : Bool) (next : ℕ) (m : Market) :
    Body → Market → Prop
  | mark {body : Body} (hmark : isMark body = true) : Deal C allowed next m body m
  /-- A message for an order that is not live. -/
  | missed {body : Body} {id : OrderId} (htarget : target body = some id)
      (hgone : m.home id = none) : Deal C allowed next m body m
  | placed {p : Placement} {body : Body} (hC : C p) (hold : p.old = none)
      (hallowed : p.allowed = allowed) (hshows : p.l.book.Shows m)
      (hdraft : Drafted p.l allowed m p.draft) (hfresh : m.home (.ofNat next) = none)
      (hbody : body = .addOrder (.ofNat next) (sideByte p.draft.side) (.ofNat p.draft.qty)
          p.l.stock (.ofNat p.draft.px.toNat) ∨
        body = .addOrderMpid (.ofNat next) (sideByte p.draft.side) (.ofNat p.draft.qty)
          p.l.stock (.ofNat p.draft.px.toNat) mpidName) :
      Deal C allowed next m body (m.push (.ofNat next) p.draft.side p.draft.px p.draft.qty)
  | replaced {p : Placement} {old : OrderId} {oldPx : ℤ} {held : ℕ} (hC : C p)
      (hold : p.old = some old) (hallowed : p.allowed = allowed) (hshows : p.l.book.Shows m)
      (hdraft : Drafted p.l allowed m p.draft) (hfresh : m.home (.ofNat next) = none)
      (hfind : m.find old = some (p.draft.side, oldPx, held)) :
      Deal C allowed next m
        (.orderReplace old (.ofNat next) (.ofNat p.draft.qty) (.ofNat p.draft.px.toNat))
        ((m.take old p.draft.side oldPx 0).push (.ofNat next) p.draft.side p.draft.px
          p.draft.qty)
  | deleted {id : OrderId} {s : Side} {px : ℤ} {n : ℕ} (hfind : m.find id = some (s, px, n)) :
      Deal C allowed next m (.orderDelete id) (m.take id s px 0)
  | cancelled {id : OrderId} {s : Side} {px : ℤ} {n k : ℕ} (hfind : m.find id = some (s, px, n))
      (hpos : 0 < k) (hlt : k < n) :
      Deal C allowed next m (.orderCancel id (.ofNat k)) (m.take id s px (n - k))
  /-- An execution hits the head of the best level. -/
  | executed {id : OrderId} {s : Side} {px : ℤ} {n k : ℕ} {rest : Queue} {matchNo : UInt64}
      {body : Body} (hhead : (m.levels s).head? = some (px, (id, n) :: rest))
      (hfind : m.find id = some (s, px, n)) (hpos : 0 < k) (hle : k ≤ n)
      (hbody : body = .orderExecuted id (.ofNat k) matchNo ∨
        ∃ printable, body = .orderExecutedWithPrice id (.ofNat k) matchNo printable
          (.ofNat px.toNat)) :
      Deal C allowed next m body (m.take id s px (n - k))

/-- System events are no part of the dealing. -/
theorem Deal.not_systemEvent {C : Placement → Prop} {allowed : Bool} {next : ℕ} {m m' : Market}
    {code : UInt8} (h : Deal C allowed next m (.systemEvent code) m') : False := by
  cases h with
  | mark hmark => cases hmark
  | missed htarget _ => cases htarget
  | placed _ _ _ _ _ _ hbody => rcases hbody with hbody | hbody <;> cases hbody
  | executed _ _ _ _ hbody =>
    rcases hbody with hbody | ⟨_, hbody⟩
    · cases hbody
    · cases hbody

/-! Floors. -/

/-- How far the day is: before the opening, after it, or where only system events follow. -/
inductive Phase where
  | early
  | trading
  | closing
  deriving DecidableEq

/-- No bid reaches an ask. -/
def Uncrossed (m : Market) : Prop :=
  ∀ b a, m.queue .bid b ≠ [] → m.queue .ask a ≠ [] → b < a

/-- The markets by locate, the numbers to be used next, the time of the last message, and the
phase. -/
structure Floor where
  market : ℕ → Market
  nextRef : ℕ
  nextMatch : ℕ
  clock : ℕ
  phase : Phase

namespace Floor

def new : Floor := ⟨fun _ => .empty, 1, 1, 0, .early⟩

/-- The floor that a message leaves. -/
def after (fl : Floor) (c : Call) (market : ℕ → Market) (phase : Phase) : Floor where
  market := market
  nextRef := fl.nextRef + if (newRef c.body).isSome then 1 else 0
  nextMatch := fl.nextMatch + if (newMatch c.body).isSome then 1 else 0
  clock := c.header.ts.toNat
  phase := phase

end Floor

/-- The message takes its numbers in turn, and its time is not before the last. -/
structure Numbered (fl : Floor) (c : Call) : Prop where
  ts_lt : c.header.ts.toNat < 2 ^ 48
  clock_le : fl.clock ≤ c.header.ts.toNat
  ref : ∀ r ∈ newRef c.body, r = .ofNat fl.nextRef
  matchNo : ∀ n ∈ newMatch c.body, n = .ofNat fl.nextMatch

/-- How a system event moves the day on: the opening finds every market uncrossed, or nothing but
system events follow. -/
inductive Rings (fl : Floor) : UInt8 → Phase → Prop
  | other {code : UInt8} (hcode : code ≠ 81) : Rings fl code fl.phase
  | opening (hphase : fl.phase = .early) (huncrossed : ∀ l, Uncrossed (fl.market l)) :
      Rings fl 81 .trading
  | last (hphase : fl.phase = .early) : Rings fl 81 .closing

/-- One message. Prices may cross only before the opening, on a day that allows it. -/
inductive Event (C : Placement → Prop) (preopen : Bool) (fl : Floor) (c : Call) : Floor → Prop
  | system {code : UInt8} {phase : Phase} (hbody : c.body = .systemEvent code)
      (hlocate : c.header.locate = 0) (hrings : Rings fl code phase) :
      Event C preopen fl c (fl.after c fl.market phase)
  | deal {allowed : Bool} {m : Market} (hphase : fl.phase ≠ .closing)
      (hlocate : c.header.locate ≠ 0)
      (hallowed : allowed = true → preopen = true ∧ fl.phase = .early)
      (hdeal : Deal C allowed fl.nextRef (fl.market c.header.locate.toNat) c.body m) :
      Event C preopen fl c
        (fl.after c (Function.update fl.market c.header.locate.toNat m) fl.phase)

/-- The row of the truth beside a message. -/
noncomputable def rowOf (c : Call) (m : Market) : Truth where
  ts := c.header.ts.toNat
  locate := c.header.locate
  bestBid := best m .bid
  bestAsk := best m .ask
  l5Bid := five m .bid
  l5Ask := five m .ask
  liveOrders := m.live
  bookBytes := m.stateBytes

/-- Messages one after the other, each with its row. -/
inductive Events (C : Placement → Prop) (preopen : Bool) : Floor → List (Call × Truth) →
    Floor → Prop
  | nil (fl : Floor) : Events C preopen fl [] fl
  | cons {fl fl' fl'' : Floor} {c : Call} {rows : List (Call × Truth)} (hnumbered : Numbered fl c)
      (hevent : Event C preopen fl c fl') (hrest : Events C preopen fl' rows fl'') :
      Events C preopen fl ((c, rowOf c (fl'.market c.header.locate.toNat)) :: rows) fl''

section Events

variable {C : Placement → Prop} {preopen : Bool}

theorem Events.append {fl fl' fl'' : Floor} {rows rows' : List (Call × Truth)}
    (h : Events C preopen fl rows fl') (h' : Events C preopen fl' rows' fl'') :
    Events C preopen fl (rows ++ rows') fl'' := by
  induction h with
  | nil fl => exact h'
  | cons hnumbered hevent hrest ih => exact .cons hnumbered hevent (ih h')

theorem Events.single {fl fl' : Floor} {c : Call} (hnumbered : Numbered fl c)
    (hevent : Event C preopen fl c fl') :
    Events C preopen fl [(c, rowOf c (fl'.market c.header.locate.toNat))] fl' :=
  .cons hnumbered hevent (.nil fl')

theorem Events.ts_lt {fl fl' : Floor} {rows : List (Call × Truth)}
    (h : Events C preopen fl rows fl') : ∀ p ∈ rows, p.1.header.ts.toNat < 2 ^ 48 := by
  induction h with
  | nil fl =>
    intro p hp
    cases hp
  | cons hnumbered hevent hrest ih =>
    intro p hp
    rcases List.mem_cons.mp hp with rfl | hp
    · exact hnumbered.ts_lt
    · exact ih p hp

end Events

end Lobcore.DayEvents
