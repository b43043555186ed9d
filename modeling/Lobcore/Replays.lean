import Lobcore.MarketViews
import Lobcore.Payloads
import Lobcore.Sessions

/-!
What a replay is for: one market per locate, driven by the orders that the messages carry,
and the counters that follow. The kind of a book does not occur here, nor does anything a
session keeps about its array windows; sessions are compared with this description.
-/
namespace Lobcore.Replays

open Checked OrderTypes Markets Payloads SessionStats Sessions

/-- What an order message asks of the book of its locate. -/
inductive Order where
  | add (id : OrderId) (side : Option Side) (px qty : UInt32)
  | execute (id : OrderId) (qty : UInt32)
  | cancel (id : OrderId) (qty : UInt32)
  | delete (id : OrderId)
  | replace (old new : OrderId) (px qty : UInt32)
  deriving DecidableEq

inductive Body where
  | system (code : UInt8) (ts : UInt64)
  | directory (l : UInt16) (stock : Bytes)
  | action (l : UInt16) (state : UInt8)
  | order (l : UInt16) (o : Order)
  /-- A message that is counted and touches no book. -/
  | print (l : Option UInt16)
  | unknown
  deriving DecidableEq

/-- A message as its payload spells it. -/
structure Note where
  ty : UInt8
  ts : Option UInt64
  body : Body
  deriving DecidableEq

def u16At (b : Bytes) (off : ℕ) : UInt16 := .ofNat (word b off 2)

def u32At (b : Bytes) (off : ℕ) : UInt32 := .ofNat (word b off 4)

def u64At (b : Bytes) (off : ℕ) : UInt64 := .ofNat (word b off 8)

def tsAt (b : Bytes) (off : ℕ) : UInt64 := .ofNat (word b off 6)

def headerTs (b : Bytes) : Option UInt64 := if headerLen ≤ b.length then some (tsAt b 5) else none

def headerLocate (b : Bytes) : Option UInt16 :=
  if headerLen ≤ b.length then some (u16At b 1) else none

def addAt (b : Bytes) : Order := .add (u64At b 11) (sideOf (byteAt b 19)) (u32At b 32) (u32At b 20)

def executeAt (b : Bytes) : Order := .execute (u64At b 11) (u32At b 19)

def body : Msg → Body
  | .system m => .system (byteAt m.raw 11) (tsAt m.raw 5)
  | .directory m => .directory (u16At m.raw 1) ((m.raw.drop 11).take 8)
  | .action m => .action (u16At m.raw 1) (byteAt m.raw 19)
  | .add m => .order (u16At m.raw 1) (addAt m.raw)
  | .addMpid m => .order (u16At m.raw 1) (addAt m.raw)
  | .exec m => .order (u16At m.raw 1) (executeAt m.raw)
  | .execPx m => .order (u16At m.raw 1) (executeAt m.raw)
  | .cancel m => .order (u16At m.raw 1) (.cancel (u64At m.raw 11) (u32At m.raw 19))
  | .delete m => .order (u16At m.raw 1) (.delete (u64At m.raw 11))
  | .replace m => .order (u16At m.raw 1)
      (.replace (u64At m.raw 11) (u64At m.raw 19) (u32At m.raw 31) (u32At m.raw 27))
  | .trade m => .print (headerLocate m.raw)
  | .cross m => .print (headerLocate m.raw)
  | .broken m => .print (headerLocate m.raw)
  | .other m _ => .print (headerLocate m.raw)
  | .unknown _ => .unknown

def note (m : Msg) : Note := ⟨byteAt m.raw 0, headerTs m.raw, body m⟩

/-- The call an order message makes; an add with no side makes none. -/
def Order.op : Order → Option Op
  | add id side px qty => side.map fun s => .add id s px.toInt32 qty
  | execute id qty => some (.execute id qty)
  | cancel id qty => some (.cancel id qty)
  | delete id => some (.delete id)
  | replace old new px qty => some (.replace old new px.toInt32 qty)

/-- The live orders that an accepted call leaves, and what a rejected one adds to the error
counters. -/
def noteReply (st : Stats) (l : ℕ) : Reply → Stats
  | .ok ev =>
    if liveDelta ev ≠ 0 then (st.onLocate l (.moveLive (liveDelta ev))).moveLive (liveDelta ev)
    else st
  | .error e => st.countError e

structure Replay where
  logEvents : Bool
  market : ℕ → Option Market
  sState : UInt8
  afterQ : Bool
  log : EventLog
  stats : Stats

namespace Replay

def new (logEvents : Bool) (source : String) : Replay where
  logEvents := logEvents
  market _ := none
  sState := 0
  afterQ := false
  log := .new
  stats := .new source 0

def withStats (a : Replay) (f : Stats → Stats) : Replay := { a with stats := f a.stats }

def setMarket (a : Replay) (l : UInt16) (m : Market) : Replay :=
  { a with market := Function.update a.market l.toNat (some m) }

/-- Start the locate on an empty market, unless it has one. -/
def openMarket (a : Replay) (l : UInt16) : Replay :=
  match a.market l.toNat with
  | some _ => a
  | none => (a.setMarket l .empty).withStats fun st =>
    st.onLocate l.toNat fun ls => { ls with hasBook := true }

def directory (a : Replay) (l : UInt16) (stock : Bytes) : Replay :=
  ((a.withStats (·.grow l.toNat)).withStats fun st =>
    st.onLocate l.toNat fun ls => { ls with symbol := stock, msgs := ls.msgs + 1 }).openMarket l

/-- A market on demand, and the message counted against the locate. -/
def touch (a : Replay) (l : UInt16) : Replay :=
  let a := match a.market l.toNat with
    | some _ => a
    | none => ((a.withStats (·.grow l.toNat)).withStats (·.countNoDirectory)).openMarket l
  a.withStats fun st => st.onLocate l.toNat fun ls => { ls with msgs := ls.msgs + 1 }

def marketOf (a : Replay) (l : UInt16) : Market := (a.market l.toNat).getD .empty

/-- Log a reply and count it. -/
def record (a : Replay) (l : UInt16) (r : Reply) : Replay :=
  { a with
    log := if a.logEvents then a.log.push (loggedEvent r) else a.log
    stats := noteReply a.stats l.toNat r }

/-- The call on the market of the locate. -/
def call (a : Replay) (l : UInt16) (op : Op) : Replay :=
  (a.setMarket l ((a.marketOf l).apply op).2).record l ((a.marketOf l).apply op).1

/-- A placeholder price is counted, whether the add is accepted or not. -/
def placeholder (a : Replay) : Order → Replay
  | .add _ _ px _ => if isPlaceholder px then a.withStats (·.countPlaceholder) else a
  | _ => a

/-- What an accepted call adds besides, from the market before it. -/
def accepted (a : Replay) (before : Market) (ev : Event) : Order → Replay
  | .execute id _ => a.withStats (.countExecution (before.queueAhead id = some 0))
  | .cancel _ qty => if ev.qty.toNat < qty.toNat then a.withStats (·.countOverCancel) else a
  | _ => a

def countCrossed (a : Replay) (l : UInt16) : Replay :=
  if a.afterQ then a.withStats (.countCrossedAfterQ (a.stats.stateOf l.toNat = some 'T'))
  else a.withStats (·.countCrossedBeforeQ)

/-- Best bid at or above best ask. -/
def Crossed (v : Option LevelView × Option LevelView) : Prop :=
  ∃ bid ask, v = (some bid, some ask) ∧ ask.1 ≤ bid.1

open Classical in
noncomputable def checkCrossed (a : Replay) (l : UInt16) : Replay :=
  if Crossed (a.marketOf l).l1 then a.countCrossed l else a

/-- An order message: `true` when the market accepted its call. -/
noncomputable def order (a : Replay) (l : UInt16) (o : Order) : Bool × Replay :=
  let a := (a.touch l).placeholder o
  match o.op with
  | none => (false, a.withStats (·.countBadSide))
  | some op =>
    match ((a.marketOf l).apply op).1 with
    | .error _ => (false, a.call l op)
    | .ok ev => (true, ((a.call l op).accepted (a.marketOf l) ev o).checkCrossed l)

def print (a : Replay) (l : Option UInt16) : Replay :=
  match l with
  | none => a
  | some l => a.withStats fun st => st.onLocate l.toNat fun ls => { ls with msgs := ls.msgs + 1 }

noncomputable def dispatch (a : Replay) : Body → Bool × Replay
  | .system code ts => (false,
    { a with
      sState := code
      afterQ := a.afterQ || letter code = 'Q'
      stats := { a.stats with sEvents := a.stats.sEvents ++ [(code, ts)] } })
  | .directory l stock => (false, a.directory l stock)
  | .action l state => (false, (a.withStats (·.grow l.toNat)).withStats fun st =>
    st.onLocate l.toNat fun ls => { ls with hState := state, msgs := ls.msgs + 1 })
  | .order l o => a.order l o
  | .print l => (false, a.print l)
  | .unknown => (false, a.withStats (·.countUnknownType))

/-- One message: the counters of its header, then its body. -/
noncomputable def apply (a : Replay) (n : Note) : Bool × Replay :=
  (a.withStats (·.noteMessage n.ty n.ts)).dispatch n.body

/-- The answers of a run of messages and the state after them. -/
noncomputable def applyAll (a : Replay) : List Note → List Bool × Replay
  | [] => ([], a)
  | n :: ns =>
    let rest := (a.apply n).2.applyAll ns
    ((a.apply n).1 :: rest.1, rest.2)

theorem marketOf_eq {a : Replay} {l : UInt16} {m : Market} (h : a.market l.toNat = some m) :
    a.marketOf l = m := by
  rw [marketOf, h]
  rfl

@[simp] theorem market_placeholder (a : Replay) (o : Order) :
    (a.placeholder o).market = a.market := by
  unfold placeholder
  split
  · split <;> rfl
  · rfl

@[simp] theorem market_accepted (a : Replay) (m : Market) (ev : Event) (o : Order) :
    (a.accepted m ev o).market = a.market := by
  unfold accepted
  split
  · rfl
  · split <;> rfl
  · rfl

@[simp] theorem market_checkCrossed (a : Replay) (l : UInt16) :
    (a.checkCrossed l).market = a.market := by
  unfold checkCrossed countCrossed
  split
  · split <;> rfl
  · rfl

theorem market_openMarket (a : Replay) (l : UInt16) :
    (a.openMarket l).market = Function.update a.market l.toNat (some (a.marketOf l)) := by
  cases hm : a.market l.toNat with
  | none =>
    rw [openMarket, marketOf, hm]
    rfl
  | some m =>
    have hsame : a.openMarket l = a := by rw [openMarket, hm]
    rw [hsame, marketOf_eq hm, ← hm, Function.update_eq_self]

/-- A touch opens a market where there is none, and changes no other. -/
theorem market_touch (a : Replay) (l : UInt16) :
    (a.touch l).market = Function.update a.market l.toNat (some (a.marketOf l)) := by
  unfold touch
  cases hm : a.market l.toNat with
  | none =>
    show (Replay.openMarket _ l).market = _
    rw [market_openMarket]
    rfl
  | some m =>
    show a.market = _
    rw [marketOf_eq hm, ← hm, Function.update_eq_self]

theorem market_touch_self (a : Replay) (l : UInt16) (o : Order) :
    ((a.touch l).placeholder o).market l.toNat = some (a.marketOf l) := by
  rw [market_placeholder, market_touch, Function.update_self]

theorem market_call (a : Replay) (l : UInt16) (op : Op) :
    (a.call l op).market =
      Function.update a.market l.toNat (some ((a.marketOf l).apply op).2) := rfl

/-! What an order message does, by the reply of the market. -/

theorem order_none {a : Replay} {l : UInt16} {o : Order} (ho : o.op = none) :
    a.order l o = (false, ((a.touch l).placeholder o).withStats (·.countBadSide)) := by
  simp only [order, ho]

theorem order_error {a : Replay} {l : UInt16} {o : Order} {op : Op} (ho : o.op = some op)
    {e : BookError} (hr : ((a.marketOf l).apply op).1 = .error e) :
    a.order l o = (false, ((a.touch l).placeholder o).call l op) := by
  simp only [order, ho, marketOf_eq (market_touch_self a l o), hr]

theorem order_ok {a : Replay} {l : UInt16} {o : Order} {op : Op} (ho : o.op = some op)
    {ev : Event} (hr : ((a.marketOf l).apply op).1 = .ok ev) :
    a.order l o = (true, ((((a.touch l).placeholder o).call l op).accepted (a.marketOf l) ev
      o).checkCrossed l) := by
  simp only [order, ho, marketOf_eq (market_touch_self a l o), hr]

/-- The market after an order message is the market after its call. -/
theorem market_order (a : Replay) (l : UInt16) (o : Order) :
    (a.order l o).2.market = Function.update a.market l.toNat
      (some (o.op.elim (a.marketOf l) fun op => ((a.marketOf l).apply op).2)) := by
  have hcall : ∀ op, (((a.touch l).placeholder o).call l op).market =
      Function.update a.market l.toNat (some ((a.marketOf l).apply op).2) := by
    intro op
    rw [market_call, marketOf_eq (market_touch_self a l o), market_placeholder, market_touch,
      Function.update_idem]
  cases ho : o.op with
  | none =>
    rw [order_none ho]
    show ((a.touch l).placeholder o).market = _
    rw [market_placeholder, market_touch]
    rfl
  | some op =>
    cases hr : ((a.marketOf l).apply op).1 with
    | error e =>
      rw [order_error ho hr]
      exact hcall op
    | ok ev =>
      rw [order_ok ho hr, market_checkCrossed, market_accepted]
      exact hcall op

/-- The market of a locate, empty before it is opened. -/
def marketAt (a : Replay) (i : ℕ) : Market := (a.market i).getD .empty

/-- Opening a market shows nowhere. -/
theorem marketAt_opened {a b : Replay} {l : UInt16}
    (h : b.market = Function.update a.market l.toNat (some (a.marketOf l))) (i : ℕ) :
    b.marketAt i = a.marketAt i := by
  rw [marketAt, h]
  by_cases hi : i = l.toNat
  · subst hi
    rw [Function.update_self]
    rfl
  · rw [Function.update_of_ne hi]
    rfl

/-- The markets after a message: an order makes its call on the market of its locate. -/
theorem marketAt_apply (a : Replay) (n : Note) (i : ℕ) : (a.apply n).2.marketAt i =
    match n.body with
    | .order l o => if i = l.toNat then
        o.op.elim (a.marketOf l) fun op => ((a.marketOf l).apply op).2 else a.marketAt i
    | _ => a.marketAt i := by
  unfold apply
  cases n.body with
  | directory l stock => exact marketAt_opened (market_openMarket _ l) i
  | order l o =>
    have horder : (Replay.order _ l o).2.market i = _ :=
      congrFun (market_order (a.withStats (·.noteMessage n.ty n.ts)) l o) i
    show ((Replay.order _ l o).2.market i).getD .empty = if i = l.toNat then _ else _
    rw [horder]
    by_cases hi : i = l.toNat
    · subst hi
      rw [Function.update_self, if_pos rfl]
      rfl
    · rw [Function.update_of_ne hi, if_neg hi]
      rfl
  | print l => cases l <;> rfl
  | _ => rfl

theorem marketAt_order (a : Replay) {n : Note} {l : UInt16} {o : Order} {op : Op}
    (hbody : n.body = .order l o) (hop : o.op = some op) :
    (a.apply n).2.marketAt l.toNat = ((a.marketAt l.toNat).apply op).2 := by
  rw [marketAt_apply, hbody]
  simp only [if_true, hop]
  rfl

end Replay

end Lobcore.Replays
