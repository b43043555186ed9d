import Lobcore.ArrayBooks
import Lobcore.Payloads
import Lobcore.ReferenceBook
import Lobcore.SessionStats

/-!
One book per stock locate, fed by parsed messages (`apply.rs`). A locate starts with a
reference book; a watched locate moves to an array book right after its first accepted add
or replace at a price that is not a placeholder. Every vector access and every `expect` of
the source is a step that can abort.
-/
namespace Lobcore.Sessions

open Checked OrderTypes Payloads SessionStats ReferenceBook ArrayBooks

/-- Prices at or below one cent and at or above $199,900. -/
def isPlaceholder (px : UInt32) : Bool := px ≤ 100 || 1999000000 ≤ px

/-- Tick of the array grid of a locate whose first real price is `px`. -/
def tickFor (px : UInt32) : ℤ := if 10000 ≤ px ∨ px % 100 = 0 then 100 else 1

/-- Which locates get the array book. -/
structure Watchlist where
  symbols : List Bytes
  locates : List UInt16
  all : Bool
  deriving DecidableEq, Repr

def Watchlist.matchesLocate (w : Watchlist) (locate : UInt16) (symbol : Option Bytes) : Bool :=
  w.all || w.locates.contains locate || symbol.any w.symbols.contains

structure SessionConfig where
  watchlist : Watchlist
  arrayWindow : ℕ
  arrayReserve : ℕ
  source : String
  logEvents : Bool
  deriving DecidableEq, Repr

/-- The two book kinds behind the shared calls. -/
inductive LocateBook where
  | array (b : ArrayBook)
  | ref (r : RefBook)

namespace LocateBook

def apply : LocateBook → Op → Exec (Reply × LocateBook)
  | array b, op => do
    let (r, b) ← b.apply op
    return (r, array b)
  | ref b, op => do
    let (r, b) ← b.apply op
    return (r, ref b)

def queueAhead (id : OrderId) : LocateBook → Exec (Option ℕ)
  | array b => b.queueAhead id
  | ref b => b.queueAhead id

def l1 : LocateBook → Exec (Option LevelView × Option LevelView)
  | array b => b.l1
  | ref b => b.l1

def l2 (depth : ℕ) : LocateBook → Exec (List LevelView × List LevelView)
  | array b => b.l2 depth
  | ref b => b.l2 depth

def snapshot : LocateBook → Exec Snapshot
  | array b => b.snapshot
  | ref b => .ok b.snapshot

def liveOrders : LocateBook → ℕ
  | array b => b.liveOrders
  | ref b => b.liveOrders

/-- The bytes fed to the state hash. -/
def stateBytes : LocateBook → Exec Bytes
  | array b => b.stateBytes
  | ref b => .ok b.stateBytes

end LocateBook

structure Session where
  cfg : SessionConfig
  books : List (Option LocateBook)
  watched : List Bool
  sState : UInt8
  afterQ : Bool
  log : EventLog
  stats : Stats
  finished : Bool

/-- Re-add one level of a snapshot, first in line first. -/
def readdLevel (ab : ArrayBook) (side : Side) (px : ℤ) (fifo : Queue) : Exec ArrayBook :=
  fifo.foldlM (fun ab e => do
    match ← ab.add e.1 side px e.2 with
    | (.ok _, ab) => return ab
    | (.error _, _) => throw .assertion) ab

def readd (ab : ArrayBook) (snapshot : Snapshot) : Exec ArrayBook :=
  snapshot.foldlM (fun ab lvl => readdLevel ab lvl.1 lvl.2.1 lvl.2.2) ab

/-- The array book that takes over from a reference book, centred on `px`, and the number
of window levels below `px`. -/
def migrate (cfg : SessionConfig) (rb : RefBook) (px : Int32) : Exec (ℤ × ArrayBook) := do
  let tick := tickFor px.toUInt32
  let below ← fitI32 (px.toInt - 1)
  let k := min ((cfg.arrayWindow / 2 : ℕ) : ℤ) (below.tdiv tick)
  let down ← fitI32 (k * tick)
  let base ← fitI32 (px.toInt - down)
  let ab ← ArrayBook.withCapacity ⟨base, cfg.arrayWindow, tick⟩ cfg.arrayReserve
  return (k, ← readd ab rb.snapshot)

namespace Session

def new (cfg : SessionConfig) : Session where
  cfg := cfg
  books := []
  watched := []
  sState := 0
  afterQ := false
  log := .new
  stats := .new cfg.source cfg.arrayWindow
  finished := false

/-- The book of a locate, if one exists. -/
def book (s : Session) (l : ℕ) : Option LocateBook := s.books[l]?.join

def ensureLocate (s : Session) (l : UInt16) : Session :=
  let need := l.toNat + 1
  if s.books.length < need then
    { s with
      books := resize s.books need none
      watched := resize s.watched need false
      stats := { s.stats with locates := resize s.stats.locates need .new } }
  else s

def atLocate (s : Session) (l : UInt16) (f : LocateStats → LocateStats) : Exec Session := do
  let stats ← s.stats.atLocate l.toNat f
  return { s with stats }

/-- Put the locate on the watch if the watchlist has it. -/
def watch (s : Session) (l : UInt16) (symbol : Option Bytes) : Exec Session :=
  if s.cfg.watchlist.matchesLocate l symbol then do
    let watched ← store s.watched l.toNat true
    { s with watched }.atLocate l fun ls => { ls with watched := true }
  else .ok s

/-- Start the locate on an empty reference book. -/
def openBook (s : Session) (l : UInt16) : Exec Session := do
  let books ← store s.books l.toNat (some (.ref .new))
  { s with books }.atLocate l fun ls => { ls with hasBook := true }

def directory (s : Session) (l : UInt16) (stock : Bytes) : Exec Session := do
  let s ← (s.ensureLocate l).atLocate l fun ls => { ls with symbol := stock, msgs := ls.msgs + 1 }
  let s ← s.watch l (some stock)
  match ← index s.books l.toNat with
  | none => s.openBook l
  | some _ => return s

/-- A book on demand, for an order message that no directory message preceded. -/
def openMissing (s : Session) (l : UInt16) : Exec Session :=
  match s.book l.toNat with
  | some _ => .ok s
  | none => do
    let s := s.ensureLocate l
    let s := { s with stats := s.stats.countNoDirectory }
    let s ← s.watch l none
    s.openBook l

def ensureBook (s : Session) (l : UInt16) : Exec Session := do
  let s ← s.openMissing l
  s.atLocate l fun ls => { ls with msgs := ls.msgs + 1 }

/-- The book of a locate that `ensureBook` has seen. -/
def bookMut (s : Session) (l : UInt16) : Exec LocateBook := do
  expect (← index s.books l.toNat)

def callBook (s : Session) (l : UInt16) (op : Op) : Exec (Reply × Session) := do
  let (r, b) ← (← s.bookMut l).apply op
  let books ← store s.books l.toNat (some b)
  return (r, { s with books })

/-- For a watched locate, after an accepted add or replace at a real price: move to the
array book the first time, track the largest tick offset afterwards. -/
def ensureArray (s : Session) (l : UInt16) (px : Int32) : Exec Session := do
  let watched ← index s.watched l.toNat
  if ¬ watched then return s
  match ← s.bookMut l with
  | .array ab =>
    ensure (ab.config.tick ≠ 0)
    let off := |(px.toInt - ab.config.basePx).tdiv ab.config.tick|
    s.atLocate l fun ls => { ls with maxAbsOffsetReal := max ls.maxAbsOffsetReal off }
  | .ref rb =>
    let (k, ab) ← migrate s.cfg rb px
    let books ← store s.books l.toNat (some (.array ab))
    { s with books }.atLocate l fun ls => { ls with maxAbsOffsetReal := k }

/-- Log the result, count errors, track live orders; the event when the book changed. -/
def record (s : Session) (l : UInt16) (r : Reply) : Exec (Option Event × Session) :=
  let s := if s.cfg.logEvents then { s with log := s.log.push (loggedEvent r) } else s
  match r with
  | .ok ev =>
    if liveDelta ev ≠ 0 then do
      let s ← s.atLocate l (.moveLive (liveDelta ev))
      return (some ev, { s with stats := s.stats.moveLive (liveDelta ev) })
    else .ok (some ev, s)
  | .error e => .ok (none, { s with stats := s.stats.countError e })

def countCrossed (s : Session) (l : UInt16) : Exec Session :=
  if s.afterQ then do
    let ls ← index s.stats.locates l.toNat
    return { s with stats := s.stats.countCrossedAfterQ (letter ls.hState = 'T') }
  else .ok { s with stats := s.stats.countCrossedBeforeQ }

/-- Crossed-snapshot statistic after a book change. -/
def checkCrossed (s : Session) (l : UInt16) : Exec Session := do
  match ← (← s.bookMut l).l1 with
  | (some bid, some ask) => if ask.1 ≤ bid.1 then s.countCrossed l else return s
  | _ => return s

def countPlaceholder (s : Session) (px : UInt32) : Session :=
  if isPlaceholder px then { s with stats := s.stats.countPlaceholder } else s

/-- The array window follows an accepted order at a real price. -/
def ensureWindow (s : Session) (l : UInt16) (px : UInt32) : Exec Session :=
  if isPlaceholder px then .ok s else s.ensureArray l px.toInt32

def add (s : Session) (l : UInt16) (id : OrderId) (side : Option Side) (px qty : UInt32) :
    Exec (Bool × Session) := do
  let s ← s.ensureBook l
  let s := s.countPlaceholder px
  match side with
  | none => return (false, { s with stats := s.stats.countBadSide })
  | some side =>
    let (r, s) ← s.callBook l (.add id side px.toInt32 qty)
    match ← s.record l r with
    | (none, s) => return (false, s)
    | (some _, s) =>
      let s ← s.ensureWindow l px
      let s ← s.checkCrossed l
      return (true, s)

def execute (s : Session) (l : UInt16) (id : OrderId) (qty : UInt32) : Exec (Bool × Session) := do
  let s ← s.ensureBook l
  let ahead ← (← s.bookMut l).queueAhead id
  let (r, s) ← s.callBook l (.execute id qty)
  match ← s.record l r with
  | (none, s) => return (false, s)
  | (some _, s) =>
    let s ← { s with stats := s.stats.countExecution (ahead = some 0) }.checkCrossed l
    return (true, s)

def countOverCancel (s : Session) (ev : Event) (qty : UInt32) : Session :=
  if ev.qty.toNat < qty.toNat then { s with stats := s.stats.countOverCancel } else s

def cancel (s : Session) (l : UInt16) (id : OrderId) (qty : UInt32) : Exec (Bool × Session) := do
  let s ← s.ensureBook l
  let (r, s) ← s.callBook l (.cancel id qty)
  match ← s.record l r with
  | (none, s) => return (false, s)
  | (some ev, s) =>
    let s ← (s.countOverCancel ev qty).checkCrossed l
    return (true, s)

def delete (s : Session) (l : UInt16) (id : OrderId) : Exec (Bool × Session) := do
  let s ← s.ensureBook l
  let (r, s) ← s.callBook l (.delete id)
  match ← s.record l r with
  | (none, s) => return (false, s)
  | (some _, s) =>
    let s ← s.checkCrossed l
    return (true, s)

def replace (s : Session) (l : UInt16) (old new : OrderId) (px qty : UInt32) :
    Exec (Bool × Session) := do
  let s ← s.ensureBook l
  let (r, s) ← s.callBook l (.replace old new px.toInt32 qty)
  match ← s.record l r with
  | (none, s) => return (false, s)
  | (some _, s) =>
    let s ← s.ensureWindow l px
    let s ← s.checkCrossed l
    return (true, s)

/-- Trades, crosses, broken trades and undecoded known types: count against a seen locate. -/
def countPrint (s : Session) (l : Option UInt16) : Exec Session :=
  match l with
  | none => .ok s
  | some l =>
    if l.toNat < s.stats.locates.length then
      s.atLocate l fun ls => { ls with msgs := ls.msgs + 1 }
    else .ok s

def system (s : Session) (code : UInt8) (ts : UInt64) : Session :=
  { s with
    sState := code
    afterQ := s.afterQ || letter code = 'Q'
    stats := { s.stats with sEvents := s.stats.sEvents ++ [(code, ts)] } }

def action (s : Session) (l : UInt16) (state : UInt8) : Exec Session :=
  (s.ensureLocate l).atLocate l fun ls => { ls with hState := state, msgs := ls.msgs + 1 }

/-- The body of a message, after the counters of its header. -/
def dispatch (s : Session) : Msg → Exec (Bool × Session)
  | .system m => do return (false, s.system (← m.eventCode) (← m.ts))
  | .directory m => do return (false, ← s.directory (← m.locate) (← m.stock))
  | .action m => do return (false, ← s.action (← m.locate) (← m.tradingState))
  | .add m => do s.add (← m.locate) (← m.orderRef) (← m.side) (← m.price) (← m.shares)
  | .addMpid m => do s.add (← m.locate) (← m.orderRef) (← m.side) (← m.price) (← m.shares)
  | .exec m => do s.execute (← m.locate) (← m.orderRef) (← m.executed)
  | .execPx m => do s.execute (← m.locate) (← m.orderRef) (← m.executed)
  | .cancel m => do s.cancel (← m.locate) (← m.orderRef) (← m.cancelled)
  | .delete m => do s.delete (← m.locate) (← m.orderRef)
  | .replace m => do
    s.replace (← m.locate) (← m.originalRef) (← m.newRef) (← m.price) (← m.shares)
  | .trade m => do return (false, ← s.countPrint (← (Msg.trade m).locate))
  | .cross m => do return (false, ← s.countPrint (← (Msg.cross m).locate))
  | .broken m => do return (false, ← s.countPrint (← (Msg.broken m).locate))
  | .other m known => do return (false, ← s.countPrint (← (Msg.other m known).locate))
  | .unknown _ => .ok (false, { s with stats := s.stats.countUnknownType })

/-- Apply one parsed message; `true` when a book changed. -/
def applyMsg (s : Session) (m : Msg) : Exec (Bool × Session) := do
  let stats ← s.stats.countMessage (← m.ty) (← m.ts)
  { s with stats }.dispatch m

/-- Parse and apply one payload. -/
def applyPayload (s : Session) (payload : Bytes) : Exec (Except ParseError Unit × Session) :=
  match parse payload with
  | .error e => .ok (.error e, s)
  | .ok m => do
    let (_, s) ← s.applyMsg m
    return (.ok (), s)

/-- The close state of one locate, and its part of the hash over all locates. -/
def closeLocate (hash : Bytes → Bytes) (acc : Stats × Bytes) (slot : Option LocateBook × ℕ) :
    Exec (Stats × Bytes) :=
  match slot.1 with
  | none => .ok acc
  | some b => do
    let closeHash := hash (← b.stateBytes)
    let live := b.liveOrders % 2 ^ 32
    let st ← acc.1.atLocate slot.2 fun ls => { ls with closeHash, live }
    let st ← match b with
      | .ref _ => .ok st
      | .array ab => st.atLocate slot.2 fun ls => { ls with
          array := true
          overflowHits := ab.overflowHits
          maxAbsOffset := ab.maxAbsOffset
          window := some (ab.config.basePx, ab.config.nLevels, ab.config.tick) }
    return (st, acc.2 ++ leBytes 2 (slot.2 % 2 ^ 16) ++ closeHash)

/-- Fill close hashes, per-locate close state and the event-log digest. -/
def finish (hash : Bytes → Bytes) (s : Session) : Exec Session := do
  let (st, all) ← s.books.zipIdx.foldlM (closeLocate hash) (s.stats, [])
  return { s with
    stats := { st with
      allLocatesHash := hash all
      eventLogged := s.cfg.logEvents
      eventCount := s.log.len
      eventLogHash := hash s.log.stream }
    finished := true }

end Session

end Lobcore.Sessions
