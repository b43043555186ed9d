import Lobcore.Closings
import Lobcore.Framing
import Lobcore.SessionAccounts
import Lobcore.WeightedMids

/-!
`replay_itch`: a file replayed through a session, with rows sampled from the books on the way. A
row is taken at an order message that its book accepted, when the cadence of the locate is due;
its cells go to one column each. Floating point is a parameter.
-/
namespace Lobcore.ReplayColumns

open Checked OrderTypes Bitmaps Payloads SessionStats Sessions Framing Closings
open OrderFlow WeightedMids

/-- `num as f64 / den as f64`, and the value of an undefined feature. -/
structure Floats (F : Type) where
  div : ℤ → ℤ → F
  nan : F

/-- The cells of a row that are always there. -/
@[ext]
structure Quote where
  ts : UInt64
  locate : UInt16
  bidPx : ℤ
  bidQty : ℕ
  askPx : ℤ
  askQty : ℕ
  deriving DecidableEq, Repr

/-- The cells of the features. -/
structure Features (F : Type) where
  depth5Bid : ℕ
  depth5Ask : ℕ
  wmid : F
  imb1 : F
  imb5 : F
  spread : Int32
  ofi : Int64

/-- Struct of arrays. -/
structure Columns (F : Type) where
  ts : List UInt64
  locate : List UInt16
  bidPx : List ℤ
  bidQty : List ℕ
  askPx : List ℤ
  askQty : List ℕ
  depth5Bid : List ℕ
  depth5Ask : List ℕ
  wmid : List F
  imb1 : List F
  imb5 : List F
  spread : List Int32
  ofi : List Int64

/-- Per-locate sampling state: the messages since the last row, its timestamp, and its best prices
when both sides were there. -/
structure Sampler where
  since : ℕ
  lastTs : Option UInt64
  prevL1 : Option L1
  deriving DecidableEq, Repr

def Sampler.default : Sampler := ⟨0, none, none⟩

/-- When the next row of a locate is due. -/
inductive Cadence where
  | everyN (n : UInt64) (hn : n ≠ 0)
  | everyNs (d : UInt64) (hd : d ≠ 0)

def isBookMsg : Msg → Bool
  | .add _ | .addMpid _ | .exec _ | .execPx _ | .cancel _ | .delete _ | .replace _ => true
  | _ => false

namespace Columns

variable {F : Type}

def empty : Columns F := ⟨[], [], [], [], [], [], [], [], [], [], [], [], []⟩

def pushQuote (c : Columns F) (q : Quote) : Columns F :=
  { c with
    ts := c.ts ++ [q.ts]
    locate := c.locate ++ [q.locate]
    bidPx := c.bidPx ++ [q.bidPx]
    bidQty := c.bidQty ++ [q.bidQty]
    askPx := c.askPx ++ [q.askPx]
    askQty := c.askQty ++ [q.askQty] }

def pushFeatures (c : Columns F) (f : Features F) : Columns F :=
  { c with
    depth5Bid := c.depth5Bid ++ [f.depth5Bid]
    depth5Ask := c.depth5Ask ++ [f.depth5Ask]
    wmid := c.wmid ++ [f.wmid]
    imb1 := c.imb1 ++ [f.imb1]
    imb5 := c.imb5 ++ [f.imb5]
    spread := c.spread ++ [f.spread]
    ofi := c.ofi ++ [f.ofi] }

/-- The lengths of the columns that are returned. -/
def lengths (c : Columns F) (features : Bool) : List ℕ :=
  [c.ts.length, c.locate.length, c.bidPx.length, c.bidQty.length, c.askPx.length,
    c.askQty.length] ++
  if features then
    [c.depth5Bid.length, c.depth5Ask.length, c.wmid.length, c.imb1.length, c.imb5.length,
      c.spread.length, c.ofi.length]
  else []

end Columns

/-- The quantities of the best levels over an array of zeros. -/
def fill (levels : List LevelView) : Exec (Vector UInt32 5) :=
  levels.zipIdx.foldlM (fun v e =>
    if h : e.2 < 5 then .ok (v.set e.2 (.ofNat e.1.2.1) h) else .error .outOfRange)
    (Vector.replicate 5 0)

/-- Best bid and ask when both sides are there. -/
def both : Option LevelView × Option LevelView → Option L1
  | (some b, some a) => some ⟨.ofInt b.1, .ofNat b.2.1, .ofInt a.1, .ofNat a.2.1⟩
  | _ => none

def quoteOf (ts : UInt64) (locate : UInt16) (v : Option LevelView × Option LevelView) : Quote :=
  let (bpx, bq) := v.1.elim (0, 0) fun l => (l.1, l.2.1)
  let (apx, aq) := v.2.elim (0, 0) fun l => (l.1, l.2.1)
  ⟨ts, locate, bpx, bq, apx, aq⟩

section Floats

variable {F : Type} (fl : Floats F)

/-- The features of a book, by its best prices and five levels. -/
def featuresOf (prev : Option L1) (v : Option LevelView × Option LevelView)
    (levels : List LevelView × List LevelView) : Exec (Features F × Option L1) := do
  let l5 : L5 := ⟨← fill levels.1, ← fill levels.2⟩
  let depth5Bid ← depth5 l5.bid
  let depth5Ask ← depth5 l5.ask
  let i5 ← imb5 l5
  let cur := both v
  let w ← cur.elim (.ok none) fun l => wmid l.bidPx l.bidQty l.askPx l.askQty
  let i1 ← cur.elim (.ok none) fun l => imb1 l.bidQty l.askQty
  let s ← cur.elim (.ok 0) spread
  let step := match prev, cur with
    | some p, some c => ofiStep p c
    | _, _ => 0
  return (⟨depth5Bid, depth5Ask, w.elim fl.nan fun w => fl.div w.num w.den,
    i1.elim fl.nan fun r => fl.div r.num r.den, i5.elim fl.nan fun r => fl.div r.num r.den,
    .ofInt s, step⟩, cur)

/-- Append one row for a locate from its book. -/
def emit (cols : Columns F) (sampler : Sampler) (features : Bool) (ts : UInt64) (locate : UInt16)
    (book : LocateBook) : Exec (Columns F × Sampler) := do
  let v ← book.l1
  let cols := cols.pushQuote (quoteOf ts locate v)
  if ¬ features then
    return (cols, sampler)
  let levels ← book.l2 5
  let (f, cur) ← featuresOf fl sampler.prevL1 v levels
  return (cols.pushFeatures f, { sampler with prevL1 := cur })

/-- The arguments of `replay_itch`. -/
structure Request where
  watchlist : Watchlist
  everyN : Option UInt64
  everyNs : Option UInt64
  features : Bool
  arrayWindow : ℕ
  source : String

namespace Request

def config (r : Request) : SessionConfig := ⟨r.watchlist, r.arrayWindow, 8192, r.source, false⟩

/-- Without a watchlist every locate is sampled. -/
def sampleAll (r : Request) : Bool := r.watchlist = ⟨[], [], false⟩

/-- The cadence that the arguments ask for; no zero passes. -/
def cadence (r : Request) : Except String Cadence :=
  match r.everyN, r.everyNs with
  | some _, some _ => .error "pass every_n or every_ns, not both"
  | some n, none =>
    if hn : n = 0 then .error "every_n / every_ns must be positive" else .ok (.everyN n hn)
  | none, some d =>
    if hd : d = 0 then .error "every_n / every_ns must be positive" else .ok (.everyNs d hd)
  | none, none => .ok (.everyN 1 (by decide))

def checkWindow (r : Request) : Except String Unit :=
  if 1 ≤ r.arrayWindow ∧ r.arrayWindow ≤ maxLevels then .ok ()
  else .error s!"array_window must be in 1..={maxLevels}, got {r.arrayWindow}"

end Request

/-- Whether the next row is due. -/
def due (c : Cadence) (ts : UInt64) (s : Sampler) : Bool :=
  match c with
  | .everyN n _ => n.toNat ≤ s.since
  | .everyNs d _ => s.lastTs.all fun t => d.toNat ≤ ts.toNat - t.toNat

structure Loop (F : Type) where
  session : Session
  cols : Columns F
  samplers : List Sampler

/-- The body of the loop, behind the parse. A message that its book has not changed neither counts
toward the cadence nor emits a row. -/
def sample (r : Request) (c : Cadence) (st : Loop F) (m : Msg) : Exec (Loop F) := do
  let locate ← m.locate
  let ts ← m.ts
  let (changed, session) ← st.session.applyMsg m
  let st := { st with session }
  match locate, ts with
  | some locate, some ts =>
    if ¬ isBookMsg m ∨ ¬ changed then
      return st
    let sampled := r.sampleAll || session.stats.locates[locate.toNat]?.any LocateStats.watched
    if ¬ sampled then
      return st
    let samplers := growTo st.samplers (locate.toNat + 1) .default
    let s ← index samplers locate.toNat
    let s := { s with since := s.since + 1 }
    if ¬ due c ts s then
      return { st with samplers := ← store samplers locate.toNat s }
    let s := { s with since := 0, lastTs := some ts }
    match session.book locate.toNat with
    | none => return { st with samplers := ← store samplers locate.toNat s }
    | some book =>
      let (cols, s) ← emit fl st.cols s r.features ts locate book
      return { st with cols, samplers := ← store samplers locate.toNat s }
  | _, _ => return st

/-- What stops a replay: `cannot open …`, `read error: …` and `message #…: …`. -/
inductive ReplayError where
  | cannotOpen (e : IoError)
  | read (e : IoError)
  | message (seen : ℕ) (e : ParseError)
  deriving DecidableEq, Repr

/-- The frames of a source through the loop. -/
def replayFrames (r : Request) (c : Cadence) :
    Loop F → ℕ → List Bytes → Exec (Except ReplayError (Loop F))
  | st, _, [] => .ok (.ok st)
  | st, seen, payload :: rest =>
    match parse payload with
    | .error e => .ok (.error (.message seen e))
    | .ok m => do
      let st ← sample fl r c st m
      replayFrames r c st (seen + 1) rest

/-- The whole loop: frames, session, sampled rows. A source either does not open, or yields frames
and then ends or fails. -/
def runReplay (hash : Bytes → Bytes) (r : Request) (c : Cadence)
    (src : Except IoError (List Bytes × Option IoError)) :
    Exec (Except ReplayError (Columns F × Stats)) := do
  match src with
  | .error e => return .error (.cannotOpen e)
  | .ok (frames, failure) =>
    match ← replayFrames fl r c ⟨.new r.config, .empty, []⟩ 0 frames with
    | .error e => return .error e
    | .ok st =>
      match failure with
      | some e => return .error (.read e)
      | none =>
        let session ← st.session.finish hash
        let stats ← intoStats hash session
        return .ok (st.cols, stats)

/-- The exceptions of `replay_itch`. -/
inductive PyError where
  | value (text : String)
  | io (e : ReplayError)
  deriving DecidableEq, Repr

/-- The columns of a file, its arguments checked first. -/
def replayItch (hash : Bytes → Bytes) (r : Request)
    (src : Except IoError (List Bytes × Option IoError)) : Exec (Except PyError (Columns F)) := do
  match r.checkWindow with
  | .error text => return .error (.value text)
  | .ok () =>
    match r.cadence with
    | .error text => return .error (.value text)
    | .ok c =>
      match ← runReplay fl hash r c src with
      | .error e => return .error (.io e)
      | .ok (cols, _) => return .ok cols

end Floats

end Lobcore.ReplayColumns
