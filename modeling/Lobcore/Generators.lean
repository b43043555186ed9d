import Lobcore.TruthBooks
import Lobcore.Writers
import Mathlib.Data.Rat.Defs
import Mathlib.Algebra.Order.Ring.Unbundled.Rat

/-!
The generator of synthetic days (`generator.rs`, with the configuration and the truth rows of
`lib.rs`). Its random source is a list of numbers: every request takes the next one and brings
it into the range asked for, so that all lists together are all sequences of draws. A finite
`f32` or `f64` is a rational; how the two sums of the mix round is left open. A truth row keeps
the bytes that its hash is taken of.
-/
namespace Lobcore.Generators

open Checked OrderTypes SortedMaps Payloads Replays Writers TruthBooks

/-! The configuration. -/

/-- An `f32`: a rational, or none where it is not finite. -/
abbrev Single := Option ℚ

/-- Addition and division of `f64`, however they round. -/
structure Floats where
  add : ℚ → ℚ → ℚ
  div : ℚ → ℚ → ℚ

structure SynthConfig where
  locates : UInt16
  /-- Weights over A, F, D, X, U, E, C, P, L. -/
  mix : { ws : List Single // ws.length = 9 }
  placeholderRate : Single
  unknownRefRate : Single
  subpenny : Bool
  crossedPreopen : Bool
  openNs : UInt64
  closeNs : UInt64

theorem length_evenMix : (List.replicate 9 (some 1) : List Single).length = 9 := rfl

theorem length_addsMix : (some 1 :: List.replicate 8 (some 0) : List Single).length = 9 := rfl

def maxMsgs : ℕ := 2 ^ 32

inductive RateName where
  | placeholderRate
  | unknownRefRate
  deriving DecidableEq, Repr

/-- The messages of `validate` and `check_args`, by the field they name. -/
inductive ConfigError where
  | locates
  | mixWeights
  | mixZero
  | rate (name : RateName) (r : Single)
  | order (openNs closeNs : UInt64)
  | closeNs (closeNs : UInt64)
  | tooFew (min nMsgs : ℕ)
  | tooMany (nMsgs : ℕ)
  deriving DecidableEq, Repr

namespace SynthConfig

/-- The sum of the weights as `f64`. -/
def weightSum (fl : Floats) (cfg : SynthConfig) : ℚ :=
  (cfg.mix.val.map fun w => w.getD 0).foldl fl.add 0

/-- `0.0..=1.0` contains the rate. -/
def inUnit (r : Single) : Bool := r.any fun q => 0 ≤ q ∧ q ≤ 1

def validate (fl : Floats) (cfg : SynthConfig) : Except ConfigError Unit :=
  if cfg.locates = 0 then .error .locates
  else if cfg.mix.val.any fun w => w.all fun q => q < 0 then .error .mixWeights
  else if cfg.weightSum fl ≤ 0 then .error .mixZero
  else if ¬ inUnit cfg.placeholderRate then .error (.rate .placeholderRate cfg.placeholderRate)
  else if ¬ inUnit cfg.unknownRefRate then .error (.rate .unknownRefRate cfg.unknownRefRate)
  else if cfg.closeNs ≤ cfg.openNs then .error (.order cfg.openNs cfg.closeNs)
  else if 2 ^ 48 ≤ cfg.closeNs.toNat then .error (.closeNs cfg.closeNs)
  else .ok ()

end SynthConfig

def checkArgs (fl : Floats) (nMsgs : ℕ) (cfg : SynthConfig) : Except ConfigError Unit := do
  cfg.validate fl
  let min := 2 * cfg.locates.toNat + 6
  if nMsgs < min then .error (.tooFew min nMsgs)
  else if maxMsgs < nMsgs then .error (.tooMany nMsgs)
  else .ok ()

/-! The random source. -/

abbrev Rng := List ℕ

namespace Rng

/-- A number from `lo` on and below `hi`. -/
def range (rng : Rng) (lo hi : ℕ) : Exec (ℕ × Rng) := do
  ensure (lo < hi)
  return (lo + rng.headD 0 % (hi - lo), rng.tail)

/-- True with probability `p`. -/
def bool (rng : Rng) (p : ℚ) : Exec (Bool × Rng) := do
  ensure (0 ≤ p ∧ p ≤ 1)
  return (if p = 0 then false else if p = 1 then true else rng.headD 0 % 2 = 1, rng.tail)

/-- A multiple of `2 ^ -53` from 0 on and below 1. -/
def unit (rng : Rng) : ℚ × Rng := ((rng.headD 0 % 2 ^ 53 : ℕ) / 2 ^ 53, rng.tail)

end Rng

/-! The generator. -/

/-- What a message is drawn as, in the order of the mix. -/
inductive Kind where
  | a | f | d | x | u | e | c | p | l
  deriving DecidableEq, Repr

def Kind.all : List Kind := [.a, .f, .d, .x, .u, .e, .c, .p, .l]

def maxPrice : ℤ := 2000000000

def placeholderBid : ℤ := 100

def placeholderAsk : ℤ := 1999999900

def maxOffsetTicks : ℕ := 15

def crossProb : ℚ := 3 / 10

def midStepProb : ℚ := 15 / 100

def roundLotProb : ℚ := 8 / 10

def mpidName : Alpha 4 := ⟨ascii "SYNM", rfl⟩

structure Locate where
  stock : Alpha 8
  tick : ℤ
  mid : ℤ
  book : TruthBook
  live : List OrderId
  liveIdx : SortedMap OrderId ℕ
  dead : List OrderId

namespace Locate

def trackAdd (l : Locate) (id : OrderId) : Locate :=
  { l with liveIdx := l.liveIdx.insert id l.live.length, live := l.live ++ [id] }

/-- Swap-remove: the last entry takes the place of the one that leaves. -/
def trackRemove (l : Locate) (id : OrderId) (keepDead : Bool) : Exec Locate := do
  let i ← expect (l.liveIdx.get? id)
  let liveIdx := l.liveIdx.erase id
  let last ← expect l.live.getLast?
  let live := l.live.dropLast
  let dead := if keepDead then l.dead ++ [id] else l.dead
  if i < live.length then
    return { l with live := live.set i last, liveIdx := liveIdx.insert last i, dead }
  return { l with live, liveIdx, dead }

end Locate

/-- The decimal digits of a locate, at least four. -/
def digits4 (n : ℕ) : Bytes :=
  ((if n < 10000 then [] else [n / 10000]) ++ [n / 1000 % 10, n / 100 % 10,
    n / 10 % 10, n % 10]).map
    fun d => UInt8.ofNat (48 + d)

def symbol8 (sym : Bytes) : Exec (Alpha 8) :=
  if h : sym.length ≤ 8 then
    .ok ⟨sym ++ List.replicate (8 - sym.length) 32, by simp [h]⟩
  else .error .assertion

/-- The range of the first price, by locate. -/
def bucket (locate : ℕ) : ℕ × ℕ :=
  match (locate - 1) % 4 with
  | 0 => (2500, 10000)
  | 1 => (10000, 100000)
  | 2 => (100000, 1000000)
  | _ => (1000000, 4000000)

def newLocate (rng : Rng) (cfg : SynthConfig) (locate : ℕ) : Exec (Locate × Rng) := do
  let (base, rng) ← rng.range (bucket locate).1 (bucket locate).2
  let tick : ℤ := if base < 10000 ∧ cfg.subpenny then 1 else 100
  let mid := max (base / tick * tick) (2 * tick)
  let stock ← symbol8 (ascii "SYN" ++ digits4 locate)
  return (⟨stock, tick, mid, .new, [], .empty, []⟩, rng)

def newLocates (cfg : SynthConfig) : List ℕ → Rng → Exec (List Locate × Rng)
  | [], rng => return ([], rng)
  | i :: is, rng => do
    let (l, rng) ← newLocate rng cfg i
    let (ls, rng) ← newLocates cfg is rng
    return (l :: ls, rng)

/-- One row of the truth. The digest of its bytes is the row's hash. -/
structure Truth where
  ts : ℕ
  locate : UInt16
  bestBid : Option (ℤ × ℕ)
  bestAsk : Option (ℤ × ℕ)
  l5Bid : List ℕ
  l5Ask : List ℕ
  liveOrders : ℕ
  bookBytes : Bytes

structure SynthDay where
  bytes : Bytes
  truth : List Truth

structure Generator where
  rng : Rng
  cfg : SynthConfig
  out : Bytes
  truth : Option (List Truth)
  locs : List Locate
  cum : List ℚ
  nextRef : ℕ
  nextMatch : ℕ
  tracking : UInt16
  ts : ℕ
  keepDead : Bool
  emptyBytes : Bytes

/-- The cumulative shares of the weights. -/
def cumulate (fl : Floats) (total : ℚ) : ℚ → List ℚ → List ℚ
  | _, [] => []
  | acc, w :: ws =>
    fl.add acc (fl.div w total) :: cumulate fl total (fl.add acc (fl.div w total)) ws

/-- An order as it was drawn: where the price came from, and the price. -/
structure Draft where
  side : Side
  placeholder : Bool
  offset : ℕ
  cross : ℤ
  px : ℤ
  qty : ℕ
  deriving DecidableEq

def sideByte : Side → UInt8
  | .bid => 66
  | .ask => 83

/-- `u32::try_from` of an `i32`. -/
def unsigned (px : ℤ) : Exec UInt32 := do
  ensure (0 ≤ px)
  return .ofNat px.toNat

/-- A bid stays a tick below the best ask. -/
def belowAsk (anchor tick : ℤ) : Option (ℤ × ℕ) → Exec ℤ
  | none => .ok anchor
  | some ba => do return min anchor (← fitI32 (ba.1 - tick))

/-- An ask stays a tick above the best bid. -/
def aboveBid (anchor tick : ℤ) : Option (ℤ × ℕ) → Exec ℤ
  | none => .ok anchor
  | some bb => do return max anchor (← fitI32 (bb.1 + tick))

/-- The price of a resting order: anchored on the mid, held off the opposite best unless it may
cross, and kept on the grid. -/
def Locate.price (l : Locate) (side : Side) (crossedOk : Bool) (offset : ℕ) (cross : ℤ)
    (bestBid bestAsk : Option (ℤ × ℕ)) : Exec ℤ := do
  let away ← fitI32 (offset * l.tick)
  match side with
  | .bid =>
    let anchor ← fitI32 (l.mid + cross)
    let anchor ← if crossedOk then .ok anchor else belowAsk anchor l.tick bestAsk
    return max (← fitI32 (anchor - away)) l.tick
  | .ask =>
    let anchor ← fitI32 ((← fitI32 (l.mid + l.tick)) - cross)
    let anchor ← if crossedOk then .ok anchor else aboveBid anchor l.tick bestBid
    return min (← fitI32 (anchor + away)) maxPrice

namespace Generator

def new (fl : Floats) (rng : Rng) (cfg : SynthConfig) (wantTruth : Bool) (nMsgs : ℕ) :
    Exec Generator :=
  match checkArgs fl nMsgs cfg with
  | .error _ => .error .assertion
  | .ok () => do
    let total := cfg.weightSum fl
    let cum := cumulate fl total 0 (cfg.mix.val.map fun w => w.getD 0)
    let (locs, rng) ← newLocates cfg (List.range' 1 cfg.locates.toNat) rng
    let emptyBytes ← TruthBook.new.hashBytes
    return {
      rng, cfg, locs, cum, emptyBytes
      out := []
      truth := if wantTruth then some [] else none
      nextRef := 1
      nextMatch := 1
      tracking := 0
      ts := 0
      keepDead := 0 < cfg.unknownRefRate.getD 0 }

def setLocate (g : Generator) (li : ℕ) (l : Locate) : Generator :=
  { g with locs := g.locs.set li l }

def write (g : Generator) (f : Bytes → Exec Bytes) : Exec Generator := do
  return { g with out := ← f g.out }

def randomRange (g : Generator) (lo hi : ℕ) : Exec (ℕ × Generator) := do
  let (n, rng) ← g.rng.range lo hi
  return (n, { g with rng })

def randomBool (g : Generator) (p : ℚ) : Exec (Bool × Generator) := do
  let (b, rng) ← g.rng.bool p
  return (b, { g with rng })

def advanceClock (g : Generator) (gapMax : ℕ) : Exec Generator := do
  let (gap, g) ← g.randomRange 0 (gapMax + 1)
  let ts ← addU64 g.ts gap
  return { g with ts := min ts (g.cfg.closeNs.toNat - 1) }

def hdr (g : Generator) (li : ℕ) : Exec (Header × Generator) := do
  ensure (li + 1 < 2 ^ 16)
  return (⟨.ofNat (li + 1), g.tracking, .ofNat g.ts⟩, { g with tracking := g.tracking + 1 })

def systemEvent (g : Generator) (code : UInt8) : Exec Generator := do
  let h : Header := ⟨0, g.tracking, .ofNat g.ts⟩
  let g := { g with tracking := g.tracking + 1 }
  let g ← g.write fun out => Writers.systemEvent out h code
  let row : Truth := ⟨g.ts, 0, none, none, [0, 0, 0, 0, 0], [0, 0, 0, 0, 0], 0, g.emptyBytes⟩
  return { g with truth := g.truth.map fun rows => rows ++ [row] }

def record (g : Generator) (li : ℕ) : Exec Generator :=
  match g.truth with
  | none => return g
  | some rows => do
    let b := (← index g.locs li).book
    ensure (li + 1 < 2 ^ 16)
    let bestBid ← b.bestBid
    let bestAsk ← b.bestAsk
    let l5Bid ← b.l5 .bid
    let l5Ask ← b.l5 .ask
    ensure (b.liveOrders < 2 ^ 32)
    let bookBytes ← b.hashBytes
    let row : Truth := {
      bestBid, bestAsk, l5Bid, l5Ask, bookBytes
      ts := g.ts
      locate := .ofNat (li + 1)
      liveOrders := b.liveOrders }
    return { g with truth := some (rows ++ [row]) }

/-- One `R` per locate, then one `H` per locate. -/
def directories (g : Generator) : List ℕ → Exec Generator
  | [] => return g
  | li :: lis => do
    let (h, g) ← g.hdr li
    let stock := (← index g.locs li).stock
    let g ← g.write fun out => stockDirectory out h stock
    let g ← g.record li
    directories g lis

def actions (g : Generator) : List ℕ → Exec Generator
  | [] => return g
  | li :: lis => do
    let (h, g) ← g.hdr li
    let stock := (← index g.locs li).stock
    let g ← g.write fun out => tradingAction out h stock 84
    let g ← g.record li
    actions g lis

def header (g : Generator) : Exec Generator := do
  let g ← g.systemEvent 79
  let g ← g.systemEvent 83
  let g ← g.directories (List.range g.locs.length)
  g.actions (List.range g.locs.length)

def drawKind (g : Generator) : Kind × Generator :=
  let (u, rng) := g.rng.unit
  (((Kind.all.zip g.cum).find? fun p => u < p.2).elim .l Prod.fst, { g with rng })

def takeRef (g : Generator) : Exec (OrderId × Generator) := do
  return (.ofNat g.nextRef, { g with nextRef := ← addU64 g.nextRef 1 })

def takeMatch (g : Generator) : Exec (UInt64 × Generator) := do
  return (.ofNat g.nextMatch, { g with nextMatch := ← addU64 g.nextMatch 1 })

def qty (g : Generator) : Exec (ℕ × Generator) := do
  let (round, g) ← g.randomBool roundLotProb
  if round then
    let (n, g) ← g.randomRange 1 11
    return (100 * n, g)
  g.randomRange 1 500

/-- Heads in a row, at most `left` more. -/
def offsetLoop (g : Generator) : ℕ → ℕ → Exec (ℕ × Generator)
  | 0, k => return (k, g)
  | left + 1, k => do
    let (more, g) ← g.randomBool (1 / 2)
    if more then offsetLoop g left (k + 1) else return (k, g)

def offsetTicks (g : Generator) : Exec (ℕ × Generator) := g.offsetLoop maxOffsetTicks 0

def crossingAllowed (g : Generator) : Bool :=
  g.cfg.crossedPreopen && decide (g.ts < g.cfg.openNs.toNat)

/-- How far a price may cross: nothing, or one to three ticks. -/
def drawCross (g : Generator) (tick : ℤ) : Exec (ℤ × Generator) := do
  if g.crossingAllowed then
    let (hit, g) ← g.randomBool crossProb
    if hit then
      let (n, g) ← g.randomRange 1 4
      return (← fitI32 (tick * n), g)
    return (0, g)
  return (0, g)

/-- The price, behind the offset and the cross it was made with. -/
def priceFor (g : Generator) (li : ℕ) (side : Side) : Exec ((ℕ × ℤ × ℤ) × Generator) := do
  let crossedOk := g.crossingAllowed
  let (offset, g) ← g.offsetTicks
  let l ← index g.locs li
  let bestBid ← l.book.bestBid
  let bestAsk ← l.book.bestAsk
  let (cross, g) ← g.drawCross l.tick
  let px ← l.price side crossedOk offset cross bestBid bestAsk
  return ((offset, cross, px), g)

def walkMid (g : Generator) (li : ℕ) : Exec Generator := do
  let (up, g) ← g.randomBool midStepProb
  let (down, g) ← g.randomBool midStepProb
  let l ← index g.locs li
  let step : ℤ := (if up then 1 else 0) - (if down then 1 else 0)
  let mid ← fitI32 (l.mid + step * l.tick)
  return g.setLocate li { l with mid := min (max mid (2 * l.tick)) (maxPrice / 2) }

def drawSide (g : Generator) : Exec (Side × Generator) := do
  let (bid, g) ← g.randomBool (1 / 2)
  return (if bid then .bid else .ask, g)

/-- The draws of an add. -/
def drawOrder (g : Generator) (li : ℕ) : Exec (Draft × Generator) := do
  let (side, g) ← g.drawSide
  let (placeholder, g) ← g.randomBool (g.cfg.placeholderRate.getD 0)
  if placeholder then
    let px := match side with
      | .bid => placeholderBid
      | .ask => placeholderAsk
    let (qty, g) ← g.qty
    return (⟨side, true, 0, 0, px, qty⟩, g)
  let g ← g.walkMid li
  let ((offset, cross, px), g) ← g.priceFor li side
  let (qty, g) ← g.qty
  return (⟨side, false, offset, cross, px, qty⟩, g)

def add (g : Generator) (li : ℕ) (withMpid : Bool) : Exec Generator := do
  let (d, g) ← g.drawOrder li
  let (id, g) ← g.takeRef
  let (h, g) ← g.hdr li
  let l ← index g.locs li
  let px ← unsigned d.px
  let g ← g.write fun out =>
    if withMpid then addOrderMpid out h id (sideByte d.side) (.ofNat d.qty) l.stock px mpidName
    else addOrder out h id (sideByte d.side) (.ofNat d.qty) l.stock px
  let book ← l.book.add id d.side d.px d.qty
  let g := g.setLocate li ({ l with book }.trackAdd id)
  g.record li

def pickLive (g : Generator) (li : ℕ) : Exec (Option OrderId × Generator) := do
  let l ← index g.locs li
  if l.live.isEmpty then return (none, g)
  let (i, g) ← g.randomRange 0 l.live.length
  return (some (← index l.live i), g)

/-- The draws of `maybe_unknown`: a dead reference and a quantity, or none. -/
def drawUnknown (g : Generator) (li : ℕ) : Exec (Option (OrderId × ℕ) × Generator) := do
  let l ← index g.locs li
  if !g.keepDead || l.dead.isEmpty then return (none, g)
  let (hit, g) ← g.randomBool (g.cfg.unknownRefRate.getD 0)
  if !hit then return (none, g)
  let (i, g) ← g.randomRange 0 l.dead.length
  let id ← index l.dead i
  let (qty, g) ← g.qty
  return (some (id, qty), g)

/-- The message for a dead reference. -/
def writeUnknown (g : Generator) (li : ℕ) (kind : Kind) (h : Header) (id : OrderId) (qty : ℕ) :
    Exec Generator := do
  let mid := (← index g.locs li).mid
  match kind with
  | .d => g.write fun out => orderDelete out h id
  | .x => g.write fun out => orderCancel out h id (.ofNat qty)
  | .u => do
    let (new, g) ← g.takeRef
    let px ← unsigned mid
    g.write fun out => orderReplace out h id new (.ofNat qty) px
  | .e => do
    let (m, g) ← g.takeMatch
    g.write fun out => orderExecuted out h id (.ofNat qty) m
  | _ => do
    let (m, g) ← g.takeMatch
    let px ← unsigned mid
    g.write fun out => orderExecutedWithPrice out h id (.ofNat qty) m 89 px

def maybeUnknown (g : Generator) (li : ℕ) (kind : Kind) : Exec (Bool × Generator) := do
  let (target, g) ← g.drawUnknown li
  match target with
  | none => return (false, g)
  | some (id, qty) =>
    let (h, g) ← g.hdr li
    let g ← g.writeUnknown li kind h id qty
    return (true, ← g.record li)

def removeLive (g : Generator) (li : ℕ) (id : OrderId) : Exec Generator := do
  let l ← index g.locs li
  let (found, book) ← l.book.delete id
  ensure found
  return g.setLocate li (← { l with book }.trackRemove id g.keepDead)

def delete (g : Generator) (li : ℕ) : Exec Generator := do
  let (id, g) ← g.pickLive li
  match id with
  | none => g.add li false
  | some id =>
    let (h, g) ← g.hdr li
    let g ← g.write fun out => orderDelete out h id
    let g ← g.removeLive li id
    g.record li

def cancel (g : Generator) (li : ℕ) : Exec Generator := do
  let (id, g) ← g.pickLive li
  match id with
  | none => g.add li false
  | some id =>
    let l ← index g.locs li
    let rem ← expect (l.book.qty id)
    if rem ≤ 1 then
      let (h, g) ← g.hdr li
      let g ← g.write fun out => orderDelete out h id
      let g ← g.removeLive li id
      g.record li
    else
      let (k, g) ← g.randomRange 1 rem
      let (h, g) ← g.hdr li
      let g ← g.write fun out => orderCancel out h id (.ofNat k)
      let (found, book) ← l.book.reduce id k
      ensure found
      let g := g.setLocate li { l with book }
      g.record li

/-- The draws of a replace. -/
def drawReplacement (g : Generator) (li : ℕ) (old : OrderId) : Exec (Draft × Generator) := do
  let l ← index g.locs li
  let (side, _) ← expect (l.book.lookup old)
  let ((offset, cross, px), g) ← g.priceFor li side
  let (qty, g) ← g.qty
  return (⟨side, false, offset, cross, px, qty⟩, g)

def replace (g : Generator) (li : ℕ) : Exec Generator := do
  let (old, g) ← g.pickLive li
  match old with
  | none => g.add li false
  | some old =>
    let (d, g) ← g.drawReplacement li old
    let (new, g) ← g.takeRef
    let (h, g) ← g.hdr li
    let px ← unsigned d.px
    let g ← g.write fun out => orderReplace out h old new (.ofNat d.qty) px
    let l ← index g.locs li
    let (found, book) ← l.book.replace old new d.px d.qty
    ensure found
    let l ← { l with book }.trackRemove old g.keepDead
    let g := g.setLocate li (l.trackAdd new)
    g.record li

def executeKnown (g : Generator) (li : ℕ) (id : OrderId) (q : ℕ) (withPrice : Bool) :
    Exec Generator := do
  let (m, g) ← g.takeMatch
  let (h, g) ← g.hdr li
  let l ← index g.locs li
  let g ← if withPrice then do
      let (_, px) ← expect (l.book.lookup id)
      let (yes, g) ← g.randomBool (1 / 2)
      let px ← unsigned px
      g.write fun out =>
        orderExecutedWithPrice out h id (.ofNat q) m (if yes then 89 else 78) px
    else g.write fun out => orderExecuted out h id (.ofNat q) m
  let (found, book) ← l.book.reduce id q
  ensure found
  let l := { l with book }
  let l ← if book.lookup id = none then l.trackRemove id g.keepDead else pure l
  let g := g.setLocate li l
  g.record li

/-- The head that an execution on the first side, or else the other, would hit. -/
def headFor (l : Locate) (first : Side) : Option (OrderId × ℕ) :=
  (l.book.headOfBest first).orElse fun _ => l.book.headOfBest first.opposite

def execute (g : Generator) (li : ℕ) (withPrice : Bool) : Exec Generator := do
  let (first, g) ← g.drawSide
  match headFor (← index g.locs li) first with
  | none => g.add li false
  | some (id, rem) =>
    let (q, g) ← g.randomRange 1 (rem + 1)
    g.executeKnown li id q withPrice

def trade (g : Generator) (li : ℕ) : Exec Generator := do
  let (qty, g) ← g.qty
  let (m, g) ← g.takeMatch
  let (h, g) ← g.hdr li
  let l ← index g.locs li
  let px ← unsigned ((← l.book.bestBid).elim l.mid Prod.fst)
  let g ← g.write fun out => Writers.trade out h (.ofNat qty) l.stock px m
  g.record li

def mpid (g : Generator) (li : ℕ) : Exec Generator := do
  let (h, g) ← g.hdr li
  let stock := (← index g.locs li).stock
  let g ← g.write fun out => mpidPosition out h mpidName stock
  g.record li

def step (g : Generator) : Exec Generator := do
  let (li, g) ← g.randomRange 0 g.locs.length
  let (kind, g) := g.drawKind
  match kind with
  | .a => g.add li false
  | .f => g.add li true
  | .p => g.trade li
  | .l => g.mpid li
  | kind =>
    let (hit, g) ← g.maybeUnknown li kind
    if hit then return g
    match kind with
    | .d => g.delete li
    | .x => g.cancel li
    | .u => g.replace li
    | kind => g.execute li (kind = .c)

/-- The rounds of the uncross on one locate. The answer tells whether the budget ran out. -/
def uncross (li budget : ℕ) : ℕ → ℕ → Generator → Exec (Bool × ℕ × Generator)
  | 0, _, _ => .error .unfinished
  | fuel + 1, n, g => do
    let b := (← index g.locs li).book
    let bestBid ← b.bestBid
    let bestAsk ← b.bestAsk
    match bestBid, bestAsk with
    | some (bb, _), some (ba, _) =>
      if bb < ba then return (false, n, g)
      let (hb, qb) ← expect (b.headOfBest .bid)
      let (ha, qa) ← expect (b.headOfBest .ask)
      let q := min qb qa
      if budget ≤ n then return (true, n, g)
      let g ← g.executeKnown li hb q false
      if budget ≤ n + 1 then return (true, n + 1, g)
      let g ← g.executeKnown li ha q false
      uncross li budget fuel (n + 2) g
    | _, _ => return (false, n, g)

/-- The locates one after the other, until the budget runs out. -/
def uncrossAll (budget : ℕ) : List ℕ → ℕ → Generator → Exec (ℕ × Generator)
  | [], n, g => return (n, g)
  | li :: lis, n, g => do
    let (spent, n, g) ← uncross li budget (budget + 1) n g
    if spent then return (n, g)
    uncrossAll budget lis n g

def openMarket (g : Generator) (budget : ℕ) : Exec (ℕ × Generator) := do
  let (n, g) ← uncrossAll budget (List.range g.locs.length) 0 g
  return (n, ← g.systemEvent 81)

end Generator

/-- The state of the loop over the mix. -/
structure Mix where
  g : Generator
  emitted : ℕ
  qDone : Bool

/-- A round of the loop up to its step: the clock, and the opening when it is due. -/
def Mix.ready (m : Mix) (budget gapMax : ℕ) : Exec Mix := do
  let g ← m.g.advanceClock gapMax
  if !m.qDone && decide (g.cfg.openNs.toNat ≤ g.ts) then
    let left ← subU budget m.emitted
    let (n, g') ← Generator.openMarket { g with ts := g.cfg.openNs.toNat } left
    return ⟨{ g' with ts := g.ts }, ← addU64 m.emitted n, true⟩
  return { m with g }

def Mix.loop (budget gapMax : ℕ) : ℕ → Mix → Exec Mix
  | 0, m => if m.emitted < budget then .error .unfinished else return m
  | fuel + 1, m =>
    if m.emitted < budget then do
      let m ← m.ready budget gapMax
      if budget ≤ m.emitted then return m
      let g ← m.g.step
      Mix.loop budget gapMax fuel ⟨g, m.emitted + 1, m.qDone⟩
    else return m

namespace Generator

/-- The clock before the header. -/
def start (g : Generator) : Exec Generator := do
  let span ← subU g.cfg.closeNs.toNat g.cfg.openNs.toNat
  return { g with ts := g.cfg.openNs.toNat - span / 8 }

def mixBudget (g : Generator) (nMsgs : ℕ) : Exec ℕ :=
  subU nMsgs (2 + 2 * g.cfg.locates.toNat + 1 + 3)

/-- Twice the mean gap that fills the time up to the close. -/
def gapMax (g : Generator) (t0 budget : ℕ) : Exec ℕ := do
  let rest ← subU g.cfg.closeNs.toNat t0
  if budget = 0 then return 0
  addU64 (rest / budget) (rest / budget)

/-- What follows the mix: the opening event if it is still due, and the close. -/
def trailer (m : Mix) : Exec Generator := do
  let g ← if m.qDone then pure m.g else
    systemEvent { m.g with ts := max m.g.ts m.g.cfg.openNs.toNat } 81
  let g := { g with ts := g.cfg.closeNs.toNat }
  let g ← g.systemEvent 77
  let g ← g.systemEvent 69
  g.systemEvent 67

def run (g : Generator) (nMsgs : ℕ) : Exec SynthDay := do
  let budget ← g.mixBudget nMsgs
  let g ← g.start
  let t0 := g.ts
  let g ← g.header
  let gapMax ← g.gapMax t0 budget
  let m ← Mix.loop budget gapMax budget ⟨g, 0, false⟩
  let g ← trailer m
  ensure (∀ rows ∈ g.truth, rows.length = nMsgs)
  return ⟨g.out, g.truth.getD []⟩

end Generator

/-- The day of a sequence of draws. -/
def synthItch (fl : Floats) (rng : Rng) (nMsgs : ℕ) (cfg : SynthConfig) : Exec SynthDay := do
  let g ← Generator.new fl rng cfg true nMsgs
  g.run nMsgs

/-- The same bytes without the truth. -/
def synthItchBytes (fl : Floats) (rng : Rng) (nMsgs : ℕ) (cfg : SynthConfig) : Exec Bytes := do
  let g ← Generator.new fl rng cfg false nMsgs
  return (← g.run nMsgs).bytes

end Lobcore.Generators
