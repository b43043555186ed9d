import Lobcore.Bitmaps
import Lobcore.OrderSlab

/-!
One side of the array book (`levels.rs`): levels in an array indexed by tick offset with
the occupancy bitmap, and a sorted map for every other price. Walking the levels best
first merges the bitmap order with the map order.
-/
namespace Lobcore.PriceLevels

open Checked OrderTypes SortedMaps OrderSlab Bitmaps

structure Level where
  head : ℕ
  tail : ℕ
  qty : ℕ
  count : ℕ
  deriving DecidableEq, Repr

def Level.empty : Level := ⟨nilSlot, nilSlot, 0, 0⟩

/-- Where a public price lands. -/
inductive Locus where
  | inRange (i : ℕ)
  | overflow (px : ℤ)
  deriving DecidableEq, Repr

structure Grid where
  basePx : ℤ
  nLevels : ℕ
  tick : ℤ
  deriving DecidableEq, Repr

namespace Grid

def locate (g : Grid) (px : ℤ) : Locus :=
  let d := px - g.basePx
  if 0 ≤ d ∧ d % g.tick = 0 ∧ d / g.tick < g.nLevels then .inRange (d / g.tick).toNat
  else .overflow px

/-- Signed tick offset, division toward zero. -/
def offset (g : Grid) (px : ℤ) : ℤ := (px - g.basePx).tdiv g.tick

def pxOf (g : Grid) (i : ℕ) : Exec ℤ := do
  let up ← fitI32 (i * g.tick)
  fitI32 (g.basePx + up)

end Grid

structure SideLevels where
  side : Side
  levels : List Level
  bitmap : Bitmap
  overflow : SortedMap ℤ Level
  overflowHits : ℕ
  maxAbsOffset : ℤ
  deriving DecidableEq

namespace SideLevels

def new (side : Side) (nLevels : ℕ) : Exec SideLevels := do
  let bitmap ← Bitmap.new nLevels
  return ⟨side, List.replicate nLevels .empty, bitmap, .empty, 0, 0⟩

/-- Record the counters for an add at `px`. -/
def noteAdd (sl : SideLevels) (g : Grid) (locus : Locus) (px : ℤ) : SideLevels :=
  let off := |g.offset px|
  { sl with
    maxAbsOffset := if sl.maxAbsOffset < off then off else sl.maxAbsOffset
    overflowHits := match locus with
      | .inRange _ => sl.overflowHits
      | .overflow _ => sl.overflowHits + 1 }

/-- Existing level at `locus`, if any. -/
def get (sl : SideLevels) : Locus → Exec (Option Level)
  | .inRange i => some <$> index sl.levels i
  | .overflow px => .ok (sl.overflow.get? px)

/-- The level at `locus`, creating an empty overflow entry when needed. -/
def getOrInsert (sl : SideLevels) : Locus → Exec (Level × SideLevels)
  | .inRange i => do
    let l ← index sl.levels i
    return (l, sl)
  | .overflow px =>
    match sl.overflow.get? px with
    | some l => return (l, sl)
    | none => return (.empty, { sl with overflow := sl.overflow.insert px .empty })

/-- The level at `locus`, which the caller guarantees to exist. -/
def getMut (sl : SideLevels) : Locus → Exec Level
  | .inRange i => index sl.levels i
  | .overflow px => expect (sl.overflow.get? px)

/-- A write through the reference that `getOrInsert` or `getMut` returned. -/
def put (sl : SideLevels) (locus : Locus) (l : Level) : Exec SideLevels :=
  match locus with
  | .inRange i => do
    let levels ← store sl.levels i l
    return { sl with levels }
  | .overflow px => return { sl with overflow := sl.overflow.insert px l }

/-- Maintain the bitmap or the map after a level's count changed. -/
def afterCountChange (sl : SideLevels) (locus : Locus) (before : ℕ) : Exec SideLevels :=
  match locus with
  | .inRange i => do
    let now ← index sl.levels i
    if before = 0 ∧ 0 < now.count then
      let bitmap ← sl.bitmap.set i
      return { sl with bitmap }
    else if 0 < before ∧ now.count = 0 then
      let bitmap ← sl.bitmap.clear i
      return { sl with bitmap }
    else return sl
  | .overflow px =>
    match sl.overflow.get? px with
    | some l => return if l.count = 0 then { sl with overflow := sl.overflow.erase px } else sl
    | none => return sl

/-- First candidate of the array: the highest bid or the lowest ask of the bitmap. -/
def firstSet (sl : SideLevels) : Exec (Option ℕ) :=
  match sl.side with
  | .bid => sl.bitmap.max
  | .ask => sl.bitmap.min

/-- The occupied index after `i` in order of priority. -/
def advance (sl : SideLevels) (i : ℕ) : Exec (Option ℕ) :=
  match sl.side with
  | .bid => sl.bitmap.prevSet i
  | .ask => sl.bitmap.nextSet i

/-- Price and level of an array cursor. -/
def entryAt (sl : SideLevels) (g : Grid) : Option ℕ → Exec (Option (ℤ × Level))
  | none => return none
  | some i => do
    let px ← g.pxOf i
    let l ← index sl.levels i
    return some (px, l)

/-- Whether the overflow entry goes before the array entry. -/
def overflowFirst (sl : SideLevels) (a o : ℤ × Level) : Bool :=
  match sl.side with
  | .bid => a.1 < o.1
  | .ask => o.1 < a.1

/-- The overflow extreme: the highest bid or the lowest ask of the map. -/
def overflowBest (sl : SideLevels) : Option (ℤ × Level) :=
  match sl.side with
  | .bid => sl.overflow.entries.getLast?
  | .ask => sl.overflow.entries.head?

/-- Best price and level, comparing the array best with the overflow extreme. -/
def best (sl : SideLevels) (g : Grid) : Exec (Option (ℤ × Level)) := do
  let arr ← sl.entryAt g (← sl.firstSet)
  match arr, sl.overflowBest with
  | some a, some o => return if sl.overflowFirst a o then some o else some a
  | a, o => return a.or o

end SideLevels

/-- Merge iterator over array levels, by the bitmap, and overflow levels. -/
structure BestFirst where
  arrCursor : Option ℕ
  ovf : List (ℤ × Level)
  ovfPeek : Option (ℤ × Level)
  primed : Bool

namespace BestFirst

/-- Take from the back for bids and from the front for asks. -/
def pullOvf (it : BestFirst) (side : Side) : BestFirst :=
  match side with
  | .bid => { it with ovfPeek := it.ovf.getLast?, ovf := it.ovf.dropLast }
  | .ask => { it with ovfPeek := it.ovf.head?, ovf := it.ovf.tail }

/-- Pull the first overflow entry, once. -/
def prime (it : BestFirst) (side : Side) : BestFirst :=
  if it.primed then it else { it.pullOvf side with primed := true }

def next (it : BestFirst) (sl : SideLevels) (g : Grid) :
    Exec (Option (ℤ × Level) × BestFirst) := do
  let it := it.prime sl.side
  let arr ← sl.entryAt g it.arrCursor
  match arr, it.ovfPeek with
  | none, none => return (none, it)
  | none, some o => return (some o, it.pullOvf sl.side)
  | some a, none => do
    let i ← expect it.arrCursor
    return (some a, { it with arrCursor := ← sl.advance i })
  | some a, some o => do
    if sl.overflowFirst a o then return (some o, it.pullOvf sl.side)
    let i ← expect it.arrCursor
    return (some a, { it with arrCursor := ← sl.advance i })

/-- `collect()`. -/
def collect (sl : SideLevels) (g : Grid) : ℕ → BestFirst → Exec (List (ℤ × Level))
  | 0, _ => .error .unfinished
  | fuel + 1, it => do
    let (o, it) ← it.next sl g
    match o with
    | none => return []
    | some e => return e :: (← collect sl g fuel it)

/-- `take(depth).collect()`. -/
def collectTake (sl : SideLevels) (g : Grid) : ℕ → BestFirst → Exec (List (ℤ × Level))
  | 0, _ => return []
  | depth + 1, it => do
    let (o, it) ← it.next sl g
    match o with
    | none => return []
    | some e => return e :: (← collectTake sl g depth it)

end BestFirst

namespace SideLevels

def iterBestFirst (sl : SideLevels) : Exec BestFirst := do
  return ⟨← sl.firstSet, sl.overflow.entries, none, false⟩

/-- Non-empty levels, best first: at most every array level and every overflow entry. -/
def bestFirst (sl : SideLevels) (g : Grid) : Exec (List (ℤ × Level)) := do
  let it ← sl.iterBestFirst
  BestFirst.collect sl g (sl.levels.length + sl.overflow.length + 1) it

/-- The first `depth` levels, best first. -/
def bestFirstTake (sl : SideLevels) (g : Grid) (depth : ℕ) : Exec (List (ℤ × Level)) := do
  let it ← sl.iterBestFirst
  BestFirst.collectTake sl g depth it

/-- Non-empty levels, ascending price. -/
def ascending (sl : SideLevels) (g : Grid) : Exec (List (ℤ × Level)) :=
  match sl.side with
  | .ask => sl.bestFirst g
  | .bid => List.reverse <$> sl.bestFirst g

end SideLevels

end Lobcore.PriceLevels
