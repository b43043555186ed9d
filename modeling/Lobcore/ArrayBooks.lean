import Lobcore.PriceLevels

/-!
The bounded-array book (`book.rs`): price levels by tick offset, orders in a slab with
intrusive links, and an id map. Every operation validates its arguments before the first
mutation. Loops over links run on a bound of one step for each slot and one more.
-/
namespace Lobcore.ArrayBooks

open Checked OrderTypes SortedMaps OrderSlab Bitmaps PriceLevels

structure ArrayBook where
  grid : Grid
  bids : SideLevels
  asks : SideLevels
  slab : Slab
  ids : IdMap
  deriving DecidableEq

/-- Append `slot` to the tail of the level at `locus`. -/
def linkTail (sl : SideLevels) (slab : Slab) (locus : Locus) (slot : ℕ) :
    Exec (SideLevels × Slab) := do
  let s ← slab.get slot
  let (lvl, sl) ← sl.getOrInsert locus
  let head := if lvl.tail = nilSlot then slot else lvl.head
  let qty ← addU32 lvl.qty s.qty
  let count ← addU32 lvl.count 1
  let sl ← sl.put locus ⟨head, slot, qty, count⟩
  let slab ← if lvl.tail ≠ nilSlot then do
      let slab ← slab.modify lvl.tail fun t => { t with next := slot }
      slab.modify slot fun t => { t with prev := lvl.tail }
    else pure slab
  let sl ← sl.afterCountChange locus lvl.count
  return (sl, slab)

/-- `slots[i].next = next`, unless `i` is the terminator. -/
def setNext (slab : Slab) (i next : ℕ) : Exec Slab :=
  if i ≠ nilSlot then slab.modify i fun t => { t with next } else .ok slab

/-- `slots[i].prev = prev`, unless `i` is the terminator. -/
def setPrev (slab : Slab) (i prev : ℕ) : Exec Slab :=
  if i ≠ nilSlot then slab.modify i fun t => { t with prev } else .ok slab

/-- Unlink `slot` from the level at `locus` and free it; its neighbours are joined first. -/
def unlink (sl : SideLevels) (slab : Slab) (locus : Locus) (slot : ℕ) :
    Exec (SideLevels × Slab) := do
  let s ← slab.get slot
  let lvl ← sl.getMut locus
  let head := if s.prev = nilSlot then s.next else lvl.head
  let tail := if s.next = nilSlot then s.prev else lvl.tail
  let qty ← subU lvl.qty s.qty
  let count ← subU lvl.count 1
  let sl ← sl.put locus ⟨head, tail, qty, count⟩
  let slab ← setNext slab s.prev s.next
  let slab ← setPrev slab s.next s.prev
  let sl ← sl.afterCountChange locus lvl.count
  let slab ← slab.free slot
  return (sl, slab)

/-- Reduce `slot` in place by less than its quantity. -/
def reduce (sl : SideLevels) (slab : Slab) (locus : Locus) (slot amount : ℕ) :
    Exec (SideLevels × Slab) := do
  let lvl ← sl.getMut locus
  let qty ← subU lvl.qty amount
  let sl ← sl.put locus { lvl with qty }
  let s ← slab.get slot
  let rest ← subU s.qty amount
  let slab ← slab.modify slot fun t => { t with qty := rest }
  return (sl, slab)

namespace ArrayBook

/-- Stops on an invalid config. -/
def new (cfg : BookConfig) : Exec ArrayBook := do
  ensure (1 ≤ cfg.nLevels ∧ cfg.nLevels ≤ maxLevels)
  ensure (0 < cfg.tick)
  ensure (0 < cfg.basePx)
  ensure (cfg.basePx + (cfg.nLevels - 1) * cfg.tick ≤ 2 ^ 31 - 1)
  let bids ← SideLevels.new .bid cfg.nLevels
  let asks ← SideLevels.new .ask cfg.nLevels
  return ⟨⟨cfg.basePx, cfg.nLevels, cfg.tick⟩, bids, asks, .new, .empty⟩

/-- Pre-size the slab and the id map; the map is reserved at twice the orders. -/
def reserve (b : ArrayBook) (orders : ℕ) : Exec ArrayBook := do
  let slab ← b.slab.reserve orders
  let ids ← reserveIds b.ids (min (orders * 2) usizeMax)
  return { b with slab, ids }

/-- `new` plus `reserve`. -/
def withCapacity (cfg : BookConfig) (orders : ℕ) : Exec ArrayBook := do
  let b ← new cfg
  b.reserve orders

def config (b : ArrayBook) : BookConfig := ⟨b.grid.basePx, b.grid.nLevels, b.grid.tick⟩

/-- Adds routed to the overflow map, both sides. -/
def overflowHits (b : ArrayBook) : ℕ := b.bids.overflowHits + b.asks.overflowHits

/-- Largest tick offset seen on any add, both sides. -/
def maxAbsOffset (b : ArrayBook) : ℤ := max b.bids.maxAbsOffset b.asks.maxAbsOffset

def side (b : ArrayBook) : Side → SideLevels
  | .bid => b.bids
  | .ask => b.asks

def withSide (b : ArrayBook) (s : Side) (sl : SideLevels) : ArrayBook :=
  match s with
  | .bid => { b with bids := sl }
  | .ask => { b with asks := sl }

/-- The book after a call has written one side, the slab and the id map. -/
def withParts (b : ArrayBook) (s : Side) (sl : SideLevels) (slab : Slab) (ids : IdMap) :
    ArrayBook := { b.withSide s sl with slab, ids }

/-- Shared body of cancel, execute and delete: remove `amount`, unlinking at zero. -/
def take (b : ArrayBook) (slot : ℕ) (s : Slot) (amount : ℕ) : Exec (ℕ × ArrayBook) := do
  let px ← s.absPx
  let locus := b.grid.locate px
  let remaining ← subU s.qty amount
  if remaining = 0 then
    let (sl, slab) ← unlink (b.side s.side) b.slab locus slot
    return (remaining, b.withParts s.side sl slab (b.ids.erase s.id))
  else
    let (sl, slab) ← reduce (b.side s.side) b.slab locus slot amount
    return (remaining, b.withParts s.side sl slab b.ids)

/-- Whether the level at `locus` has no room for `qty` more. -/
def levelFull (sl : SideLevels) (locus : Locus) (qty : ℕ) : Exec Bool := do
  match ← sl.get locus with
  | some l => return 2 ^ 32 ≤ l.qty + qty
  | none => return false

def add (b : ArrayBook) (id : OrderId) (s : Side) (px : ℤ) (qty : ℕ) :
    Exec (Reply × ArrayBook) := do
  if qty = 0 then return (.error .badQty, b)
  if px ≤ 0 then return (.error .badPrice, b)
  let locus := b.grid.locate px
  if ← levelFull (b.side s) locus qty then return (.error .badQty, b)
  if b.ids.contains id then return (.error (.duplicateId id), b)
  let signed ← Slot.signedPx s px
  let (slot, slab) ← b.slab.alloc id qty signed
  let ids := b.ids.insert id slot
  let sl := (b.side s).noteAdd b.grid locus px
  let (sl, slab) ← linkTail sl slab locus slot
  return (.ok (.add id s px qty), b.withParts s sl slab ids)

def cancel (b : ArrayBook) (id : OrderId) (qty : ℕ) : Exec (Reply × ArrayBook) :=
  match b.ids.get? id with
  | none => return (.error (.unknownId .cancel id), b)
  | some slot => do
    if qty = 0 then return (.error .badQty, b)
    let s ← b.slab.get slot
    let removed := min qty s.qty
    let (remaining, b) ← b.take slot s removed
    return (.ok (.cancel id s.side (← s.absPx) removed remaining), b)

def delete (b : ArrayBook) (id : OrderId) : Exec (Reply × ArrayBook) :=
  match b.ids.get? id with
  | none => return (.error (.unknownId .delete id), b)
  | some slot => do
    let s ← b.slab.get slot
    let (_, b) ← b.take slot s s.qty
    return (.ok (.delete id s.side (← s.absPx) s.qty), b)

def execute (b : ArrayBook) (id : OrderId) (qty : ℕ) : Exec (Reply × ArrayBook) :=
  match b.ids.get? id with
  | none => return (.error (.unknownId .exec id), b)
  | some slot => do
    if qty = 0 then return (.error .badQty, b)
    let s ← b.slab.get slot
    if s.qty < qty then return (.error (.overExecute id s.qty qty), b)
    let (remaining, b) ← b.take slot s qty
    return (.ok (.exec id s.side (← s.absPx) qty remaining), b)

/-- Quantity already at the level a replacement goes to, without the replaced order. -/
def existing (sl : SideLevels) (oldLocus newLocus : Locus) (held : ℕ) : Exec ℕ :=
  if newLocus = oldLocus then do
    let l ← sl.get oldLocus
    subU (l.elim 0 Level.qty) held
  else do
    let l ← sl.get newLocus
    return l.elim 0 Level.qty

def replace (b : ArrayBook) (old new : OrderId) (px : ℤ) (qty : ℕ) :
    Exec (Reply × ArrayBook) :=
  match b.ids.get? old with
  | none => return (.error (.unknownId .replace old), b)
  | some slot => do
    if b.ids.contains new then return (.error (.duplicateId new), b)
    if qty = 0 then return (.error .badQty, b)
    if px ≤ 0 then return (.error .badPrice, b)
    let s ← b.slab.get slot
    let oldLocus := b.grid.locate (← s.absPx)
    let newLocus := b.grid.locate px
    let there ← existing (b.side s.side) oldLocus newLocus s.qty
    if 2 ^ 32 ≤ there + qty then return (.error .badQty, b)
    let sl := (b.side s.side).noteAdd b.grid newLocus px
    let ids := b.ids.erase old
    let (sl, slab) ← unlink sl b.slab oldLocus slot
    let signed ← Slot.signedPx s.side px
    let (fresh, slab) ← slab.alloc new qty signed
    let ids ← insertFresh ids new fresh
    let (sl, slab) ← linkTail sl slab newLocus fresh
    return (.ok (.replace old new s.side px qty), b.withParts s.side sl slab ids)

def apply (b : ArrayBook) : Op → Exec (Reply × ArrayBook)
  | .add id s px qty => b.add id s px.toInt qty.toNat
  | .cancel id qty => b.cancel id qty.toNat
  | .execute id qty => b.execute id qty.toNat
  | .delete id => b.delete id
  | .replace old new px qty => b.replace old new px.toInt qty.toNat

/-! Read calls. -/

def levelView (px : ℤ) (l : Level) : LevelView := (px, l.qty, l.count)

def fifoLoop (slab : Slab) : ℕ → ℕ → Exec Queue
  | 0, _ => .error .unfinished
  | fuel + 1, i =>
    if i = nilSlot then return []
    else do
      let s ← slab.get i
      return (s.id, s.qty) :: (← fifoLoop slab fuel s.next)

def fifo (b : ArrayBook) (l : Level) : Exec Queue :=
  fifoLoop b.slab (b.slab.slots.length + 1) l.head

def best (b : ArrayBook) (s : Side) : Exec (Option LevelView) := do
  let o ← (b.side s).best b.grid
  return o.map fun e => levelView e.1 e.2

def l1 (b : ArrayBook) : Exec (Option LevelView × Option LevelView) := do
  return (← b.best .bid, ← b.best .ask)

def depth (b : ArrayBook) (s : Side) (d : ℕ) : Exec (List LevelView) := do
  let es ← (b.side s).bestFirstTake b.grid d
  return es.map fun e => levelView e.1 e.2

def l2 (b : ArrayBook) (d : ℕ) : Exec (List LevelView × List LevelView) := do
  return (← b.depth .bid d, ← b.depth .ask d)

def aheadLoop (slab : Slab) (slot : ℕ) : ℕ → ℕ → ℕ → Exec ℕ
  | 0, _, _ => .error .unfinished
  | fuel + 1, ahead, i =>
    if i = slot then return ahead
    else do
      ensure (i ≠ nilSlot)
      let o ← slab.get i
      let ahead ← addU32 ahead o.qty
      aheadLoop slab slot fuel ahead o.next

def queueAhead (b : ArrayBook) (id : OrderId) : Exec (Option ℕ) :=
  match b.ids.get? id with
  | none => return none
  | some slot => do
    let s ← b.slab.get slot
    let locus := b.grid.locate (← s.absPx)
    match ← (b.side s.side).get locus with
    | none => return none
    | some lvl => some <$> aheadLoop b.slab slot (b.slab.slots.length + 1) 0 lvl.head

def liveOrders (b : ArrayBook) : ℕ := b.slab.live

def levelBytes (b : ArrayBook) (e : ℤ × Level) : Exec (List UInt8) := do
  return hashLevel e.1 e.2.count (← b.fifo e.2)

def sideBytes (b : ArrayBook) (s : Side) : Exec (List UInt8) := do
  let es ← (b.side s).ascending b.grid
  return (← es.mapM b.levelBytes).flatten

/-- The bytes fed to the state hash. -/
def stateBytes (b : ArrayBook) : Exec (List UInt8) := do
  return (← b.sideBytes .bid) ++ (← b.sideBytes .ask)

def sideSnapshot (b : ArrayBook) (s : Side) : Exec Snapshot := do
  let es ← (b.side s).bestFirst b.grid
  es.mapM fun e => do return ((b.side s).side, e.1, ← b.fifo e.2)

def snapshot (b : ArrayBook) : Exec Snapshot := do
  return (← b.sideSnapshot .bid) ++ (← b.sideSnapshot .ask)

/-! The consistency check. -/

/-- The walk along one level: number of orders, their quantity and the last slot. -/
def checkLoop (b : ArrayBook) (side : Side) (px : ℤ) :
    ℕ → ℕ → ℕ → ℕ → ℕ → Exec (Except Violation (ℕ × ℕ × ℕ))
  | 0, _, _, _, _ => .error .unfinished
  | fuel + 1, n, qty, i, prev =>
    if i = nilSlot then return .ok (n, qty, prev)
    else if b.slab.capacity < n + 1 then return .error (.fifoCycle side px)
    else do
      let s ← b.slab.get i
      if s.prev ≠ prev then return .error (.prevLink side px i s.prev prev)
      let at' ← s.absPx
      if s.side ≠ side ∨ at' ≠ px then return .error (.misplaced side px i)
      if s.qty = 0 then return .error (.zeroQty side px i)
      if b.ids.get? s.id ≠ some i then return .error (.unmapped side px i s.id)
      let qty ← addU64 qty s.qty
      b.checkLoop side px fuel (n + 1) qty s.next i

/-- One level against its queue; the number of orders found. -/
def checkLevel (b : ArrayBook) (side : Side) (px : ℤ) (l : Level) : Exec (Except Violation ℕ) := do
  match ← b.checkLoop side px (b.slab.capacity + 2) 0 0 l.head nilSlot with
  | .error v => return .error v
  | .ok (n, qty, last) =>
    if last ≠ l.tail then return .error (.tailLink side px l.tail last)
    if n % 2 ^ 32 ≠ l.count then return .error (.levelCount side px l.count n)
    if qty ≠ l.qty then return .error (.levelQty side px l.qty qty)
    return .ok n

/-- `sums[side] += qty`. -/
def addTo (sums : ℕ × ℕ) (side : Side) (qty : ℕ) : Exec (ℕ × ℕ) :=
  match side with
  | .bid => do return (← addU64 sums.1 qty, sums.2)
  | .ask => do return (sums.1, ← addU64 sums.2 qty)

/-- The array levels of a side, from index `i` on. -/
def checkArray (b : ArrayBook) (sl : SideLevels) :
    List Level → ℕ → ℕ → ℕ × ℕ → Exec (Except Violation (ℕ × ℕ × ℕ))
  | [], _, seen, sums => return .ok (seen, sums)
  | l :: ls, i, seen, sums => do
    let bit ← sl.bitmap.isSet i
    if bit ≠ decide (0 < l.count) then return .error (.bitCount sl.side i bit l.count)
    let px ← b.grid.pxOf i
    match ← b.checkLevel sl.side px l with
    | .error v => return .error v
    | .ok n => checkArray b sl ls (i + 1) (seen + n) (← addTo sums sl.side l.qty)

/-- The summary bits of the bitmap, from word `w` on. -/
def checkSummary (sl : SideLevels) : List Word → ℕ → Exec (Except Violation Unit)
  | [], _ => return .ok ()
  | word :: words, w => do
    let shifted ← shr sl.bitmap.summary w
    if decide (shifted &&& 1#64 = 1#64) ≠ decide (word ≠ 0#64) then
      return .error (.summary sl.side w)
    checkSummary sl words (w + 1)

/-- The overflow entries of a side. -/
def checkOverflow (b : ArrayBook) (sl : SideLevels) :
    List (ℤ × Level) → ℕ → ℕ × ℕ → Exec (Except Violation (ℕ × ℕ × ℕ))
  | [], seen, sums => return .ok (seen, sums)
  | (px, l) :: es, seen, sums => do
    if l.count = 0 then return .error (.emptyOverflow sl.side px)
    if b.grid.locate px ≠ .overflow px then return .error (.inRangeOverflow sl.side px)
    match ← b.checkLevel sl.side px l with
    | .error v => return .error v
    | .ok n => checkOverflow b sl es (seen + n) (← addTo sums sl.side l.qty)

def checkSide (b : ArrayBook) (sl : SideLevels) (seen : ℕ) (sums : ℕ × ℕ) :
    Exec (Except Violation (ℕ × ℕ × ℕ)) := do
  match ← b.checkArray sl sl.levels 0 seen sums with
  | .error v => return .error v
  | .ok (seen, sums) => do
    match ← checkSummary sl sl.bitmap.words 0 with
    | .error v => return .error v
    | .ok () => b.checkOverflow sl sl.overflow.entries seen sums

/-- The id map; the source visits it in hash order. -/
def checkIds (b : ArrayBook) : List (OrderId × ℕ) → ℕ × ℕ → Exec (Except Violation (ℕ × ℕ))
  | [], sums => return .ok sums
  | (id, slot) :: es, sums => do
    let s ← b.slab.get slot
    if s.id ≠ id then return .error (.idSlot id slot s.id)
    if s.qty = 0 then return .error (.zeroOrder id)
    checkIds b es (← addTo sums s.side s.qty)

/-- The totals: linked orders, live slots, ids, free slots and capacity. -/
def checkTotals (b : ArrayBook) (seen : ℕ) : Exec (Except Violation Unit) := do
  if seen ≠ b.slab.live ∨ b.ids.length ≠ b.slab.live then
    return .error (.liveCount seen b.slab.live b.ids.length)
  match ← b.slab.freeLen with
  | .error v => return .error v
  | .ok free =>
    if b.slab.live + free ≠ b.slab.capacity then
      return .error (.capacity b.slab.live free b.slab.capacity)
    return .ok ()

/-- Verify the representation; the error is the first violation. -/
def check (b : ArrayBook) : Exec (Except Violation Unit) := do
  match ← b.checkSide b.bids 0 (0, 0) with
  | .error v => return .error v
  | .ok (seen, sums) => do
    match ← b.checkSide b.asks seen sums with
    | .error v => return .error v
    | .ok (seen, sums) => do
      match ← b.checkTotals seen with
      | .error v => return .error v
      | .ok () => do
        match ← b.checkIds b.ids.entries (0, 0) with
        | .error v => return .error v
        | .ok orders =>
          if sums ≠ orders then return .error (.sideSums sums orders)
          return .ok ()

end ArrayBook

end Lobcore.ArrayBooks
