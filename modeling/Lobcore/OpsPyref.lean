import Lobcore.OpsFormat
import Lobcore.ReferenceBook

/-!
The reference book of the test fixtures (`ops_pyref.py`), a Python script that replays an
`ops.bin` file on dictionaries of deques. Its integers have no width; a missing key, a missing
order and a field that does not fit its format stop it. A side is the number that came with the
add: zero for bids, anything else for asks.
-/
namespace Lobcore.OpsPyref

open Checked OrderTypes SortedMaps Markets OpsFormat

/-- A record of the event log. -/
structure Entry where
  kind : ℕ
  a : ℕ
  b : ℕ
  px : ℤ
  qty : ℕ
  side : ℕ
  deriving DecidableEq, Repr

/-! The numbers of the kinds. -/

def ADD : ℕ := 1

def CANCEL : ℕ := 2

def EXEC : ℕ := 3

def DELETE : ℕ := 4

def REPLACE : ℕ := 5

def UNKNOWN : ℕ := 7

def REJECT : ℕ := 8

structure Book where
  bids : SortedMap ℤ Queue
  asks : SortedMap ℤ Queue
  ids : SortedMap OrderId (ℕ × ℤ)

namespace Book

def new : Book := ⟨.empty, .empty, .empty⟩

def side (b : Book) (s : ℕ) : SortedMap ℤ Queue := if s = 0 then b.bids else b.asks

def withSide (b : Book) (s : ℕ) (levels : SortedMap ℤ Queue) : Book :=
  if s = 0 then { b with bids := levels } else { b with asks := levels }

/-- Side, price, level, position and quantity of an order. -/
def find (b : Book) (oid : OrderId) : Exec (ℕ × ℤ × Queue × ℕ × ℕ) := do
  let (s, px) ← expect (b.ids.get? oid)
  let lvl ← expect ((b.side s).get? px)
  let (e, i) ← expect (lvl.zipIdx.find? fun p => p.1.1 = oid)
  return (s, px, lvl, i, e.2)

/-- No call takes more than an order holds. -/
def take (b : Book) (oid : OrderId) (amount : ℕ) : Exec ((ℕ × ℤ × ℕ) × Book) := do
  let (s, px, lvl, i, q) ← b.find oid
  let rem := q - amount
  if rem = 0 then
    let lvl := lvl.eraseIdx i
    let levels := if lvl.isEmpty then (b.side s).erase px else (b.side s).insert px lvl
    return ((s, px, rem), { b.withSide s levels with ids := b.ids.erase oid })
  else
    return ((s, px, rem), b.withSide s ((b.side s).insert px (lvl.set i (oid, rem))))

/-- `self.level(s, px).append((oid, qty)); self.ids[oid] = (s, px)`. -/
def append (b : Book) (oid : OrderId) (s : ℕ) (px : ℤ) (qty : ℕ) : Book :=
  let lvl := ((b.side s).get? px).getD []
  { b.withSide s ((b.side s).insert px (lvl ++ [(oid, qty)])) with
    ids := b.ids.insert oid (s, px) }

/-- `sum(q for _, q in self.side(s).get(px, ()))`. -/
def held (b : Book) (s : ℕ) (px : ℤ) : ℕ := total (((b.side s).get? px).getD [])

def add (b : Book) (oid : OrderId) (s : ℕ) (px : ℤ) (qty : ℕ) : Exec (Entry × Book) := do
  if qty = 0 then return (⟨REJECT, 0, 0, 0, 0, 0⟩, b)
  if px ≤ 0 then return (⟨REJECT, 0, 0, 0, 0, 0⟩, b)
  if b.ids.contains oid then return (⟨REJECT, oid.toNat, ADD, 0, 0, 0⟩, b)
  if b.held s px + qty > 2 ^ 32 - 1 then return (⟨REJECT, 0, 0, 0, 0, 0⟩, b)
  return (⟨ADD, oid.toNat, 0, px, qty, s⟩, b.append oid s px qty)

def cancel (b : Book) (oid : OrderId) (qty : ℕ) : Exec (Entry × Book) := do
  if ¬ b.ids.contains oid then return (⟨UNKNOWN, oid.toNat, CANCEL, 0, 0, 0⟩, b)
  if qty = 0 then return (⟨REJECT, 0, 0, 0, 0, 0⟩, b)
  let (_, _, _, _, have_) ← b.find oid
  let removed := min qty have_
  let ((s, px, rem), b) ← b.take oid removed
  return (⟨CANCEL, oid.toNat, rem, px, removed, s⟩, b)

def execute (b : Book) (oid : OrderId) (qty : ℕ) : Exec (Entry × Book) := do
  if ¬ b.ids.contains oid then return (⟨UNKNOWN, oid.toNat, EXEC, 0, 0, 0⟩, b)
  if qty = 0 then return (⟨REJECT, 0, 0, 0, 0, 0⟩, b)
  let (_, _, _, _, have_) ← b.find oid
  if qty > have_ then return (⟨REJECT, oid.toNat, EXEC, 0, qty, 0⟩, b)
  let ((s, px, rem), b) ← b.take oid qty
  return (⟨EXEC, oid.toNat, rem, px, qty, s⟩, b)

def delete (b : Book) (oid : OrderId) : Exec (Entry × Book) := do
  if ¬ b.ids.contains oid then return (⟨UNKNOWN, oid.toNat, DELETE, 0, 0, 0⟩, b)
  let (_, _, _, _, have_) ← b.find oid
  let ((s, px, _), b) ← b.take oid have_
  return (⟨DELETE, oid.toNat, 0, px, have_, s⟩, b)

def replace (b : Book) (old new : OrderId) (px : ℤ) (qty : ℕ) : Exec (Entry × Book) := do
  if ¬ b.ids.contains old then return (⟨UNKNOWN, old.toNat, REPLACE, 0, 0, 0⟩, b)
  if b.ids.contains new then return (⟨REJECT, new.toNat, ADD, 0, 0, 0⟩, b)
  if qty = 0 then return (⟨REJECT, 0, 0, 0, 0, 0⟩, b)
  if px ≤ 0 then return (⟨REJECT, 0, 0, 0, 0, 0⟩, b)
  let (s, oldPx, _, _, have_) ← b.find old
  let existing := b.held s px - (if px = oldPx then have_ else 0)
  if existing + qty > 2 ^ 32 - 1 then return (⟨REJECT, 0, 0, 0, 0, 0⟩, b)
  let (_, b) ← b.take old have_
  return (⟨REPLACE, old.toNat, new.toNat, px, qty, s⟩, b.append new s px qty)

end Book

/-! `struct.pack`, little-endian. -/

def packU (k n : ℕ) : Exec (List UInt8) :=
  if n < 256 ^ k then .ok (leBytes k n) else .error .overflow

def packI64 (x : ℤ) : Exec (List UInt8) :=
  if -2 ^ 63 ≤ x ∧ x < 2 ^ 63 then .ok (pxBytes x) else .error .overflow

/-- `EV.pack(*ev)`. -/
def Entry.pack (e : Entry) : Exec (List UInt8) := do
  let kind ← packU 1 e.kind
  let a ← packU 8 e.a
  let b ← packU 8 e.b
  let px ← packI64 e.px
  let qty ← packU 8 e.qty
  let side ← packU 1 e.side
  return kind ++ a ++ b ++ px ++ qty ++ side

def packOrder (e : OrderId × ℕ) : Exec (List UInt8) := do
  return (← packU 8 e.1.toNat) ++ (← packU 4 e.2)

def packLevel (e : ℤ × Queue) : Exec (List UInt8) := do
  let px ← packI64 e.1
  let count ← packU 4 e.2.length
  let orders ← e.2.mapM packOrder
  return px ++ count ++ orders.flatten

/-- The bytes fed to the state hash. -/
def Book.stateBytes (b : Book) : Exec (List UInt8) := do
  return (← (b.bids.entries ++ b.asks.entries).mapM packLevel).flatten

/-- What the script keeps: the book, the bytes of the event log and the number of errors. -/
structure Script where
  book : Book
  log : List UInt8
  errs : ℕ

def Script.new : Script := ⟨.new, [1], 0⟩

/-- The call that a record asks for; an unknown kind ends the script. -/
def callOf (b : Book) (rec : List UInt8) : Exec (Entry × Book) :=
  let kind := (rec.headD 0).toNat
  let a := u64Le rec 1
  let a2 := u64Le rec 9
  let px := (i32Le rec 17).toInt
  let qty := (u32Le rec 21).toNat
  if kind = 1 then b.add a a2.toNat px qty
  else if kind = 2 then b.cancel a qty
  else if kind = 3 then b.execute a qty
  else if kind = 4 then b.delete a
  else if kind = 5 then b.replace a a2 px qty
  else .error .assertion

def Script.step (s : Script) (rec : List UInt8) : Exec (Entry × Script) := do
  let (ev, book) ← callOf s.book rec
  let errs := if ev.kind = UNKNOWN ∨ ev.kind = REJECT then s.errs + 1 else s.errs
  let bytes ← ev.pack
  return (ev, ⟨book, s.log ++ bytes, errs⟩)

/-- The records of a file, which must have whole records only. -/
def replay (bytes : List UInt8) : Exec (List Entry × Script) :=
  if bytes.length % opRecordLen ≠ 0 then .error .overflow
  else run Script.step .new (records bytes (bytes.length / opRecordLen))

end Lobcore.OpsPyref
