import Mathlib.Algebra.Group.Int.Defs
import Mathlib.Algebra.Group.Nat.Defs
import Mathlib.Order.Defs.LinearOrder
import Mathlib.Data.Int.Basic
import Mathlib.Tactic.Common

/-!
Sides, ids, events, errors and the operation format (`types.rs`, `api.rs`, `ops.rs`).
Ids keep their width because nothing is computed with them. A price (an `i32` in 1e-4
units) is an integer and a quantity (a `u32` in shares) a natural number; the books
check every operation that could leave the 32-bit range, and the fixed-width fields
of `Op` bound what a caller can ask for.
-/
namespace Lobcore.OrderTypes

inductive Side where
  | bid
  | ask
  deriving DecidableEq, Repr

namespace Side

/-- Event-record side byte. -/
def code : Side → UInt8
  | bid => 0
  | ask => 1

def fromCode : UInt8 → Option Side
  | 0 => some bid
  | 1 => some ask
  | _ => none

def opposite : Side → Side
  | bid => ask
  | ask => bid

end Side

abbrev OrderId := UInt64

instance instLinearOrderUInt64 : LinearOrder UInt64 where
  le_refl := UInt64.le_refl
  le_trans _ _ _ := UInt64.le_trans
  lt_iff_le_not_ge _ _ := UInt64.lt_iff_le_and_ne.trans
    ⟨fun h => ⟨h.1, fun hba => h.2 (UInt64.le_antisymm h.1 hba)⟩,
      fun h => ⟨h.1, fun heq => h.2 (heq ▸ UInt64.le_refl _)⟩⟩
  le_antisymm _ _ := UInt64.le_antisymm
  le_total := UInt64.le_total
  toDecidableLE := inferInstance
  toDecidableEq := inferInstance
  toDecidableLT := inferInstance

instance instLawfulBEqOrderId : LawfulBEq OrderId := inferInstance

inductive EventKind where
  | add
  | cancel
  | exec
  | delete
  | replace
  | modify
  | unknown
  | reject
  | trade
  | stpCancel
  | iocCancel
  | fokReject
  deriving DecidableEq, Repr

/-- The one-byte type code hashed into the record. -/
def EventKind.code : EventKind → UInt8
  | add => 1
  | cancel => 2
  | exec => 3
  | delete => 4
  | replace => 5
  | modify => 6
  | unknown => 7
  | reject => 8
  | trade => 9
  | stpCancel => 10
  | iocCancel => 11
  | fokReject => 12

structure Event where
  kind : EventKind
  a : UInt64
  b : UInt64
  px : Int64
  qty : UInt64
  side : UInt8
  deriving DecidableEq, Repr

namespace Event

def add (id : OrderId) (side : Side) (px : ℤ) (qty : ℕ) : Event :=
  ⟨.add, id, 0, .ofInt px, .ofNat qty, side.code⟩

def cancel (id : OrderId) (side : Side) (px : ℤ) (removed remaining : ℕ) : Event :=
  ⟨.cancel, id, .ofNat remaining, .ofInt px, .ofNat removed, side.code⟩

def exec (id : OrderId) (side : Side) (px : ℤ) (executed remaining : ℕ) : Event :=
  ⟨.exec, id, .ofNat remaining, .ofInt px, .ofNat executed, side.code⟩

def delete (id : OrderId) (side : Side) (px : ℤ) (removed : ℕ) : Event :=
  ⟨.delete, id, 0, .ofInt px, .ofNat removed, side.code⟩

def replace (old new : OrderId) (side : Side) (px : ℤ) (qty : ℕ) : Event :=
  ⟨.replace, old, new, .ofInt px, .ofNat qty, side.code⟩

/-- `b` carries the code of the operation that named the unknown id. -/
def unknown (kind : EventKind) (id : OrderId) : Event :=
  ⟨.unknown, id, .ofNat kind.code.toNat, 0, 0, 0⟩

def reject (kind : EventKind) (id : OrderId) (want : UInt64) : Event :=
  ⟨.reject, id, .ofNat kind.code.toNat, 0, want, 0⟩

end Event

inductive BookError where
  /-- The id named by a cancel, delete, execute or replace is not live. -/
  | unknownId (kind : EventKind) (id : OrderId)
  /-- Execute asked for more than the order's remaining quantity. -/
  | overExecute (id : OrderId) (held want : ℕ)
  /-- Add or replace named an id that is already live. -/
  | duplicateId (id : OrderId)
  /-- Zero quantity, or a level total that would exceed `u32::MAX`. -/
  | badQty
  /-- Non-positive price. -/
  | badPrice
  deriving DecidableEq, Repr

/-- The event to log for an error, derived from the error alone. -/
def BookError.event : BookError → Event
  | unknownId kind id => Event.unknown kind id
  | overExecute id _ want => Event.reject .exec id (.ofNat want)
  | duplicateId id => Event.reject .add id 0
  | badQty => ⟨.reject, 0, 0, 0, 0, 0⟩
  | badPrice => ⟨.reject, 0, 0, 0, 0, 0⟩

/-- What a book call returns: one event or one error. -/
abbrev Reply := Except BookError Event

instance : DecidableEq Reply := fun r s =>
  match r, s with
  | .ok e, .ok f => decidable_of_iff (e = f) (by simp)
  | .error e, .error f => decidable_of_iff (e = f) (by simp)
  | .ok _, .error _ => isFalse (by simp)
  | .error _, .ok _ => isFalse (by simp)

/-- The event on success, the error's event on failure. -/
def loggedEvent : Reply → Event
  | .ok e => e
  | .error e => e.event

/-- One call on a book, with the argument types of the API. -/
inductive Op where
  | add (id : OrderId) (side : Side) (px : Int32) (qty : UInt32)
  | cancel (id : OrderId) (qty : UInt32)
  | execute (id : OrderId) (qty : UInt32)
  | delete (id : OrderId)
  | replace (old new : OrderId) (px : Int32) (qty : UInt32)
  deriving DecidableEq, Repr

/-- `(px, qty, count)` of one level. -/
abbrev LevelView := ℤ × ℕ × ℕ

/-- Resting orders of one level as `(id, qty)` pairs, first in line first. -/
abbrev Queue := List (OrderId × ℕ)

/-- Every non-empty level, best first per side, bids then asks. -/
abbrev Snapshot := List (Side × ℤ × Queue)

/-- `to_le_bytes` of an unsigned integer of `k` bytes. -/
def leBytes : ℕ → ℕ → List UInt8
  | 0, _ => []
  | k + 1, n => UInt8.ofNat (n % 256) :: leBytes k (n / 256)

/-- `(px as i64).to_le_bytes()`, two's complement. -/
def pxBytes (px : ℤ) : List UInt8 := leBytes 8 (px % 2 ^ 64).toNat

/-- `StateHasher::level` followed by `StateHasher::order` for each order of the level. -/
def hashLevel (px : ℤ) (count : ℕ) (q : Queue) : List UInt8 :=
  pxBytes px ++ leBytes 4 count ++ q.flatMap fun e => leBytes 8 e.1.toNat ++ leBytes 4 e.2

/-- The 34-byte little-endian record of the hash contract. -/
def Event.encode (e : Event) : List UInt8 :=
  e.kind.code :: (leBytes 8 e.a.toNat ++ leBytes 8 e.b.toNat ++ pxBytes e.px.toInt ++
    leBytes 8 e.qty.toNat ++ [e.side])

/-- The records hashed so far, and how many were pushed. -/
structure EventLog where
  records : List Event
  len : ℕ
  deriving DecidableEq, Repr

namespace EventLog

def new : EventLog := ⟨[], 0⟩

def push (log : EventLog) (e : Event) : EventLog := ⟨log.records ++ [e], log.len + 1⟩

/-- Format version byte hashed before the first record. -/
def version : UInt8 := 1

/-- The bytes fed to the hash. -/
def stream (log : EventLog) : List UInt8 := version :: log.records.flatMap Event.encode

end EventLog

structure BookConfig where
  basePx : ℤ
  nLevels : ℕ
  tick : ℤ
  deriving DecidableEq, Repr

theorem int32_bounds (px : Int32) : -2 ^ 31 ≤ px.toInt ∧ px.toInt < 2 ^ 31 :=
  ⟨px.le_toInt, px.toInt_lt⟩

theorem uint32_bound (qty : UInt32) : qty.toNat < 2 ^ 32 := qty.toNat_lt

end Lobcore.OrderTypes
