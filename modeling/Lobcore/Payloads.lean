import Lobcore.Checked
import Lobcore.OrderTypes

/-!
Views over ITCH payloads (`msg.rs`). A view is a payload of the length its type has in the
size table, and an accessor reads big-endian bytes at a fixed offset; reading past the end
aborts. `parse` checks the length of every known type and wraps the payload in its view.
Type bytes are written as the characters they stand for.
-/
namespace Lobcore.Payloads

open Checked OrderTypes

abbrev Bytes := List UInt8

/-- A type or side byte as the character it stands for. -/
def letter (b : UInt8) : Char := Char.ofNat b.toNat

/-- Payload length of a message type; `none` for a type byte outside the table. -/
def specLen : Char → Option ℕ
  | 'S' => some 12
  | 'R' => some 39
  | 'H' => some 25
  | 'Y' => some 20
  | 'L' => some 26
  | 'V' => some 35
  | 'W' => some 12
  | 'K' => some 28
  | 'J' => some 35
  | 'h' => some 21
  | 'A' => some 36
  | 'F' => some 40
  | 'E' => some 31
  | 'C' => some 36
  | 'X' => some 23
  | 'D' => some 19
  | 'U' => some 35
  | 'P' => some 44
  | 'Q' => some 40
  | 'B' => some 19
  | 'I' => some 50
  | 'N' => some 20
  | 'O' => some 48
  | _ => none

/-- Length of the common header: type, locate, tracking number, timestamp. -/
def headerLen : ℕ := 11

inductive ParseError where
  /-- A frame without a type byte. -/
  | empty
  /-- The framed length of a known type differs from the table. -/
  | length (ty : UInt8) (got : ℕ)
  deriving DecidableEq, Repr

/-- `&b[off..off + n]`. -/
def slice (b : Bytes) (off n : ℕ) : Exec Bytes :=
  if off + n ≤ b.length then .ok ((b.drop off).take n) else .error .outOfRange

/-- The number that big-endian bytes spell. -/
def beNat (bs : Bytes) : ℕ := bs.foldl (fun acc b => acc * 256 + b.toNat) 0

def be16 (b : Bytes) (off : ℕ) : Exec UInt16 := do return .ofNat (beNat (← slice b off 2))

def be32 (b : Bytes) (off : ℕ) : Exec UInt32 := do return .ofNat (beNat (← slice b off 4))

def be64 (b : Bytes) (off : ℕ) : Exec UInt64 := do return .ofNat (beNat (← slice b off 8))

/-- Six-byte timestamp. -/
def u48 (b : Bytes) (off : ℕ) : Exec UInt64 := do return .ofNat (beNat (← slice b off 6))

def alpha8 (b : Bytes) (off : ℕ) : Exec Bytes := slice b off 8

def alpha4 (b : Bytes) (off : ℕ) : Exec Bytes := slice b off 4

def sideOf (b : UInt8) : Option Side :=
  match letter b with
  | 'B' => some .bid
  | 'S' => some .ask
  | _ => none

/-- A payload of the given type and length. -/
structure View (ty : Char) (len : ℕ) where
  raw : Bytes
  length_eq : raw.length = len
  type_eq : raw.head?.map letter = some ty

namespace View

variable {ty : Char} {len : ℕ}

def locate (m : View ty len) : Exec UInt16 := be16 m.raw 1

def tracking (m : View ty len) : Exec UInt16 := be16 m.raw 3

def ts (m : View ty len) : Exec UInt64 := u48 m.raw 5

end View

abbrev SystemEvent := View 'S' 12

def SystemEvent.eventCode (m : SystemEvent) : Exec UInt8 := index m.raw 11

abbrev StockDirectory := View 'R' 39

namespace StockDirectory

def stock (m : StockDirectory) : Exec Bytes := alpha8 m.raw 11
def marketCategory (m : StockDirectory) : Exec UInt8 := index m.raw 19
def financialStatus (m : StockDirectory) : Exec UInt8 := index m.raw 20
def roundLotSize (m : StockDirectory) : Exec UInt32 := be32 m.raw 21
def roundLotsOnly (m : StockDirectory) : Exec UInt8 := index m.raw 25
def issueClassification (m : StockDirectory) : Exec UInt8 := index m.raw 26
def issueSubtype (m : StockDirectory) : Exec Bytes := slice m.raw 27 2
def authenticity (m : StockDirectory) : Exec UInt8 := index m.raw 29
def shortSaleThreshold (m : StockDirectory) : Exec UInt8 := index m.raw 30
def ipoFlag (m : StockDirectory) : Exec UInt8 := index m.raw 31
def luldTier (m : StockDirectory) : Exec UInt8 := index m.raw 32
def etpFlag (m : StockDirectory) : Exec UInt8 := index m.raw 33
def etpLeverage (m : StockDirectory) : Exec UInt32 := be32 m.raw 34
def inverse (m : StockDirectory) : Exec UInt8 := index m.raw 38

end StockDirectory

abbrev TradingAction := View 'H' 25

namespace TradingAction

def stock (m : TradingAction) : Exec Bytes := alpha8 m.raw 11
def tradingState (m : TradingAction) : Exec UInt8 := index m.raw 19
def reserved (m : TradingAction) : Exec UInt8 := index m.raw 20
def reason (m : TradingAction) : Exec Bytes := alpha4 m.raw 21

end TradingAction

abbrev AddOrder := View 'A' 36

namespace AddOrder

def orderRef (m : AddOrder) : Exec UInt64 := be64 m.raw 11
def sideByte (m : AddOrder) : Exec UInt8 := index m.raw 19
def side (m : AddOrder) : Exec (Option Side) := do return sideOf (← index m.raw 19)
def shares (m : AddOrder) : Exec UInt32 := be32 m.raw 20
def stock (m : AddOrder) : Exec Bytes := alpha8 m.raw 24
def price (m : AddOrder) : Exec UInt32 := be32 m.raw 32

end AddOrder

abbrev AddOrderMpid := View 'F' 40

namespace AddOrderMpid

def orderRef (m : AddOrderMpid) : Exec UInt64 := be64 m.raw 11
def sideByte (m : AddOrderMpid) : Exec UInt8 := index m.raw 19
def side (m : AddOrderMpid) : Exec (Option Side) := do return sideOf (← index m.raw 19)
def shares (m : AddOrderMpid) : Exec UInt32 := be32 m.raw 20
def stock (m : AddOrderMpid) : Exec Bytes := alpha8 m.raw 24
def price (m : AddOrderMpid) : Exec UInt32 := be32 m.raw 32
def attribution (m : AddOrderMpid) : Exec Bytes := alpha4 m.raw 36

end AddOrderMpid

abbrev OrderExecuted := View 'E' 31

namespace OrderExecuted

def orderRef (m : OrderExecuted) : Exec UInt64 := be64 m.raw 11
def executed (m : OrderExecuted) : Exec UInt32 := be32 m.raw 19
def matchNumber (m : OrderExecuted) : Exec UInt64 := be64 m.raw 23

end OrderExecuted

abbrev OrderExecutedWithPrice := View 'C' 36

namespace OrderExecutedWithPrice

def orderRef (m : OrderExecutedWithPrice) : Exec UInt64 := be64 m.raw 11
def executed (m : OrderExecutedWithPrice) : Exec UInt32 := be32 m.raw 19
def matchNumber (m : OrderExecutedWithPrice) : Exec UInt64 := be64 m.raw 23
def printable (m : OrderExecutedWithPrice) : Exec UInt8 := index m.raw 31
def executionPrice (m : OrderExecutedWithPrice) : Exec UInt32 := be32 m.raw 32

end OrderExecutedWithPrice

abbrev OrderCancel := View 'X' 23

namespace OrderCancel

def orderRef (m : OrderCancel) : Exec UInt64 := be64 m.raw 11
def cancelled (m : OrderCancel) : Exec UInt32 := be32 m.raw 19

end OrderCancel

abbrev OrderDelete := View 'D' 19

def OrderDelete.orderRef (m : OrderDelete) : Exec UInt64 := be64 m.raw 11

abbrev OrderReplace := View 'U' 35

namespace OrderReplace

def originalRef (m : OrderReplace) : Exec UInt64 := be64 m.raw 11
def newRef (m : OrderReplace) : Exec UInt64 := be64 m.raw 19
def shares (m : OrderReplace) : Exec UInt32 := be32 m.raw 27
def price (m : OrderReplace) : Exec UInt32 := be32 m.raw 31

end OrderReplace

abbrev Trade := View 'P' 44

namespace Trade

def orderRef (m : Trade) : Exec UInt64 := be64 m.raw 11
def sideByte (m : Trade) : Exec UInt8 := index m.raw 19
def shares (m : Trade) : Exec UInt32 := be32 m.raw 20
def stock (m : Trade) : Exec Bytes := alpha8 m.raw 24
def price (m : Trade) : Exec UInt32 := be32 m.raw 32
def matchNumber (m : Trade) : Exec UInt64 := be64 m.raw 36

end Trade

abbrev CrossTrade := View 'Q' 40

namespace CrossTrade

def shares (m : CrossTrade) : Exec UInt64 := be64 m.raw 11
def stock (m : CrossTrade) : Exec Bytes := alpha8 m.raw 19
def crossPrice (m : CrossTrade) : Exec UInt32 := be32 m.raw 27
def matchNumber (m : CrossTrade) : Exec UInt64 := be64 m.raw 31
def crossType (m : CrossTrade) : Exec UInt8 := index m.raw 39

end CrossTrade

abbrev BrokenTrade := View 'B' 19

def BrokenTrade.matchNumber (m : BrokenTrade) : Exec UInt64 := be64 m.raw 11

/-- A payload that is not decoded beyond its header. -/
structure RawMsg where
  raw : Bytes
  ne_nil : raw ≠ []

/-- The size table has the type of the payload, at the payload's length. -/
def Known (raw : Bytes) : Prop := ∃ ty, raw.head?.map letter = some ty ∧
    specLen ty = some raw.length

inductive Msg where
  | system (m : SystemEvent)
  | directory (m : StockDirectory)
  | action (m : TradingAction)
  | add (m : AddOrder)
  | addMpid (m : AddOrderMpid)
  | exec (m : OrderExecuted)
  | execPx (m : OrderExecutedWithPrice)
  | cancel (m : OrderCancel)
  | delete (m : OrderDelete)
  | replace (m : OrderReplace)
  | trade (m : Trade)
  | cross (m : CrossTrade)
  | broken (m : BrokenTrade)
  /-- A type in the size table with no view of its own. -/
  | other (m : RawMsg) (known : Known m.raw)
  /-- A type byte outside the size table. -/
  | unknown (m : RawMsg)

namespace Msg

def raw : Msg → Bytes
  | system m => m.raw
  | directory m => m.raw
  | action m => m.raw
  | add m => m.raw
  | addMpid m => m.raw
  | exec m => m.raw
  | execPx m => m.raw
  | cancel m => m.raw
  | delete m => m.raw
  | replace m => m.raw
  | trade m => m.raw
  | cross m => m.raw
  | broken m => m.raw
  | other m _ => m.raw
  | unknown m => m.raw

def ty (m : Msg) : Exec UInt8 := index m.raw 0

/-- `none` only for an unknown type shorter than the header. -/
def locate (m : Msg) : Exec (Option UInt16) :=
  if headerLen ≤ m.raw.length then some <$> be16 m.raw 1 else .ok none

def ts (m : Msg) : Exec (Option UInt64) :=
  if headerLen ≤ m.raw.length then some <$> u48 m.raw 5 else .ok none

end Msg

/-- The view of a payload whose length the table confirms. -/
def View.as {c : Char} {want : ℕ} (v : View c want) (hspec : specLen c = some want) {c' : Char}
    {n : ℕ} (hc : c = c') (hn : specLen c' = some n) : View c' n :=
  ⟨v.raw, v.length_eq.trans (Option.some.inj (hspec.symm.trans (hc ▸ hn))), hc ▸ v.type_eq⟩

theorem View.ne_nil {c : Char} {want : ℕ} (v : View c want) : v.raw ≠ [] := by
  intro h
  have := v.type_eq
  simp [h] at this

theorem View.known {c : Char} {want : ℕ} (v : View c want) (hspec : specLen c = some want) :
    Known v.raw := ⟨c, v.type_eq, by rw [v.length_eq, hspec]⟩

def classify {c : Char} {want : ℕ} (v : View c want) (hspec : specLen c = some want) : Msg :=
  if h : c = 'S' then .system (v.as hspec h rfl)
  else if h : c = 'R' then .directory (v.as hspec h rfl)
  else if h : c = 'H' then .action (v.as hspec h rfl)
  else if h : c = 'A' then .add (v.as hspec h rfl)
  else if h : c = 'F' then .addMpid (v.as hspec h rfl)
  else if h : c = 'E' then .exec (v.as hspec h rfl)
  else if h : c = 'C' then .execPx (v.as hspec h rfl)
  else if h : c = 'X' then .cancel (v.as hspec h rfl)
  else if h : c = 'D' then .delete (v.as hspec h rfl)
  else if h : c = 'U' then .replace (v.as hspec h rfl)
  else if h : c = 'P' then .trade (v.as hspec h rfl)
  else if h : c = 'Q' then .cross (v.as hspec h rfl)
  else if h : c = 'B' then .broken (v.as hspec h rfl)
  else .other ⟨v.raw, v.ne_nil⟩ (v.known hspec)

/-- Length-check known types against the table and wrap the payload in its view. -/
def parse : Bytes → Except ParseError Msg
  | [] => .error .empty
  | b :: rest =>
    match h : specLen (letter b) with
    | none => .ok (.unknown ⟨b :: rest, List.cons_ne_nil _ _⟩)
    | some want =>
      if hlen : (b :: rest).length = want then .ok (classify ⟨b :: rest, hlen, rfl⟩ h)
      else .error (.length b (b :: rest).length)

theorem slice_ok {b : Bytes} {off n : ℕ} (h : off + n ≤ b.length) :
    slice b off n = .ok ((b.drop off).take n) := if_pos h

/-- The `n` bytes from `off` on as a number. -/
def word (b : Bytes) (off n : ℕ) : ℕ := beNat ((b.drop off).take n)

theorem be16_ok {b : Bytes} {off : ℕ} (h : off + 2 ≤ b.length) :
    be16 b off = .ok (.ofNat (word b off 2)) := by
  rw [be16, slice_ok h]
  rfl

theorem be32_ok {b : Bytes} {off : ℕ} (h : off + 4 ≤ b.length) :
    be32 b off = .ok (.ofNat (word b off 4)) := by
  rw [be32, slice_ok h]
  rfl

theorem be64_ok {b : Bytes} {off : ℕ} (h : off + 8 ≤ b.length) :
    be64 b off = .ok (.ofNat (word b off 8)) := by
  rw [be64, slice_ok h]
  rfl

theorem u48_ok {b : Bytes} {off : ℕ} (h : off + 6 ≤ b.length) :
    u48 b off = .ok (.ofNat (word b off 6)) := by
  rw [u48, slice_ok h]
  rfl

/-- The byte at `off`, zero past the end. -/
def byteAt (b : Bytes) (off : ℕ) : UInt8 := b.getD off 0

theorem index_byte {b : Bytes} {off : ℕ} (h : off < b.length) :
    index b off = .ok (byteAt b off) :=
  index_ok (by simp [byteAt, List.getElem?_eq_getElem h])

/-- The accessor returns. -/
def Reads {α : Type} (x : Exec α) : Prop := ∃ a, x = .ok a

/-- Every accessor of the message's view reads inside the payload. -/
def Msg.Readable : Msg → Prop
  | system m => Reads m.locate ∧ Reads m.tracking ∧ Reads m.ts ∧ Reads m.eventCode
  | directory m => Reads m.locate ∧ Reads m.tracking ∧ Reads m.ts ∧ Reads m.stock ∧
      Reads m.marketCategory ∧ Reads m.financialStatus ∧ Reads m.roundLotSize ∧
      Reads m.roundLotsOnly ∧ Reads m.issueClassification ∧ Reads m.issueSubtype ∧
      Reads m.authenticity ∧ Reads m.shortSaleThreshold ∧ Reads m.ipoFlag ∧ Reads m.luldTier ∧
      Reads m.etpFlag ∧ Reads m.etpLeverage ∧ Reads m.inverse
  | action m => Reads m.locate ∧ Reads m.tracking ∧ Reads m.ts ∧ Reads m.stock ∧
      Reads m.tradingState ∧ Reads m.reserved ∧ Reads m.reason
  | add m => Reads m.locate ∧ Reads m.tracking ∧ Reads m.ts ∧ Reads m.orderRef ∧
      Reads m.sideByte ∧ Reads m.side ∧ Reads m.shares ∧ Reads m.stock ∧ Reads m.price
  | addMpid m => Reads m.locate ∧ Reads m.tracking ∧ Reads m.ts ∧ Reads m.orderRef ∧
      Reads m.sideByte ∧ Reads m.side ∧ Reads m.shares ∧ Reads m.stock ∧ Reads m.price ∧
      Reads m.attribution
  | exec m => Reads m.locate ∧ Reads m.tracking ∧ Reads m.ts ∧ Reads m.orderRef ∧
      Reads m.executed ∧ Reads m.matchNumber
  | execPx m => Reads m.locate ∧ Reads m.tracking ∧ Reads m.ts ∧ Reads m.orderRef ∧
      Reads m.executed ∧ Reads m.matchNumber ∧ Reads m.printable ∧ Reads m.executionPrice
  | cancel m => Reads m.locate ∧ Reads m.tracking ∧ Reads m.ts ∧ Reads m.orderRef ∧
      Reads m.cancelled
  | delete m => Reads m.locate ∧ Reads m.tracking ∧ Reads m.ts ∧ Reads m.orderRef
  | replace m => Reads m.locate ∧ Reads m.tracking ∧ Reads m.ts ∧ Reads m.originalRef ∧
      Reads m.newRef ∧ Reads m.shares ∧ Reads m.price
  | trade m => Reads m.locate ∧ Reads m.tracking ∧ Reads m.ts ∧ Reads m.orderRef ∧
      Reads m.sideByte ∧ Reads m.shares ∧ Reads m.stock ∧ Reads m.price ∧ Reads m.matchNumber
  | cross m => Reads m.locate ∧ Reads m.tracking ∧ Reads m.ts ∧ Reads m.shares ∧ Reads m.stock ∧
      Reads m.crossPrice ∧ Reads m.matchNumber ∧ Reads m.crossType
  | broken m => Reads m.locate ∧ Reads m.tracking ∧ Reads m.ts ∧ Reads m.matchNumber
  | other m known => Reads (Msg.other m known).ty ∧ Reads (Msg.other m known).locate ∧
      Reads (Msg.other m known).ts
  | unknown m => Reads (Msg.unknown m).ty ∧ Reads (Msg.unknown m).locate ∧
      Reads (Msg.unknown m).ts

section Reading

variable {b : Bytes} {off : ℕ}

theorem reads_index (h : off < b.length) : Reads (index b off) := ⟨_, index_byte h⟩

theorem reads_slice {n : ℕ} (h : off + n ≤ b.length) : Reads (slice b off n) := ⟨_, slice_ok h⟩

theorem reads_be16 (h : off + 2 ≤ b.length) : Reads (be16 b off) := ⟨_, be16_ok h⟩

theorem reads_be32 (h : off + 4 ≤ b.length) : Reads (be32 b off) := ⟨_, be32_ok h⟩

theorem reads_be64 (h : off + 8 ≤ b.length) : Reads (be64 b off) := ⟨_, be64_ok h⟩

theorem reads_u48 (h : off + 6 ≤ b.length) : Reads (u48 b off) := ⟨_, u48_ok h⟩

theorem Reads.map {α β : Type} {x : Exec α} (h : Reads x) (f : α → β) : Reads (f <$> x) := by
  obtain ⟨a, rfl⟩ := h
  exact ⟨f a, rfl⟩

end Reading

theorem Msg.raw_ne_nil (m : Msg) : m.raw ≠ [] := by
  cases m with
  | other m _ => exact m.ne_nil
  | unknown m => exact m.ne_nil
  | _ m => exact m.ne_nil

theorem Msg.ty_ok (m : Msg) : m.ty = .ok (byteAt m.raw 0) :=
  index_byte (List.length_pos_iff.mpr m.raw_ne_nil)

theorem Msg.reads_locate (m : Msg) : Reads m.locate := by
  unfold Msg.locate
  split
  · rename_i h
    exact (reads_be16 (by unfold headerLen at h; omega)).map some
  · exact ⟨none, rfl⟩

theorem Msg.reads_ts (m : Msg) : Reads m.ts := by
  unfold Msg.ts
  split
  · rename_i h
    exact (reads_u48 (by unfold headerLen at h; omega)).map some
  · exact ⟨none, rfl⟩

/-- The size table leaves room for every field of every view. -/
theorem Msg.readable (m : Msg) : m.Readable := by
  cases m with
  | system m =>
    have hlen := m.length_eq
    exact ⟨reads_be16 (by omega), reads_be16 (by omega), reads_u48 (by omega),
      reads_index (by omega)⟩
  | directory m =>
    have hlen := m.length_eq
    exact ⟨reads_be16 (by omega), reads_be16 (by omega), reads_u48 (by omega),
      reads_slice (by omega), reads_index (by omega), reads_index (by omega),
      reads_be32 (by omega), reads_index (by omega), reads_index (by omega),
      reads_slice (by omega), reads_index (by omega), reads_index (by omega),
      reads_index (by omega), reads_index (by omega), reads_index (by omega),
      reads_be32 (by omega), reads_index (by omega)⟩
  | action m =>
    have hlen := m.length_eq
    exact ⟨reads_be16 (by omega), reads_be16 (by omega), reads_u48 (by omega),
      reads_slice (by omega), reads_index (by omega), reads_index (by omega),
      reads_slice (by omega)⟩
  | add m =>
    have hlen := m.length_eq
    exact ⟨reads_be16 (by omega), reads_be16 (by omega), reads_u48 (by omega),
      reads_be64 (by omega), reads_index (by omega), (reads_index (by omega)).map sideOf,
      reads_be32 (by omega), reads_slice (by omega), reads_be32 (by omega)⟩
  | addMpid m =>
    have hlen := m.length_eq
    exact ⟨reads_be16 (by omega), reads_be16 (by omega), reads_u48 (by omega),
      reads_be64 (by omega), reads_index (by omega), (reads_index (by omega)).map sideOf,
      reads_be32 (by omega), reads_slice (by omega), reads_be32 (by omega),
      reads_slice (by omega)⟩
  | exec m =>
    have hlen := m.length_eq
    exact ⟨reads_be16 (by omega), reads_be16 (by omega), reads_u48 (by omega),
      reads_be64 (by omega), reads_be32 (by omega), reads_be64 (by omega)⟩
  | execPx m =>
    have hlen := m.length_eq
    exact ⟨reads_be16 (by omega), reads_be16 (by omega), reads_u48 (by omega),
      reads_be64 (by omega), reads_be32 (by omega), reads_be64 (by omega),
      reads_index (by omega), reads_be32 (by omega)⟩
  | cancel m =>
    have hlen := m.length_eq
    exact ⟨reads_be16 (by omega), reads_be16 (by omega), reads_u48 (by omega),
      reads_be64 (by omega), reads_be32 (by omega)⟩
  | delete m =>
    have hlen := m.length_eq
    exact ⟨reads_be16 (by omega), reads_be16 (by omega), reads_u48 (by omega),
      reads_be64 (by omega)⟩
  | replace m =>
    have hlen := m.length_eq
    exact ⟨reads_be16 (by omega), reads_be16 (by omega), reads_u48 (by omega),
      reads_be64 (by omega), reads_be64 (by omega), reads_be32 (by omega),
      reads_be32 (by omega)⟩
  | trade m =>
    have hlen := m.length_eq
    exact ⟨reads_be16 (by omega), reads_be16 (by omega), reads_u48 (by omega),
      reads_be64 (by omega), reads_index (by omega), reads_be32 (by omega),
      reads_slice (by omega), reads_be32 (by omega), reads_be64 (by omega)⟩
  | cross m =>
    have hlen := m.length_eq
    exact ⟨reads_be16 (by omega), reads_be16 (by omega), reads_u48 (by omega),
      reads_be64 (by omega), reads_slice (by omega), reads_be32 (by omega),
      reads_be64 (by omega), reads_index (by omega)⟩
  | broken m =>
    have hlen := m.length_eq
    exact ⟨reads_be16 (by omega), reads_be16 (by omega), reads_u48 (by omega),
      reads_be64 (by omega)⟩
  | other m known =>
    exact ⟨⟨_, Msg.ty_ok _⟩, Msg.reads_locate _, Msg.reads_ts _⟩
  | unknown m => exact ⟨⟨_, Msg.ty_ok _⟩, Msg.reads_locate _, Msg.reads_ts _⟩

end Lobcore.Payloads
