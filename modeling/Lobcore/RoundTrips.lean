import Lobcore.Drives
import Lobcore.Writers

/-!
The writers and the parser are inverse. The writers append fields one behind the other, the
views read them at absolute offsets; so an offset is walked down the fields to the one that
stands there. Framed one after another, the payloads come back in order, each as the message
it was written as, with every field it was written with.
-/
namespace Lobcore.RoundTrips

open Checked OrderTypes Payloads Framing Drives Writers

/-! Reading at an offset of appended fields. -/

section Offsets

variable {xs ys rest : Bytes} {off n : ℕ}

@[simp] theorem slice_past (h : xs.length ≤ off) :
    slice (xs ++ ys) off n = slice ys (off - xs.length) n := by
  unfold slice
  rw [List.drop_append, List.drop_eq_nil_of_le h, List.nil_append, List.length_append]
  by_cases hfit : off - xs.length + n ≤ ys.length
  · rw [if_pos hfit, if_pos (by omega)]
  · rw [if_neg hfit, if_neg (by omega)]

@[simp] theorem index_cons {x : UInt8} : index (x :: xs) (off + 1) = index xs off := rfl

@[simp] theorem index_head {x : UInt8} : index (x :: xs) 0 = .ok x := rfl

@[simp] theorem slice_cons {x : UInt8} : slice (x :: xs) (off + 1) n = slice xs off n := by
  have hpast : slice ([x] ++ xs) (off + 1) n = slice xs (off + 1 - 1) n :=
    slice_past (show [x].length ≤ off + 1 by simp)
  rwa [List.singleton_append, Nat.add_sub_cancel] at hpast

@[simp] theorem be32_cons {x : UInt8} : be32 (x :: xs) (off + 1) = be32 xs off := by
  rw [be32, be32, slice_cons]

@[simp] theorem be64_cons {x : UInt8} : be64 (x :: xs) (off + 1) = be64 xs off := by
  rw [be64, be64, slice_cons]

@[simp] theorem index_beyond (h : xs.length ≤ off) :
    index (xs ++ ys) off = index ys (off - xs.length) := by
  rw [index, index, List.getElem?_append_right h]

@[simp] theorem be32_past (h : xs.length ≤ off) :
    be32 (xs ++ ys) off = be32 ys (off - xs.length) := by
  rw [be32, be32, slice_past h]

@[simp] theorem be64_past (h : xs.length ≤ off) :
    be64 (xs ++ ys) off = be64 ys (off - xs.length) := by
  rw [be64, be64, slice_past h]

@[simp] theorem slice_here (h : xs.length = n) : slice (xs ++ rest) 0 n = .ok xs := by
  subst h
  rw [slice_ok (by rw [List.length_append]; omega), List.drop_zero, List.take_left']
  rfl

@[simp] theorem slice_last (h : xs.length = n) : slice xs 0 n = .ok xs := by
  have hfront : slice (xs ++ []) 0 n = .ok xs := slice_here h
  rwa [List.append_nil] at hfront

@[simp] theorem be32_here (x : UInt32) : be32 (beBytes 4 x.toNat ++ rest) 0 = .ok x := by
  rw [be32, slice_here (length_beBytes 4 _)]
  show Except.ok (UInt32.ofNat (beNat (beBytes 4 x.toNat))) = _
  rw [beNat_beBytes, Nat.mod_eq_of_lt (show x.toNat < 256 ^ 4 from x.toNat_lt), UInt32.ofNat_toNat]

@[simp] theorem be32_last (x : UInt32) : be32 (beBytes 4 x.toNat) 0 = .ok x := by
  have hfront : be32 (beBytes 4 x.toNat ++ []) 0 = .ok x := be32_here x
  rwa [List.append_nil] at hfront

@[simp] theorem be64_here (x : UInt64) : be64 (beBytes 8 x.toNat ++ rest) 0 = .ok x := by
  rw [be64, slice_here (length_beBytes 8 _)]
  show Except.ok (UInt64.ofNat (beNat (beBytes 8 x.toNat))) = _
  rw [beNat_beBytes, Nat.mod_eq_of_lt (show x.toNat < 256 ^ 8 from x.toNat_lt), UInt64.ofNat_toNat]

@[simp] theorem be64_last (x : UInt64) : be64 (beBytes 8 x.toNat) 0 = .ok x := by
  have hfront : be64 (beBytes 8 x.toNat ++ []) 0 = .ok x := be64_here x
  rwa [List.append_nil] at hfront

end Offsets

/-! Fields behind the header. -/

section Header

variable {ty : Char} {h : Header} {fields : Bytes} {off n : ℕ}

/-- Type, locate, tracking number and timestamp. -/
def headerBytes (ty : Char) (h : Header) : Bytes :=
  UInt8.ofNat ty.toNat :: (beBytes 2 h.locate.toNat ++ (beBytes 2 h.tracking.toNat ++
    beBytes 6 h.ts.toNat))

theorem payload_eq : payload ty h fields = headerBytes ty h ++ fields := by
  simp only [payload, headerBytes, List.cons_append, List.append_assoc]

theorem length_headerBytes : (headerBytes ty h).length = 11 := by
  simp only [headerBytes, List.length_cons, List.length_append, length_beBytes]

@[simp] theorem slice_field (hoff : 11 ≤ off) :
    slice (payload ty h fields) off n = slice fields (off - 11) n := by
  rw [payload_eq, slice_past (by rwa [length_headerBytes]), length_headerBytes]

@[simp] theorem index_field (hoff : 11 ≤ off) :
    index (payload ty h fields) off = index fields (off - 11) := by
  rw [payload_eq, index_beyond (by rwa [length_headerBytes]), length_headerBytes]

@[simp] theorem be32_field (hoff : 11 ≤ off) :
    be32 (payload ty h fields) off = be32 fields (off - 11) := by
  rw [be32, be32, slice_field hoff]

@[simp] theorem be64_field (hoff : 11 ≤ off) :
    be64 (payload ty h fields) off = be64 fields (off - 11) := by
  rw [be64, be64, slice_field hoff]

theorem read_locate : be16 (payload ty h fields) 1 = .ok h.locate := by
  have hread : Replays.u16At (payload ty h fields) 1 = h.locate := locate_payload
  rw [be16_ok (by rw [length_payload]; omega)]
  exact congrArg Except.ok hread

theorem read_ts (hts : h.ts.toNat < 2 ^ 48) : u48 (payload ty h fields) 5 = .ok h.ts := by
  rw [u48_ok (by rw [length_payload]; omega)]
  exact congrArg Except.ok (ts_payload hts)

theorem read_tracking : be16 (payload ty h fields) 3 = .ok h.tracking := by
  have hword : word (payload ty h fields) 3 2 = h.tracking.toNat := by
    rw [payload, word_cons, word_right (by simp), word_left (by simp)]
    simp only [length_beBytes]
    rw [word_self]
    exact Nat.mod_eq_of_lt h.tracking.toNat_lt
  rw [be16_ok (by rw [length_payload]; omega), hword, UInt16.ofNat_toNat]

end Header

/-! A call of a writer. -/

/-- The arguments behind the header, for each writer. -/
inductive Body where
  | systemEvent (code : UInt8)
  | stockDirectory (stock : Alpha 8)
  | tradingAction (stock : Alpha 8) (state : UInt8)
  | mpidPosition (mpid : Alpha 4) (stock : Alpha 8)
  | addOrder (r : UInt64) (side : UInt8) (qty : UInt32) (stock : Alpha 8) (px : UInt32)
  | addOrderMpid (r : UInt64) (side : UInt8) (qty : UInt32) (stock : Alpha 8) (px : UInt32)
      (mpid : Alpha 4)
  | orderExecuted (r : UInt64) (qty : UInt32) (matchNo : UInt64)
  | orderExecutedWithPrice (r : UInt64) (qty : UInt32) (matchNo : UInt64) (printable : UInt8)
      (px : UInt32)
  | orderCancel (r : UInt64) (qty : UInt32)
  | orderDelete (r : UInt64)
  | orderReplace (old new : UInt64) (qty px : UInt32)
  | trade (qty : UInt32) (stock : Alpha 8) (px : UInt32) (matchNo : UInt64)
  deriving DecidableEq

structure Call where
  header : Header
  body : Body
  deriving DecidableEq

/-- Run the writer. -/
def Call.write (out : Bytes) (c : Call) : Exec Bytes :=
  match c.body with
  | .systemEvent code => Writers.systemEvent out c.header code
  | .stockDirectory stock => Writers.stockDirectory out c.header stock
  | .tradingAction stock state => Writers.tradingAction out c.header stock state
  | .mpidPosition mpid stock => Writers.mpidPosition out c.header mpid stock
  | .addOrder r side qty stock px => Writers.addOrder out c.header r side qty stock px
  | .addOrderMpid r side qty stock px mpid =>
    Writers.addOrderMpid out c.header r side qty stock px mpid
  | .orderExecuted r qty matchNo => Writers.orderExecuted out c.header r qty matchNo
  | .orderExecutedWithPrice r qty matchNo printable px =>
    Writers.orderExecutedWithPrice out c.header r qty matchNo printable px
  | .orderCancel r qty => Writers.orderCancel out c.header r qty
  | .orderDelete r => Writers.orderDelete out c.header r
  | .orderReplace old new qty px => Writers.orderReplace out c.header old new qty px
  | .trade qty stock px matchNo => Writers.trade out c.header qty stock px matchNo

/-- Run the writers one after the other on one buffer. -/
def writeAll (calls : List Call) : Exec Bytes := calls.foldlM Call.write []

/-- The type that a writer passes to the frame. -/
def Body.ty : Body → Char
  | .systemEvent .. => 'S'
  | .stockDirectory .. => 'R'
  | .tradingAction .. => 'H'
  | .mpidPosition .. => 'L'
  | .addOrder .. => 'A'
  | .addOrderMpid .. => 'F'
  | .orderExecuted .. => 'E'
  | .orderExecutedWithPrice .. => 'C'
  | .orderCancel .. => 'X'
  | .orderDelete .. => 'D'
  | .orderReplace .. => 'U'
  | .trade .. => 'P'

/-- The fields that a writer puts behind the header. -/
def Body.fields : Body → Bytes
  | .systemEvent code => systemFields code
  | .stockDirectory stock => directoryFields stock
  | .tradingAction stock state => actionFields stock state
  | .mpidPosition mpid stock => positionFields mpid stock
  | .addOrder r side qty stock px => addFields r side qty stock px
  | .addOrderMpid r side qty stock px mpid => addMpidFields r side qty stock px mpid
  | .orderExecuted r qty matchNo => executedFields r qty matchNo
  | .orderExecutedWithPrice r qty matchNo printable px =>
    executedPxFields r qty matchNo printable px
  | .orderCancel r qty => cancelFields r qty
  | .orderDelete r => beBytes 8 r.toNat
  | .orderReplace old new qty px => replaceFields old new qty px
  | .trade qty stock px matchNo => tradeFields qty stock px matchNo

def Call.payload (c : Call) : Bytes := Writers.payload c.body.ty c.header c.body.fields

/-- The payload with its length in front. -/
def Call.framed (c : Call) : Bytes := beBytes 2 c.payload.length ++ c.payload

theorem write_eq (out : Bytes) (c : Call) :
    c.write out = frame out c.body.ty c.header c.body.fields := by
  obtain ⟨h, body⟩ := c
  cases body <;> rfl

@[simp] theorem length_ascii (s : String) : (ascii s).length = s.length := by
  rw [ascii, List.length_map, String.length_toList]

@[simp] theorem length_alpha {n : ℕ} (a : Alpha n) : a.val.length = n := a.property

/-- The two size tables agree with what the writers append. -/
theorem specLen_body (b : Body) : Payloads.specLen b.ty = some (11 + b.fields.length) := by
  cases b with
  | _ =>
    simp only [Body.ty, Body.fields, systemFields, directoryFields, actionFields, positionFields,
      addFields, addMpidFields, executedFields, executedPxFields, cancelFields, replaceFields,
      tradeFields, length_ascii, length_alpha, List.length_append, length_beBytes,
      List.length_singleton]
    rfl

theorem length_payload_call (c : Call) : c.payload.length = 11 + c.body.fields.length := by
  rw [Call.payload, length_payload]

theorem length_fields_le (b : Body) : b.fields.length ≤ 33 := by
  have hspec := specLen_body b
  cases b with
  | _ =>
    have hlen := Option.some.inj (Eq.symm hspec)
    omega

theorem write_ok {c : Call} (hts : c.header.ts.toNat < 2 ^ 48) (out : Bytes) :
    c.write out = .ok (out ++ c.framed) := by
  have hlen := length_payload_call c
  have hle := length_fields_le c.body
  have hspec : Writers.specLen c.body.ty = some (11 + c.body.fields.length) := by
    rw [← specLen_body c.body, Writers.specLen, if_neg]
    cases c.body with
    | _ =>
      simp only [Body.ty]
      decide
  unfold Call.payload at hlen
  rw [write_eq, frame, ensure_ok hts, ok_bind, ensure_ok (by rw [hlen, hspec]), ok_bind,
    ensure_ok (by omega), ok_bind]
  rfl

theorem writeAll_ok {calls : List Call} (hts : ∀ c ∈ calls, c.header.ts.toNat < 2 ^ 48) :
    writeAll calls = .ok (calls.map Call.framed).flatten := by
  have hgo : ∀ out : Bytes, calls.foldlM Call.write out =
      .ok (out ++ (calls.map Call.framed).flatten) := by
    induction calls with
    | nil =>
      intro out
      rw [List.map_nil, List.flatten_nil, List.append_nil]
      rfl
    | cons c calls ih =>
      intro out
      rw [List.foldlM_cons, write_ok (hts c (List.mem_cons_self ..)), ok_bind,
        ih (fun d hd => hts d (List.mem_cons_of_mem _ hd)), List.map_cons, List.flatten_cons,
        List.append_assoc]
  exact hgo []

/-! Out of the frames again. -/

theorem firstFrame_framed (c : Call) (rest : Bytes) :
    firstFrame (c.framed ++ rest) = some c.payload := by
  have hlen := length_payload_call c
  have hle := length_fields_le c.body
  have htake : (c.framed ++ rest).take 2 = beBytes 2 c.payload.length := by
    rw [Call.framed, List.append_assoc, List.take_left' (length_beBytes ..)]
  have hdrop : (c.framed ++ rest).drop 2 = c.payload ++ rest := by
    rw [Call.framed, List.append_assoc, List.drop_left' (length_beBytes ..)]
  have hnum : beNat (beBytes 2 c.payload.length) = c.payload.length := by
    rw [beNat_beBytes]
    exact Nat.mod_eq_of_lt (by omega)
  have hfit : 2 + c.payload.length ≤ (c.framed ++ rest).length := by
    rw [Call.framed, List.length_append, List.length_append, length_beBytes]
    omega
  rw [firstFrame, htake, hdrop, hnum, if_pos ⟨by omega, hfit⟩, List.take_left']
  rfl

theorem unframe_framed (calls : List Call) :
    unframe (calls.map Call.framed).flatten = (calls.map Call.payload, []) := by
  induction calls with
  | nil => exact unframe_none rfl
  | cons c calls ih =>
    have hlen : c.framed.length = 2 + c.payload.length := by
      rw [Call.framed, List.length_append, length_beBytes]
    rw [List.map_cons, List.flatten_cons, unframe_some (firstFrame_framed c _),
      List.drop_left' hlen, ih]
    rfl

/-! What the parser makes of a payload. -/

def byte (c : Char) : UInt8 := UInt8.ofNat c.toNat

/-- The side that a side byte stands for. -/
def sideNamed (b : UInt8) : Option Side :=
  if b = byte 'B' then some .bid else if b = byte 'S' then some .ask else none

/-- The accessors of the common header return what was written. -/
def HeaderBack {ty : Char} {len : ℕ} (h : Header) (m : View ty len) : Prop :=
  m.locate = .ok h.locate ∧ m.tracking = .ok h.tracking ∧ m.ts = .ok h.ts

/-- The message has the variant of the writer, and its accessors return what was written. -/
def FieldsBack (h : Header) : Body → Msg → Prop
  | .systemEvent code, .system m => HeaderBack h m ∧ m.eventCode = .ok code
  | .stockDirectory stock, .directory m => HeaderBack h m ∧ m.stock = .ok stock.val ∧
      m.marketCategory = .ok (byte 'Q') ∧ m.financialStatus = .ok (byte ' ') ∧
      m.roundLotSize = .ok 100 ∧ m.roundLotsOnly = .ok (byte 'N') ∧
      m.issueClassification = .ok (byte 'C') ∧ m.issueSubtype = .ok (ascii "Z ") ∧
      m.authenticity = .ok (byte 'P') ∧ m.shortSaleThreshold = .ok (byte 'N') ∧
      m.ipoFlag = .ok (byte 'N') ∧ m.luldTier = .ok (byte '1') ∧ m.etpFlag = .ok (byte 'N') ∧
      m.etpLeverage = .ok 0 ∧ m.inverse = .ok (byte 'N')
  | .tradingAction stock state, .action m => HeaderBack h m ∧ m.stock = .ok stock.val ∧
      m.tradingState = .ok state ∧ m.reserved = .ok (byte ' ') ∧ m.reason = .ok (ascii "    ")
  | .mpidPosition mpid stock, .other m _ => m.raw.drop 11 = positionFields mpid stock
  | .addOrder r side qty stock px, .add m => HeaderBack h m ∧ m.orderRef = .ok r ∧
      m.sideByte = .ok side ∧ m.side = .ok (sideNamed side) ∧ m.shares = .ok qty ∧
      m.stock = .ok stock.val ∧ m.price = .ok px
  | .addOrderMpid r side qty stock px mpid, .addMpid m => HeaderBack h m ∧ m.orderRef = .ok r ∧
      m.sideByte = .ok side ∧ m.side = .ok (sideNamed side) ∧ m.shares = .ok qty ∧
      m.stock = .ok stock.val ∧ m.price = .ok px ∧ m.attribution = .ok mpid.val
  | .orderExecuted r qty matchNo, .exec m => HeaderBack h m ∧ m.orderRef = .ok r ∧
      m.executed = .ok qty ∧ m.matchNumber = .ok matchNo
  | .orderExecutedWithPrice r qty matchNo printable px, .execPx m => HeaderBack h m ∧
      m.orderRef = .ok r ∧ m.executed = .ok qty ∧ m.matchNumber = .ok matchNo ∧
      m.printable = .ok printable ∧ m.executionPrice = .ok px
  | .orderCancel r qty, .cancel m => HeaderBack h m ∧ m.orderRef = .ok r ∧ m.cancelled = .ok qty
  | .orderDelete r, .delete m => HeaderBack h m ∧ m.orderRef = .ok r
  | .orderReplace old new qty px, .replace m => HeaderBack h m ∧ m.originalRef = .ok old ∧
      m.newRef = .ok new ∧ m.shares = .ok qty ∧ m.price = .ok px
  | .trade qty stock px matchNo, .trade m => HeaderBack h m ∧ m.orderRef = .ok 0 ∧
      m.sideByte = .ok (byte 'B') ∧ m.shares = .ok qty ∧ m.stock = .ok stock.val ∧
      m.price = .ok px ∧ m.matchNumber = .ok matchNo
  | _, _ => False

/-- The message reads as the call that wrote it, through its view and without it. -/
def Call.ReadsBack (c : Call) (m : Msg) : Prop :=
  m.ty = .ok (byte c.body.ty) ∧ m.locate = .ok (some c.header.locate) ∧
    m.ts = .ok (some c.header.ts) ∧ FieldsBack c.header c.body m

theorem byte_letter (b : UInt8) : byte (letter b) = b := by
  have hlt : b.toNat < 256 := b.toNat_lt
  have hnat : (letter b).toNat = b.toNat := by
    rw [letter, Char.ofNat, dif_pos (Or.inl (by omega))]
    rfl
  rw [byte, hnat, UInt8.ofNat_toNat]

theorem sideOf_eq (b : UInt8) : sideOf b = sideNamed b := by
  have hB : letter b = 'B' ↔ b = byte 'B' :=
    ⟨fun h => by rw [← byte_letter b, h], fun h => by rw [h]; rfl⟩
  have hS : letter b = 'S' ↔ b = byte 'S' :=
    ⟨fun h => by rw [← byte_letter b, h], fun h => by rw [h]; rfl⟩
  unfold sideNamed
  by_cases hbid : b = byte 'B'
  · rw [if_pos hbid, hbid]
    rfl
  · rw [if_neg hbid]
    by_cases hask : b = byte 'S'
    · rw [if_pos hask, hask]
      rfl
    · rw [if_neg hask]
      unfold sideOf
      split
      · exact absurd (hB.mp ‹_›) hbid
      · exact absurd (hS.mp ‹_›) hask
      · rfl

section Parsing

variable {h : Header} (hts : h.ts.toNat < 2 ^ 48)

include hts

theorem headerBack {ty : Char} {len : ℕ} {fields : Bytes} {m : View ty len}
    (hraw : m.raw = payload ty h fields) : HeaderBack h m := by
  refine ⟨?_, ?_, ?_⟩
  · rw [View.locate, hraw, read_locate]
  · rw [View.tracking, hraw, read_tracking]
  · rw [View.ts, hraw, read_ts hts]

theorem systemEvent_back (code : UInt8) {m : SystemEvent}
    (hraw : m.raw = payload 'S' h (systemFields code)) :
    FieldsBack h (.systemEvent code) (.system m) := by
  refine ⟨headerBack hts hraw, ?_⟩
  simp [SystemEvent.eventCode, hraw, systemFields]

theorem stockDirectory_back (stock : Alpha 8) {m : StockDirectory}
    (hraw : m.raw = payload 'R' h (directoryFields stock)) :
    FieldsBack h (.stockDirectory stock) (.directory m) := by
  have hmarket : ascii "Q " = [byte 'Q', byte ' '] := rfl
  have hissue : ascii "NCZ PNN1N" = [byte 'N', byte 'C', byte 'Z', byte ' ', byte 'P', byte 'N',
    byte 'N', byte '1', byte 'N'] := rfl
  have hinverse : ascii "N" = [byte 'N'] := rfl
  have hsubtype : slice (byte 'Z' :: byte ' ' :: byte 'P' :: byte 'N' :: byte 'N' :: byte '1' ::
      byte 'N' :: (beBytes 4 0 ++ [byte 'N'])) 0 2 = .ok (ascii "Z ") :=
    slice_here (show [byte 'Z', byte ' '].length = 2 from rfl)
  have hlot : be32 (beBytes 4 100 ++ byte 'N' :: byte 'C' :: byte 'Z' :: byte ' ' :: byte 'P' ::
      byte 'N' :: byte 'N' :: byte '1' :: byte 'N' :: (beBytes 4 0 ++ [byte 'N'])) 0 = .ok 100 :=
    be32_here 100
  have hleverage : be32 (beBytes 4 0 ++ [byte 'N']) 0 = .ok 0 := be32_here 0
  refine ⟨headerBack hts hraw, ?_⟩
  simp [StockDirectory.stock, StockDirectory.marketCategory, StockDirectory.financialStatus,
    StockDirectory.roundLotSize, StockDirectory.roundLotsOnly, StockDirectory.issueClassification,
    StockDirectory.issueSubtype, StockDirectory.authenticity, StockDirectory.shortSaleThreshold,
    StockDirectory.ipoFlag, StockDirectory.luldTier, StockDirectory.etpFlag,
    StockDirectory.etpLeverage, StockDirectory.inverse, hraw, directoryFields, alpha8, hmarket,
    hissue, hinverse, hsubtype, hlot, hleverage]

theorem tradingAction_back (stock : Alpha 8) (state : UInt8) {m : TradingAction}
    (hraw : m.raw = payload 'H' h (actionFields stock state)) :
    FieldsBack h (.tradingAction stock state) (.action m) := by
  have hreserved : ascii "     " = byte ' ' :: ascii "    " := rfl
  have hreason : slice (ascii "    ") 0 4 = .ok (ascii "    ") := slice_last rfl
  refine ⟨headerBack hts hraw, ?_⟩
  simp [TradingAction.stock, TradingAction.tradingState, TradingAction.reserved,
    TradingAction.reason, hraw, actionFields, alpha8, alpha4, hreserved, hreason]

theorem addOrder_back (r : UInt64) (side : UInt8) (qty : UInt32) (stock : Alpha 8) (px : UInt32)
    {m : AddOrder} (hraw : m.raw = payload 'A' h (addFields r side qty stock px)) :
    FieldsBack h (.addOrder r side qty stock px) (.add m) := by
  refine ⟨headerBack hts hraw, ?_⟩
  simp [AddOrder.orderRef, AddOrder.sideByte, AddOrder.side, AddOrder.shares, AddOrder.stock,
    AddOrder.price, hraw, addFields, alpha8, sideOf_eq]

theorem addOrderMpid_back (r : UInt64) (side : UInt8) (qty : UInt32) (stock : Alpha 8)
    (px : UInt32) (mpid : Alpha 4) {m : AddOrderMpid}
    (hraw : m.raw = payload 'F' h (addMpidFields r side qty stock px mpid)) :
    FieldsBack h (.addOrderMpid r side qty stock px mpid) (.addMpid m) := by
  refine ⟨headerBack hts hraw, ?_⟩
  simp [AddOrderMpid.orderRef, AddOrderMpid.sideByte, AddOrderMpid.side, AddOrderMpid.shares,
    AddOrderMpid.stock, AddOrderMpid.price, AddOrderMpid.attribution, hraw, addMpidFields, alpha8,
    alpha4, sideOf_eq]

theorem orderExecuted_back (r : UInt64) (qty : UInt32) (matchNo : UInt64) {m : OrderExecuted}
    (hraw : m.raw = payload 'E' h (executedFields r qty matchNo)) :
    FieldsBack h (.orderExecuted r qty matchNo) (.exec m) := by
  refine ⟨headerBack hts hraw, ?_⟩
  simp [OrderExecuted.orderRef, OrderExecuted.executed, OrderExecuted.matchNumber, hraw,
    executedFields]

theorem orderExecutedWithPrice_back (r : UInt64) (qty : UInt32) (matchNo : UInt64)
    (printable : UInt8) (px : UInt32) {m : OrderExecutedWithPrice}
    (hraw : m.raw = payload 'C' h (executedPxFields r qty matchNo printable px)) :
    FieldsBack h (.orderExecutedWithPrice r qty matchNo printable px) (.execPx m) := by
  refine ⟨headerBack hts hraw, ?_⟩
  simp [OrderExecutedWithPrice.orderRef, OrderExecutedWithPrice.executed,
    OrderExecutedWithPrice.matchNumber, OrderExecutedWithPrice.printable,
    OrderExecutedWithPrice.executionPrice, hraw, executedPxFields]

theorem orderCancel_back (r : UInt64) (qty : UInt32) {m : OrderCancel}
    (hraw : m.raw = payload 'X' h (cancelFields r qty)) :
    FieldsBack h (.orderCancel r qty) (.cancel m) := by
  refine ⟨headerBack hts hraw, ?_⟩
  simp [OrderCancel.orderRef, OrderCancel.cancelled, hraw, cancelFields]

theorem orderDelete_back (r : UInt64) {m : OrderDelete}
    (hraw : m.raw = payload 'D' h (beBytes 8 r.toNat)) :
    FieldsBack h (.orderDelete r) (.delete m) := by
  refine ⟨headerBack hts hraw, ?_⟩
  simp [OrderDelete.orderRef, hraw]

theorem orderReplace_back (old new : UInt64) (qty px : UInt32) {m : OrderReplace}
    (hraw : m.raw = payload 'U' h (replaceFields old new qty px)) :
    FieldsBack h (.orderReplace old new qty px) (.replace m) := by
  refine ⟨headerBack hts hraw, ?_⟩
  simp [OrderReplace.originalRef, OrderReplace.newRef, OrderReplace.shares, OrderReplace.price,
    hraw, replaceFields]

theorem trade_back (qty : UInt32) (stock : Alpha 8) (px : UInt32) (matchNo : UInt64) {m : Trade}
    (hraw : m.raw = payload 'P' h (tradeFields qty stock px matchNo)) :
    FieldsBack h (.trade qty stock px matchNo) (.trade m) := by
  have hside : ascii "B" = [byte 'B'] := rfl
  have href : ∀ rest, be64 (beBytes 8 0 ++ rest) 0 = .ok 0 := fun rest => be64_here 0
  refine ⟨headerBack hts hraw, ?_⟩
  simp [Trade.orderRef, Trade.sideByte, Trade.shares, Trade.stock, Trade.price, Trade.matchNumber,
    hraw, tradeFields, alpha8, hside, href]

theorem readsBack_of_raw {body : Body} {m : Msg}
    (hraw : m.raw = payload body.ty h body.fields) (hfields : FieldsBack h body m) :
    (Call.mk h body).ReadsBack m := by
  have hlen : headerLen ≤ m.raw.length := by
    rw [hraw, length_payload, headerLen]
    omega
  refine ⟨?_, ?_, ?_, hfields⟩
  · rw [Msg.ty, hraw]
    rfl
  · rw [Msg.locate, if_pos hlen, hraw, read_locate]
    rfl
  · rw [Msg.ts, if_pos hlen, hraw, read_ts hts]
    rfl

/-- The payload of a call parses to a message that reads as the call. -/
theorem parse_payload (body : Body) :
    ∃ m, parse (Call.mk h body).payload = .ok m ∧ (Call.mk h body).ReadsBack m := by
  have hlen : (payload body.ty h body.fields).length = 11 + body.fields.length :=
    length_payload ..
  have hspec : Payloads.specLen (letter (byte body.ty)) = some (11 + body.fields.length) := by
    rw [← specLen_body body]
    cases body <;> rfl
  cases body with
  | systemEvent code =>
    exact ⟨_, parse_ok _ hspec hlen, readsBack_of_raw hts rfl (systemEvent_back hts code rfl)⟩
  | stockDirectory stock =>
    exact ⟨_, parse_ok _ hspec hlen, readsBack_of_raw hts rfl (stockDirectory_back hts stock rfl)⟩
  | tradingAction stock state =>
    exact ⟨_, parse_ok _ hspec hlen,
      readsBack_of_raw hts rfl (tradingAction_back hts stock state rfl)⟩
  | mpidPosition mpid stock =>
    refine ⟨_, parse_ok _ hspec hlen, readsBack_of_raw hts rfl ?_⟩
    show (payload 'L' h (positionFields mpid stock)).drop 11 = positionFields mpid stock
    rw [payload_eq, List.drop_left' length_headerBytes]
  | addOrder r side qty stock px =>
    exact ⟨_, parse_ok _ hspec hlen,
      readsBack_of_raw hts rfl (addOrder_back hts r side qty stock px rfl)⟩
  | addOrderMpid r side qty stock px mpid =>
    exact ⟨_, parse_ok _ hspec hlen,
      readsBack_of_raw hts rfl (addOrderMpid_back hts r side qty stock px mpid rfl)⟩
  | orderExecuted r qty matchNo =>
    exact ⟨_, parse_ok _ hspec hlen,
      readsBack_of_raw hts rfl (orderExecuted_back hts r qty matchNo rfl)⟩
  | orderExecutedWithPrice r qty matchNo printable px =>
    exact ⟨_, parse_ok _ hspec hlen,
      readsBack_of_raw hts rfl (orderExecutedWithPrice_back hts r qty matchNo printable px rfl)⟩
  | orderCancel r qty =>
    exact ⟨_, parse_ok _ hspec hlen, readsBack_of_raw hts rfl (orderCancel_back hts r qty rfl)⟩
  | orderDelete r =>
    exact ⟨_, parse_ok _ hspec hlen, readsBack_of_raw hts rfl (orderDelete_back hts r rfl)⟩
  | orderReplace old new qty px =>
    exact ⟨_, parse_ok _ hspec hlen,
      readsBack_of_raw hts rfl (orderReplace_back hts old new qty px rfl)⟩
  | trade qty stock px matchNo =>
    exact ⟨_, parse_ok _ hspec hlen,
      readsBack_of_raw hts rfl (trade_back hts qty stock px matchNo rfl)⟩

end Parsing

/-! A frame determines the call that wrote it. -/

theorem beBytes_inj {k a b : ℕ} (ha : a < 256 ^ k) (hb : b < 256 ^ k)
    (h : beBytes k a = beBytes k b) : a = b := by
  have hnum := congrArg beNat h
  rwa [beNat_beBytes, beNat_beBytes, Nat.mod_eq_of_lt ha, Nat.mod_eq_of_lt hb] at hnum

theorem be32_inj {x y : UInt32} (h : beBytes 4 x.toNat = beBytes 4 y.toNat) : x = y :=
  UInt32.toNat_inj.mp (beBytes_inj x.toNat_lt y.toNat_lt h)

theorem be64_inj {x y : UInt64} (h : beBytes 8 x.toNat = beBytes 8 y.toNat) : x = y :=
  UInt64.toNat_inj.mp (beBytes_inj x.toNat_lt y.toNat_lt h)

/-- The type and the fields determine the call. -/
theorem body_inj {b b' : Body} (hty : b.ty = b'.ty) (hfields : b.fields = b'.fields) :
    b = b' := by
  cases b with
  | systemEvent code =>
    cases b' with
    | systemEvent code' =>
      obtain rfl := List.singleton_inj.mp hfields
      rfl
    | _ => simp [Body.ty] at hty
  | stockDirectory stock =>
    cases b' with
    | stockDirectory stock' =>
      obtain rfl := Subtype.ext (List.append_inj hfields (by simp)).1
      rfl
    | _ => simp [Body.ty] at hty
  | tradingAction stock state =>
    cases b' with
    | tradingAction stock' state' =>
      obtain ⟨hstock, hrest⟩ := List.append_inj hfields (by simp)
      obtain rfl := Subtype.ext hstock
      obtain rfl := (List.cons.inj hrest).1
      rfl
    | _ => simp [Body.ty] at hty
  | mpidPosition mpid stock =>
    cases b' with
    | mpidPosition mpid' stock' =>
      obtain ⟨hmpid, hrest⟩ := List.append_inj hfields (by simp)
      obtain rfl := Subtype.ext hmpid
      obtain rfl := Subtype.ext (List.append_inj hrest (by simp)).1
      rfl
    | _ => simp [Body.ty] at hty
  | addOrder r side qty stock px =>
    cases b' with
    | addOrder r' side' qty' stock' px' =>
      obtain ⟨hr, hrest⟩ := List.append_inj hfields (by simp)
      obtain ⟨hside, hrest⟩ := List.append_inj hrest rfl
      obtain ⟨hqty, hrest⟩ := List.append_inj hrest (by simp)
      obtain ⟨hstock, hpx⟩ := List.append_inj hrest (by simp)
      rw [be64_inj hr, List.singleton_inj.mp hside, be32_inj hqty, Subtype.ext hstock, be32_inj hpx]
    | _ => simp [Body.ty] at hty
  | addOrderMpid r side qty stock px mpid =>
    cases b' with
    | addOrderMpid r' side' qty' stock' px' mpid' =>
      obtain ⟨hr, hrest⟩ := List.append_inj hfields (by simp)
      obtain ⟨hside, hrest⟩ := List.append_inj hrest rfl
      obtain ⟨hqty, hrest⟩ := List.append_inj hrest (by simp)
      obtain ⟨hstock, hrest⟩ := List.append_inj hrest (by simp)
      obtain ⟨hpx, hmpid⟩ := List.append_inj hrest (by simp)
      rw [be64_inj hr, List.singleton_inj.mp hside, be32_inj hqty, Subtype.ext hstock,
        be32_inj hpx, Subtype.ext hmpid]
    | _ => simp [Body.ty] at hty
  | orderExecuted r qty matchNo =>
    cases b' with
    | orderExecuted r' qty' matchNo' =>
      obtain ⟨hr, hrest⟩ := List.append_inj hfields (by simp)
      obtain ⟨hqty, hmatch⟩ := List.append_inj hrest (by simp)
      rw [be64_inj hr, be32_inj hqty, be64_inj hmatch]
    | _ => simp [Body.ty] at hty
  | orderExecutedWithPrice r qty matchNo printable px =>
    cases b' with
    | orderExecutedWithPrice r' qty' matchNo' printable' px' =>
      obtain ⟨hr, hrest⟩ := List.append_inj hfields (by simp)
      obtain ⟨hqty, hrest⟩ := List.append_inj hrest (by simp)
      obtain ⟨hmatch, hrest⟩ := List.append_inj hrest (by simp)
      obtain ⟨hprintable, hpx⟩ := List.cons.inj hrest
      rw [be64_inj hr, be32_inj hqty, be64_inj hmatch, hprintable, be32_inj hpx]
    | _ => simp [Body.ty] at hty
  | orderCancel r qty =>
    cases b' with
    | orderCancel r' qty' =>
      obtain ⟨hr, hqty⟩ := List.append_inj hfields (by simp)
      rw [be64_inj hr, be32_inj hqty]
    | _ => simp [Body.ty] at hty
  | orderDelete r =>
    cases b' with
    | orderDelete r' => rw [be64_inj hfields]
    | _ => simp [Body.ty] at hty
  | orderReplace old new qty px =>
    cases b' with
    | orderReplace old' new' qty' px' =>
      obtain ⟨hold, hrest⟩ := List.append_inj hfields (by simp)
      obtain ⟨hnew, hrest⟩ := List.append_inj hrest (by simp)
      obtain ⟨hqty, hpx⟩ := List.append_inj hrest (by simp)
      rw [be64_inj hold, be64_inj hnew, be32_inj hqty, be32_inj hpx]
    | _ => simp [Body.ty] at hty
  | trade qty stock px matchNo =>
    cases b' with
    | trade qty' stock' px' matchNo' =>
      obtain ⟨-, hrest⟩ := List.append_inj hfields rfl
      obtain ⟨-, hrest⟩ := List.append_inj hrest rfl
      obtain ⟨hqty, hrest⟩ := List.append_inj hrest (by simp)
      obtain ⟨hstock, hrest⟩ := List.append_inj hrest (by simp)
      obtain ⟨hpx, hmatch⟩ := List.append_inj hrest (by simp)
      rw [be32_inj hqty, Subtype.ext hstock, be32_inj hpx, be64_inj hmatch]
    | _ => simp [Body.ty] at hty

theorem framed_inj {c c' : Call} (hts : c.header.ts.toNat < 2 ^ 48)
    (hts' : c'.header.ts.toNat < 2 ^ 48) (h : c.framed = c'.framed) : c = c' := by
  have hpayload : c.payload = c'.payload := (List.append_inj h (by simp)).2
  have hletter : ∀ b : Body, letter (byte b.ty) = b.ty := fun b => by cases b <;> rfl
  obtain ⟨⟨locate, tracking, ts⟩, body⟩ := c
  obtain ⟨⟨locate', tracking', ts'⟩, body'⟩ := c'
  obtain ⟨hty, hrest⟩ := List.cons.inj hpayload
  obtain ⟨hlocate, hrest⟩ := List.append_inj hrest (by simp)
  obtain ⟨htracking, hrest⟩ := List.append_inj hrest (by simp)
  obtain ⟨hstamp, hfields⟩ := List.append_inj hrest (by simp)
  have hty' : body.ty = body'.ty := by
    rw [← hletter body, ← hletter body']
    exact congrArg letter hty
  have hlocate' : locate = locate' :=
    UInt16.toNat_inj.mp (beBytes_inj locate.toNat_lt locate'.toNat_lt hlocate)
  have htracking' : tracking = tracking' :=
    UInt16.toNat_inj.mp (beBytes_inj tracking.toNat_lt tracking'.toNat_lt htracking)
  have hstamp' : ts = ts' := UInt64.toNat_inj.mp (beBytes_inj hts hts' hstamp)
  rw [body_inj hty' hfields, hlocate', htracking', hstamp']

/-- The writers and the parser are inverse: the payloads come out of the frames one a call and
in order, nothing is left over, and each parses to the message that was written. -/
theorem written_reads_back (calls : List Call)
    (hts : ∀ c ∈ calls, c.header.ts.toNat < 2 ^ 48) :
    ∃ bytes payloads sl, writeAll calls = .ok bytes ∧
      Enough (fun fuel => collect fuel (.new bytes) = .ok (payloads, sl)) ∧ sl.truncated = 0 ∧
      List.Forall₂ (fun c p => ∃ m, parse p = .ok m ∧ c.ReadsBack m) calls payloads := by
  obtain ⟨sl, hcollect, htruncated⟩ :=
    collect_eq (.new (calls.map Call.framed).flatten) (Nat.zero_le _)
  have hunframe : unframe ((SliceFrames.new (calls.map Call.framed).flatten).data.drop
      (SliceFrames.new (calls.map Call.framed).flatten).pos) = (calls.map Call.payload, []) :=
    unframe_framed calls
  rw [hunframe] at hcollect htruncated
  refine ⟨_, _, sl, writeAll_ok hts, hcollect, htruncated, ?_⟩
  rw [List.forall₂_map_right_iff, List.forall₂_same]
  intro c hc
  exact parse_payload (hts c hc) c.body

def spy : Alpha 8 := ⟨ascii "SPY     ", rfl⟩

/-- An opening, a bid and its end. -/
def bidDay : List Call :=
  [⟨⟨0, 0, 1⟩, .systemEvent 81⟩, ⟨⟨7, 3, 34200000000123⟩, .addOrder 123456789 66 100 spy 4531200⟩,
    ⟨⟨7, 4, 34200000000124⟩, .orderDelete 123456789⟩]

theorem written_reads_back_bid :
    ∃ bytes payloads sl, writeAll bidDay = .ok bytes ∧
      Enough (fun fuel => collect fuel (.new bytes) = .ok (payloads, sl)) ∧ sl.truncated = 0 ∧
      List.Forall₂ (fun c p => ∃ m, parse p = .ok m ∧ c.ReadsBack m) bidDay payloads :=
  written_reads_back bidDay (by decide)

end Lobcore.RoundTrips
