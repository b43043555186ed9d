import Lobcore.BookRuns
import Lobcore.EventCodes

/-!
The books as Python sees them (`python/lobcore`). An event crosses the border as a tuple, and
the values that are read as an event, or encoded, are known by what is extracted from them. Both
classes log what they return or raise, so whoever keeps the tuples can compute the digest of the
log; and the two classes cannot be told apart by what they return or raise. What `pyo3` makes of
a Python value, and how a text is quoted in a message, are parameters.
-/
namespace Lobcore.PythonBooks

open Checked OrderTypes OpsFormat EventCodes Bitmaps OrderSlab Markets ReferenceBook ArrayBooks
open BookRuns

/-! Values and exceptions. -/

/-- The border (`pyo3`): the values the module makes, and what it extracts from one. -/
structure Border (V : Type) where
  str : String → V
  int : ℤ → V
  tuple : List V → V
  extractString : V → Option String
  extractU8 : V → Option UInt8
  extractU64 : V → Option UInt64
  extractI64 : V → Option Int64
  /-- The items of a tuple. -/
  items : V → Option (List V)

/-- What is made is extracted again, an integer where it is in range. -/
structure Border.Faithful {V : Type} (py : Border V) : Prop where
  string (s : String) : py.extractString (py.str s) = some s
  u8 (n : ℤ) : py.extractU8 (py.int n) = if 0 ≤ n ∧ n < 2 ^ 8 then some (.ofNat n.toNat) else none
  u64 (n : ℤ) :
    py.extractU64 (py.int n) = if 0 ≤ n ∧ n < 2 ^ 64 then some (.ofNat n.toNat) else none
  i64 (n : ℤ) :
    py.extractI64 (py.int n) = if -2 ^ 63 ≤ n ∧ n < 2 ^ 63 then some (.ofInt n) else none
  items (vs : List V) : py.items (py.tuple vs) = some vs

inductive PyErr (V : Type) where
  | typeError (msg : String)
  | valueError (msg : String)
  /-- `lobcore.UnknownId` with its `.event`. -/
  | unknownId (msg : String) (event : V)
  /-- `lobcore.BookReject` with its `.event`. -/
  | bookReject (msg : String) (event : V)

abbrev PyResult (V : Type) := Except (PyErr V)

/-! Events as tuples. -/

/-- Event type names in code order. -/
def kindNames : List String :=
  ["", "add", "cancel", "exec", "delete", "replace", "modify", "unknown", "reject", "trade",
    "stp_cancel", "ioc_cancel", "fok_reject"]

/-- The name of an event kind. -/
def kindName (k : EventKind) : String := kindNames.getD k.code.toNat ""

/-- The kind of an event name. -/
def kindOf (name : String) : Option EventKind :=
  (kindNames.findIdx? fun n => n ≠ "" ∧ n = name).bind fun i => kindFromCode (.ofNat i)

section Values

variable {V : Type} (py : Border V)

/-- `(kind, a, b, px, qty, side)`. -/
def eventTuple (e : Event) : V :=
  py.tuple [py.str (kindName e.kind), py.int e.a.toNat, py.int e.b.toNat, py.int e.px.toInt,
    py.int e.qty.toNat, py.int e.side.toNat]

/-- The six fields, if all are of their types. -/
def fields (v : V) : Option (String × UInt64 × UInt64 × Int64 × UInt64 × UInt8) :=
  match py.items v with
  | some [kind, a, b, px, qty, side] => do
    return (← py.extractString kind, ← py.extractU64 a, ← py.extractU64 b, ← py.extractI64 px,
      ← py.extractU64 qty, ← py.extractU8 side)
  | _ => none

variable (quoted : String → String)

/-- Parse `(kind, a, b, px, qty, side)`. -/
def eventFromTuple (v : V) : PyResult V Event :=
  match fields py v with
  | none => .error (.typeError
      "event must be a (kind: str, a: int, b: int, px: int, qty: int, side: int) tuple")
  | some (name, a, b, px, qty, side) =>
    match kindOf name with
    | none => .error (.valueError ("unknown event kind " ++ quoted name))
    | some kind => .ok ⟨kind, a, b, px, qty, side⟩

/-- The record of one event. -/
def eventEncode (v : V) : PyResult V (List UInt8) := do
  return (← eventFromTuple py quoted v).encode

def pushItems (log : EventLog) : List V → PyResult V EventLog
  | [] => .ok log
  | v :: vs => do pushItems (log.push (← eventFromTuple py quoted v)) vs

/-- The digest of a log of the events. -/
def eventLogHash {δ : Type} (hash : List UInt8 → δ) (events : List V) : PyResult V δ := do
  return digest hash (← pushItems py quoted .new events)

/-- `"B"`, `"bid"`, `"buy"` or `0`, and `"S"`, `"A"`, `"ask"`, `"sell"` or `1`, in any case. -/
def sideFromPy (v : V) : PyResult V Side :=
  match py.extractString v with
  | some s =>
    let low := s.map Char.toLower
    if low = "b" ∨ low = "bid" ∨ low = "buy" then .ok .bid
    else if low = "s" ∨ low = "a" ∨ low = "ask" ∨ low = "sell" then .ok .ask
    else .error (.valueError ("side must be 'B'/'S', 'bid'/'ask' or 0/1, got " ++ quoted s))
  | none =>
    match py.extractU8 v with
    | none => .error (.typeError "side must be 'B'/'S', 'bid'/'ask' or 0/1")
    | some code =>
      match Side.fromCode code with
      | some side => .ok side
      | none => .error (.valueError
          ("side must be 0 (bid) or 1 (ask), got " ++ toString code.toNat))

end Values

/-! The classes. -/

/-- The name of a kind in an error text. -/
def debugKind : EventKind → String
  | .add => "Add"
  | .cancel => "Cancel"
  | .exec => "Exec"
  | .delete => "Delete"
  | .replace => "Replace"
  | .modify => "Modify"
  | .unknown => "Unknown"
  | .reject => "Reject"
  | .trade => "Trade"
  | .stpCancel => "StpCancel"
  | .iocCancel => "IocCancel"
  | .fokReject => "FokReject"

/-- The text of an error. -/
def errorText : BookError → String
  | .unknownId kind id => "unknown order id " ++ toString id.toNat ++ " in " ++ debugKind kind
  | .overExecute id held want => "over-execute of order " ++ toString id.toNat ++ ": have " ++
      toString held ++ ", want " ++ toString want
  | .duplicateId id => "duplicate order id " ++ toString id.toNat
  | .badQty => "bad quantity (zero or level overflow)"
  | .badPrice => "bad price (non-positive)"

/-- The exception of an error, with the record the log holds of it. -/
def bookError {V : Type} (py : Border V) (e : BookError) : PyErr V :=
  match e with
  | .unknownId .. => .unknownId (errorText e) (eventTuple py e.event)
  | _ => .bookReject (errorText e) (eventTuple py e.event)

/-- An object of either class. -/
structure PyBook (β : Type) where
  book : β
  log : EventLog

/-- A call, its numbers already of the types in its signature. -/
inductive PyCall (V : Type) where
  | add (id : OrderId) (side : V) (px : Int32) (qty : UInt32)
  | cancel (id : OrderId) (qty : UInt32)
  | delete (id : OrderId)
  | execute (id : OrderId) (qty : UInt32)
  | replace (old new : OrderId) (px : Int32) (qty : UInt32)

section Calls

variable {V β : Type} (py : Border V) (quoted : String → String)
variable (apply : β → Op → Exec (Reply × β))

/-- What the book is asked to do. -/
def PyCall.toOp : PyCall V → PyResult V Op
  | .add id side px qty => do return .add id (← sideFromPy py quoted side) px qty
  | .cancel id qty => .ok (.cancel id qty)
  | .delete id => .ok (.delete id)
  | .execute id qty => .ok (.execute id qty)
  | .replace old new px qty => .ok (.replace old new px qty)

/-- The result for Python. -/
def converted : Reply → PyResult V V
  | .ok e => .ok (eventTuple py e)
  | .error e => .error (bookError py e)

/-- A call: a side that is none raises before the book is asked; a reply is logged and converted. -/
def call (s : PyBook β) (c : PyCall V) : Exec (PyResult V V × PyBook β) :=
  match c.toOp py quoted with
  | .error err => .ok (.error err, s)
  | .ok op => do
    let (r, book) ← apply s.book op
    return (converted py r, ⟨book, s.log.push (loggedEvent r)⟩)

end Calls

/-- `Book(base_px, n_levels, tick)`. -/
def newBook (V : Type) (basePx : Int32) (nLevels : UInt32) (tick : Int32) :
    Exec (PyResult V (PyBook ArrayBook)) :=
  let top := basePx.toInt + (nLevels.toNat - 1) * tick.toInt
  if nLevels = 0 ∨ maxLevels < nLevels.toNat then
    return .error (.valueError ("n_levels must be in 1..=" ++ toString maxLevels ++ ", got " ++
      toString nLevels.toNat))
  else if tick ≤ 0 then
    return .error (.valueError ("tick must be positive, got " ++ toString tick.toInt))
  else if basePx ≤ 0 then
    return .error (.valueError ("base_px must be positive, got " ++ toString basePx.toInt))
  else if 2 ^ 31 - 1 < top then
    return .error (.valueError ("window top " ++ toString top ++ " exceeds the price range"))
  else do
    let book ← ArrayBook.withCapacity ⟨basePx.toInt, nLevels.toNat, tick.toInt⟩ 1024
    return .ok ⟨book, .new⟩

/-- `RefBook()`. -/
def newRefBook : PyBook RefBook := ⟨.new, .new⟩

/-! Tuples of events. -/

theorem kindOf_kindName (k : EventKind) : kindOf (kindName k) = some k := by
  cases k <;> decide

theorem kindName_of_kindOf {name : String} {k : EventKind} (h : kindOf name = some k) :
    kindName k = name := by
  obtain ⟨i, hi, hk⟩ := Option.bind_eq_some_iff.mp h
  obtain ⟨hlt, hname, -⟩ := List.findIdx?_eq_some_iff_getElem.mp hi
  have hcode : k.code.toNat = i := by
    have hlt' : i < 13 := hlt
    rw [← kindFromCode_eq_some hk, UInt8.toNat_ofNat']
    omega
  have hentry : kindNames[i] = name := (of_decide_eq_true hname).2
  rw [kindName, hcode, List.getD_eq_getElem?_getD, List.getElem?_eq_getElem hlt, hentry,
    Option.getD_some]

section Tuples

variable {V : Type} {py : Border V} {quoted : String → String}

theorem fields_eq_some {v : V} {name : String} {a b : UInt64} {px : Int64} {qty : UInt64}
    {side : UInt8} : fields py v = some (name, a, b, px, qty, side) ↔
      ∃ k i j p q s, py.items v = some [k, i, j, p, q, s] ∧ py.extractString k = some name ∧
        py.extractU64 i = some a ∧ py.extractU64 j = some b ∧ py.extractI64 p = some px ∧
        py.extractU64 q = some qty ∧ py.extractU8 s = some side := by
  constructor
  · intro h
    unfold fields at h
    split at h
    · rename_i k i j p q s hitems
      simp only [Option.bind_eq_bind, Option.bind_eq_some_iff, Option.pure_def, Option.some.injEq,
        Prod.mk.injEq] at h
      obtain ⟨_, hname, _, ha, _, hb, _, hpx, _, hqty, _, hside, rfl, rfl, rfl, rfl, rfl, rfl⟩ := h
      exact ⟨k, i, j, p, q, s, hitems, hname, ha, hb, hpx, hqty, hside⟩
    · cases h
  · rintro ⟨k, i, j, p, q, s, hitems, hname, ha, hb, hpx, hqty, hside⟩
    rw [fields, hitems]
    dsimp only
    rw [hname, ha, hb, hpx, hqty, hside]
    rfl

/-- A value is read as an event when it has the name of its kind and its fields as items. -/
theorem eventFromTuple_eq_ok {v : V} {e : Event} : eventFromTuple py quoted v = .ok e ↔
    fields py v = some (kindName e.kind, e.a, e.b, e.px, e.qty, e.side) := by
  constructor
  · intro h
    unfold eventFromTuple at h
    split at h
    · cases h
    · rename_i name a b px qty side hfields
      split at h
      · cases h
      · rename_i kind hkind
        cases h
        rw [hfields, kindName_of_kindOf hkind]
  · intro hfields
    unfold eventFromTuple
    rw [hfields]
    dsimp only
    rw [kindOf_kindName]

theorem Border.Faithful.extractU8_int (hpy : py.Faithful) {n : ℤ} {w : UInt8} :
    py.extractU8 (py.int n) = some w ↔ n = w.toNat := by
  have hlt := w.toNat_lt
  rw [hpy.u8, Option.ite_none_right_eq_some, Option.some.injEq, ← UInt8.toNat_inj,
    UInt8.toNat_ofNat']
  omega

theorem Border.Faithful.extractU64_int (hpy : py.Faithful) {n : ℤ} {w : UInt64} :
    py.extractU64 (py.int n) = some w ↔ n = w.toNat := by
  have hlt := w.toNat_lt
  rw [hpy.u64, Option.ite_none_right_eq_some, Option.some.injEq, ← UInt64.toNat_inj,
    UInt64.toNat_ofNat']
  omega

theorem Border.Faithful.extractI64_int (hpy : py.Faithful) {n : ℤ} {w : Int64} :
    py.extractI64 (py.int n) = some w ↔ n = w.toInt := by
  rw [hpy.i64, Option.ite_none_right_eq_some, Option.some.injEq, ← Int64.toInt_inj]
  constructor
  · rintro ⟨hn, hw⟩
    rwa [Int64.toInt_ofInt_of_le hn.1 hn.2] at hw
  · rintro rfl
    have hlow := w.le_toInt
    have hhigh := w.toInt_lt
    exact ⟨⟨hlow, hhigh⟩, Int64.toInt_ofInt_of_le hlow hhigh⟩

/-- Of a tuple of a text and integers the fields are its own items. -/
theorem fields_plain (hpy : py.Faithful) {name : String} {a b px qty side : ℤ} {e : Event} :
    fields py (py.tuple [py.str name, py.int a, py.int b, py.int px, py.int qty, py.int side]) =
        some (kindName e.kind, e.a, e.b, e.px, e.qty, e.side) ↔
      name = kindName e.kind ∧ a = e.a.toNat ∧ b = e.b.toNat ∧ px = e.px.toInt ∧
        qty = e.qty.toNat ∧ side = e.side.toNat := by
  rw [fields_eq_some]
  constructor
  · rintro ⟨k, i, j, p, q, s, hitems, hname, ha, hb, hpx, hqty, hside⟩
    rw [hpy.items] at hitems
    cases hitems
    rw [hpy.string] at hname
    exact ⟨Option.some.inj hname, hpy.extractU64_int.mp ha, hpy.extractU64_int.mp hb,
      hpy.extractI64_int.mp hpx, hpy.extractU64_int.mp hqty, hpy.extractU8_int.mp hside⟩
  · rintro ⟨rfl, ha, hb, hpx, hqty, hside⟩
    exact ⟨_, _, _, _, _, _, hpy.items _, hpy.string _, hpy.extractU64_int.mpr ha,
      hpy.extractU64_int.mpr hb, hpy.extractI64_int.mpr hpx, hpy.extractU64_int.mpr hqty,
      hpy.extractU8_int.mpr hside⟩

theorem eventFromTuple_eventTuple (hpy : py.Faithful) (e : Event) :
    eventFromTuple py quoted (eventTuple py e) = .ok e :=
  eventFromTuple_eq_ok.mpr ((fields_plain hpy).mpr ⟨rfl, rfl, rfl, rfl, rfl, rfl⟩)

theorem eventEncode_eq_ok {v : V} {rec : List UInt8} :
    eventEncode py quoted v = .ok rec ↔ ∃ e, eventFromTuple py quoted v = .ok e ∧
    e.encode = rec := by
  unfold eventEncode
  cases eventFromTuple py quoted v with
  | error err =>
    constructor
    · intro h
      cases h
    · rintro ⟨e, h, -⟩
      cases h
  | ok e =>
    constructor
    · exact fun h => ⟨e, rfl, Except.ok.inj h⟩
    · rintro ⟨e', he, rfl⟩
      obtain rfl := Except.ok.inj he
      rfl

theorem event_of_record {e e' : Event} (h : e.encode = e'.encode) : e = e' := by
  have hread := decode_encode e
  rw [show encode e = encode e' from Subtype.ext h, decode_encode] at hread
  exact (Option.some.inj hread).symm

/-- Events, their tuples and their records determine each other. A value is read as an event when
its items are extracted as the name of its kind and its fields, and is then encoded as its record;
a tuple of a text and integers is read as an event only when it is that event's tuple. -/
theorem tuples_and_records (hpy : py.Faithful) (quoted : String → String) :
    (∀ e, eventFromTuple py quoted (eventTuple py e) = .ok e) ∧
    (∀ v e, eventFromTuple py quoted v = .ok e ↔
      ∃ k a b px qty side, py.items v = some [k, a, b, px, qty, side] ∧
        py.extractString k = some (kindName e.kind) ∧ py.extractU64 a = some e.a ∧
        py.extractU64 b = some e.b ∧ py.extractI64 px = some e.px ∧
        py.extractU64 qty = some e.qty ∧ py.extractU8 side = some e.side) ∧
    (∀ name a b px qty side e, let v := py.tuple [py.str name, py.int a, py.int b, py.int px,
        py.int qty, py.int side]
      eventFromTuple py quoted v = .ok e ↔ v = eventTuple py e) ∧
    (∀ v rec, eventEncode py quoted v = .ok rec ↔
      ∃ e, eventFromTuple py quoted v = .ok e ∧ e.encode = rec) ∧
    ∀ v v' rec, eventEncode py quoted v = .ok rec → eventEncode py quoted v' = .ok rec →
      ∃ e, eventFromTuple py quoted v = .ok e ∧ eventFromTuple py quoted v' = .ok e := by
  refine ⟨eventFromTuple_eventTuple hpy, fun v e => eventFromTuple_eq_ok.trans fields_eq_some,
    fun name a b px qty side e => ⟨fun h => ?_, fun h => ?_⟩, fun _ _ => eventEncode_eq_ok,
    fun v v' rec h h' => ?_⟩
  · obtain ⟨rfl, rfl, rfl, rfl, rfl, rfl⟩ := (fields_plain hpy).mp (eventFromTuple_eq_ok.mp h)
    rfl
  · exact h ▸ eventFromTuple_eventTuple hpy e
  · obtain ⟨e, hread, hrec⟩ := eventEncode_eq_ok.mp h
    obtain ⟨e', hread', hrec'⟩ := eventEncode_eq_ok.mp h'
    obtain rfl := event_of_record (hrec.trans hrec'.symm)
    exact ⟨e, hread, hread'⟩

end Tuples

/-! Values of Python, to try the border on. -/

/-- A text, an integer, a truth value, an object with `__index__`, or a tuple. -/
inductive PyValue where
  | str (s : String)
  | int (n : ℤ)
  | bool (b : Bool)
  | indexed (n : ℤ)
  | tuple (items : List PyValue)

/-- The integer a value stands for. -/
def PyValue.index : PyValue → Option ℤ
  | .int n => some n
  | .bool b => some (if b then 1 else 0)
  | .indexed n => some n
  | _ => none

def PyValue.border : Border PyValue where
  str := .str
  int := .int
  tuple := .tuple
  extractString
    | .str s => some s
    | _ => none
  extractU8 v := v.index.bind fun n => if 0 ≤ n ∧ n < 2 ^ 8 then some (.ofNat n.toNat) else none
  extractU64 v := v.index.bind fun n => if 0 ≤ n ∧ n < 2 ^ 64 then some (.ofNat n.toNat) else none
  extractI64 v := v.index.bind fun n => if -2 ^ 63 ≤ n ∧ n < 2 ^ 63 then some (.ofInt n) else none
  items
    | .tuple vs => some vs
    | _ => none

theorem PyValue.border_faithful : PyValue.border.Faithful where
  string _ := rfl
  u8 _ := rfl
  u64 _ := rfl
  i64 _ := rfl
  items _ := rfl

/-- `("add", True, 0, 100, 5, 0)` is read and encoded as the event of order 1, whose tuple is
another value. -/
theorem tuples_and_records_bool :
    let v : PyValue := .tuple [.str "add", .bool true, .int 0, .int 100, .int 5, .int 0]
    let e : Event := ⟨.add, 1, 0, 100, 5, 0⟩
    eventFromTuple PyValue.border (fun s => s) v = .ok e ∧
    eventEncode PyValue.border (fun s => s) v = .ok e.encode ∧
    eventFromTuple PyValue.border (fun s => s) (eventTuple PyValue.border e) = .ok e := by
  obtain ⟨htuple, hread, -, hencode, -⟩ :=
    tuples_and_records PyValue.border_faithful fun s => s
  have he := (hread (.tuple [.str "add", .bool true, .int 0, .int 100, .int 5, .int 0])
    ⟨.add, 1, 0, 100, 5, 0⟩).mpr ⟨_, _, _, _, _, _, rfl, rfl, rfl, rfl, rfl, rfl, rfl⟩
  exact ⟨he, (hencode _ _).mpr ⟨_, he, rfl⟩, htuple _⟩

/-! What is told of the log. -/

section Told

variable {V : Type} (py : Border V)

/-- The event that a result carries, returned or with its exception. -/
def told : PyResult V V → Option V
  | .ok v => some v
  | .error (.unknownId _ event) => some event
  | .error (.bookReject _ event) => some event
  | .error _ => none

/-- An exception is of the class that its record names. -/
def Raised (out : PyResult V V) : Prop :=
  (∀ msg v, out = .error (.unknownId msg v) → ∃ e, v = eventTuple py e ∧ e.kind = .unknown) ∧
    ∀ msg v, out = .error (.bookReject msg v) → ∃ e, v = eventTuple py e ∧ e.kind = .reject

theorem told_converted (r : Reply) :
    told (converted py r) = some (eventTuple py (loggedEvent r)) := by
  cases r with
  | ok e => rfl
  | error e => cases e <;> rfl

theorem raised_converted (r : Reply) : Raised py (converted py r) := by
  cases r with
  | ok e => exact ⟨nofun, nofun⟩
  | error e =>
    cases e with
    | unknownId kind id =>
      refine ⟨fun msg v h => ?_, nofun⟩
      cases h
      exact ⟨_, rfl, rfl⟩
    | _ =>
      refine ⟨nofun, fun msg v h => ?_⟩
      cases h
      exact ⟨_, rfl, rfl⟩

variable {py}

theorem sideFromPy_error {quoted : String → String} {v : V} {err : PyErr V}
    (h : sideFromPy py quoted v = .error err) :
    told (.error err) = none ∧ Raised py (.error err) := by
  have hplain : ∀ err : PyErr V, (∃ msg, err = .typeError msg) ∨ (∃ msg, err = .valueError msg) →
      told (.error err) = none ∧ Raised py (.error err) := by
    rintro err (⟨msg, rfl⟩ | ⟨msg, rfl⟩) <;> exact ⟨rfl, nofun, nofun⟩
  apply hplain
  unfold sideFromPy at h
  split at h
  · dsimp only at h
    split at h
    · cases h
    split at h
    · cases h
    · cases h
      exact Or.inr ⟨_, rfl⟩
  · split at h
    · cases h
      exact Or.inl ⟨_, rfl⟩
    split at h
    · cases h
    · cases h
      exact Or.inr ⟨_, rfl⟩

end Told

section Runs

variable {V β : Type} {py : Border V} {quoted : String → String}
variable {apply : β → Op → Exec (Reply × β)} {s t : PyBook β} {out : PyResult V V}

theorem toOp_error {c : PyCall V} {err : PyErr V} (h : c.toOp py quoted = .error err) :
    told (.error err) = none ∧ Raised py (.error err) := by
  cases c with
  | add id side px qty =>
    cases hside : sideFromPy py quoted side with
    | ok sd =>
      rw [PyCall.toOp, hside] at h
      cases h
    | error err' =>
      rw [PyCall.toOp, hside] at h
      cases h
      exact sideFromPy_error hside
  | _ => cases h

/-- One call either raises before the book is asked, or logs the one event it tells. -/
theorem call_cases {c : PyCall V} (h : call py quoted apply s c = .ok (out, t)) : Raised py out ∧
    ((told out = none ∧ t = s) ∨
      ∃ r book, told out = some (eventTuple py (loggedEvent r)) ∧
        t = ⟨book, s.log.push (loggedEvent r)⟩) := by
  unfold call at h
  split at h
  · rename_i err hop
    cases h
    obtain ⟨htold, hraised⟩ := toOp_error hop
    exact ⟨hraised, Or.inl ⟨htold, rfl⟩⟩
  · rename_i op hop
    obtain ⟨⟨r, book⟩, happly, hrest⟩ := bind_eq_ok.mp h
    cases hrest
    exact ⟨raised_converted py r, Or.inr ⟨r, book, told_converted py r, rfl⟩⟩

theorem pushItems_tuple (hpy : py.Faithful) (log : EventLog) (e : Event) (vs : List V) :
    pushItems py quoted log (eventTuple py e :: vs) = pushItems py quoted (log.push e) vs := by
  rw [pushItems, eventFromTuple_eventTuple hpy]
  rfl

theorem run_told (hpy : py.Faithful) {calls : List (PyCall V)} {outs : List (PyResult V V)}
    (h : run (call py quoted apply) s calls = .ok (outs, t)) : (∀ out ∈ outs, Raised py out) ∧
      pushItems py quoted s.log (outs.filterMap told) = .ok t.log ∧
      t.log.len = s.log.len + (outs.filterMap told).length := by
  induction calls generalizing s outs with
  | nil =>
    obtain ⟨rfl, rfl⟩ := Prod.mk.inj (Except.ok.inj h)
    exact ⟨nofun, rfl, rfl⟩
  | cons c calls ih =>
    obtain ⟨out, rest, u, hcall, hrest, rfl⟩ := run_cons_eq_ok.mp h
    obtain ⟨hraised, hcase⟩ := call_cases hcall
    obtain ⟨hall, hpush, hlen⟩ := ih hrest
    refine ⟨List.forall_mem_cons.mpr ⟨hraised, hall⟩, ?_⟩
    rcases hcase with ⟨hnone, rfl⟩ | ⟨r, book, hsome, rfl⟩
    · rw [List.filterMap_cons_none hnone]
      exact ⟨hpush, hlen⟩
    · rw [List.filterMap_cons_some hsome, pushItems_tuple hpy, List.length_cons]
      have hnext : t.log.len = s.log.len + 1 + (rest.filterMap told).length := hlen
      exact ⟨hpush, by omega⟩

/-- Whoever keeps the events that an object returned or raised can compute the digest of its log;
every exception is of the class that its record names. -/
theorem told_is_logged (hpy : py.Faithful) {book : β} {calls : List (PyCall V)}
    {outs : List (PyResult V V)}
    (h : run (call py quoted apply) ⟨book, .new⟩ calls = .ok (outs, t)) :
    (∀ (δ : Type) (hash : List UInt8 → δ),
      eventLogHash py quoted hash (outs.filterMap told) = .ok (digest hash t.log)) ∧
    t.log.len = (outs.filterMap told).length ∧ ∀ out ∈ outs, Raised py out := by
  obtain ⟨hall, hpush, hlen⟩ := run_told hpy h
  refine ⟨fun δ hash => ?_, by simpa [EventLog.new] using hlen, hall⟩
  have hlog : pushItems py quoted .new (outs.filterMap told) = .ok t.log := hpush
  rw [eventLogHash, hlog]
  rfl

end Runs

/-- Orders of both sides, a side that is none, and calls that are refused. -/
def refusedCalls : List (PyCall PyValue) := [.add 1 (.str "Buy") 100 5, .add 2 (.bool true) 110 5,
  .add 3 (.int 7) 100 5, .execute 1 9, .delete 4, .cancel 1 5]

theorem told_is_logged_refused : ∃ outs t,
    run (call PyValue.border (fun s => s) RefBook.apply) newRefBook refusedCalls = .ok (outs, t) ∧
    outs.length = 6 ∧ t.log.len = 5 ∧
    (∀ (δ : Type) (hash : List UInt8 → δ),
      eventLogHash PyValue.border (fun s => s) hash (outs.filterMap told) =
        .ok (digest hash t.log)) ∧
    (outs.filterMap told).length = 5 ∧ ∀ out ∈ outs, Raised PyValue.border out := by
  obtain ⟨⟨outs, t⟩, hrun, hlen⟩ := ok_of_any
    (x := run (call PyValue.border (fun s => s) RefBook.apply) newRefBook refusedCalls)
    (f := fun p => decide (p.1.length = 6 ∧ p.2.log.len = 5)) (by decide +kernel)
  obtain ⟨hsix, hfive⟩ : outs.length = 6 ∧ t.log.len = 5 := of_decide_eq_true hlen
  obtain ⟨hhash, hcount, hraised⟩ := told_is_logged PyValue.border_faithful hrun
  exact ⟨outs, t, hrun, hsix, hfive, hhash, hcount.symm.trans hfive, hraised⟩

/-! The two classes. -/

section Classes

variable {V : Type} {py : Border V} {quoted : String → String}
variable {b : PyBook ArrayBook} {r : PyBook RefBook} {m : Market}

/-- Two objects over one market, with one log. -/
structure Twins (b : PyBook ArrayBook) (r : PyBook RefBook) (m : Market) : Prop where
  array : b.book.Refines m
  ref : r.book.Refines m
  log : b.log = r.log

theorem Twins.call (h : Twins b r m) (hroom : r.book.liveOrders < 2 ^ 32 - 1) (c : PyCall V) :
    ∃ out b' r' m', call py quoted ArrayBook.apply b c = .ok (out, b') ∧
      call py quoted RefBook.apply r c = .ok (out, r') ∧ Twins b' r' m' := by
  cases hop : c.toOp py quoted with
  | error err =>
    exact ⟨.error err, b, r, m, by rw [PythonBooks.call, hop], by rw [PythonBooks.call, hop], h⟩
  | ok op =>
    have hlive : m.live < nilSlot := by
      rw [h.ref.liveOrders_eq] at hroom
      unfold nilSlot
      omega
    obtain ⟨b', hb, hb'⟩ := h.array.apply op ((m.live_apply_le op).trans hlive)
    obtain ⟨r', hr, hr'⟩ := h.ref.apply op
    have hlog := congrArg (EventLog.push · (loggedEvent (m.apply op).1)) h.log
    refine ⟨converted py (m.apply op).1, ⟨b', b.log.push (loggedEvent (m.apply op).1)⟩,
      ⟨r', r.log.push (loggedEvent (m.apply op).1)⟩, (m.apply op).2, ?_, ?_, ⟨hb', hr', hlog⟩⟩
    · simp only [PythonBooks.call, hop, hb, ok_bind, pure_eq_ok]
    · simp only [PythonBooks.call, hop, hr, ok_bind, pure_eq_ok]

theorem twins_run (h : Twins b r m) {calls : List (PyCall V)}
    (hbound : Along (call py quoted RefBook.apply)
      (fun r => r.book.liveOrders < 2 ^ 32 - 1) r calls) :
    ∃ outs b' r' m', run (call py quoted ArrayBook.apply) b calls = .ok (outs, b') ∧
      run (call py quoted RefBook.apply) r calls = .ok (outs, r') ∧ Twins b' r' m' := by
  induction calls generalizing b r m with
  | nil => exact ⟨[], b, r, m, rfl, rfl, h⟩
  | cons c calls ih =>
    obtain ⟨out, b₁, r₁, m₁, hb, hr, h₁⟩ := @Twins.call V py quoted _ _ _ h hbound.head c
    obtain ⟨outs, b', r', m', hb', hr', h'⟩ := ih h₁ (hbound.tail hr)
    exact ⟨out :: outs, b', r', m', run_cons_ok hb hb', run_cons_ok hr hr', h'⟩

theorem reservable_1024 : Reservable 1024 := by
  constructor <;> decide

/-- The constructor refuses exactly the windows that no array book can have. -/
theorem newBook_cases (V : Type) (basePx : Int32) (nLevels : UInt32) (tick : Int32) :
    (¬ ValidConfig ⟨basePx.toInt, nLevels.toNat, tick.toInt⟩ ∧
      ∃ msg, newBook V basePx nLevels tick = .ok (.error (.valueError msg))) ∨
    ValidConfig ⟨basePx.toInt, nLevels.toNat, tick.toInt⟩ ∧
      ∃ book : ArrayBook, newBook V basePx nLevels tick = .ok (.ok ⟨book, .new⟩) ∧
        book.Refines .empty := by
  have hzero : (0 : Int32).toInt = 0 := rfl
  unfold newBook
  dsimp only
  split
  · rename_i hlevels
    refine Or.inl ⟨fun hcfg => ?_, _, rfl⟩
    have hpos : 1 ≤ nLevels.toNat := hcfg.levels_pos
    have hle : nLevels.toNat ≤ maxLevels := hcfg.levels_le
    rcases hlevels with rfl | hlevels
    · rw [UInt32.toNat_zero] at hpos
      omega
    · omega
  rename_i hlevels
  rw [not_or, ← UInt32.toNat_inj, UInt32.toNat_zero] at hlevels
  split
  · rename_i htick
    refine Or.inl ⟨fun hcfg => ?_, _, rfl⟩
    have hpos : 0 < tick.toInt := hcfg.tick_pos
    rw [Int32.le_iff_toInt_le, hzero] at htick
    omega
  rename_i htick
  rw [Int32.le_iff_toInt_le, hzero] at htick
  split
  · rename_i hbase
    refine Or.inl ⟨fun hcfg => ?_, _, rfl⟩
    have hpos : 0 < basePx.toInt := hcfg.base_pos
    rw [Int32.le_iff_toInt_le, hzero] at hbase
    omega
  rename_i hbase
  rw [Int32.le_iff_toInt_le, hzero] at hbase
  split
  · rename_i htop
    refine Or.inl ⟨fun hcfg => ?_, _, rfl⟩
    have hbound : basePx.toInt + (nLevels.toNat - 1) * tick.toInt < 2 ^ 31 := hcfg.top
    omega
  · rename_i htop
    have hcfg : ValidConfig ⟨basePx.toInt, nLevels.toNat, tick.toInt⟩ :=
      ⟨by dsimp only; omega, by dsimp only; omega, by dsimp only; omega, by dsimp only; omega,
        by dsimp only; omega⟩
    obtain ⟨book, hbook, href, -⟩ := (ArrayBook.withCapacity_returns (Q := True) hcfg fun _ =>
      reservable_1024).ok_of trivial
    exact Or.inr ⟨hcfg, book, by rw [hbook]; rfl, href⟩

/-- Whatever is called with whatever arguments, both classes return and raise the same, keep the
same log and show the same, and nothing aborts; an object of the first one is there for every
window that an array book can have, and for no other. -/
theorem classes_agree (py : Border V) (quoted : String → String) (basePx : Int32)
    (nLevels : UInt32) (tick : Int32) :
    (¬ ValidConfig ⟨basePx.toInt, nLevels.toNat, tick.toInt⟩ ∧
      ∃ msg, newBook V basePx nLevels tick = .ok (.error (.valueError msg))) ∨
    ValidConfig ⟨basePx.toInt, nLevels.toNat, tick.toInt⟩ ∧
      ∃ b₀, newBook V basePx nLevels tick = .ok (.ok b₀) ∧ ∀ calls : List (PyCall V),
        Along (call py quoted RefBook.apply)
        (fun r => r.book.liveOrders < 2 ^ 32 - 1) newRefBook calls →
        ∃ outs b r, run (call py quoted ArrayBook.apply) b₀ calls = .ok (outs, b) ∧
          run (call py quoted RefBook.apply) newRefBook calls = .ok (outs, r) ∧ b.log = r.log ∧
          SameViews b.book r.book := by
  rcases newBook_cases V basePx nLevels tick with hbad | ⟨hcfg, book, hnew, href⟩
  · exact Or.inl hbad
  · refine Or.inr ⟨hcfg, _, hnew, fun calls hbound => ?_⟩
    have hstart : Twins ⟨book, .new⟩ newRefBook .empty := ⟨href, RefBook.refines_new, rfl⟩
    obtain ⟨outs, b, r, m, hb, hr, htwins⟩ := twins_run hstart hbound
    exact ⟨outs, b, r, hb, hr, htwins.log, sameViews_of_refines htwins.array htwins.ref⟩

end Classes

end Lobcore.PythonBooks
