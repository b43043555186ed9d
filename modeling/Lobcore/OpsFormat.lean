import Lobcore.OrderTypes

/-!
The fixed-width op format (`ops.rs`). A record has 25 bytes: the kind, two ids, a price and a
quantity, little-endian. The kinds are the event codes of the calls; the second id of an add is
the code of its side.
-/
namespace Lobcore.OpsFormat

open OrderTypes

def opRecordLen : ℕ := 25

inductive OpsError where
  /-- Byte length is not a multiple of `opRecordLen`. -/
  | length (n : ℕ)
  /-- Record `index` has an unknown kind or side byte. -/
  | record (index : ℕ) (kind : UInt8)
  deriving DecidableEq, Repr

/-- Inverse of `EventKind.code`. -/
def kindFromCode : UInt8 → Option EventKind
  | 1 => some .add
  | 2 => some .cancel
  | 3 => some .exec
  | 4 => some .delete
  | 5 => some .replace
  | 6 => some .modify
  | 7 => some .unknown
  | 8 => some .reject
  | 9 => some .trade
  | 10 => some .stpCancel
  | 11 => some .iocCancel
  | 12 => some .fokReject
  | _ => none

theorem kindFromCode_eq_some {c : UInt8} {kind : EventKind} (h : kindFromCode c = some kind) :
    c = kind.code := by
  unfold kindFromCode at h
  split at h <;> cases h <;> rfl

/-- The number that little-endian bytes spell. -/
def leNat : List UInt8 → ℕ
  | [] => 0
  | b :: bs => b.toNat + 256 * leNat bs

/-- The number in the `n` bytes from `off` on. -/
def leAt (bytes : List UInt8) (off n : ℕ) : ℕ := leNat ((bytes.drop off).take n)

def u64Le (bytes : List UInt8) (off : ℕ) : UInt64 := .ofNat (leAt bytes off 8)

def u32Le (bytes : List UInt8) (off : ℕ) : UInt32 := .ofNat (leAt bytes off 4)

def i32Le (bytes : List UInt8) (off : ℕ) : Int32 := (u32Le bytes off).toInt32

/-- The kind, the two ids, the price and the quantity of a record. -/
def fields : Op → EventKind × UInt64 × UInt64 × Int32 × UInt32
  | .add id side px qty => (.add, id, side.code.toUInt64, px, qty)
  | .cancel id qty => (.cancel, id, 0, 0, qty)
  | .execute id qty => (.exec, id, 0, 0, qty)
  | .delete id => (.delete, id, 0, 0, 0)
  | .replace old new px qty => (.replace, old, new, px, qty)

def encode (op : Op) : List UInt8 :=
  let (kind, id, id2, px, qty) := fields op
  kind.code :: (leBytes 8 id.toNat ++ leBytes 8 id2.toNat ++ leBytes 4 px.toUInt32.toNat ++
    leBytes 4 qty.toNat)

/-- Serialise an op sequence to `ops.bin` bytes. -/
def encodeOps (ops : List Op) : List UInt8 := ops.flatMap encode

/-- The op of a record of `opRecordLen` bytes. -/
def decode (rec : List UInt8) : Option Op :=
  let id := u64Le rec 1
  let id2 := u64Le rec 9
  let px := i32Le rec 17
  let qty := u32Le rec 21
  match kindFromCode (rec.headD 0) with
  | some .add =>
    if id2.toNat < 256 then (Side.fromCode id2.toUInt8).map fun side =>
      .add id side px qty else none
  | some .cancel => some (.cancel id qty)
  | some .exec => some (.execute id qty)
  | some .delete => some (.delete id)
  | some .replace => some (.replace id id2 px qty)
  | _ => none

/-- The first `k` records of the bytes. -/
def records (bytes : List UInt8) : ℕ → List (List UInt8)
  | 0 => []
  | k + 1 => bytes.take opRecordLen :: records (bytes.drop opRecordLen) k

/-- The ops of the records, the first bad record stopping it. -/
def decodeAll (index : ℕ) : List (List UInt8) → Except OpsError (List Op)
  | [] => .ok []
  | rec :: recs =>
    match decode rec with
    | none => .error (.record index (rec.headD 0))
    | some op => (decodeAll (index + 1) recs).map (op :: ·)

/-- Parse `ops.bin` bytes. -/
def decodeOps (bytes : List UInt8) : Except OpsError (List Op) :=
  if bytes.length % opRecordLen ≠ 0 then .error (.length bytes.length)
  else decodeAll 0 (records bytes (bytes.length / opRecordLen))

/-- The ops of accepted bytes are those of the records, one by one. -/
theorem decodeAll_ok {index : ℕ} {recs : List (List UInt8)} {ops : List Op}
    (h : decodeAll index recs = .ok ops) :
    List.Forall₂ (fun rec op => decode rec = some op) recs ops := by
  induction recs generalizing index ops with
  | nil =>
    obtain rfl := Except.ok.inj h
    exact List.Forall₂.nil
  | cons rec recs ih =>
    unfold decodeAll at h
    cases hop : decode rec with
    | none =>
      rw [hop] at h
      cases h
    | some op =>
      simp only [hop] at h
      cases hrest : decodeAll (index + 1) recs with
      | error e =>
        rw [hrest] at h
        cases h
      | ok rest =>
        rw [hrest] at h
        obtain rfl := Except.ok.inj h
        exact List.Forall₂.cons hop (ih hrest)

theorem decodeOps_ok {bytes : List UInt8} {ops : List Op} (h : decodeOps bytes = .ok ops) :
    bytes.length % opRecordLen = 0 ∧ List.Forall₂ (fun rec op => decode rec = some op)
      (records bytes (bytes.length / opRecordLen)) ops := by
  unfold decodeOps at h
  split at h
  · cases h
  · rename_i hlen
    exact ⟨not_not.mp hlen, decodeAll_ok h⟩

end Lobcore.OpsFormat
