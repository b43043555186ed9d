import Lobcore.Replays

/-!
The message writers of the synthetic day (`itch.rs`). A writer appends one frame: the
two-byte payload length, then the payload, all integers big-endian. What a writer wrote,
the parser reads back.
-/
namespace Lobcore.Writers

open Checked OrderTypes Payloads Replays

/-- The last `k` bytes of `to_be_bytes`. -/
def beBytes (k n : ℕ) : Bytes := (leBytes k n).reverse

/-- The table of the writers: the one of the parser without `O`. -/
def specLen (ty : Char) : Option ℕ := if ty = 'O' then none else Payloads.specLen ty

structure Header where
  locate : UInt16
  tracking : UInt16
  ts : UInt64
  deriving DecidableEq, Repr

/-- A byte array of fixed length. -/
abbrev Alpha (n : ℕ) := { b : Bytes // b.length = n }

theorem length_blank : (List.replicate 8 (32 : UInt8)).length = 8 := rfl

/-- The payload: type, common header, fields. -/
def payload (ty : Char) (h : Header) (fields : Bytes) : Bytes :=
  UInt8.ofNat ty.toNat :: (beBytes 2 h.locate.toNat ++ (beBytes 2 h.tracking.toNat ++
    (beBytes 6 h.ts.toNat ++ fields)))

/-- `Frame::open` to `Frame::close`. -/
def frame (out : Bytes) (ty : Char) (h : Header) (fields : Bytes) : Exec Bytes := do
  ensure (h.ts.toNat < 2 ^ 48)
  ensure (some (payload ty h fields).length = specLen ty)
  ensure ((payload ty h fields).length < 2 ^ 16)
  return out ++ (beBytes 2 (payload ty h fields).length ++ payload ty h fields)

def systemFields (code : UInt8) : Bytes := [code]

def systemEvent (out : Bytes) (h : Header) (code : UInt8) : Exec Bytes :=
  frame out 'S' h (systemFields code)

/-- The characters of a literal as bytes. -/
def ascii (s : String) : Bytes := s.toList.map fun c => UInt8.ofNat c.toNat

/-- A common stock of round lot 100 in the first price tier. -/
def directoryFields (stock : Alpha 8) : Bytes :=
  stock.val ++ (ascii "Q " ++ (beBytes 4 100 ++ (ascii "NCZ PNN1N" ++ (beBytes 4 0 ++ ascii "N"))))

def stockDirectory (out : Bytes) (h : Header) (stock : Alpha 8) : Exec Bytes :=
  frame out 'R' h (directoryFields stock)

def actionFields (stock : Alpha 8) (state : UInt8) : Bytes :=
  stock.val ++ ([state] ++ ascii "     ")

def tradingAction (out : Bytes) (h : Header) (stock : Alpha 8) (state : UInt8) : Exec Bytes :=
  frame out 'H' h (actionFields stock state)

def positionFields (mpid : Alpha 4) (stock : Alpha 8) : Bytes :=
  mpid.val ++ (stock.val ++ ascii "YNA")

def mpidPosition (out : Bytes) (h : Header) (mpid : Alpha 4) (stock : Alpha 8) : Exec Bytes :=
  frame out 'L' h (positionFields mpid stock)

def addFields (r : UInt64) (side : UInt8) (qty : UInt32) (stock : Alpha 8) (px : UInt32) : Bytes :=
  beBytes 8 r.toNat ++ ([side] ++ (beBytes 4 qty.toNat ++ (stock.val ++ beBytes 4 px.toNat)))

def addOrder (out : Bytes) (h : Header) (r : UInt64) (side : UInt8) (qty : UInt32)
    (stock : Alpha 8) (px : UInt32) : Exec Bytes :=
  frame out 'A' h (addFields r side qty stock px)

def addMpidFields (r : UInt64) (side : UInt8) (qty : UInt32) (stock : Alpha 8) (px : UInt32)
    (mpid : Alpha 4) : Bytes :=
  beBytes 8 r.toNat ++ ([side] ++ (beBytes 4 qty.toNat ++ (stock.val ++ (beBytes 4 px.toNat ++
    mpid.val))))

def addOrderMpid (out : Bytes) (h : Header) (r : UInt64) (side : UInt8) (qty : UInt32)
    (stock : Alpha 8) (px : UInt32) (mpid : Alpha 4) : Exec Bytes :=
  frame out 'F' h (addMpidFields r side qty stock px mpid)

def executedFields (r : UInt64) (qty : UInt32) (matchNo : UInt64) : Bytes :=
  beBytes 8 r.toNat ++ (beBytes 4 qty.toNat ++ beBytes 8 matchNo.toNat)

def orderExecuted (out : Bytes) (h : Header) (r : UInt64) (qty : UInt32) (matchNo : UInt64) :
    Exec Bytes := frame out 'E' h (executedFields r qty matchNo)

def executedPxFields (r : UInt64) (qty : UInt32) (matchNo : UInt64) (printable : UInt8)
    (px : UInt32) : Bytes :=
  beBytes 8 r.toNat ++ (beBytes 4 qty.toNat ++ (beBytes 8 matchNo.toNat ++ ([printable] ++
    beBytes 4 px.toNat)))

def orderExecutedWithPrice (out : Bytes) (h : Header) (r : UInt64) (qty : UInt32)
    (matchNo : UInt64) (printable : UInt8) (px : UInt32) : Exec Bytes :=
  frame out 'C' h (executedPxFields r qty matchNo printable px)

def cancelFields (r : UInt64) (qty : UInt32) : Bytes := beBytes 8 r.toNat ++ beBytes 4 qty.toNat

def orderCancel (out : Bytes) (h : Header) (r : UInt64) (qty : UInt32) : Exec Bytes :=
  frame out 'X' h (cancelFields r qty)

def orderDelete (out : Bytes) (h : Header) (r : UInt64) : Exec Bytes :=
  frame out 'D' h (beBytes 8 r.toNat)

def replaceFields (old new : UInt64) (qty px : UInt32) : Bytes :=
  beBytes 8 old.toNat ++ (beBytes 8 new.toNat ++ (beBytes 4 qty.toNat ++ beBytes 4 px.toNat))

def orderReplace (out : Bytes) (h : Header) (old new : UInt64) (qty px : UInt32) : Exec Bytes :=
  frame out 'U' h (replaceFields old new qty px)

/-- Reference 0 and side `B`, as on the live feed. -/
def tradeFields (qty : UInt32) (stock : Alpha 8) (px : UInt32) (matchNo : UInt64) : Bytes :=
  beBytes 8 0 ++ (ascii "B" ++ (beBytes 4 qty.toNat ++ (stock.val ++ (beBytes 4 px.toNat ++
    beBytes 8 matchNo.toNat))))

def trade (out : Bytes) (h : Header) (qty : UInt32) (stock : Alpha 8) (px : UInt32)
    (matchNo : UInt64) : Exec Bytes := frame out 'P' h (tradeFields qty stock px matchNo)

theorem length_leBytes (k n : ℕ) : (leBytes k n).length = k := by
  induction k generalizing n with
  | zero => rfl
  | succ k ih => rw [leBytes, List.length_cons, ih]

@[simp] theorem length_beBytes (k n : ℕ) : (beBytes k n).length = k := by
  rw [beBytes, List.length_reverse, length_leBytes]

/-- The last byte of a number and the number before it. -/
theorem last_byte (k n : ℕ) :
    (UInt8.ofNat (n % 256)).toNat + 256 * (n / 256 % 256 ^ k) = n % 256 ^ (k + 1) := by
  rw [pow_succ', Nat.mod_mul, UInt8.toNat_ofNat', Nat.mod_eq_of_lt (Nat.mod_lt n (by decide))]

theorem beNat_beBytes (k n : ℕ) : beNat (beBytes k n) = n % 256 ^ k := by
  rw [beNat, beBytes, List.foldl_reverse]
  induction k generalizing n with
  | zero => rw [leBytes, List.foldr_nil, pow_zero, Nat.mod_one]
  | succ k ih =>
    rw [leBytes, List.foldr_cons, ih, ← last_byte]
    omega

section Words

variable {xs ys : Bytes} {off n : ℕ}

theorem word_left (h : off + n ≤ xs.length) : word (xs ++ ys) off n = word xs off n := by
  rw [word, word, List.drop_append_of_le_length (by omega), List.take_append_of_le_length]
  rw [List.length_drop]
  omega

theorem word_right (h : xs.length ≤ off) : word (xs ++ ys) off n = word ys (off - xs.length) n := by
  rw [word, word, List.drop_append, List.drop_eq_nil_of_le h, List.nil_append]

theorem word_cons {x : UInt8} : word (x :: xs) (off + 1) n = word xs off n := rfl

theorem word_self (k x : ℕ) : word (beBytes k x) 0 k = x % 256 ^ k := by
  rw [word, List.drop_zero, List.take_of_length_le (by simp), beNat_beBytes]

end Words

/-- The payload parses to a message that reads as the note. -/
def Spells (bytes : Bytes) (n : Note) : Prop := ∃ m, parse bytes = .ok m ∧ note m = n

theorem parse_ok {b : UInt8} {rest : Bytes} (want : ℕ)
    (hspec : Payloads.specLen (letter b) = some want) (hlen : (b :: rest).length = want) :
    parse (b :: rest) = .ok (classify ⟨b :: rest, hlen, rfl⟩ hspec) := by
  rw [parse]
  split
  · rename_i h
    rw [hspec] at h
    cases h
  · rename_i w h
    obtain rfl : want = w := Option.some.inj (hspec.symm.trans h)
    rw [dif_pos hlen]

theorem length_payload (ty : Char) (h : Header) (fields : Bytes) :
    (payload ty h fields).length = 11 + fields.length := by
  simp only [payload, List.length_cons, List.length_append, length_beBytes]
  omega

section Fields

variable {ty : Char} {h : Header} {fields : Bytes}

theorem locate_payload : u16At (payload ty h fields) 1 = h.locate := by
  have hword : word (payload ty h fields) 1 2 = h.locate.toNat := by
    rw [payload, word_cons, word_left (by simp), word_self]
    exact Nat.mod_eq_of_lt h.locate.toNat_lt
  rw [u16At, hword, UInt16.ofNat_toNat]

theorem ts_payload (hts : h.ts.toNat < 2 ^ 48) : tsAt (payload ty h fields) 5 = h.ts := by
  have hword : word (payload ty h fields) 5 6 = h.ts.toNat := by
    rw [payload, word_cons, word_right (by simp), word_right (by simp), word_left (by simp)]
    simp only [length_beBytes]
    rw [word_self]
    exact Nat.mod_eq_of_lt hts
  rw [tsAt, hword, UInt64.ofNat_toNat]

theorem headerTs_payload (hts : h.ts.toNat < 2 ^ 48) :
    headerTs (payload ty h fields) = some h.ts := by
  rw [headerTs, if_pos (by rw [length_payload, headerLen]; omega), ts_payload hts]

theorem headerLocate_payload : headerLocate (payload ty h fields) = some h.locate := by
  rw [headerLocate, if_pos (by rw [length_payload, headerLen]; omega), locate_payload]

end Fields

theorem u64_chunk (x : UInt64) (rest : Bytes) : u64At (beBytes 8 x.toNat ++ rest) 0 = x := by
  rw [u64At, word_left (by simp), word_self,
    Nat.mod_eq_of_lt (show x.toNat < 256 ^ 8 from x.toNat_lt), UInt64.ofNat_toNat]

theorem u32_chunk (x : UInt32) (rest : Bytes) : u32At (beBytes 4 x.toNat ++ rest) 0 = x := by
  rw [u32At, word_left (by simp), word_self,
    Nat.mod_eq_of_lt (show x.toNat < 256 ^ 4 from x.toNat_lt), UInt32.ofNat_toNat]

/-- A number behind a byte array. -/
theorem u32_after (pre : Bytes) {n : ℕ} (h : pre.length = n) (x : UInt32) (rest : Bytes) :
    u32At (pre ++ (beBytes 4 x.toNat ++ rest)) n = x := by
  rw [u32At, word_right h.le, h, Nat.sub_self]
  exact u32_chunk x rest

section Spelling

variable (h : Header)

theorem length_add (r : UInt64) (side : UInt8) (qty : UInt32) (stock : Alpha 8) (px : UInt32) :
    (payload 'A' h (addFields r side qty stock px)).length = 36 := by
  simp [length_payload, addFields, stock.property]

/-- The message that an `A` payload parses to. -/
def addMsg (r : UInt64) (side : UInt8) (qty : UInt32) (stock : Alpha 8) (px : UInt32) : Msg :=
  .add ⟨payload 'A' h (addFields r side qty stock px), length_add h r side qty stock px, rfl⟩

variable (hts : h.ts.toNat < 2 ^ 48)

include hts

theorem spells_system (code : UInt8) :
    Spells (payload 'S' h (systemFields code)) ⟨83, some h.ts, .system code h.ts⟩ := by
  have hlen : (payload 'S' h (systemFields code)).length = 12 := length_payload ..
  refine ⟨_, parse_ok 12 rfl hlen, ?_⟩
  show (⟨83, headerTs (payload 'S' h _), .system (byteAt (payload 'S' h _) 11)
    (tsAt (payload 'S' h _) 5)⟩ : Note) = _
  rw [headerTs_payload hts, ts_payload hts]
  rfl

theorem spells_directory (stock : Alpha 8) :
    Spells (payload 'R' h (directoryFields stock))
      ⟨82, some h.ts, .directory h.locate stock.val⟩ := by
  have hlen : (payload 'R' h (directoryFields stock)).length = 39 := by
    simp [length_payload, directoryFields, stock.property, ascii]
  refine ⟨_, parse_ok 39 rfl hlen, ?_⟩
  show (⟨82, headerTs (payload 'R' h _), .directory (u16At (payload 'R' h _) 1)
    ((directoryFields stock).take 8)⟩ : Note) = _
  have hstock : (directoryFields stock).take 8 = stock.val := by
    rw [directoryFields, List.take_append_of_le_length stock.property.ge,
      List.take_of_length_le stock.property.le]
  rw [headerTs_payload hts, locate_payload, hstock]

theorem spells_action (stock : Alpha 8) (state : UInt8) :
    Spells (payload 'H' h (actionFields stock state))
      ⟨72, some h.ts, .action h.locate state⟩ := by
  have hlen : (payload 'H' h (actionFields stock state)).length = 25 := by
    simp [length_payload, actionFields, stock.property, ascii]
  refine ⟨_, parse_ok 25 rfl hlen, ?_⟩
  show (⟨72, headerTs (payload 'H' h _), .action (u16At (payload 'H' h _) 1)
    (byteAt (actionFields stock state) 8)⟩ : Note) = _
  have hstate : byteAt (actionFields stock state) 8 = state := by
    rw [byteAt, actionFields, List.getD_eq_getElem?_getD,
      List.getElem?_append_right stock.property.le, stock.property]
    rfl
  rw [headerTs_payload hts, locate_payload, hstate]

theorem spells_position (mpid : Alpha 4) (stock : Alpha 8) :
    Spells (payload 'L' h (positionFields mpid stock)) ⟨76, some h.ts, .print (some h.locate)⟩ := by
  have hlen : (payload 'L' h (positionFields mpid stock)).length = 26 := by
    simp [length_payload, positionFields, mpid.property, stock.property, ascii]
  refine ⟨_, parse_ok 26 rfl hlen, ?_⟩
  show (⟨76, headerTs (payload 'L' h _), .print (headerLocate (payload 'L' h _))⟩ : Note) = _
  rw [headerTs_payload hts, headerLocate_payload]

theorem note_addMsg (r : UInt64) (side : UInt8) (qty : UInt32) (stock : Alpha 8) (px : UInt32) :
    note (addMsg h r side qty stock px) =
      ⟨65, some h.ts, .order h.locate (.add r (sideOf side) px qty)⟩ := by
  show (⟨65, headerTs (payload 'A' h _), .order (u16At (payload 'A' h _) 1)
    (addAt (payload 'A' h _))⟩ : Note) = _
  have hr : u64At (payload 'A' h (addFields r side qty stock px)) 11 = r := u64_chunk r _
  have hside : byteAt (payload 'A' h (addFields r side qty stock px)) 19 = side := rfl
  have hqty : u32At (payload 'A' h (addFields r side qty stock px)) 20 = qty := u32_chunk qty _
  have hpx : u32At (payload 'A' h (addFields r side qty stock px)) 32 = px :=
    u32_after stock.val stock.property px []
  rw [headerTs_payload hts, locate_payload, addAt, hr, hside, hqty, hpx]

theorem spells_add (r : UInt64) (side : UInt8) (qty : UInt32) (stock : Alpha 8) (px : UInt32) :
    Spells (payload 'A' h (addFields r side qty stock px))
      ⟨65, some h.ts, .order h.locate (.add r (sideOf side) px qty)⟩ :=
  ⟨addMsg h r side qty stock px, parse_ok 36 rfl (length_add h r side qty stock px),
    note_addMsg h hts r side qty stock px⟩

theorem spells_addMpid (r : UInt64) (side : UInt8) (qty : UInt32) (stock : Alpha 8) (px : UInt32)
    (mpid : Alpha 4) :
    Spells (payload 'F' h (addMpidFields r side qty stock px mpid))
      ⟨70, some h.ts, .order h.locate (.add r (sideOf side) px qty)⟩ := by
  have hlen : (payload 'F' h (addMpidFields r side qty stock px mpid)).length = 40 := by
    simp [length_payload, addMpidFields, stock.property, mpid.property]
  refine ⟨_, parse_ok 40 rfl hlen, ?_⟩
  show (⟨70, headerTs (payload 'F' h _), .order (u16At (payload 'F' h _) 1)
    (addAt (payload 'F' h _))⟩ : Note) = _
  have hr : u64At (payload 'F' h (addMpidFields r side qty stock px mpid)) 11 = r := u64_chunk r _
  have hside : byteAt (payload 'F' h (addMpidFields r side qty stock px mpid)) 19 = side := rfl
  have hqty : u32At (payload 'F' h (addMpidFields r side qty stock px mpid)) 20 = qty :=
    u32_chunk qty _
  have hpx : u32At (payload 'F' h (addMpidFields r side qty stock px mpid)) 32 = px :=
    u32_after stock.val stock.property px mpid.val
  rw [headerTs_payload hts, locate_payload, addAt, hr, hside, hqty, hpx]

theorem spells_executed (r : UInt64) (qty : UInt32) (matchNo : UInt64) :
    Spells (payload 'E' h (executedFields r qty matchNo))
      ⟨69, some h.ts, .order h.locate (.execute r qty)⟩ := by
  have hlen : (payload 'E' h (executedFields r qty matchNo)).length = 31 := by
    simp [length_payload, executedFields]
  refine ⟨_, parse_ok 31 rfl hlen, ?_⟩
  show (⟨69, headerTs (payload 'E' h _), .order (u16At (payload 'E' h _) 1)
    (executeAt (payload 'E' h _))⟩ : Note) = _
  have hr : u64At (payload 'E' h (executedFields r qty matchNo)) 11 = r := u64_chunk r _
  have hqty : u32At (payload 'E' h (executedFields r qty matchNo)) 19 = qty := u32_chunk qty _
  rw [headerTs_payload hts, locate_payload, executeAt, hr, hqty]

theorem spells_executedPx (r : UInt64) (qty : UInt32) (matchNo : UInt64) (printable : UInt8)
    (px : UInt32) :
    Spells (payload 'C' h (executedPxFields r qty matchNo printable px))
      ⟨67, some h.ts, .order h.locate (.execute r qty)⟩ := by
  have hlen : (payload 'C' h (executedPxFields r qty matchNo printable px)).length = 36 := by
    simp [length_payload, executedPxFields]
  refine ⟨_, parse_ok 36 rfl hlen, ?_⟩
  show (⟨67, headerTs (payload 'C' h _), .order (u16At (payload 'C' h _) 1)
    (executeAt (payload 'C' h _))⟩ : Note) = _
  have hr : u64At (payload 'C' h (executedPxFields r qty matchNo printable px)) 11 = r :=
    u64_chunk r _
  have hqty : u32At (payload 'C' h (executedPxFields r qty matchNo printable px)) 19 = qty :=
    u32_chunk qty _
  rw [headerTs_payload hts, locate_payload, executeAt, hr, hqty]

theorem spells_cancel (r : UInt64) (qty : UInt32) :
    Spells (payload 'X' h (cancelFields r qty))
      ⟨88, some h.ts, .order h.locate (.cancel r qty)⟩ := by
  have hlen : (payload 'X' h (cancelFields r qty)).length = 23 := by
    simp [length_payload, cancelFields]
  refine ⟨_, parse_ok 23 rfl hlen, ?_⟩
  show (⟨88, headerTs (payload 'X' h _), .order (u16At (payload 'X' h _) 1)
    (.cancel (u64At (payload 'X' h _) 11) (u32At (payload 'X' h _) 19))⟩ : Note) = _
  have hr : u64At (payload 'X' h (cancelFields r qty)) 11 = r := u64_chunk r _
  have hqty : u32At (payload 'X' h (cancelFields r qty)) 19 = qty := u32_chunk qty []
  rw [headerTs_payload hts, locate_payload, hr, hqty]

theorem spells_delete (r : UInt64) :
    Spells (payload 'D' h (beBytes 8 r.toNat)) ⟨68, some h.ts, .order h.locate (.delete r)⟩ := by
  have hlen : (payload 'D' h (beBytes 8 r.toNat)).length = 19 := by
    simp [length_payload]
  refine ⟨_, parse_ok 19 rfl hlen, ?_⟩
  show (⟨68, headerTs (payload 'D' h _), .order (u16At (payload 'D' h _) 1)
    (.delete (u64At (payload 'D' h _) 11))⟩ : Note) = _
  have hr : u64At (payload 'D' h (beBytes 8 r.toNat)) 11 = r := u64_chunk r []
  rw [headerTs_payload hts, locate_payload, hr]

theorem spells_replace (old new : UInt64) (qty px : UInt32) :
    Spells (payload 'U' h (replaceFields old new qty px))
      ⟨85, some h.ts, .order h.locate (.replace old new px qty)⟩ := by
  have hlen : (payload 'U' h (replaceFields old new qty px)).length = 35 := by
    simp [length_payload, replaceFields]
  refine ⟨_, parse_ok 35 rfl hlen, ?_⟩
  show (⟨85, headerTs (payload 'U' h _), .order (u16At (payload 'U' h _) 1)
    (.replace (u64At (payload 'U' h _) 11) (u64At (payload 'U' h _) 19)
      (u32At (payload 'U' h _) 31) (u32At (payload 'U' h _) 27))⟩ : Note) = _
  have hold : u64At (payload 'U' h (replaceFields old new qty px)) 11 = old := u64_chunk old _
  have hnew : u64At (payload 'U' h (replaceFields old new qty px)) 19 = new := u64_chunk new _
  have hqty : u32At (payload 'U' h (replaceFields old new qty px)) 27 = qty := u32_chunk qty _
  have hpx : u32At (payload 'U' h (replaceFields old new qty px)) 31 = px := u32_chunk px []
  rw [headerTs_payload hts, locate_payload, hold, hnew, hqty, hpx]

theorem spells_trade (qty : UInt32) (stock : Alpha 8) (px : UInt32) (matchNo : UInt64) :
    Spells (payload 'P' h (tradeFields qty stock px matchNo))
      ⟨80, some h.ts, .print (some h.locate)⟩ := by
  have hlen : (payload 'P' h (tradeFields qty stock px matchNo)).length = 44 := by
    simp [length_payload, tradeFields, stock.property, ascii]
  refine ⟨_, parse_ok 44 rfl hlen, ?_⟩
  show (⟨80, headerTs (payload 'P' h _), .print (headerLocate (payload 'P' h _))⟩ : Note) = _
  rw [headerTs_payload hts, headerLocate_payload]

end Spelling

end Lobcore.Writers
