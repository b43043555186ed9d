import Lobcore.Checked
import Lobcore.LittleEndian
import Lobcore.Payloads

/-!
DBN files and their MBO records (`mbo/record.rs`). A file is a header, metadata and a record
area. A record starts with its length in 32-bit words and its type; the iterator skips from one
record to the next and stops behind the first one whose length is zero or runs past the end.
The slices of the records it gives tile the area.
-/
namespace Lobcore.MboRecords

open Checked OrderTypes OpsFormat LittleEndian Payloads

/-- Size of an MBO record in bytes. -/
def mboLen : ℕ := 56

/-- Type byte of an MBO record. -/
def rtypeMbo : UInt8 := 0xA0

inductive DbnError where
  /-- Fewer than 8 bytes, or the first three are not `DBN`. -/
  | badMagic
  /-- The metadata length runs past the end of the input. -/
  | metadata (len : UInt32) (have_ : ℕ)
  /-- The length byte of the record at offset `at_` says more bytes than remain, or zero. -/
  | record (at_ len have_ : ℕ)
  deriving DecidableEq, Repr

structure DbnHeader where
  version : UInt8
  metadataLen : UInt32
  deriving DecidableEq, Repr

/-- The first three fields of version-3 metadata. -/
structure DbnMetadata where
  dataset : Bytes
  schema : UInt16
  start : UInt64
  deriving DecidableEq, Repr

namespace DbnHeader

/-- The header with the metadata bytes and the record bytes. -/
def parse (bytes : Bytes) : Exec (Except DbnError (DbnHeader × Bytes × Bytes)) := do
  if bytes.length < 8 then return .error .badMagic
  if (← slice bytes 0 3) ≠ "DBN".toList.map (fun c => .ofNat c.toNat) then
    return .error .badMagic
  let version ← index bytes 3
  let metadataLen := u32Le (← slice bytes 4 4) 0
  let last := 8 + metadataLen.toNat
  if last > bytes.length then
    return .error (.metadata metadataLen (← subU bytes.length 8))
  return .ok (⟨version, metadataLen⟩, ← slice bytes 8 (last - 8),
    ← slice bytes last (bytes.length - last))

/-- The first three metadata fields, if the metadata is long enough. -/
def metadata (meta_ : Bytes) : Exec (Option DbnMetadata) := do
  if meta_.length < 26 then return none
  return some ⟨← slice meta_ 0 16, u16Le (← slice meta_ 16 2) 0, u64Le (← slice meta_ 18 8) 0⟩

end DbnHeader

/-- One MBO record, all 15 fields in file order. -/
structure MboMsg where
  length : UInt8
  rtype : UInt8
  publisherId : UInt16
  instrumentId : UInt32
  tsEvent : UInt64
  orderId : UInt64
  price : Int64
  size : UInt32
  flags : UInt8
  channelId : UInt8
  action : UInt8
  side : UInt8
  tsRecv : UInt64
  tsInDelta : Int32
  sequence : UInt32
  deriving DecidableEq, Repr

/-- `[u8; MBO_LEN]`. -/
abbrev MboBytes := {b : Bytes // b.length = mboLen}

namespace MboMsg

def decode (b : MboBytes) : MboMsg where
  length := b.val.getD 0 0
  rtype := b.val.getD 1 0
  publisherId := u16Le b.val 2
  instrumentId := u32Le b.val 4
  tsEvent := u64Le b.val 8
  orderId := u64Le b.val 16
  price := (u64Le b.val 24).toInt64
  size := u32Le b.val 32
  flags := b.val.getD 36 0
  channelId := b.val.getD 37 0
  action := b.val.getD 38 0
  side := b.val.getD 39 0
  tsRecv := u64Le b.val 40
  tsInDelta := i32Le b.val 48
  sequence := u32Le b.val 52

/-- The fields in file order. -/
def bytes (m : MboMsg) : Bytes :=
  m.length :: m.rtype :: (leBytes 2 m.publisherId.toNat ++ (leBytes 4 m.instrumentId.toNat ++
    (leBytes 8 m.tsEvent.toNat ++ (leBytes 8 m.orderId.toNat ++
    (leBytes 8 m.price.toUInt64.toNat ++ (leBytes 4 m.size.toNat ++
    (m.flags :: m.channelId :: m.action :: m.side :: (leBytes 8 m.tsRecv.toNat ++
    (leBytes 4 m.tsInDelta.toUInt32.toNat ++ leBytes 4 m.sequence.toNat)))))))))

theorem length_bytes (m : MboMsg) : m.bytes.length = mboLen := by
  simp only [bytes, List.length_cons, List.length_append, Writers.length_leBytes, mboLen]

/-- Back to the 56-byte layout. -/
def encode (m : MboMsg) : MboBytes := ⟨m.bytes, m.length_bytes⟩

theorem decode_encode (m : MboMsg) : decode m.encode = m := by
  simp (disch := omega) only [decode, encode, bytes, u16Le, u32Le, u64Le, i32Le, leAt_cons,
    leAt_skip, leAt_here, leAt_last, getD_skip, List.getD_cons_succ, List.getD_cons_zero,
    Nat.reduceSub, ofNat_mod_u64, ofNat_mod_u32, ofNat_mod_u16]
  rfl

theorem encode_decode (b : MboBytes) : (decode b).encode = b := by
  obtain ⟨bs, hlen⟩ := b
  have hlen' : bs.length = 56 := hlen
  have hlast : leBytes 4 (u32Le bs 52).toNat = bs.drop 52 := by
    rw [← leBytes_u32Le (by omega), List.drop_eq_nil_of_le (by omega), List.append_nil]
  apply Subtype.ext
  simp (disch := omega) only [encode, decode, bytes, i32Le, UInt64.toUInt64_toInt64,
    UInt32.toUInt32_toInt32, hlast, leBytes_u64Le, leBytes_u32Le, leBytes_u16Le, getD_drop,
    List.drop_zero]

end MboMsg

/-- One record of the stream. -/
inductive Record where
  | mbo (m : MboMsg)
  /-- Any other record type, skipped by its length byte. -/
  | other (rtype : UInt8) (len : ℕ)
  deriving DecidableEq, Repr

abbrev Item := Except DbnError Record

/-- The records after the metadata, from `pos` on. -/
structure Records where
  bytes : Bytes
  pos : ℕ
  deriving DecidableEq, Repr

/-- `copy_from_slice` into an array of the size of an MBO record. -/
def mboArray (rec : Bytes) : Exec MboBytes :=
  if h : rec.length = mboLen then .ok ⟨rec, h⟩ else .error .assertion

namespace Records

def next (r : Records) : Exec (Option Item × Records) := do
  let rest ← slice r.bytes r.pos (← subU r.bytes.length r.pos)
  if rest.isEmpty then return (none, r)
  let len := (← index rest 0).toNat * 4
  if len = 0 ∨ len > rest.length then
    return (some (.error (.record r.pos len rest.length)), { r with pos := r.bytes.length })
  let rec ← slice r.bytes r.pos len
  let r := { r with pos := r.pos + len }
  let rtype ← index rec 1
  if rtype = rtypeMbo ∧ len = mboLen then
    return (some (.ok (.mbo (MboMsg.decode (← mboArray rec)))), r)
  else return (some (.ok (.other rtype len)), r)

/-- `collect`: every item until the iterator ends. -/
def collect : ℕ → Records → Exec (List Item)
  | 0, _ => .error .unfinished
  | fuel + 1, r => do
    match ← r.next with
    | (none, _) => return []
    | (some item, r) => return item :: (← collect fuel r)

end Records

/-- Records of a complete file. -/
def records (file : Bytes) :
    Exec (Except DbnError (DbnHeader × Option DbnMetadata × Records)) := do
  match ← DbnHeader.parse file with
  | .error e => return .error e
  | .ok (h, meta_, recs) => return .ok (h, ← DbnHeader.metadata meta_, ⟨recs, 0⟩)

/-! What the items of a record area say. -/

/-- The length in bytes that a record announces. -/
def announced (s : Bytes) : ℕ := 4 * (s.headD 0).toNat

/-- The slice is a record of the length it announces and reads as the given one. -/
def Spells (s : Bytes) : Record → Prop
  | .mbo m => s ≠ [] ∧ s.length = announced s ∧ s[1]? = some rtypeMbo ∧ m.encode.val = s
  | .other rtype len => s ≠ [] ∧ s.length = announced s ∧ s[1]? = some rtype ∧ len = s.length ∧
      ¬ (rtype = rtypeMbo ∧ len = mboLen)

/-- The item for what is left at offset `off`. -/
def lastItem (off : ℕ) (rest : Bytes) : List Item :=
  if rest = [] then [] else [.error (.record off (announced rest) rest.length)]

/-- The items from offset `off` on: the records of slices that stand behind one another, and an
error for what is left, which starts with no whole record. -/
def Tiles (off : ℕ) (area : Bytes) (items : List Item) : Prop :=
  ∃ slices recs rest, area = slices.flatten ++ rest ∧ List.Forall₂ Spells slices recs ∧
    items = recs.map .ok ++ lastItem (off + slices.flatten.length) rest ∧
    (rest ≠ [] → announced rest = 0 ∨ rest.length < announced rest)

section Next

variable {front rest : Bytes}

theorem slice_rest : slice (front ++ rest) front.length ((front ++ rest).length - front.length) =
    .ok rest := by
  have hlen : (front ++ rest).length - front.length = rest.length := by
    rw [List.length_append]
    omega
  rw [hlen, slice, if_pos (by rw [List.length_append]), List.drop_left, List.take_length]

theorem next_nil : Records.next ⟨front, front.length⟩ = .ok (none, ⟨front, front.length⟩) := by
  have hrest : slice (front ++ []) front.length ((front ++ []).length - front.length) = .ok [] :=
    slice_rest
  rw [List.append_nil] at hrest
  simp only [Records.next, subU_ok (Nat.le_refl _), hrest, ok_bind, List.isEmpty_nil, if_true,
    pure_eq_ok]

/-- A bad length byte ends the area. -/
theorem next_bad (hne : rest ≠ [])
    (hbad : announced rest = 0 ∨ rest.length < announced rest) :
    Records.next ⟨front ++ rest, front.length⟩ =
      .ok (some (.error (.record front.length (announced rest) rest.length)),
        ⟨front ++ rest, (front ++ rest).length⟩) := by
  obtain ⟨b, bs, rfl⟩ := List.exists_cons_of_ne_nil hne
  have hle : front.length ≤ (front ++ b :: bs).length := by
    rw [List.length_append]
    omega
  have hlen : b.toNat * 4 = announced (b :: bs) := Nat.mul_comm ..
  simp only [Records.next, subU_ok hle, slice_rest, ok_bind, List.isEmpty_cons, if_false,
    Bool.false_eq_true, index_ok (List.getElem?_cons_zero), hlen, gt_iff_lt, if_pos hbad,
    pure_eq_ok]

/-- A record has a type byte. -/
theorem eq_cons_cons {s : Bytes} (hne : s ≠ []) (hlen : s.length = announced s) :
    ∃ b c t, s = b :: c :: t := by
  match s with
  | [] => exact absurd rfl hne
  | [b] =>
    simp only [announced, List.length_singleton, List.headD_cons] at hlen
    omega
  | b :: c :: t => exact ⟨b, c, t, rfl⟩

/-- A whole record is skipped. -/
theorem next_record {s : Bytes} (hne : s ≠ []) (hlen : s.length = announced s) :
    ∃ r, Spells s r ∧ Records.next ⟨front ++ (s ++ rest), front.length⟩ =
      .ok (some (.ok r), ⟨front ++ (s ++ rest), front.length + s.length⟩) := by
  obtain ⟨b, c, t, rfl⟩ := eq_cons_cons hne hlen
  have hle : front.length ≤ (front ++ (b :: c :: t ++ rest)).length := by
    rw [List.length_append]
    omega
  have hfirst : index (b :: c :: t ++ rest) 0 = .ok b := index_ok List.getElem?_cons_zero
  have hbytes : b.toNat * 4 = (b :: c :: t).length := hlen.symm ▸ Nat.mul_comm ..
  have hgood : ¬ ((b :: c :: t).length = 0 ∨
      (b :: c :: t ++ rest).length < (b :: c :: t).length) := by
    simp only [List.length_cons, List.length_append]
    omega
  have hslice : slice (front ++ (b :: c :: t ++ rest)) front.length (b :: c :: t).length =
      .ok (b :: c :: t) := by
    rw [slice, if_pos (by simp only [List.length_append]; omega), List.drop_left, List.take_left]
  have htype : index (b :: c :: t) 1 = .ok c := index_ok rfl
  have hopen : (b :: c :: t ++ rest).isEmpty = false := rfl
  by_cases hmbo : c = rtypeMbo ∧ (b :: c :: t).length = mboLen
  · refine ⟨.mbo (MboMsg.decode ⟨b :: c :: t, hmbo.2⟩), ⟨hne, hlen, ?_, ?_⟩, ?_⟩
    · rw [← hmbo.1]
      rfl
    · rw [MboMsg.encode_decode]
    · simp only [Records.next, subU_ok hle, slice_rest, ok_bind, hopen, Bool.false_eq_true,
        if_false, hfirst, hbytes, gt_iff_lt, if_neg hgood, hslice, htype, if_pos hmbo, mboArray,
        dif_pos hmbo.2, pure_eq_ok]
  · refine ⟨.other c (b :: c :: t).length, ⟨hne, hlen, rfl, rfl, hmbo⟩, ?_⟩
    simp only [Records.next, subU_ok hle, slice_rest, ok_bind, hopen, Bool.false_eq_true,
      if_false, hfirst, hbytes, gt_iff_lt, if_neg hgood, hslice, htype, if_neg hmbo, pure_eq_ok]

end Next

/-! The loop. -/

/-- Iterating ends and gives the items. -/
def Collects (r : Records) (items : List Item) : Prop :=
  Enough fun fuel => r.collect fuel = .ok items

theorem Collects.of_end {r r' : Records} (h : r.next = .ok (none, r')) : Collects r [] := by
  refine Enough.of_succ fun fuel => ?_
  simp only [Records.collect, h, ok_bind, pure_eq_ok]

theorem Collects.cons {r r' : Records} {item : Item} {items : List Item}
    (h : r.next = .ok (some item, r')) (hrest : Collects r' items) :
    Collects r (item :: items) := by
  refine Enough.succ hrest fun fuel hfuel => ?_
  simp only [Records.collect, h, hfuel, ok_bind, pure_eq_ok]

theorem Tiles.nil (off : ℕ) : Tiles off [] [] := ⟨[], [], [], rfl, .nil, rfl, nofun⟩

theorem Tiles.bad {off : ℕ} {rest : Bytes} (hne : rest ≠ [])
    (hbad : announced rest = 0 ∨ rest.length < announced rest) :
    Tiles off rest [.error (.record off (announced rest) rest.length)] := by
  refine ⟨[], [], rest, rfl, .nil, ?_, fun _ => hbad⟩
  simp only [lastItem, if_neg hne, List.map_nil, List.flatten_nil, List.length_nil, Nat.add_zero,
    List.nil_append]

theorem Tiles.cons {off : ℕ} {s rest : Bytes} {r : Record} {items : List Item} (hs : Spells s r)
    (h : Tiles (off + s.length) rest items) : Tiles off (s ++ rest) (.ok r :: items) := by
  obtain ⟨slices, recs, last, rfl, hspells, rfl, hlast⟩ := h
  refine ⟨s :: slices, r :: recs, last, ?_, .cons hs hspells, ?_, hlast⟩
  · rw [List.flatten_cons, List.append_assoc]
  · rw [List.map_cons, List.cons_append, List.flatten_cons, List.length_append, Nat.add_assoc]

/-- The items from an offset on, by the length of what is left. -/
theorem collect_tiles (n : ℕ) (front rest : Bytes) (hn : rest.length ≤ n) :
    ∃ items, Collects ⟨front ++ rest, front.length⟩ items ∧ Tiles front.length rest items := by
  induction n generalizing front rest with
  | zero =>
    obtain rfl := List.eq_nil_of_length_eq_zero (Nat.le_zero.mp hn)
    rw [List.append_nil]
    exact ⟨[], .of_end next_nil, .nil _⟩
  | succ n ih =>
    by_cases hne : rest = []
    · exact ih front rest (by simp only [hne, List.length_nil, Nat.zero_le])
    by_cases hbad : announced rest = 0 ∨ rest.length < announced rest
    · exact ⟨_, .cons (next_bad hne hbad) (.of_end next_nil), .bad hne hbad⟩
    · have hsplit : rest = rest.take (announced rest) ++ rest.drop (announced rest) :=
        (List.take_append_drop ..).symm
      have hlen : (rest.take (announced rest)).length = announced rest := by
        rw [List.length_take]
        omega
      have hhead : announced (rest.take (announced rest)) = announced rest := by
        rw [announced, List.headD_eq_head?_getD, List.head?_take, if_neg (by omega),
          ← List.headD_eq_head?_getD, announced]
      have hpos : rest.take (announced rest) ≠ [] := by
        intro h
        rw [h, List.length_nil] at hlen
        omega
      have hdrop : (rest.drop (announced rest)).length ≤ n := by
        rw [List.length_drop]
        omega
      generalize rest.take (announced rest) = s at hsplit hlen hhead hpos
      generalize rest.drop (announced rest) = tail at hsplit hdrop
      subst hsplit
      obtain ⟨r, hr, hnext⟩ : ∃ r, Spells s r ∧ Records.next ⟨front ++ (s ++ tail), front.length⟩ =
          .ok (some (.ok r), ⟨front ++ (s ++ tail), front.length + s.length⟩) :=
        next_record hpos (hlen.trans hhead.symm)
      obtain ⟨items, hitems, htiles⟩ := ih (front ++ s) tail hdrop
      rw [List.append_assoc, List.length_append] at hitems
      rw [List.length_append] at htiles
      exact ⟨_, .cons hnext hitems, .cons hr htiles⟩

/-- Iterating over any record area ends, and the records tile the area up to an error at the
first length that is zero or runs past the end; a message is what its bytes spell. -/
theorem records_tile : (∀ area : Bytes, ∃ items, Collects ⟨area, 0⟩ items ∧ Tiles 0 area items) ∧
    ∀ m : MboMsg, MboMsg.decode m.encode = m :=
  ⟨fun area => collect_tiles area.length [] area (Nat.le_refl _), MboMsg.decode_encode⟩

/-! Files. -/

theorem metadata_returns (meta_ : Bytes) : ∃ m, DbnHeader.metadata meta_ = .ok m := by
  unfold DbnHeader.metadata
  by_cases hlen : meta_.length < 26
  · exact ⟨none, by rw [if_pos hlen, pure_eq_ok]⟩
  · have hset : slice meta_ 0 16 = .ok _ := slice_ok (by omega)
    have hschema : slice meta_ 16 2 = .ok _ := slice_ok (by omega)
    have hstart : slice meta_ 18 8 = .ok _ := slice_ok (by omega)
    simp only [if_neg hlen, hset, hschema, hstart, ok_bind, pure_eq_ok]
    exact ⟨_, rfl⟩

/-- A file is refused, or its record area is what stands behind the header and the metadata. -/
theorem records_area (file : Bytes) : (∃ e, records file = .ok (.error e)) ∨
    ∃ h m head meta_ area, records file = .ok (.ok (h, m, ⟨area, 0⟩)) ∧
      file = head ++ meta_ ++ area ∧ head.length = 8 ∧ meta_.length = h.metadataLen.toNat := by
  unfold records DbnHeader.parse
  by_cases hlen : file.length < 8
  · simp only [if_pos hlen, ok_bind, pure_eq_ok]
    exact Or.inl ⟨_, rfl⟩
  have hmagic : slice file 0 3 = .ok _ := slice_ok (by omega)
  have hversion : index file 3 = .ok _ := index_ok (List.getElem?_eq_getElem (by omega))
  have hword : slice file 4 4 = .ok _ := slice_ok (by omega)
  simp only [if_neg hlen, hmagic, hversion, hword, ok_bind, pure_eq_ok]
  by_cases hdbn : (file.drop 0).take 3 ≠ "DBN".toList.map (fun c => UInt8.ofNat c.toNat)
  · simp only [if_pos hdbn, ok_bind]
    exact Or.inl ⟨_, rfl⟩
  simp only [if_neg hdbn]
  generalize u32Le ((file.drop 4).take 4) 0 = len
  by_cases hlong : 8 + len.toNat > file.length
  · simp only [if_pos hlong, subU_ok (Nat.le_of_not_lt hlen), ok_bind]
    exact Or.inl ⟨_, rfl⟩
  have hmeta : slice file 8 (8 + len.toNat - 8) = .ok _ := slice_ok (by omega)
  have harea : slice file (8 + len.toNat) (file.length - (8 + len.toNat)) = .ok _ :=
    slice_ok (by omega)
  obtain ⟨m, hm⟩ := metadata_returns ((file.drop 8).take (8 + len.toNat - 8))
  have hrest : (file.drop (8 + len.toNat)).take (file.length - (8 + len.toNat)) =
      file.drop (8 + len.toNat) := List.take_of_length_le (by rw [List.length_drop])
  simp only [if_neg hlong, hmeta, harea, hm, hrest, ok_bind]
  refine Or.inr ⟨⟨_, len⟩, m, file.take 8, (file.drop 8).take len.toNat,
    file.drop (8 + len.toNat), rfl, ?_, ?_, ?_⟩
  · rw [← List.drop_drop, List.append_assoc, List.take_append_drop, List.take_append_drop]
  · rw [List.length_take]
    omega
  · simp only [List.length_take, List.length_drop]
    omega

end Lobcore.MboRecords
