import Lobcore.MboRecords

/-!
Round trip of DBN files (`mbo/record.rs`). A file is written as header, metadata and one record
behind another. It reads back as the messages exactly when each of them says that it is an MBO
record of 14 words. A file that ends early gives the whole records in front of the end and then
names the offset of the broken one.
-/
namespace Lobcore.MboFiles

open Checked OrderTypes LittleEndian Payloads MboRecords
open OpsFormat (leAt u32Le u64Le)
open Writers (length_leBytes)

/-- `DBN`, the version and the length of the metadata. -/
def headBytes (version : UInt8) (len : ℕ) : Bytes :=
  "DBN".toList.map (fun c => .ofNat c.toNat) ++ version :: leBytes 4 len

/-- Version-3 metadata: the three fields, then what the reader skips. -/
def metaBytes (m : DbnMetadata) (more : Bytes) : Bytes :=
  m.dataset ++ (leBytes 2 m.schema.toNat ++ (leBytes 8 m.start.toNat ++ more))

/-- The records behind one another. -/
def areaBytes (ms : List MboMsg) : Bytes := ms.flatMap fun m => m.encode.val

/-- The message says that it is an MBO record of 14 words. -/
def Marked (m : MboMsg) : Prop := m.length = 14 ∧ m.rtype = rtypeMbo

/-- The items of messages that are read back. -/
def readBack (ms : List MboMsg) : List Item := ms.map fun m => .ok (.mbo m)

/-! The header. -/

section Header

variable {meta_ area : Bytes} {version : UInt8}

theorem length_headBytes (version : UInt8) (n : ℕ) : (headBytes version n).length = 8 := by
  rw [headBytes, List.length_append, List.length_cons, length_leBytes, List.length_map]
  rfl

theorem drop_head (version : UInt8) (n : ℕ) (rest : Bytes) :
    (headBytes version n ++ rest).drop 8 = rest := List.drop_left' (length_headBytes ..)

/-- Reading the header of a written file gives what was written. -/
theorem parse_written (hlen : meta_.length < 2 ^ 32) :
    DbnHeader.parse (headBytes version meta_.length ++ (meta_ ++ area)) =
      .ok (.ok (⟨version, .ofNat meta_.length⟩, meta_, area)) := by
  have hsize : (headBytes version meta_.length ++ (meta_ ++ area)).length =
      8 + (meta_.length + area.length) := by
    rw [List.length_append, List.length_append, length_headBytes]
  have hmagic : slice (headBytes version meta_.length ++ (meta_ ++ area)) 0 3 =
      .ok ("DBN".toList.map fun c => .ofNat c.toNat) := by
    rw [slice_ok (by omega)]
    rfl
  have hversion : index (headBytes version meta_.length ++ (meta_ ++ area)) 3 = .ok version :=
    index_ok rfl
  have hword : slice (headBytes version meta_.length ++ (meta_ ++ area)) 4 4 =
      .ok (leBytes 4 meta_.length) := by
    rw [slice_ok (by omega)]
    rfl
  have hcount : (UInt32.ofNat meta_.length).toNat = meta_.length :=
    UInt32.toNat_ofNat_of_lt' hlen
  have hback : u32Le (leBytes 4 meta_.length) 0 = .ofNat meta_.length := by
    rw [u32Le, leAt_last, Nat.mod_eq_of_lt (show meta_.length < 256 ^ 4 from hlen)]
  have hmeta : slice (headBytes version meta_.length ++ (meta_ ++ area)) 8
      (8 + meta_.length - 8) = .ok meta_ := by
    rw [slice_ok (by omega), drop_head, List.take_left' (by omega)]
  have harea : slice (headBytes version meta_.length ++ (meta_ ++ area)) (8 + meta_.length)
      (8 + (meta_.length + area.length) - (8 + meta_.length)) = .ok area := by
    rw [slice_ok (by omega), ← List.drop_drop, drop_head, List.drop_left,
      List.take_of_length_le (by omega)]
  unfold DbnHeader.parse
  simp only [hsize, hmagic, hversion, hword, hback, hcount, hmeta, harea, ok_bind, pure_eq_ok,
    ne_eq, not_true_eq_false, if_false,
    if_neg (show ¬ 8 + (meta_.length + area.length) < 8 by omega),
    if_neg (show ¬ 8 + meta_.length > 8 + (meta_.length + area.length) by omega)]

theorem metadata_written {m : DbnMetadata} {more : Bytes} (hset : m.dataset.length = 16) :
    DbnHeader.metadata (metaBytes m more) = .ok (some m) := by
  have hlong : ¬ (metaBytes m more).length < 26 := by
    simp only [metaBytes, List.length_append, length_leBytes]
    omega
  have hdataset : slice (metaBytes m more) 0 16 = .ok m.dataset := by
    rw [slice_ok (by omega), metaBytes, List.drop_zero, List.take_left' hset]
  have hschema : slice (metaBytes m more) 16 2 = .ok (leBytes 2 m.schema.toNat) := by
    rw [slice_ok (by omega), metaBytes, List.drop_left' hset, List.take_left' (length_leBytes ..)]
  have hstart : slice (metaBytes m more) 18 8 = .ok (leBytes 8 m.start.toNat) := by
    rw [slice_ok (by omega), metaBytes, ← List.drop_drop (i := 2) (j := 16), List.drop_left' hset,
      List.drop_left' (length_leBytes ..), List.take_left' (length_leBytes ..)]
  unfold DbnHeader.metadata
  simp only [if_neg hlong, hdataset, hschema, hstart, ok_bind, pure_eq_ok, u16Le, u64Le, leAt_last,
    ofNat_mod_u16, ofNat_mod_u64]

end Header

/-! The records. -/

theorem words_iff {m : MboMsg} : 4 * m.length.toNat = mboLen ↔ m.length = 14 := by
  rw [← UInt8.toNat_inj]
  change 4 * m.length.toNat = 56 ↔ m.length.toNat = 14
  omega

/-- A marked message is read as itself. -/
theorem next_marked {m : MboMsg} (hm : Marked m) (front rest : Bytes) :
    Records.next ⟨front ++ (m.encode.val ++ rest), front.length⟩ =
      .ok (some (.ok (.mbo m)),
        ⟨front ++ (m.encode.val ++ rest), front.length + m.encode.val.length⟩) := by
  have hlen : m.encode.val.length = announced m.encode.val :=
    m.encode.prop.trans (words_iff.mpr hm.1).symm
  obtain ⟨r, hr, hnext⟩ := @next_record front rest _ (List.cons_ne_nil _ _) hlen
  cases r with
  | mbo m' =>
    have hsame : m'.encode = m.encode := Subtype.ext hr.2.2.2
    rw [← m.decode_encode, ← hsame, MboMsg.decode_encode, hsame]
    exact hnext
  | other rtype len =>
    obtain ⟨-, -, htype, hcount, hno⟩ := hr
    exact absurd ⟨(Option.some.inj htype).symm.trans hm.2, hcount.trans m.encode.prop⟩ hno

/-- A message that some bytes spell is marked. -/
theorem marked_of_spells {s : Bytes} {m : MboMsg} (h : Spells s (.mbo m)) : Marked m := by
  obtain ⟨-, hlen, htype, rfl⟩ := h
  exact ⟨words_iff.mp (hlen.symm.trans m.encode.prop), Option.some.inj htype⟩

theorem forall_of_spells {slices : List Bytes} {recs : List Record}
    (h : List.Forall₂ Spells slices recs) (m : MboMsg) (hm : .mbo m ∈ recs) : Marked m := by
  induction h with
  | nil => exact absurd hm List.not_mem_nil
  | cons hs _ ih =>
    rcases List.mem_cons.mp hm with rfl | hm
    · exact marked_of_spells hs
    · exact ih hm

theorem collects_unique {r : Records} {items items' : List Item} (h : Collects r items)
    (h' : Collects r items') : items = items' := by
  obtain ⟨fuel, hfuel, hfuel'⟩ := (h.and h').exists
  exact Except.ok.inj (hfuel.symm.trans hfuel')

/-- Marked messages are read as themselves, whatever comes behind them. -/
theorem collect_marked {ms : List MboMsg} (hms : ∀ m ∈ ms, Marked m) (front rest : Bytes)
    (items : List Item)
    (hrest : Collects ⟨front ++ (areaBytes ms ++ rest), front.length + mboLen * ms.length⟩ items) :
    Collects ⟨front ++ (areaBytes ms ++ rest), front.length⟩ (readBack ms ++ items) := by
  induction ms generalizing front with
  | nil => exact hrest
  | cons m ms ih =>
    have hsplit : areaBytes (m :: ms) ++ rest = m.encode.val ++ (areaBytes ms ++ rest) := by
      rw [areaBytes, List.flatMap_cons, List.append_assoc, areaBytes]
    have hlen : (front ++ m.encode.val).length = front.length + m.encode.val.length :=
      List.length_append
    rw [hsplit] at hrest ⊢
    refine .cons (next_marked (hms m List.mem_cons_self) front _) ?_
    rw [← hlen, ← List.append_assoc]
    refine ih (fun m' hm' => hms m' (List.mem_cons_of_mem m hm')) _ ?_
    rw [List.append_assoc, hlen, m.encode.prop]
    rw [List.length_cons, Nat.mul_succ, Nat.add_comm _ mboLen, ← Nat.add_assoc] at hrest
    exact hrest

theorem length_area (ms : List MboMsg) : (areaBytes ms).length = mboLen * ms.length := by
  induction ms with
  | nil => rfl
  | cons m ms ih =>
    rw [areaBytes, List.flatMap_cons, List.length_append, m.encode.prop, List.length_cons]
    change mboLen + (areaBytes ms).length = _
    rw [ih, Nat.mul_succ, Nat.add_comm]

/-- The records of a written area are the messages exactly when all messages are marked. -/
theorem area_iff (ms : List MboMsg) :
    Collects ⟨areaBytes ms, 0⟩ (readBack ms) ↔ ∀ m ∈ ms, Marked m := by
  constructor
  · intro h m hm
    obtain ⟨items, hitems, htiles⟩ := collect_tiles _ [] (areaBytes ms) (Nat.le_refl _)
    obtain ⟨slices, recs, rest, -, hspells, hsame, -⟩ := htiles
    have hread : .ok (.mbo m) ∈ items := by
      rw [collects_unique hitems h]
      exact List.mem_map_of_mem hm
    rw [hsame, List.mem_append] at hread
    rcases hread with hread | hread
    · obtain ⟨r, hr, heq⟩ := List.mem_map.mp hread
      rw [Except.ok.inj heq] at hr
      exact forall_of_spells hspells m hr
    · rw [lastItem] at hread
      split at hread
      · exact absurd hread List.not_mem_nil
      · cases List.mem_singleton.mp hread
  · intro hms
    have hend : Collects ⟨areaBytes ms, (areaBytes ms).length⟩ [] := .of_end next_nil
    have h := collect_marked hms [] [] []
    rw [List.append_nil, List.append_nil, List.nil_append, List.length_nil, Nat.zero_add,
      ← length_area] at h
    exact h hend

theorem length_whole {ms : List MboMsg} {cut : ℕ} (hcut : cut ≤ mboLen * ms.length) :
    (areaBytes (ms.take (cut / mboLen))).length = mboLen * (cut / mboLen) := by
  have hle : cut / mboLen ≤ ms.length := by
    rw [Nat.div_le_iff_le_mul_add_pred (by decide : 0 < mboLen)]
    omega
  rw [length_area, List.length_take, Nat.min_eq_left hle]

/-- The first bytes of a written area: whole records and the beginning of the next one. -/
theorem take_area {ms : List MboMsg} {cut : ℕ} (hcut : cut ≤ mboLen * ms.length) :
    (areaBytes ms).take cut = areaBytes (ms.take (cut / mboLen)) ++
      (areaBytes (ms.drop (cut / mboLen))).take (cut % mboLen) := by
  have hdiv := Nat.div_add_mod cut mboLen
  have hfront := length_whole hcut
  have hsplit : areaBytes ms = areaBytes (ms.take (cut / mboLen)) ++
      areaBytes (ms.drop (cut / mboLen)) := by
    rw [areaBytes, areaBytes, areaBytes, ← List.flatMap_append, List.take_append_drop]
  rw [hsplit, List.take_append, List.take_of_length_le (by omega), hfront,
    show cut - mboLen * (cut / mboLen) = cut % mboLen by omega]

/-- A record that ends early is named by its offset. -/
theorem collect_broken {m : MboMsg} (hm : Marked m) (front rest : Bytes) {n : ℕ} (hn : 0 < n)
    (hlt : n < mboLen) :
    Collects ⟨front ++ (m.encode.val ++ rest).take n, front.length⟩
      [.error (.record front.length mboLen n)] := by
  have hle : n ≤ m.encode.val.length := by
    rw [m.encode.prop]
    omega
  rw [List.take_append_of_le_length hle]
  obtain ⟨k, rfl⟩ := Nat.exists_eq_succ_of_ne_zero (Nat.ne_of_gt hn)
  have hwords : announced (m.encode.val.take (k + 1)) = mboLen := words_iff.mpr hm.1
  have hlen : (m.encode.val.take (k + 1)).length = k + 1 := by
    rw [List.length_take, Nat.min_eq_left hle]
  have hne : m.encode.val.take (k + 1) ≠ [] := List.ne_nil_of_length_pos (by omega)
  have hnext := @next_bad front _ hne (Or.inr (by omega))
  rw [hwords, hlen] at hnext
  exact .cons hnext (.of_end next_nil)

/-- An area of marked messages that ends early gives the whole records in front of the end and
names the broken one. -/
theorem area_cut {ms : List MboMsg} (hms : ∀ m ∈ ms, Marked m) {cut : ℕ}
    (hcut : cut ≤ mboLen * ms.length) :
    Collects ⟨(areaBytes ms).take cut, 0⟩ (readBack (ms.take (cut / mboLen)) ++
      if cut % mboLen = 0 then []
      else [.error (.record (mboLen * (cut / mboLen)) mboLen (cut % mboLen))]) := by
  have hdiv := Nat.div_add_mod cut mboLen
  have hmod : cut % mboLen < mboLen := Nat.mod_lt _ (by decide)
  have hwhole : ∀ m ∈ ms.take (cut / mboLen), Marked m :=
    fun m hm => hms m (List.mem_of_mem_take hm)
  have hread := collect_marked hwhole [] ((areaBytes (ms.drop (cut / mboLen))).take (cut % mboLen))
  rw [take_area hcut]
  refine hread _ ?_
  rw [List.nil_append, List.length_nil, Nat.zero_add, ← length_area]
  split
  · rename_i hzero
    rw [hzero, List.take_zero, List.append_nil]
    exact .of_end next_nil
  · rename_i hpos
    cases hdrop : ms.drop (cut / mboLen) with
    | nil =>
      have hall := Nat.mul_le_mul_left mboLen (List.drop_eq_nil_iff.mp hdrop)
      omega
    | cons m ms' =>
      have hm : Marked m := hms m (List.mem_of_mem_drop (hdrop ▸ List.mem_cons_self))
      rw [← length_whole hcut]
      exact collect_broken hm _ (areaBytes ms') (Nat.pos_of_ne_zero hpos) hmod

/-- A written file: header, metadata, records. -/
def fileBytes (version : UInt8) (meta_ area : Bytes) : Bytes :=
  headBytes version meta_.length ++ (meta_ ++ area)

/-- A written file reads back with its header and metadata; its records are the messages exactly
when every message says that it is an MBO record of 14 words; and if the file ends inside the
record area, the records in front of the end are still read and the broken one is named. -/
theorem file_reads_back (version : UInt8) (m : DbnMetadata) (more : Bytes) (ms : List MboMsg)
    (hset : m.dataset.length = 16) (hlen : (metaBytes m more).length < 2 ^ 32) :
    (∀ area, records (fileBytes version (metaBytes m more) area) =
      .ok (.ok (⟨version, .ofNat (metaBytes m more).length⟩, some m, ⟨area, 0⟩))) ∧
    (Collects ⟨areaBytes ms, 0⟩ (readBack ms) ↔ ∀ m ∈ ms, m.length = 14 ∧ m.rtype = rtypeMbo) ∧
    ((∀ m ∈ ms, m.length = 14 ∧ m.rtype = rtypeMbo) → ∀ cut, cut ≤ mboLen * ms.length →
      Collects ⟨(areaBytes ms).take cut, 0⟩ (readBack (ms.take (cut / mboLen)) ++
        if cut % mboLen = 0 then []
        else [.error (.record (mboLen * (cut / mboLen)) mboLen (cut % mboLen))])) := by
  refine ⟨fun area => ?_, area_iff ms, fun hms cut hcut => area_cut hms hcut⟩
  unfold records
  simp only [fileBytes, parse_written hlen, metadata_written hset, ok_bind, pure_eq_ok]

/-- The record of the unit test. -/
def sampleMessage : MboMsg :=
  ⟨14, rtypeMbo, 2, 6155, 1609146088297098637, 196851, 453120000000, 2, 0x82, 0, 65, 66,
    1609146088297109209, 10572, 289000⟩

/-- A cancel of half of it. -/
def laterMessage : MboMsg :=
  { sampleMessage with size := 1, action := 67, sequence := 289001 }

def sampleMetadata : DbnMetadata :=
  ⟨"XNAS.ITCH".toList.map (fun c => .ofNat c.toNat) ++ List.replicate 7 0, 0, 1609113600000000000⟩

theorem file_reads_back_sample :
    records (fileBytes 3 (metaBytes sampleMetadata []) (areaBytes [sampleMessage, laterMessage])) =
      .ok (.ok (⟨3, 26⟩, some sampleMetadata, ⟨areaBytes [sampleMessage, laterMessage], 0⟩)) ∧
    Collects ⟨areaBytes [sampleMessage, laterMessage], 0⟩
      [.ok (.mbo sampleMessage), .ok (.mbo laterMessage)] ∧
    Collects ⟨(areaBytes [sampleMessage, laterMessage]).take 59, 0⟩
      [.ok (.mbo sampleMessage), .error (.record 56 mboLen 3)] := by
  have hmarked : ∀ m ∈ [sampleMessage, laterMessage], m.length = 14 ∧ m.rtype = rtypeMbo := by
    decide
  have h := file_reads_back 3 sampleMetadata [] [sampleMessage, laterMessage] rfl (by decide)
  exact ⟨h.1 _, h.2.1.mpr hmarked, h.2.2 hmarked 59 (by decide)⟩

end Lobcore.MboFiles
