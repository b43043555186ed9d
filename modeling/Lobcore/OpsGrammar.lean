import Lobcore.EventReplays
import Lobcore.LittleEndian
import Lobcore.OpsParity

/-!
The grammar of the op format. The decoder accepts whole records of one of five kinds whose side,
for an add, is one of two; the first record that is none of these is the one it names. What the
encoder writes is read back, and a replay logs one event for each record.
-/
namespace Lobcore.OpsGrammar

open Checked OrderTypes OpsFormat LittleEndian OpsParity Markets Sessions Migrations EventReplays

/-- The record is one of the five calls, and an add has one of the two sides. -/
def Grammatical (rec : List UInt8) : Prop :=
  1 ≤ rec.headD 0 ∧ rec.headD 0 ≤ 5 ∧ (rec.headD 0 = 1 → u64Le rec 9 = 0 ∨ u64Le rec 9 = 1)

/-- The record at an index. -/
def recordAt (bytes : List UInt8) (i : ℕ) : List UInt8 :=
  (bytes.drop (opRecordLen * i)).take opRecordLen

/-! One record. -/

theorem fromCode_isSome {n : UInt64} : (n.toNat < 256 ∧ (Side.fromCode n.toUInt8).isSome) ↔
    n = 0 ∨ n = 1 := by
  constructor
  · rintro ⟨hn, hside⟩
    obtain ⟨s, hs⟩ := Option.isSome_iff_exists.mp hside
    have hcode := fromCode_eq_some hn hs
    cases s with
    | bid => exact Or.inl (UInt64.toNat_inj.mp hcode)
    | ask => exact Or.inr (UInt64.toNat_inj.mp hcode)
  · rintro (rfl | rfl)
    · exact ⟨by decide, rfl⟩
    · exact ⟨by decide, rfl⟩

theorem not_range_of_none {c : UInt8} (h : kindFromCode c = none) : ¬ (1 ≤ c ∧ c ≤ 5) := by
  rintro ⟨hlow, hhigh⟩
  have hcases : c = 1 ∨ c = 2 ∨ c = 3 ∨ c = 4 ∨ c = 5 := by
    simp only [UInt8.le_iff_toNat_le, ← UInt8.toNat_inj, UInt8.reduceToNat] at hlow hhigh ⊢
    omega
  rcases hcases with rfl | rfl | rfl | rfl | rfl <;> cases h

theorem decode_isSome (rec : List UInt8) : (decode rec).isSome ↔ Grammatical rec := by
  unfold decode Grammatical
  generalize rec.headD 0 = c
  have hside := fromCode_isSome (n := u64Le rec 9)
  generalize u64Le rec 9 = n at hside
  cases hk : kindFromCode c with
  | none =>
    exact ⟨nofun, fun h => absurd ⟨h.1, h.2.1⟩ (not_range_of_none hk)⟩
  | some kind =>
    obtain rfl := kindFromCode_eq_some hk
    cases kind with
    | add =>
      have hrange : (1 : UInt8) ≤ 1 ∧ (1 : UInt8) ≤ 5 := by decide
      simp only [EventKind.code, hrange, true_and, true_imp_iff, ← hside]
      by_cases hn : n.toNat < 256
      · simp only [hn, if_true, true_and, Option.isSome_map]
      · simp only [hn, if_false, false_and, Option.isSome_none, Bool.false_eq_true]
    | _ => simp [EventKind.code]

theorem length_encode (op : Op) : (encode op).length = opRecordLen := by
  simp only [encode, List.length_cons, List.length_append, Writers.length_leBytes, opRecordLen]

/-- The record of an op is read back. -/
theorem decode_encode (op : Op) : decode (encode op) = some op := by
  have hread : ∀ kind id id2 px qty, fields op = (kind, id, id2, px, qty) →
      (encode op).headD 0 = kind.code ∧ u64Le (encode op) 1 = id ∧ u64Le (encode op) 9 = id2 ∧
        i32Le (encode op) 17 = px ∧ u32Le (encode op) 21 = qty := by
    intro kind id id2 px qty hfields
    simp (disch := omega) only [encode, hfields, List.append_assoc, u32Le, u64Le, i32Le,
      leAt_cons, leAt_skip, leAt_here, leAt_last, Nat.reduceSub, ofNat_mod_u64, ofNat_mod_u32,
      List.headD_cons, true_and, and_true]
    rfl
  cases op with
  | add id side px qty =>
    obtain ⟨hkind, hid, hid2, hpx, hqty⟩ := hread _ _ _ _ _ rfl
    simp only [decode, hkind, hid, hid2, hpx, hqty]
    cases side <;> rfl
  | _ =>
    obtain ⟨hkind, hid, hid2, hpx, hqty⟩ := hread _ _ _ _ _ rfl
    simp only [decode, hkind, hid, hid2, hpx, hqty]
    rfl

/-! Many records. -/

theorem records_getElem? (bytes : List UInt8) (k i : ℕ) :
    (records bytes k)[i]? = if i < k then some (recordAt bytes i) else none := by
  induction k generalizing bytes i with
  | zero => simp only [records, List.getElem?_nil, Nat.not_lt_zero, if_false]
  | succ k ih =>
    cases i with
    | zero => simp [records, recordAt]
    | succ i =>
      have hskip : recordAt (bytes.drop opRecordLen) i = recordAt bytes (i + 1) := by
        rw [recordAt, recordAt, List.drop_drop, Nat.mul_succ, Nat.add_comm]
      simp only [records, List.getElem?_cons_succ, ih, hskip, Nat.add_lt_add_iff_right]

/-- Decoding stops at the first bad record, and only there. -/
theorem decodeAll_eq (index : ℕ) (recs : List (List UInt8)) :
    (∃ ops, decodeAll index recs = .ok ops ∧ ∀ rec ∈ recs, (decode rec).isSome) ∨
      ∃ i rec, decodeAll index recs = .error (.record (index + i) (rec.headD 0)) ∧
        recs[i]? = some rec ∧ decode rec = none ∧
        ∀ j < i, ∀ r, recs[j]? = some r → (decode r).isSome := by
  induction recs generalizing index with
  | nil => exact Or.inl ⟨[], rfl, by simp⟩
  | cons rec recs ih =>
    cases hop : decode rec with
    | none =>
      refine Or.inr ⟨0, rec, ?_, rfl, hop, by omega⟩
      simp only [decodeAll, hop, Nat.add_zero]
    | some op =>
      have hsome : (decode rec).isSome := by rw [hop, Option.isSome_some]
      rcases ih (index + 1) with ⟨ops, hops, hall⟩ | ⟨i, bad, herr, hi, hbad, hbefore⟩
      · refine Or.inl ⟨op :: ops, ?_, List.forall_mem_cons.mpr ⟨hsome, hall⟩⟩
        simp only [decodeAll, hop, hops, Except.map]
      · refine Or.inr ⟨i + 1, bad, ?_, hi, hbad, ?_⟩
        · simp only [decodeAll, hop, herr, Except.map]
          rw [Nat.add_assoc, Nat.add_comm 1]
        · intro j hj r hr
          cases j with
          | zero =>
            obtain rfl := Option.some.inj hr
            exact hsome
          | succ j => exact hbefore j (by omega) r hr

theorem length_encodeOps (ops : List Op) :
    (encodeOps ops).length = opRecordLen * ops.length := by
  induction ops with
  | nil => rfl
  | cons op ops ih =>
    rw [encodeOps, List.flatMap_cons, List.length_append, length_encode, ← encodeOps, ih,
      List.length_cons, Nat.mul_succ, Nat.add_comm]

theorem records_encodeOps (ops : List Op) :
    records (encodeOps ops) ops.length = ops.map encode := by
  induction ops with
  | nil => rfl
  | cons op ops ih =>
    rw [encodeOps, List.flatMap_cons, ← encodeOps, List.length_cons, records,
      List.take_left' (length_encode op), List.drop_left' (length_encode op), ih, List.map_cons]

theorem decodeAll_encode (index : ℕ) (ops : List Op) :
    decodeAll index (ops.map encode) = .ok ops := by
  induction ops generalizing index with
  | nil => rfl
  | cons op ops ih => simp only [List.map_cons, decodeAll, decode_encode, ih, Except.map]

/-- What the encoder writes is read back. -/
theorem decodeOps_encodeOps (ops : List Op) : decodeOps (encodeOps ops) = .ok ops := by
  have hwhole : (encodeOps ops).length % opRecordLen = 0 := by
    rw [length_encodeOps, Nat.mul_mod_right]
  have hcount : (encodeOps ops).length / opRecordLen = ops.length := by
    rw [length_encodeOps, Nat.mul_div_cancel_left _ (by decide)]
  rw [decodeOps, if_neg (not_not.mpr hwhole), hcount, records_encodeOps, decodeAll_encode]

section Bytes

variable {bytes : List UInt8}

/-- Bytes that are no whole records. -/
theorem decodeOps_length (n : ℕ) : decodeOps bytes = .error (.length n) ↔
    bytes.length % opRecordLen ≠ 0 ∧ n = bytes.length := by
  unfold decodeOps
  by_cases hpart : bytes.length % opRecordLen ≠ 0
  · rw [if_pos hpart, Except.error.injEq, OpsError.length.injEq]
    exact ⟨fun h => ⟨hpart, h.symm⟩, fun h => h.2.symm⟩
  · rw [if_neg hpart]
    simp only [hpart, false_and, iff_false]
    rcases decodeAll_eq 0 (records bytes (bytes.length / opRecordLen)) with
      ⟨ops, hops, -⟩ | ⟨i, rec, herr, -⟩
    · rw [hops]
      exact nofun
    · rw [herr]
      exact nofun

/-- The decoder refuses whole records at the first one that is not grammatical. -/
theorem decodeOps_whole (hwhole : bytes.length % opRecordLen = 0) :
    (∃ ops, decodeOps bytes = .ok ops ∧
      ∀ i < bytes.length / opRecordLen, Grammatical (recordAt bytes i)) ∨
    ∃ i < bytes.length / opRecordLen, ¬ Grammatical (recordAt bytes i) ∧
      (∀ j < i, Grammatical (recordAt bytes j)) ∧
      decodeOps bytes = .error (.record i ((recordAt bytes i).headD 0)) := by
  have hat : ∀ {i rec}, (records bytes (bytes.length / opRecordLen))[i]? = some rec ↔
      i < bytes.length / opRecordLen ∧ recordAt bytes i = rec := by
    intro i rec
    rw [records_getElem?]
    split
    · rename_i hi
      simp only [Option.some.injEq, hi, true_and]
    · rename_i hi
      simp only [reduceCtorEq, hi, false_and]
  rw [decodeOps, if_neg (not_not.mpr hwhole)]
  rcases decodeAll_eq 0 (records bytes (bytes.length / opRecordLen)) with
    ⟨ops, hops, hall⟩ | ⟨i, rec, herr, hi, hbad, hbefore⟩
  · refine Or.inl ⟨ops, hops, fun i hi => (decode_isSome _).mp (hall _ ?_)⟩
    exact List.mem_of_getElem? (hat.mpr ⟨hi, rfl⟩)
  · obtain ⟨hlt, rfl⟩ := hat.mp hi
    refine Or.inr ⟨i, hlt, fun h => ?_, fun j hj => ?_, ?_⟩
    · have hsome := (decode_isSome _).mpr h
      rw [hbad] at hsome
      cases hsome
    · exact (decode_isSome _).mp (hbefore j hj _ (hat.mpr ⟨by omega, rfl⟩))
    · rw [herr, Nat.zero_add]

/-- Whole records are accepted when every one is grammatical. -/
theorem decodeOps_accepts (hwhole : bytes.length % opRecordLen = 0) :
    (∃ ops, decodeOps bytes = .ok ops) ↔
      ∀ i < bytes.length / opRecordLen, Grammatical (recordAt bytes i) := by
  rcases decodeOps_whole hwhole with ⟨ops, hops, hall⟩ | ⟨i, hi, hbad, -, herr⟩
  · exact ⟨fun _ => hall, fun _ => ⟨ops, hops⟩⟩
  · refine ⟨fun ⟨ops, hops⟩ => ?_, fun hall => absurd (hall i hi) hbad⟩
    rw [herr] at hops
    cases hops

/-- The record that an error names. -/
theorem decodeOps_record (hwhole : bytes.length % opRecordLen = 0) (index : ℕ) (kind : UInt8) :
    decodeOps bytes = .error (.record index kind) ↔
      index < bytes.length / opRecordLen ∧ ¬ Grammatical (recordAt bytes index) ∧
        (∀ j < index, Grammatical (recordAt bytes j)) ∧
        kind = (recordAt bytes index).headD 0 := by
  rcases decodeOps_whole hwhole with ⟨ops, hops, hall⟩ | ⟨i, hi, hbad, hbefore, herr⟩
  · rw [hops]
    exact ⟨nofun, fun h => absurd (hall index h.1) h.2.1⟩
  · rw [herr]
    constructor
    · intro h
      obtain ⟨rfl, rfl⟩ := OpsError.record.inj (Except.error.inj h)
      exact ⟨hi, hbad, hbefore, rfl⟩
    · rintro ⟨-, hbad', hbefore', rfl⟩
      -- Both are the first bad record.
      have hle : ¬ i < index := fun hlt => hbad (hbefore' i hlt)
      have hge : ¬ index < i := fun hlt => hbad' (hbefore index hlt)
      obtain rfl : i = index := by omega
      rfl

theorem length_records (k : ℕ) : (records bytes k).length = k := by
  induction k generalizing bytes with
  | zero => rfl
  | succ k ih => rw [records, List.length_cons, ih]

theorem length_of_decodeOps {ops : List Op} (h : decodeOps bytes = .ok ops) :
    ops.length = bytes.length / opRecordLen := by
  rw [← (decodeOps_ok h).2.length_eq, length_records]

end Bytes

/-! The replay. -/

/-- The replay returns and logs `n` records. -/
def Logs {σ : Type} (apply : σ → Op → Exec (Reply × σ)) (book : σ) (ops : List Op) (n : ℕ) : Prop :=
  ∃ replies s, replayOps apply book ops = .ok (replies, s) ∧ s.log.records.length = n ∧
    s.log.len = n

section Logs

variable {σ : Type} {apply : σ → Op → Exec (Reply × σ)} {book book' : σ} {ops : List Op}
  {replies : List Reply}

/-- The replay returns with the calls, and logs one record for each. -/
theorem logs_of_run (h : run apply book ops = .ok (replies, book')) :
    Logs apply book ops ops.length := by
  have hlen := length_of_run h
  refine ⟨replies, ⟨book', logAll .new replies, 0 + errorCount replies⟩, ?_, ?_, ?_⟩
  · simp only [replayOps, run_replayStep, h, ok_bind, pure_eq_ok]
  · simp only [logAll, EventLog.new, List.nil_append, List.length_map, hlen]
  · simp only [logAll, EventLog.new, Nat.zero_add, hlen]

theorem logs_of_replay {s : Replayed σ} (h : replayOps apply book ops = .ok (replies, s)) :
    Logs apply book ops ops.length := by
  rw [replayOps, run_replayStep] at h
  obtain ⟨⟨rs, b⟩, hrun, -⟩ := bind_eq_ok.mp h
  exact logs_of_run hrun

/-- A book whose calls return makes any calls. -/
theorem run_of_returns (hcalls : ∀ b op, ∃ r b', apply b op = .ok (r, b')) (book : σ)
    (ops : List Op) : ∃ replies book', run apply book ops = .ok (replies, book') := by
  induction ops generalizing book with
  | nil => exact ⟨[], book, rfl⟩
  | cons op ops ih =>
    obtain ⟨r, b, hstep⟩ := hcalls book op
    obtain ⟨rs, b', hrest⟩ := ih b
    exact ⟨r :: rs, b', run_cons_ok hstep hrest⟩

end Logs

/-- The replay logs `n` records on any book: whenever it returns, and it returns on a book whose
calls return, on a reached reference book, and on an array book with room for every order. -/
def LogsAnywhere (ops : List Op) (n : ℕ) : Prop :=
  (∀ (σ : Type) (apply : σ → Op → Exec (Reply × σ)) (book : σ),
    (∀ replies s, replayOps apply book ops = .ok (replies, s) → Logs apply book ops n) ∧
    ((∀ b op, ∃ r b', apply b op = .ok (r, b')) → Logs apply book ops n)) ∧
  (∀ b : LocateBook, Reached b → b.isArray = false → Logs LocateBook.apply b ops n) ∧
  ∀ (b : ArrayBooks.ArrayBook) m, b.Refines m → BookRuns.Within m ops →
    Logs ArrayBooks.ArrayBook.apply b ops n

theorem logsAnywhere (ops : List Op) : LogsAnywhere ops ops.length := by
  refine ⟨fun σ apply book => ⟨fun replies s h => logs_of_replay h, fun hcalls => ?_⟩,
    fun b hb hkind => ?_, fun b m hb hroom => ?_⟩
  · obtain ⟨replies, book', hrun⟩ := run_of_returns hcalls book ops
    exact logs_of_run hrun
  · obtain ⟨m, hm⟩ := hb.refines
    obtain ⟨replies, b', hrun⟩ := EventReplays.reference_runs hm hkind ops
    exact logs_of_run hrun
  · obtain ⟨b', hrun, -⟩ := BookRuns.array_run hb hroom
    exact logs_of_run hrun

/-- The decoder accepts exactly the grammar, with the ops that the encoder writes, and names the
first record outside it; a replay of accepted bytes logs one event for each record. -/
theorem decodeOps_grammar : (∀ ops, decodeOps (encodeOps ops) = .ok ops) ∧
    ∀ bytes : List UInt8,
      (∀ n, decodeOps bytes = .error (.length n) ↔
        bytes.length % opRecordLen ≠ 0 ∧ n = bytes.length) ∧
      (bytes.length % opRecordLen = 0 →
        ((∃ ops, decodeOps bytes = .ok ops) ↔
          ∀ i < bytes.length / opRecordLen, Grammatical (recordAt bytes i)) ∧
        ∀ index kind, decodeOps bytes = .error (.record index kind) ↔
          index < bytes.length / opRecordLen ∧ ¬ Grammatical (recordAt bytes index) ∧
            (∀ j < index, Grammatical (recordAt bytes j)) ∧
            kind = (recordAt bytes index).headD 0) ∧
      ∀ ops, decodeOps bytes = .ok ops → LogsAnywhere ops (bytes.length / opRecordLen) := by
  refine ⟨decodeOps_encodeOps, fun bytes => ⟨decodeOps_length, fun hwhole =>
    ⟨decodeOps_accepts hwhole, decodeOps_record hwhole⟩, fun ops h => ?_⟩⟩
  rw [← length_of_decodeOps h]
  exact logsAnywhere ops

end Lobcore.OpsGrammar
