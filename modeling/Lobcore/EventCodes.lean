import Lobcore.LittleEndian
import Lobcore.PrefixCodes

/-!
The records of the event log (`types.rs`). A record is read back as the event it was written
from, and is the only one that reads so. The records have one length, so the bytes that are
hashed determine the events, and whatever is computed from these bytes speaks about the log.
-/
namespace Lobcore.EventCodes

open OrderTypes OpsFormat LittleEndian PrefixCodes

def eventRecordLen : ℕ := 34

/-- `[u8; EVENT_RECORD_LEN]`. -/
abbrev EventBytes := {rec : List UInt8 // rec.length = eventRecordLen}

theorem length_encode (e : Event) : e.encode.length = eventRecordLen := by
  simp only [Event.encode, List.length_cons, List.length_append, pxBytes, Writers.length_leBytes,
    List.length_nil, eventRecordLen]

/-- The record of an event. -/
def encode (e : Event) : EventBytes := ⟨e.encode, length_encode e⟩

/-- Inverse of `encode`; `none` if the type code is not `1..=12`. -/
def decode (rec : EventBytes) : Option Event := do
  let kind ← kindFromCode (rec.val.getD 0 0)
  return ⟨kind, u64Le rec.val 1, u64Le rec.val 9, (u64Le rec.val 17).toInt64, u64Le rec.val 25,
    rec.val.getD 33 0⟩

/-- The events, pushed in order. -/
def pushAll (es : List Event) : EventLog := es.foldl EventLog.push .new

/-- What a hash function makes of the log. -/
def digest {δ : Type} (hash : List UInt8 → δ) (log : EventLog) : δ := hash log.stream

/-! One record. -/

theorem kindFromCode_code (kind : EventKind) : kindFromCode kind.code = some kind := by
  cases kind <;> rfl

/-- A price is written as its word. -/
theorem pxBytes_toInt (px : Int64) : pxBytes px.toInt = leBytes 8 px.toUInt64.toNat := by
  have hsign := BitVec.toInt_eq_toNat_cond px.toBitVec
  have hlt := px.toBitVec.isLt
  have hint : px.toInt = px.toBitVec.toInt := rfl
  have hnat : px.toUInt64.toNat = px.toBitVec.toNat := rfl
  have hword : (px.toInt % 2 ^ 64).toNat = px.toUInt64.toNat := by
    rw [hint, hnat]
    split at hsign <;> omega
  rw [pxBytes, hword]

/-- The fields of a record, the last one behind the others. -/
theorem encode_eq (e : Event) : e.encode = e.kind.code :: (leBytes 8 e.a.toNat ++
    (leBytes 8 e.b.toNat ++ (leBytes 8 e.px.toUInt64.toNat ++ (leBytes 8 e.qty.toNat ++
      [e.side])))) := by
  simp only [Event.encode, pxBytes_toInt, List.append_assoc]

theorem decode_encode (e : Event) : decode (encode e) = some e := by
  simp (disch := omega) only [decode, encode, encode_eq, u64Le, leAt_cons, leAt_skip, leAt_here,
    getD_skip, List.getD_cons_succ, List.getD_cons_zero, Nat.reduceSub, ofNat_mod_u64,
    kindFromCode_code]
  rfl

theorem encode_of_decode {rec : EventBytes} {e : Event} (h : decode rec = some e) :
    encode e = rec := by
  obtain ⟨bs, hlen⟩ := rec
  have hlen' : bs.length = 34 := hlen
  obtain ⟨kind, hkind, rfl⟩ : ∃ kind, kindFromCode (bs.getD 0 0) = some kind ∧
      e = ⟨kind, u64Le bs 1, u64Le bs 9, (u64Le bs 17).toInt64, u64Le bs 25, bs.getD 33 0⟩ := by
    obtain ⟨kind, hkind, he⟩ := Option.bind_eq_some_iff.mp h
    exact ⟨kind, hkind, (Option.some.inj he).symm⟩
  have hlast : [bs.getD 33 0] = bs.drop 33 := by
    rw [← getD_drop (by omega), List.drop_eq_nil_of_le (by omega)]
  apply Subtype.ext
  simp (disch := omega) only [encode, encode_eq, UInt64.toUInt64_toInt64, hlast, leBytes_u64Le,
    ← kindFromCode_eq_some hkind, getD_drop, List.drop_zero]

/-! The stream. -/

theorem records_foldl_push (log : EventLog) (es : List Event) :
    (es.foldl EventLog.push log).records = log.records ++ es := by
  induction es generalizing log with
  | nil => rw [List.foldl_nil, List.append_nil]
  | cons e es ih =>
    rw [List.foldl_cons, ih, EventLog.push, List.append_assoc, List.singleton_append]

theorem stream_pushAll (es : List Event) :
    (pushAll es).stream = EventLog.version :: es.flatMap Event.encode := by
  rw [EventLog.stream, pushAll, records_foldl_push, EventLog.new, List.nil_append]

theorem readable_encode : Readable (fun _ => True) Event.encode := by
  refine readable_of_length length_encode fun e e' _ _ h => ?_
  have hsame : encode e = encode e' := Subtype.ext h
  have hread := decode_encode e
  rw [hsame, decode_encode] at hread
  exact (Option.some.inj hread).symm

/-- The hashed bytes determine the events. -/
theorem stream_inj {es es' : List Event} :
    (pushAll es).stream = (pushAll es').stream ↔ es = es' := by
  constructor
  · intro h
    rw [stream_pushAll, stream_pushAll] at h
    have hne : ∀ e : Event, True → e.encode ≠ [] := fun e _ => List.cons_ne_nil _ _
    exact readable_encode.flatMap_inj hne (fun _ _ => trivial) (fun _ _ => trivial)
      (List.cons.inj h).2
  · rintro rfl
    rfl

/-- Records and events determine each other, and two logs hash the same bytes exactly when the
same events were pushed, which is when every hash function agrees on them. -/
theorem log_determines_events : (∀ e, decode (encode e) = some e) ∧
    (∀ rec e, decode rec = some e → encode e = rec) ∧
    ∀ es es' : List Event, ((pushAll es).stream = (pushAll es').stream ↔ es = es') ∧
      ((∀ (δ : Type) (hash : List UInt8 → δ),
        digest hash (pushAll es) = digest hash (pushAll es')) ↔ es = es') := by
  refine ⟨decode_encode, fun rec e => encode_of_decode, fun es es' => ⟨stream_inj, ?_⟩⟩
  constructor
  · intro h
    exact stream_inj.mp (h (List UInt8) id)
  · rintro rfl δ hash
    rfl

end Lobcore.EventCodes
