import Lobcore.EventReplays
import Lobcore.OpsPyref

/-!
The two sides of the cross-language contract: the script's book and the reference book hold the
same levels and the same ids after every record, whatever they log. They log the same event
unless the record is an add that a live id and a full level both refuse: the script names the
id, the books name the level.
-/
namespace Lobcore.OpsParity

open Checked OrderTypes SortedMaps Markets ReferenceBook ArrayBooks BookRuns EventReplays
open OpsFormat OpsPyref

/-! `replay` of `ops.rs`. -/

/-- The book, the event log and the number of ops that returned an error. -/
structure Replayed (σ : Type) where
  book : σ
  log : EventLog
  errors : ℕ

def replayStep {σ : Type} (apply : σ → Op → Exec (Reply × σ)) (s : Replayed σ) (op : Op) :
    Exec (Reply × Replayed σ) := do
  let (r, book) ← apply s.book op
  return (r, ⟨book, s.log.push (loggedEvent r), s.errors + if r.isOk then 0 else 1⟩)

def replayOps {σ : Type} (apply : σ → Op → Exec (Reply × σ)) (book : σ) (ops : List Op) :
    Exec (List Reply × Replayed σ) :=
  run (replayStep apply) ⟨book, .new, 0⟩ ops

def errorCount (replies : List Reply) : ℕ := (replies.filter fun r => !r.isOk).length

theorem errorCount_cons (r : Reply) (rs : List Reply) :
    errorCount (r :: rs) = (if r.isOk then 0 else 1) + errorCount rs := by
  cases r with
  | ok e => simp [errorCount, Except.isOk, Except.toBool]
  | error e =>
    simp [errorCount, Except.isOk, Except.toBool]
    omega

def logAll (log : EventLog) (replies : List Reply) : EventLog :=
  ⟨log.records ++ replies.map loggedEvent, log.len + replies.length⟩

theorem run_replayStep {σ : Type} (apply : σ → Op → Exec (Reply × σ)) (s : Replayed σ)
    (ops : List Op) : run (replayStep apply) s ops = do
      let (replies, book) ← run apply s.book ops
      return (replies, ⟨book, logAll s.log replies, s.errors + errorCount replies⟩) := by
  induction ops generalizing s with
  | nil => simp [logAll, errorCount]
  | cons op ops ih =>
    cases h : apply s.book op with
    | error e => simp [run, replayStep, h]
    | ok p =>
      obtain ⟨r, book⟩ := p
      cases hrest : run apply book ops with
      | error e => simp [run, replayStep, h, ih, hrest]
      | ok q =>
        obtain ⟨rs, b⟩ := q
        simp [run, replayStep, h, ih, hrest, logAll, EventLog.push, errorCount_cons, Nat.add_assoc,
          Nat.add_comm 1]

/-! The records of the script. -/

/-- The fields of an event. -/
def ofEvent (e : Event) : Entry :=
  ⟨e.kind.code.toNat, e.a.toNat, e.b.toNat, e.px.toInt, e.qty.toNat, e.side.toNat⟩

theorem toNat_field {n : ℕ} (h : n < 2 ^ 32) : (UInt64.ofNat n).toNat = n :=
  UInt64.toNat_ofNat_of_lt (lt_trans h (by decide))

theorem toInt_field {px : ℤ} (h : 0 ≤ px ∧ px < 2 ^ 31) : (Int64.ofInt px).toInt = px :=
  Int64.toInt_ofInt_of_le (by omega) (by omega)

theorem packU_ok {k n : ℕ} (h : n < 256 ^ k) : packU k n = .ok (leBytes k n) := if_pos h

theorem packI64_ok {x : ℤ} (h : -2 ^ 63 ≤ x ∧ x < 2 ^ 63) : packI64 x = .ok (pxBytes x) := if_pos h

theorem leBytes_one (b : UInt8) : leBytes 1 b.toNat = [b] := by
  have hb : UInt8.ofNat (b.toNat % 256) = b := by
    rw [Nat.mod_eq_of_lt b.toNat_lt]
    exact UInt8.ofNat_toNat
  simp only [leBytes, hb]

/-- The script packs an event as the books encode it. -/
theorem pack_ofEvent (e : Event) : (ofEvent e).pack = .ok e.encode := by
  have hkind : e.kind.code.toNat < 256 ^ 1 := e.kind.code.toNat_lt
  have hside : e.side.toNat < 256 ^ 1 := e.side.toNat_lt
  have ha : e.a.toNat < 256 ^ 8 := e.a.toNat_lt
  have hb : e.b.toNat < 256 ^ 8 := e.b.toNat_lt
  have hqty : e.qty.toNat < 256 ^ 8 := e.qty.toNat_lt
  have hpx : -2 ^ 63 ≤ e.px.toInt ∧ e.px.toInt < 2 ^ 63 := ⟨e.px.le_toInt, e.px.toInt_lt⟩
  simp only [Entry.pack, ofEvent, packU_ok hkind, packU_ok hside, packU_ok ha, packU_ok hb,
    packU_ok hqty, packI64_ok hpx, ok_bind, pure_eq_ok, leBytes_one, Event.encode,
    List.append_assoc, List.singleton_append]

theorem isError_kind (r : Reply) (hok : ∀ e, r = .ok e → e.kind ≠ .unknown ∧ e.kind ≠ .reject) :
    ((ofEvent (loggedEvent r)).kind = UNKNOWN ∨ (ofEvent (loggedEvent r)).kind = REJECT) ↔
      r.isOk = false := by
  cases r with
  | error e => cases e <;> simp [loggedEvent, BookError.event, ofEvent, Event.unknown,
      Event.reject, EventKind.code, UNKNOWN, REJECT, Except.isOk, Except.toBool]
  | ok e =>
    obtain ⟨hunknown, hreject⟩ := hok e rfl
    cases hk : e.kind <;> simp_all [loggedEvent, ofEvent, EventKind.code, UNKNOWN, REJECT,
      Except.isOk, Except.toBool]

/-! The two books. -/

/-- The script's book has the levels of the reference book, and the ids with their sides as
numbers. -/
structure Mirrors (p : Book) (r : RefBook) : Prop where
  bids : p.bids = r.bids
  asks : p.asks = r.asks
  ids : ∀ id, p.ids.get? id = (r.ids.get? id).map fun e => (e.1.code.toNat, e.2)

/-- The script's call for an op. -/
def callOp (p : Book) : Op → Exec (Entry × Book)
  | .add id s px qty => p.add id s.code.toNat px.toInt qty.toNat
  | .cancel id qty => p.cancel id qty.toNat
  | .execute id qty => p.execute id qty.toNat
  | .delete id => p.delete id
  | .replace old new px qty => p.replace old new px.toInt qty.toNat

/-- The op is an add that both a live id and a full level refuse. -/
def Coincides (r : RefBook) : Op → Prop
  | .add id s px qty => 0 < qty.toNat ∧ 0 < px.toInt ∧ r.ids.contains id = true ∧
      r.wouldOverflow s px.toInt 0 qty.toNat = .ok true
  | _ => False

/-- Both calls return, the script's with the event of the other's reply. -/
def Alike (x : Exec (Entry × Book)) (y : Exec (Reply × RefBook)) : Prop :=
  ∃ reply p r, x = .ok (ofEvent (loggedEvent reply), p) ∧ y = .ok (reply, r) ∧ Mirrors p r

theorem mirrors_new : Mirrors .new .new where
  bids := rfl
  asks := rfl
  ids _ := rfl

namespace Mirrors

variable {p : Book} {r : RefBook} (h : Mirrors p r)

include h

theorem side (s : Side) : p.side s.code.toNat = r.side s := by
  cases s with
  | bid => exact h.bids
  | ask => exact h.asks

theorem withSide (s : Side) (levels : SortedMap ℤ Queue) :
    Mirrors (p.withSide s.code.toNat levels) (r.withSide s levels) := by
  cases s with
  | bid => exact ⟨rfl, h.asks, h.ids⟩
  | ask => exact ⟨h.bids, rfl, h.ids⟩

theorem erase (s : Side) (levels : SortedMap ℤ Queue) (id : OrderId) :
    Mirrors { p.withSide s.code.toNat levels with ids := p.ids.erase id }
      { r.withSide s levels with ids := r.ids.erase id } where
  bids := (h.withSide s levels).bids
  asks := (h.withSide s levels).asks
  ids j := by
    simp only [SortedMap.get?_erase, h.ids]
    split <;> rfl

theorem insert (s : Side) (levels : SortedMap ℤ Queue) (id : OrderId) (px : ℤ) :
    Mirrors { p.withSide s.code.toNat levels with ids := p.ids.insert id (s.code.toNat, px) }
      { r.withSide s levels with ids := r.ids.insert id (s, px) } where
  bids := (h.withSide s levels).bids
  asks := (h.withSide s levels).asks
  ids j := by
    simp only [SortedMap.get?_insert, h.ids]
    split <;> rfl

theorem contains (id : OrderId) : p.ids.contains id = r.ids.contains id := by
  simp only [SortedMap.contains, h.ids, Option.isSome_map]

theorem held (s : Side) (px : ℤ) :
    p.held s.code.toNat px = total (((r.side s).get? px).getD []) := by
  rw [Book.held, h.side]

theorem append (id : OrderId) (s : Side) (px : ℤ) (qty : ℕ) :
    Mirrors (p.append id s.code.toNat px qty) (r.pushTail id s px qty) := by
  unfold Book.append RefBook.pushTail
  rw [h.side]
  exact h.insert s _ id px

end Mirrors

section Steps

variable {p : Book} {r : RefBook} {m : Market} (h : Mirrors p r) (hr : r.Refines m)

include h hr

/-- An order the market finds stands at the same place for the script. -/
theorem find_some {id : OrderId} {s : Side} {px : ℤ} {n : ℕ} {xs ys : Queue}
    (hid : m.find id = some (s, px, n)) (hq : m.queue s px = xs ++ (id, n) :: ys)
    (hxs : id ∉ Markets.ids xs) :
    p.find id = .ok (s.code.toNat, px, xs ++ (id, n) :: ys, xs.length, n) := by
  have hhome : p.ids.get? id = some (s.code.toNat, px) := by
    rw [h.ids, ← hr.home_eq, (Market.find_eq_some.mp hid).1]
    rfl
  have hget : (r.side s).get? px = some (xs ++ (id, n) :: ys) := by
    rw [hr.get?_eq (by simp [hq]), hq]
  have hpos := RefBook.zipIdx_find_split n 0 ys hxs
  rw [Nat.zero_add] at hpos
  simp only [Book.find, hhome, expect_some, ok_bind, h.side, hget, hpos, pure_eq_ok]

theorem contains_of_find {id : OrderId} {p' : Side × ℤ × ℕ} (hid : m.find id = some p') :
    p.ids.contains id = true := by
  obtain ⟨s, px, n⟩ := p'
  rw [h.contains, hr.contains_iff, (Market.find_eq_some.mp hid).1]
  rfl

theorem contains_of_none {id : OrderId} (hid : m.find id = none) : p.ids.contains id = false := by
  rw [h.contains, hr.contains_iff, hr.wf.find_eq_none.mp hid]
  rfl

/-- Taking from an order leaves the same rest and the same books. -/
theorem take {id : OrderId} {s : Side} {px : ℤ} {n amount : ℕ} {xs ys : Queue}
    (hid : m.find id = some (s, px, n)) (hq : m.queue s px = xs ++ (id, n) :: ys)
    (hxs : id ∉ Markets.ids xs) (hle : amount ≤ n) :
    ∃ p' r', p.take id amount = .ok ((s.code.toNat, px, n - amount), p') ∧
      r.take id s px xs.length amount = .ok (n - amount, r') ∧ Mirrors p' r' ∧
      r'.Refines (m.take id s px (n - amount)) := by
  have hget : (r.side s).get? px = some (xs ++ (id, n) :: ys) := by
    rw [hr.get?_eq (by simp [hq]), hq]
  have hidx : index (xs ++ (id, n) :: ys) xs.length = .ok (id, n) :=
    index_eq_ok.mpr (by rw [List.getElem?_append_right le_rfl]; simp)
  obtain ⟨r', htake, hr'⟩ := hr.take hid hq hxs hle
  have hfind := find_some h hr hid hq hxs
  have htake' := htake
  simp only [RefBook.take, hget, expect_some, ok_bind, hidx, subU_ok hle] at htake'
  by_cases hrest : n - amount = 0
  · simp only [hrest, if_true, pure_eq_ok, Except.ok.injEq, Prod.mk.injEq, true_and] at htake'
    have hleft := h.erase s (if ((xs ++ (id, n) :: ys).eraseIdx xs.length).isEmpty
      then (r.side s).erase px
      else (r.side s).insert px ((xs ++ (id, n) :: ys).eraseIdx xs.length)) id
    rw [htake'] at hleft
    refine ⟨_, r', ?_, htake, hleft, hr'⟩
    simp only [Book.take, hfind, ok_bind, hrest, if_true, h.side, pure_eq_ok]
  · simp only [hrest, if_false, pure_eq_ok, Except.ok.injEq, Prod.mk.injEq, true_and] at htake'
    have hleft := h.withSide s ((r.side s).insert px
      ((xs ++ (id, n) :: ys).set xs.length (id, n - amount)))
    rw [htake'] at hleft
    refine ⟨_, r', ?_, htake, hleft, hr'⟩
    simp only [Book.take, hfind, ok_bind, hrest, if_false, h.side, pure_eq_ok]

theorem held_over (s : Side) (px : ℤ) (qty : ℕ) :
    p.held s.code.toNat px + qty > 2 ^ 32 - 1 ↔ 2 ^ 32 ≤ total (m.queue s px) + qty := by
  rw [h.held, ← hr.queue_eq]
  omega

omit h in
theorem room_eq (s : Side) (px : ℤ) {qty : ℕ} (hqty : qty < 2 ^ 32) :
    r.wouldOverflow s px 0 qty = .ok (decide (2 ^ 32 ≤ total (m.queue s px) + qty)) := by
  have hroom := hr.wouldOverflow s px (Nat.zero_le _) hqty
  rwa [Nat.sub_zero] at hroom

/-- An add that only one of the two checks refuses, or none. -/
theorem add (id : OrderId) (s : Side) (px : Int32) (qty : UInt32)
    (hapart : ¬ Coincides r (.add id s px qty)) :
    Alike (p.add id s.code.toNat px.toInt qty.toNat) (r.add id s px.toInt qty.toNat) := by
  have hqty := uint32_bound qty
  have hpx := (int32_bounds px).2
  have hroom := room_eq hr s px.toInt hqty
  have hcap := held_over h hr s px.toInt qty.toNat
  have hid := h.contains id
  unfold Book.add RefBook.add
  by_cases hzero : qty.toNat = 0
  · refine ⟨.error .badQty, p, r, ?_, by simp [hzero], h⟩
    simp only [hzero, if_true, pure_eq_ok]
    rfl
  by_cases hneg : px.toInt ≤ 0
  · refine ⟨.error .badPrice, p, r, ?_, by simp [hzero, hneg], h⟩
    simp only [hzero, hneg, if_false, if_true, pure_eq_ok]
    rfl
  by_cases hover : 2 ^ 32 ≤ total (m.queue s px.toInt) + qty.toNat
  · have hfresh : ¬ r.ids.contains id = true := fun hlive =>
      hapart ⟨Nat.pos_of_ne_zero hzero, not_le.mp hneg, hlive, by rw [hroom, decide_eq_true hover]⟩
    refine ⟨.error .badQty, p, r, ?_, ?_, h⟩
    · simp only [hzero, hneg, hid, hfresh, Bool.false_eq_true, hcap.mpr hover, if_false, if_true,
        pure_eq_ok]
      rfl
    · simp only [hzero, hneg, hroom, hover, decide_true, ok_bind, if_false, if_true, pure_eq_ok]
  by_cases hlive : r.ids.contains id = true
  · refine ⟨.error (.duplicateId id), p, r, ?_, ?_, h⟩
    · simp only [hzero, hneg, hid, hlive, if_false, if_true, pure_eq_ok]
      rfl
    · simp only [hzero, hneg, hroom, hover, hlive, decide_false, Bool.false_eq_true, ok_bind,
        if_false, if_true, pure_eq_ok]
  · refine ⟨.ok (.add id s px.toInt qty.toNat), _, _, ?_, ?_, h.append id s px.toInt qty.toNat⟩
    · simp only [hzero, hneg, hid, hlive, Bool.false_eq_true, mt hcap.mp hover, if_false,
        pure_eq_ok, loggedEvent, Event.add, ofEvent, toInt_field ⟨(not_le.mp hneg).le, hpx⟩,
        toNat_field hqty]
      rfl
    · simp only [hzero, hneg, hroom, hover, hlive, decide_false, Bool.false_eq_true, ok_bind,
        if_false, pure_eq_ok]

omit hr in
/-- The script checks the id first, the books the level. -/
theorem add_of_coincides {id : OrderId} {s : Side} {px : Int32} {qty : UInt32}
    (hboth : Coincides r (.add id s px qty)) :
    p.add id s.code.toNat px.toInt qty.toNat =
      .ok (ofEvent (loggedEvent (.error (.duplicateId id))), p) ∧
      r.add id s px.toInt qty.toNat = .ok (.error .badQty, r) := by
  obtain ⟨hqty, hpx, hlive, hover⟩ := hboth
  have hid := h.contains id
  constructor
  · simp only [Book.add, hqty.ne', not_le.mpr hpx, hid, hlive, if_false, if_true, pure_eq_ok]
    rfl
  · simp only [RefBook.add, hqty.ne', not_le.mpr hpx, hover, ok_bind, if_false, if_true, pure_eq_ok]

/-- An order stands at one place for the script and for the book, or for neither. -/
theorem located (id : OrderId) :
    (p.ids.contains id = false ∧ r.find id = none) ∨
    ∃ s px n xs ys, p.ids.contains id = true ∧ m.queue s px = xs ++ (id, n) :: ys ∧
      p.find id = .ok (s.code.toNat, px, xs ++ (id, n) :: ys, xs.length, n) ∧
      r.find id = some (s, px, xs.length, n) ∧ (0 ≤ px ∧ px < 2 ^ 31) ∧ n < 2 ^ 32 ∧
      ∀ amount ≤ n, ∃ p' r', p.take id amount = .ok ((s.code.toNat, px, n - amount), p') ∧
        r.take id s px xs.length amount = .ok (n - amount, r') ∧ Mirrors p' r' := by
  cases hfind : m.find id with
  | none => exact Or.inl ⟨contains_of_none h hr hfind, hr.find_none hfind⟩
  | some o =>
    obtain ⟨s, px, n⟩ := o
    obtain ⟨xs, ys, hq, hxs, -⟩ := hr.wf.split hfind
    have hne : m.queue s px ≠ [] := by simp [hq]
    refine Or.inr ⟨s, px, n, xs, ys, contains_of_find h hr hfind, hq, find_some h hr hfind hq hxs,
      hr.find_some hfind hq hxs, hr.wf.px_nonneg hne, hr.wf.held_lt hfind, fun amount hle => ?_⟩
    obtain ⟨p', r', hp, hr', hnext, -⟩ := take h hr hfind hq hxs hle
    exact ⟨p', r', hp, hr', hnext⟩

theorem cancel (id : OrderId) {qty : ℕ} : Alike (p.cancel id qty) (r.cancel id qty) := by
  unfold Book.cancel RefBook.cancel
  rcases located h hr id with ⟨hnot, hnone⟩ |
    ⟨s, px, n, xs, ys, hlive, -, hplace, hplace', hrange, hheld, htake⟩
  · refine ⟨.error (.unknownId .cancel id), p, r, ?_, by simp [hnone], h⟩
    simp only [hnot, Bool.false_eq_true, not_false_eq_true, if_true, pure_eq_ok]
    rfl
  by_cases hzero : qty = 0
  · refine ⟨.error .badQty, p, r, ?_, by simp [hplace', hzero], h⟩
    simp only [hlive, not_true_eq_false, if_false, hzero, if_true, pure_eq_ok]
    rfl
  · obtain ⟨p', r', hp, hr', hnext⟩ := htake _ (min_le_right qty n)
    refine ⟨.ok (.cancel id s px (min qty n) (n - min qty n)), p', r', ?_, ?_, hnext⟩
    · simp only [hlive, not_true_eq_false, if_false, hzero, hplace, ok_bind,
        hp, pure_eq_ok, loggedEvent, Event.cancel, ofEvent, toInt_field hrange,
        toNat_field (lt_of_le_of_lt (Nat.sub_le n (min qty n)) hheld),
        toNat_field (lt_of_le_of_lt (min_le_right qty n) hheld)]
      rfl
    · simp only [hplace', hzero, if_false, hr', ok_bind, pure_eq_ok]

theorem execute (id : OrderId) {qty : ℕ} (hqty : qty < 2 ^ 32) :
    Alike (p.execute id qty) (r.execute id qty) := by
  unfold Book.execute RefBook.execute
  rcases located h hr id with ⟨hnot, hnone⟩ |
    ⟨s, px, n, xs, ys, hlive, -, hplace, hplace', hrange, hheld, htake⟩
  · refine ⟨.error (.unknownId .exec id), p, r, ?_, by simp [hnone], h⟩
    simp only [hnot, Bool.false_eq_true, not_false_eq_true, if_true, pure_eq_ok]
    rfl
  by_cases hzero : qty = 0
  · refine ⟨.error .badQty, p, r, ?_, by simp [hplace', hzero], h⟩
    simp only [hlive, not_true_eq_false, if_false, hzero, if_true, pure_eq_ok]
    rfl
  by_cases hover : n < qty
  · refine ⟨.error (.overExecute id n qty), p, r, ?_, ?_, h⟩
    · simp only [hlive, not_true_eq_false, if_false, hzero, hplace, ok_bind,
        gt_iff_lt, hover, if_true, pure_eq_ok, loggedEvent, BookError.event,
        Event.reject, ofEvent, toNat_field hqty]
      rfl
    · simp only [hplace', hzero, if_false, hover, if_true, pure_eq_ok]
  · obtain ⟨p', r', hp, hr', hnext⟩ := htake _ (not_lt.mp hover)
    refine ⟨.ok (.exec id s px qty (n - qty)), p', r', ?_, ?_, hnext⟩
    · simp only [hlive, not_true_eq_false, if_false, hzero, hplace, ok_bind,
        gt_iff_lt, hover, hp, pure_eq_ok, loggedEvent, Event.exec, ofEvent, toInt_field hrange,
        toNat_field (lt_of_le_of_lt (Nat.sub_le n qty) hheld), toNat_field hqty]
      rfl
    · simp only [hplace', hzero, hover, if_false, hr', ok_bind, pure_eq_ok]

theorem delete (id : OrderId) : Alike (p.delete id) (r.delete id) := by
  unfold Book.delete RefBook.delete
  rcases located h hr id with ⟨hnot, hnone⟩ |
    ⟨s, px, n, xs, ys, hlive, -, hplace, hplace', hrange, hheld, htake⟩
  · refine ⟨.error (.unknownId .delete id), p, r, ?_, by simp [hnone], h⟩
    simp only [hnot, Bool.false_eq_true, not_false_eq_true, if_true, pure_eq_ok]
    rfl
  · obtain ⟨p', r', hp, hr', hnext⟩ := htake n le_rfl
    refine ⟨.ok (.delete id s px n), p', r', ?_, ?_, hnext⟩
    · simp only [hlive, not_true_eq_false, if_false, hplace, ok_bind, hp, pure_eq_ok, loggedEvent,
        Event.delete, ofEvent, toInt_field hrange, toNat_field hheld]
      rfl
    · simp only [hplace', hr', ok_bind, pure_eq_ok]

theorem replace (old new : OrderId) {px : ℤ} {qty : ℕ} (hpx : px < 2 ^ 31) (hqty : qty < 2 ^ 32) :
    Alike (p.replace old new px qty) (r.replace old new px qty) := by
  unfold Book.replace RefBook.replace
  rcases located h hr old with ⟨hnot, hnone⟩ |
    ⟨s, oldPx, n, xs, ys, hlive, hq, hplace, hplace', -, -, htake⟩
  · refine ⟨.error (.unknownId .replace old), p, r, ?_, by simp [hnone], h⟩
    simp only [hnot, Bool.false_eq_true, not_false_eq_true, if_true, pure_eq_ok]
    rfl
  have hnew := h.contains new
  by_cases hdup : r.ids.contains new = true
  · refine ⟨.error (.duplicateId new), p, r, ?_, by simp [hplace', hdup], h⟩
    simp only [hlive, hnew, hdup, not_true_eq_false, if_false, if_true, pure_eq_ok]
    rfl
  by_cases hzero : qty = 0
  · refine ⟨.error .badQty, p, r, ?_, by simp [hplace', hdup, hzero], h⟩
    simp only [hlive, hnew, hdup, not_true_eq_false, if_false, hzero, if_true, pure_eq_ok]
    rfl
  by_cases hneg : px ≤ 0
  · refine ⟨.error .badPrice, p, r, ?_, by simp [hplace', hdup, hzero, hneg], h⟩
    simp only [hlive, hnew, hdup, not_true_eq_false, if_false, hzero, hneg, if_true, pure_eq_ok]
    rfl
  have hminus : (if px = oldPx then n else 0) ≤ total (m.queue s px) := by
    split
    · rename_i hp
      rw [hp, hq, total_append, total_cons]
      omega
    · exact Nat.zero_le _
  have hroom := hr.wouldOverflow s px hminus hqty
  have hcap : p.held s.code.toNat px - (if px = oldPx then n else 0) + qty > 2 ^ 32 - 1 ↔
      2 ^ 32 ≤ total (m.queue s px) - (if px = oldPx then n else 0) + qty := by
    rw [h.held, ← hr.queue_eq]
    omega
  by_cases hover : 2 ^ 32 ≤ total (m.queue s px) - (if px = oldPx then n else 0) + qty
  · refine ⟨.error .badQty, p, r, ?_, ?_, h⟩
    · simp only [hlive, hnew, hdup, not_true_eq_false, if_false, hzero, hneg,
        hplace, ok_bind, hcap.mpr hover, if_true, pure_eq_ok]
      rfl
    · simp only [hplace', hdup, Bool.false_eq_true, hzero, hneg, hroom, hover, decide_true,
        ok_bind, if_false, if_true, pure_eq_ok]
  · obtain ⟨p', r', hp, hr', hnext⟩ := htake n le_rfl
    refine ⟨.ok (.replace old new s px qty), _, _, ?_, ?_, hnext.append new s px qty⟩
    · simp only [hlive, hnew, hdup, not_true_eq_false, if_false, hzero, hneg,
        hplace, ok_bind, mt hcap.mp hover, hp, pure_eq_ok, loggedEvent,
        Event.replace, ofEvent, toInt_field ⟨(not_le.mp hneg).le, hpx⟩, toNat_field hqty]
      rfl
    · simp only [hplace', hdup, hzero, hneg, hroom, hover, decide_false, Bool.false_eq_true, hr',
        ok_bind, if_false, pure_eq_ok]

/-- One call on each side. -/
theorem apply (op : Op) (hapart : ¬ Coincides r op) : Alike (callOp p op) (r.apply op) := by
  cases op with
  | add id s px qty => exact add h hr id s px qty hapart
  | cancel id qty => exact cancel h hr id
  | execute id qty => exact execute h hr id (uint32_bound qty)
  | delete id => exact delete h hr id
  | replace old new px qty =>
    exact replace h hr old new (int32_bounds px).2 (uint32_bound qty)

end Steps

theorem fromCode_eq_some {n : UInt64} {s : Side} (hn : n.toNat < 256)
    (h : Side.fromCode n.toUInt8 = some s) : n.toNat = s.code.toNat := by
  have hback : n.toUInt8.toNat = n.toNat := by
    rw [UInt64.toNat_toUInt8]
    exact Nat.mod_eq_of_lt hn
  have hcode : n.toUInt8 = s.code := by
    unfold Side.fromCode at h
    split at h <;> cases h <;> assumption
  rw [← hback, hcode]

/-- The script makes the call that the record decodes to. -/
theorem callOf_eq (p : Book) {rec : List UInt8} {op : Op} (hop : decode rec = some op) :
    callOf p rec = callOp p op := by
  unfold decode at hop
  cases hkind : kindFromCode (rec.headD 0) with
  | none =>
    rw [hkind] at hop
    cases hop
  | some kind =>
    have hcode := kindFromCode_eq_some hkind
    simp only [hkind] at hop
    cases kind with
    | add =>
      simp only at hop
      split at hop
      · rename_i hsmall
        obtain ⟨s, hs, rfl⟩ := Option.map_eq_some_iff.mp hop
        simp only [callOf, hcode, fromCode_eq_some hsmall hs]
        rfl
      · cases hop
    | cancel | exec | delete | replace =>
      obtain rfl := Option.some.inj hop
      simp only [callOf, hcode]
      rfl
    | modify | unknown | reject | trade | stpCancel | iocCancel | fokReject => cases hop

/-- A call that succeeds logs neither an unknown id nor a refusal. -/
theorem kind_of_ok {m : Market} {op : Op} {e : Event} (h : (m.apply op).1 = .ok e) :
    e.kind ≠ .unknown ∧ e.kind ≠ .reject := by
  cases op with
  | add id s px qty =>
    simp only [Market.apply, Market.add] at h
    split_ifs at h
    cases h
    simp [Event.add]
  | cancel id qty =>
    simp only [Market.apply, Market.cancel] at h
    split at h
    · cases h
    · split_ifs at h
      cases h
      simp [Event.cancel]
  | execute id qty =>
    simp only [Market.apply, Market.execute] at h
    split at h
    · cases h
    · split_ifs at h
      cases h
      simp [Event.exec]
  | delete id =>
    simp only [Market.apply, Market.delete] at h
    split at h
    · cases h
    · cases h
      simp [Event.delete]
  | replace old new px qty =>
    simp only [Market.apply, Market.replace] at h
    split at h
    · cases h
    · split_ifs at h
      all_goals
        cases h
        simp [Event.replace]

theorem step_eq {s : Script} {rec : List UInt8} {op : Op} (hop : decode rec = some op)
    {reply : Reply}
    {p : Book} (hcall : callOp s.book op = .ok (ofEvent (loggedEvent reply), p))
    (hok : ∀ e, reply = .ok e → e.kind ≠ .unknown ∧ e.kind ≠ .reject) :
    s.step rec = .ok (ofEvent (loggedEvent reply), ⟨p, s.log ++ (loggedEvent reply).encode,
      s.errs + if reply.isOk then 0 else 1⟩) := by
  have herr := isError_kind reply hok
  simp only [Script.step, callOf_eq _ hop, hcall, ok_bind, pack_ofEvent, pure_eq_ok, herr]
  cases reply.isOk <;> rfl

/-- One record: the two books move together, and the script logs the event of the reply unless
two refusals coincide. -/
theorem step_mirrors {s : Script} {r : RefBook} {m : Market} (h : Mirrors s.book r)
    (hr : r.Refines m) {rec : List UInt8} {op : Op} (hop : decode rec = some op) :
    ∃ e s' r', s.step rec = .ok (e, s') ∧ r.apply op = .ok ((m.apply op).1, r') ∧
      Mirrors s'.book r' ∧ r'.Refines (m.apply op).2 ∧
      (e = ofEvent (loggedEvent (m.apply op).1) ↔ ¬ Coincides r op) ∧
      (¬ Coincides r op → s'.log = s.log ++ (loggedEvent (m.apply op).1).encode ∧
        s'.errs = s.errs + if (m.apply op).1.isOk then 0 else 1) := by
  obtain ⟨r', happly, hr'⟩ := hr.apply op
  by_cases hboth : Coincides r op
  · cases op with
    | add id sd px qty =>
      obtain ⟨hp, hbook⟩ := add_of_coincides h hboth
      have hsame : r.apply (.add id sd px qty) = .ok (.error .badQty, r) := hbook
      obtain ⟨hreply, rfl⟩ := Prod.mk.inj (Except.ok.inj (happly.symm.trans hsame))
      have hstep := step_eq hop hp (by simp)
      refine ⟨_, _, r', hstep, happly, h, hr', ⟨fun heq => ?_, fun hnot => absurd hboth hnot⟩,
        fun hnot => absurd hboth hnot⟩
      rw [hreply] at heq
      -- the script's record names the call, the book's names nothing
      have hb : ADD = 0 := congrArg Entry.b heq
      exact absurd hb (by decide)
    | cancel | execute | delete | replace => exact hboth.elim
  · obtain ⟨reply, p', r₁, hp, hbook, hnext⟩ := apply h hr op hboth
    obtain ⟨rfl, rfl⟩ := Prod.mk.inj (Except.ok.inj (happly.symm.trans hbook))
    exact ⟨_, _, r', step_eq hop hp fun e he => kind_of_ok he, happly, hnext, hr',
      ⟨fun _ => hboth, fun _ => rfl⟩, fun _ => ⟨rfl, rfl⟩⟩

/-- No op of the run is refused twice over. -/
def Apart (r : RefBook) (ops : List Op) : Prop :=
  ∀ pre op replies r', pre ++ [op] <+: ops → run RefBook.apply r pre = .ok (replies, r') →
    ¬ Coincides r' op

theorem apart_nil (r : RefBook) : Apart r [] := fun pre op _ _ hpre => by
  have hlen := hpre.length_le
  simp at hlen

theorem apart_cons {r r₁ : RefBook} {op : Op} {ops : List Op} {reply : Reply}
    (hstep : r.apply op = .ok (reply, r₁)) :
    Apart r (op :: ops) ↔ ¬ Coincides r op ∧ Apart r₁ ops := by
  constructor
  · intro h
    refine ⟨h [] op [] r (List.cons_prefix_cons.mpr ⟨rfl, List.nil_prefix⟩) rfl, ?_⟩
    intro pre op' replies r' hpre hrun
    exact h (op :: pre) op' _ r' (List.cons_prefix_cons.mpr ⟨rfl, hpre⟩) (run_cons_ok hstep hrun)
  · rintro ⟨hhead, htail⟩ pre op' replies r' hpre hrun
    cases pre with
    | nil =>
      obtain ⟨-, rfl⟩ := Prod.mk.inj (Except.ok.inj hrun)
      obtain ⟨rfl, -⟩ := List.cons_prefix_cons.mp hpre
      exact hhead
    | cons op₁ pre =>
      obtain ⟨rfl, hrest⟩ := List.cons_prefix_cons.mp hpre
      obtain ⟨r₂, rs, t, hstep', htrail, -⟩ := run_cons_eq_ok.mp hrun
      obtain ⟨-, rfl⟩ := Prod.mk.inj (Except.ok.inj (hstep.symm.trans hstep'))
      exact htail pre op' rs r' hrest htrail

/-- The events of the replies, as the script records them. -/
def entriesOf (replies : List Reply) : List Entry := replies.map fun r => ofEvent (loggedEvent r)

/-- All records: the books end alike, and the events are the same exactly when no op is refused
twice over. -/
theorem run_mirrors {s : Script} {r : RefBook} {m : Market} (h : Mirrors s.book r)
    (hr : r.Refines m) {recs : List (List UInt8)} {ops : List Op}
    (hops : List.Forall₂ (fun rec op => decode rec = some op) recs ops) :
    ∃ es s' r', run Script.step s recs = .ok (es, s') ∧
      run RefBook.apply r ops = .ok ((m.applyAll ops).1, r') ∧ Mirrors s'.book r' ∧
      r'.Refines (m.applyAll ops).2 ∧ (es = entriesOf (m.applyAll ops).1 ↔ Apart r ops) ∧
      (Apart r ops → s'.log = s.log ++ ((m.applyAll ops).1.map loggedEvent).flatMap Event.encode ∧
        s'.errs = s.errs + errorCount (m.applyAll ops).1) := by
  induction hops generalizing s r m with
  | nil =>
    exact ⟨[], s, r, rfl, rfl, h, hr, ⟨fun _ => apart_nil r, fun _ => rfl⟩,
      fun _ => ⟨(List.append_nil _).symm, rfl⟩⟩
  | @cons rec op recs ops hop _ ih =>
    obtain ⟨e, s₁, r₁, hscript, hbook, h₁, hr₁, hsame, hlog⟩ := step_mirrors h hr hop
    obtain ⟨es, s', r', hscripts, hbooks, h', hr', hsames, hlogs⟩ := ih h₁ hr₁
    have hapart : Apart r (op :: ops) ↔ ¬ Coincides r op ∧ Apart r₁ ops := apart_cons hbook
    refine ⟨e :: es, s', r', run_cons_ok hscript hscripts, run_cons_ok hbook hbooks, h', hr',
      ?_, fun hboth => ?_⟩
    · rw [hapart, ← hsame, ← hsames]
      exact List.cons_eq_cons
    · obtain ⟨hhead, htail⟩ := hapart.mp hboth
      obtain ⟨hstream, herrs⟩ := hlog hhead
      obtain ⟨hstreams, herrss⟩ := hlogs htail
      refine ⟨?_, ?_⟩
      · rw [hstreams, hstream, Market.applyAll, List.map_cons, List.flatMap_cons, List.append_assoc]
      · rw [herrss, herrs, Market.applyAll, errorCount_cons, Nat.add_assoc]

/-- The bytes of the two books for the state hash. -/
theorem stateBytes_eq {p : Book} {r : RefBook} {m : Market} (h : Mirrors p r) (hr : r.Refines m) :
    p.stateBytes = .ok r.stateBytes := by
  have hlevel : ∀ e ∈ r.bids.entries ++ r.asks.entries,
      packLevel e = .ok (hashLevel e.1 (e.2.length % 2 ^ 32) e.2) := by
    rintro ⟨px, q⟩ he
    obtain ⟨s, hs⟩ : ∃ s, (r.side s).get? px = some q := by
      rcases List.mem_append.mp he with he | he
      · exact ⟨.bid, SortedMap.get?_eq_some_iff.mpr he⟩
      · exact ⟨.ask, SortedMap.get?_eq_some_iff.mpr he⟩
    have hq : m.queue s px = q := by rw [hr.queue_eq, hs, Option.getD_some]
    have hne : m.queue s px ≠ [] := fun hnil => hr.level_ne s px (by rw [hs, ← hq, hnil])
    have hrange := hr.wf.px_nonneg hne
    have htotal := hr.wf.total_lt s px
    have hpos := hr.wf.qty_pos s px
    rw [hq] at htotal hpos
    have hlen : q.length < 2 ^ 32 := lt_of_le_of_lt (length_le_total hpos) htotal
    have horders : q.mapM packOrder =
        .ok (q.map fun o => leBytes 8 o.1.toNat ++ leBytes 4 o.2) := by
      refine mapM_ok fun o ho => ?_
      have hid : o.1.toNat < 256 ^ 8 := o.1.toNat_lt
      have hqty : o.2 < 256 ^ 4 := lt_of_le_of_lt (le_total_of_mem ho) htotal
      simp only [packOrder, packU_ok hid, packU_ok hqty, ok_bind, pure_eq_ok]
    have hcount : q.length < 256 ^ 4 := hlen
    simp only [packLevel, packI64_ok (show -2 ^ 63 ≤ px ∧ px < 2 ^ 63 by omega), packU_ok hcount,
      horders, ok_bind, pure_eq_ok, hashLevel, Nat.mod_eq_of_lt hlen, List.flatMap_def]
  rw [Book.stateBytes, h.bids, h.asks, mapM_ok hlevel]
  rfl

theorem keys_eq {p : Book} {r : RefBook} (h : Mirrors p r) : p.ids.keys = r.ids.keys :=
  SortedMap.keys_eq fun id => by
    rw [h.ids]
    cases r.ids.get? id <;> simp

/-! The contract. -/

/-- The script replays the bytes and the book the ops. They log one event for each op, the same
on both sides, and end with the same live ids and the same bytes for the state hash. -/
def Agrees {σ : Type} (apply : σ → Op → Exec (Reply × σ)) (liveIds : σ → List OrderId)
    (stateBytes : σ → Exec (List UInt8)) (book : σ) (bytes : List UInt8) (ops : List Op) : Prop :=
  ∃ replies s script, replayOps apply book ops = .ok (replies, s) ∧
    OpsPyref.replay bytes = .ok (entriesOf replies, script) ∧ script.log = s.log.stream ∧
    script.errs = s.errors ∧ script.book.ids.keys = liveIds s.book ∧
    ∃ v, script.book.stateBytes = .ok v ∧ stateBytes s.book = .ok v

def AgreesRef : List UInt8 → List Op → Prop :=
  Agrees RefBook.apply (fun r => r.ids.keys) (fun r => .ok r.stateBytes) .new

def AgreesArray (b : ArrayBook) : List UInt8 → List Op → Prop :=
  Agrees ArrayBook.apply (fun b => b.ids.keys) ArrayBook.stateBytes b

/-- What the script gives for accepted bytes. -/
theorem replay_mirrors {bytes : List UInt8} {ops : List Op} (h : decodeOps bytes = .ok ops) :
    ∃ es script r, OpsPyref.replay bytes = .ok (es, script) ∧
      run RefBook.apply .new ops = .ok ((Market.empty.applyAll ops).1, r) ∧
      Mirrors script.book r ∧ r.Refines (Market.empty.applyAll ops).2 ∧
      (es = entriesOf (Market.empty.applyAll ops).1 ↔ Apart .new ops) ∧
      (Apart .new ops →
        script.log = (logAll .new (Market.empty.applyAll ops).1).stream ∧
        script.errs = errorCount (Market.empty.applyAll ops).1) := by
  obtain ⟨hlen, hops⟩ := decodeOps_ok h
  have hstart : Mirrors Script.new.book .new := mirrors_new
  obtain ⟨es, script, r, hscript, hbook, hmirror, hr, hsame, hlog⟩ :=
    run_mirrors hstart RefBook.refines_new hops
  refine ⟨es, script, r, ?_, hbook, hmirror, hr, hsame, fun hapart => ?_⟩
  · rw [OpsPyref.replay, if_neg (not_not.mpr hlen)]
    exact hscript
  · obtain ⟨hstream, herrs⟩ := hlog hapart
    exact ⟨hstream, herrs.trans (Nat.zero_add _)⟩

theorem agreesRef_iff {bytes : List UInt8} {ops : List Op} (h : decodeOps bytes = .ok ops) :
    AgreesRef bytes ops ↔ Apart .new ops := by
  obtain ⟨es, script, r, hscript, hbook, hmirror, hr, hsame, hlog⟩ := replay_mirrors h
  unfold AgreesRef Agrees replayOps
  simp only [run_replayStep, hbook, ok_bind, pure_eq_ok]
  constructor
  · rintro ⟨replies, s, script', hreplies, hagain, -⟩
    obtain ⟨rfl, -⟩ := Prod.mk.inj (Except.ok.inj hreplies)
    obtain ⟨rfl, -⟩ := Prod.mk.inj (Except.ok.inj (hscript.symm.trans hagain))
    exact hsame.mp rfl
  · intro hapart
    obtain ⟨hstream, herrs⟩ := hlog hapart
    obtain rfl := hsame.mpr hapart
    exact ⟨_, _, script, rfl, hscript, hstream, herrs.trans (Nat.zero_add _).symm, keys_eq hmirror,
      _, stateBytes_eq hmirror hr, rfl⟩

theorem agreesArray_iff {b : ArrayBook} (hb : b.Refines .empty) {bytes : List UInt8}
    {ops : List Op} (h : decodeOps bytes = .ok ops) :
    AgreesArray b bytes ops ↔ Apart .new ops ∧ Within .empty ops := by
  obtain ⟨es, script, r, hscript, hbook, hmirror, hr, hsame, hlog⟩ := replay_mirrors h
  unfold AgreesArray Agrees replayOps
  simp only [run_replayStep]
  constructor
  · rintro ⟨replies, s, script', hreplies, hagain, -⟩
    obtain ⟨⟨rs, b'⟩, hrun, hret⟩ := bind_eq_ok.mp hreplies
    obtain ⟨rfl, -⟩ := Prod.mk.inj (Except.ok.inj hret)
    have hwithin := within_of_run hb hrun
    obtain ⟨b₁, hrun₁, -⟩ := array_run hb hwithin
    obtain ⟨rfl, -⟩ := Prod.mk.inj (Except.ok.inj (hrun.symm.trans hrun₁))
    obtain ⟨rfl, -⟩ := Prod.mk.inj (Except.ok.inj (hscript.symm.trans hagain))
    exact ⟨hsame.mp rfl, hwithin⟩
  · rintro ⟨hapart, hwithin⟩
    obtain ⟨b', hrun, hb'⟩ := array_run hb hwithin
    obtain ⟨hstream, herrs⟩ := hlog hapart
    obtain rfl := hsame.mpr hapart
    have hids : script.book.ids.keys = b'.ids.keys := by
      rw [keys_eq hmirror]
      refine SortedMap.keys_eq fun id => ?_
      obtain ⟨line, free, hrep⟩ := hb'
      rw [← SortedMap.contains_iff, ← SortedMap.contains_iff, hr.contains_iff, hrep.contains_eq]
    simp only [hrun, ok_bind, pure_eq_ok]
    exact ⟨_, _, script, rfl, hscript, hstream, herrs.trans (Nat.zero_add _).symm, hids,
      _, stateBytes_eq hmirror hr, by rw [hb'.stateBytes_eq, hr.stateBytes_eq]⟩

/-- The cross-language contract holds for accepted bytes exactly when no add meets a live id and
a full level at once and, on the array book, the live orders never outnumber the slots. -/
theorem script_agrees_with_books {bytes : List UInt8} {ops : List Op}
    (h : decodeOps bytes = .ok ops) :
    (AgreesRef bytes ops ↔ Apart .new ops) ∧
      ∀ cfg, ValidConfig cfg → ∃ b, ArrayBook.new cfg = .ok b ∧
        (AgreesArray b bytes ops ↔ Apart .new ops ∧
          Along RefBook.apply (fun r => r.liveOrders ≤ 2 ^ 32 - 1) .new ops) := by
  refine ⟨agreesRef_iff h, fun cfg hcfg => ?_⟩
  obtain ⟨b, hnew, hb, -⟩ := ArrayBook.new_spec hcfg
  refine ⟨b, hnew, ?_⟩
  rw [agreesArray_iff hb h, within_iff RefBook.refines_new]

/-- Refusals of several kinds, one at a time. -/
def apartOps : List Op := [.add 1 .bid 100 5, .add 1 .ask 101 2, .add 2 .ask 0 2, .cancel 9 1,
  .execute 1 7, .replace 1 2 100 4294967295, .cancel 2 0]

theorem script_agrees_with_books_apart : ∃ ops, decodeOps (encodeOps apartOps) = .ok ops ∧
    (AgreesRef (encodeOps apartOps) ops ↔ Apart .new ops) ∧
      ∀ cfg, ValidConfig cfg → ∃ b, ArrayBook.new cfg = .ok b ∧
        (AgreesArray b (encodeOps apartOps) ops ↔ Apart .new ops ∧
          Along RefBook.apply (fun r => r.liveOrders ≤ 2 ^ 32 - 1) .new ops) := by
  have h : decodeOps (encodeOps apartOps) = .ok apartOps := by decide +kernel
  exact ⟨apartOps, h, script_agrees_with_books h⟩

/-- The level is full when the live id comes again. -/
def twiceOps : List Op := [.add 1 .bid 100 4294967295, .add 1 .bid 100 1]

theorem twice_not_apart : ¬ Apart .new twiceOps := by
  intro h
  have hrun : run RefBook.apply .new [.add 1 .bid 100 4294967295] =
      .ok ([.ok (.add 1 .bid 100 4294967295)],
        RefBook.new.pushTail 1 .bid 100 4294967295) := by decide +kernel
  exact h [.add 1 .bid 100 4294967295] (.add 1 .bid 100 1) _ _ (List.prefix_refl _) hrun
    (by unfold Coincides; decide +kernel)

/-- The script refuses the id, both books refuse the quantity. -/
theorem refused_twice : decodeOps (encodeOps twiceOps) = .ok twiceOps ∧
    ¬ AgreesRef (encodeOps twiceOps) twiceOps ∧
      ∀ cfg, ValidConfig cfg → ∃ b, ArrayBook.new cfg = .ok b ∧
        ¬ AgreesArray b (encodeOps twiceOps) twiceOps := by
  have h : decodeOps (encodeOps twiceOps) = .ok twiceOps := by decide +kernel
  refine ⟨h, mt (agreesRef_iff h).mp twice_not_apart, fun cfg hcfg => ?_⟩
  obtain ⟨b, hnew, hb, -⟩ := ArrayBook.new_spec hcfg
  exact ⟨b, hnew, fun hagree => twice_not_apart ((agreesArray_iff hb h).mp hagree).1⟩

end Lobcore.OpsParity
