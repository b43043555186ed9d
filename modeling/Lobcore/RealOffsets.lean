import Lobcore.OffsetCounters
import Lobcore.Replacements
import Lobcore.SessionAccounts

/-!
The largest real tick offset of a locate, which the session keeps beside the counter of the array
book. The move to the array book sets it to the offset of the price that centres the window,
whatever else rests by then; afterwards it follows every real price. It tells the largest offset
among the real prices put into the array book as long as nothing that rests at the move is
farther from the base than the centre.
-/
namespace Lobcore.RealOffsets

open Checked OrderTypes OrderSlab PriceLevels Markets ReferenceBook ArrayBooks Payloads Sessions
open Migrations SessionStats Replays Handlers Desks DeskSteps SessionRefines SessionSteps
open SessionRuns BookChanges ArrayWindows OffsetCounters Replacements Closings Writers

/-- Ticks between a price and the base of a window, division toward zero. -/
def ticks (w : BookConfig) (px : ℤ) : ℤ := |(px - w.basePx).tdiv w.tick|

theorem ticks_config (ab : ArrayBook) (px : ℤ) : ticks ab.config px = |ab.grid.offset px| := rfl

/-- A price that is no placeholder. -/
def Real (px : ℤ) : Prop := 100 < px ∧ px < 1999000000

instance (px : ℤ) : Decidable (Real px) := inferInstanceAs (Decidable (_ ∧ _))

theorem real_iff (px : UInt32) : Real px.toNat ↔ isPlaceholder px = false := by
  rw [Real, isPlaceholder, Bool.or_eq_false_iff, decide_eq_false_iff_not, decide_eq_false_iff_not,
    UInt32.le_iff_toNat_le, UInt32.le_iff_toNat_le]
  show (100 : ℤ) < px.toNat ∧ (px.toNat : ℤ) < 1999000000 ↔
    ¬ px.toNat ≤ 100 ∧ ¬ 1999000000 ≤ px.toNat
  omega

/-- The order that a replacement takes away. -/
def replaced : Order → Option OrderId
  | .replace old _ _ _ => some old
  | _ => none

/-- The real price that an order answered with `true` rests at. -/
def rested : Body → Bool → Option UInt32
  | .order _ o, true => (restsAt o).filter fun px => !isPlaceholder px
  | _, _ => none

/-- The same for the messages of a locate. -/
def accepted (l : UInt16) (m : Msg) (b : Bool) : Option UInt32 :=
  if target (body m) = some l then rested (body m) b else none

/-- The real prices that a message has put into the array book of a locate: all that the book is
filled with when it is new, and later what it accepts. -/
def putBy (l : UInt16) (s : Session) (m : Msg) (b : Bool) (s' : Session) : Exec (List ℤ) :=
  match windowAt s l.toNat, windowAt s' l.toNat with
  | _, none => .ok []
  | none, some _ => do
    let v ← snapshotAt s' l.toNat
    return (v.map fun e => e.2.1).filter fun px => Real px
  | some _, some _ => .ok ((accepted l m b).toList.map fun px => (px.toNat : ℤ))

/-- A message, with the real prices it puts into the array book of the locate. -/
def putStep (l : UInt16) (s : Session) (m : Msg) : Exec (List ℤ × Session) := do
  let (b, s') ← s.applyMsg m
  let ps ← putBy l s m b s'
  return (ps, s')

def statsAt (s : Session) (l : UInt16) : LocateStats := s.stats.locates.getD l.toNat .new

/-- The counter tells the largest offset of the prices put into the array book, and is at most the
book's own after the close. -/
def Told (hash : Bytes → Bytes) (l : UInt16) (ps : List ℤ) (s : Session) : Prop :=
  ∀ w, windowAt s l.toNat = some w →
    IsGreatest (Set.image (ticks w) {px | px ∈ ps}) (statsAt s l).maxAbsOffsetReal ∧
    ∃ t, s.finish hash = .ok t ∧
      (statsAt t l).maxAbsOffsetReal = (statsAt s l).maxAbsOffsetReal ∧
      (statsAt t l).maxAbsOffsetReal ≤ (statsAt t l).maxAbsOffset

/-- If the message is an order at a real price that the reference book of a watched locate accepts,
then of the orders at rest, all at real prices lie within the reach of the window centred on the
price; the order it replaces does not count. -/
def Within (l : UInt16) (s : Session) (m : Msg) : Prop :=
  ∀ rb o op ev rb' px, s.book l.toNat = some (.ref rb) → s.watched.getD l.toNat false = true →
    body m = .order l o → o.op = some op → rb.apply op = .ok (.ok ev, rb') →
    restsAt o = some px → Real px.toNat →
    ∀ id side p, rb.ids.get? id = some (side, p) → replaced o ≠ some id → Real p →
      ticks (windowFor s.cfg px) p ≤ reach s.cfg px

/-! What rests after an accepted order. -/

section Markets

variable {m : Market} (hm : m.WF)

theorem accepted_add {id : OrderId} {s : Side} {px : ℤ} {qty : ℕ} {ev : Event}
    (h : (m.add id s px qty).1 = .ok ev) :
    m.home id = none ∧ (m.add id s px qty).2 = m.push id s px qty := by
  unfold Market.add at h ⊢
  split_ifs at h ⊢ with hzero hneg hover hdup
  exact ⟨Option.not_isSome_iff_eq_none.mp hdup, rfl⟩

/-- An order that is gone from the market, or was never there, and one more. -/
theorem rests_push {id : OrderId} {s : Side} {px : ℤ} {qty : ℕ} (hnone : m.home id = none) (p : ℤ) :
    (∃ i s', (m.push id s px qty).home i = some (s', p)) ↔
      p = px ∨ ∃ i s', m.home i = some (s', p) := by
  show (∃ i s', Function.update m.home id (some (s, px)) i = some (s', p)) ↔ _
  constructor
  · rintro ⟨i, s', hi⟩
    by_cases hid : i = id
    · subst hid
      rw [Function.update_self] at hi
      exact Or.inl (Prod.mk.inj (Option.some.inj hi)).2.symm
    · rw [Function.update_of_ne hid] at hi
      exact Or.inr ⟨i, s', hi⟩
  · rintro (rfl | ⟨i, s', hi⟩)
    · exact ⟨id, s, Function.update_self ..⟩
    · have hid : i ≠ id := fun hid => by
        rw [hid, hnone] at hi
        cases hi
      exact ⟨i, s', (Function.update_of_ne hid ..).trans hi⟩

include hm

/-- After an accepted add or replace the price rests, and all that rested but the replaced one. -/
theorem rests_apply {o : Order} {op : Op} {ev : Event} {px : UInt32} (hop : o.op = some op)
    (hpx : restsAt o = some px) (h : (m.apply op).1 = .ok ev) (p : ℤ) :
    (∃ i s, (m.apply op).2.home i = some (s, p)) ↔
      p = px.toInt32.toInt ∨ ∃ i s, m.home i = some (s, p) ∧ replaced o ≠ some i := by
  cases o with
  | add id side px' qty =>
    obtain rfl := Option.some.inj hpx
    obtain ⟨s, rfl, rfl⟩ := Option.map_eq_some_iff.mp hop
    obtain ⟨hnone, hpush⟩ := accepted_add h
    rw [Market.apply, hpush, rests_push hnone]
    simp [replaced]
  | replace old new px' qty =>
    obtain rfl := Option.some.inj hpx
    obtain rfl := Option.some.inj hop
    obtain ⟨s, oldPx, n, hfind, hnew, ⟨ev', hadd⟩, hsame⟩ := accepted_replace hm h
    obtain ⟨hnone, hpush⟩ := accepted_add hadd
    rw [hsame, Market.apply, hpush, rests_push hnone]
    refine or_congr_right (exists_congr fun i => exists_congr fun s' => ?_)
    rw [Market.home_take_zero]
    by_cases hi : i = old
    · simp [hi, replaced]
    · simp [hi, replaced, Ne.symm hi]
  | _ => cases hpx

/-- The prices of the snapshot. -/
theorem mem_prices (hlevels : ∀ s, m.IsLevels s (m.levels s)) (p : ℤ) :
    p ∈ m.snapshot.map (fun e => e.2.1) ↔ ∃ i s, m.home i = some (s, p) := by
  rw [List.mem_map]
  constructor
  · rintro ⟨⟨s, px, q⟩, hmem, rfl⟩
    obtain ⟨hq, hne⟩ := (Market.mem_snapshot hlevels).mp hmem
    obtain ⟨e, he⟩ := List.exists_mem_of_ne_nil q hne
    exact ⟨e.1, s, (hm.home_iff e.1 s px).mpr (List.mem_map.mpr ⟨e, hq ▸ he, rfl⟩)⟩
  · rintro ⟨i, s, hi⟩
    obtain ⟨e, he, -⟩ := List.mem_map.mp ((hm.home_iff i s p).mp hi)
    exact ⟨(s, p, m.queue s p), (Market.mem_snapshot hlevels).mpr ⟨rfl, List.ne_nil_of_mem he⟩, rfl⟩

end Markets

/-! One message on a desk. -/

/-- The window reaches down to its base from the price it is centred on. -/
theorem ticks_centre {cfg : SessionConfig} {px : UInt32} (hpx : isPlaceholder px = false) :
    ticks (windowFor cfg px) px.toNat = reach cfg px := by
  obtain ⟨hzero, -, -⟩ := below_bounds hpx (k := reach cfg px) rfl
  have htick : tickFor px ≠ 0 := by rcases tickFor_cases px with h | h <;> omega
  have hdown : (px.toNat : ℤ) - (px.toNat - reach cfg px * tickFor px) =
      reach cfg px * tickFor px := by omega
  rw [ticks, windowFor, hdown, Int.mul_tdiv_cancel _ htick, abs_of_nonneg hzero]

/-- What a message on a desk does to the counter: the desk has no array book then, the book and
the counter follow an accepted real price, or the desk moves to the array book at one. -/
inductive Tracked (cfg : SessionConfig) (b : Bool) (body : Body) (d d' : Desk) : Prop
  | outside (hd : deskWindow d = none) (hd' : deskWindow d' = none)
  | inside {ab ab' : ArrayBook} (hd : d.book = some (.array ab)) (hd' : d'.book = some (.array ab'))
      (hwatched' : d'.watched = true) (hconfig : ab'.config = ab.config)
      (hreal : d'.stats.maxAbsOffsetReal = (rested body b).elim d.stats.maxAbsOffsetReal fun px =>
        max d.stats.maxAbsOffsetReal (ticks ab.config px.toNat))
      (hgrows : ab.maxAbsOffset ≤ ab'.maxAbsOffset)
      (hcovers : ∀ px ∈ rested body b, ticks ab.config px.toNat ≤ ab'.maxAbsOffset)
  | moved {l : UInt16} {o : Order} {op : Op} {ev : Event} {rb rb' : RefBook} {px : UInt32}
      {ab' : ArrayBook} (hbody : body = .order l o) (hop : o.op = some op)
      (hrest : restsAt o = some px) (hpx : isPlaceholder px = false)
      (hd : d.book.getD (.ref .new) = .ref rb) (happly : rb.apply op = .ok (.ok ev, rb'))
      (hwatched : d.book ≠ none → d.watched = true) (hd' : d'.book = some (.array ab'))
      (hwatched' : d'.watched = true) (hconfig : ab'.config = windowFor cfg px)
      (hreal : d'.stats.maxAbsOffsetReal = reach cfg px) (hcovers : reach cfg px ≤ ab'.maxAbsOffset)

/-- An array book is on the watch. -/
def OnWatch (d : Desk) : Prop := ∀ ab, d.book = some (.array ab) → d.watched = true

section Desks

variable {cfg : SessionConfig} {d d' : Desk}

theorem openMissing_book (cfg : SessionConfig) (l : UInt16) (d : Desk) :
    (d.openMissing cfg l).1.book = some (d.book.getD (.ref .new)) ∧
      (d.openMissing cfg l).1.stats.maxAbsOffsetReal = d.stats.maxAbsOffsetReal ∧
      (d.book ≠ none → (d.openMissing cfg l).1 = d) := by
  refine ⟨?_, (calm_openMissing cfg l d).1.maxAbsOffsetReal, fun hne => ?_⟩
  · unfold Desk.openMissing
    cases hb : d.book with
    | some b => exact hb
    | none => rfl
  · obtain ⟨b, hb⟩ := Option.ne_none_iff_exists'.mp hne
    rw [openMissing_some hb]

theorem record_keeps (cfg : SessionConfig) (r : Reply) (d : Desk) :
    (d.record cfg r).1.watched = d.watched ∧
      (d.record cfg r).1.stats.maxAbsOffsetReal = d.stats.maxAbsOffsetReal := by
  unfold Desk.record
  cases r with
  | error e => exact ⟨rfl, rfl⟩
  | ok ev =>
    dsimp only
    split <;> exact ⟨rfl, rfl⟩

/-- The window is looked after at a real price only. -/
theorem windowOf_cases {o : Order} (h : d.windowOf cfg o = .ok d') :
    (rested (.order l o) true = none ∧ d' = d) ∨ ∃ px, restsAt o = some px ∧
      isPlaceholder px = false ∧ rested (.order l o) true = some px ∧
      d.ensureWindow cfg px = .ok d' := by
  have hcases : ∀ {px : UInt32}, restsAt o = some px → d.ensureWindow cfg px = .ok d' →
      (rested (.order l o) true = none ∧ d' = d) ∨ ∃ px, restsAt o = some px ∧
        isPlaceholder px = false ∧ rested (.order l o) true = some px ∧
        d.ensureWindow cfg px = .ok d' := by
    intro px hrest hd
    cases hpx : isPlaceholder px with
    | true =>
      rw [Desk.ensureWindow, hpx, if_pos rfl] at hd
      exact Or.inl ⟨by simp [rested, hrest, Option.filter, hpx], (Except.ok.inj hd).symm⟩
    | false => exact Or.inr ⟨px, hrest, hpx, by simp [rested, hrest, Option.filter, hpx], hd⟩
  cases o with
  | add id side px qty => exact hcases rfl h
  | replace old new px qty => exact hcases rfl h
  | _ => exact Or.inl ⟨rfl, (Except.ok.inj h).symm⟩

theorem ensureWindow_array {px : UInt32} {ab : ArrayBook} (hpx : isPlaceholder px = false)
    (hwatched : d.watched = true) (hbook : d.book = some (.array ab))
    (h : d.ensureWindow cfg px = .ok d') : d' = d.onStats fun ls => { ls with
      maxAbsOffsetReal := max ls.maxAbsOffsetReal (ticks ab.config px.toNat) } := by
  rw [Desk.ensureWindow, hpx, if_neg (by simp), if_neg (by simpa using hwatched),
    hbook, expect_some, ok_bind] at h
  obtain ⟨-, -, h⟩ := bind_eq_ok.mp h
  rw [← Except.ok.inj h, toInt_of_real hpx]
  rfl

/-- The move: the book takes up every price at rest, the counter only the reach of the window. -/
theorem ensureWindow_ref (hcfg : ValidSession cfg) {px : UInt32} {rb : RefBook} {m : Market}
    (hpx : isPlaceholder px = false) (hwatched : d.watched = true) (hbook : d.book = some (.ref rb))
    (hm : rb.Refines m) (hrests : ∃ i s, m.home i = some (s, (px.toNat : ℤ)))
    (h : d.ensureWindow cfg px = .ok d') : ∃ ab, d'.book = some (.array ab) ∧
      d'.watched = true ∧ ab.config = windowFor cfg px ∧
      d'.stats.maxAbsOffsetReal = reach cfg px ∧ reach cfg px ≤ ab.maxAbsOffset := by
  rw [Desk.ensureWindow, hpx, if_neg (by simp), if_neg (by simpa using hwatched),
    hbook, expect_some, ok_bind] at h
  obtain ⟨⟨k, ab⟩, hmigrate, h⟩ := bind_eq_ok.mp h
  obtain rfl := Except.ok.inj h
  have hconfig := config_migrate hcfg hpx hmigrate
  obtain ⟨hvalid, heq⟩ := migrate_eq hpx (k := reach cfg px) rfl hcfg rb
  rw [heq] at hmigrate
  obtain ⟨ab₀, hcapacity, hmigrate⟩ := bind_eq_ok.mp hmigrate
  obtain ⟨ab₁, hreadd, hmigrate⟩ := bind_eq_ok.mp hmigrate
  obtain ⟨rfl, rfl⟩ := Prod.mk.inj (Except.ok.inj hmigrate)
  obtain ⟨-, hconfig₀⟩ :=
    (ArrayBook.withCapacity_returns (Q := False) hvalid False.elim).of_run hcapacity
  have hlevels : ∀ s, m.IsLevels s (m.levels s) := fun s => hm.bestFirst_eq s ▸ hm.isLevels s
  obtain ⟨i, s, hi⟩ := hrests
  have hne : m.queue s px.toNat ≠ [] := fun hnil => by
    have hmem := (hm.wf.home_iff i s px.toNat).mp hi
    rw [hnil] at hmem
    cases hmem
  have hmem : (s, (px.toNat : ℤ), m.queue s px.toNat) ∈ rb.snapshot := by
    rw [hm.snapshot_eq]
    exact (Market.mem_snapshot hlevels).mpr ⟨rfl, hne⟩
  obtain ⟨-, hall⟩ := readd_covers hreadd
  have hcovers := hall (s, (px.toNat : ℤ), m.queue s px.toNat) hmem hne
  refine ⟨ab₁, rfl, hwatched, hconfig, rfl, ?_⟩
  rw [← ticks_config, hconfig₀] at hcovers
  exact (ticks_centre hpx).ge.trans hcovers

/-- A message answered with `false` keeps the book. -/
theorem book_false {afterQ : Bool} {body : Body} {cs : List Count} {bk : LocateBook}
    (hb : d.book = some bk) (h : act cfg afterQ d body = .ok (false, d', cs)) :
    d'.book = some bk := by
  cases body with
  | directory l stock =>
    obtain ⟨-, h⟩ := Prod.mk.inj (Except.ok.inj h)
    obtain ⟨rfl, -⟩ := Prod.mk.inj h
    rw [directory_some hb]
    exact (book_watch ..).trans hb
  | order l o =>
    cases ordered h with
    | unsided hop => rwa [openMissing_some hb]
    | refused hop hcall => rwa [openMissing_some hb]
  | _ =>
    obtain ⟨-, h⟩ := Prod.mk.inj (Except.ok.inj h)
    obtain ⟨rfl, -⟩ := Prod.mk.inj h
    exact hb

theorem rested_false (body : Body) : rested body false = none := by cases body <;> rfl

/-- A call that an array book accepts covers the price the order rests at. -/
theorem placed_covers {o : Order} {op : Op} {ev : Event} {ab ab' : ArrayBook} {l : UInt16}
    (hop : o.op = some op) (h : ab.apply op = .ok (.ok ev, ab')) :
    ab.maxAbsOffset ≤ ab'.maxAbsOffset ∧
      ∀ px ∈ rested (.order l o) true, ticks ab.config px.toNat ≤ ab'.maxAbsOffset := by
  have hcovers := apply_covers h
  refine ⟨hcovers.grows, fun px hpx => ?_⟩
  obtain ⟨hrest, hreal⟩ := Option.filter_eq_some_iff.mp hpx
  have hplaced : placedAt op = some px.toInt32.toInt := by
    cases o with
    | add id side px' qty =>
      obtain ⟨s, -, rfl⟩ := Option.map_eq_some_iff.mp hop
      obtain rfl := Option.some.inj hrest
      rfl
    | replace old new px' qty =>
      obtain rfl := Option.some.inj hop
      obtain rfl := Option.some.inj hrest
      rfl
    | _ => cases hrest
  have hle := hcovers.covers _ hplaced ev rfl
  rwa [toInt_of_real (by simpa using hreal)] at hle

theorem window_of_getD {rb : RefBook} (h : d.book.getD (.ref .new) = .ref rb) :
    deskWindow d = none := by
  rw [deskWindow]
  rcases hb : d.book with _ | ab | r
  · rfl
  · rw [hb] at h
    cases h
  · rfl

/-- An accepted order on an array book. -/
theorem tracked_array {l : UInt16} {o : Order} {op : Op} {ev : Event} {d₁ : Desk} {ab : ArrayBook}
    (hd : d.book = some (.array ab)) (hon : d.watched = true) (hop : o.op = some op)
    (hcall : d.callBook op = .ok (.ok ev, d₁))
    (hwindow : (d₁.record cfg (.ok ev)).1.windowOf cfg o = .ok d') :
    Tracked cfg true (.order l o) d d' := by
  obtain ⟨bk, bk', hbk, happly, rfl⟩ := callBook_eq_ok hcall
  obtain rfl : bk = .array ab := Option.some.inj (hbk.symm.trans hd)
  obtain ⟨⟨r, ab'⟩, hab, happly⟩ := bind_eq_ok.mp happly
  obtain ⟨rfl, rfl⟩ := Prod.mk.inj (Except.ok.inj happly)
  obtain ⟨hgrows, hcovers⟩ := placed_covers (l := l) hop hab
  have hconfig : ab'.config = ab.config := config_of_grid (onGrid_apply ab op _ hab)
  generalize hd₂ : ({ d with book := some (.array ab') } : Desk) = d₂ at hwindow
  obtain ⟨hwatched₂, hreal₂⟩ := record_keeps cfg (.ok ev) d₂
  have hbook₂ : (d₂.record cfg (.ok ev)).1.book = some (.array ab') :=
    (book_record cfg d₂ (.ok ev)).trans (hd₂ ▸ rfl)
  have hsame : d₂.stats.maxAbsOffsetReal = d.stats.maxAbsOffsetReal := hd₂ ▸ rfl
  rcases windowOf_cases (l := l) hwindow with ⟨hnone, rfl⟩ | ⟨px, -, hpx, hsome, hensure⟩
  · refine .inside hd hbook₂ (hwatched₂.trans (hd₂ ▸ hon)) hconfig ?_ hgrows hcovers
    rw [hnone, hreal₂, hsame]
    rfl
  · obtain rfl := ensureWindow_array hpx (hwatched₂.trans (hd₂ ▸ hon)) hbook₂ hensure
    refine .inside hd hbook₂ (hwatched₂.trans (hd₂ ▸ hon)) hconfig ?_ hgrows hcovers
    rw [hsome, ← hsame, ← hreal₂, ← hconfig]
    rfl

/-- An accepted order on a reference book, or on none yet. -/
theorem tracked_ref (hcfg : ValidSession cfg) {l : UInt16} {o : Order} {op : Op} {ev : Event}
    {d₁ : Desk} {rb : RefBook} {m : Market} (hd : d.book.getD (.ref .new) = .ref rb)
    (hm : rb.Refines m) (hop : o.op = some op)
    (hcall : (d.openMissing cfg l).1.callBook op = .ok (.ok ev, d₁))
    (hwindow : (d₁.record cfg (.ok ev)).1.windowOf cfg o = .ok d') :
    Tracked cfg true (.order l o) d d' := by
  have hbefore := window_of_getD hd
  obtain ⟨hopen, -, hkept⟩ := openMissing_book cfg l d
  obtain ⟨bk, bk', hbk, happly, hd₁⟩ := callBook_eq_ok hcall
  obtain rfl : bk = .ref rb := Option.some.inj ((hbk.symm.trans hopen).trans (congrArg some hd))
  obtain ⟨⟨r, rb'⟩, hrb, happly⟩ := bind_eq_ok.mp happly
  obtain ⟨rfl, rfl⟩ := Prod.mk.inj (Except.ok.inj happly)
  obtain ⟨rb₁, hrb₁, hm'⟩ := RefBook.Refines.apply hm op
  obtain ⟨hev, rfl⟩ := Prod.mk.inj (Except.ok.inj (hrb₁.symm.trans hrb))
  have hbook : (d₁.record cfg (.ok ev)).1.book = some (.ref rb₁) :=
    (book_record cfg d₁ (.ok ev)).trans (hd₁ ▸ rfl)
  have hwatched₁ : (d₁.record cfg (.ok ev)).1.watched = (d.openMissing cfg l).1.watched :=
    (record_keeps cfg (.ok ev) d₁).1.trans (hd₁ ▸ rfl)
  rcases windowOf_cases (l := l) hwindow with ⟨-, rfl⟩ | ⟨px, hrest, hpx, -, hensure⟩
  · exact .outside hbefore (by rw [deskWindow, hbook]; rfl)
  · cases hwatched : (d.openMissing cfg l).1.watched with
    | false =>
      rw [Desk.ensureWindow, hpx, if_neg (by simp),
        if_pos (by rw [hwatched₁, hwatched]; simp)] at hensure
      obtain rfl := Except.ok.inj hensure
      exact .outside hbefore (by rw [deskWindow, hbook]; rfl)
    | true =>
      have hrests : ∃ i s, (m.apply op).2.home i = some (s, (px.toNat : ℤ)) := by
        refine (rests_apply hm.wf hop hrest hev px.toNat).mpr (Or.inl ?_)
        rw [toInt_of_real hpx]
      obtain ⟨ab, hab, hon, hconfig, hreal, hcovers⟩ := ensureWindow_ref hcfg hpx
        (hwatched₁.trans hwatched) hbook hm' hrests hensure
      exact .moved rfl hop hrest hpx hd hrb (fun hne => by rw [← hkept hne, hwatched]) hab hon
        hconfig hreal hcovers

/-- The watch is never left. -/
theorem act_watched (hcfg : ValidSession cfg) {afterQ b : Bool} {body : Body} {cs : List Count}
    (h : act cfg afterQ d body = .ok (b, d', cs)) (hwatched : d.watched = true) :
    d'.watched = true := by
  have hwatch : ∀ {l symbol} {e : Desk}, e.watched = true →
      (e.watch cfg l symbol).watched = true := by
    intro l symbol e he
    unfold Desk.watch
    split
    · rfl
    · exact he
  cases body with
  | directory l stock =>
    obtain ⟨-, h⟩ := Prod.mk.inj (Except.ok.inj h)
    obtain ⟨rfl, -⟩ := Prod.mk.inj h
    simp only [Desk.directory]
    split <;> exact hwatch hwatched
  | order l o =>
    have hopen : (d.openMissing cfg l).1.watched = true := by
      unfold Desk.openMissing
      split
      · exact hwatched
      · exact hwatch hwatched
    cases ordered h with
    | unsided hop => exact hopen
    | refused hop hcall => exact hopen
    | @accepted op ev d₁ d₂ ahead crossed hop hcall hahead hwindow hcrossed =>
      obtain ⟨bk, bk', -, -, rfl⟩ := callBook_eq_ok hcall
      have hrecord := (record_keeps cfg (.ok ev)
        { (d.openMissing cfg l).1 with book := some bk' }).1.trans hopen
      rcases windowOf_cases (l := l) hwindow with ⟨-, rfl⟩ | ⟨px, -, -, -, hensure⟩
      · exact hrecord
      · exact (deskWindow_ensureWindow hcfg hensure).1.trans hrecord
  | _ =>
    obtain ⟨-, h⟩ := Prod.mk.inj (Except.ok.inj h)
    obtain ⟨rfl, -⟩ := Prod.mk.inj h
    exact hwatched

theorem act_tracked (hcfg : ValidSession cfg) {afterQ b : Bool} {body : Body} {cs : List Count}
    {m : Market} (hon : OnWatch d) (hm : (d.book.getD (.ref .new)).Refines m)
    (h : act cfg afterQ d body = .ok (b, d', cs)) : Tracked cfg b body d d' := by
  cases b with
  | false =>
    obtain ⟨hcalm, -⟩ := act_false h
    rcases hb : d.book with _ | ab | rb
    · refine .outside (by rw [deskWindow, hb]; rfl) ?_
      have hwindow := hcalm.window
      rw [hb] at hwindow
      rw [deskWindow]
      rcases hb' : d'.book with _ | ab' | rb'
      · rfl
      · rw [hb'] at hwindow
        cases hwindow
      · rfl
    · refine .inside hb (book_false hb h) (act_watched hcfg h (hon ab hb)) rfl ?_
        (le_refl _) fun px hpx => ?_
      · rw [rested_false, hcalm.maxAbsOffsetReal]
        rfl
      · rw [rested_false] at hpx
        cases hpx
    · exact .outside (by rw [deskWindow, hb]; rfl) (by rw [deskWindow, book_false hb h]; rfl)
  | true =>
    cases body with
    | order l o =>
      cases ordered h with
      | @accepted op ev d₁ d₂ ahead crossed hop hcall hahead hwindow hcrossed =>
        rcases hb : d.book with _ | ab | rb
        · rw [hb] at hm
          exact tracked_ref hcfg (by rw [hb]; rfl) hm.shown hop hcall hwindow
        · rw [openMissing_some hb] at hcall
          exact tracked_array hb (hon ab hb) hop hcall hwindow
        · rw [hb] at hm
          exact tracked_ref hcfg (by rw [hb]; rfl) hm.shown hop hcall hwindow
    | _ => cases (Prod.mk.inj (Except.ok.inj h)).1

/-- An order that the reference book of a desk on the watch accepts at a real price moves it. -/
theorem act_moves (hcfg : ValidSession cfg) {afterQ b : Bool} {l : UInt16} {o : Order} {op : Op}
    {ev : Event} {rb rb' : RefBook} {px : UInt32} {cs : List Count} (hb : d.book = some (.ref rb))
    (hwatched : d.watched = true) (hop : o.op = some op) (happly : rb.apply op = .ok (.ok ev, rb'))
    (hrest : restsAt o = some px) (hpx : isPlaceholder px = false)
    (h : act cfg afterQ d (.order l o) = .ok (b, d', cs)) : deskWindow d' ≠ none := by
  have hanswer : b = true := by
    cases ordered h with
    | unsided hnone =>
      rw [hop] at hnone
      cases hnone
    | @refused op' e hop' hcall =>
      obtain rfl := Option.some.inj (hop.symm.trans hop')
      rw [openMissing_some hb] at hcall
      obtain ⟨bk, bk', hbk, hcalled, -⟩ := callBook_eq_ok hcall
      obtain rfl := Option.some.inj (hb.symm.trans hbk)
      rw [LocateBook.apply, happly] at hcalled
      cases hcalled
    | accepted => rfl
  have hwindow := deskWindow_act hcfg h
  have hcentre : deskCentre (.order l o) b d' = some px := by
    rw [deskCentre, if_pos ⟨hanswer, act_watched hcfg h hwatched⟩, hrest]
    simp [Option.filter, hpx]
  rw [hwindow, hcentre]
  cases deskWindow d <;> simp

end Desks

/-! One message on a session. -/

/-- What holds of a locate in every state: the session follows a replay, an array book is on the
watch, and the counter is at most the book's own. -/
structure Kept (cfg : SessionConfig) (l : UInt16) (s : Session) : Prop where
  follows : ∃ a, Follows cfg s a
  watched : OnWatch (desk s l.toNat)
  bounded : ∀ ab, s.book l.toNat = some (.array ab) →
    (statsAt s l).maxAbsOffsetReal ≤ ab.maxAbsOffset

/-- The counter is the largest offset of the prices; before the move there are none. -/
def Greatest (l : UInt16) (ps : List ℤ) (s : Session) : Prop :=
  match windowAt s l.toNat with
  | none => ps = []
  | some w => IsGreatest (Set.image (ticks w) {px | px ∈ ps}) (statsAt s l).maxAbsOffsetReal

theorem kept_new {cfg : SessionConfig} (hcfg : ValidSession cfg) (l : UInt16) :
    Kept cfg l (.new cfg) where
  follows := ⟨_, follows_new hcfg⟩
  watched ab hab := by simp [desk, Session.new, Session.book] at hab
  bounded ab hab := by simp [Session.new, Session.book] at hab

section Sessions

variable {cfg : SessionConfig} {l : UInt16} {s s' : Session} {m : Msg} {b : Bool}

/-- A message on the desk of the locate, or one that leaves the desk alone. -/
theorem tracked_step (h : Kept cfg l s) (hstep : s.applyMsg m = .ok (b, s')) :
    (target (body m) = some l ∧ Tracked cfg b (body m) (desk s l.toNat) (desk s' l.toNat)) ∨
      (target (body m) ≠ some l ∧ desk s' l.toNat = desk s l.toNat) := by
  obtain ⟨a, hfollows⟩ := h.follows
  have haligned := aligned_of_follows hfollows
  cases moved_of_applyMsg haligned hstep with
  | @worked l' _ d cs hl hact =>
    by_cases hll : l' = l
    · subst hll
      rw [hfollows.cfg_eq] at hact
      have hdesk := desk_worked (hfollows.cfg_eq.symm ▸ hact)
      rw [hdesk]
      exact Or.inl ⟨hl, act_tracked hfollows.valid h.watched (refines_getD hfollows _) hact⟩
    · have hne : l.toNat ≠ l'.toNat := fun heq => hll (UInt16.toNat_inj.mp heq).symm
      refine Or.inr ⟨fun hl' => hll (Option.some.inj (hl.symm.trans hl')), ?_⟩
      rw [desk_put_ne _ _ _ _ hne, desk_noted]
  | idle hl hs =>
    refine Or.inr ⟨by rw [hl]; simp, ?_⟩
    rw [hs.desks, desk_noted]

theorem book_of_window {d : Desk} (h : deskWindow d = none) (ab : ArrayBook) :
    d.book ≠ some (.array ab) := fun hab => by
  rw [deskWindow, hab] at h
  cases h

theorem kept_step (h : Kept cfg l s) (hstep : s.applyMsg m = .ok (b, s')) : Kept cfg l s' := by
  obtain ⟨a, hfollows⟩ := h.follows
  obtain ⟨a', hnext, -⟩ := message_step s a m b s' hfollows hstep
  rcases tracked_step h hstep with ⟨-, htracked⟩ | ⟨-, hsame⟩
  · cases htracked with
    | outside _ hd' =>
      exact ⟨⟨a', hnext⟩, fun ab hab => absurd hab (book_of_window hd' ab),
        fun ab hab => absurd hab (book_of_window hd' ab)⟩
    | @inside ab ab' hd hd' hwatched' hconfig hreal hgrows hcovers =>
      refine ⟨⟨a', hnext⟩, fun _ _ => hwatched', fun ab'' hab => ?_⟩
      obtain rfl : ab'' = ab' := by
        cases hab.symm.trans hd'
        rfl
      have hreal' : (statsAt s' l).maxAbsOffsetReal = _ := hreal
      have hold : (desk s l.toNat).stats.maxAbsOffsetReal ≤ ab''.maxAbsOffset :=
        (h.bounded ab hd).trans hgrows
      rw [hreal']
      cases hrested : rested (body m) b with
      | none => exact hold
      | some px => exact max_le hold (hcovers px hrested)
    | @moved k o op ev rb rb' px ab' _ _ _ _ _ _ _ hd' hwatched' _ hreal hcovers =>
      refine ⟨⟨a', hnext⟩, fun _ _ => hwatched', fun ab'' hab => ?_⟩
      obtain rfl : ab'' = ab' := by
        cases hab.symm.trans hd'
        rfl
      have hreal' : (statsAt s' l).maxAbsOffsetReal = _ := hreal
      exact hreal' ▸ hcovers
  · have hbook : s'.book l.toNat = s.book l.toNat := congrArg Desk.book hsame
    have hreal : (statsAt s' l).maxAbsOffsetReal = (statsAt s l).maxAbsOffsetReal :=
      congrArg (fun d => d.stats.maxAbsOffsetReal) hsame
    refine ⟨⟨a', hnext⟩, hsame ▸ h.watched, fun ab hab => ?_⟩
    rw [hreal]
    exact h.bounded ab (hbook ▸ hab)

/-- One price more. -/
theorem greatest_snoc {f : ℤ → ℤ} {ps : List ℤ} {r : ℤ}
    (h : IsGreatest (Set.image f {p | p ∈ ps}) r)
    (px : ℤ) : IsGreatest (Set.image f {p | p ∈ ps ++ [px]}) (max r (f px)) := by
  have hset : {p | p ∈ ps ++ [px]} = insert px {p | p ∈ ps} := by
    ext p
    simp [or_comm]
  rw [hset, Set.image_insert_eq, max_comm]
  exact h.insert (f px)

theorem window_of_array {i : ℕ} {ab : ArrayBook} (h : (desk s i).book = some (.array ab)) :
    windowAt s i = some ab.config := by
  rw [windowAt_eq, deskWindow, h]
  rfl

/-- The market of the locate after an order that moved it, and what has been put into the book. -/
theorem putBy_moved (h : Kept cfg l s) (hstep : s.applyMsg m = .ok (b, s')) {o : Order} {op : Op}
    {ev : Event} {rb rb' : RefBook} {px : UInt32} {ab' : ArrayBook} (hbody : body m = .order l o)
    (hop : o.op = some op) (hrest : restsAt o = some px) (hpx : isPlaceholder px = false)
    (hd : (desk s l.toNat).book.getD (.ref .new) = .ref rb)
    (happly : rb.apply op = .ok (.ok ev, rb')) (hd' : (desk s' l.toNat).book = some (.array ab')) :
    ∃ qs, putBy l s m b s' = .ok qs ∧ ∀ p, p ∈ qs ↔ Real p ∧ (p = px.toNat ∨
      ∃ i side, rb.ids.get? i = some (side, p) ∧ replaced o ≠ some i) := by
  obtain ⟨a, hfollows⟩ := h.follows
  have hnext := ((applyMsg_answers (Q := False) hfollows False.elim m False.elim).of_run hstep).2
  have hm : rb.Refines (a.marketAt l.toNat) := by
    have hbook := refines_getD hfollows l.toNat
    rw [show (s.book l.toNat).getD (.ref .new) = .ref rb from hd] at hbook
    exact hbook.shown
  obtain ⟨rb₁, hrb₁, hm'⟩ := RefBook.Refines.apply hm op
  obtain ⟨hev, rfl⟩ := Prod.mk.inj (Except.ok.inj (hrb₁.symm.trans happly))
  have hmarket := a.marketAt_order (n := note m) hbody hop
  have hbefore : windowAt s l.toNat = none := (windowAt_eq s _).trans (window_of_getD hd)
  have hlevels : ∀ s, ((a.marketAt l.toNat).apply op).2.IsLevels s
      (((a.marketAt l.toNat).apply op).2.levels s) := fun s => hm'.bestFirst_eq s ▸ hm'.isLevels s
  refine ⟨_, by rw [putBy, hbefore, window_of_array hd', snapshotAt_eq hnext, hmarket]; rfl,
    fun p => ?_⟩
  rw [List.mem_filter, mem_prices hm'.wf hlevels, rests_apply hm.wf hop hrest hev,
    toInt_of_real hpx, decide_eq_true_iff, and_comm]
  simp only [hm.home_eq]

/-- The message that the condition is about moves the locate. -/
theorem moves_step (h : Kept cfg l s) (hstep : s.applyMsg m = .ok (b, s')) {o : Order} {op : Op}
    {ev : Event} {rb rb' : RefBook} {px : UInt32} (hbook : s.book l.toNat = some (.ref rb))
    (hwatched : s.watched.getD l.toNat false = true) (hbody : body m = .order l o)
    (hop : o.op = some op) (happly : rb.apply op = .ok (.ok ev, rb')) (hrest : restsAt o = some px)
    (hpx : isPlaceholder px = false) : windowAt s' l.toNat ≠ none := by
  obtain ⟨a, hfollows⟩ := h.follows
  have haligned := aligned_of_follows hfollows
  have htarget : target (body m) = some l := by rw [hbody]; rfl
  cases moved_of_applyMsg haligned hstep with
  | @worked k _ d cs hl hact =>
    obtain rfl : k = l := Option.some.inj (hl.symm.trans htarget)
    rw [windowAt_eq, desk_worked hact]
    rw [hfollows.cfg_eq, hbody] at hact
    exact act_moves hfollows.valid hbook hwatched hop happly hrest hpx hact
  | idle hl hs =>
    rw [htarget] at hl
    cases hl

/-- One message: the counter stays the largest offset if nothing farther rests at a move, and only
then. -/
theorem greatest_step (h : Kept cfg l s) (hstep : s.applyMsg m = .ok (b, s')) (ps : List ℤ) :
    ∃ qs, putBy l s m b s' = .ok qs ∧
      (Greatest l ps s → Within l s m → Greatest l (ps ++ qs) s') ∧
      ((∀ w, windowAt s' l.toNat = some w → IsGreatest (Set.image (ticks w) {px | px ∈ ps ++ qs})
        (statsAt s' l).maxAbsOffsetReal) → Within l s m) := by
  have hcfg : s.cfg = cfg := h.follows.elim fun _ ha => ha.cfg_eq
  rcases tracked_step h hstep with ⟨hl, htracked⟩ | ⟨hl, hsame⟩
  · cases htracked with
    | outside hd hd' =>
      rw [← windowAt_eq] at hd hd'
      refine ⟨[], by unfold putBy; rw [hd'], fun hps _ => ?_, fun _ => ?_⟩
      · rw [Greatest, hd] at hps
        rw [Greatest, hd', hps]
        rfl
      · intro rb o op ev rb' px hbook hwatched hbody hop happly hrest hreal
        exact absurd hd' (moves_step h hstep hbook hwatched hbody hop happly hrest
          ((real_iff px).mp hreal))
    | @inside ab ab' hd hd' hwatched' hconfig hreal hgrows hcovers =>
      have hw := window_of_array hd
      have hw' := window_of_array hd'
      have hreal' : (statsAt s' l).maxAbsOffsetReal = _ := hreal
      refine ⟨_, by unfold putBy; rw [hw, hw'], fun hps _ => ?_, fun _ => ?_⟩
      · rw [Greatest, hw] at hps
        rw [Greatest, hw', hconfig, hreal', accepted, if_pos hl]
        cases rested (body m) b with
        | none =>
          rw [Option.toList_none, List.map_nil, List.append_nil]
          exact hps
        | some px => exact greatest_snoc hps px.toNat
      · intro rb o op ev rb' px hbook
        cases hbook.symm.trans hd
    | @moved k o op ev rb rb' px ab' hbody hop hrest hpx hd happly hwatched hd' _ hconfig hreal _ =>
      obtain rfl : k = l := by
        rw [hbody] at hl
        exact Option.some.inj hl
      obtain ⟨qs, hqs, hmem⟩ := putBy_moved h hstep hbody hop hrest hpx hd happly hd'
      have hw' := window_of_array hd'
      have hreal' : (statsAt s' k).maxAbsOffsetReal = reach cfg px := hreal
      refine ⟨qs, hqs, fun hps hwithin => ?_, fun htold => ?_⟩
      · rw [Greatest, (windowAt_eq s _).trans (window_of_getD hd)] at hps
        rw [Greatest, hw', hps, List.nil_append, hreal', hconfig]
        refine ⟨⟨px.toNat, (hmem _).mpr ⟨(real_iff px).mpr hpx, Or.inl rfl⟩, ticks_centre hpx⟩, ?_⟩
        rintro _ ⟨p, hp, rfl⟩
        obtain ⟨hp, rfl | ⟨i, side, hi, hne⟩⟩ := (hmem p).mp hp
        · exact (ticks_centre hpx).le
        · rw [← hcfg]
          rcases hb : s.book k.toNat with _ | bk
          · have hnew : (s.book k.toNat).getD (.ref .new) = .ref rb := hd
            rw [hb] at hnew
            cases hnew
            cases hi
          · have hbook : s.book k.toNat = some (.ref rb) := by
              have hsome : (s.book k.toNat).getD (.ref .new) = .ref rb := hd
              rw [hb] at hsome ⊢
              exact congrArg some hsome
            have hon : (desk s k.toNat).book ≠ none := by
              show s.book k.toNat ≠ none
              rw [hb]
              simp
            exact hwithin rb o op ev rb' px hbook (hwatched hon) hbody hop happly hrest
              ((real_iff px).mpr hpx) i side p hi hne hp
      · intro rb₀ o₀ op₀ ev₀ rb₀' px₀ hbook _ hbody₀ _ _ hrest₀ _ i side p hi hne hp
        obtain rfl : o₀ = o := by
          rw [hbody] at hbody₀
          injection hbody₀ with _ ho
          exact ho.symm
        obtain rfl := Option.some.inj (hrest₀.symm.trans hrest)
        obtain rfl : rb₀ = rb := by
          have hsome : (s.book k.toNat).getD (.ref .new) = .ref rb := hd
          rw [hbook] at hsome
          injection hsome
        have hqs' : p ∈ ps ++ qs :=
          List.mem_append_right _ ((hmem p).mpr ⟨hp, Or.inr ⟨i, side, hi, hne⟩⟩)
        have hle := (htold _ hw').2 ⟨p, hqs', rfl⟩
        rw [hconfig, hreal'] at hle
        rwa [hcfg]
  · have hw : windowAt s' l.toNat = windowAt s l.toNat := by
      rw [windowAt_eq, windowAt_eq, hsame]
    have hreal : (statsAt s' l).maxAbsOffsetReal = (statsAt s l).maxAbsOffsetReal :=
      congrArg (fun d => d.stats.maxAbsOffsetReal) hsame
    refine ⟨[], ?_, fun hps _ => ?_, fun _ => ?_⟩
    · unfold putBy
      rw [hw, accepted, if_neg hl]
      cases windowAt s l.toNat <;> rfl
    · rwa [List.append_nil, Greatest, hw, hreal]
    · intro rb o op ev rb' px _ _ hbody
      exact absurd (by rw [hbody]; rfl) hl

/-- The close publishes the counter and the book's own, which is no smaller. -/
theorem told_of_greatest (h : Kept cfg l s) {ps : List ℤ} (hps : Greatest l ps s)
    (hash : Bytes → Bytes) : Told hash l ps s := by
  intro w hw
  rw [Greatest, hw] at hps
  obtain ⟨a, hfollows⟩ := h.follows
  obtain ⟨t, ht⟩ := finish_ok hfollows hash
  obtain ⟨ab, hab⟩ : ∃ ab, s.book l.toNat = some (.array ab) := by
    unfold windowAt at hw
    split at hw
    · exact ⟨_, ‹_›⟩
    · cases hw
  obtain ⟨bytes, ls, -, hls, hclosed⟩ :=
    (finished_of_finish hfollows.books_le ht).opened _ _ hab
  have hbefore : statsAt s l = ls := by
    rw [statsAt, List.getD_eq_getElem?_getD, hls, Option.getD_some]
  have hafter : statsAt t l = closed hash (.array ab) bytes ls := by
    rw [statsAt, List.getD_eq_getElem?_getD, hclosed, Option.getD_some]
  refine ⟨hps, t, ht, ?_, ?_⟩
  · rw [hafter, hbefore]
    rfl
  · rw [hafter]
    exact hbefore ▸ h.bounded ab hab

end Sessions

/-! Runs. -/

section Runs

variable {cfg : SessionConfig} {l : UInt16}

/-- A run of messages also is a run with the prices put into the array book. -/
theorem run_putStep {ms : List Msg} {s t : Session} {out : List Bool} (h : Kept cfg l s)
    (hrun : run Session.applyMsg s ms = .ok (out, t)) :
    Kept cfg l t ∧ ∃ pss, run (putStep l) s ms = .ok (pss, t) := by
  induction ms generalizing s out with
  | nil =>
    obtain ⟨-, rfl⟩ := Prod.mk.inj (Except.ok.inj hrun)
    exact ⟨h, [], rfl⟩
  | cons m ms ih =>
    obtain ⟨b, out', s₁, hstep, hrest, -⟩ := run_cons_eq_ok.mp hrun
    obtain ⟨qs, hqs, -⟩ := greatest_step h hstep []
    obtain ⟨hkept, pss, hpss⟩ := ih (kept_step h hstep) hrest
    refine ⟨hkept, qs :: pss, run_cons_ok ?_ hpss⟩
    simp only [putStep, hstep, ok_bind, hqs, pure_eq_ok]

theorem putStep_snoc {ms : List Msg} {m : Msg} {s t t' : Session} {b : Bool} {pss : List (List ℤ)}
    {qs : List ℤ} (hrun : run (putStep l) s ms = .ok (pss, t)) (hstep : t.applyMsg m = .ok (b, t'))
    (hqs : putBy l t m b t' = .ok qs) : run (putStep l) s (ms ++ [m]) = .ok (pss ++ [qs], t') := by
  have hlast : run (putStep l) t [m] = .ok ([qs], t') := by
    refine run_cons_ok ?_ (run_nil _ _)
    simp only [putStep, hstep, ok_bind, hqs, pure_eq_ok]
  simp only [run_append, hrun, hlast, ok_bind, pure_eq_ok]

/-- Along a run in which nothing farther rests at a move. -/
theorem greatest_run (hcfg : ValidSession cfg) {ms : List Msg} {out : List Bool} {s : Session}
    (hrun : run Session.applyMsg (.new cfg) ms = .ok (out, s))
    (hwithin : ∀ pre m, pre ++ [m] <+: ms → ∀ out s,
      run Session.applyMsg (.new cfg) pre = .ok (out, s) → Within l s m) :
    ∃ pss, run (putStep l) (.new cfg) ms = .ok (pss, s) ∧ Kept cfg l s ∧
      Greatest l pss.flatten s := by
  induction ms using List.reverseRecOn generalizing out s with
  | nil =>
    obtain ⟨-, rfl⟩ := Prod.mk.inj (Except.ok.inj hrun)
    exact ⟨[], rfl, kept_new hcfg l, rfl⟩
  | append_singleton ms m ih =>
    obtain ⟨out', t, b, hfirst, hstep, -⟩ := SessionAccounts.run_snoc hrun
    obtain ⟨pss, hpss, hkept, hgreatest⟩ := ih hfirst fun pre m' hpre =>
      hwithin pre m' (hpre.trans (List.prefix_append ..))
    obtain ⟨qs, hqs, hnext, -⟩ := greatest_step hkept hstep pss.flatten
    refine ⟨pss ++ [qs], putStep_snoc hpss hstep hqs, kept_step hkept hstep, ?_⟩
    rw [List.flatten_append, List.flatten_singleton]
    exact hnext hgreatest (hwithin ms m (List.prefix_refl _) _ _ hfirst)

/-- The counter tells the largest offset of the real prices put into the array book, at every point
of a run, exactly when at the move of the locate nothing real that rests is farther than the
price that moves it. -/
theorem real_offset_told_iff (hcfg : ValidSession cfg) (hash : Bytes → Bytes) {ms : List Msg}
    {out : List Bool} {s : Session} (hrun : run Session.applyMsg (.new cfg) ms = .ok (out, s))
    (l : UInt16) :
    (∀ pre, pre <+: ms → ∃ pss t, run (putStep l) (.new cfg) pre = .ok (pss, t) ∧
      Told hash l pss.flatten t) ↔
    ∀ pre m, pre ++ [m] <+: ms → ∀ out t, run Session.applyMsg (.new cfg) pre = .ok (out, t) →
      Within l t m := by
  have hprefix : ∀ pre, pre <+: ms → ∃ out t, run Session.applyMsg (.new cfg) pre =
      .ok (out, t) := by
    rintro pre ⟨post, rfl⟩
    rw [run_append] at hrun
    obtain ⟨⟨out', t⟩, hfirst, -⟩ := bind_eq_ok.mp hrun
    exact ⟨out', t, hfirst⟩
  constructor
  · intro htold pre m hpre out t hfirst
    obtain ⟨out', t', hall⟩ := hprefix _ hpre
    obtain ⟨out'', t'', b, hfirst', hstep, -⟩ := SessionAccounts.run_snoc hall
    obtain ⟨-, rfl⟩ := Prod.mk.inj (Except.ok.inj (hfirst.symm.trans hfirst'))
    obtain ⟨hkept, pss, hpss⟩ := run_putStep (kept_new hcfg l) hfirst
    obtain ⟨qs, hqs, -, hback⟩ := greatest_step hkept hstep pss.flatten
    obtain ⟨pss', t₁, hpss', htold'⟩ := htold _ hpre
    obtain ⟨rfl, rfl⟩ :=
      Prod.mk.inj (Except.ok.inj (hpss'.symm.trans (putStep_snoc hpss hstep hqs)))
    refine hback fun w hw => ?_
    have hgreatest := (htold' w hw).1
    rwa [List.flatten_append, List.flatten_singleton] at hgreatest
  · intro hwithin pre hpre
    obtain ⟨out', t, hfirst⟩ := hprefix pre hpre
    obtain ⟨pss, hpss, hkept, hgreatest⟩ := greatest_run hcfg hfirst fun pre' m hpre' =>
      hwithin pre' m (hpre'.trans hpre)
    exact ⟨pss, t, hpss, told_of_greatest hkept hgreatest hash⟩

end Runs

/-- A watch on one stock. -/
def watchStock (stock : Alpha 8) : SessionConfig := ⟨⟨[stock.val], [], false⟩, 64, 64, "day", true⟩

theorem watchStock_valid (stock : Alpha 8) : ValidSession (watchStock stock) where
  window_pos := (by decide : 1 ≤ 64)
  window_le := (by decide : 64 ≤ 4096)

/-- The directory entry of a stock of blanks. -/
def blankMsg : Msg :=
  .directory ⟨payload 'R' ⟨1, 0, 0⟩ (directoryFields blank), by decide +kernel, by decide +kernel⟩

/-- A bid at 100.0000 before the directory entry, and an ask at 10.0000 behind it. -/
def lateMsgs : List Msg :=
  [addMsg ⟨1, 0, 0⟩ 1 66 5 blank 1000000, blankMsg, addMsg ⟨1, 0, 0⟩ 2 83 5 blank 100000]

/-- The late watch finds the bid at rest: the window is centred on the ask, 32 ticks above its base,
and the bid, 9032 ticks away, is put into the book unheard. -/
theorem late_watch_untold : ValidSession (watchStock blank) ∧ ∃ pss s w,
    run (putStep 1) (.new (watchStock blank)) lateMsgs = .ok (pss, s) ∧
      windowAt s 1 = some w ∧ 1000000 ∈ pss.flatten ∧ ticks w 1000000 = 9032 ∧
      (statsAt s 1).maxAbsOffsetReal = 32 ∧ ∀ hash, ¬ Told hash 1 pss.flatten s := by
  obtain ⟨⟨pss, s⟩, hrun, hany⟩ := ok_of_any
    (x := run (putStep 1) (.new (watchStock blank)) lateMsgs)
    (f := fun p => (windowAt p.2 1).any (fun w => ticks w 1000000 = 9032) &&
      p.1.flatten.contains 1000000 && (statsAt p.2 1).maxAbsOffsetReal == 32) (by decide +kernel)
  simp only [Bool.and_eq_true, beq_iff_eq, List.contains_iff_mem] at hany
  obtain ⟨⟨hw, hmem⟩, hreal⟩ := hany
  obtain ⟨w, hw, hticks⟩ := (Option.any_eq_true _ _).mp hw
  have hticks := of_decide_eq_true hticks
  refine ⟨watchStock_valid blank, pss, s, w, hrun, hw, hmem, hticks, hreal, fun hash htold => ?_⟩
  have hle := (htold w hw).1.2 ⟨1000000, hmem, rfl⟩
  rw [hticks, hreal] at hle
  omega

/-- The same orders on a watch from the first. -/
theorem real_offset_told_iff_early : ∃ out s,
    run Session.applyMsg (.new (watchEvery 64)) [firstMsg, firstMsg] = .ok (out, s) ∧
    ((∀ pre, pre <+: [firstMsg, firstMsg] → ∃ pss t,
      run (putStep 1) (.new (watchEvery 64)) pre = .ok (pss, t) ∧
        Told (fun b => b) 1 pss.flatten t) ↔
      ∀ pre m, pre ++ [m] <+: [firstMsg, firstMsg] → ∀ out t,
        run Session.applyMsg (.new (watchEvery 64)) pre = .ok (out, t) → Within 1 t m) := by
  obtain ⟨⟨out, s⟩, hrun⟩ := ok_of_not_panics
    (x := run Session.applyMsg (.new (watchEvery 64)) [firstMsg, firstMsg]) (by decide +kernel)
  exact ⟨out, s, hrun, real_offset_told_iff (watchEvery_valid 64) (fun b => b) hrun 1⟩

end Lobcore.RealOffsets
