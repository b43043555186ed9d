import Lobcore.BookRuns
import Lobcore.Desks

/-!
One message, seen from the desks. A message for a locate is one step of its desk and leaves
the others; a message that asks for no book leaves all of them. What a step leaves of a desk
follows from the few ways it can go.
-/
namespace Lobcore.DeskSteps

open Checked OrderTypes Payloads SessionStats ArrayBooks Sessions Replays Handlers Desks

/-- The locate whose desk a message works on. -/
def target : Body → Option UInt16
  | .directory l _ => some l
  | .action l _ => some l
  | .order l _ => some l
  | _ => none

/-- A message works on the desk of the locate in its header. -/
theorem headerLocate_of_target {m : Msg} {l : UInt16} (h : target (body m) = some l) :
    headerLocate m.raw = some l := by
  have hheader : ∀ {b : Bytes} {n : ℕ}, b.length = n → 11 ≤ n → headerLocate b = some (u16At b 1) :=
    fun hlen hn => if_pos (hlen ▸ hn)
  cases m with
  | directory m => exact (hheader m.length_eq (by decide)).trans h
  | action m => exact (hheader m.length_eq (by decide)).trans h
  | add m => exact (hheader m.length_eq (by decide)).trans h
  | addMpid m => exact (hheader m.length_eq (by decide)).trans h
  | exec m => exact (hheader m.length_eq (by decide)).trans h
  | execPx m => exact (hheader m.length_eq (by decide)).trans h
  | cancel m => exact (hheader m.length_eq (by decide)).trans h
  | delete m => exact (hheader m.length_eq (by decide)).trans h
  | replace m => exact (hheader m.length_eq (by decide)).trans h
  | _ => cases h

/-- A message on the desk of its locate. -/
def act (cfg : SessionConfig) (afterQ : Bool) (d : Desk) : Body → Exec (Bool × Desk × List Count)
  | .directory l stock => .ok (false, d.directory cfg l stock, [])
  | .action _ state => .ok (false, d.onStats fun ls => { ls with hState := state }, [])
  | .order l o => d.order cfg afterQ l o
  | _ => .ok (false, d, [])

theorem perform_put {s : Session} (h : Aligned s) {body : Body} {l : UInt16}
    (hl : target body = some l) : perform s body = (do
      let (b, d, cs) ← act s.cfg s.afterQ (desk s l.toNat) body
      return (b, put s l.toNat d 1 cs)) := by
  cases body with
  | directory l' stock =>
    obtain rfl : l' = l := Option.some.inj hl
    simp only [perform, directory_put h, act, ok_bind]
  | action l' state =>
    obtain rfl : l' = l := Option.some.inj hl
    simp only [perform, action_put h, act, ok_bind]
  | order l' o =>
    obtain rfl : l' = l := Option.some.inj hl
    exact order_put h l' o
  | system code ts => cases hl
  | print l' => cases hl
  | unknown => cases hl

/-! The desks of a session with one of them put. -/

section Put

variable {s : Session} (l : ℕ) (d : Desk) (n : ℕ) (cs : List Count)

theorem growTo_getD {α : Type} (xs : List α) (n : ℕ) (a : α) (i : ℕ) :
    (growTo xs n a).getD i a = xs.getD i a := by
  rw [List.getD_eq_getElem?_getD, List.getD_eq_getElem?_getD, growTo_getElem?]
  split
  · rfl
  · rename_i hi
    rw [List.getElem?_eq_none (not_lt.mp hi)]
    split <;> rfl

theorem put_locates : (put s l d n cs).stats.locates[l]? =
    some { d.stats with msgs := (s.stats.locates.getD l .new).msgs + n } := by
  have hget := growTo_get s.stats.locates LocateStats.new (Nat.lt_succ_self l)
  show ((growTo s.stats.locates (l + 1) .new).modify l _)[l]? = _
  rw [List.getElem?_modify_eq, hget]
  rfl

theorem desk_put_self (hd : d.stats.msgs = 0) : desk (put s l d n cs) l = d := by
  have hwatched : (put s l d n cs).watched.getD l false = d.watched := by
    rw [List.getD_eq_getElem?_getD, put_watched, Option.getD_some]
  have hstats : ({ (put s l d n cs).stats.locates.getD l .new with msgs := 0 } : LocateStats) =
      d.stats := by
    rw [List.getD_eq_getElem?_getD, put_locates, Option.getD_some, ← hd]
  obtain ⟨book, watched, stats⟩ := d
  rw [desk, put_book, hwatched, hstats]

theorem book_put_ne {i : ℕ} (hi : i ≠ l) : (put s l d n cs).book i = s.book i := by
  rw [book_eq_getD, book_eq_getD, ← growTo_getD s.books (l + 1) none i]
  simp only [put, List.getD_eq_getElem?_getD, List.getElem?_set_ne hi.symm]

theorem desk_put_ne {i : ℕ} (hi : i ≠ l) : desk (put s l d n cs) i = desk s i := by
  have hwatched : (put s l d n cs).watched.getD i false = s.watched.getD i false := by
    rw [← growTo_getD s.watched (l + 1) false i]
    simp only [put, List.getD_eq_getElem?_getD, List.getElem?_set_ne hi.symm]
  have hstats : (put s l d n cs).stats.locates.getD i .new = s.stats.locates.getD i .new := by
    rw [← growTo_getD s.stats.locates (l + 1) .new i]
    simp only [put, List.getD_eq_getElem?_getD, List.getElem?_modify_ne _ _ hi.symm]
  rw [desk, desk, book_put_ne l d n cs hi, hwatched, hstats]

theorem sized_countAll {st : Stats} (h : st.Sized) : (countAll cs st).Sized := by
  induction cs generalizing st with
  | nil => exact h
  | cons c cs ih =>
    show (countAll cs (c.stats st)).Sized
    refine ih ?_
    cases c with
    | rejected e => cases e <;> exact ⟨h.byType, h.byTypeHour, h.row⟩
    | _ => exact ⟨h.byType, h.byTypeHour, h.row⟩

theorem aligned_put (h : Aligned s) : Aligned (put s l d n cs) where
  watched := by
    show ((growTo _ _ _).set _ _).length = ((growTo _ _ _).set _ _).length
    rw [List.length_set, List.length_set, length_growTo, length_growTo, h.watched]
  locates := by
    show ((growTo _ _ _).modify _ _).length = ((growTo _ _ _).set _ _).length
    rw [List.length_modify, List.length_set, length_growTo, length_growTo, h.locates]
  sized :=
    have hsized := sized_countAll cs h.sized
    ⟨hsized.byType, hsized.byTypeHour, hsized.row⟩

end Put

/-! The ways an order message can go. -/

/-- A refused call leaves the book of either kind as it was. -/
theorem apply_refused {b b' : LocateBook} {op : Op} {e : BookError}
    (h : b.apply op = .ok (.error e, b')) : b' = b := by
  cases b with
  | array b =>
    obtain ⟨⟨r, b₁⟩, hb, h⟩ := bind_eq_ok.mp h
    obtain ⟨rfl, rfl⟩ := Prod.mk.inj (Except.ok.inj h)
    rw [BookRuns.quiet_array b op e b₁ hb]
  | ref b =>
    obtain ⟨⟨r, b₁⟩, hb, h⟩ := bind_eq_ok.mp h
    obtain ⟨rfl, rfl⟩ := Prod.mk.inj (Except.ok.inj h)
    rw [BookRuns.quiet_reference b op e b₁ hb]

/-- A call on a desk is a call on its book. -/
theorem callBook_eq_ok {d d' : Desk} {op : Op} {r : Reply} (h : d.callBook op = .ok (r, d')) :
    ∃ b b', d.book = some b ∧ b.apply op = .ok (r, b') ∧ d' = { d with book := some b' } := by
  unfold Desk.callBook at h
  cases hbook : d.book with
  | none =>
    rw [hbook] at h
    cases h
  | some b =>
    rw [hbook, expect_some, ok_bind] at h
    obtain ⟨⟨r', b'⟩, hb, h⟩ := bind_eq_ok.mp h
    obtain ⟨rfl, rfl⟩ := Prod.mk.inj (Except.ok.inj h)
    exact ⟨b, b', rfl, hb, rfl⟩

theorem callBook_refused {d d' : Desk} {op : Op} {e : BookError}
    (h : d.callBook op = .ok (.error e, d')) : d' = d := by
  obtain ⟨b, b', hbook, happly, rfl⟩ := callBook_eq_ok h
  rw [apply_refused happly, ← hbook]

/-- An order message on a desk: an add without a side, a call that the book refuses, or one
that it accepts. -/
inductive Ordered (cfg : SessionConfig) (afterQ : Bool) (l : UInt16) (o : Order) (d : Desk) :
    Bool → Desk → List Count → Prop
  | unsided (hop : o.op = none) : Ordered cfg afterQ l o d false (d.openMissing cfg l).1
      ((d.openMissing cfg l).2 ++ Desk.placeholderOf o ++ [.badSide])
  | refused {op : Op} {e : BookError} (hop : o.op = some op)
      (hcall : (d.openMissing cfg l).1.callBook op = .ok (.error e, (d.openMissing cfg l).1)) :
      Ordered cfg afterQ l o d false (d.openMissing cfg l).1
        ((d.openMissing cfg l).2 ++ Desk.placeholderOf o ++
          ((d.openMissing cfg l).1.record cfg (.error e)).2)
  | accepted {op : Op} {ev : Event} {d₁ d₂ : Desk} {ahead : Option ℕ} {crossed : List Count}
      (hop : o.op = some op)
      (hcall : (d.openMissing cfg l).1.callBook op = .ok (.ok ev, d₁))
      (hahead : (d.openMissing cfg l).1.aheadOf o = .ok ahead)
      (hwindow : (d₁.record cfg (.ok ev)).1.windowOf cfg o = .ok d₂)
      (hcrossed : d₂.checkCrossed afterQ = .ok crossed) :
      Ordered cfg afterQ l o d true d₂
        ((d.openMissing cfg l).2 ++ Desk.placeholderOf o ++ (d₁.record cfg (.ok ev)).2 ++
          Desk.acceptedOf ahead ev o ++ crossed)

theorem ordered {cfg : SessionConfig} {afterQ : Bool} {l : UInt16} {o : Order} {d d' : Desk}
    {b : Bool} {cs : List Count} (h : d.order cfg afterQ l o = .ok (b, d', cs)) :
    Ordered cfg afterQ l o d b d' cs := by
  unfold Desk.order at h
  cases hop : o.op with
  | none =>
    simp only [hop, pure_eq_ok, Except.ok.injEq, Prod.mk.injEq] at h
    obtain ⟨rfl, rfl, rfl⟩ := h
    exact .unsided hop
  | some op =>
    simp only [hop] at h
    obtain ⟨ahead, hahead, h⟩ := bind_eq_ok.mp h
    obtain ⟨⟨e | ev, d₁⟩, hcall, h⟩ := bind_eq_ok.mp h
    · obtain rfl := callBook_refused hcall
      simp only [pure_eq_ok, Except.ok.injEq, Prod.mk.injEq] at h
      obtain ⟨rfl, rfl, rfl⟩ := h
      exact .refused hop hcall
    · obtain ⟨d₂, hwindow, h⟩ := bind_eq_ok.mp h
      obtain ⟨crossed, hcrossed, h⟩ := bind_eq_ok.mp h
      simp only [pure_eq_ok, Except.ok.injEq, Prod.mk.injEq] at h
      obtain ⟨rfl, rfl, rfl⟩ := h
      exact .accepted hop hcall hahead hwindow hcrossed

/-! What every step leaves of a desk: the fields that are filled at the close. -/

structure Kept (d d' : Desk) : Prop where
  msgs : d'.stats.msgs = d.stats.msgs
  array : d'.stats.array = d.stats.array
  window : d'.stats.window = d.stats.window
  overflowHits : d'.stats.overflowHits = d.stats.overflowHits
  maxAbsOffset : d'.stats.maxAbsOffset = d.stats.maxAbsOffset
  closeHash : d'.stats.closeHash = d.stats.closeHash

theorem kept_of_stats {d d' : Desk} (h : d'.stats = d.stats) : Kept d d' := by
  constructor <;> rw [h]

theorem Kept.trans {d d₁ d₂ : Desk} (h : Kept d d₁) (h₁ : Kept d₁ d₂) : Kept d d₂ where
  msgs := h₁.msgs.trans h.msgs
  array := h₁.array.trans h.array
  window := h₁.window.trans h.window
  overflowHits := h₁.overflowHits.trans h.overflowHits
  maxAbsOffset := h₁.maxAbsOffset.trans h.maxAbsOffset
  closeHash := h₁.closeHash.trans h.closeHash

section Frames

variable (cfg : SessionConfig) (l : UInt16) (d : Desk)

theorem kept_watch (symbol : Option Bytes) : Kept d (d.watch cfg l symbol) := by
  unfold Desk.watch
  split <;> exact ⟨rfl, rfl, rfl, rfl, rfl, rfl⟩

theorem kept_openBook : Kept d d.openBook := ⟨rfl, rfl, rfl, rfl, rfl, rfl⟩

theorem kept_openMissing : Kept d (d.openMissing cfg l).1 := by
  unfold Desk.openMissing
  split
  · exact kept_of_stats rfl
  · exact (kept_watch cfg l d none).trans (kept_openBook _)

theorem kept_directory (stock : Bytes) : Kept d (d.directory cfg l stock) := by
  have hsymbol : Kept d (d.onStats fun ls => { ls with symbol := stock }) :=
    ⟨rfl, rfl, rfl, rfl, rfl, rfl⟩
  have hwatch := hsymbol.trans (kept_watch cfg l _ (some stock))
  simp only [Desk.directory]
  split
  · exact hwatch.trans (kept_openBook _)
  · exact hwatch

theorem kept_record (r : Reply) : Kept d (d.record cfg r).1 := by
  unfold Desk.record
  cases r with
  | error e => exact kept_of_stats rfl
  | ok ev =>
    by_cases hd : liveDelta ev ≠ 0
    · simp only [if_pos hd]
      exact ⟨rfl, rfl, rfl, rfl, rfl, rfl⟩
    · simp only [if_neg hd]
      exact kept_of_stats rfl

theorem book_record (r : Reply) : (d.record cfg r).1.book = d.book := by
  unfold Desk.record
  cases r with
  | error e => rfl
  | ok ev =>
    by_cases hd : liveDelta ev ≠ 0
    · simp only [if_pos hd]
      rfl
    · simp only [if_neg hd]

end Frames

theorem kept_ensureWindow {cfg : SessionConfig} {px : UInt32} {d d' : Desk}
    (h : d.ensureWindow cfg px = .ok d') : Kept d d' := by
  unfold Desk.ensureWindow at h
  split at h
  · exact Except.ok.inj h ▸ kept_of_stats rfl
  · split at h
    · exact Except.ok.inj h ▸ kept_of_stats rfl
    · obtain ⟨b, -, h⟩ := bind_eq_ok.mp h
      cases b with
      | array ab =>
        obtain ⟨-, -, h⟩ := bind_eq_ok.mp h
        exact Except.ok.inj h ▸ ⟨rfl, rfl, rfl, rfl, rfl, rfl⟩
      | ref rb =>
        obtain ⟨⟨k, ab⟩, -, h⟩ := bind_eq_ok.mp h
        exact Except.ok.inj h ▸ ⟨rfl, rfl, rfl, rfl, rfl, rfl⟩

theorem kept_windowOf {cfg : SessionConfig} {o : Order} {d d' : Desk}
    (h : d.windowOf cfg o = .ok d') : Kept d d' := by
  cases o with
  | add id side px qty => exact kept_ensureWindow h
  | replace old new px qty => exact kept_ensureWindow h
  | execute id qty => exact Except.ok.inj h ▸ kept_of_stats rfl
  | cancel id qty => exact Except.ok.inj h ▸ kept_of_stats rfl
  | delete id => exact Except.ok.inj h ▸ kept_of_stats rfl

theorem act_kept {cfg : SessionConfig} {afterQ : Bool} {body : Body} {d d' : Desk} {b : Bool}
    {cs : List Count} (h : act cfg afterQ d body = .ok (b, d', cs)) : Kept d d' := by
  cases body with
  | directory l stock =>
    obtain ⟨-, h⟩ := Prod.mk.inj (Except.ok.inj h)
    obtain ⟨rfl, -⟩ := Prod.mk.inj h
    exact kept_directory cfg l d stock
  | action l state =>
    obtain ⟨-, h⟩ := Prod.mk.inj (Except.ok.inj h)
    obtain ⟨rfl, -⟩ := Prod.mk.inj h
    exact ⟨rfl, rfl, rfl, rfl, rfl, rfl⟩
  | order l o =>
    have hopen := kept_openMissing cfg l d
    cases ordered h with
    | unsided hop => exact hopen
    | refused hop hcall => exact hopen
    | @accepted op ev d₁ d₂ ahead crossed hop hcall hahead hwindow hcrossed =>
      obtain ⟨b, b', -, -, hd⟩ := callBook_eq_ok hcall
      have hstats : d₁.stats = (d.openMissing cfg l).1.stats := by rw [hd]
      have hcalled := hopen.trans (kept_of_stats hstats)
      exact (hcalled.trans (kept_record cfg _ _)).trans (kept_windowOf hwindow)
  | system code ts =>
    obtain ⟨-, h⟩ := Prod.mk.inj (Except.ok.inj h)
    exact (Prod.mk.inj h).1 ▸ kept_of_stats rfl
  | print l =>
    obtain ⟨-, h⟩ := Prod.mk.inj (Except.ok.inj h)
    exact (Prod.mk.inj h).1 ▸ kept_of_stats rfl
  | unknown =>
    obtain ⟨-, h⟩ := Prod.mk.inj (Except.ok.inj h)
    exact (Prod.mk.inj h).1 ▸ kept_of_stats rfl

/-! A locate with a book keeps it, and an array book stays one. -/

theorem array_ensureWindow {cfg : SessionConfig} {px : UInt32} {d d' : Desk} {ab : ArrayBook}
    (hab : d.book = some (.array ab)) (h : d.ensureWindow cfg px = .ok d') : d'.book = d.book := by
  unfold Desk.ensureWindow at h
  simp only [hab, expect_some, ok_bind] at h
  split at h
  · exact Except.ok.inj h ▸ rfl
  · split at h
    · exact Except.ok.inj h ▸ rfl
    · obtain ⟨-, -, h⟩ := bind_eq_ok.mp h
      exact Except.ok.inj h ▸ rfl

theorem array_windowOf {cfg : SessionConfig} {o : Order} {d d' : Desk} {ab : ArrayBook}
    (hab : d.book = some (.array ab)) (h : d.windowOf cfg o = .ok d') : d'.book = d.book := by
  cases o with
  | add id side px qty => exact array_ensureWindow hab h
  | replace old new px qty => exact array_ensureWindow hab h
  | execute id qty => exact Except.ok.inj h ▸ rfl
  | cancel id qty => exact Except.ok.inj h ▸ rfl
  | delete id => exact Except.ok.inj h ▸ rfl

theorem openMissing_some {cfg : SessionConfig} {l : UInt16} {d : Desk} {b : LocateBook}
    (hb : d.book = some b) : d.openMissing cfg l = (d, []) := by
  rw [Desk.openMissing, hb]

theorem directory_some {cfg : SessionConfig} {l : UInt16} {stock : Bytes} {d : Desk}
    {b : LocateBook} (hb : d.book = some b) : d.directory cfg l stock =
      (d.onStats fun ls => { ls with symbol := stock }).watch cfg l (some stock) := by
  have hbook : ((d.onStats fun ls => { ls with symbol := stock }).watch cfg l (some stock)).book =
      some b := by
    unfold Desk.watch
    split <;> exact hb
  simp only [Desk.directory, hbook]

/-- A locate that has moved to an array book stays on one. -/
theorem array_act {cfg : SessionConfig} {afterQ : Bool} {body : Body} {d d' : Desk} {b : Bool}
    {cs : List Count} {ab : ArrayBook} (hab : d.book = some (.array ab))
    (h : act cfg afterQ d body = .ok (b, d', cs)) : ∃ ab', d'.book = some (.array ab') := by
  cases body with
  | directory l stock =>
    obtain ⟨-, h⟩ := Prod.mk.inj (Except.ok.inj h)
    obtain ⟨rfl, -⟩ := Prod.mk.inj h
    rw [directory_some hab]
    unfold Desk.watch
    split <;> exact ⟨ab, hab⟩
  | action l state =>
    obtain ⟨-, h⟩ := Prod.mk.inj (Except.ok.inj h)
    exact (Prod.mk.inj h).1 ▸ ⟨ab, hab⟩
  | order l o =>
    have hopen : d.openMissing cfg l = (d, []) := openMissing_some hab
    cases ordered h with
    | unsided hop => exact ⟨ab, by rw [hopen, hab]⟩
    | refused hop hcall => exact ⟨ab, by rw [hopen, hab]⟩
    | @accepted op ev d₁ d₂ ahead crossed hop hcall hahead hwindow hcrossed =>
      rw [hopen] at hcall
      obtain ⟨b, b', hb, happly, rfl⟩ := callBook_eq_ok hcall
      obtain rfl := Option.some.inj (hab.symm.trans hb)
      obtain ⟨⟨r, ab'⟩, -, happly⟩ := bind_eq_ok.mp happly
      obtain ⟨rfl, rfl⟩ := Prod.mk.inj (Except.ok.inj happly)
      have hrecord := book_record cfg { d with book := some (.array ab') } (.ok ev)
      exact ⟨ab', (array_windowOf hrecord hwindow).trans hrecord⟩
  | system code ts =>
    obtain ⟨-, h⟩ := Prod.mk.inj (Except.ok.inj h)
    exact (Prod.mk.inj h).1 ▸ ⟨ab, hab⟩
  | print l =>
    obtain ⟨-, h⟩ := Prod.mk.inj (Except.ok.inj h)
    exact (Prod.mk.inj h).1 ▸ ⟨ab, hab⟩
  | unknown =>
    obtain ⟨-, h⟩ := Prod.mk.inj (Except.ok.inj h)
    exact (Prod.mk.inj h).1 ▸ ⟨ab, hab⟩

/-! One message. -/

/-- What a message that works on no desk leaves of the shared counters. -/
def idleStats (st : Stats) : Body → Stats
  | .system code ts => { st with sEvents := st.sEvents ++ [(code, ts)] }
  | .unknown => st.countUnknownType
  | _ => st

/-- The market has opened, or opens now. -/
def opens (afterQ : Bool) : Body → Bool
  | .system code _ => afterQ || letter code = 'Q'
  | _ => afterQ

/-- A message that works on no desk, done. -/
structure Undisturbed (body : Body) (s s' : Session) : Prop where
  cfg : s'.cfg = s.cfg
  books : s'.books = s.books
  log : s'.log = s.log
  finished : s'.finished = s.finished
  afterQ : s'.afterQ = opens s.afterQ body
  stats : ∃ locates, s'.stats = { idleStats s.stats body with locates }
  desks : ∀ i, desk s' i = desk s i
  aligned : Aligned s'

theorem perform_idle {s : Session} (h : Aligned s) {body : Body} (hl : target body = none) :
    ∃ s', perform s body = .ok (false, s') ∧ Undisturbed body s s' := by
  have hsame : ∀ st : Stats, ∃ locates, st = { st with locates } := fun st => ⟨st.locates, rfl⟩
  cases body with
  | system code ts =>
    exact ⟨s.system code ts, rfl, rfl, rfl, rfl, rfl, rfl, hsame _, fun _ => rfl,
      h.watched, h.locates, ⟨h.sized.byType, h.sized.byTypeHour, h.sized.row⟩⟩
  | unknown =>
    exact ⟨_, rfl, rfl, rfl, rfl, rfl, rfl, hsame _, fun _ => rfl,
      h.watched, h.locates, ⟨h.sized.byType, h.sized.byTypeHour, h.sized.row⟩⟩
  | print l =>
    have hnothing : ∃ s', perform s (.print none) = .ok (false, s') ∧
        Undisturbed (.print l) s s' :=
      ⟨s, rfl, rfl, rfl, rfl, rfl, rfl, hsame _, fun _ => rfl, h⟩
    cases l with
    | none => exact hnothing
    | some l =>
      by_cases hlt : l.toNat < s.stats.locates.length
      · refine ⟨{ s with stats := s.stats.onLocate l.toNat fun ls =>
          { ls with msgs := ls.msgs + 1 } },
          ?_, rfl, rfl, rfl, rfl, rfl, ⟨_, rfl⟩, fun i => ?_, h.watched, ?_,
          ⟨h.sized.byType, h.sized.byTypeHour, h.sized.row⟩⟩
        · simp only [perform, Session.countPrint, if_pos hlt, Session.atLocate,
            Stats.atLocate_ok hlt, ok_bind, pure_eq_ok]
        · simp only [desk, Session.book, Stats.onLocate, List.getD_eq_getElem?_getD,
            List.getElem?_modify]
          cases s.stats.locates[i]? with
          | none => rfl
          | some ls => by_cases hi : l.toNat = i <;> simp [hi]
        · exact (List.length_modify ..).trans h.locates
      · obtain ⟨s', hrun, hs'⟩ := hnothing
        refine ⟨s', ?_, hs'⟩
        rw [← hrun]
        simp only [perform, Session.countPrint, if_neg hlt]
  | directory l stock => cases hl
  | action l state => cases hl
  | order l o => cases hl

theorem aligned_new (cfg : SessionConfig) : Aligned (.new cfg) :=
  ⟨rfl, rfl, Stats.sized_new _ _⟩

theorem aligned_noted {s : Session} (h : Aligned s) (n : Note) : Aligned (noted s n) where
  watched := h.watched
  locates := by
    have hlocates : (s.stats.noteMessage n.ty n.ts).locates = s.stats.locates := by
      cases n.ts <;> rfl
    show (s.stats.noteMessage n.ty n.ts).locates.length = s.books.length
    rw [hlocates, h.locates]
  sized := h.sized.noteMessage n.ty n.ts

theorem desk_noted (s : Session) (n : Note) (i : ℕ) : desk (noted s n) i = desk s i := by
  have hlocates : (s.stats.noteMessage n.ty n.ts).locates = s.stats.locates := by
    cases n.ts <;> rfl
  simp only [desk, noted, hlocates, Session.book]

/-- What a message does: one step of the desk it is for, or nothing to any desk. -/
inductive Moved (s : Session) (m : Msg) : Bool → Session → Prop
  | worked {l : UInt16} {b : Bool} {d : Desk} {cs : List Count} (hl : target (body m) = some l)
      (hact : act s.cfg s.afterQ (desk s l.toNat) (body m) = .ok (b, d, cs)) :
      Moved s m b (put (noted s (note m)) l.toNat d 1 cs)
  | idle {s' : Session} (hl : target (body m) = none)
      (hs : Undisturbed (body m) (noted s (note m)) s') : Moved s m false s'

theorem moved_of_applyMsg {s s' : Session} (h : Aligned s) {m : Msg} {b : Bool}
    (hrun : s.applyMsg m = .ok (b, s')) : Moved s m b s' := by
  rw [applyMsg_eq h.sized] at hrun
  have hnoted := aligned_noted h (note m)
  cases hl : target (body m) with
  | none =>
    obtain ⟨s₁, hperform, hs₁⟩ := perform_idle hnoted hl
    rw [hperform] at hrun
    obtain ⟨rfl, rfl⟩ := Prod.mk.inj (Except.ok.inj hrun)
    exact .idle hl hs₁
  | some l =>
    rw [perform_put hnoted hl, desk_noted] at hrun
    obtain ⟨⟨b', d, cs⟩, hact, hrun⟩ := bind_eq_ok.mp hrun
    obtain ⟨rfl, rfl⟩ := Prod.mk.inj (Except.ok.inj hrun)
    exact .worked hl hact

/-- Conversely, a desk that can take the step lets the session take it. -/
theorem applyMsg_of_act {s : Session} (h : Aligned s) {m : Msg} {l : UInt16} {b : Bool} {d : Desk}
    {cs : List Count} (hl : target (body m) = some l)
    (hact : act s.cfg s.afterQ (desk s l.toNat) (body m) = .ok (b, d, cs)) :
    s.applyMsg m = .ok (b, put (noted s (note m)) l.toNat d 1 cs) := by
  have hact' : act (noted s (note m)).cfg (noted s (note m)).afterQ
      (desk (noted s (note m)) l.toNat) (body m) = .ok (b, d, cs) := by
    rw [desk_noted]
    exact hact
  rw [applyMsg_eq h.sized, perform_put (aligned_noted h (note m)) hl, hact']
  rfl

section Moved

variable {s s' : Session} {m : Msg} {b : Bool} (h : Aligned s) (hmoved : Moved s m b s')

include h hmoved

theorem Moved.aligned : Aligned s' := by
  cases hmoved with
  | worked hl hact => exact aligned_put _ _ _ _ (aligned_noted h (note m))
  | idle hl hs => exact hs.aligned

omit h in
theorem Moved.cfg : s'.cfg = s.cfg := by
  cases hmoved with
  | worked hl hact => rfl
  | idle hl hs => exact hs.cfg

omit h in
theorem Moved.finished : s'.finished = s.finished := by
  cases hmoved with
  | worked hl hact => rfl
  | idle hl hs => exact hs.finished

end Moved

/-- A desk keeps no message count. -/
theorem desk_msgs (s : Session) (i : ℕ) : (desk s i).stats.msgs = 0 := rfl

/-- The desk a message is for, after its step. -/
theorem desk_worked {s : Session} {m : Msg} {l : UInt16} {b : Bool} {d : Desk} {cs : List Count}
    (hact : act s.cfg s.afterQ (desk s l.toNat) (body m) = .ok (b, d, cs)) :
    desk (put (noted s (note m)) l.toNat d 1 cs) l.toNat = d :=
  desk_put_self l.toNat d 1 cs ((act_kept hact).msgs.trans (desk_msgs s l.toNat))

end Lobcore.DeskSteps
