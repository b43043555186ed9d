import Lobcore.Handlers
import Lobcore.SessionRefines

/-!
Whole messages. Every handler of a session gives the answer of the replay and keeps
following it, so a session never aborts on a message while the markets fit their slabs.
-/
namespace Lobcore.SessionSteps

open Checked OrderTypes OrderSlab Markets Payloads SessionStats ArrayBooks Sessions Migrations
open Replays Handlers SessionRefines

/-- The call returns the replay's answer with a session that follows the replay after it,
unless the circumstances are bad and it aborts. -/
def Answers (Q : Prop) (cfg : SessionConfig) (next : Bool × Replay) (x : Exec (Bool × Session)) :
    Prop := Returns Q (fun p => p.1 = next.1 ∧ Follows cfg p.2 next.2) x

theorem answers_ok {Q : Prop} {cfg : SessionConfig} {next : Bool × Replay} {b : Bool} {s : Session}
    (hb : b = next.1) (h : Follows cfg s next.2) : Answers Q cfg next (.ok (b, s)) :=
  Returns.of_ok ⟨hb, h⟩

/-- The market of the locate after an accepted call, window or counters apart. -/
theorem market_after (a : Replay) (l : UInt16) (o : Order) (op : Op) :
    (((a.touch l).placeholder o).call l op).market l.toNat =
      some ((a.marketOf l).apply op).2 := by
  rw [Replay.market_call, Function.update_self,
    Replay.marketOf_eq (Replay.market_touch_self a l o)]

section Orders

variable {Q : Prop} {cfg : SessionConfig} {s : Session} {a : Replay} (h : Follows cfg s a)

include h

/-- A call on the book of a locate, its reply recorded. -/
theorem callRecord {α : Type} {P : α → Prop} {l : UInt16} {m : Market}
    (hm : a.market l.toNat = some m) (op : Op) (hroom : Q → Watching cfg →
      (m.apply op).2.live ≤ nilSlot)
    {f : Option Event × Session → Exec α}
    (hf : ∀ s', Follows cfg s' (a.call l op) → Returns Q P (f ((m.apply op).1.toOption, s'))) :
    Returns Q P (s.callBook l op >>= fun p => p.2.record l p.1 >>= f) := by
  refine (h.callBook hm op hroom).bind fun p hp => ?_
  obtain ⟨r, s₁⟩ := p
  obtain ⟨rfl, h₁⟩ := hp
  obtain ⟨s₂, hrecord, h₂⟩ := h₁.record (Function.update_self ..) (m.apply op).1
  simp only [hrecord, ok_bind]
  rw [← Replay.marketOf_eq hm] at h₂
  exact hf s₂ h₂

theorem placeholder_follows (id : OrderId) (side : Option Side) (px qty : UInt32) :
    Follows cfg (s.countPlaceholder px) (a.placeholder (.add id side px qty)) := by
  show Follows cfg _ (if isPlaceholder px then a.withStats (·.countPlaceholder) else a)
  unfold Session.countPlaceholder
  split
  · exact h.count s.stats.countPlaceholder (·.countPlaceholder) rfl rfl rfl rfl
  · exact h

theorem add_answers (hsize : Q → Watching cfg → Reservable cfg.arrayReserve)
    (l : UInt16) (id : OrderId)
    (side : Option Side) (px qty : UInt32)
    (hroom : Q → Watching cfg → ∀ op, (Order.add id side px qty).op = some op →
      ((a.marketOf l).apply op).2.live ≤ nilSlot) :
    Answers Q cfg (a.order l (.add id side px qty)) (s.add l id side px qty) := by
  obtain ⟨s₁, hs₁, h₁⟩ := h.ensureBook l
  have h₂ := placeholder_follows h₁ id side px qty
  simp only [Session.add, hs₁, ok_bind]
  cases side with
  | none =>
    rw [Replay.order_none rfl]
    exact answers_ok rfl (h₂.count (s₁.countPlaceholder px).stats.countBadSide (·.countBadSide)
      rfl rfl rfl rfl)
  | some side =>
    have hm := Replay.market_touch_self a l (.add id (some side) px qty)
    have hroom' : Q → Watching cfg →
        ((a.marketOf l).apply (.add id side px.toInt32 qty)).2.live ≤ nilSlot :=
      fun hq hw => hroom hq hw _ rfl
    refine callRecord h₂ hm _ hroom' fun s₃ h₃ => ?_
    cases hr : ((a.marketOf l).apply (.add id side px.toInt32 qty)).1 with
    | error e =>
      rw [Replay.order_error rfl hr]
      exact answers_ok rfl h₃
    | ok ev =>
      have hm₃ := market_after a l (.add id (some side) px qty) (.add id side px.toInt32 qty)
      rw [Replay.order_ok rfl hr]
      refine (h₃.ensureWindow hm₃ hsize hroom' px).bind fun s₄ h₄ => ?_
      obtain ⟨s₅, hs₅, h₅⟩ := h₄.checkCrossed hm₃
      rw [hs₅]
      exact answers_ok rfl h₅

theorem execute_answers (l : UInt16) (id : OrderId) (qty : UInt32)
    (hroom : Q → Watching cfg → ((a.marketOf l).apply (.execute id qty)).2.live ≤ nilSlot) :
    Answers Q cfg (a.order l (.execute id qty)) (s.execute l id qty) := by
  obtain ⟨s₁, hs₁, h₁⟩ := h.ensureBook l
  have hm := Replay.market_touch_self a l (.execute id qty)
  obtain ⟨b, hb, hrefines⟩ := h₁.bookMut hm
  simp only [Session.execute, hs₁, ok_bind, hb, hrefines.queueAhead_eq]
  refine callRecord h₁ hm _ hroom fun s₂ h₂ => ?_
  cases hr : ((a.marketOf l).apply (.execute id qty)).1 with
  | error e =>
    rw [Replay.order_error rfl hr]
    exact answers_ok rfl h₂
  | ok ev =>
    have hm₂ := market_after a l (.execute id qty) (.execute id qty)
    have hcount := h₂.count (s₂.stats.countExecution ((a.marketOf l).queueAhead id = some 0))
      (.countExecution ((a.marketOf l).queueAhead id = some 0)) rfl rfl rfl rfl
    obtain ⟨s₃, hs₃, h₃⟩ := hcount.checkCrossed hm₂
    rw [Replay.order_ok rfl hr]
    simp only [Except.toOption, hs₃, ok_bind]
    exact Returns.of_ok ⟨rfl, h₃⟩

theorem cancel_answers (l : UInt16) (id : OrderId) (qty : UInt32)
    (hroom : Q → Watching cfg → ((a.marketOf l).apply (.cancel id qty)).2.live ≤ nilSlot) :
    Answers Q cfg (a.order l (.cancel id qty)) (s.cancel l id qty) := by
  obtain ⟨s₁, hs₁, h₁⟩ := h.ensureBook l
  have hm := Replay.market_touch_self a l (.cancel id qty)
  simp only [Session.cancel, hs₁, ok_bind]
  refine callRecord h₁ hm _ hroom fun s₂ h₂ => ?_
  cases hr : ((a.marketOf l).apply (.cancel id qty)).1 with
  | error e =>
    rw [Replay.order_error rfl hr]
    exact answers_ok rfl h₂
  | ok ev =>
    have hm₂ := market_after a l (.cancel id qty) (.cancel id qty)
    have hcount : Follows cfg (s₂.countOverCancel ev qty)
        ((((a.touch l).placeholder (.cancel id qty)).call l (.cancel id qty)).accepted
          (a.marketOf l) ev (.cancel id qty)) := by
      show Follows cfg _ (if ev.qty.toNat < qty.toNat then
        (((a.touch l).placeholder (.cancel id qty)).call l (.cancel id qty)).withStats
          (·.countOverCancel)
        else ((a.touch l).placeholder (.cancel id qty)).call l (.cancel id qty))
      unfold Session.countOverCancel
      split
      · exact h₂.count s₂.stats.countOverCancel (·.countOverCancel) rfl rfl rfl rfl
      · exact h₂
    obtain ⟨s₃, hs₃, h₃⟩ := hcount.checkCrossed (by rw [Replay.market_accepted]; exact hm₂)
    rw [Replay.order_ok rfl hr]
    simp only [Except.toOption, hs₃, ok_bind]
    exact Returns.of_ok ⟨rfl, h₃⟩

theorem delete_answers (l : UInt16) (id : OrderId)
    (hroom : Q → Watching cfg → ((a.marketOf l).apply (.delete id)).2.live ≤ nilSlot) :
    Answers Q cfg (a.order l (.delete id)) (s.delete l id) := by
  obtain ⟨s₁, hs₁, h₁⟩ := h.ensureBook l
  have hm := Replay.market_touch_self a l (.delete id)
  simp only [Session.delete, hs₁, ok_bind]
  refine callRecord h₁ hm _ hroom fun s₂ h₂ => ?_
  cases hr : ((a.marketOf l).apply (.delete id)).1 with
  | error e =>
    rw [Replay.order_error rfl hr]
    exact answers_ok rfl h₂
  | ok ev =>
    obtain ⟨s₃, hs₃, h₃⟩ := h₂.checkCrossed (market_after a l (.delete id) (.delete id))
    rw [Replay.order_ok rfl hr]
    simp only [Except.toOption, hs₃, ok_bind]
    exact Returns.of_ok ⟨rfl, h₃⟩

theorem replace_answers (hsize : Q → Watching cfg → Reservable cfg.arrayReserve) (l : UInt16)
    (old new : OrderId) (px qty : UInt32)
    (hroom : Q → Watching cfg →
      ((a.marketOf l).apply (.replace old new px.toInt32 qty)).2.live ≤ nilSlot) :
    Answers Q cfg (a.order l (.replace old new px qty)) (s.replace l old new px qty) := by
  obtain ⟨s₁, hs₁, h₁⟩ := h.ensureBook l
  have hm := Replay.market_touch_self a l (.replace old new px qty)
  simp only [Session.replace, hs₁, ok_bind]
  refine callRecord h₁ hm _ hroom fun s₂ h₂ => ?_
  cases hr : ((a.marketOf l).apply (.replace old new px.toInt32 qty)).1 with
  | error e =>
    rw [Replay.order_error rfl hr]
    exact answers_ok rfl h₂
  | ok ev =>
    have hm₂ := market_after a l (.replace old new px qty) (.replace old new px.toInt32 qty)
    rw [Replay.order_ok rfl hr]
    refine (h₂.ensureWindow hm₂ hsize hroom px).bind fun s₃ h₃ => ?_
    obtain ⟨s₄, hs₄, h₄⟩ := h₃.checkCrossed hm₂
    rw [hs₄]
    exact answers_ok rfl h₄

theorem system_follows (code : UInt8) (ts : UInt64) :
    Follows cfg (s.system code ts) (a.dispatch (.system code ts)).2 :=
  { h with
    sState := rfl
    afterQ := by rw [Session.system, h.afterQ]; rfl
    sized := ⟨h.sized.byType, h.sized.byTypeHour, h.sized.row⟩
    stats := by
      show ({ s.stats with sEvents := s.stats.sEvents ++ [(code, ts)] } : Stats).portable =
        { a.stats with sEvents := a.stats.sEvents ++ [(code, ts)] }
      rw [← h.stats]
      rfl }

theorem action_answers (l : UInt16) (state : UInt8) :
    ∃ s', s.action l state = .ok s' ∧ Follows cfg s' (a.dispatch (.action l state)).2 := by
  obtain ⟨hgrow, hlt, -⟩ := h.ensureLocate l
  obtain ⟨s', hs', h', -⟩ := hgrow.atLocate hlt
    (f := fun ls => { ls with hState := state, msgs := ls.msgs + 1 })
    (g := fun ls => { ls with hState := state, msgs := ls.msgs + 1 }) fun _ => rfl
  exact ⟨s', hs', h'⟩

theorem print_answers (l : Option UInt16) :
    ∃ s', s.countPrint l = .ok s' ∧ Follows cfg s' (a.print l) := by
  cases l with
  | none => exact ⟨s, rfl, h⟩
  | some l =>
    by_cases hl : l.toNat < s.books.length
    · obtain ⟨s', hs', h', -⟩ := h.atLocate hl (f := fun ls => { ls with msgs := ls.msgs + 1 })
        (g := fun ls => { ls with msgs := ls.msgs + 1 }) fun _ => rfl
      exact ⟨s', by rw [Session.countPrint, if_pos (by rw [h.locates_length]; exact hl), hs'], h'⟩
    · have hlen : a.stats.locates.length ≤ l.toNat := by
        rw [← h.stats, Stats.portable, List.length_map, h.locates_length]
        exact not_lt.mp hl
      have hsame : a.print (some l) = a := by
        simp only [Replay.print, Replay.withStats, Stats.onLocate, List.modify_eq_self hlen]
      exact ⟨s, by rw [Session.countPrint, if_neg (by rw [h.locates_length]; exact hl)],
        hsame.symm ▸ h⟩

end Orders

/-- No market has more orders than a slab has slots. -/
def Fits (a : Replay) : Prop := ∀ l m, a.market l = some m → m.live ≤ nilSlot

theorem room_of_fits {a : Replay} {l : UInt16} {o : Order} (h : Fits (a.order l o).2) {op : Op}
    (ho : o.op = some op) : ((a.marketOf l).apply op).2.live ≤ nilSlot := by
  refine h l.toNat _ ?_
  rw [Replay.market_order, ho, Function.update_self]
  rfl

/-- Every handler, on the fields of its message. -/
theorem perform_answers {Q : Prop} {cfg : SessionConfig} {s : Session} {a : Replay}
    (h : Follows cfg s a) (hsize : Q → Watching cfg → Reservable cfg.arrayReserve) (body : Body)
    (hfits : Q → Watching cfg → Fits (a.dispatch body).2) :
    Answers Q cfg (a.dispatch body) (perform s body) := by
  cases body with
  | system code ts => exact answers_ok rfl (system_follows h code ts)
  | directory l stock =>
    obtain ⟨s', hs', h'⟩ := h.directory l stock
    simp only [perform, hs', ok_bind]
    exact answers_ok rfl h'
  | action l state =>
    obtain ⟨s', hs', h'⟩ := action_answers h l state
    simp only [perform, hs', ok_bind]
    exact answers_ok rfl h'
  | order l o =>
    have hroom : Q → Watching cfg → ∀ op, o.op = some op →
        ((a.marketOf l).apply op).2.live ≤ nilSlot :=
          fun hq hw op ho => room_of_fits (hfits hq hw) ho
    cases o with
    | add id side px qty => exact add_answers h hsize l id side px qty hroom
    | execute id qty => exact execute_answers h l id qty fun hq hw => hroom hq hw _ rfl
    | cancel id qty => exact cancel_answers h l id qty fun hq hw => hroom hq hw _ rfl
    | delete id => exact delete_answers h l id fun hq hw => hroom hq hw _ rfl
    | replace old new px qty =>
      exact replace_answers h hsize l old new px qty fun hq hw => hroom hq hw _ rfl
  | print l =>
    obtain ⟨s', hs', h'⟩ := print_answers h l
    simp only [perform, hs', ok_bind]
    exact answers_ok rfl h'
  | unknown =>
    exact answers_ok rfl (h.count s.stats.countUnknownType (·.countUnknownType) rfl rfl rfl rfl)

/-- One message: a session that follows a replay gives its answer and follows it further. -/
theorem applyMsg_answers {Q : Prop} {cfg : SessionConfig} {s : Session} {a : Replay}
    (h : Follows cfg s a) (hsize : Q → Watching cfg → Reservable cfg.arrayReserve) (m : Msg)
    (hfits : Q → Watching cfg → Fits (a.apply (note m)).2) :
    Answers Q cfg (a.apply (note m)) (s.applyMsg m) := by
  have hheader : Follows cfg (noted s (note m))
      (a.withStats (·.noteMessage (note m).ty (note m).ts)) :=
    h.withStats (by cases (note m).ts <;> rfl) (h.sized.noteMessage _ _)
      (Stats.portable_noteMessage _ _ _)
  rw [applyMsg_eq h.sized]
  exact perform_answers hheader hsize (body m) hfits

end Lobcore.SessionSteps
