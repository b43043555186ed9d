import Lobcore.Migrations
import Lobcore.Replays

/-!
Sessions against replays. A session follows a replay when each of its books follows the
market of the locate and its counters are the replay's, array windows apart. Every step of a
session returns and keeps this, whatever the watchlist and the window are, as long as no
market outgrows a slab.
-/
namespace Lobcore.SessionRefines

open Checked OrderTypes OrderSlab Markets Payloads SessionStats ArrayBooks Sessions Migrations
open Replays

/-- The watchlist can put some locate on the watch. -/
def Watching (cfg : SessionConfig) : Prop := ∃ l symbol, cfg.watchlist.matchesLocate l symbol = true

structure Follows (cfg : SessionConfig) (s : Session) (a : Replay) : Prop where
  cfg_eq : s.cfg = cfg
  valid : ValidSession cfg
  watching : ∀ l : ℕ, s.watched[l]? = some true → Watching cfg
  kinds : ∀ l ab, s.book l = some (.array ab) → Watching cfg
  books_le : s.books.length ≤ 2 ^ 16
  watched_length : s.watched.length = s.books.length
  locates_length : s.stats.locates.length = s.books.length
  sized : s.stats.Sized
  books : ∀ l, Option.Rel LocateBook.Refines (s.book l) (a.market l)
  logEvents : cfg.logEvents = a.logEvents
  sState : s.sState = a.sState
  afterQ : s.afterQ = a.afterQ
  log : s.log = a.log
  stats : s.stats.portable = a.stats

theorem follows_new {cfg : SessionConfig} (hcfg : ValidSession cfg) :
    Follows cfg (.new cfg) (.new cfg.logEvents cfg.source) where
  cfg_eq := rfl
  valid := hcfg
  watching l hl := by simp [Session.new] at hl
  kinds l ab hl := by simp [Session.new, Session.book] at hl
  books_le := Nat.zero_le _
  watched_length := rfl
  locates_length := rfl
  sized := Stats.sized_new _ _
  books _ := Option.Rel.none
  logEvents := rfl
  sState := rfl
  afterQ := rfl
  log := rfl
  stats := rfl

section Steps

variable {cfg : SessionConfig} {s : Session} {a : Replay} (h : Follows cfg s a)

include h

/-- Counters that move alike. -/
theorem Follows.withStats {st : Stats} {f : Stats → Stats}
    (hlen : st.locates.length = s.stats.locates.length) (hsized : st.Sized)
    (hport : st.portable = f s.stats.portable) :
    Follows cfg { s with stats := st } (a.withStats f) where
  cfg_eq := h.cfg_eq
  valid := h.valid
  watching := h.watching
  kinds := h.kinds
  books_le := h.books_le
  watched_length := h.watched_length
  locates_length := hlen.trans h.locates_length
  sized := hsized
  books := h.books
  logEvents := h.logEvents
  sState := h.sState
  afterQ := h.afterQ
  log := h.log
  stats := by rw [hport, h.stats]; rfl

/-- One plain counter more. -/
theorem Follows.count (st : Stats) (f : Stats → Stats) (hlocates : st.locates = s.stats.locates)
    (htype : st.byType = s.stats.byType) (hhour : st.byTypeHour = s.stats.byTypeHour)
    (hport : st.portable = f s.stats.portable) :
    Follows cfg { s with stats := st } (a.withStats f) :=
  h.withStats (by rw [hlocates])
    ⟨htype ▸ h.sized.byType, hhour ▸ h.sized.byTypeHour, hhour ▸ h.sized.row⟩ hport

theorem Follows.book_some {l : ℕ} {m : Market} (hm : a.market l = some m) :
    ∃ b, s.book l = some b ∧ b.Refines m ∧ s.books[l]? = some (some b) ∧ l < s.books.length := by
  have hrel := h.books l
  rw [hm] at hrel
  cases hb : s.book l with
  | none =>
    rw [hb] at hrel
    cases hrel
  | some b =>
    rw [hb] at hrel
    cases hrel with
    | some hrel =>
      have hget : s.books[l]? = some (some b) := Option.join_eq_some_iff.mp hb
      exact ⟨b, rfl, hrel, hget, (List.getElem?_eq_some_iff.mp hget).1⟩

theorem Follows.refines {l : ℕ} {b : LocateBook} (hb : s.book l = some b) :
    ∃ m, a.market l = some m ∧ b.Refines m := by
  have hrel := h.books l
  rw [hb] at hrel
  cases hm : a.market l with
  | none =>
    rw [hm] at hrel
    cases hrel
  | some m =>
    rw [hm] at hrel
    cases hrel with
    | some hrel => exact ⟨m, rfl, hrel⟩

theorem Follows.book_none {l : ℕ} (hm : a.market l = none) : s.book l = none := by
  have hrel := h.books l
  rw [hm] at hrel
  cases hb : s.book l with
  | none => rfl
  | some b =>
    rw [hb] at hrel
    cases hrel

/-- An update of a locate's counters. -/
theorem Follows.atLocate {l : UInt16} (hl : l.toNat < s.books.length)
    {f g : LocateStats → LocateStats} (hfg : ∀ ls, (f ls).portable = g ls.portable) :
    ∃ s', s.atLocate l f = .ok s' ∧ Follows cfg s' (a.withStats (·.onLocate l.toNat g)) ∧
      s'.books = s.books := by
  refine ⟨{ s with stats := s.stats.onLocate l.toNat f }, ?_, ?_, rfl⟩
  · rw [Session.atLocate, Stats.atLocate_ok (by rw [h.locates_length]; exact hl)]
    rfl
  · exact h.withStats (List.length_modify ..) ⟨h.sized.byType, h.sized.byTypeHour, h.sized.row⟩
      (Stats.portable_onLocate s.stats l.toNat hfg)

/-- An update that only concerns the locate's array window. -/
theorem Follows.atLocate_window {l : UInt16} (hl : l.toNat < s.books.length)
    {f : LocateStats → LocateStats} (hf : ∀ ls, (f ls).portable = ls.portable) :
    ∃ s', s.atLocate l f = .ok s' ∧ Follows cfg s' a ∧ s'.books = s.books := by
  refine ⟨{ s with stats := s.stats.onLocate l.toNat f }, ?_, ?_, rfl⟩
  · rw [Session.atLocate, Stats.atLocate_ok (by rw [h.locates_length]; exact hl)]
    rfl
  · exact show Follows cfg { s with stats := s.stats.onLocate l.toNat f } (a.withStats id) from
      h.withStats (List.length_modify ..) ⟨h.sized.byType, h.sized.byTypeHour, h.sized.row⟩
        (Stats.portable_onLocate_window s.stats l.toNat hf)

theorem Follows.ensureLocate (l : UInt16) :
    Follows cfg (s.ensureLocate l) (a.withStats (·.grow l.toNat)) ∧
      l.toNat < (s.ensureLocate l).books.length ∧ (s.ensureLocate l).cfg = s.cfg := by
  have hgrow : s.ensureLocate l = { s with
      books := growTo s.books (l.toNat + 1) none
      watched := growTo s.watched (l.toNat + 1) false
      stats := s.stats.grow l.toNat } := by
    by_cases hlt : s.books.length < l.toNat + 1
    · simp only [Session.ensureLocate, growTo, Stats.grow, h.watched_length, h.locates_length,
        if_pos hlt]
    · simp only [Session.ensureLocate, growTo, Stats.grow, h.watched_length, h.locates_length,
        if_neg hlt]
  have hbook : ∀ i, (growTo s.books (l.toNat + 1) none)[i]?.join = s.book i := by
    intro i
    rw [growTo_getElem?, Session.book]
    split
    · rfl
    · rename_i hi
      rw [List.getElem?_eq_none (not_lt.mp hi)]
      split <;> rfl
  rw [hgrow]
  refine ⟨⟨h.cfg_eq, h.valid, fun i hi => ?_, fun i ab hi => h.kinds i ab ((hbook i).symm.trans hi),
    ?_, ?_, ?_, ⟨h.sized.byType, h.sized.byTypeHour, h.sized.row⟩, fun i => ?_,
    h.logEvents, h.sState, h.afterQ, h.log, ?_⟩, ?_, rfl⟩
  · refine h.watching i ?_
    have hi' : (growTo s.watched (l.toNat + 1) false)[i]? = some true := hi
    rw [growTo_getElem?] at hi'
    split at hi'
    · exact hi'
    · split at hi' <;> simp at hi'
  · show (growTo s.books _ _).length ≤ 2 ^ 16
    have hlt : l.toNat < 2 ^ 16 := l.toNat_lt
    have hle := h.books_le
    rw [length_growTo]
    omega
  · show (growTo s.watched _ _).length = (growTo s.books _ _).length
    rw [length_growTo, length_growTo, h.watched_length]
  · show (growTo s.stats.locates _ _).length = (growTo s.books _ _).length
    rw [length_growTo, length_growTo, h.locates_length]
  · show Option.Rel LocateBook.Refines (growTo s.books (l.toNat + 1) none)[i]?.join (a.market i)
    rw [hbook i]
    exact h.books i
  · show (s.stats.grow l.toNat).portable = _
    rw [Stats.portable_grow, h.stats]
    rfl
  · show l.toNat < (growTo s.books _ _).length
    rw [length_growTo]
    omega

theorem Follows.watch {l : UInt16} (hl : l.toNat < s.books.length) (symbol : Option Bytes) :
    ∃ s', s.watch l symbol = .ok s' ∧ Follows cfg s' a ∧ s'.books = s.books := by
  unfold Session.watch
  split
  · rename_i hmatch
    have hstore := store_ok
      (show l.toNat < s.watched.length by rw [h.watched_length]; exact hl) true
    have hwatched : Follows cfg { s with watched := s.watched.set l.toNat true } a :=
      { h with
        watching := fun _ _ => ⟨l, symbol, h.cfg_eq ▸ hmatch⟩
        watched_length := by simpa using h.watched_length }
    obtain ⟨s', hs', hfollow, hbooks⟩ := hwatched.atLocate_window hl
      (f := fun ls => { ls with watched := true }) fun _ => rfl
    exact ⟨s', by rw [hstore, ok_bind, hs'], hfollow, hbooks⟩
  · exact ⟨s, rfl, h, rfl⟩

/-- Writing a book that follows a market. -/
theorem Follows.setBook {l : UInt16} (hl : l.toNat < s.books.length) {b : LocateBook} {m : Market}
    (hb : b.Refines m) (hkind : ∀ ab, b = .array ab → Watching cfg) :
    Follows cfg { s with books := s.books.set l.toNat (some b) } (a.setMarket l m) :=
  { h with
    kinds := by
      intro i ab hi
      simp only [Session.book, List.getElem?_set] at hi
      by_cases hil : l.toNat = i
      · rw [if_pos hil, if_pos hl] at hi
        exact hkind ab (Option.some.inj hi)
      · rw [if_neg hil] at hi
        exact h.kinds i ab hi
    books_le := by simpa using h.books_le
    watched_length := by simpa using h.watched_length
    locates_length := by simpa using h.locates_length
    books := by
      intro i
      simp only [Session.book, Replay.setMarket, Function.update_apply, List.getElem?_set]
      by_cases hi : i = l.toNat
      · subst hi
        simp only [if_true, if_pos hl, Option.join_some]
        exact Option.Rel.some hb
      · simp only [if_neg hi, if_neg (Ne.symm hi)]
        exact h.books i }

theorem Follows.openBook {l : UInt16} (hl : l.toNat < s.books.length)
    (hnone : a.market l.toNat = none) :
    ∃ s', s.openBook l = .ok s' ∧ Follows cfg s' (a.openMarket l) := by
  have hbook := h.setBook hl (b := .ref .new) (m := .empty) LocateBook.refines_new
    fun _ => LocateBook.noConfusion
  obtain ⟨s', hs', hfollow, -⟩ := hbook.atLocate (l := l) (by simpa using hl)
    (f := fun ls => { ls with hasBook := true }) (g := fun ls => { ls with hasBook := true })
    fun _ => rfl
  refine ⟨s', by rw [Session.openBook, store_ok hl, ok_bind, hs'], ?_⟩
  rw [Replay.openMarket, hnone]
  exact hfollow

theorem Follows.index_none {l : ℕ} (hl : l < s.books.length) (hnone : a.market l = none) :
    index s.books l = .ok none := by
  have hbook := h.book_none hnone
  have hget : s.books[l]? = some s.books[l] := List.getElem?_eq_getElem hl
  rw [Session.book, hget, Option.join_some] at hbook
  exact index_ok (hget.trans (congrArg some hbook))

theorem Follows.directory (l : UInt16) (stock : Bytes) :
    ∃ s', s.directory l stock = .ok s' ∧ Follows cfg s' (a.directory l stock) := by
  obtain ⟨hgrow, hlt, -⟩ := h.ensureLocate l
  obtain ⟨s₁, hs₁, h₁, hb₁⟩ := hgrow.atLocate hlt
    (f := fun ls => { ls with symbol := stock, msgs := ls.msgs + 1 })
    (g := fun ls => { ls with symbol := stock, msgs := ls.msgs + 1 }) fun _ => rfl
  obtain ⟨s₂, hs₂, h₂, hb₂⟩ := h₁.watch (l := l) (by rw [hb₁]; exact hlt) (some stock)
  have hlt₂ : l.toNat < s₂.books.length := by rw [hb₂, hb₁]; exact hlt
  simp only [Session.directory, hs₁, ok_bind, hs₂, Replay.directory]
  cases hm : a.market l.toNat with
  | some m =>
    obtain ⟨b, -, -, hget, -⟩ := h₂.book_some hm
    refine ⟨s₂, by rw [index_ok hget]; rfl, ?_⟩
    rw [Replay.openMarket, show ((a.withStats _).withStats _).market l.toNat = some m from hm]
    exact h₂
  | none =>
    obtain ⟨s₃, hs₃, h₃⟩ := h₂.openBook hlt₂ hm
    exact ⟨s₃, by rw [h₂.index_none hlt₂ hm, ok_bind]; exact hs₃, h₃⟩

theorem Follows.ensureBook (l : UInt16) :
    ∃ s', s.ensureBook l = .ok s' ∧ Follows cfg s' (a.touch l) := by
  have hopen : ∃ s' a', s.openMissing l = .ok s' ∧ l.toNat < s'.books.length ∧
      Follows cfg s' a' ∧ a.touch l = a'.withStats fun st =>
        st.onLocate l.toNat fun ls => { ls with msgs := ls.msgs + 1 } := by
    cases hm : a.market l.toNat with
    | some m =>
      obtain ⟨b, hb, -, -, hlt⟩ := h.book_some hm
      exact ⟨s, a, by rw [Session.openMissing, hb], hlt, h, by rw [Replay.touch, hm]⟩
    | none =>
      obtain ⟨hgrow, hlt, -⟩ := h.ensureLocate l
      have hcount := hgrow.count (s.ensureLocate l).stats.countNoDirectory (·.countNoDirectory)
        rfl rfl rfl rfl
      obtain ⟨s₁, hs₁, h₁, hb₁⟩ := hcount.watch hlt none
      obtain ⟨s₂, hs₂, h₂⟩ := h₁.openBook (by rw [hb₁]; exact hlt) hm
      have hmarket : (((a.withStats (·.grow l.toNat)).withStats (·.countNoDirectory)).openMarket
          l).market l.toNat = some .empty := by
        rw [Replay.openMarket, show ((a.withStats _).withStats _).market l.toNat = none from hm]
        exact Function.update_self ..
      obtain ⟨b, -, -, -, hlt₂⟩ := h₂.book_some hmarket
      refine ⟨s₂, _, ?_, hlt₂, h₂, by rw [Replay.touch, hm]⟩
      simp only [Session.openMissing, h.book_none hm, hs₁, ok_bind, hs₂]
  obtain ⟨s₁, a₁, hs₁, hlt, h₁, htouch⟩ := hopen
  obtain ⟨s₂, hs₂, h₂, -⟩ := h₁.atLocate hlt (f := fun ls => { ls with msgs := ls.msgs + 1 })
    (g := fun ls => { ls with msgs := ls.msgs + 1 }) fun _ => rfl
  exact ⟨s₂, by rw [Session.ensureBook, hs₁, ok_bind, hs₂], htouch ▸ h₂⟩

theorem Follows.bookMut {l : UInt16} {m : Market} (hm : a.market l.toNat = some m) :
    ∃ b, s.bookMut l = .ok b ∧ b.Refines m := by
  obtain ⟨b, -, hb, hget, -⟩ := h.book_some hm
  exact ⟨b, by rw [Session.bookMut, index_ok hget]; rfl, hb⟩

theorem Follows.callBook {Q : Prop} {l : UInt16} {m : Market} (hm : a.market l.toNat = some m)
    (op : Op) (hroom : Q → Watching cfg → (m.apply op).2.live ≤ nilSlot) :
    Returns Q (fun p => p.1 = (m.apply op).1 ∧ Follows cfg p.2 (a.setMarket l (m.apply op).2))
      (s.callBook l op) := by
  obtain ⟨b, hbook, hrefines, hget, hlt⟩ := h.book_some hm
  have hb : s.bookMut l = .ok b := by rw [Session.bookMut, index_ok hget]; rfl
  have hwatch : ∀ ab, b = .array ab → Watching cfg := fun ab hab =>
    h.kinds l.toNat ab (hab ▸ hbook)
  simp only [Session.callBook, hb, ok_bind, store_ok hlt]
  refine (hrefines.apply_returns op fun hq ab hab => hroom hq (hwatch ab hab)).bind fun p hp => ?_
  refine Returns.of_ok ⟨hp.1, h.setBook hlt hp.2.1 fun ab hab => ?_⟩
  obtain ⟨ab', hab'⟩ := hp.2.2 ab hab
  exact hwatch ab' hab'

theorem Follows.record {l : UInt16} {m : Market} (hm : a.market l.toNat = some m) (r : Reply) :
    ∃ s', s.record l r = .ok (r.toOption, s') ∧ Follows cfg s' (a.record l r) := by
  obtain ⟨-, -, -, -, hlt⟩ := h.book_some hm
  have hlog : Follows cfg
      (if s.cfg.logEvents then { s with log := s.log.push (loggedEvent r) } else s)
      { a with log := if a.logEvents then a.log.push (loggedEvent r) else a.log } := by
    have hon : s.cfg.logEvents = a.logEvents := by rw [h.cfg_eq, h.logEvents]
    by_cases hlog : a.logEvents
    · rw [if_pos (hon.trans hlog), if_pos hlog]
      exact { h with log := by rw [h.log] }
    · rw [if_neg (hon ▸ hlog), if_neg hlog]
      exact h
  have hlt' : l.toNat <
      (if s.cfg.logEvents then
        { s with log := s.log.push (loggedEvent r) } else s).books.length := by
    split <;> exact hlt
  unfold Session.record
  generalize (if s.cfg.logEvents then { s with log := s.log.push (loggedEvent r) } else s) = s₀ at *
  cases r with
  | error e =>
    refine ⟨_, rfl, ?_⟩
    have hcount := hlog.count (s₀.stats.countError e) (·.countError e)
      (by cases e <;> rfl) (by cases e <;> rfl) (by cases e <;> rfl)
      (Stats.portable_countError s₀.stats e)
    exact hcount
  | ok ev =>
    by_cases hd : liveDelta ev = 0
    · refine ⟨s₀, by simp [hd, Except.toOption], ?_⟩
      simpa [Replay.record, noteReply, hd] using hlog
    · obtain ⟨s₁, hs₁, h₁, -⟩ := hlog.atLocate hlt' (f := .moveLive (liveDelta ev))
        (g := .moveLive (liveDelta ev)) fun _ => rfl
      have hmove := h₁.count (s₁.stats.moveLive (liveDelta ev))
        (.moveLive (liveDelta ev)) rfl rfl rfl (Stats.portable_moveLive _ _)
      refine ⟨{ s₁ with stats := s₁.stats.moveLive (liveDelta ev) }, ?_, ?_⟩
      · simp [hd, hs₁, Except.toOption]
      · simpa [Replay.record, Replay.withStats, noteReply, hd] using hmove

/-- Whatever the window does, the books go on following the markets. -/
theorem Follows.ensureWindow {Q : Prop} {l : UInt16} {m : Market}
    (hm : a.market l.toNat = some m) (hsize : Q → Watching cfg → Reservable cfg.arrayReserve)
    (hroom : Q → Watching cfg → m.live ≤ nilSlot) (px : UInt32) :
    Returns Q (Follows cfg · a) (s.ensureWindow l px) := by
  unfold Session.ensureWindow
  cases hpx : isPlaceholder px with
  | true => exact Returns.of_ok h
  | false =>
    obtain ⟨b, hb, hrefines⟩ := h.bookMut hm
    obtain ⟨-, -, -, -, hlt⟩ := h.book_some hm
    have hltw : l.toNat < s.watched.length := by rw [h.watched_length]; exact hlt
    have hget : s.watched[l.toNat]? = some s.watched[l.toNat] := List.getElem?_eq_getElem hltw
    simp only [Bool.false_eq_true, if_false, Session.ensureArray, index_ok hget, ok_bind]
    cases hon : s.watched[l.toNat] with
    | false => exact Returns.of_ok h
    | true =>
      have hwatch : Watching cfg := h.watching l.toNat (hget.trans (congrArg some hon))
      simp only [not_true_eq_false, if_false, hb, ok_bind]
      cases b with
      | array ab =>
        have htick : ab.config.tick ≠ 0 := by
          obtain ⟨line, free, hrep⟩ := hrefines.shown
          exact hrep.grid.tick_pos.ne'
        obtain ⟨s', hs', h', -⟩ := h.atLocate_window hlt (f := fun ls => { ls with
          maxAbsOffsetReal := max ls.maxAbsOffsetReal
            |(px.toInt32.toInt - ab.config.basePx).tdiv ab.config.tick| }) fun _ => rfl
        simp only [ensure_ok htick, ok_bind]
        exact Returns.of_eq hs' h'
      | ref rb =>
        have hmigrate := migrate_returns h.valid
          (fun hq => hsize hq hwatch) hrefines.shown hrefines.priced
          (fun hq => hroom hq hwatch) hpx
        rw [← h.cfg_eq] at hmigrate
        refine hmigrate.bind fun p hab => ?_
        obtain ⟨k, ab⟩ := p
        have hbook := h.setBook hlt (b := .array ab) ⟨hrefines.priced, hab⟩ fun _ _ => hwatch
        have hsame : a.setMarket l m = a := by
          rw [Replay.setMarket, ← hm, Function.update_eq_self]
        rw [hsame] at hbook
        obtain ⟨s', hs', h', -⟩ := hbook.atLocate_window (l := l) (by simpa using hlt)
          (f := fun ls => { ls with maxAbsOffsetReal := k }) fun _ => rfl
        simp only [store_ok hlt, ok_bind]
        exact Returns.of_eq hs' h'

theorem Follows.countCrossed {l : UInt16} (hlt : l.toNat < s.books.length) :
    ∃ s', s.countCrossed l = .ok s' ∧ Follows cfg s' (a.countCrossed l) := by
  have hltl : l.toNat < s.stats.locates.length := by rw [h.locates_length]; exact hlt
  have hget : s.stats.locates[l.toNat]? = some s.stats.locates[l.toNat] :=
    List.getElem?_eq_getElem hltl
  have hstate : a.stats.stateOf l.toNat = some (letter s.stats.locates[l.toNat].hState) := by
    rw [← h.stats, Stats.stateOf_portable, Stats.stateOf, hget]
    rfl
  cases hq : a.afterQ with
  | false =>
    have hcount := h.count s.stats.countCrossedBeforeQ (·.countCrossedBeforeQ) rfl rfl rfl rfl
    refine ⟨_, ?_, by rw [Replay.countCrossed, hq]; exact hcount⟩
    rw [Session.countCrossed, if_neg (by rw [h.afterQ, hq]; decide)]
  | true =>
    have hcount := h.count
      (s.stats.countCrossedAfterQ (letter s.stats.locates[l.toNat].hState = 'T'))
      (.countCrossedAfterQ (a.stats.stateOf l.toNat = some 'T')) rfl rfl rfl (by
        simp only [hstate, Option.some.injEq]
        rfl)
    refine ⟨_, ?_, by rw [Replay.countCrossed, hq]; exact hcount⟩
    rw [Session.countCrossed, if_pos (by rw [h.afterQ, hq]), index_ok hget]
    rfl

theorem Follows.checkCrossed {l : UInt16} {m : Market} (hm : a.market l.toNat = some m) :
    ∃ s', s.checkCrossed l = .ok s' ∧ Follows cfg s' (a.checkCrossed l) := by
  obtain ⟨b, hb, hrefines⟩ := h.bookMut hm
  obtain ⟨-, -, -, -, hlt⟩ := h.book_some hm
  have hmarket : a.marketOf l = m := by rw [Replay.marketOf, hm]; rfl
  rw [Session.checkCrossed, hb, ok_bind, hrefines.l1_eq, ok_bind, Replay.checkCrossed, hmarket]
  rcases m.l1 with ⟨_ | bid, _ | ask⟩
  · exact ⟨s, rfl, by rw [if_neg (by simp [Replay.Crossed])]; exact h⟩
  · exact ⟨s, rfl, by rw [if_neg (by simp [Replay.Crossed])]; exact h⟩
  · exact ⟨s, rfl, by rw [if_neg (by simp [Replay.Crossed])]; exact h⟩
  · by_cases hcross : ask.1 ≤ bid.1
    · rw [if_pos (show Replay.Crossed (some bid, some ask) from ⟨bid, ask, rfl, hcross⟩)]
      simpa only [if_pos hcross] using h.countCrossed hlt
    · have hnot : ¬ Replay.Crossed (some bid, some ask) := by
        rintro ⟨bid', ask', heq, hle⟩
        obtain ⟨rfl, rfl⟩ := Prod.mk.inj heq |>.imp Option.some.inj Option.some.inj
        exact hcross hle
      rw [if_neg hnot]
      exact ⟨s, by simp only [if_neg hcross, pure_eq_ok], h⟩

end Steps

end Lobcore.SessionRefines
