import Lobcore.SessionSteps
import Lobcore.Writers

/-!
Runs of a session. Fed any messages, a session gives the answers of the replay and follows
it to the end; so no payload makes it panic, and two sessions that differ in the kinds of
their books cannot be told apart. Only the slots of an array book and the size it is
reserved for stand in the way.
-/
namespace Lobcore.SessionRuns

open Checked OrderTypes OrderSlab Markets Payloads SessionStats ArrayBooks Sessions Migrations
open Replays SessionRefines SessionSteps Writers

/-- Fewer than `2 ^ 32 - 1` orders rest in every book. -/
def Roomy (s : Session) : Prop := ∀ l b, s.book l = some b → b.liveOrders < 2 ^ 32 - 1

/-- The live orders of a locate. -/
noncomputable def liveAt (a : Replay) (l : ℕ) : ℕ := ((a.market l).getD .empty).live

theorem liveAt_new (logEvents : Bool) (source : String) (l : ℕ) :
    liveAt (.new logEvents source) l = 0 := Market.live_empty

/-- A message adds at most one live order to a market. -/
theorem liveAt_apply_le (a : Replay) (n : Note) (l : ℕ) :
    liveAt (a.apply n).2 l ≤ liveAt a l + 1 := by
  show ((a.apply n).2.marketAt l).live ≤ _
  rw [Replay.marketAt_apply]
  cases n.body with
  | order l' o =>
    by_cases hl : l = l'.toNat
    · subst hl
      simp only [if_true]
      cases o.op with
      | none => exact Nat.le_succ _
      | some op => exact Market.live_apply_le _ op
    · simp only [if_neg hl]
      exact Nat.le_succ _
  | _ => exact Nat.le_succ _

theorem live_apply_le {a : Replay} {n : Note} {l : ℕ} {m : Market}
    (hm : (a.apply n).2.market l = some m) : m.live ≤ liveAt a l + 1 := by
  have hle := liveAt_apply_le a n l
  rw [liveAt, hm] at hle
  exact hle

theorem liveAt_of_follows {cfg : SessionConfig} {s : Session} {a : Replay} (h : Follows cfg s a)
    (l : ℕ) : liveAt a l = (s.book l).elim 0 LocateBook.liveOrders := by
  cases hm : a.market l with
  | none =>
    rw [h.book_none hm, liveAt, hm]
    exact Market.live_empty
  | some m =>
    obtain ⟨b, hb, hrefines, -, -⟩ := h.book_some hm
    rw [hb, liveAt, hm, Option.elim_some, hrefines.liveOrders_eq]
    rfl

/-- One more message fits after a roomy state. -/
theorem fits_apply {cfg : SessionConfig} {s : Session} {a : Replay} (h : Follows cfg s a)
    (hroom : Roomy s) (n : Note) : Fits (a.apply n).2 := by
  intro l m hm
  have hle := live_apply_le hm
  have hlive := liveAt_of_follows h l
  unfold nilSlot
  cases hb : s.book l with
  | none =>
    rw [hb, Option.elim_none] at hlive
    omega
  | some b =>
    have hlt := hroom l b hb
    rw [hb, Option.elim_some] at hlive
    omega

/-- A run of messages: the session answers as the replay does and follows it to the end. -/
theorem run_answers {Q : Prop} {cfg : SessionConfig} {s : Session} {a : Replay}
    (h : Follows cfg s a) (hsize : Q → Watching cfg → Reservable cfg.arrayReserve)
    {ms : List Msg}
    (hfits : Q → Watching cfg → ∀ pre, pre <+: ms → Fits (a.applyAll (pre.map note)).2) :
    Returns Q (fun p => p.1 = (a.applyAll (ms.map note)).1 ∧
      Follows cfg p.2 (a.applyAll (ms.map note)).2) (run Session.applyMsg s ms) := by
  induction ms generalizing s a with
  | nil => exact Returns.of_ok ⟨rfl, h⟩
  | cons m ms ih =>
    have hfirst : Q → Watching cfg → Fits (a.apply (note m)).2 := fun hq hw =>
      hfits hq hw [m] (List.cons_prefix_cons.mpr ⟨rfl, List.nil_prefix⟩)
    refine (applyMsg_answers h hsize m hfirst).bind fun p hp => ?_
    obtain ⟨b, s₁⟩ := p
    obtain ⟨rfl, h₁⟩ := hp
    refine (ih h₁ fun hq hw pre hpre => ?_).bind fun q hq => ?_
    · exact hfits hq hw (m :: pre) (List.cons_prefix_cons.mpr ⟨rfl, hpre⟩)
    · obtain ⟨answers, s₂⟩ := q
      obtain ⟨rfl, h₂⟩ := hq
      exact Returns.of_ok ⟨rfl, h₂⟩

/-- Room before every message leaves the markets within their slabs after it. -/
theorem fits_along {cfg : SessionConfig} {s : Session} {a : Replay} (h : Follows cfg s a)
    (hsize : Watching cfg → Reservable cfg.arrayReserve) {ms : List Msg}
    (hbound : Along Session.applyMsg Roomy s ms) (hfit : Fits a) :
    ∀ pre, pre <+: ms → Fits (a.applyAll (pre.map note)).2 := by
  induction ms generalizing s a with
  | nil =>
    intro pre hpre
    obtain rfl := List.prefix_nil.mp hpre
    exact hfit
  | cons m ms ih =>
    intro pre hpre
    cases pre with
    | nil => exact hfit
    | cons m' pre =>
      obtain ⟨rfl, hrest⟩ := List.cons_prefix_cons.mp hpre
      have hnext := fits_apply h hbound.head (note m')
      obtain ⟨⟨b, s₁⟩, hstep, -, h₁⟩ :=
        (applyMsg_answers (Q := True) h (fun _ => hsize) m' fun _ _ => hnext).ok_of trivial
      exact ih h₁ (hbound.tail hstep) hnext pre hrest

theorem fits_new (logEvents : Bool) (source : String) : Fits (.new logEvents source) := by
  intro l m hm
  simp [Replay.new] at hm

/-- From a new session, with room on the way. -/
theorem run_follows {cfg : SessionConfig} (hcfg : ValidSession cfg)
    (hsize : Watching cfg → Reservable cfg.arrayReserve) {ms : List Msg}
    (hfits : ∀ pre, pre <+: ms →
      Fits ((Replay.new cfg.logEvents cfg.source).applyAll (pre.map note)).2) :
    ∃ s, run Session.applyMsg (.new cfg) ms =
        .ok (((Replay.new cfg.logEvents cfg.source).applyAll (ms.map note)).1, s) ∧
      Follows cfg s ((Replay.new cfg.logEvents cfg.source).applyAll (ms.map note)).2 := by
  obtain ⟨⟨answers, s⟩, hrun, rfl, h⟩ :=
    (run_answers (Q := True) (follows_new hcfg) (fun _ => hsize) fun _ _ => hfits).ok_of trivial
  exact ⟨s, hrun, h⟩

/-- A run that returns follows the replay. -/
theorem follows_of_run {cfg : SessionConfig} (hcfg : ValidSession cfg) {ms : List Msg}
    {out : List Bool} {s : Session} (hrun : run Session.applyMsg (.new cfg) ms = .ok (out, s)) :
    out = ((Replay.new cfg.logEvents cfg.source).applyAll (ms.map note)).1 ∧
      Follows cfg s ((Replay.new cfg.logEvents cfg.source).applyAll (ms.map note)).2 :=
  (run_answers (Q := False) (follows_new hcfg) False.elim False.elim).of_run hrun

/-! Payloads. -/

/-- A payload from a roomy state: parsed or refused, and followed by the replay. -/
theorem applyPayload_follows {cfg : SessionConfig} {s : Session} {a : Replay}
    (h : Follows cfg s a) (hsize : Watching cfg → Reservable cfg.arrayReserve)
    (hroom : Roomy s) (payload : Bytes) :
    ∃ s' a', s.applyPayload payload = .ok ((parse payload).map fun _ => (), s') ∧
      Follows cfg s' a' := by
  cases hparse : parse payload with
  | error e => exact ⟨s, a, by simp only [Session.applyPayload, hparse]; rfl, h⟩
  | ok m =>
    obtain ⟨⟨b, s'⟩, hstep, -, h'⟩ := (applyMsg_answers (Q := True) h (fun _ => hsize) m
      fun _ _ => fits_apply h hroom (note m)).ok_of trivial
    refine ⟨s', _, ?_, h'⟩
    simp only [Session.applyPayload, hparse, hstep, ok_bind]
    rfl

theorem payloads_follow {cfg : SessionConfig} {s : Session} {a : Replay} (h : Follows cfg s a)
    (hsize : Watching cfg → Reservable cfg.arrayReserve) {payloads : List Bytes}
    (hbound : Along Session.applyPayload Roomy s payloads) :
    ∃ s' a', run Session.applyPayload s payloads =
      .ok (payloads.map fun p => (parse p).map fun _ => (), s') ∧ Follows cfg s' a' := by
  induction payloads generalizing s a with
  | nil => exact ⟨s, a, rfl, h⟩
  | cons p payloads ih =>
    obtain ⟨s₁, a₁, hstep, h₁⟩ := applyPayload_follows h hsize hbound.head p
    obtain ⟨s₂, a₂, hrest, h₂⟩ := ih h₁ (hbound.tail hstep)
    exact ⟨s₂, a₂, run_cons_ok hstep hrest, h₂⟩

/-- Closing one locate returns and leaves a counter for every locate. -/
theorem closeLocate_ok (hash : Bytes → Bytes) {n : ℕ} {acc : Stats × Bytes}
    (hlen : acc.1.locates.length = n) {slot : Option LocateBook × ℕ} (hslot : slot.2 < n)
    (hbook : ∀ b, slot.1 = some b → ∃ m, b.Refines m) :
    ∃ next, Session.closeLocate hash acc slot = .ok next ∧ next.1.locates.length = n := by
  obtain ⟨slot, i⟩ := slot
  cases slot with
  | none => exact ⟨acc, rfl, hlen⟩
  | some b =>
    obtain ⟨m, hm⟩ := hbook b rfl
    have hlt : i < acc.1.locates.length := by rw [hlen]; exact hslot
    simp only [Session.closeLocate, hm.stateBytes_eq, ok_bind, Stats.atLocate_ok hlt]
    have hlt' : ∀ f, i < (acc.1.onLocate i f).locates.length := fun f => by
      simpa [Stats.onLocate] using hlt
    cases b with
    | ref r => exact ⟨_, rfl, by simpa [Stats.onLocate] using hlen⟩
    | array ab =>
      simp only [Stats.atLocate_ok (hlt' _), ok_bind]
      exact ⟨_, rfl, by simpa [Stats.onLocate] using hlen⟩

theorem finish_ok {cfg : SessionConfig} {s : Session} {a : Replay} (h : Follows cfg s a)
    (hash : Bytes → Bytes) : ∃ s', s.finish hash = .ok s' := by
  have hfold : ∀ (slots : List (Option LocateBook × ℕ)) (acc : Stats × Bytes),
      acc.1.locates.length = s.books.length →
      (∀ slot ∈ slots, slot.2 < s.books.length ∧ ∀ b, slot.1 = some b → ∃ m, b.Refines m) →
      ∃ last, slots.foldlM (Session.closeLocate hash) acc = .ok last := by
    intro slots
    induction slots with
    | nil => exact fun acc _ _ => ⟨acc, rfl⟩
    | cons slot slots ih =>
      intro acc hlen hslots
      obtain ⟨hlt, hbook⟩ := hslots slot (List.mem_cons_self ..)
      obtain ⟨next, hnext, hlen'⟩ := closeLocate_ok hash hlen hlt hbook
      obtain ⟨last, hlast⟩ := ih next hlen' fun slot' h' =>
        hslots slot' (List.mem_cons_of_mem _ h')
      exact ⟨last, by rw [List.foldlM_cons, hnext, ok_bind, hlast]⟩
  obtain ⟨⟨st, all⟩, hlast⟩ := hfold s.books.zipIdx (s.stats, []) h.locates_length (by
    intro slot hslot
    have hget := List.mem_zipIdx_iff_getElem?.mp hslot
    refine ⟨(List.getElem?_eq_some_iff.mp hget).1, fun b hb => ?_⟩
    have hopen : s.book slot.2 = some b := by rw [Session.book, hget, hb, Option.join_some]
    obtain ⟨m, -, hrefines⟩ := h.refines hopen
    exact ⟨m, hrefines⟩)
  exact ⟨_, by rw [Session.finish, hlast, ok_bind]; rfl⟩

/-- A payload that does not parse leaves the session as it is. -/
theorem unparsed_changes_nothing {s s' : Session} {payload : Bytes} {e : ParseError}
    (h : s.applyPayload payload = .ok (.error e, s')) : s' = s := by
  unfold Session.applyPayload at h
  cases hparse : parse payload with
  | error e' =>
    simp only [hparse] at h
    exact (Prod.mk.inj (Except.ok.inj h)).2.symm
  | ok m =>
    simp only [hparse] at h
    obtain ⟨⟨b, s₁⟩, -, h⟩ := bind_eq_ok.mp h
    cases (Prod.mk.inj (Except.ok.inj h)).1

/-- A run shorter than the slab has room throughout. -/
theorem along_of_few {ι ρ : Type} {step : Session → ι → Exec (ρ × Session)} {cfg : SessionConfig}
    (hstep : ∀ s a i r s', Follows cfg s a → step s i = .ok (r, s') →
      ∃ a', Follows cfg s' a' ∧ ∀ l, liveAt a' l ≤ liveAt a l + 1)
    {s : Session} {a : Replay} (h : Follows cfg s a) {k : ℕ} (hlive : ∀ l, liveAt a l ≤ k)
    {is : List ι} (hlen : k + is.length < 2 ^ 32 - 1) : Along step Roomy s is := by
  have hroom : Roomy s := by
    intro l b hb
    have hle := hlive l
    rw [liveAt_of_follows h, hb, Option.elim_some] at hle
    omega
  intro pre out t hpre hrun
  induction pre generalizing s a k is out with
  | nil => exact (Prod.mk.inj (Except.ok.inj hrun)).2 ▸ hroom
  | cons i pre ih =>
    obtain ⟨is, rfl⟩ : ∃ js, is = i :: js := by
      obtain ⟨post, rfl⟩ := hpre
      exact ⟨pre ++ post, rfl⟩
    obtain ⟨r, rs, s₁, hfirst, hrest, -⟩ := run_cons_eq_ok.mp hrun
    obtain ⟨a₁, h₁, hle⟩ := hstep s a i r s₁ h hfirst
    have hlive₁ : ∀ l, liveAt a₁ l ≤ k + 1 := fun l => (hle l).trans (Nat.succ_le_succ (hlive l))
    rw [List.length_cons] at hlen
    refine ih h₁ hlive₁ (by omega) (fun l b hb => ?_) rs (List.cons_prefix_cons.mp hpre).2 hrest
    have hle₁ := hlive₁ l
    rw [liveAt_of_follows h₁, hb, Option.elim_some] at hle₁
    omega

theorem message_step {cfg : SessionConfig} (s : Session) (a : Replay) (m : Msg) (b : Bool)
    (s' : Session) (h : Follows cfg s a) (hrun : s.applyMsg m = .ok (b, s')) :
    ∃ a', Follows cfg s' a' ∧ ∀ l, liveAt a' l ≤ liveAt a l + 1 :=
  ⟨_, ((applyMsg_answers (Q := False) h False.elim m False.elim).of_run hrun).2,
    liveAt_apply_le a (note m)⟩

theorem payload_step {cfg : SessionConfig} (s : Session) (a : Replay) (p : Bytes)
    (r : Except ParseError Unit) (s' : Session) (h : Follows cfg s a)
    (hrun : s.applyPayload p = .ok (r, s')) :
    ∃ a', Follows cfg s' a' ∧ ∀ l, liveAt a' l ≤ liveAt a l + 1 := by
  unfold Session.applyPayload at hrun
  cases hparse : parse p with
  | error e =>
    simp only [hparse] at hrun
    obtain ⟨-, rfl⟩ := Prod.mk.inj (Except.ok.inj hrun)
    exact ⟨a, h, fun l => Nat.le_succ _⟩
  | ok m =>
    simp only [hparse] at hrun
    obtain ⟨⟨b, s₁⟩, hstep, hrest⟩ := bind_eq_ok.mp hrun
    obtain ⟨-, rfl⟩ := Prod.mk.inj (Except.ok.inj hrest)
    exact message_step s a m b s₁ h hstep

/-- No payloads make a session panic, nor its close: every access of a view is inside its
payload, every locate and histogram index exists, and the books assert nothing wrong. -/
theorem payloads_never_abort {cfg : SessionConfig} (hcfg : ValidSession cfg)
    (hsize : Watching cfg → Reservable cfg.arrayReserve) (payloads : List Bytes)
    (hbound : Along Session.applyPayload Roomy (.new cfg) payloads) :
    (∃ s, run Session.applyPayload (.new cfg) payloads =
        .ok (payloads.map fun p => (parse p).map fun _ => (), s) ∧
      ∀ hash, ∃ s', s.finish hash = .ok s') ∧
    (∀ (s s' : Session) payload e, s.applyPayload payload = .ok (.error e, s') → s' = s) ∧
    ∀ payload m, parse payload = .ok m → m.Readable := by
  obtain ⟨s, a, hrun, h⟩ := payloads_follow (follows_new hcfg) hsize hbound
  exact ⟨⟨s, hrun, finish_ok h⟩, fun s s' payload e => unparsed_changes_nothing,
    fun _ m _ => m.readable⟩

/-- All stocks on the watch, with windows of four levels. -/
def watchEvery (reserve : ℕ) : SessionConfig := ⟨⟨[], [], true⟩, 4, reserve, "day", true⟩

theorem watchEvery_valid (reserve : ℕ) : ValidSession (watchEvery reserve) where
  window_pos := (by decide : 1 ≤ 4)
  window_le := (by decide : 4 ≤ 4096)

theorem reservable_small : Reservable 64 := ⟨by decide, by decide⟩

/-- A stock name of blanks. -/
def blank : Alpha 8 := ⟨List.replicate 8 32, length_blank⟩

/-- A buy order for five shares at one dollar. -/
def firstAdd : Bytes := payload 'A' ⟨1, 0, 0⟩ (addFields 7 66 5 blank 10000)

theorem payloads_never_abort_mixed :
    (∃ s, run Session.applyPayload (.new (watchEvery 64)) [firstAdd, [], [68, 0], firstAdd] =
        .ok ([.ok (), .error .empty, .error (.length 68 2), .ok ()], s) ∧
      ∀ hash, ∃ s', s.finish hash = .ok s') ∧
    (∀ (s s' : Session) payload e, s.applyPayload payload = .ok (.error e, s') → s' = s) ∧
    ∀ payload m, parse payload = .ok m → m.Readable :=
  payloads_never_abort (watchEvery_valid 64) (fun _ => reservable_small)
    [firstAdd, [], [68, 0], firstAdd] (along_of_few payload_step (follows_new (watchEvery_valid 64))
      (fun l => (liveAt_new _ _ l).le) (by decide))

/-- A reserve that no vector can hold makes the first array book abort. -/
theorem huge_reserve_aborts : ValidSession (watchEvery usizeMax) ∧
    Along Session.applyPayload Roomy (.new (watchEvery usizeMax)) [firstAdd] ∧
    ∃ e, run Session.applyPayload (.new (watchEvery usizeMax)) [firstAdd] = .error e :=
  ⟨watchEvery_valid usizeMax, along_of_few payload_step (follows_new (watchEvery_valid usizeMax))
    (fun l => (liveAt_new _ _ l).le) (by decide), error_of_panics (by decide +kernel)⟩

/-! Two sessions on one sequence of messages. -/

/-- Two sessions show the same, array windows apart. -/
structure Alike (s s' : Session) : Prop where
  log : s.log = s'.log
  books : ∀ l, Option.Rel (fun b b' => ∃ v, b.snapshot = .ok v ∧ b'.snapshot = .ok v)
    (s.book l) (s'.book l)
  stats : s.stats.portable = s'.stats.portable

theorem alike_of_follows {cfg cfg' : SessionConfig} {s s' : Session} {a : Replay}
    (h : Follows cfg s a) (h' : Follows cfg' s' a) : Alike s s' where
  log := h.log.trans h'.log.symm
  stats := h.stats.trans h'.stats.symm
  books l := by
    cases hm : a.market l with
    | none =>
      rw [h.book_none hm, h'.book_none hm]
      exact Option.Rel.none
    | some m =>
      obtain ⟨b, hb, hrefines, -⟩ := h.book_some hm
      obtain ⟨b', hb', hrefines', -⟩ := h'.book_some hm
      rw [hb, hb']
      exact Option.Rel.some ⟨_, hrefines.snapshot_eq, hrefines'.snapshot_eq⟩

/-- The same session, but for the watchlist and the array windows. -/
def rewindow (cfg : SessionConfig) (watchlist : Watchlist) (arrayWindow arrayReserve : ℕ) :
    SessionConfig := { cfg with watchlist, arrayWindow, arrayReserve }

/-- The kind of a book does not show: two sessions that differ in watchlist and window give
the same answers, log the same events and stand alike after any messages that neither
panics on; and neither does, as long as the array books can be reserved and have room. -/
theorem book_kind_is_transparent {cfg : SessionConfig} (watchlist : Watchlist)
    (arrayWindow arrayReserve : ℕ) (hcfg : ValidSession cfg)
    (hcfg' : ValidSession (rewindow cfg watchlist arrayWindow arrayReserve)) (ms : List Msg) :
    (∀ out s out' s', run Session.applyMsg (.new cfg) ms = .ok (out, s) →
      run Session.applyMsg (.new (rewindow cfg watchlist arrayWindow arrayReserve)) ms =
        .ok (out', s') → out = out' ∧ Alike s s') ∧
    ((Watching cfg → Reservable cfg.arrayReserve) →
      (Watching (rewindow cfg watchlist arrayWindow arrayReserve) → Reservable arrayReserve) →
      Along Session.applyMsg Roomy (.new cfg) ms →
      ∃ out s s', run Session.applyMsg (.new cfg) ms = .ok (out, s) ∧
        run Session.applyMsg (.new (rewindow cfg watchlist arrayWindow arrayReserve)) ms =
          .ok (out, s') ∧ Alike s s') := by
  constructor
  · intro out s out' s' hrun hrun'
    obtain ⟨rfl, h⟩ := follows_of_run hcfg hrun
    obtain ⟨rfl, h'⟩ := follows_of_run hcfg' hrun'
    exact ⟨rfl, alike_of_follows h h'⟩
  · intro hsize hsize' hbound
    have hfits := fits_along (follows_new hcfg) hsize hbound (fits_new _ _)
    obtain ⟨s, hrun, h⟩ := run_follows hcfg hsize hfits
    obtain ⟨s', hrun', h'⟩ := run_follows hcfg' hsize' hfits
    exact ⟨_, s, s', hrun, hrun', alike_of_follows h h'⟩

/-- The message of the first order. -/
def firstMsg : Msg := addMsg ⟨1, 0, 0⟩ 7 66 5 blank 10000

theorem book_kind_is_transparent_first : ∃ out s s',
    run Session.applyMsg (.new (watchEvery 64)) [firstMsg, firstMsg] = .ok (out, s) ∧
      run Session.applyMsg (.new (rewindow (watchEvery 64) ⟨[], [], false⟩ 1 0))
        [firstMsg, firstMsg] = .ok (out, s') ∧ Alike s s' :=
  (book_kind_is_transparent ⟨[], [], false⟩ 1 0 (watchEvery_valid 64)
    ⟨(by decide : 1 ≤ 1), (by decide : 1 ≤ 4096)⟩
    [firstMsg, firstMsg]).2 (fun _ => reservable_small) (fun _ => ⟨by decide, by decide⟩)
    (along_of_few message_step (follows_new (watchEvery_valid 64))
      (fun l => (liveAt_new _ _ l).le) (by decide))

/-- A reserve that no vector can hold tells the two kinds apart. -/
theorem huge_reserve_tells_kinds_apart :
    (∃ out s, run Session.applyMsg (.new (watchEvery 64)) [firstMsg] = .ok (out, s)) ∧
    ∃ e, run Session.applyMsg (.new (rewindow (watchEvery 64) ⟨[], [], true⟩ 4 usizeMax))
      [firstMsg] = .error e := by
  obtain ⟨⟨out, s⟩, hrun⟩ := ok_of_not_panics
    (x := run Session.applyMsg (.new (watchEvery 64)) [firstMsg]) (by decide +kernel)
  exact ⟨⟨out, s, hrun⟩, error_of_panics (by decide +kernel)⟩

end Lobcore.SessionRuns
