import Lobcore.SamplingCadences
import Lobcore.SessionDirectories

/-!
Watching is looking. `replay_itch` with a watchlist runs the watched locates on array books and
samples only those; without one it samples every locate on reference books. Both loops run side by
side over the same messages: their books show the same, the samplers of the watched locates move
alike, and so the rows of the watched replay are those of the other one that are for its locates,
in the same order and with the same cells.
-/
namespace Lobcore.WatchedRows

open Checked OrderTypes Payloads SessionStats Sessions Migrations Replays Interleavings Handlers
open Desks DeskSteps SessionRefines SessionSteps SessionRuns LocateIsolation Closings ReplayColumns
open SampledRows SamplingCadences ArrayBooks SessionDirectories

/-- The same request without a watchlist. -/
def everywhere (r : Request) : Request := { r with watchlist := ⟨[], [], false⟩ }

/-- The locates of `seen`, and one more. -/
def mark (seen : UInt16 → Bool) (l : UInt16) : UInt16 → Bool := fun k => k = l || seen k

/-- The messages agree with `w` on which locates are watched: every directory entry of a locate
does, and so does its first order when no entry came before it. -/
def steady (wl : Watchlist) (w : UInt16 → Bool) : (UInt16 → Bool) → List Msg → Bool
  | _, [] => true
  | seen, m :: ms =>
    match body m with
    | .directory l stock =>
      (wl.matchesLocate l (some stock) == w l) && steady wl w (mark seen l) ms
    | .order l _ => (seen l || wl.matchesLocate l none == w l) && steady wl w (mark seen l) ms
    | _ => steady wl w seen ms

/-! The watched locates. -/

/-- A locate that has a book is watched as `w` says. -/
def Tells (p : Status) (opened w : Bool) : Prop := p.opened = opened ∧ p.watched = (opened && w)

/-- The locates that have a book are those of `seen`, and `w` tells which of them are watched. -/
def Sighted (w seen : UInt16 → Bool) (s : Session) : Prop :=
  ∀ l : UInt16, Tells (status (desk s l.toNat)) (seen l) (w l)

/-- The locates that have a book behind a message. -/
def seenAfter (seen : UInt16 → Bool) : Body → UInt16 → Bool
  | .directory l _ => mark seen l
  | .order l _ => mark seen l
  | _ => seen

theorem seenAfter_other {seen : UInt16 → Bool} {bd : Body} {l : UInt16}
    (hl : target bd ≠ some l) : seenAfter seen bd l = seen l := by
  have hmark : ∀ k, some k ≠ some l → mark seen k l = seen l := fun k hk => by
    rw [mark, decide_eq_false (fun heq => hk (congrArg some heq.symm)), Bool.false_or]
  cases bd with
  | directory k stock => exact hmark k hl
  | order k o => exact hmark k hl
  | _ => rfl

theorem mark_self (seen : UInt16 → Bool) (l : UInt16) : mark seen l l = true := by
  rw [mark, decide_eq_true rfl, Bool.true_or]

theorem steady_tail {wl : Watchlist} {w seen : UInt16 → Bool} {m : Msg} {ms : List Msg}
    (h : steady wl w seen (m :: ms) = true) : steady wl w (seenAfter seen (body m)) ms = true := by
  unfold steady at h
  cases hbody : body m with
  | directory k stock =>
    simp only [hbody, Bool.and_eq_true] at h
    exact h.2
  | order k o =>
    simp only [hbody, Bool.and_eq_true] at h
    exact h.2
  | action k state =>
    simp only [hbody] at h
    exact h
  | system code ts =>
    simp only [hbody] at h
    exact h
  | print k =>
    simp only [hbody] at h
    exact h
  | unknown =>
    simp only [hbody] at h
    exact h

/-- A steady message keeps the watch of a locate as `w` says. -/
theorem tells_heard {wl : Watchlist} {w seen : UInt16 → Bool} {m : Msg} {ms : List Msg}
    (h : steady wl w seen (m :: ms) = true) {l : UInt16} {p : Status}
    (hp : Tells p (seen l) (w l)) :
    Tells (heard wl l p m) (seenAfter seen (body m) l) (w l) := by
  obtain ⟨hopened, hwatched⟩ := hp
  unfold heard
  by_cases hl : target (body m) = some l
  · rw [if_pos hl]
    unfold steady at h
    cases hbody : body m with
    | directory k stock =>
      obtain rfl : k = l := by
        rw [hbody] at hl
        exact Option.some.inj hl
      simp only [hbody, Bool.and_eq_true, beq_iff_eq] at h
      refine ⟨(mark_self seen k).symm, ?_⟩
      rw [seenAfter, mark_self, restatus, hwatched, h.1]
      cases seen k <;> cases w k <;> rfl
    | order k o =>
      obtain rfl : k = l := by
        rw [hbody] at hl
        exact Option.some.inj hl
      simp only [hbody, Bool.and_eq_true] at h
      refine ⟨(mark_self seen k).symm, ?_⟩
      rw [seenAfter, mark_self, restatus, hwatched, hopened]
      have hfirst := h.1
      cases hs : seen k with
      | true => exact Bool.or_false _
      | false =>
        rw [hs, Bool.false_or, beq_iff_eq] at hfirst
        rw [hfirst]
        rfl
    | action k state => exact ⟨hopened, hwatched⟩
    | system code ts => exact ⟨hopened, hwatched⟩
    | print k => exact ⟨hopened, hwatched⟩
    | unknown => exact ⟨hopened, hwatched⟩
  · rw [if_neg hl, seenAfter_other hl]
    exact ⟨hopened, hwatched⟩

theorem sighted_step {s s' : Session} {m : Msg} {b : Bool} {w seen : UInt16 → Bool} {ms : List Msg}
    (h : Aligned s) (hseen : Sighted w seen s)
    (hsteady : steady s.cfg.watchlist w seen (m :: ms) = true)
    (hstep : s.applyMsg m = .ok (b, s')) : Sighted w (seenAfter seen (body m)) s' := by
  intro l
  rw [status_step h hstep l]
  exact tells_heard hsteady (hseen l)

theorem sighted_new (cfg : SessionConfig) (w : UInt16 → Bool) :
    Sighted w (fun _ => false) (.new cfg) := fun _ => ⟨rfl, rfl⟩

/-- The messages of the frames in front of the first one that does not parse. -/
def msgsOf : List Bytes → List Msg
  | [] => []
  | p :: ps =>
    match parse p with
    | .error _ => []
    | .ok m => m :: msgsOf ps

/-! Side by side. -/

section Beside

variable {F : Type} (fl : Floats F) (r : Request) (c : Cadence)

/-- Books that show the same market give the same row. -/
theorem turn_same {book book' : LocateBook} {mk : Markets.Market} (h : book.Refines mk)
    (h' : book'.Refines mk) (s : Sampler) (ts : UInt64) (l : UInt16) :
    turn fl r c s ts l (some book) = turn fl r c s ts l (some book') := by
  have hshot : ∀ prev, shot fl r.features prev ts l book = shot fl r.features prev ts l book' := by
    intro prev
    unfold shot
    rw [h.l1_eq, h'.l1_eq, h.l2_eq 5, h'.l2_eq 5]
  unfold turn
  simp only [hshot]

/-- The watched loop and the other one at the same place of the messages. -/
structure Beside (w seen : UInt16 → Bool) (st st' : Loop F) (a : Replay) : Prop where
  watched : Follows r.config st.session a
  everywhere : Follows (everywhere r).config st'.session a
  sighted : Sighted w seen st.session
  samplers : ∀ l, w l = true → samplerAt st l = samplerAt st' l

/-- The rows for the locates of `w`. -/
def picked (w : UInt16 → Bool) (rows : List (Row F)) : List (Row F) :=
  rows.filter fun row => w row.quote.locate

variable {r} in
/-- A message that is no accepted order leaves both loops without a row. -/
theorem sample_quiet {st : Loop F} {m : Msg} {b : Bool} {s' : Session}
    (hstep : st.session.applyMsg m = .ok (b, s')) (hquiet : ¬ (isBookMsg m = true ∧ b = true)) :
    sample fl r c st m = .ok { st with session := s' } := by
  rw [sample_eq fl r c hstep]
  cases headerLocate m.raw with
  | none => rfl
  | some l => exact if_neg fun h => hquiet ⟨h.1, h.2.1⟩

/-- The samplers of a loop behind a row. -/
theorem samplerAt_after {st : Loop F} {s' : Session} {cols : Columns F} {l : UInt16}
    {smp : Sampler} (k : UInt16) :
    samplerAt ⟨s', cols, (growTo st.samplers (l.toNat + 1) .default).set l.toNat smp⟩ k =
      if k = l then smp else samplerAt st k := samplerAt_set _ _ _ _

/-- One message through both loops. -/
theorem beside_step {w seen : UInt16 → Bool} {st st' : Loop F} {a : Replay} {m : Msg}
    {ms : List Msg} (hpick : r.sampleAll = false) (h : Beside r w seen st st' a)
    (hsteady : steady r.watchlist w seen (m :: ms) = true) {b b' : Bool} {s₁ s₁' : Session}
    (hstep : st.session.applyMsg m = .ok (b, s₁))
    (hstep' : st'.session.applyMsg m = .ok (b', s₁')) :
    ∃ rows st₁ st₁', sample fl r c st m = .ok st₁ ∧
      sample fl (everywhere r) c st' m = .ok st₁' ∧ st₁.session = s₁ ∧ st₁'.session = s₁' ∧
      st₁'.cols = rows.foldl push st'.cols ∧ st₁.cols = (picked w rows).foldl push st.cols ∧
      Beside r w (seenAfter seen (body m)) st₁ st₁' (a.apply (note m)).2 := by
  obtain ⟨hb, hnext⟩ := (applyMsg_answers (Q := False) h.watched False.elim m False.elim).of_run
    hstep
  obtain ⟨hb', hnext'⟩ :=
    (applyMsg_answers (Q := False) h.everywhere False.elim m False.elim).of_run hstep'
  obtain rfl : b = b' := hb.trans hb'.symm
  have haligned := aligned_of_follows h.watched
  have hsight : Sighted w (seenAfter seen (body m)) s₁ :=
    sighted_step haligned h.sighted (by rw [h.watched.cfg_eq]; exact hsteady) hstep
  by_cases hbook : isBookMsg m = true ∧ b = true
  · obtain ⟨hmsg, rfl⟩ := hbook
    obtain ⟨l, o, hbody⟩ := isBookMsg_iff.mp hmsg
    have htarget : target (body m) = some l := by rw [hbody]; rfl
    have hlocate := headerLocate_of_target htarget
    obtain ⟨bk', rows, smp, hbk', hturn', hturned⟩ :=
      turn_after fl (everywhere r) c h.everywhere hstep' hlocate hmsg (samplerAt st' l)
    obtain ⟨bk, hbk⟩ := book_of_changed haligned hbody hstep
    obtain ⟨mk, hmk, hrefines⟩ := hnext.refines hbk
    obtain ⟨mk', hmk', hrefines'⟩ := hnext'.refines hbk'
    obtain rfl : mk' = mk := Option.some.inj (hmk'.symm.trans hmk)
    have hturn : turn fl r c (samplerAt st' l) (tsOf m) l (some bk) = .ok (rows, smp) :=
      (turn_same fl r c hrefines hrefines' _ _ _).trans hturn'
    have hwatch : sampled r s₁ l = w l := by
      obtain ⟨hopened, hwatched⟩ := hsight l
      have hseen : seenAfter seen (body m) l = true :=
        hopened.symm.trans (congrArg Option.isSome hbk)
      rw [sampled, hpick, any_watched, Bool.false_or]
      exact hwatched.trans (by rw [hseen, Bool.true_and])
    have hsample' : sample fl (everywhere r) c st' m = .ok ⟨s₁', rows.foldl push st'.cols,
        (growTo st'.samplers (l.toNat + 1) .default).set l.toNat smp⟩ := by
      rw [sample_eq fl (everywhere r) c hstep', hlocate]
      dsimp only
      rw [if_pos ⟨hmsg, rfl, rfl⟩, hbk', show st'.samplers.getD l.toNat .default = samplerAt st' l
        from rfl, hturn', ok_bind]
      rfl
    have hlocates : ∀ row ∈ rows, row.quote.locate = l := hturned.locate
    by_cases hw : w l = true
    · have hpicked : picked w rows = rows :=
        List.filter_eq_self.mpr fun row hrow => by rw [hlocates row hrow, hw]
      have hsample : sample fl r c st m = .ok ⟨s₁, rows.foldl push st.cols,
          (growTo st.samplers (l.toNat + 1) .default).set l.toNat smp⟩ := by
        rw [sample_eq fl r c hstep, hlocate]
        dsimp only
        rw [if_pos ⟨hmsg, rfl, hwatch.trans hw⟩, hbk, show st.samplers.getD l.toNat .default =
          samplerAt st' l from h.samplers l hw, hturn, ok_bind]
        rfl
      refine ⟨rows, _, _, hsample, hsample', rfl, rfl, rfl, by rw [hpicked], hnext, hnext', hsight,
        fun k hk => ?_⟩
      rw [samplerAt_after, samplerAt_after, h.samplers k hk]
    · have hpicked : picked w rows = [] :=
        List.filter_eq_nil_iff.mpr fun row hrow => by rw [hlocates row hrow]; exact hw
      have hsample : sample fl r c st m = .ok { st with session := s₁ } := by
        rw [sample_eq fl r c hstep, hlocate]
        dsimp only
        rw [if_neg fun hall => hw (hwatch.symm.trans hall.2.2)]
      refine ⟨rows, _, _, hsample, hsample', rfl, rfl, rfl, by rw [hpicked]; rfl, hnext, hnext',
        hsight, fun k hk => ?_⟩
      have hne : k ≠ l := fun heq => hw (heq ▸ hk)
      rw [samplerAt_after, if_neg hne]
      exact h.samplers k hk
  · exact ⟨[], _, _, sample_quiet fl c hstep hbook, sample_quiet fl c hstep' hbook, rfl, rfl, rfl,
      rfl, hnext, hnext', hsight, h.samplers⟩

/-- The frames of a source through both loops: the same error, or the rows of the one picked from
those of the other. -/
theorem beside_frames {w seen : UInt16 → Bool} {st st' : Loop F} {a : Replay}
    (hpick : r.sampleAll = false) (h : Beside r w seen st st' a) {frames : List Bytes}
    (hsteady : steady r.watchlist w seen (msgsOf frames) = true) {out out' : List Bool}
    {s s' : Session} (hrun : run Session.applyMsg st.session (msgsOf frames) = .ok (out, s))
    (hrun' : run Session.applyMsg st'.session (msgsOf frames) = .ok (out', s')) (count : ℕ) :
    (∃ e, replayFrames fl r c st count frames = .ok (.error e) ∧
      replayFrames fl (everywhere r) c st' count frames = .ok (.error e)) ∨
    ∃ rows st₁ st₁', replayFrames fl r c st count frames = .ok (.ok st₁) ∧
      replayFrames fl (everywhere r) c st' count frames = .ok (.ok st₁') ∧
      st₁.session = s ∧ st₁'.session = s' ∧
      st₁'.cols = rows.foldl push st'.cols ∧ st₁.cols = (picked w rows).foldl push st.cols := by
  induction frames generalizing st st' a seen out out' count with
  | nil =>
    obtain ⟨-, rfl⟩ := Prod.mk.inj (Except.ok.inj hrun)
    obtain ⟨-, rfl⟩ := Prod.mk.inj (Except.ok.inj hrun')
    exact Or.inr ⟨[], st, st', rfl, rfl, rfl, rfl, rfl, rfl⟩
  | cons p frames ih =>
    cases hp : parse p with
    | error e =>
      refine Or.inl ⟨.message count e, ?_, ?_⟩ <;> simp only [replayFrames, hp]
    | ok m =>
      have hms : msgsOf (p :: frames) = m :: msgsOf frames := by simp only [msgsOf, hp]
      rw [hms] at hsteady hrun hrun'
      obtain ⟨b, bs, s₁, hstep, hrest, -⟩ := run_cons_eq_ok.mp hrun
      obtain ⟨b', bs', s₁', hstep', hrest', -⟩ := run_cons_eq_ok.mp hrun'
      obtain ⟨rows, st₁, st₁', hsample, hsample', rfl, rfl, hcols', hcols, hbeside⟩ :=
        beside_step fl r c hpick h hsteady hstep hstep'
      simp only [replayFrames, hp, hsample, hsample', ok_bind]
      rcases ih hbeside (steady_tail hsteady) hrest hrest' (count + 1) with herror |
        ⟨rows', st₂, st₂', hloop, hloop', hs, hs', hall', hall⟩
      · exact Or.inl herror
      · refine Or.inr ⟨rows ++ rows', st₂, st₂', hloop, hloop', hs, hs', ?_, ?_⟩
        · rw [hall', hcols', List.foldl_append]
        · rw [hall, hcols, picked, picked, picked, List.filter_append, List.foldl_append]

/-- A followed session is closed and gives its statistics. -/
theorem closed_of_follows {cfg : SessionConfig} {s : Session} {a : Replay} (h : Follows cfg s a)
    (hash : Bytes → Bytes) :
    ∃ s' st, s.finish hash = .ok s' ∧ intoStats hash s' = .ok st := by
  obtain ⟨s', hfinish⟩ := finish_ok h hash
  refine ⟨s', s'.stats, hfinish, ?_⟩
  unfold intoStats
  rw [(finished_of_finish h.books_le hfinish).finished]
  rfl

end Beside

section Ends

variable {F : Type} {fl : Floats F} {hash : Bytes → Bytes} {r : Request} {c : Cadence}

/-- Bad arguments are refused before the file is opened. -/
theorem replayItch_refused {text : String} (h : r.checkWindow = .error text ∨
      r.checkWindow = .ok () ∧ r.cadence = .error text)
    (src : Except Framing.IoError (List Bytes × Option Framing.IoError)) :
    replayItch fl hash r src = .ok (.error (.value text)) := by
  unfold replayItch
  rcases h with h | ⟨h, hcadence⟩
  · rw [h]
    rfl
  · rw [h, hcadence]
    rfl

theorem replayItch_unopened (hwindow : r.checkWindow = .ok ()) (hcadence : r.cadence = .ok c)
    (e : Framing.IoError) :
    replayItch fl hash r (.error e) = .ok (.error (.io (.cannotOpen e))) := by
  unfold replayItch
  rw [hwindow, hcadence]
  rfl

theorem replayItch_stopped (hwindow : r.checkWindow = .ok ()) (hcadence : r.cadence = .ok c)
    {frames : List Bytes} {e : ReplayColumns.ReplayError}
    (hloop : replayFrames fl r c ⟨.new r.config, .empty, []⟩ 0 frames = .ok (.error e))
    (failure : Option Framing.IoError) :
    replayItch fl hash r (.ok (frames, failure)) = .ok (.error (.io e)) := by
  unfold replayItch runReplay
  rw [hwindow, hcadence]
  dsimp only
  rw [hloop]
  rfl

/-- A replay whose frames all parse ends as its source does. -/
theorem replayItch_ended (hwindow : r.checkWindow = .ok ()) (hcadence : r.cadence = .ok c)
    {frames : List Bytes} {st : Loop F} {a : Replay}
    (hloop : replayFrames fl r c ⟨.new r.config, .empty, []⟩ 0 frames = .ok (.ok st))
    (h : Follows r.config st.session a) (failure : Option Framing.IoError) :
    replayItch fl hash r (.ok (frames, failure)) =
      .ok (failure.elim (.ok st.cols) fun e => .error (.io (.read e))) := by
  obtain ⟨s', stats, hfinish, hinto⟩ := closed_of_follows h hash
  unfold replayItch runReplay
  rw [hwindow, hcadence]
  dsimp only
  rw [hloop, ok_bind]
  cases failure with
  | some e => rfl
  | none =>
    dsimp only
    rw [hfinish, ok_bind, hinto]
    rfl

end Ends

/-- The messages that a replay of the source meets. -/
def msgsIn : Except Framing.IoError (List Bytes × Option Framing.IoError) → List Msg
  | .error _ => []
  | .ok (frames, _) => msgsOf frames

/-- Without a watchlist there is nothing to watch. -/
theorem not_watching_everywhere (r : Request) : ¬ Watching (everywhere r).config := by
  rintro ⟨l, _ | stock, hmatch⟩ <;> cases hmatch

theorem reservable_default : Reservable 8192 := ⟨by decide, by decide⟩

/-- A replay with a watchlist gives the rows that the replay without one gives for its locates, with
the same cells and in the same order, or stops with the same error. -/
theorem watching_keeps_rows {F : Type} (fl : Floats F) (hash : Bytes → Bytes) {r : Request}
    {w : UInt16 → Bool} (hpick : r.watchlist ≠ ⟨[], [], false⟩)
    (src : Except Framing.IoError (List Bytes × Option Framing.IoError))
    (hsteady : steady r.watchlist w (fun _ => false) (msgsIn src) = true)
    (hbound : Along Session.applyMsg Roomy (.new (everywhere r).config) (msgsIn src)) :
    ∃ result : Except PyError (List (Row F)),
      replayItch fl hash (everywhere r) src = .ok (result.map columnsOf) ∧
      replayItch fl hash r src = .ok (result.map fun rows => columnsOf (picked w rows)) := by
  cases hwindow : r.checkWindow with
  | error text =>
    exact ⟨.error (.value text), replayItch_refused (r := everywhere r) (Or.inl hwindow) src,
      replayItch_refused (Or.inl hwindow) src⟩
  | ok u =>
  cases hcadence : r.cadence with
  | error text =>
    exact ⟨.error (.value text),
      replayItch_refused (r := everywhere r) (Or.inr ⟨hwindow, hcadence⟩) src,
      replayItch_refused (Or.inr ⟨hwindow, hcadence⟩) src⟩
  | ok c =>
  cases src with
  | error e =>
    exact ⟨.error (.io (.cannotOpen e)),
      replayItch_unopened (r := everywhere r) hwindow hcadence e,
      replayItch_unopened hwindow hcadence e⟩
  | ok source =>
  obtain ⟨frames, failure⟩ := source
  have hvalid := valid_of_checkWindow hwindow
  have hvalid' : ValidSession (everywhere r).config := valid_of_checkWindow hwindow
  have hsize' : Watching (everywhere r).config → Reservable (everywhere r).config.arrayReserve :=
    fun hw => absurd hw (not_watching_everywhere r)
  have hfits := fits_along (follows_new hvalid') hsize' hbound (fits_new _ _)
  obtain ⟨s', hrun', hend'⟩ := run_follows hvalid' hsize' hfits
  obtain ⟨s, hrun, hend⟩ := run_follows hvalid (fun _ => reservable_default) hfits
  have hbeside : Beside (F := F) r w (fun _ => false) ⟨.new r.config, .empty, []⟩
      ⟨.new (everywhere r).config, .empty, []⟩ (.new false r.source) :=
    ⟨follows_new hvalid, follows_new hvalid', sighted_new _ w, fun l _ => rfl⟩
  rcases beside_frames fl r c (decide_eq_false hpick) hbeside hsteady hrun hrun' 0 with
    ⟨e, herror, herror'⟩ | ⟨rows, st, st', hloop, hloop', rfl, rfl, hcols', hcols⟩
  · exact ⟨.error (.io e), replayItch_stopped (r := everywhere r) hwindow hcadence herror' failure,
      replayItch_stopped hwindow hcadence herror failure⟩
  · refine ⟨failure.elim (.ok rows) fun e => .error (.io (.read e)), ?_, ?_⟩
    · rw [replayItch_ended (r := everywhere r) hwindow hcadence hloop' hend' failure, hcols']
      cases failure <;> rfl
    · rw [replayItch_ended hwindow hcadence hloop hend failure, hcols]
      cases failure <;> rfl

/-- The first order again, for the next locate. -/
def secondAdd : Bytes := Writers.payload 'A' ⟨2, 0, 0⟩ (Writers.addFields 7 66 5 blank 10000)

def secondMsg : Msg := Writers.addMsg ⟨2, 0, 0⟩ 7 66 5 blank 10000

/-- Every message of the first locate. -/
def firstLocate : Request := { everyMessage with watchlist := ⟨[], [1], false⟩ }

theorem watching_keeps_rows_first : ∃ result : Except PyError (List (Row (Option ℚ))),
    replayItch quotients id everyMessage (.ok ([secondAdd, firstAdd, secondAdd], none)) =
      .ok (result.map columnsOf) ∧
    replayItch quotients id firstLocate (.ok ([secondAdd, firstAdd, secondAdd], none)) =
      .ok (result.map fun rows => columnsOf (picked (fun l => l = 1) rows)) := by
  have hfirst : parse firstAdd = .ok firstMsg := rfl
  have hother : parse secondAdd = .ok secondMsg := rfl
  have hms : msgsIn (.ok ([secondAdd, firstAdd, secondAdd], none)) =
      [secondMsg, firstMsg, secondMsg] := by
    simp only [msgsIn, msgsOf, hfirst, hother]
  have hvalid : ValidSession (everywhere firstLocate).config := ⟨by decide, by decide⟩
  refine watching_keeps_rows quotients id (r := firstLocate) (w := fun l => l = 1) (by decide)
    (.ok ([secondAdd, firstAdd, secondAdd], none)) ?_ ?_
  · rw [hms]
    decide +kernel
  · rw [hms]
    exact along_of_few message_step (follows_new hvalid) (fun l => (liveAt_new _ _ l).le)
      (by decide)

end Lobcore.WatchedRows
