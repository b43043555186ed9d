import Lobcore.SampledRows

/-!
The cadence of a replay. Along a run of messages the sampler of a locate counts its qualifying
messages since the last row, or remembers the time of that row; so the rows stand at every `n`-th
of them, or at least `d` nanoseconds apart.
-/
namespace Lobcore.SamplingCadences

open Checked OrderTypes Payloads SessionStats Sessions Replays Interleavings Desks DeskSteps
open Migrations SessionRefines SessionRuns LocateIsolation Closings Writers ReplayColumns
open SampledRows

variable {F : Type} (fl : Floats F) (r : Request) (c : Cadence)

/-- At least `d` nanoseconds apart. -/
def Apart (d t t' : UInt64) : Prop := t.toNat + d.toNat ≤ t'.toNat

/-! A sampler along a log. -/

inductive Turns (l : UInt16) : Sampler → List (Entry F) → Sampler → Prop
  | nil (s : Sampler) : Turns l s [] s
  | cons {s s₁ s' : Sampler} {e : Entry F} {log : List (Entry F)} (h : Went r c l e s s₁)
      (hrest : Turns l s₁ log s') : Turns l s (e :: log) s'

section Turns

variable {r c} {l : UInt16} {s s' : Sampler} {e : Entry F} {log : List (Entry F)}

theorem Turns.split {pre post : List (Entry F)} (h : Turns r c l s (pre ++ e :: post) s') :
    ∃ s₁ s₂, Turns r c l s pre s₁ ∧ Went r c l e s₁ s₂ := by
  induction pre generalizing s with
  | nil =>
    cases h with
    | cons h hrest => exact ⟨s, _, .nil s, h⟩
  | cons e₀ pre ih =>
    cases h with
    | cons h hrest =>
      obtain ⟨s₁, s₂, hpre, hlast⟩ := ih hrest
      exact ⟨s₁, s₂, .cons h hpre, hlast⟩

theorem Turns.since {n : UInt64} {hn : n ≠ 0} (h : Turns r (.everyN n hn) l s log s')
    (hlt : s.since < n.toNat) :
    s'.since = (s.since + log.countP (qualifies r l)) % n.toNat := by
  induction h with
  | nil s => rw [List.countP_nil, Nat.add_zero, Nat.mod_eq_of_lt hlt]
  | @cons s s₁ s' e log h hrest ih =>
    have hfirst := h.since hlt
    have hlt₁ : s₁.since < n.toNat := by
      rw [hfirst]
      exact Nat.mod_lt _ (by omega)
    rw [ih hlt₁, hfirst, List.countP_cons, Nat.mod_add_mod, Nat.add_assoc,
      Nat.add_comm (log.countP _)]

/-- The time of the last row. -/
theorem Turns.lastTs (h : Turns r c l s log s') :
    s'.lastTs = (times l (log.flatMap Entry.rows)).getLast?.or s.lastTs := by
  induction h with
  | nil s => rfl
  | @cons s s₁ s' e log h hrest ih =>
    rw [ih, h.lastTs, List.flatMap_cons, times_append, List.getLast?_append, Option.or_assoc]

/-- No rows without qualifying messages. -/
theorem Turns.times_nil (h : Turns r c l s log s') (hnone : log.countP (qualifies r l) = 0) :
    times l (log.flatMap Entry.rows) = [] := by
  induction h with
  | nil s => rfl
  | @cons s s₁ s' e log h hrest ih =>
    rw [List.countP_cons, Nat.add_eq_zero_iff] at hnone
    have hfirst : rowsOf l e.rows = [] := by
      by_contra hrows
      rw [if_pos (h.rows_iff.mp hrows).1] at hnone
      omega
    rw [List.flatMap_cons, times_append, ih hnone.1, times, hfirst]
    rfl

/-- Rows by time are apart from each other, and from the row before them. -/
theorem Turns.apart {d : UInt64} {hd : d ≠ 0} (h : Turns r (.everyNs d hd) l s log s') :
    (s.lastTs.toList ++ times l (log.flatMap Entry.rows)).IsChain (Apart d) := by
  induction h with
  | nil s =>
    cases hlast : s.lastTs <;> simp [times, rowsOf]
  | @cons s s₁ s' e log h hrest ih =>
    rw [List.flatMap_cons, times_append]
    cases h with
    | pass hqual hrows => simpa only [times, hrows, List.map_nil, List.nil_append] using ih
    | count hqual hrows hbook hturn =>
      cases hturn with
      | wait hdue => simpa only [times, hrows, List.map_nil, List.nil_append] using ih
      | @fire row prev v hdue hl1 hquote hfeatures =>
        have htime : row.quote.ts = tsOf e.msg := by rw [hquote]; rfl
        rw [times, hrows, List.map_singleton, htime]
        cases hlast : s.lastTs with
        | none => exact ih
        | some t =>
          refine List.isChain_cons_cons.mpr ⟨?_, ih⟩
          simp only [due, hlast, Option.all_some, decide_eq_true_eq] at hdue
          have hpos : 0 < d.toNat := Nat.pos_of_ne_zero fun h => hd (UInt64.toNat_inj.mp h)
          unfold Apart
          omega

end Turns

/-! The cadences. -/

theorem due_count {n k : ℕ} (hn : 0 < n) : n ≤ k % n + 1 ↔ n ∣ k + 1 := by
  have hlt := Nat.mod_lt k hn
  have hsplit : k + 1 = n * (k / n) + (k % n + 1) := by
    have hk := Nat.div_add_mod k n
    omega
  rw [hsplit, Nat.dvd_add_right (Nat.dvd_mul_right n _)]
  constructor
  · intro hle
    have heq : k % n + 1 = n := by omega
    rw [heq]
  · intro hdvd
    exact Nat.le_of_dvd (Nat.succ_pos _) hdvd

/-- Rows by count stand at the `n`-th, the `2n`-th, … qualifying message of the locate. -/
def Counted (r : Request) (n : UInt64) (l : UInt16) (log : List (Entry F)) : Prop :=
  ∀ pre e post, log = pre ++ e :: post → (rowsOf l e.rows ≠ [] ↔
    qualifies r l e = true ∧ n.toNat ∣ pre.countP (qualifies r l) + 1)

/-- Rows by time stand at the first qualifying message of the locate, and at each that comes long
enough after the last row. -/
structure Spaced (r : Request) (d : UInt64) (l : UInt16) (log : List (Entry F)) : Prop where
  first : ∀ pre e post, log = pre ++ e :: post → pre.countP (qualifies r l) = 0 →
    qualifies r l e = true → rowsOf l e.rows ≠ []
  apart : (times l (log.flatMap Entry.rows)).IsChain (Apart d)
  taken : ∀ pre e post, log = pre ++ e :: post → (rowsOf l e.rows ≠ [] ↔
    qualifies r l e = true ∧
      ∀ t ∈ (times l (pre.flatMap Entry.rows)).getLast?, Apart d t (tsOf e.msg))

def Timed (r : Request) (l : UInt16) (log : List (Entry F)) : Cadence → Prop
  | .everyN n _ => Counted r n l log
  | .everyNs d _ => Spaced r d l log

section Cadences

variable {r c} {l : UInt16} {s' : Sampler} {log : List (Entry F)}

theorem counted_of_turns {n : UInt64} {hn : n ≠ 0}
    (h : Turns r (.everyN n hn) l .default log s') : Counted r n l log := by
  rintro pre e post rfl
  have hpos : 0 < n.toNat := Nat.pos_of_ne_zero fun h => hn (UInt64.toNat_inj.mp h)
  obtain ⟨s₁, s₂, hpre, hgo⟩ := h.split
  have hsince : s₁.since = pre.countP (qualifies r l) % n.toNat := by
    rw [hpre.since hpos]
    exact congrArg (· % n.toNat) (Nat.zero_add _)
  rw [hgo.rows_iff, ← due_count hpos, ← hsince]
  simp only [due, decide_eq_true_eq]

theorem spaced_of_turns {d : UInt64} {hd : d ≠ 0}
    (h : Turns r (.everyNs d hd) l .default log s') : Spaced r d l log := by
  have hpos : 0 < d.toNat := Nat.pos_of_ne_zero fun h => hd (UInt64.toNat_inj.mp h)
  have htaken : ∀ pre e post, log = pre ++ e :: post → (rowsOf l e.rows ≠ [] ↔
      qualifies r l e = true ∧
        ∀ t ∈ (times l (pre.flatMap Entry.rows)).getLast?, Apart d t (tsOf e.msg)) := by
    rintro pre e post rfl
    obtain ⟨s₁, s₂, hpre, hgo⟩ := h.split
    have hlast : s₁.lastTs = (times l (pre.flatMap Entry.rows)).getLast? := by
      rw [hpre.lastTs]
      exact Option.or_none
    rw [hgo.rows_iff, ← hlast]
    refine and_congr_right fun _ => ?_
    cases hts : s₁.lastTs with
    | none => simp [due]
    | some t =>
      simp only [due, Option.all_some, decide_eq_true_eq, Option.mem_some_iff, forall_eq', Apart]
      omega
  refine ⟨fun pre e post hlog hnone hqual => ?_, h.apart, htaken⟩
  refine (htaken pre e post hlog).mpr ⟨hqual, fun t ht => ?_⟩
  subst hlog
  obtain ⟨s₁, s₂, hpre, -⟩ := h.split
  rw [hpre.times_nil hnone] at ht
  cases ht

theorem timed_of_turns (h : Turns r c l .default log s') : Timed r l log c := by
  cases c with
  | everyN n hn => exact counted_of_turns h
  | everyNs d hd => exact spaced_of_turns h

end Cadences

/-! The loop along a run. -/

/-- The entries of a log tell what the session did, message by message. -/
def Traced (s : Session) (log : List (Entry F)) : Prop :=
  ∀ pre e, pre ++ [e] <+: log → ∃ out,
    run Session.applyMsg s ((pre ++ [e]).map Entry.msg) = .ok (out ++ [e.changed], e.session)

theorem traced_cons {s : Session} {e : Entry F} {log : List (Entry F)}
    (hstep : s.applyMsg e.msg = .ok (e.changed, e.session)) (h : Traced e.session log) :
    Traced s (e :: log) := by
  rintro (_ | ⟨e₀, pre⟩) e' hpre
  · obtain ⟨rfl, -⟩ := List.cons_prefix_cons.mp hpre
    exact ⟨[], run_cons_ok hstep (run_nil _ _)⟩
  · obtain ⟨rfl, hrest⟩ := List.cons_prefix_cons.mp hpre
    obtain ⟨out, hrun⟩ := h pre e' hrest
    exact ⟨e₀.changed :: out, run_cons_ok hstep hrun⟩

/-- The rows of a locate, by a run over its messages alone. -/
def ownRows (l : UInt16) (ms : List Msg) : List (Row F) :=
  ((run (visit fl r c l) (desk (.new r.config) l.toNat, .default) ms).toOption.map
    fun p => p.1.flatten).getD []

/-- What the loop does along a run of messages. -/
structure Looped (st : Loop F) (ms : List Msg) (log : List (Entry F)) (st' : Loop F) : Prop where
  msgs : log.map Entry.msg = ms
  cols : st'.cols = (log.flatMap Entry.rows).foldl push st.cols
  traced : Traced st.session log
  single : ∀ e ∈ log, e.rows.length ≤ 1
  turns : ∀ l, Turns r c l (samplerAt st l) log (samplerAt st' l)
  visits : ∀ l : UInt16, ∃ rowss,
    run (visit fl r c l) (desk st.session l.toNat, samplerAt st l) ms =
      .ok (rowss, (desk st'.session l.toNat, samplerAt st' l)) ∧
    rowss.flatten = rowsOf l (log.flatMap Entry.rows)

theorem looped_nil (st : Loop F) : Looped fl r c st [] [] st where
  msgs := rfl
  cols := rfl
  traced pre e hpre := absurd (List.prefix_nil.mp hpre) (by simp)
  single e he := absurd he List.not_mem_nil
  turns l := .nil _
  visits l := ⟨[], rfl, rfl⟩

theorem looped_cons {st st₁ st' : Loop F} {e : Entry F} {ms : List Msg} {log : List (Entry F)}
    (hstep : st.session.applyMsg e.msg = .ok (e.changed, e.session))
    (hsession : st₁.session = e.session) (hcols : st₁.cols = e.rows.foldl push st.cols)
    (hsingle : e.rows.length ≤ 1)
    (hlocates : ∀ l, Went r c l e (samplerAt st l) (samplerAt st₁ l) ∧
      visit fl r c l (desk st.session l.toNat, samplerAt st l) e.msg =
        .ok (rowsOf l e.rows, (desk e.session l.toNat, samplerAt st₁ l)))
    (h : Looped fl r c st₁ ms log st') : Looped fl r c st (e.msg :: ms) (e :: log) st' where
  msgs := by rw [List.map_cons, h.msgs]
  cols := by rw [h.cols, hcols, List.flatMap_cons, List.foldl_append]
  traced := traced_cons hstep (hsession ▸ h.traced)
  single := List.forall_mem_cons.mpr ⟨hsingle, h.single⟩
  turns l := .cons (hlocates l).1 (h.turns l)
  visits l := by
    obtain ⟨rowss, hrun, hrows⟩ := h.visits l
    rw [hsession] at hrun
    refine ⟨rowsOf l e.rows :: rowss, run_cons_ok (hlocates l).2 hrun, ?_⟩
    rw [List.flatten_cons, hrows, List.flatMap_cons]
    exact (List.filter_append ..).symm

/-- Frames that parse go through the loop as the messages go through the session. -/
theorem replayFrames_looped {st : Loop F} {a : Replay} (h : Follows r.config st.session a)
    {frames : List Bytes} {ms : List Msg} (hparse : frames.map parse = ms.map .ok)
    {out : List Bool} {s' : Session} (hrun : run Session.applyMsg st.session ms = .ok (out, s'))
    (seen : ℕ) : ∃ log st', replayFrames fl r c st seen frames = .ok (.ok st') ∧
      st'.session = s' ∧ Looped fl r c st ms log st' := by
  induction ms generalizing st a frames out seen with
  | nil =>
    obtain rfl : frames = [] := List.map_eq_nil_iff.mp hparse
    obtain ⟨-, rfl⟩ := Prod.mk.inj (Except.ok.inj hrun)
    exact ⟨[], st, rfl, rfl, looped_nil fl r c st⟩
  | cons m ms ih =>
    obtain ⟨p, frames, rfl, hp, hps⟩ := List.map_eq_cons_iff.mp hparse
    obtain ⟨b, bs, s₁, hstep, hrest, -⟩ := run_cons_eq_ok.mp hrun
    obtain ⟨rows, st₁, hsample, hsession, hcols, hsingle, hlocates⟩ :=
      sample_step fl r c h hstep
    obtain ⟨a₁, h₁, -⟩ := message_step _ _ _ _ _ h hstep
    obtain ⟨log, st', hloop, hlast, hlooped⟩ :=
      ih (hsession.symm ▸ h₁) hps (hsession.symm ▸ hrest) (seen + 1)
    refine ⟨⟨m, b, s₁, rows⟩ :: log, st', ?_, hlast,
      looped_cons fl r c hstep hsession hcols hsingle hlocates hlooped⟩
    simp only [replayFrames, hp, hsample, ok_bind]
    exact hloop

/-- The loop panics where the session does. -/
theorem replayFrames_panics {st : Loop F} {a : Replay} (h : Follows r.config st.session a)
    {frames : List Bytes} {ms : List Msg} (hparse : frames.map parse = ms.map .ok) {e : Panic}
    (hrun : run Session.applyMsg st.session ms = .error e) (seen : ℕ) :
    replayFrames fl r c st seen frames = .error e := by
  induction ms generalizing st a frames seen with
  | nil => cases hrun
  | cons m ms ih =>
    obtain ⟨p, frames, rfl, hp, hps⟩ := List.map_eq_cons_iff.mp hparse
    rw [run] at hrun
    rcases hstep : st.session.applyMsg m with e' | ⟨b, s₁⟩
    · rw [hstep] at hrun
      obtain rfl : e' = e := Except.error.inj hrun
      simp only [replayFrames, hp, sample_panics fl r c hstep]
      rfl
    · obtain ⟨rows, st₁, hsample, hsession, -⟩ := sample_step fl r c h hstep
      obtain ⟨a₁, h₁, -⟩ := message_step _ _ _ _ _ h hstep
      rw [hstep, ok_bind] at hrun
      dsimp only at hrun
      rcases hrest : run Session.applyMsg s₁ ms with e' | q
      · rw [hrest] at hrun
        obtain rfl : e' = e := Except.error.inj hrun
        simp only [replayFrames, hp, hsample, ok_bind]
        exact ih (hsession.symm ▸ h₁) hps (hsession.symm ▸ hrest) (seen + 1)
      · rw [hrest] at hrun
        cases hrun

/-! The columns of a file. -/

/-- What a replay of some messages samples. -/
structure SampledRun (log : List (Entry F)) : Prop where
  traced : Traced (.new r.config) log
  single : ∀ e ∈ log, e.rows.length ≤ 1
  timed : ∀ l, Timed r l log c
  shown : ∀ e ∈ log, ∀ row ∈ e.rows, Shown e row
  own : ∀ l, rowsOf l (log.flatMap Entry.rows) =
    ownRows fl r c l ((log.map Entry.msg).filter (carries l))
  columns : ∀ n ∈ (columnsOf (log.flatMap Entry.rows)).lengths r.features,
    n = (log.flatMap Entry.rows).length

theorem ownRows_filter (l : UInt16) (ms : List Msg) :
    ownRows fl r c l (ms.filter (carries l)) = ownRows fl r c l ms := by
  have hskip : ∀ (p : Desk × Sampler) m, carries l m = false →
      visit fl r c l p m = .ok ([], p) := fun p m hm => by
    refine if_neg fun htarget => ?_
    rw [carries_iff.mpr (headerLocate_of_target htarget)] at hm
    cases hm
  have hboth := run_filter hskip (desk (.new r.config) l.toNat, .default) ms
  unfold ownRows
  rcases hall : run (visit fl r c l) (desk (.new r.config) l.toNat, .default) ms with e | p <;>
    rcases hown : run (visit fl r c l) (desk (.new r.config) l.toNat, .default)
      (ms.filter (carries l)) with e' | p' <;>
    rw [hall, hown] at hboth
  · rfl
  · cases hboth
  · cases hboth
  · exact (congrArg Prod.fst (Except.ok.inj hboth)).symm

theorem sampledRun_of_looped {st' : Loop F} {ms : List Msg} {log : List (Entry F)}
    (h : Looped fl r c ⟨.new r.config, .empty, []⟩ ms log st') : SampledRun fl r c log := by
  have hrows : ∀ e ∈ log, ∀ row ∈ e.rows, Shown e row ∧ row.features.isSome = r.features := by
    intro e he row hrow
    obtain ⟨pre, post, rfl⟩ := List.append_of_mem he
    obtain ⟨s₁, s₂, -, hgo⟩ := (h.turns row.quote.locate).split
    exact hgo.shown row (List.mem_filter.mpr ⟨hrow, decide_eq_true rfl⟩)
  refine ⟨h.traced, h.single, fun l => timed_of_turns (h.turns l),
    fun e he row hrow => (hrows e he row hrow).1, fun l => ?_, lengths_columnsOf ?_⟩
  · obtain ⟨rowss, hrun, hflat⟩ := h.visits l
    rw [h.msgs, ownRows_filter, ← hflat, ownRows]
    exact (congrArg (fun x => (x.toOption.map fun p => p.1.flatten).getD []) hrun).symm
  · intro row hrow
    obtain ⟨e, he, hrow⟩ := List.mem_flatMap.mp hrow
    exact (hrows e he row hrow).2

theorem valid_of_checkWindow {r : Request} (h : r.checkWindow = .ok ()) :
    ValidSession r.config := by
  unfold Request.checkWindow at h
  split at h
  · rename_i hwindow
    exact ⟨hwindow.1, hwindow.2⟩
  · cases h

/-- A replay of messages gives the columns of the rows that its cadence asks for, locate by locate;
it panics only where the session does. -/
theorem sampling_cadence (hash : Bytes → Bytes) (hwindow : r.checkWindow = .ok ())
    (hcadence : r.cadence = .ok c) {frames : List Bytes} {ms : List Msg}
    (hparse : frames.map parse = ms.map .ok) :
    (∀ e, run Session.applyMsg (.new r.config) ms = .error e →
      replayItch fl hash r (.ok (frames, none)) = .error e) ∧
    ∀ out s, run Session.applyMsg (.new r.config) ms = .ok (out, s) → ∃ log : List (Entry F),
      log.map Entry.msg = ms ∧ SampledRun fl r c log ∧
      replayItch fl hash r (.ok (frames, none)) =
        .ok (.ok (columnsOf (log.flatMap Entry.rows))) := by
  have hnew : Follows r.config (Loop.session ⟨.new r.config, .empty (F := F), []⟩) _ :=
    follows_new (valid_of_checkWindow hwindow)
  unfold replayItch runReplay
  rw [hwindow, hcadence]
  refine ⟨fun e hrun => ?_, fun out s hrun => ?_⟩
  · dsimp only
    rw [replayFrames_panics fl r c hnew hparse hrun 0]
    rfl
  · obtain ⟨log, st', hloop, rfl, hlooped⟩ :=
      replayFrames_looped fl r c hnew hparse hrun 0
    obtain ⟨-, hfollows⟩ := follows_of_run (valid_of_checkWindow hwindow) hrun
    obtain ⟨s', hfinish⟩ := finish_ok hfollows hash
    have hinto : intoStats hash s' = .ok s'.stats := by
      unfold intoStats
      rw [(finished_of_finish hfollows.books_le hfinish).finished]
      rfl
    refine ⟨log, hlooped.msgs, sampledRun_of_looped fl r c hlooped, ?_⟩
    dsimp only
    rw [hloop, ok_bind]
    dsimp only
    rw [hfinish, ok_bind, hinto, ok_bind, hlooped.cols]
    rfl

/-- Exact quotients, and none where a feature is undefined. -/
def quotients : Floats (Option ℚ) := ⟨fun n d => some (n / d), none⟩

/-- Every message of every locate, with the features. -/
def everyMessage : Request := ⟨⟨[], [], false⟩, none, none, true, 2048, "day"⟩

/-- Buy and sell orders of locate 1, and one of locate 2 among them. -/
def mixedOrders : List (Header × UInt64 × UInt8 × UInt32 × UInt32) :=
  [(⟨1, 0, 10⟩, 7, 66, 5, 10000), (⟨1, 0, 20⟩, 8, 83, 4, 10300), (⟨2, 0, 25⟩, 9, 66, 5, 10000),
    (⟨1, 0, 40⟩, 10, 83, 6, 10200), (⟨1, 0, 70⟩, 11, 66, 3, 10100)]

def mixedFrames : List Bytes :=
  mixedOrders.map fun (h, ref, side, qty, px) => payload 'A' h (addFields ref side qty blank px)

def mixedMsgs : List Msg :=
  mixedOrders.map fun (h, ref, side, qty, px) => addMsg h ref side qty blank px

theorem parse_mixed : mixedFrames.map parse = mixedMsgs.map .ok := by
  rw [mixedFrames, mixedMsgs, List.map_map, List.map_map]
  exact List.map_congr_left fun (h, ref, side, qty, px) _ =>
    parse_ok 36 rfl (length_add h ref side qty blank px)

/-- By count, locate 1 has a row at its second and its fourth order; by time, at the first one and
at each that comes long enough after the last row. -/
theorem sampling_cadence_mixed :
    (∃ log : List (Entry (Option ℚ)), log.map Entry.msg = mixedMsgs ∧
      SampledRun quotients { everyMessage with everyN := some 2 } (.everyN 2 (by decide)) log ∧
      replayItch quotients id { everyMessage with everyN := some 2 } (.ok (mixedFrames, none)) =
        .ok (.ok (columnsOf (log.flatMap Entry.rows))) ∧
      (columnsOf (log.flatMap Entry.rows)).ts = [20, 70]) ∧
    ∃ log : List (Entry (Option ℚ)), log.map Entry.msg = mixedMsgs ∧
      SampledRun quotients { everyMessage with everyNs := some 30 } (.everyNs 30 (by decide)) log ∧
      replayItch quotients id { everyMessage with everyNs := some 30 } (.ok (mixedFrames, none)) =
        .ok (.ok (columnsOf (log.flatMap Entry.rows))) ∧
      (columnsOf (log.flatMap Entry.rows)).ts = [10, 25, 40, 70] := by
  obtain ⟨⟨out, s⟩, hrun⟩ := ok_of_not_panics
    (x := run Session.applyMsg (.new everyMessage.config) mixedMsgs) (by decide +kernel)
  have hstamps : ∀ r ts {cols : Columns (Option ℚ)},
      (replayItch quotients id r (.ok (mixedFrames, none))).toOption.any
        (fun p => decide (p.toOption.map Columns.ts = some ts)) = true →
      replayItch quotients id r (.ok (mixedFrames, none)) = .ok (.ok cols) → cols.ts = ts := by
    intro r ts cols hany hreplay
    rw [hreplay] at hany
    exact Option.some.inj (of_decide_eq_true hany)
  constructor
  · obtain ⟨log, hmsgs, hsampled, hreplay⟩ := (sampling_cadence quotients
      { everyMessage with everyN := some 2 } (.everyN 2 (by decide)) id rfl rfl parse_mixed).2
      out s hrun
    exact ⟨log, hmsgs, hsampled, hreplay, hstamps _ _ (by decide +kernel) hreplay⟩
  · obtain ⟨log, hmsgs, hsampled, hreplay⟩ := (sampling_cadence quotients
      { everyMessage with everyNs := some 30 } (.everyNs 30 (by decide)) id rfl rfl parse_mixed).2
      out s hrun
    exact ⟨log, hmsgs, hsampled, hreplay, hstamps _ _ (by decide +kernel) hreplay⟩

end Lobcore.SamplingCadences
