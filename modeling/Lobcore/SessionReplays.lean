import Lobcore.Drives
import Lobcore.LocateIsolation
import Lobcore.SliceCuts

/-!
A session driven by a frame source. The loop applies the payloads that the source hands out until
the source ends or fails or a payload does not parse, and the session is closed only when the
source has ended. Whatever hands out the bytes, and in whatever pieces, a replay comes to what
the payloads of the bytes come to: the same verdict, with the place of the first payload that
does not parse, and the same session.
-/
namespace Lobcore.SessionReplays

open Checked Payloads Readers Writers Framing Streaming Drives ArrayBooks SessionStats Sessions
open Replays
open Handlers Desks DeskSteps SessionRefines SessionRuns Migrations Closings LocateIsolation
open SliceCuts (frameOf framed framed_cons length_frameOf firstFrame_frameOf)

/-- A source of framed payloads, with its counters. -/
structure FrameSource (φ : Type) where
  nextFrame : φ → Exec (Except IoError (Option Bytes) × φ)
  frames : φ → ℕ
  truncated : φ → ℕ
  bytesIn : φ → ℕ
  sourceCut : φ → Bool
  trailingBytes : φ → ℕ

namespace FrameSource

/-- The streaming framer; `fuel` bounds the reads of a call. -/
def framer {σ : Type} (read : σ → ℕ → ReadResult IoError × σ) (fuel : ℕ) :
    FrameSource (Framer σ) where
  nextFrame := Framer.nextFrame read fuel
  frames := Framer.frames
  truncated := Framer.truncated
  bytesIn := Framer.bytesIn
  sourceCut := Framer.cut
  trailingBytes := Framer.trailing

/-- The framer over bytes in memory. -/
def slice : FrameSource SliceFrames where
  nextFrame f := do
    let (r, f) ← f.advance
    return (.ok r, f)
  frames := SliceFrames.frames
  truncated := SliceFrames.truncated
  bytesIn := SliceFrames.bytesIn
  sourceCut _ := false
  trailingBytes _ := 0

end FrameSource

/-- Why a replay stopped: the source failed, or the payload at `index` did not parse. -/
inductive ReplayError where
  | io (e : IoError)
  | parse (index : ℕ) (err : ParseError)
  deriving DecidableEq, Repr

section Replay

variable {φ : Type} (F : FrameSource φ)

/-- `debug_assert!` in a build with debug assertions or, as the wheel and the tools, without. -/
def debugEnsure (debug : Bool) (p : Prop) [Decidable p] : Exec Unit :=
  if debug then ensure p else .ok ()

theorem debugEnsure_ok {debug : Bool} {p : Prop} [Decidable p] (h : debug = true → p) :
    debugEnsure debug p = .ok () := by
  cases debug with
  | true => exact ensure_ok (h rfl)
  | false => rfl

def replayLoop : ℕ → ℕ → Session → φ → Exec (Except ReplayError Unit × Session × φ)
  | 0, _, _, _ => .error .unfinished
  | calls + 1, index, s, src => do
    match ← F.nextFrame src with
    | (.error e, src) => return (.error (.io e), s, src)
    | (.ok none, src) => return (.ok (), s, src)
    | (.ok (some payload), src) =>
      match ← s.applyPayload payload with
      | (.error err, s) => return (.error (.parse index err), s, src)
      | (.ok (), s) => replayLoop calls (index + 1) s src

/-- The session with the counters of its source. -/
def sourced (src : φ) (s : Session) : Session :=
  { s with stats := { s.stats with
      truncated := F.truncated src
      sourceCut := F.sourceCut src
      trailingBytes := F.trailingBytes src
      bytesIn := F.bytesIn src } }

/-- Drive a frame source to its end and close the session, in a build with debug assertions or
without them; `calls` bounds the frames. -/
def replay (debug : Bool) (hash : Bytes → Bytes) (calls : ℕ) (s : Session) (src : φ) :
    Exec (Except ReplayError Unit × Session × φ) := do
  match ← replayLoop F calls 0 s src with
  | (.error e, s, src) => return (.error e, s, src)
  | (.ok (), s, src) => do
    -- `debug_assert_eq!`: every message of the session was a frame of this source
    debugEnsure debug (s.stats.messages = F.frames src)
    let s ← (sourced F src s).finish hash
    return (.ok (), s, src)

end Replay

/-! What the payloads come to. -/

/-- The payloads in front of the first one that does not parse, and the error there. -/
def upToError : List Bytes → List Bytes × Option ParseError
  | [] => ([], none)
  | p :: ps =>
    match parse p with
    | .error e => ([], some e)
    | .ok _ => (p :: (upToError ps).1, (upToError ps).2)

theorem upToError_bad {p : Bytes} {err : ParseError} (h : parse p = .error err) (ps : List Bytes) :
    upToError (p :: ps) = ([], some err) := by
  simp only [upToError, h]

theorem upToError_good {p : Bytes} {m : Msg} (h : parse p = .ok m) (ps : List Bytes) :
    upToError (p :: ps) = (p :: (upToError ps).1, (upToError ps).2) := by
  simp only [upToError, h]

/-- How a replay of the payloads ends when the source ends as given. -/
def verdict (index : ℕ) (ps : List Bytes) (e : Option IoError) : Except ReplayError Unit :=
  match (upToError ps).2, e with
  | some err, _ => .error (.parse (index + (upToError ps).1.length) err)
  | none, some e => .error (.io e)
  | none, none => .ok ()

theorem verdict_good {p : Bytes} {m : Msg} (h : parse p = .ok m) (index : ℕ) (ps : List Bytes)
    (e : Option IoError) : verdict index (p :: ps) e = verdict (index + 1) ps e := by
  simp only [verdict, upToError_good h, List.length_cons]
  cases (upToError ps).2 with
  | none => cases e <;> rfl
  | some err => rw [Nat.add_assoc, Nat.add_comm 1]

theorem upToError_front (ps : List Bytes) : (upToError ps).1 <+: ps := by
  induction ps with
  | nil => exact List.prefix_rfl
  | cons p ps ih =>
    cases h : parse p with
    | error err =>
      rw [upToError_bad h]
      exact List.nil_prefix
    | ok m =>
      rw [upToError_good h]
      exact List.cons_prefix_cons.mpr ⟨rfl, ih⟩

theorem upToError_all {ps : List Bytes} (h : (upToError ps).2 = none) : (upToError ps).1 = ps := by
  induction ps with
  | nil => rfl
  | cons p ps ih =>
    cases hp : parse p with
    | error err =>
      rw [upToError_bad hp] at h
      cases h
    | ok m =>
      rw [upToError_good hp] at h ⊢
      exact congrArg (p :: ·) (ih h)

theorem upToError_idem (ps : List Bytes) : (upToError (upToError ps).1).2 = none := by
  induction ps with
  | nil => rfl
  | cons p ps ih =>
    cases hp : parse p with
    | error err =>
      rw [upToError_bad hp]
      rfl
    | ok m =>
      rw [upToError_good hp, upToError_good hp]
      exact ih

/-- A verdict is good when every payload parses and the source ends. -/
theorem verdict_eq_ok {index : ℕ} {ps : List Bytes} {e : Option IoError}
    (h : verdict index ps e = .ok ()) : (upToError ps).2 = none ∧ e = none := by
  unfold verdict at h
  cases hbad : (upToError ps).2 with
  | some err => simp only [hbad, reduceCtorEq] at h
  | none =>
    cases e with
    | some e => simp only [hbad, reduceCtorEq] at h
    | none => exact ⟨rfl, rfl⟩

/-- The source hands out the payloads and then ends or fails. -/
inductive Hands {φ : Type} (F : FrameSource φ) : φ → List Bytes → Option IoError → φ → Prop
  | ended {src src' : φ} (h : F.nextFrame src = .ok (.ok none, src')) : Hands F src [] none src'
  | failed {src src' : φ} {e : IoError} (h : F.nextFrame src = .ok (.error e, src')) :
    Hands F src [] (some e) src'
  | frame {src src₁ src' : φ} {p : Bytes} {ps : List Bytes} {e : Option IoError}
    (h : F.nextFrame src = .ok (.ok (some p), src₁)) (hrest : Hands F src₁ ps e src') :
    Hands F src (p :: ps) e src'

/-- A payload that parses is applied as its message. -/
theorem applied_of_parse {s s' : Session} {p : Bytes} {m : Msg} {r : Except ParseError Unit}
    (hparse : parse p = .ok m) (h : s.applyPayload p = .ok (r, s')) :
    r = .ok () ∧ ∃ b, s.applyMsg m = .ok (b, s') := by
  simp only [Session.applyPayload, hparse] at h
  obtain ⟨⟨b, s₁⟩, hstep, h⟩ := bind_eq_ok.mp h
  obtain ⟨rfl, rfl⟩ := Prod.mk.inj (Except.ok.inj h)
  exact ⟨rfl, b, hstep⟩

/-- The loop over a source is the run over its payloads up to the first that does not parse. -/
theorem replayLoop_of_hands {φ : Type} {F : FrameSource φ} {src src' : φ} {ps : List Bytes}
    {e : Option IoError} (h : Hands F src ps e src') {s s' : Session}
    {out : List (Except ParseError Unit)}
    (hrun : run Session.applyPayload s (upToError ps).1 = .ok (out, s')) (index : ℕ) :
    ∃ src₁, ((upToError ps).2 = none → src₁ = src') ∧ ∀ calls, ps.length < calls →
      replayLoop F calls index s src = .ok (verdict index ps e, s', src₁) := by
  induction h generalizing s index out with
  | @ended src src' h =>
    obtain ⟨-, rfl⟩ := Prod.mk.inj (Except.ok.inj hrun)
    refine ⟨src', fun _ => rfl, fun calls hcalls => ?_⟩
    obtain ⟨calls, rfl⟩ := Nat.exists_eq_succ_of_ne_zero (Nat.ne_of_gt hcalls)
    rw [replayLoop, h]
    rfl
  | @failed src src' e h =>
    obtain ⟨-, rfl⟩ := Prod.mk.inj (Except.ok.inj hrun)
    refine ⟨src', fun _ => rfl, fun calls hcalls => ?_⟩
    obtain ⟨calls, rfl⟩ := Nat.exists_eq_succ_of_ne_zero (Nat.ne_of_gt hcalls)
    rw [replayLoop, h]
    rfl
  | @frame src src₁ src' p ps e h hrest ih =>
    cases hparse : parse p with
    | error err =>
      rw [upToError_bad hparse] at hrun ⊢
      obtain ⟨-, rfl⟩ := Prod.mk.inj (Except.ok.inj hrun)
      refine ⟨src₁, nofun, fun calls hcalls => ?_⟩
      obtain ⟨calls, rfl⟩ := Nat.exists_eq_succ_of_ne_zero (Nat.ne_of_gt (Nat.zero_lt_of_lt hcalls))
      have hstay : s.applyPayload p = .ok (.error err, s) := by
        simp only [Session.applyPayload, hparse]
      rw [replayLoop, h, ok_bind]
      simp only [hstay, ok_bind, pure_eq_ok, verdict, upToError_bad hparse, List.length_nil,
        Nat.add_zero]
    | ok m =>
      rw [upToError_good hparse] at hrun ⊢
      obtain ⟨r, rs, s₁, hfirst, hrun₁, -⟩ := run_cons_eq_ok.mp hrun
      obtain ⟨rfl, -⟩ := applied_of_parse hparse hfirst
      obtain ⟨src₂, hend, hloop⟩ := ih hrun₁ (index + 1)
      refine ⟨src₂, hend, fun calls hcalls => ?_⟩
      obtain ⟨calls, rfl⟩ := Nat.exists_eq_succ_of_ne_zero (Nat.ne_of_gt (Nat.zero_lt_of_lt hcalls))
      rw [replayLoop, h, ok_bind]
      simp only [hfirst, ok_bind, hloop calls (Nat.lt_of_succ_lt_succ hcalls), verdict_good hparse]

/-! What the framers hand out. -/

section Framers

variable {σ : Type} {read : σ → ℕ → ReadResult IoError × σ} {last : Option IoError}
variable {f : Framer σ} {sl : SliceFrames} {rest : Bytes}

theorem slice_next {r : Option Bytes} {sl₁ : SliceFrames} (h : sl.advance = .ok (r, sl₁)) :
    FrameSource.slice.nextFrame sl = .ok (.ok r, sl₁) := by
  simp only [FrameSource.slice, h, ok_bind, pure_eq_ok]

/-- What a framer holds at the end of the bytes. -/
structure Spent (F : FrameSource σ) (data : Bytes) (last : Option IoError) (src : σ) : Prop where
  frames : F.frames src = (unframe data).1.length
  truncated : F.truncated src = if (unframe data).2 = [] then 0 else 1
  bytesIn : F.bytesIn src = data.length
  sourceCut : F.sourceCut src = decide (last = some .unexpectedEof)
  trailingBytes : F.trailingBytes src = trailingOf last

/-- Both framers hand out the complete payloads of what the slice framer has left. -/
theorem hands_matches (hlast : last ≠ some .other) (h : Matches read last f sl rest) :
    ∃ f₁ sl₁ rest₁, Enough (fun fuel => Hands (.framer read fuel) f
        (unframe (sl.data.drop sl.pos)).1 none f₁) ∧
      Hands .slice sl (unframe (sl.data.drop sl.pos)).1 none sl₁ ∧
      Matches read last f₁ sl₁ rest₁ ∧ f₁.Settled ∧ sl₁.data = sl.data ∧
      sl₁.frames = sl.frames + (unframe (sl.data.drop sl.pos)).1.length ∧
      sl₁.truncated = sl.truncated +
        (if (unframe (sl.data.drop sl.pos)).2 = [] then 0 else 1) := by
  induction hn : (sl.data.drop sl.pos).length using Nat.strong_induction_on
    generalizing f sl rest with
  | _ n ih =>
    obtain ⟨r, f₁, sl₁, rest₁, hcall, hadvance, h₁, hend⟩ := nextFrame_matches hlast h
    have hslice := hadvance
    rw [advance_eq h.pos_le] at hslice
    cases hp : firstFrame (sl.data.drop sl.pos) with
    | none =>
      have hempty : sl.data.drop sl.pos = [] ↔ ¬ sl.pos < sl.data.length := by
        rw [List.drop_eq_nil_iff, not_lt]
      rw [unframe_none hp]
      simp only [hp] at hslice
      by_cases hleft : sl.pos < sl.data.length
      · rw [if_pos hleft] at hslice
        obtain ⟨rfl, rfl⟩ := Prod.mk.inj (Except.ok.inj hslice)
        refine ⟨f₁, _, rest₁, hcall.mono fun fuel hfuel => .ended hfuel,
          .ended (slice_next hadvance), h₁, hend rfl, rfl, rfl, ?_⟩
        rw [if_neg fun hnil => hempty.mp hnil hleft]
      · rw [if_neg hleft] at hslice
        obtain ⟨rfl, rfl⟩ := Prod.mk.inj (Except.ok.inj hslice)
        refine ⟨f₁, _, rest₁, hcall.mono fun fuel hfuel => .ended hfuel,
          .ended (slice_next hadvance), h₁, hend rfl, rfl, rfl, ?_⟩
        rw [if_pos (hempty.mpr hleft), Nat.add_zero]
    | some p =>
      simp only [hp] at hslice
      obtain ⟨rfl, rfl⟩ := Prod.mk.inj (Except.ok.inj hslice)
      have hlen := firstFrame_length hp
      have hdrop : sl.data.drop (sl.pos + 2 + p.length) =
          (sl.data.drop sl.pos).drop (2 + p.length) := by rw [List.drop_drop, Nat.add_assoc]
      obtain ⟨f₂, sl₂, rest₂, hrest, hrest', h₂, hset, hdata, hframes, htruncated⟩ :=
        ih (sl.data.drop (sl.pos + 2 + p.length)).length
          (by rw [hdrop, List.length_drop]; omega) h₁ rfl
      simp only [hdrop] at hrest hrest' hframes htruncated
      rw [unframe_some hp]
      refine ⟨f₂, sl₂, rest₂, (hcall.and hrest).mono fun fuel hfuel => .frame hfuel.1 hfuel.2,
        .frame (slice_next hadvance) hrest', h₂, hset, hdata, ?_, htruncated⟩
      rw [hframes, List.length_cons]
      omega

/-- The framers over all the bytes of a source. -/
theorem hands_delivered {src : σ} {data : Bytes} (hread : Delivers read src data last)
    (hlast : last ≠ some .other) (bufLen : ℕ) :
    (∃ f, Enough (fun fuel => Hands (.framer read fuel) (.withBuffer src bufLen) (unframe data).1
        none f) ∧ ∀ fuel, Spent (.framer read fuel) data last f) ∧
      ∃ sl, Hands .slice (.new data) (unframe data).1 none sl ∧ Spent .slice data none sl := by
  obtain ⟨f, sl, rest, hstream, hslice, h, hset, hdata, hframes, htruncated⟩ :=
    hands_matches hlast (matches_new hread bufLen)
  obtain ⟨rfl, -, hcut, htrailing⟩ := h.upcoming.of_eof hset.1
  have hempty : f.window = [] := by
    rw [Framer.window, hset.2, Nat.sub_self, List.take_zero]
  have hsplit := congrArg List.length h.split
  have hbytes := h.bytesIn
  have hle := h.pos_le
  rw [hempty, List.append_nil, List.length_drop, List.length_nil] at hsplit
  rw [List.length_nil, Nat.add_zero] at hbytes
  have hlen : sl.data.length = data.length := congrArg List.length hdata
  have hpos : sl.pos = data.length := by omega
  have hall : (SliceFrames.new data).data.drop (SliceFrames.new data).pos = data := rfl
  rw [hall] at hstream hslice hframes htruncated
  have hcount : sl.frames = (unframe data).1.length := hframes.trans (Nat.zero_add _)
  have hcuts : sl.truncated = if (unframe data).2 = [] then 0 else 1 :=
    htruncated.trans (Nat.zero_add _)
  refine ⟨⟨f, hstream, fun fuel => ⟨h.frames.trans hcount, h.truncated.trans hcuts,
    hbytes.trans hlen, hcut, htrailing⟩⟩, sl, hslice, hcount, hcuts, hpos, rfl, rfl⟩

end Framers

/-! Whole replays. -/

/-- What a run of payloads that all parse leaves. -/
structure Carried (s : Session) (ps : List Bytes) (s' : Session) : Prop where
  messages : s'.stats.messages = s.stats.messages + ps.length
  finished : s'.finished = s.finished

theorem carried_run {cfg : SessionConfig} {ps : List Bytes}
    (hparse : (upToError ps).2 = none) {s s' : Session} {a : Replay}
    (h : Follows cfg s a) {out : List (Except ParseError Unit)}
    (hrun : run Session.applyPayload s ps = .ok (out, s')) :
    Carried s ps s' ∧ ∃ a', Follows cfg s' a' := by
  induction ps generalizing s a out with
  | nil =>
    obtain ⟨-, rfl⟩ := Prod.mk.inj (Except.ok.inj hrun)
    exact ⟨⟨rfl, rfl⟩, a, h⟩
  | cons p ps ih =>
    obtain ⟨r, rs, s₁, hfirst, hrest, -⟩ := run_cons_eq_ok.mp hrun
    cases hp : parse p with
    | error err =>
      rw [upToError_bad hp] at hparse
      cases hparse
    | ok m =>
      rw [upToError_good hp] at hparse
      obtain ⟨-, b, hstep⟩ := applied_of_parse hp hfirst
      obtain ⟨a₁, h₁, -⟩ := message_step s a m b s₁ h hstep
      obtain ⟨moves, hheard⟩ := heard_step (aligned_of_follows h) hstep
      obtain ⟨⟨hmessages, hfinished⟩, hfollows⟩ := ih hparse h₁ hrest
      have hone := hheard.messages
      have hopen := (moved_of_applyMsg (aligned_of_follows h) hstep).finished
      refine ⟨⟨?_, hfinished.trans hopen⟩, hfollows⟩
      rw [hmessages, hone, List.length_singleton, List.length_cons]
      omega

/-- A session with the counters of a source that delivered the bytes and ended as given. -/
def counted (data : Bytes) (last : Option IoError) (s : Session) : Session :=
  { s with stats := { s.stats with
      truncated := if (unframe data).2 = [] then 0 else 1
      sourceCut := decide (last = some .unexpectedEof)
      trailingBytes := trailingOf last
      bytesIn := data.length } }

/-- The session at the end of a replay: closed when the verdict is good, and otherwise as the
payloads left it. -/
def conclude (hash : Bytes → Bytes) (data : Bytes) (last : Option IoError) (s : Session) :
    Except ReplayError Unit → Exec Session
  | .error _ => .ok s
  | .ok () => (counted data last s).finish hash

theorem sourced_eq {φ : Type} {F : FrameSource φ} {data : Bytes} {last : Option IoError} {src : φ}
    (h : Spent F data last src) (s : Session) : sourced F src s = counted data last s := by
  simp only [sourced, counted, h.truncated, h.sourceCut, h.trailingBytes, h.bytesIn]

theorem follows_counted {cfg : SessionConfig} {s : Session} {a : Replay} (h : Follows cfg s a)
    (data : Bytes) (last : Option IoError) :
    Follows cfg (counted data last s) { a with stats := (counted data last s).stats.portable } where
  cfg_eq := h.cfg_eq
  valid := h.valid
  watching := h.watching
  kinds := h.kinds
  books_le := h.books_le
  watched_length := h.watched_length
  locates_length := h.locates_length
  sized := ⟨h.sized.byType, h.sized.byTypeHour, h.sized.row⟩
  books := h.books
  logEvents := h.logEvents
  sState := h.sState
  afterQ := h.afterQ
  log := h.log
  stats := rfl

/-- A replay of a new session over a source that hands out the payloads of the bytes. -/
theorem replay_of_hands {φ : Type} {F : FrameSource φ} {src src' : φ} {data : Bytes}
    {last : Option IoError} (h : Hands F src (unframe data).1 none src')
    (hspent : Spent F data last src') {cfg : SessionConfig} (hcfg : ValidSession cfg)
    {hash : Bytes → Bytes} {s s' : Session} {out : List (Except ParseError Unit)}
    (hrun : run Session.applyPayload (.new cfg) (upToError (unframe data).1).1 = .ok (out, s))
    (hend : conclude hash data last s (verdict 0 (unframe data).1 none) = .ok s') :
    ∃ src₁, ∀ debug calls, (unframe data).1.length < calls →
      replay F debug hash calls (.new cfg) src =
        .ok (verdict 0 (unframe data).1 none, s', src₁) := by
  obtain ⟨src₁, hsrc, hloop⟩ := replayLoop_of_hands h hrun 0
  refine ⟨src₁, fun debug calls hcalls => ?_⟩
  rw [replay, hloop calls hcalls, ok_bind]
  cases hv : verdict 0 (unframe data).1 none with
  | error e =>
    rw [hv] at hend
    obtain rfl := Except.ok.inj hend
    rfl
  | ok u =>
    rw [hv] at hend
    obtain ⟨hall, -⟩ := verdict_eq_ok hv
    obtain rfl := hsrc hall
    rw [upToError_all hall] at hrun
    obtain ⟨⟨hmessages, -⟩, -⟩ := carried_run hall (follows_new hcfg) hrun
    have hsame : s.stats.messages = F.frames src₁ := by
      rw [hmessages, hspent.frames]
      exact Nat.zero_add _
    have hfinish : (counted data last s).finish hash = .ok s' := hend
    simp only [debugEnsure_ok fun _ => hsame, ok_bind, sourced_eq hspent, hfinish, pure_eq_ok]

theorem along_front {ι ρ : Type} {step : Session → ι → Exec (ρ × Session)} {P : Session → Prop}
    {s : Session} {is js : List ι} (h : Along step P s is) (hpre : js <+: is) :
    Along step P s js := fun pre out t hjs hrun => h pre out t (hjs.trans hpre) hrun

/-- A replay is decided by the bytes that the source delivers and the way it ends. Over any
reader, with a buffer of any size, it comes to the verdict of the payloads, and to the session
they leave in front of the first that does not parse: closed, with the counters of the source,
when there is none and otherwise open. In memory it comes to the same, and the debug assertion
never fails. The session watches nothing or reserves what a vector can hold, and no book has
`2 ^ 32 - 1` orders on the way; the reader does not fail on the disk's side. -/
theorem replay_decided_by_bytes {cfg : SessionConfig} (hcfg : ValidSession cfg)
    (hsize : Watching cfg → Reservable cfg.arrayReserve) {data : Bytes}
    (hbound : Along Session.applyPayload Roomy (.new cfg) (unframe data).1)
    (debug : Bool) (hash : Bytes → Bytes) :
    ∃ out s, run Session.applyPayload (.new cfg) (upToError (unframe data).1).1 = .ok (out, s) ∧
      s.finished = false ∧ ∀ last, last ≠ some .other → ∃ s',
        conclude hash data last s (verdict 0 (unframe data).1 none) = .ok s' ∧
        (∀ {σ : Type} {read : σ → ℕ → ReadResult IoError × σ} {src : σ},
          Delivers read src data last → ∀ bufLen, Enough fun fuel => ∃ f,
            replay (.framer read fuel) debug hash fuel (.new cfg) (.withBuffer src bufLen) =
              .ok (verdict 0 (unframe data).1 none, s', f)) ∧
        (last = none → Enough fun fuel => ∃ sl,
          replay .slice debug hash fuel (.new cfg) (.new data) =
            .ok (verdict 0 (unframe data).1 none, s', sl)) := by
  obtain ⟨s, a, hrun, hfollow⟩ := payloads_follow (follows_new hcfg) hsize
    (along_front hbound (upToError_front _))
  obtain ⟨⟨-, hopen⟩, -⟩ := carried_run (upToError_idem _) (follows_new hcfg) hrun
  refine ⟨_, s, hrun, hopen, fun last hlast => ?_⟩
  obtain ⟨s', hend⟩ : ∃ s', conclude hash data last s (verdict 0 (unframe data).1 none) =
      .ok s' := by
    cases verdict 0 (unframe data).1 none with
    | error e => exact ⟨s, rfl⟩
    | ok u => exact finish_ok (follows_counted hfollow data last) hash
  refine ⟨s', hend, fun {σ read src} hread bufLen => ?_, fun hnone => ?_⟩
  · obtain ⟨⟨f, hhands, hspent⟩, -⟩ := hands_delivered hread hlast bufLen
    obtain ⟨N, hN⟩ := hhands
    refine ⟨max N ((unframe data).1.length + 1), fun fuel hfuel => ?_⟩
    obtain ⟨f₁, hreplay⟩ := replay_of_hands (hN fuel (le_trans (le_max_left ..) hfuel))
      (hspent fuel) hcfg hrun hend
    exact ⟨f₁, hreplay debug fuel (le_trans (le_max_right ..) hfuel)⟩
  · subst hnone
    obtain ⟨-, sl, hhands, hspent⟩ :=
      hands_delivered (dribble_delivers none (data.map some)) hlast 0
    have hall : (data.map some).reduceOption = data := by
      show (data.map some).filterMap id = data
      rw [List.filterMap_map]
      exact List.filterMap_some
    rw [hall] at hhands hspent
    obtain ⟨sl₁, hreplay⟩ := replay_of_hands hhands hspent hcfg hrun hend
    exact ⟨(unframe data).1.length + 1, fun fuel hfuel => ⟨sl₁, hreplay debug fuel hfuel⟩⟩

/-- The loop over a reader that delivers payloads which all parse. -/
theorem loop_delivered {s s' : Session} {out : List (Except ParseError Unit)} {σ : Type}
    {read : σ → ℕ → ReadResult IoError × σ} {src : σ} {data : Bytes} {last : Option IoError}
    (hread : Delivers read src data last) (hlast : last ≠ some .other)
    (hgood : (upToError (unframe data).1).2 = none)
    (hrun : run Session.applyPayload s (unframe data).1 = .ok (out, s')) (bufLen : ℕ) :
    Enough fun fuel => ∃ f, replayLoop (.framer read fuel) fuel 0 s (.withBuffer src bufLen) =
      .ok (.ok (), s', f) ∧ Spent (.framer read fuel) data last f := by
  obtain ⟨⟨f, ⟨N, hN⟩, hspent⟩, -⟩ := hands_delivered hread hlast bufLen
  refine ⟨max N ((unframe data).1.length + 1), fun fuel hfuel => ?_⟩
  obtain ⟨src₁, hsame, hcalls⟩ := replayLoop_of_hands
    (hN fuel (le_trans (le_max_left ..) hfuel)) (by rw [upToError_all hgood]; exact hrun) 0
  have hverdict : verdict 0 (unframe data).1 none = .ok () := by simp only [verdict, hgood]
  refine ⟨f, ?_, hspent fuel⟩
  rw [hcalls fuel (le_trans (le_max_right ..) hfuel), hsame hgood, hverdict]

/-- A session that has counted messages already counts the frames of a source on top of them. With
debug assertions the replay of a source whose payloads all parse then aborts, unless there were
none; without them it closes the session, with the messages of all calls beside the bytes of the
last source. -/
theorem replay_after_messages {cfg : SessionConfig} (hcfg : ValidSession cfg)
    (hsize : Watching cfg → Reservable cfg.arrayReserve) {ms : List Msg} {out : List Bool}
    {s : Session} (hms : run Session.applyMsg (.new cfg) ms = .ok (out, s)) {σ : Type}
    {read : σ → ℕ → ReadResult IoError × σ} {src : σ} {data : Bytes} {last : Option IoError}
    (hread : Delivers read src data last) (hlast : last ≠ some .other)
    (hbound : Along Session.applyPayload Roomy s (unframe data).1)
    (hgood : (upToError (unframe data).1).2 = none) (bufLen : ℕ) (hash : Bytes → Bytes) :
    ∃ s', s'.finished = true ∧ s'.stats.messages = ms.length + (unframe data).1.length ∧
      s'.stats.bytesIn = data.length ∧ ∀ debug,
        ((debug = true → ms = []) → Enough fun fuel => ∃ f, replay (.framer read fuel) debug hash
          fuel s (.withBuffer src bufLen) = .ok (.ok (), s', f)) ∧
        (¬ (debug = true → ms = []) → Enough fun fuel => replay (.framer read fuel) debug hash
          fuel s (.withBuffer src bufLen) = .error .assertion) := by
  obtain ⟨-, hfollow⟩ := follows_of_run hcfg hms
  obtain ⟨s₁, a₁, hrun, hfollow₁⟩ := payloads_follow hfollow hsize hbound
  obtain ⟨⟨hmessages, -⟩, -⟩ := carried_run hgood hfollow hrun
  obtain ⟨moves, hheard⟩ := heard_run (aligned_of_follows (follows_new hcfg)) hms
  have hcount : s.stats.messages = ms.length := hheard.messages.trans (Nat.zero_add _)
  rw [hcount] at hmessages
  have hloop := loop_delivered hread hlast hgood hrun bufLen
  obtain ⟨s', hfinish⟩ := finish_ok (follows_counted hfollow₁ data last) hash
  have hdone := finished_of_finish (follows_counted hfollow₁ data last).books_le hfinish
  obtain ⟨locates, logged, count, logHash, allHash, hstats⟩ := hdone.stats
  refine ⟨s', hdone.finished, by rw [hstats]; exact hmessages, by rw [hstats]; rfl,
    fun debug => ⟨fun hfirst => ?_, fun hagain => ?_⟩⟩
  · refine hloop.mono fun fuel ⟨f, hrun₁, hspent⟩ => ⟨f, ?_⟩
    have hsame : debug = true → s₁.stats.messages = (FrameSource.framer read fuel).frames f := by
      intro hdebug
      rw [hspent.frames, hmessages, hfirst hdebug, List.length_nil, Nat.zero_add]
    rw [replay, hrun₁, ok_bind]
    simp only [debugEnsure_ok hsame, ok_bind, sourced_eq hspent, hfinish, pure_eq_ok]
  · refine hloop.mono fun fuel ⟨f, hrun₁, hspent⟩ => ?_
    obtain ⟨hdebug, hms⟩ := Classical.not_imp.mp hagain
    have hdiffer : s₁.stats.messages ≠ (FrameSource.framer read fuel).frames f := by
      rw [hspent.frames, hmessages]
      have := List.length_pos_iff.mpr hms
      omega
    rw [replay, hrun₁, ok_bind]
    simp only [debugEnsure, hdebug, if_true, ensure, if_neg hdiffer, error_bind]

theorem unframe_frames {ps : List Bytes} (hps : ∀ p ∈ ps, p.length ≤ maxPayload) {rest : Bytes}
    (hrest : firstFrame rest = none) : unframe (framed ps ++ rest) = (ps, rest) := by
  induction ps with
  | nil => exact unframe_none hrest
  | cons p ps ih =>
    obtain ⟨hp, hps⟩ := List.forall_mem_cons.mp hps
    rw [framed_cons, List.append_assoc, unframe_some (firstFrame_frameOf hp _), ← length_frameOf,
      List.drop_left, ih hps]

/-- A delete of two bytes. -/
def clipped : Bytes := [68, 0]

/-- An order, a payload that is too short, the order again and a byte of another frame. -/
def brokenDay : Bytes := framed [firstAdd, clipped, firstAdd] ++ [9]

theorem unframe_brokenDay : unframe brokenDay = ([firstAdd, clipped, firstAdd], [9]) :=
  unframe_frames (by decide) (by decide)

theorem parse_firstAdd : parse firstAdd = .ok firstMsg := rfl

theorem verdict_brokenDay :
    verdict 0 (unframe brokenDay).1 none = .error (.parse 1 (.length 68 2)) := by
  have hsecond : parse clipped = .error (.length 68 2) := rfl
  rw [unframe_brokenDay]
  simp only [verdict, upToError_good parse_firstAdd, upToError_bad hsecond]
  rfl

theorem replay_decided_by_bytes_broken : ∃ s, s.finished = false ∧ Enough fun fuel => ∃ f,
    replay (.framer (dribble (some .unexpectedEof)) fuel) true (fun b => b) fuel
      (.new (watchEvery 64)) (.withBuffer (none :: brokenDay.map some) 1) =
        .ok (.error (.parse 1 (.length 68 2)), s, f) := by
  have hbound : Along Session.applyPayload Roomy (.new (watchEvery 64)) (unframe brokenDay).1 :=
    along_of_few payload_step (follows_new (watchEvery_valid 64)) (fun l => (liveAt_new _ _ l).le)
      (by rw [unframe_brokenDay]; decide)
  obtain ⟨out, s, -, hopen, hlast⟩ := replay_decided_by_bytes (watchEvery_valid 64)
    (fun _ => reservable_small) hbound true fun b => b
  obtain ⟨s', hend, hstream, -⟩ := hlast (some .unexpectedEof) (by decide)
  rw [verdict_brokenDay] at hend hstream
  obtain rfl := Except.ok.inj hend
  exact ⟨s, hopen, hstream (dribble_delivers _ (none :: brokenDay.map some)) 1⟩

theorem unframe_firstAdd : unframe (frameOf firstAdd) = ([firstAdd], []) :=
  @unframe_frames [firstAdd] (by decide) [] rfl

/-- A session that has taken one message, and a day of one more. -/
theorem replay_after_messages_one : ∃ out s s',
    run Session.applyMsg (.new (watchEvery 64)) [firstMsg] = .ok (out, s) ∧
      s'.stats.messages = 2 ∧ s'.stats.bytesIn = 38 ∧
      (Enough fun fuel => replay (.framer (dribble none) fuel) true (fun b => b) fuel s
        (.withBuffer ((frameOf firstAdd).map some) 1) = .error .assertion) ∧
      Enough fun fuel => ∃ f, replay (.framer (dribble none) fuel) false (fun b => b) fuel s
        (.withBuffer ((frameOf firstAdd).map some) 1) = .ok (.ok (), s', f) := by
  have hreturns : panics (run Session.applyMsg (.new (watchEvery 64)) [firstMsg]) = false := by
    decide +kernel
  obtain ⟨⟨out, s⟩, hms⟩ := ok_of_not_panics hreturns
  obtain ⟨-, hfollow⟩ := follows_of_run (watchEvery_valid 64) hms
  have hlive : ∀ l, liveAt ((Replay.new true "day").applyAll [note firstMsg]).2 l ≤ 1 := by
    intro l
    have hle := liveAt_apply_le (Replay.new true "day") (note firstMsg) l
    rw [liveAt_new] at hle
    exact hle
  have hread : Delivers (dribble none) ((frameOf firstAdd).map some) (frameOf firstAdd) none :=
    dribble_delivers none ((frameOf firstAdd).map some)
  have hgood : (upToError (unframe (frameOf firstAdd)).1).2 = none := by
    rw [unframe_firstAdd, upToError_good parse_firstAdd]
    rfl
  have hbound : Along Session.applyPayload Roomy s (unframe (frameOf firstAdd)).1 :=
    along_of_few payload_step hfollow hlive (by rw [unframe_firstAdd]; decide)
  obtain ⟨s', -, hmessages, hbytes, hboth⟩ := replay_after_messages (watchEvery_valid 64)
    (fun _ => reservable_small) hms hread (by decide) hbound hgood 1 fun b => b
  rw [unframe_firstAdd] at hmessages
  exact ⟨out, s, s', hms, hmessages, hbytes, (hboth true).2 (by decide), (hboth false).1 nofun⟩

end Lobcore.SessionReplays
