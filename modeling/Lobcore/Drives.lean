import Lobcore.Streaming

/-!
A source driven to its end, as a replay does: frames are asked for until the input is over or
the source fails. What comes out depends on nothing but the bytes that the source delivers and
the way it ends: the complete payloads, what is left behind them, or the payloads that were
framed before a failure.
-/
namespace Lobcore.Drives

open Checked Payloads Readers Framing Streaming

/-- Call for frames until the input is over: the payloads, and the error of the source if one
ends the loop. -/
def drive {σ : Type} (read : σ → ℕ → ReadResult IoError × σ) (fuel : ℕ) :
    ℕ → Framer σ → Exec ((List Bytes × Option IoError) × Framer σ)
  | 0, _ => .error .unfinished
  | calls + 1, f => do
    match ← f.nextFrame read fuel with
    | (.error e, f) => return (([], some e), f)
    | (.ok none, f) => return (([], none), f)
    | (.ok (some p), f) =>
      let ((ps, e), f) ← drive read fuel calls f
      return ((p :: ps, e), f)

/-- The complete payloads of the bytes and what is left behind them. -/
def unframe (bs : Bytes) : List Bytes × Bytes :=
  match h : firstFrame bs with
  | none => ([], bs)
  | some p =>
    let rest := unframe (bs.drop (2 + p.length))
    (p :: rest.1, rest.2)
termination_by bs.length
decreasing_by
  have hlen := firstFrame_length h
  rw [List.length_drop]
  omega

theorem unframe_none {bs : Bytes} (h : firstFrame bs = none) : unframe bs = ([], bs) := by
  rw [unframe]
  split
  · rfl
  · rename_i p hp
    rw [h] at hp
    cases hp

theorem unframe_some {bs p : Bytes} (h : firstFrame bs = some p) :
    unframe bs = (p :: (unframe (bs.drop (2 + p.length))).1,
      (unframe (bs.drop (2 + p.length))).2) := by
  rw [unframe]
  split
  · rename_i hnone
    rw [h] at hnone
    cases hnone
  · rename_i q hq
    obtain rfl : p = q := Option.some.inj (h.symm.trans hq)
    rfl

/-- More bytes continue what was left. -/
theorem unframe_append (bs more : Bytes) :
    unframe (bs ++ more) = ((unframe bs).1 ++ (unframe ((unframe bs).2 ++ more)).1,
      (unframe ((unframe bs).2 ++ more)).2) := by
  induction hn : bs.length using Nat.strong_induction_on generalizing bs with
  | _ n ih =>
    cases h : firstFrame bs with
    | none => rw [unframe_none h, List.nil_append]
    | some p =>
      have hlen := firstFrame_length h
      rw [unframe_some (firstFrame_append h more), unframe_some h,
        List.drop_append_of_le_length hlen,
        ih _ (by rw [List.length_drop]; omega) (bs.drop (2 + p.length)) rfl]
      rfl

/-- Two counters of an incomplete last frame are the same when both or neither count one. -/
theorem count_eq_iff {as bs : Bytes} :
    ((if as = [] then 0 else 1 : ℕ) = if bs = [] then 0 else 1) ↔ (as = [] ↔ bs = []) := by
  by_cases ha : as = [] <;> by_cases hb : bs = [] <;> simp [ha, hb]

section Driving

variable {σ : Type} {read : σ → ℕ → ReadResult IoError × σ} {last : Option IoError}
variable {f : Framer σ} {sl : SliceFrames} {rest : Bytes}

/-- One more call at the front of a drive. -/
theorem drive_succ {p : Bytes} {f₁ f₂ : Framer σ} {out : List Bytes × Option IoError} {n : ℕ}
    (hcall : Enough fun fuel => f.nextFrame read fuel = .ok (.ok (some p), f₁))
    (hrest : Enough fun fuel => ∀ calls, n < calls → drive read fuel calls f₁ = .ok (out, f₂)) :
    Enough fun fuel => ∀ calls, n + 1 < calls →
      drive read fuel calls f = .ok ((p :: out.1, out.2), f₂) := by
  refine (hcall.and hrest).mono fun fuel hfuel calls hcalls => ?_
  obtain ⟨calls, rfl⟩ := Nat.exists_eq_succ_of_ne_zero (Nat.ne_of_gt (Nat.zero_lt_of_lt hcalls))
  rw [drive, hfuel.1, ok_bind]
  simp only [hfuel.2 calls (Nat.lt_of_succ_lt_succ hcalls), ok_bind, pure_eq_ok]

theorem drive_matches (hlast : last ≠ some .other) (h : Matches read last f sl rest) :
    ∃ f₁, Enough (fun fuel => ∀ calls, (unframe (sl.data.drop sl.pos)).1.length < calls →
        drive read fuel calls f = .ok (((unframe (sl.data.drop sl.pos)).1, none), f₁)) ∧
      f₁.truncated = sl.truncated + (if (unframe (sl.data.drop sl.pos)).2 = [] then 0 else 1) ∧
      f₁.cut = decide (last = some .unexpectedEof) ∧ f₁.trailing = trailingOf last := by
  induction hn : (sl.data.drop sl.pos).length using Nat.strong_induction_on
    generalizing f sl rest with
  | _ n ih =>
    obtain ⟨r, f₁, sl₁, rest₁, hcall, hadvance, h₁, hend⟩ := nextFrame_matches hlast h
    have hslice := hadvance
    rw [advance_eq h.pos_le] at hslice
    cases hp : firstFrame (sl.data.drop sl.pos) with
    | none =>
      have hsame : r = none ∧ sl₁.truncated =
          sl.truncated + if sl.data.drop sl.pos = [] then 0 else 1 := by
        have hempty : sl.data.drop sl.pos = [] ↔ ¬ sl.pos < sl.data.length := by
          rw [List.drop_eq_nil_iff, not_lt]
        simp only [hp] at hslice
        by_cases hleft : sl.pos < sl.data.length
        · rw [if_pos hleft] at hslice
          obtain ⟨rfl, rfl⟩ := Prod.mk.inj (Except.ok.inj hslice)
          exact ⟨rfl, by rw [if_neg fun hnil => hempty.mp hnil hleft]⟩
        · rw [if_neg hleft] at hslice
          obtain ⟨rfl, rfl⟩ := Prod.mk.inj (Except.ok.inj hslice)
          exact ⟨rfl, by rw [if_pos (hempty.mpr hleft)]; rfl⟩
      obtain ⟨rfl, htruncated⟩ := hsame
      obtain ⟨-, -, hcut, htrailing⟩ := h₁.upcoming.of_eof (hend rfl).1
      rw [unframe_none hp]
      refine ⟨f₁, hcall.mono fun fuel hfuel calls hcalls => ?_, h₁.truncated.trans htruncated, hcut,
        htrailing⟩
      obtain ⟨calls, rfl⟩ := Nat.exists_eq_succ_of_ne_zero (Nat.ne_of_gt hcalls)
      rw [drive, hfuel]
      rfl
    | some p =>
      simp only [hp] at hslice
      obtain ⟨rfl, rfl⟩ := Prod.mk.inj (Except.ok.inj hslice)
      have hlen := firstFrame_length hp
      have hdrop : sl.data.drop (sl.pos + 2 + p.length) =
          (sl.data.drop sl.pos).drop (2 + p.length) := by rw [List.drop_drop, Nat.add_assoc]
      obtain ⟨f₂, hrest, htruncated, hcut, htrailing⟩ :=
        ih (sl.data.drop (sl.pos + 2 + p.length)).length
          (by rw [hdrop, List.length_drop]; omega) h₁ rfl
      simp only [hdrop] at hrest htruncated
      rw [unframe_some hp]
      exact ⟨f₂, drive_succ hcall hrest, htruncated, hcut, htrailing⟩

theorem eof_of_failing (h : Matches read (some .other) f sl rest) : f.eof = false := by
  by_contra heof
  obtain ⟨-, hother, -⟩ := h.upcoming.of_eof (by simpa using heof)
  exact hother rfl

theorem window_eq (h : Matches read last f sl rest) :
    f.window = (sl.data.drop sl.pos).take f.window.length := by
  rw [← h.split, List.take_left']
  rfl

/-- With enough bytes to come, a refill of a failing source fills the buffer. -/
theorem refill_full (h : Matches read (some .other) f sl rest)
    (henough : f.buf.length ≤ (sl.data.drop sl.pos).length) :
    ∃ f₁ rest₁, Enough (fun fuel => f.refill read fuel = .ok (.ok (), f₁)) ∧
      Matches read (some .other) f₁ sl rest₁ ∧ f₁.buf.length = f.buf.length ∧
      f₁.window.length = f.buf.length := by
  obtain ⟨f₀, r, f₁, hstart, hlen, hrun, hdone⟩ := refill_refilled (eof_of_failing h) h
  cases hdone with
  | failed _ hshort => omega
  | filled h₁ hstart₁ hlen₁ hfull =>
    have hstop := hfull.resolve_left (by rw [eof_of_failing h₁]; decide)
    refine ⟨f₁, _, hrun, h₁, hlen₁.trans hlen, ?_⟩
    rw [length_window h₁.start_le h₁.stop_le]
    omega

/-- Otherwise the failure ends the refill. -/
theorem refill_short (h : Matches read (some .other) f sl rest)
    (hshort : (sl.data.drop sl.pos).length < f.buf.length) :
    ∃ f₁, Enough (fun fuel => f.refill read fuel = .ok (.error .other, f₁)) ∧
      f₁.truncated = sl.truncated ∧ f₁.cut = false ∧ f₁.trailing = 0 := by
  obtain ⟨f₀, r, f₁, hstart, hlen, hrun, hdone⟩ := refill_refilled (eof_of_failing h) h
  cases hdone with
  | failed _ _ hcut htrailing htruncated => exact ⟨f₁, hrun, htruncated, hcut, htrailing⟩
  | filled h₁ hstart₁ hlen₁ hfull =>
    have hstop := hfull.resolve_left (by rw [eof_of_failing h₁]; decide)
    have hcount := congrArg List.length h₁.split
    rw [List.length_append, length_window h₁.start_le h₁.stop_le] at hcount
    omega

/-- A source that fails: the payloads framed before it does depend on the sizes of the buffer
and of the window, and on the bytes, alone. -/
theorem drive_fails (size held : ℕ) (data : Bytes) :
    ∃ payloads, ∀ {σ : Type} {read : σ → ℕ → ReadResult IoError × σ} {f : Framer σ}
      {sl : SliceFrames} {rest : Bytes}, Matches read (some .other) f sl rest →
      f.buf.length = size → f.window.length = held → sl.data.drop sl.pos = data →
      ∃ f₁, Enough (fun fuel => ∀ calls, data.length < calls →
          drive read fuel calls f = .ok ((payloads, some .other), f₁)) ∧
        f₁.truncated = sl.truncated ∧ f₁.cut = false ∧ f₁.trailing = 0 := by
  induction hn : data.length using Nat.strong_induction_on generalizing held data with
  | _ n ih =>
    subst hn
    -- the payloads behind a first frame, from the hypothesis of the induction
    have hbehind : ∀ p, 2 + p.length ≤ data.length → ∀ held, ∃ payloads,
        ∀ {σ : Type} {read : σ → ℕ → ReadResult IoError × σ} {f f₀ : Framer σ} {sl : SliceFrames}
          {rest : Bytes}, Matches read (some .other) f₀ sl rest → f₀.buf.length = size →
          f₀.window.length = held → sl.data.drop sl.pos = data → firstFrame f₀.window = some p →
          Enough (fun fuel => f.nextFrame read fuel = .ok (.ok (some p), f₀.taken p)) →
          ∃ f₁, Enough (fun fuel => ∀ calls, data.length < calls →
              drive read fuel calls f = .ok ((p :: payloads, some .other), f₁)) ∧
            f₁.truncated = sl.truncated ∧ f₁.cut = false ∧ f₁.trailing = 0 := by
      intro p hlen held
      have hdrop : (data.drop (2 + p.length)).length + 2 ≤ data.length := by
        rw [List.length_drop]
        omega
      obtain ⟨payloads, hps⟩ :=
        ih _ (by omega) (held - (2 + p.length)) (data.drop (2 + p.length)) rfl
      refine ⟨payloads, fun {σ read f f₀ sl rest} h hsize hheld hdata hp hcall => ?_⟩
      obtain ⟨-, sl₁, -, h₁, hleft, htruncated⟩ := nextLoop_frame h hp
      obtain ⟨f₁, hrun, hf₁, hcounts⟩ := hps h₁ hsize
        (by rw [(window_taken h hp).2, List.length_drop, hheld]) (by rw [hleft, hdata])
      refine ⟨f₁, (drive_succ hcall hrun).mono fun fuel hfuel calls hcalls => ?_,
        hf₁.trans htruncated, hcounts⟩
      exact hfuel calls (by omega)
    cases hp : firstFrame (data.take held) with
    | some p =>
      have hlen := firstFrame_length hp
      rw [List.length_take] at hlen
      obtain ⟨payloads, hps⟩ := hbehind p (by omega) held
      refine ⟨p :: payloads, fun {σ read f sl rest} h hsize hheld hdata => ?_⟩
      have hwindow : firstFrame f.window = some p := by rw [window_eq h, hheld, hdata, hp]
      exact hps h hsize hheld hdata hwindow
        (Enough.of_succ fun fuel => (nextLoop_frame h hwindow).1 _ fuel)
    | none =>
      have hnone : ∀ {σ : Type} {read : σ → ℕ → ReadResult IoError × σ} {f : Framer σ}
          {sl : SliceFrames} {rest : Bytes}, Matches read (some .other) f sl rest →
          f.window.length = held → sl.data.drop sl.pos = data → firstFrame f.window = none :=
        fun h hheld hdata => by rw [window_eq h, hheld, hdata, hp]
      by_cases henough : size ≤ data.length
      · cases hq : firstFrame (data.take size) with
        | some p =>
          have hlen := firstFrame_length hq
          rw [List.length_take] at hlen
          obtain ⟨payloads, hps⟩ := hbehind p (by omega) size
          refine ⟨p :: payloads, fun {σ read f sl rest} h hsize hheld hdata => ?_⟩
          obtain ⟨f₀, rest₀, hrefill, h₀, hsize₀, hheld₀⟩ :=
            refill_full h (by rw [hsize, hdata]; exact henough)
          have hwindow : firstFrame f₀.window = some p := by
            rw [window_eq h₀, hheld₀, hsize, hdata, hq]
          exact hps h₀ (hsize₀.trans hsize) (hheld₀.trans hsize) hdata hwindow
            (nextFrame_refill h (eof_of_failing h) (hnone h hheld hdata) hrefill
              (nextLoop_frame h₀ hwindow).1)
        | none =>
          -- the buffer is no smaller than a frame
          refine ⟨[], fun {σ read f sl rest} h hsize hheld hdata => ?_⟩
          have hroom := h.room
          have hlen : 2 + maxPayload ≤ (data.take size).length := by
            rw [List.length_take]
            omega
          obtain ⟨p, hfull⟩ := firstFrame_isSome hlen
          rw [hq] at hfull
          cases hfull
      · refine ⟨[], fun {σ read f sl rest} h hsize hheld hdata => ?_⟩
        obtain ⟨f₁, hrefill, hcounts⟩ := refill_short h (by rw [hsize, hdata]; omega)
        refine ⟨f₁, ?_, hcounts⟩
        refine (hrefill.and (Enough.of_succ (p := fun fuel => ∃ n, fuel = n + 1)
          fun n => ⟨n, rfl⟩)).mono fun fuel ⟨hfuel, m, hm⟩ calls hcalls => ?_
        obtain ⟨calls, rfl⟩ :=
          Nat.exists_eq_succ_of_ne_zero (Nat.ne_of_gt (Nat.zero_lt_of_lt hcalls))
        rw [drive, nextFrame_failed h (eof_of_failing h) (hnone h hheld hdata) hfuel hm]
        rfl

/-- What a drive comes to is decided by the bytes the source delivers and how it ends: the
complete payloads and whether something is left behind them, unless the source fails. -/
theorem drive_delivered (data : Bytes) (last : Option IoError) :
    ∃ payloads truncated,
      (last ≠ some .other → payloads = (unframe data).1 ∧
        truncated = if (unframe data).2 = [] then 0 else 1) ∧
      ∀ {σ : Type} {read : σ → ℕ → ReadResult IoError × σ} {src : σ}, Delivers read src data last →
        ∃ f, Enough (fun fuel => drive read fuel fuel (.new src) =
            .ok ((payloads, if last = some .other then some .other else none), f)) ∧
          f.truncated = truncated ∧ f.cut = decide (last = some .unexpectedEof) ∧
          f.trailing = trailingOf last := by
  by_cases hlast : last = some .other
  · subst hlast
    obtain ⟨payloads, hps⟩ := drive_fails (max bufLen (2 + maxPayload)) 0 data
    refine ⟨payloads, 0, fun hne => absurd rfl hne, fun {σ read src} hread => ?_⟩
    obtain ⟨f, ⟨N, hN⟩, hcounts⟩ :=
      hps (matches_new hread bufLen) List.length_replicate rfl rfl
    refine ⟨f, ⟨max N (data.length + 1), fun fuel hfuel => ?_⟩, hcounts⟩
    exact hN fuel (le_trans (le_max_left ..) hfuel) fuel (le_trans (le_max_right ..) hfuel)
  · refine ⟨_, _, fun _ => ⟨rfl, rfl⟩, fun {σ read src} hread => ?_⟩
    obtain ⟨f, ⟨N, hN⟩, htruncated, hends⟩ := drive_matches hlast (matches_new hread bufLen)
    rw [if_neg hlast]
    refine ⟨f, ⟨max N ((unframe data).1.length + 1), fun fuel hfuel => ?_⟩,
      htruncated.trans (Nat.zero_add _), hends⟩
    exact hN fuel (le_trans (le_max_left ..) hfuel) fuel (le_trans (le_max_right ..) hfuel)

end Driving

/-! All frames of a slice, and all bytes of a source. -/

/-- The payloads of a slice framer, collected. -/
def collect : ℕ → SliceFrames → Exec (List Bytes × SliceFrames)
  | 0, _ => .error .unfinished
  | fuel + 1, f => do
    match ← f.advance with
    | (none, f) => return ([], f)
    | (some p, f) =>
      let (ps, f) ← collect fuel f
      return (p :: ps, f)

theorem collect_eq (sl : SliceFrames) (hpos : sl.pos ≤ sl.data.length) :
    ∃ sl₁, Enough (fun fuel => collect fuel sl = .ok ((unframe (sl.data.drop sl.pos)).1, sl₁)) ∧
      sl₁.truncated = sl.truncated + if (unframe (sl.data.drop sl.pos)).2 = [] then 0 else 1 := by
  induction hn : (sl.data.drop sl.pos).length using Nat.strong_induction_on generalizing sl with
  | _ n ih =>
    have hadvance := advance_eq hpos
    cases hp : firstFrame (sl.data.drop sl.pos) with
    | none =>
      simp only [hp] at hadvance
      rw [unframe_none hp]
      by_cases hleft : sl.pos < sl.data.length
      · rw [if_pos hleft] at hadvance
        refine ⟨_, Enough.of_succ fun fuel => by rw [collect, hadvance]; rfl, ?_⟩
        have hne : ¬ sl.data.drop sl.pos = [] := by
          intro hnil
          exact absurd (List.drop_eq_nil_iff.mp hnil) (not_le.mpr hleft)
        rw [if_neg hne]
      · rw [if_neg hleft] at hadvance
        refine ⟨_, Enough.of_succ fun fuel => by rw [collect, hadvance]; rfl, ?_⟩
        rw [if_pos (List.drop_eq_nil_iff.mpr (not_lt.mp hleft))]
        rfl
    | some p =>
      simp only [hp] at hadvance
      have hlen := firstFrame_length hp
      have hdrop : sl.data.drop (sl.pos + 2 + p.length) =
          (sl.data.drop sl.pos).drop (2 + p.length) := by rw [List.drop_drop, Nat.add_assoc]
      have hcount : sl.pos + 2 + p.length ≤ sl.data.length := by
        rw [List.length_drop] at hlen
        omega
      obtain ⟨sl₁, hrest, htruncated⟩ := ih _ (by rw [hdrop, List.length_drop]; omega)
        { sl with pos := sl.pos + 2 + p.length, frames := sl.frames + 1 } hcount rfl
      simp only [hdrop] at hrest htruncated
      rw [unframe_some hp]
      refine ⟨sl₁, hrest.succ fun fuel hfuel => ?_, htruncated⟩
      rw [collect, hadvance, ok_bind]
      simp only [hfuel, ok_bind, pure_eq_ok]

/-- Read to the end, a megabyte at a time: the bytes, and whether the source was cut. -/
def readAll {σ : Type} (read : σ → ℕ → ReadResult IoError × σ) :
    ℕ → σ → Bytes → Exec (IoResult IoError (Bytes × Bool))
  | 0, _, _ => .error .unfinished
  | fuel + 1, s, out =>
    match read s (2 ^ 20) with
    | (.ok chunk, s) =>
      if chunk = [] then .ok (.ok (out, false)) else readAll read fuel s (out ++ chunk)
    | (.interrupted, s) => readAll read fuel s out
    | (.error .unexpectedEof, _) => .ok (.ok (out, true))
    | (.error (.trailingBytes _), _) => .ok (.ok (out, false))
    | (.error .other, _) => .ok (.error .other)

theorem readAll_delivers {σ : Type} {read : σ → ℕ → ReadResult IoError × σ} {s : σ} {data : Bytes}
    {last : Option IoError} (hread : Delivers read s data last) (hlast : last ≠ some .other)
    (out : Bytes) :
    Enough fun fuel => readAll read fuel s out =
      .ok (.ok (out ++ data, decide (last = some .unexpectedEof))) := by
  unfold Delivers at hread
  have hpos : 0 < 2 ^ 20 := by decide
  induction hread generalizing out with
  | @finish s hend =>
    refine Enough.of_succ fun fuel => ?_
    have hr := hend _ hpos
    rcases hread : read s (2 ^ 20) with ⟨r, s₁⟩
    rw [hread] at hr
    obtain rfl : r = .last last := hr
    simp only [readAll, hread, List.append_nil]
    rcases last with _ | _ | n | _
    · exact if_pos rfl
    · rfl
    · rfl
    · exact absurd rfl hlast
  | @more s data rest hpiece hrest ih =>
    have hnext := hpiece _ hpos
    have hgo := ih _ hpos
    rcases hread : read s (2 ^ 20) with ⟨r, s₁⟩
    rw [hread] at hnext hgo
    generalize rest (2 ^ 20) = data₁ at hnext hgo
    cases hnext with
    | interrupted =>
      refine (hgo out).succ fun fuel hfuel => ?_
      simp only [readAll, hread]
      exact hfuel
    | @chunk chunk _ hne hlen =>
      refine (hgo (out ++ chunk)).succ fun fuel hfuel => ?_
      simp only [readAll, hread, if_neg hne]
      rw [hfuel, List.append_assoc]

end Lobcore.Drives
