import Lobcore.Framing

/-!
The streaming framer against the slice framer. The window of the buffer and what the source
still delivers are what the slice framer has left, through every read of a refill and every
call; so streaming and in-memory framing return the same payloads and counters.
-/
namespace Lobcore.Streaming

open Checked Payloads Readers Framing

/-- What the source still has to deliver, or how it ended. -/
def Upcoming {σ : Type} (read : σ → ℕ → ReadResult IoError × σ) (last : Option IoError)
    (f : Framer σ) (rest : Bytes) : Prop :=
  if f.eof then
    rest = [] ∧ last ≠ some .other ∧ f.cut = decide (last = some .unexpectedEof) ∧
      f.trailing = trailingOf last
  else f.cut = false ∧ f.trailing = 0 ∧ Delivers read f.src rest last

/-- The window and what follows it are what the slice framer has left. -/
structure Matches {σ : Type} (read : σ → ℕ → ReadResult IoError × σ) (last : Option IoError)
    (f : Framer σ) (sl : SliceFrames) (rest : Bytes) : Prop where
  start_le : f.start ≤ f.stop
  stop_le : f.stop ≤ f.buf.length
  room : 2 + maxPayload ≤ f.buf.length
  pos_le : sl.pos ≤ sl.data.length
  split : f.window ++ rest = sl.data.drop sl.pos
  bytesIn : f.bytesIn + rest.length = sl.data.length
  upcoming : Upcoming read last f rest
  frames : f.frames = sl.frames
  truncated : f.truncated = sl.truncated

section Streaming

variable {σ : Type} {read : σ → ℕ → ReadResult IoError × σ} {last : Option IoError}
variable {f : Framer σ} {sl : SliceFrames} {rest : Bytes}

theorem Upcoming.of_eof (h : Upcoming read last f rest) (heof : f.eof = true) :
    rest = [] ∧ last ≠ some .other ∧ f.cut = decide (last = some .unexpectedEof) ∧
      f.trailing = trailingOf last := by
  rwa [Upcoming, if_pos heof] at h

theorem Upcoming.of_open (h : Upcoming read last f rest) (heof : f.eof = false) :
    f.cut = false ∧ f.trailing = 0 ∧ Delivers read f.src rest last := by
  rwa [Upcoming, if_neg (by rw [heof]; decide)] at h

theorem upcoming_open (heof : f.eof = false) (hcut : f.cut = false) (htrailing : f.trailing = 0)
    (hread : Delivers read f.src rest last) : Upcoming read last f rest := by
  rw [Upcoming, if_neg (by rw [heof]; decide)]
  exact ⟨hcut, htrailing, hread⟩

theorem length_window (hstart : f.start ≤ f.stop) (hstop : f.stop ≤ f.buf.length) :
    f.window.length = f.stop - f.start := by
  rw [Framer.window, List.length_take, List.length_drop]
  omega

theorem compact_matches (h : Matches read last f sl rest) :
    ∃ f₁, f.compact = .ok f₁ ∧ Matches read last f₁ sl rest ∧ f₁.start = 0 ∧ f₁.eof = f.eof ∧
      f₁.buf.length = f.buf.length := by
  unfold Framer.compact
  by_cases hpos : 0 < f.start
  · have hstart := h.start_le
    have hstop := h.stop_le
    have hlen := length_window hstart hstop
    rw [if_pos hpos, subU_ok hstart, ok_bind, slice_ok (by omega), ok_bind]
    have hsize : (f.window ++ f.buf.drop (f.stop - f.start)).length = f.buf.length := by
      rw [List.length_append, hlen, List.length_drop]
      omega
    refine ⟨_, rfl, ⟨Nat.zero_le _, ?_, ?_, h.pos_le, ?_, h.bytesIn, h.upcoming, h.frames,
      h.truncated⟩, rfl, rfl, hsize⟩
    · show f.stop - f.start ≤ (f.window ++ f.buf.drop (f.stop - f.start)).length
      rw [List.length_append, hlen]
      omega
    · show 2 + maxPayload ≤ (f.window ++ f.buf.drop (f.stop - f.start)).length
      exact hsize.symm ▸ h.room
    · have hsame : ((f.window ++ f.buf.drop (f.stop - f.start)).drop 0).take
          (f.stop - f.start - 0) =
          f.window := by
        rw [List.drop_zero, Nat.sub_zero, ← hlen, List.take_left']
        rfl
      exact (congrArg (· ++ rest) hsame).trans h.split
  · rw [if_neg hpos]
    exact ⟨f, rfl, h, Nat.eq_zero_of_not_pos hpos, rfl, rfl⟩

/-- A chunk read behind the window prolongs it. -/
theorem window_received (hstart : f.start ≤ f.stop) (hstop : f.stop ≤ f.buf.length) (src : σ)
    (chunk : Bytes) : (f.received src chunk).window = f.window ++ chunk := by
  have htake : (f.buf.take f.stop).length = f.stop := List.length_take_of_le hstop
  have hdrop : (f.buf.take f.stop).drop f.start = f.window := List.drop_take ..
  have hlen := length_window hstart hstop
  show ((f.buf.take f.stop ++ (chunk ++ f.buf.drop (f.stop + chunk.length))).drop f.start).take
    (f.stop + chunk.length - f.start) = _
  rw [List.drop_append_of_le_length (by omega), hdrop, ← List.append_assoc]
  refine List.take_left' ?_
  rw [List.length_append, hlen]
  omega

theorem length_received (f : Framer σ) (src : σ) {chunk : Bytes}
    (hfit : f.stop + chunk.length ≤ f.buf.length) :
    (f.received src chunk).buf.length = f.buf.length := by
  simp only [Framer.received, List.length_append, List.length_take, List.length_drop]
  omega

theorem received_matches {chunk rest : Bytes} {src : σ} (heof : f.eof = false)
    (h : Matches read last f sl (chunk ++ rest)) (hfit : f.stop + chunk.length ≤ f.buf.length)
    (hread : Delivers read src rest last) : Matches read last (f.received src chunk) sl rest := by
  obtain ⟨hcut, htrailing, -⟩ := h.upcoming.of_open heof
  have hlen := length_received f src hfit
  refine ⟨le_trans h.start_le (Nat.le_add_right ..), hlen.symm ▸ hfit, hlen.symm ▸ h.room, h.pos_le,
    ?_, ?_, upcoming_open heof hcut htrailing hread, h.frames, h.truncated⟩
  · rw [window_received h.start_le h.stop_le, List.append_assoc, h.split]
  · have hbytes := h.bytesIn
    rw [List.length_append] at hbytes
    show f.bytesIn + chunk.length + rest.length = sl.data.length
    omega

/-- What a refill comes to: the end of the input is known or the buffer is full, or the source
has failed with everything read and room left. -/
inductive Refilled (read : σ → ℕ → ReadResult IoError × σ) (last : Option IoError) (f : Framer σ)
    (sl : SliceFrames) : Except IoError Unit → Framer σ → Prop
  | filled {f₁ : Framer σ} {rest : Bytes} (hmatch : Matches read last f₁ sl rest)
    (hstart : f₁.start = f.start) (hlen : f₁.buf.length = f.buf.length)
    (hdone : f₁.eof = true ∨ f₁.stop = f₁.buf.length) : Refilled read last f sl (.ok ()) f₁
  | failed {f₁ : Framer σ} (hlast : last = some .other)
    (hshort : f.start + (sl.data.drop sl.pos).length < f.buf.length)
    (hcut : f₁.cut = false) (htrailing : f₁.trailing = 0)
    (htruncated : f₁.truncated = sl.truncated) : Refilled read last f sl (.error .other) f₁

theorem Refilled.of_step {f' f₁ : Framer σ} {r : Except IoError Unit}
    (h : Refilled read last f' sl r f₁) (hstart : f'.start = f.start)
    (hlen : f'.buf.length = f.buf.length) : Refilled read last f sl r f₁ := by
  cases h with
  | filled hmatch hstart' hlen' hdone =>
    exact .filled hmatch (hstart'.trans hstart) (hlen'.trans hlen) hdone
  | failed hlast hshort hcut htrailing htruncated =>
    exact .failed hlast (by rwa [hstart, hlen] at hshort) hcut htrailing htruncated

/-- At the end of the input the framer knows how it ended. -/
theorem filled_eof (h : Matches read last f sl []) (src : σ) (hlast : last ≠ some .other)
    {cut : Bool} {trailing : ℕ} (hcut : cut = decide (last = some .unexpectedEof))
    (htrailing : trailing = trailingOf last) :
    Refilled read last f sl (.ok ()) { f with src, eof := true, cut, trailing } :=
  .filled ⟨h.start_le, h.stop_le, h.room, h.pos_le, h.split, h.bytesIn,
    ⟨rfl, hlast, hcut, htrailing⟩, h.frames, h.truncated⟩ rfl rfl (Or.inl rfl)

/-- A read at the end of the input. -/
theorem readLoop_last (heof : f.eof = false) (h : Matches read last f sl [])
    (hlt : f.stop < f.buf.length)
    (hend : (read f.src (f.buf.length - f.stop)).1 = .last last) :
    ∃ r f₁, (∀ fuel, Framer.readLoop read (fuel + 1) f = .ok (r, f₁)) ∧
      Refilled read last f sl r f₁ := by
  obtain ⟨hcut, htrailing, -⟩ := h.upcoming.of_open heof
  rcases hr : read f.src (f.buf.length - f.stop) with ⟨r, src⟩
  rw [hr] at hend
  obtain rfl : r = .last last := hend
  simp only [Framer.readLoop, if_pos hlt, hr]
  rcases last with _ | _ | n | _
  · exact ⟨_, _, fun _ => if_pos rfl, filled_eof h src nofun hcut htrailing⟩
  · exact ⟨_, _, fun _ => rfl, filled_eof h src nofun rfl htrailing⟩
  · exact ⟨_, _, fun _ => rfl, filled_eof h src nofun hcut rfl⟩
  · refine ⟨_, _, fun _ => rfl, .failed rfl ?_ hcut htrailing h.truncated⟩
    have hcount := congrArg List.length h.split
    have hle := h.start_le
    rw [List.append_nil, length_window hle h.stop_le] at hcount
    omega

/-- Reading goes on until the buffer is full or the input has ended. -/
theorem readLoop_matches {s : σ} (hread : Delivers read s rest last) (hsrc : f.src = s)
    (heof : f.eof = false) (h : Matches read last f sl rest) :
    ∃ r f₁, Enough (fun fuel => Framer.readLoop read fuel f = .ok (r, f₁)) ∧
      Refilled read last f sl r f₁ := by
  unfold Delivers at hread
  induction hread generalizing f with
  | @finish s hend =>
    subst hsrc
    by_cases hlt : f.stop < f.buf.length
    · obtain ⟨r, f₁, hrun, h₁⟩ := readLoop_last heof h hlt (hend _ (Nat.sub_pos_of_lt hlt))
      exact ⟨r, f₁, Enough.of_succ hrun, h₁⟩
    · refine ⟨.ok (), f, Enough.of_succ fun fuel => ?_, .filled h rfl rfl
        (Or.inr (le_antisymm h.stop_le (not_lt.mp hlt)))⟩
      rw [Framer.readLoop, if_neg hlt]
  | @more s data rest' hpiece hrest ih =>
    subst hsrc
    by_cases hlt : f.stop < f.buf.length
    · have hpos := Nat.sub_pos_of_lt hlt
      obtain ⟨hcut, htrailing, -⟩ := h.upcoming.of_open heof
      -- the call with the room that is left in the buffer
      have hnext := hpiece _ hpos
      have hdeliver : Delivers read _ _ last := hrest _ hpos
      have hgo := fun f => @ih _ hpos f
      generalize rest' (f.buf.length - f.stop) = data' at hnext hdeliver hgo
      rcases hr : read f.src (f.buf.length - f.stop) with ⟨r, src⟩
      rw [hr] at hnext hdeliver hgo
      cases hnext with
      | interrupted =>
        have h₁ : Matches read last { f with src := src } sl data :=
          ⟨h.start_le, h.stop_le, h.room, h.pos_le, h.split, h.bytesIn,
            upcoming_open heof hcut htrailing hdeliver, h.frames, h.truncated⟩
        obtain ⟨r₁, f₁, hrun, hdone⟩ := hgo { f with src := src } rfl heof h₁
        refine ⟨r₁, f₁, hrun.succ fun fuel hfuel => ?_, hdone.of_step rfl rfl⟩
        rw [Framer.readLoop, if_pos hlt, hr]
        exact hfuel
      | @chunk chunk _ hne hlen =>
        have h₁ := received_matches heof h (by omega) hdeliver
        obtain ⟨r₁, f₁, hrun, hdone⟩ := hgo (f.received src chunk) rfl heof h₁
        refine ⟨r₁, f₁, hrun.succ fun fuel hfuel => ?_,
          hdone.of_step rfl (length_received f src (by omega))⟩
        rw [Framer.readLoop, if_pos hlt, hr]
        simp only [if_neg hne]
        exact hfuel
    · refine ⟨.ok (), f, Enough.of_succ fun fuel => ?_, .filled h rfl rfl
        (Or.inr (le_antisymm h.stop_le (not_lt.mp hlt)))⟩
      rw [Framer.readLoop, if_neg hlt]

theorem refill_refilled (heof : f.eof = false) (h : Matches read last f sl rest) :
    ∃ f₀ r f₁, f₀.start = 0 ∧ f₀.buf.length = f.buf.length ∧
      Enough (fun fuel => f.refill read fuel = .ok (r, f₁)) ∧ Refilled read last f₀ sl r f₁ := by
  obtain ⟨f₀, hcompact, h₀, hstart, heof₀, hlen⟩ := compact_matches h
  obtain ⟨-, -, hread⟩ := h₀.upcoming.of_open (heof₀.trans heof)
  obtain ⟨r, f₁, hrun, hdone⟩ := readLoop_matches hread rfl (heof₀.trans heof) h₀
  exact ⟨f₀, r, f₁, hstart, hlen,
    hrun.mono fun fuel hfuel => by rw [Framer.refill, hcompact, ok_bind, hfuel], hdone⟩

/-- A refill leaves the end of the input in sight or a window no smaller than a frame. -/
theorem refill_matches (hlast : last ≠ some .other) (heof : f.eof = false)
    (h : Matches read last f sl rest) :
    ∃ f₁ rest₁, Enough (fun fuel => f.refill read fuel = .ok (.ok (), f₁)) ∧
      Matches read last f₁ sl rest₁ ∧ (f₁.eof = true ∨ ∃ p, firstFrame f₁.window = some p) := by
  obtain ⟨f₀, r, f₁, hstart, hlen, hrun, hdone⟩ := refill_refilled heof h
  cases hdone with
  | failed hother => exact absurd hother hlast
  | filled h₁ hstart₁ hlen₁ hfull =>
    refine ⟨f₁, _, hrun, h₁, hfull.imp_right fun hstop => firstFrame_isSome ?_⟩
    have hroom := h₁.room
    rw [length_window h₁.start_le h₁.stop_le, hstart₁, hstart, hstop]
    exact hroom

theorem frameAt_window (h : Matches read last f sl rest) :
    frameAt f.buf f.start (f.stop - f.start) = .ok (firstFrame f.window) := by
  have hlen := length_window h.start_le h.stop_le
  have hframe := frameAt_eq f.buf f.window f.start
    (by rw [hlen, Framer.window]) (le_trans h.start_le h.stop_le)
  rwa [hlen] at hframe

theorem window_taken (h : Matches read last f sl rest) {p : Bytes}
    (hp : firstFrame f.window = some p) :
    (f.taken p).start ≤ f.stop ∧ (f.taken p).window = f.window.drop (2 + p.length) := by
  have hlen := firstFrame_length hp
  have hle := h.start_le
  rw [length_window hle h.stop_le] at hlen
  refine ⟨?_, ?_⟩
  · show f.start + 2 + p.length ≤ f.stop
    omega
  · show (f.buf.drop (f.start + 2 + p.length)).take (f.stop - (f.start + 2 + p.length)) = _
    rw [Framer.window, List.drop_take, List.drop_drop, Nat.add_assoc]
    exact congrArg (fun n => List.take n _) (by omega)

/-- A complete frame in the window. -/
theorem nextLoop_frame (h : Matches read last f sl rest) {p : Bytes}
    (hp : firstFrame f.window = some p) :
    (∀ reads fuel, Framer.nextLoop read reads (fuel + 1) f = .ok (.ok (some p), f.taken p)) ∧
      ∃ sl₁, sl.advance = .ok (some p, sl₁) ∧ Matches read last (f.taken p) sl₁ rest ∧
        sl₁.data.drop sl₁.pos = (sl.data.drop sl.pos).drop (2 + p.length) ∧
        sl₁.truncated = sl.truncated := by
  have hlen := firstFrame_length hp
  have hslice := firstFrame_append hp rest
  rw [h.split] at hslice
  have hpos := firstFrame_length hslice
  rw [List.length_drop] at hpos
  have hadvance := advance_eq h.pos_le
  simp only [hslice] at hadvance
  obtain ⟨hstart, hwindow⟩ := window_taken h hp
  have hskip : sl.data.drop (sl.pos + 2 + p.length) =
      (sl.data.drop sl.pos).drop (2 + p.length) := by
    rw [List.drop_drop, Nat.add_assoc]
  refine ⟨fun reads fuel => ?_, _, hadvance,
    ⟨hstart, h.stop_le, h.room, ?_, ?_, h.bytesIn, h.upcoming,
    congrArg (· + 1) h.frames, h.truncated⟩, hskip, rfl⟩
  · rw [Framer.nextLoop, subU_ok h.start_le, ok_bind, frameAt_window h, hp]
    rfl
  · show sl.pos + 2 + p.length ≤ sl.data.length
    have hle := h.pos_le
    omega
  · show (f.taken p).window ++ rest = sl.data.drop (sl.pos + 2 + p.length)
    rw [hwindow, hskip, ← h.split, List.drop_append_of_le_length hlen]

/-- The end of the input, with what is left of it. -/
theorem nextLoop_eof (h : Matches read last f sl rest) (heof : f.eof = true)
    (hp : firstFrame f.window = none) :
    ∃ f₁ sl₁, (∀ reads fuel, Framer.nextLoop read reads (fuel + 1) f = .ok (.ok none, f₁)) ∧
      sl.advance = .ok (none, sl₁) ∧ Matches read last f₁ sl₁ [] ∧ f₁.eof = true ∧
      f₁.start = f₁.stop := by
  obtain ⟨rfl, -⟩ := h.upcoming.of_eof heof
  have hlen := length_window h.start_le h.stop_le
  have hsplit := h.split
  rw [List.append_nil] at hsplit
  have hcount := congrArg List.length hsplit
  rw [hlen, List.length_drop] at hcount
  have hstart := h.start_le
  have hpos := h.pos_le
  have hadvance := advance_eq h.pos_le
  simp only [← hsplit, hp] at hadvance
  have hloop : ∀ reads fuel, Framer.nextLoop read reads (fuel + 1) f =
      if 0 < f.stop - f.start then
        .ok (.ok none, { f with truncated := f.truncated + 1, start := f.stop })
      else .ok (.ok none, f) := by
    intro reads fuel
    rw [Framer.nextLoop, subU_ok h.start_le, ok_bind, frameAt_window h, hp, ok_bind]
    simp only [heof, if_true]
    rfl
  by_cases hleft : f.start < f.stop
  · rw [if_pos (by omega)] at hadvance
    refine ⟨{ f with truncated := f.truncated + 1, start := f.stop }, _,
      fun reads fuel => ?_, hadvance,
      ⟨le_rfl, h.stop_le, h.room, le_rfl, ?_, h.bytesIn, h.upcoming, h.frames,
        congrArg (· + 1) h.truncated⟩, heof, rfl⟩
    · rw [hloop, if_pos (Nat.sub_pos_of_lt hleft)]
    · simp [Framer.window]
  · rw [if_neg (by omega)] at hadvance
    refine ⟨f, sl, fun reads fuel => ?_, hadvance, h, heof,
      le_antisymm h.start_le (not_lt.mp hleft)⟩
    rw [hloop, if_neg (by omega)]

/-- A call that has to refill and then finds a frame or the end of the input. -/
theorem nextFrame_refill (h : Matches read last f sl rest) (heof : f.eof = false)
    (hp : firstFrame f.window = none) {f₁ f₂ : Framer σ} {r : Option Bytes}
    (hrefill : Enough fun fuel => f.refill read fuel = .ok (.ok (), f₁))
    (hnext : ∀ reads fuel, Framer.nextLoop read reads (fuel + 1) f₁ = .ok (.ok r, f₂)) :
    Enough fun fuel => f.nextFrame read fuel = .ok (.ok r, f₂) := by
  have htwo : Enough fun fuel => ∃ n, fuel = n + 2 := (Enough.of_succ fun n => ⟨n, rfl⟩).succ
    (p := fun fuel => ∃ n, fuel = n + 1) fun fuel ⟨n, hn⟩ => ⟨n, by rw [hn]⟩
  refine (hrefill.and htwo).mono fun fuel ⟨hfuel, n, hn⟩ => ?_
  rw [Framer.nextFrame]
  conv_lhs => rw [hn]
  rw [Framer.nextLoop, subU_ok h.start_le, ok_bind, frameAt_window h, hp, ok_bind, ← hn]
  simp only [heof, Bool.false_eq_true, if_false, hfuel, ok_bind]
  exact hnext fuel n

/-- A call whose refill fails. -/
theorem nextFrame_failed (h : Matches read last f sl rest) (heof : f.eof = false)
    (hp : firstFrame f.window = none) {f₁ : Framer σ} {e : IoError} {fuel n : ℕ}
    (hrefill : f.refill read fuel = .ok (.error e, f₁)) (hn : fuel = n + 1) :
    f.nextFrame read fuel = .ok (.error e, f₁) := by
  rw [Framer.nextFrame]
  conv_lhs => rw [hn]
  rw [Framer.nextLoop, subU_ok h.start_le, ok_bind, frameAt_window h, hp, ok_bind, ← hn]
  simp only [heof, Bool.false_eq_true, if_false, hrefill, ok_bind]
  rfl

/-- One call: the framer returns what the slice framer returns. -/
theorem nextFrame_matches (hlast : last ≠ some .other) (h : Matches read last f sl rest) :
    ∃ r f₁ sl₁ rest₁, Enough (fun fuel => f.nextFrame read fuel = .ok (.ok r, f₁)) ∧
      sl.advance = .ok (r, sl₁) ∧ Matches read last f₁ sl₁ rest₁ ∧
      (r = none → f₁.eof = true ∧ f₁.start = f₁.stop) := by
  cases hp : firstFrame f.window with
  | some p =>
    obtain ⟨hrun, sl₁, hadvance, h₁, -⟩ := nextLoop_frame h hp
    exact ⟨some p, f.taken p, sl₁, rest, Enough.of_succ fun fuel => hrun _ fuel,
      hadvance, h₁, nofun⟩
  | none =>
    by_cases heof : f.eof = true
    · obtain ⟨f₁, sl₁, hrun, hadvance, h₁, hend⟩ := nextLoop_eof h heof hp
      exact ⟨none, f₁, sl₁, [], Enough.of_succ fun fuel => hrun _ fuel, hadvance, h₁, fun _ => hend⟩
    · have hopen : f.eof = false := by simpa using heof
      obtain ⟨f₁, rest₁, hrefill, h₁, hdone⟩ := refill_matches hlast hopen h
      -- the second round always ends: the input is over or the window holds a frame
      cases hp₁ : firstFrame f₁.window with
      | some p =>
        obtain ⟨hnext, sl₂, hadvance, h₂, -⟩ := nextLoop_frame h₁ hp₁
        exact ⟨some p, f₁.taken p, sl₂, rest₁, nextFrame_refill h hopen hp hrefill hnext,
          hadvance, h₂, nofun⟩
      | none =>
        have heof₁ := hdone.resolve_right fun ⟨p, hp'⟩ => by rw [hp₁] at hp'; cases hp'
        obtain ⟨f₂, sl₂, hnext, hadvance, h₂, hend⟩ := nextLoop_eof h₁ heof₁ hp₁
        exact ⟨none, f₂, sl₂, [], nextFrame_refill h hopen hp hrefill hnext, hadvance, h₂,
          fun _ => hend⟩

theorem nextFrame_settled (read : σ → ℕ → ReadResult IoError × σ) (h : f.Settled) (fuel : ℕ) :
    f.nextFrame read (fuel + 1) = .ok (.ok none, f) := by
  have havail : subU f.stop f.start = .ok 0 := by
    rw [subU_ok (le_of_eq h.2), h.2, Nat.sub_self]
  have hframe : frameAt f.buf f.start 0 = .ok none := if_neg (by decide)
  simp only [Framer.nextFrame, Framer.nextLoop, havail, ok_bind, hframe, h.1,
    if_true, Nat.lt_irrefl, if_false, pure_eq_ok]

/-- Any number of calls: the same results, and the end is met after as many frames as fit. -/
theorem run_matches (hlast : last ≠ some .other) (h : Matches read last f sl rest) (k : ℕ) :
    ∃ results f₁ sl₁ rest₁,
      Enough (fun fuel => run (fun f (_ : Unit) => Framer.nextFrame read fuel f) f
        (List.replicate k ()) = .ok (results.map .ok, f₁)) ∧
      run (fun sl (_ : Unit) => SliceFrames.advance sl) sl (List.replicate k ()) =
        .ok (results, sl₁) ∧
      Matches read last f₁ sl₁ rest₁ ∧ (f.Settled ∨ none ∈ results → f₁.Settled) ∧
      sl₁.data = sl.data ∧ (none ∈ results ∨ sl.pos + 2 * k ≤ sl₁.pos) := by
  induction k generalizing f sl rest with
  | zero =>
    refine ⟨[], f, sl, rest, ⟨0, fun _ _ => rfl⟩, rfl, h, ?_, rfl, Or.inr le_rfl⟩
    exact fun hset => hset.resolve_right (List.not_mem_nil)
  | succ k ih =>
    obtain ⟨r, f₁, sl₁, rest₁, hcall, hadvance, h₁, hend⟩ := nextFrame_matches hlast h
    obtain ⟨results, f₂, sl₂, rest₂, hrun, hslice, h₂, hset, hdata, hpos⟩ := ih h₁
    obtain ⟨hdata₁, hpos₁⟩ := advance_pos h.pos_le hadvance
    have hsettled : f.Settled → f₁.Settled := by
      intro hf
      obtain ⟨N, hN⟩ := hcall
      have hsame := (nextFrame_settled read hf N).symm.trans (hN (N + 1) (Nat.le_succ N))
      exact (Prod.mk.inj (Except.ok.inj hsame)).2 ▸ hf
    refine ⟨r :: results, f₂, sl₂, rest₂, (hcall.and hrun).mono fun fuel hfuel =>
      run_cons_ok hfuel.1 hfuel.2, run_cons_ok hadvance hslice, h₂, ?_, hdata.trans hdata₁, ?_⟩
    · rintro (hf | hmem)
      · exact hset (Or.inl (hsettled hf))
      · rcases List.mem_cons.mp hmem with hr | hmem
        · exact hset (Or.inl (hend hr.symm))
        · exact hset (Or.inr hmem)
    · rcases hpos₁ with rfl | hpos₁
      · exact Or.inl (List.mem_cons_self ..)
      · rcases hpos with hmem | hpos
        · exact Or.inl (List.mem_cons_of_mem _ hmem)
        · exact Or.inr (by omega)

theorem matches_new {src : σ} {data : Bytes} (hread : Delivers read src data last) (bufLen : ℕ) :
    Matches read last (.withBuffer src bufLen) (.new data) data where
  start_le := le_rfl
  stop_le := Nat.zero_le _
  room := by
    show 2 + maxPayload ≤ (List.replicate (max bufLen (2 + maxPayload)) 0).length
    rw [List.length_replicate]
    exact le_max_right ..
  pos_le := Nat.zero_le _
  split := rfl
  bytesIn := Nat.zero_add _
  upcoming := ⟨rfl, rfl, hread⟩
  frames := rfl
  truncated := rfl

/-- Streaming and in-memory framing agree, for a buffer of any size and however the source
hands out its bytes: any number of calls return the same payloads and counters, the end is
met, and from there on nothing changes. -/
theorem framer_agrees_with_slice {src : σ} {data : Bytes} (hread : Delivers read src data last)
    (hlast : last ≠ some .other) (bufLen k : ℕ) :
    ∃ results f₁ sl₁,
      Enough (fun fuel => run (fun f (_ : Unit) => Framer.nextFrame read fuel f)
        (.withBuffer src bufLen) (List.replicate k ()) = .ok (results.map .ok, f₁)) ∧
      run (fun sl (_ : Unit) => SliceFrames.advance sl) (.new data) (List.replicate k ()) =
        .ok (results, sl₁) ∧
      f₁.frames = sl₁.frames ∧ f₁.truncated = sl₁.truncated ∧
      (data.length < k → none ∈ results) ∧
      (none ∈ results → f₁.bytesIn = sl₁.bytesIn ∧
        (f₁.cut = true ↔ last = some .unexpectedEof) ∧ f₁.trailing = trailingOf last ∧
        ∀ fuel, f₁.nextFrame read (fuel + 1) = .ok (.ok none, f₁)) := by
  obtain ⟨results, f₁, sl₁, rest₁, hrun, hslice, h₁, hset, hdata, hpos⟩ :=
    run_matches hlast (matches_new hread bufLen) k
  refine ⟨results, f₁, sl₁, hrun, hslice, h₁.frames, h₁.truncated, fun hk => ?_, fun hmem => ?_⟩
  · refine hpos.resolve_right fun hle => ?_
    have hend := h₁.pos_le
    rw [hdata] at hend
    replace hend : sl₁.pos ≤ data.length := hend
    omega
  · have hsettled := hset (Or.inr hmem)
    obtain ⟨rfl, -, hcut, htrailing⟩ := h₁.upcoming.of_eof hsettled.1
    have hempty : f₁.window = [] := by
      rw [Framer.window, hsettled.2, Nat.sub_self, List.take_zero]
    have hsplit := congrArg List.length h₁.split
    rw [hempty, List.length_drop] at hsplit
    have hbytes := h₁.bytesIn
    have hle := h₁.pos_le
    refine ⟨?_, by rw [hcut, decide_eq_true_iff], htrailing, nextFrame_settled read hsettled⟩
    show f₁.bytesIn = sl₁.pos
    simp only [List.length_nil, List.nil_append] at hsplit hbytes
    omega

end Streaming

/-- A source of single bytes and interruptions. -/
def dribble (last : Option IoError) :
    List (Option UInt8) → ℕ → ReadResult IoError × List (Option UInt8)
  | [], _ => (.last last, [])
  | none :: s, _ => (.interrupted, s)
  | some b :: s, _ => (.ok [b], s)

theorem dribble_delivers (last : Option IoError) (s : List (Option UInt8)) :
    Delivers (dribble last) s s.reduceOption last := by
  induction s with
  | nil => exact .finish fun _ _ => rfl
  | cons b s ih =>
    cases b with
    | none => exact .more (fun _ => s.reduceOption) (fun n _ => .interrupted _) fun _ _ => ih
    | some b =>
      refine .more (fun _ => s.reduceOption) (fun n hn => ?_) fun _ _ => ih
      exact Piece.chunk s.reduceOption (List.cons_ne_nil b []) hn

theorem framer_agrees_with_slice_dribble : ∃ results f₁ sl₁,
    Enough (fun fuel => run
      (fun f (_ : Unit) => Framer.nextFrame (dribble (some (.trailingBytes 3)))
      fuel f) (.withBuffer [some 0, none, some 1, some 65, some 9] 1) (List.replicate 9 ()) =
        .ok (results.map .ok, f₁)) ∧
      run (fun sl (_ : Unit) => SliceFrames.advance sl) (.new [0, 1, 65, 9]) (List.replicate 9 ()) =
        .ok (results, sl₁) ∧
      f₁.frames = sl₁.frames ∧ f₁.truncated = sl₁.truncated ∧ (4 < 9 → none ∈ results) ∧
      (none ∈ results → f₁.bytesIn = sl₁.bytesIn ∧
        (f₁.cut = true ↔ some (.trailingBytes 3) = some IoError.unexpectedEof) ∧ f₁.trailing = 3 ∧
        ∀ fuel, f₁.nextFrame (dribble (some (.trailingBytes 3))) (fuel + 1) =
          .ok (.ok none, f₁)) :=
  framer_agrees_with_slice (dribble_delivers (some (.trailingBytes 3))
    [some 0, none, some 1, some 65, some 9]) (by decide) 1 9

end Lobcore.Streaming
