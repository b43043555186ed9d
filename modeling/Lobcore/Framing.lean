import Lobcore.Checked
import Lobcore.Payloads
import Lobcore.Readers

/-!
Frames of a byte stream (`frame.rs`): every payload is preceded by its length in two bytes.
The streaming framer keeps a window of the input in a buffer, completes a frame that
straddles the end of the buffer by moving the window to the front and reading on, and
counts an incomplete last frame. Over a slice the same rules need no buffer.
-/
namespace Lobcore.Framing

open Checked Payloads Readers

/-- An error of a source, apart from an interruption. -/
inductive IoError where
  /-- A compressed stream that was cut. -/
  | unexpectedEof
  /-- Bytes after the last gzip member that are not another member. -/
  | trailingBytes (n : ℕ)
  | other
  deriving DecidableEq, Repr

/-- The length of the largest payload. -/
def maxPayload : ℕ := 65535

/-- Streaming buffer size: 4 MB. -/
def bufLen : ℕ := 4 * 2 ^ 20

/-- The payload of the frame at `pos`, if the `avail` bytes there complete it. -/
def frameAt (b : Bytes) (pos avail : ℕ) : Exec (Option Bytes) :=
  if 2 ≤ avail then do
    let len ← be16 b pos
    if 2 + len.toNat ≤ avail then some <$> slice b (pos + 2) len.toNat else return none
  else .ok none

structure SliceFrames where
  data : Bytes
  pos : ℕ
  frames : ℕ
  truncated : ℕ
  deriving DecidableEq, Repr

namespace SliceFrames

def new (data : Bytes) : SliceFrames := ⟨data, 0, 0, 0⟩

def advance (f : SliceFrames) : Exec (Option Bytes × SliceFrames) := do
  let avail ← subU f.data.length f.pos
  match ← frameAt f.data f.pos avail with
  | some p => return (some p, { f with pos := f.pos + 2 + p.length, frames := f.frames + 1 })
  | none =>
    if 0 < avail then
      return (none, { f with truncated := f.truncated + 1, pos := f.data.length })
    else return (none, f)

def bytesIn (f : SliceFrames) : ℕ := f.pos

end SliceFrames

/-- A framer over a source; the unread window of the buffer is from `start` to `stop`. -/
structure Framer (σ : Type) where
  src : σ
  buf : Bytes
  start : ℕ
  stop : ℕ
  eof : Bool
  cut : Bool
  trailing : ℕ
  frames : ℕ
  truncated : ℕ
  bytesIn : ℕ

namespace Framer

variable {σ : Type} (read : σ → ℕ → ReadResult IoError × σ)

/-- Sizes below the largest frame are raised to it. -/
def withBuffer (src : σ) (bufLen : ℕ) : Framer σ where
  src := src
  buf := List.replicate (max bufLen (2 + maxPayload)) 0
  start := 0
  stop := 0
  eof := false
  cut := false
  trailing := 0
  frames := 0
  truncated := 0
  bytesIn := 0

def new (src : σ) : Framer σ := withBuffer src bufLen

/-- Move the window to the front of the buffer. -/
def compact (f : Framer σ) : Exec (Framer σ) :=
  if 0 < f.start then do
    let n ← subU f.stop f.start
    let window ← slice f.buf f.start n
    return { f with buf := window ++ f.buf.drop n, stop := n, start := 0 }
  else .ok f

/-- The state after a call that wrote a chunk behind the window. -/
def received (f : Framer σ) (src : σ) (chunk : Bytes) : Framer σ :=
  { f with
    src
    buf := f.buf.take f.stop ++ (chunk ++ f.buf.drop (f.stop + chunk.length))
    stop := f.stop + chunk.length
    bytesIn := f.bytesIn + chunk.length }

/-- Read until the buffer is full or the input ends. -/
def readLoop : ℕ → Framer σ → Exec (Except IoError Unit × Framer σ)
  | 0, _ => .error .unfinished
  | fuel + 1, f =>
    if f.stop < f.buf.length then
      match read f.src (f.buf.length - f.stop) with
      | (.ok chunk, src) =>
        if chunk = [] then .ok (.ok (), { f with src, eof := true })
        else readLoop fuel (f.received src chunk)
      | (.interrupted, src) => readLoop fuel { f with src }
      | (.error .unexpectedEof, src) => .ok (.ok (), { f with src, eof := true, cut := true })
      | (.error (.trailingBytes n), src) =>
        .ok (.ok (), { f with src, eof := true, trailing := n })
      | (.error .other, src) => .ok (.error .other, { f with src })
    else .ok (.ok (), f)

def refill (fuel : ℕ) (f : Framer σ) : Exec (Except IoError Unit × Framer σ) := do
  readLoop read fuel (← f.compact)

def nextLoop (reads : ℕ) : ℕ → Framer σ → Exec (Except IoError (Option Bytes) × Framer σ)
  | 0, _ => .error .unfinished
  | fuel + 1, f => do
    let avail ← subU f.stop f.start
    match ← frameAt f.buf f.start avail with
    | some p =>
      return (.ok (some p), { f with start := f.start + 2 + p.length, frames := f.frames + 1 })
    | none =>
      if f.eof then
        if 0 < avail then
          return (.ok none, { f with truncated := f.truncated + 1, start := f.stop })
        else return (.ok none, f)
      else
        match ← f.refill read reads with
        | (.error e, f) => return (.error e, f)
        | (.ok (), f) => nextLoop reads fuel f

/-- The next payload; `fuel` bounds the reads of a refill and the refills. -/
def nextFrame (fuel : ℕ) (f : Framer σ) : Exec (Except IoError (Option Bytes) × Framer σ) :=
  nextLoop read fuel fuel f

end Framer

/-! Frames of bytes, without positions. -/

/-- The first payload of the bytes, if it is complete. -/
def firstFrame (bs : Bytes) : Option Bytes :=
  if 2 ≤ bs.length ∧ 2 + beNat (bs.take 2) ≤ bs.length then
    some ((bs.drop 2).take (beNat (bs.take 2)))
  else none

theorem beNat_two_lt (bs : Bytes) : beNat (bs.take 2) < 2 ^ 16 := by
  rcases bs with _ | ⟨a, _ | ⟨b, bs⟩⟩
  · decide
  · have ha := a.toNat_lt
    simp only [List.take, beNat, List.foldl]
    omega
  · have ha := a.toNat_lt
    have hb := b.toNat_lt
    simp only [List.take, beNat, List.foldl]
    omega

theorem frameAt_eq (b bs : Bytes) (pos : ℕ) (hwin : (b.drop pos).take bs.length = bs)
    (hpos : pos ≤ b.length) : frameAt b pos bs.length = .ok (firstFrame bs) := by
  have hlen : pos + bs.length ≤ b.length := by
    have hlen := congrArg List.length hwin
    rw [List.length_take, List.length_drop] at hlen
    omega
  unfold frameAt firstFrame
  by_cases htwo : 2 ≤ bs.length
  · have hhead : (b.drop pos).take 2 = bs.take 2 := by
      rw [← hwin, List.take_take, min_eq_left htwo]
    have hnum : (UInt16.ofNat (word b pos 2)).toNat = beNat (bs.take 2) := by
      rw [word, hhead, UInt16.toNat_ofNat_of_lt' (beNat_two_lt bs)]
    rw [if_pos htwo, be16_ok (show pos + 2 ≤ b.length by omega), ok_bind, hnum]
    generalize beNat (bs.take 2) = n
    by_cases hfit : 2 + n ≤ bs.length
    · have hpayload : (b.drop (pos + 2)).take n = (bs.drop 2).take n :=
        calc (b.drop (pos + 2)).take n
            = (((b.drop pos).take bs.length).drop 2).take n := by
              rw [List.drop_take, List.take_take, List.drop_drop, min_eq_left (by omega)]
          _ = (bs.drop 2).take n := by rw [hwin]
      rw [if_pos hfit, if_pos ⟨htwo, hfit⟩, slice_ok (by omega), map_ok, hpayload]
    · rw [if_neg hfit, if_neg fun h => hfit h.2]
      rfl
  · rw [if_neg htwo, if_neg fun h => htwo h.1]

theorem firstFrame_length {bs p : Bytes} (h : firstFrame bs = some p) :
    2 + p.length ≤ bs.length := by
  unfold firstFrame at h
  split at h
  · rename_i hfit
    obtain rfl := Option.some.inj h
    rw [List.length_take, List.length_drop]
    omega
  · cases h

/-- More bytes do not change a complete first frame. -/
theorem firstFrame_append {bs p : Bytes} (h : firstFrame bs = some p) (more : Bytes) :
    firstFrame (bs ++ more) = some p := by
  unfold firstFrame at h ⊢
  split at h
  · rename_i hfit
    obtain rfl := Option.some.inj h
    have htake : (bs ++ more).take 2 = bs.take 2 := List.take_append_of_le_length hfit.1
    have hdrop : (bs ++ more).drop 2 = bs.drop 2 ++ more := List.drop_append_of_le_length hfit.1
    rw [htake, hdrop, List.length_append, if_pos ⟨by omega, by omega⟩,
      List.take_append_of_le_length (by rw [List.length_drop]; omega)]
  · cases h

/-- The buffer is never smaller than a frame. -/
theorem firstFrame_isSome {bs : Bytes} (h : 2 + maxPayload ≤ bs.length) :
    ∃ p, firstFrame bs = some p := by
  have hlt := beNat_two_lt bs
  unfold maxPayload at h
  exact ⟨_, if_pos ⟨by omega, by omega⟩⟩

theorem advance_eq {sl : SliceFrames} (hpos : sl.pos ≤ sl.data.length) :
    sl.advance = .ok (match firstFrame (sl.data.drop sl.pos) with
      | some p => (some p, { sl with pos := sl.pos + 2 + p.length, frames := sl.frames + 1 })
      | none =>
        if sl.pos < sl.data.length then
          (none, { sl with truncated := sl.truncated + 1, pos := sl.data.length })
        else (none, sl)) := by
  have hlen : (sl.data.drop sl.pos).length = sl.data.length - sl.pos := List.length_drop
  have hframe := frameAt_eq sl.data (sl.data.drop sl.pos) sl.pos (List.take_length ..) hpos
  rw [hlen] at hframe
  rw [SliceFrames.advance, subU_ok hpos, ok_bind, hframe, ok_bind]
  cases firstFrame (sl.data.drop sl.pos) with
  | some p => rfl
  | none =>
    by_cases hlt : sl.pos < sl.data.length
    · simp only [if_pos hlt, if_pos (Nat.sub_pos_of_lt hlt), pure_eq_ok]
    · simp only [if_neg hlt, if_neg (show ¬ 0 < sl.data.length - sl.pos by omega), pure_eq_ok]

/-- The data stays, and a payload takes at least its length bytes. -/
theorem advance_pos {sl sl₁ : SliceFrames} {r : Option Bytes} (hpos : sl.pos ≤ sl.data.length)
    (h : sl.advance = .ok (r, sl₁)) :
    sl₁.data = sl.data ∧ (r = none ∨ sl.pos + 2 ≤ sl₁.pos) := by
  rw [advance_eq hpos] at h
  cases hp : firstFrame (sl.data.drop sl.pos) with
  | none =>
    simp only [hp] at h
    split at h
    · obtain ⟨rfl, rfl⟩ := Prod.mk.inj (Except.ok.inj h)
      exact ⟨rfl, Or.inl rfl⟩
    · obtain ⟨rfl, rfl⟩ := Prod.mk.inj (Except.ok.inj h)
      exact ⟨rfl, Or.inl rfl⟩
  | some p =>
    simp only [hp] at h
    obtain ⟨rfl, rfl⟩ := Prod.mk.inj (Except.ok.inj h)
    exact ⟨rfl, Or.inr (Nat.le_add_right ..)⟩

/-! What is left to a framer. -/

/-- The bytes in the window. -/
def Framer.window {σ : Type} (f : Framer σ) : Bytes := (f.buf.drop f.start).take (f.stop - f.start)

/-- Nothing is left to frame. -/
def Framer.Settled {σ : Type} (f : Framer σ) : Prop := f.eof = true ∧ f.start = f.stop

/-- The framer after a payload was taken from the window. -/
def Framer.taken {σ : Type} (f : Framer σ) (p : Bytes) : Framer σ :=
  { f with start := f.start + 2 + p.length, frames := f.frames + 1 }

/-- The number of bytes that an ending reports as trailing. -/
def trailingOf : Option IoError → ℕ
  | some (.trailingBytes n) => n
  | _ => 0

end Lobcore.Framing
