import Lobcore.Framing
import Lobcore.Writers

/-!
Cut streams. Payloads are framed one after another and the bytes are cut anywhere: the slice
framer returns the payloads whose frames are whole, counts a cut frame once, and from then on
returns nothing and counts nothing.
-/
namespace Lobcore.SliceCuts

open Checked Payloads Readers Framing Writers

/-- A payload after its length in two bytes. -/
def frameOf (p : Bytes) : Bytes := beBytes 2 p.length ++ p

def framed (ps : List Bytes) : Bytes := ps.flatMap frameOf

/-- Where the first `i` frames end. -/
def boundary (ps : List Bytes) (i : ℕ) : ℕ := (framed (ps.take i)).length

def IsBoundary (ps : List Bytes) (k : ℕ) : Prop := ∃ i ≤ ps.length, boundary ps i = k

/-- The number of frames inside the first `k` bytes. -/
def complete : ℕ → List Bytes → ℕ
  | _, [] => 0
  | k, p :: ps => if 2 + p.length ≤ k then complete (k - (2 + p.length)) ps + 1 else 0

/-- Calls for the next payload. -/
def calls (sl : SliceFrames) (n : ℕ) : Exec (List (Option Bytes) × SliceFrames) :=
  run (fun sl (_ : Unit) => sl.advance) sl (List.replicate n ())

@[simp] theorem length_frameOf (p : Bytes) : (frameOf p).length = 2 + p.length := by
  rw [frameOf, List.length_append, length_beBytes]

theorem framed_cons (p : Bytes) (ps : List Bytes) : framed (p :: ps) = frameOf p ++ framed ps := rfl

theorem boundary_zero (ps : List Bytes) : boundary ps 0 = 0 := rfl

theorem boundary_cons (p : Bytes) (ps : List Bytes) (i : ℕ) :
    boundary (p :: ps) (i + 1) = 2 + p.length + boundary ps i := by
  rw [boundary, List.take_succ_cons, framed_cons, List.length_append, length_frameOf, boundary]

theorem complete_le (k : ℕ) (ps : List Bytes) : complete k ps ≤ ps.length := by
  induction ps generalizing k with
  | nil => exact le_rfl
  | cons p ps ih =>
    have hrec := ih (k - (2 + p.length))
    simp only [complete, List.length_cons]
    split <;> omega

/-- A frame is counted exactly when it ends inside the bytes. -/
theorem lt_complete_iff {ps : List Bytes} {i : ℕ} (hi : i < ps.length) (k : ℕ) :
    i < complete k ps ↔ boundary ps (i + 1) ≤ k := by
  induction ps generalizing i k with
  | nil => cases hi
  | cons p ps ih =>
    rw [complete, boundary_cons]
    by_cases hp : 2 + p.length ≤ k
    · rw [if_pos hp]
      cases i with
      | zero =>
        rw [boundary_zero]
        omega
      | succ i =>
        have hrec := ih (i := i) (by simpa using hi) (k - (2 + p.length))
        omega
    · rw [if_neg hp]
      omega

theorem isBoundary_cons {p : Bytes} {ps : List Bytes} {k : ℕ} (hk : 0 < k) :
    IsBoundary (p :: ps) k ↔ 2 + p.length ≤ k ∧ IsBoundary ps (k - (2 + p.length)) := by
  constructor
  · intro h
    obtain ⟨i, hi, hik⟩ := h
    cases i with
    | zero =>
      rw [boundary_zero] at hik
      omega
    | succ i =>
      rw [boundary_cons] at hik
      exact ⟨by omega, i, by simpa using hi, by omega⟩
  · intro h
    obtain ⟨hp, i, hi, hik⟩ := h
    exact ⟨i + 1, by simpa using hi, by rw [boundary_cons]; omega⟩

/-! One frame. -/

section Frames

variable {p : Bytes} (hp : p.length ≤ maxPayload)

include hp

theorem beNat_frameOf (rest : Bytes) : beNat ((frameOf p ++ rest).take 2) = p.length := by
  have hlt : p.length < 256 ^ 2 := by
    unfold maxPayload at hp
    omega
  rw [frameOf, List.append_assoc, List.take_left' (length_beBytes ..), beNat_beBytes,
    Nat.mod_eq_of_lt hlt]

theorem firstFrame_frameOf (rest : Bytes) : firstFrame (frameOf p ++ rest) = some p := by
  have hdrop : (frameOf p ++ rest).drop 2 = p ++ rest := by
    rw [frameOf, List.append_assoc, List.drop_left' (length_beBytes ..)]
  rw [firstFrame, beNat_frameOf hp, hdrop, List.length_append, length_frameOf,
    if_pos ⟨by omega, by omega⟩, List.take_left]

/-- A cut frame is none. -/
theorem firstFrame_cut {k : ℕ} (hk : k < 2 + p.length) (rest : Bytes) :
    firstFrame ((frameOf p ++ rest).take k) = none := by
  refine if_neg fun h => ?_
  obtain ⟨htwo, hfit⟩ := h
  have hlen := List.length_take_le k (frameOf p ++ rest)
  rw [List.take_take, min_eq_left (htwo.trans hlen), beNat_frameOf hp] at hfit
  omega

end Frames

/-! Calls. -/

/-- Once no frame is left, the rest is given up and counted, and nothing changes any more. -/
theorem calls_end {sl : SliceFrames} (hpos : sl.pos ≤ sl.data.length)
    (hnone : firstFrame (sl.data.drop sl.pos) = none) (n : ℕ) :
    ∃ sl', calls sl n = .ok (List.replicate n none, sl') ∧ sl'.frames = sl.frames ∧
      sl'.truncated = sl.truncated + (if 0 < n ∧ sl.pos < sl.data.length then 1 else 0) ∧
      sl'.bytesIn = if 0 < n then sl.data.length else sl.pos := by
  have hidle : ∀ sl : SliceFrames, sl.pos = sl.data.length →
      ∀ n, calls sl n = .ok (List.replicate n none, sl) := by
    intro sl hend n
    have hstep : sl.advance = .ok (none, sl) := by
      rw [advance_eq (le_of_eq hend), hend, List.drop_length]
      simp [firstFrame]
    induction n with
    | zero => rfl
    | succ n ih => exact run_cons_ok hstep ih
  by_cases hleft : sl.pos < sl.data.length
  · cases n with
    | zero => exact ⟨sl, rfl, rfl, by simp, by simp [SliceFrames.bytesIn]⟩
    | succ n =>
      have hstep := advance_eq hpos
      simp only [hnone, if_pos hleft] at hstep
      exact ⟨_, run_cons_ok hstep (hidle _ rfl n), rfl, by simp [hleft],
        by simp [SliceFrames.bytesIn]⟩
  · have hend : sl.pos = sl.data.length := by omega
    exact ⟨sl, hidle sl hend n, rfl, by simp [hleft], by simp [SliceFrames.bytesIn, hend]⟩

/-- The calls on a slice whose unread part is a cut of framed payloads. -/
theorem calls_cut {ps : List Bytes} (hps : ∀ p ∈ ps, p.length ≤ maxPayload)
    {sl : SliceFrames} {k : ℕ}
    (hlen : sl.pos + k = sl.data.length) (hk : k ≤ (framed ps).length)
    (hdata : sl.data.drop sl.pos = (framed ps).take k) (n : ℕ) : ∃ sl',
      calls sl n = .ok ((List.range n).map fun i => (ps.take (complete k ps))[i]?, sl') ∧
      sl'.frames = sl.frames + min n (complete k ps) ∧
      sl'.truncated =
        sl.truncated + (if complete k ps < n ∧ boundary ps (complete k ps) ≠ k then 1 else 0) ∧
      sl'.bytesIn = sl.pos + if complete k ps < n then k else boundary ps n := by
  have hpos : sl.pos ≤ sl.data.length := hlen ▸ Nat.le_add_right ..
  induction ps generalizing sl k n with
  | nil =>
    have hzero : k = 0 := by simpa [framed] using hk
    subst hzero
    obtain ⟨sl', hrun, hframes, htruncated, hbytes⟩ := calls_end hpos (by rw [hdata]; rfl) n
    refine ⟨sl', ?_, ?_, ?_, ?_⟩
    · simpa [complete] using hrun
    · simpa [complete] using hframes
    · rw [htruncated, if_neg (by omega), if_neg fun h => h.2 rfl]
    · rw [hbytes]
      simp only [boundary, List.take_nil, framed, List.flatMap_nil, List.length_nil]
      split <;> split <;> omega
  | cons p ps ih =>
    have hp := hps p (List.mem_cons_self ..)
    rw [framed_cons] at hdata hk
    by_cases hwhole : 2 + p.length ≤ k
    · have hsplit : (frameOf p ++ framed ps).take k =
          frameOf p ++ (framed ps).take (k - (2 + p.length)) := by
        rw [List.take_append, List.take_of_length_le (by simpa using hwhole), length_frameOf]
      have hstep := advance_eq hpos
      rw [hdata, hsplit, firstFrame_frameOf hp] at hstep
      rw [List.length_append, length_frameOf] at hk
      rw [complete, if_pos hwhole]
      cases n with
      | zero => exact ⟨sl, rfl, by simp, by simp, by simp [SliceFrames.bytesIn, boundary_zero]⟩
      | succ n =>
        have hrest : sl.data.drop (sl.pos + 2 + p.length) =
            (framed ps).take (k - (2 + p.length)) := by
          rw [Nat.add_assoc, ← List.drop_drop, hdata, hsplit, List.drop_left' (length_frameOf p)]
        have hlen₁ : (SliceFrames.mk sl.data (sl.pos + 2 + p.length) (sl.frames + 1)
            sl.truncated).pos + (k - (2 + p.length)) = sl.data.length := by
          simp only
          omega
        obtain ⟨sl', hrun, hframes, htruncated, hbytes⟩ := ih
          (fun q hq => hps q (List.mem_cons_of_mem _ hq)) hlen₁ (by omega) hrest n
          (hlen₁ ▸ Nat.le_add_right ..)
        have hcut : (complete (k - (2 + p.length)) ps < n ∧
              boundary ps (complete (k - (2 + p.length)) ps) ≠ k - (2 + p.length)) ↔
            complete (k - (2 + p.length)) ps + 1 < n + 1 ∧
              2 + p.length + boundary ps (complete (k - (2 + p.length)) ps) ≠ k := by
          omega
        rw [boundary_cons, boundary_cons, List.take_succ_cons, List.range_succ_eq_map,
          List.map_cons, List.map_map]
        refine ⟨sl', run_cons_ok hstep hrun, ?_, ?_, ?_⟩
        · rw [hframes]
          simp only
          omega
        · rw [htruncated, if_congr hcut rfl rfl]
        · rw [hbytes]
          simp only
          split <;> split <;> omega
    · have hnone : firstFrame (sl.data.drop sl.pos) = none := by
        rw [hdata]
        exact firstFrame_cut hp (not_le.mp hwhole) _
      obtain ⟨sl', hrun, hframes, htruncated, hbytes⟩ := calls_end hpos hnone n
      rw [complete, if_neg hwhole, boundary_zero]
      refine ⟨sl', ?_, ?_, ?_, ?_⟩
      · simpa using hrun
      · simpa using hframes
      · have hcut : (0 < n ∧ sl.pos < sl.data.length) ↔ 0 < n ∧ 0 ≠ k := by omega
        rw [htruncated, if_congr hcut rfl rfl]
      · rw [hbytes]
        by_cases hn : 0 < n
        · rw [if_pos hn, if_pos hn, hlen]
        · obtain rfl : n = 0 := by omega
          simp [boundary_zero]

/-- The bytes end with a frame exactly when the whole frames fill them. -/
theorem isBoundary_iff (ps : List Bytes) (k : ℕ) :
    IsBoundary ps k ↔ boundary ps (complete k ps) = k := by
  refine ⟨fun h => ?_, fun h => ⟨_, complete_le k ps, h⟩⟩
  induction ps generalizing k with
  | nil =>
    obtain ⟨i, hi, rfl⟩ := h
    obtain rfl : i = 0 := Nat.le_zero.mp hi
    rfl
  | cons p ps ih =>
    by_cases hk : 0 < k
    · obtain ⟨hp, hrest⟩ := (isBoundary_cons hk).mp h
      have hrec := ih _ hrest
      rw [complete, if_pos hp, boundary_cons]
      omega
    · obtain rfl : k = 0 := by omega
      rw [complete, if_neg (by omega)]
      rfl

instance (ps : List Bytes) (k : ℕ) : Decidable (IsBoundary ps k) :=
  decidable_of_iff _ (isBoundary_iff ps k).symm

/-- Whatever is framed and wherever the bytes are cut, the calls return exactly the payloads whose
frames are whole, in order and unchanged, and then nothing. A cut inside a frame is counted once,
when the end is met; all bytes have then been taken, and the counters stay. -/
theorem cut_stream_frames {ps : List Bytes} (hps : ∀ p ∈ ps, p.length ≤ 65535) {k : ℕ}
    (hk : k ≤ (framed ps).length) : ∃ w ≤ ps.length,
      (∀ i < ps.length, i < w ↔ boundary ps (i + 1) ≤ k) ∧
      ∀ n, ∃ sl, calls (.new ((framed ps).take k)) n =
          .ok ((List.range n).map fun i => (ps.take w)[i]?, sl) ∧
        sl.frames = min n w ∧
        sl.truncated = (if w < n ∧ ¬ IsBoundary ps k then 1 else 0) ∧
        sl.bytesIn = if w < n then k else boundary ps n := by
  refine ⟨complete k ps, complete_le k ps, fun i hi => lt_complete_iff hi k, fun n => ?_⟩
  have hlen : (SliceFrames.new ((framed ps).take k)).pos + k = ((framed ps).take k).length := by
    rw [List.length_take, min_eq_left hk]
    exact Nat.zero_add k
  obtain ⟨sl, hrun, hframes, htruncated, hbytes⟩ := calls_cut hps hlen hk rfl n
  refine ⟨sl, hrun, by rw [hframes]; exact Nat.zero_add _, ?_, by rw [hbytes]; exact Nat.zero_add _⟩
  have hcut : (complete k ps < n ∧ boundary ps (complete k ps) ≠ k) ↔
      complete k ps < n ∧ ¬ IsBoundary ps k := by rw [isBoundary_iff]
  rw [htruncated, if_congr hcut rfl rfl]
  exact Nat.zero_add _

theorem cut_stream_frames_inside : ∃ w ≤ 2, ∀ n, ∃ sl,
    calls (.new ((framed [[1, 2, 3], []]).take 6)) n =
      .ok ((List.range n).map fun i => ([[1, 2, 3], []].take w)[i]?, sl) ∧ sl.frames = min n w := by
  have hps : ∀ p ∈ ([[1, 2, 3], []] : List Bytes), p.length ≤ 65535 := by decide
  obtain ⟨w, hw, -, hcalls⟩ := cut_stream_frames hps (k := 6) (by decide)
  refine ⟨w, hw, fun n => ?_⟩
  obtain ⟨sl, hrun, hframes, -, -⟩ := hcalls n
  exact ⟨sl, hrun, hframes⟩

end Lobcore.SliceCuts
