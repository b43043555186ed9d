import Lobcore.Bitmaps
import Mathlib.Data.List.Induction

/-!
Runs of the occupancy bitmap (`levels.rs`). A new bitmap and any sequence of `set` and
`clear` calls stand for the indices set and not cleared since, and the bitmap depends on
nothing else: two sequences that leave the same set leave equal bitmaps.
-/
namespace Lobcore.Bitmaps

open Checked WordBits

/-- A call that changes the bitmap. -/
inductive Mark where
  | set (i : ℕ)
  | clear (i : ℕ)
  deriving DecidableEq

def Mark.index : Mark → ℕ
  | .set i => i
  | .clear i => i

/-- The indices set and not cleared since. -/
def marked (ms : List Mark) : Set ℕ :=
  {i | ∃ before after, ms = before ++ .set i :: after ∧ Mark.clear i ∉ after}

variable {n : ℕ} {ms : List Mark}

theorem marked_nil : marked [] = ∅ := by
  ext i
  simp [marked]

/-- Only the last call on an index counts. -/
theorem mem_marked_concat {m : Mark} {i : ℕ} :
    i ∈ marked (ms ++ [m]) ↔ m = .set i ∨ i ∈ marked ms ∧ m ≠ .clear i := by
  constructor
  · rintro ⟨before, after, heq, hnot⟩
    rcases List.eq_nil_or_concat after with rfl | ⟨after, last, rfl⟩
    · have hlast := (List.append_inj' heq rfl).2
      simp only [List.cons.injEq, and_true] at hlast
      exact Or.inl hlast
    · rw [List.concat_eq_append] at heq hnot
      rw [List.mem_append, List.mem_singleton, not_or] at hnot
      rw [← List.cons_append, ← List.append_assoc] at heq
      obtain ⟨hinit, hlast⟩ := List.append_inj' heq rfl
      simp only [List.cons.injEq, and_true] at hlast
      exact Or.inr ⟨⟨before, after, hinit, hnot.1⟩, hlast ▸ Ne.symm hnot.2⟩
  · rintro (rfl | ⟨⟨before, after, rfl, hnot⟩, hm⟩)
    · exact ⟨ms, [], rfl, List.not_mem_nil⟩
    · refine ⟨before, after ++ [m], by simp, ?_⟩
      rw [List.mem_append, List.mem_singleton]
      exact fun hmem => hmem.elim hnot (Ne.symm hm)

theorem marked_concat_set (i : ℕ) : marked (ms ++ [.set i]) = insert i (marked ms) := by
  ext j
  simp [mem_marked_concat, eq_comm]

theorem marked_concat_clear (i : ℕ) : marked (ms ++ [.clear i]) = marked ms \ {i} := by
  ext j
  simp [mem_marked_concat, eq_comm]

namespace Bitmap

variable {b b' : Bitmap}

def mark (b : Bitmap) : Mark → Exec Bitmap
  | .set i => b.set i
  | .clear i => b.clear i

/-- A new bitmap after a sequence of calls. -/
def after (n : ℕ) (ms : List Mark) : Exec Bitmap := do
  let b ← new n
  ms.foldlM mark b

/-- The shift of `is_set` stays below the width. -/
theorem isSet_eq_shr (b : Bitmap) (i : ℕ) : b.isSet i = (do
    let word ← index b.words (i / 64)
    let bit ← shr word (i % 64)
    return bit &&& 1#64 = 1#64) := by
  have hbit : i % 64 < 64 := Nat.mod_lt i (by decide)
  simp only [isSet, shr_ok hbit, ok_bind]

/-- What the bitmap answers when it stands for a set of indices below `n`. -/
structure Represents (b : Bitmap) (n : ℕ) (s : Set ℕ) : Prop where
  members_eq : b.members = s
  isSet : ∀ i < n, ∃ bit, b.isSet i = .ok bit ∧ (bit = true ↔ i ∈ s)
  summary : ∀ k, k ∈ bits b.summary ↔ ∃ word, b.words[k]? = some word ∧ word ≠ 0#64
  max : ∃ o, b.max = .ok o ∧ IsMax s o
  min : ∃ o, b.min = .ok o ∧ IsMin s o
  prevSet : ∀ i < n, ∃ o, b.prevSet i = .ok o ∧ IsMax {j | j ∈ s ∧ j < i} o
  nextSet : ∀ i < n, ∃ o, b.nextSet i = .ok o ∧ IsMin {j | j ∈ s ∧ i < j} o

theorem WF.represents (h : b.WF n) : b.Represents n b.members where
  members_eq := rfl
  isSet _ hi := isSet_spec h hi
  summary := h.summary_iff
  max := max_spec h
  min := min_spec h
  prevSet _ hi := prevSet_spec h hi
  nextSet _ hi := nextSet_spec h hi

/-- One call changes the set as its name says. -/
theorem mark_spec (h : b.WF n) (hb : b.members = marked ms) {m : Mark} (hm : m.index < n) :
    ∃ b', b.mark m = .ok b' ∧ b'.WF n ∧ b'.members = marked (ms ++ [m]) := by
  cases m with
  | set i =>
    obtain ⟨b', hrun, hwf, hmem⟩ := set_spec h (i := i) hm
    exact ⟨b', hrun, hwf, by rw [hmem, hb, marked_concat_set]⟩
  | clear i =>
    obtain ⟨b', hrun, hwf, hmem⟩ := clear_spec h (i := i) hm
    exact ⟨b', hrun, hwf, by rw [hmem, hb, marked_concat_clear]⟩

theorem after_spec (hn : n ≤ maxLevels) (hms : ∀ m ∈ ms, m.index < n) :
    ∃ b, after n ms = .ok b ∧ b.WF n ∧ b.members = marked ms := by
  induction ms using List.reverseRecOn with
  | nil =>
    obtain ⟨b, hnew, hwf, hempty⟩ := new_spec hn
    exact ⟨b, by simp [after, hnew], hwf, by rw [hempty, marked_nil]⟩
  | append_singleton ms m ih =>
    obtain ⟨b, hrun, hwf, hmem⟩ := ih fun x hx => hms x (List.mem_append_left _ hx)
    obtain ⟨b', hmark, hwf', hmem'⟩ := mark_spec hwf hmem (hms m (by simp))
    refine ⟨b', ?_, hwf', hmem'⟩
    obtain ⟨b₀, hnew, hfold⟩ := bind_eq_ok.mp hrun
    simp only [after, hnew, ok_bind, List.foldlM_append, hfold, List.foldlM_cons, hmark,
      List.foldlM_nil, pure_eq_ok]

/-- Any sequence of `set` and `clear` calls below `n` runs through, and the bitmap answers
every question as the set of the indices set and not cleared since. -/
theorem represents_marked (hn : n ≤ maxLevels) (hms : ∀ m ∈ ms, m.index < n) :
    ∃ b, after n ms = .ok b ∧ b.Represents n (marked ms) := by
  obtain ⟨b, hrun, hwf, hmem⟩ := after_spec hn hms
  exact ⟨b, hrun, hmem ▸ hwf.represents⟩

/-- Both sides of two word boundaries and the last index of the widest window. -/
theorem represents_marked_boundaries :
    ∃ b, after 4096 [.set 0, .set 63, .set 64, .set 127, .set 4095, .clear 64] = .ok b ∧
      b.Represents 4096 (marked [.set 0, .set 63, .set 64, .set 127, .set 4095, .clear 64]) :=
  represents_marked (by decide) (by decide)

example : (do
    let b ← after 4096 [.set 0, .set 63, .set 64, .set 127, .set 4095]
    return (← b.nextSet 63, ← b.nextSet 127, ← b.prevSet 64, ← b.nextSet 4095)) =
      .ok (some 64, some 4095, some 63, none) := by decide +kernel

/-- The set below `n` determines the bitmap. -/
theorem WF.eq_of_members_eq (h : b.WF n) (h' : b'.WF n) (hmem : b.members = b'.members) :
    b = b' := by
  have hwords : b.words = b'.words := by
    refine List.ext_getElem (h.length_eq.trans h'.length_eq.symm) fun k hk hk' => ?_
    apply eq_of_bits_eq
    ext j
    by_cases hj : j < 64
    · rw [← mem_at (List.getElem?_eq_getElem hk) hj, ← mem_at (List.getElem?_eq_getElem hk') hj,
        hmem]
    · exact iff_of_false (fun hbit => hj (lt_of_mem_bits hbit)) fun hbit => hj (lt_of_mem_bits hbit)
  have hsummary : b.summary = b'.summary := by
    apply eq_of_bits_eq
    ext k
    rw [h.summary_iff, h'.summary_iff, hwords]
  cases b
  cases b'
  simp_all

/-- A redundant `set` leaves the bitmap as it was. -/
theorem WF.set_of_mem (h : b.WF n) {i : ℕ} (hi : i ∈ b.members) : b.set i = .ok b := by
  obtain ⟨b', hrun, hwf, hmem⟩ := set_spec h (h.lt_of_mem i hi)
  rw [Set.insert_eq_of_mem hi] at hmem
  rw [hrun, hwf.eq_of_members_eq h hmem]

/-- A redundant `clear` leaves the bitmap as it was. -/
theorem WF.clear_of_notMem (h : b.WF n) {i : ℕ} (hi : i < n) (hnot : i ∉ b.members) :
    b.clear i = .ok b := by
  obtain ⟨b', hrun, hwf, hmem⟩ := clear_spec h hi
  rw [Set.sdiff_singleton_eq_self hnot] at hmem
  rw [hrun, hwf.eq_of_members_eq h hmem]

/-- Sequences that leave the same set leave equal bitmaps. -/
theorem after_eq_of_marked_eq {ms' : List Mark} (hn : n ≤ maxLevels)
    (hms : ∀ m ∈ ms, m.index < n) (hms' : ∀ m ∈ ms', m.index < n)
    (heq : marked ms = marked ms') : after n ms = after n ms' := by
  obtain ⟨b, hrun, hwf, hmem⟩ := after_spec hn hms
  obtain ⟨b', hrun', hwf', hmem'⟩ := after_spec hn hms'
  rw [hrun, hrun', hwf.eq_of_members_eq hwf' (by rw [hmem, hmem', heq])]

end Bitmap

end Lobcore.Bitmaps
