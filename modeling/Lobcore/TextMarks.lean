import Mathlib.Data.List.Infix
import Mathlib.Tactic.Common

/-!
Marks in a text. A mark is a word whose first letter does not occur in it again, so that two
marks with one first letter never overlap; a text may then be searched part by part, as long as
every part after the first begins with a mark.
-/
namespace Lobcore.TextMarks

variable {α : Type}

/-- A word that begins with `c` and has it nowhere else. -/
def IsMark (c : α) (m : List α) : Prop := ∃ t, m = c :: t ∧ c ∉ t

/-- The word does not occur in the text. -/
def Free (m u : List α) : Prop := ¬ m <:+: u

theorem free_nil {c : α} {m : List α} (hm : IsMark c m) : Free m [] := by
  obtain ⟨t, rfl, -⟩ := hm
  intro h
  simpa using List.eq_nil_of_infix_nil h

theorem Free.tail {m u : List α} {a : α} (h : Free m (a :: u)) : Free m u := fun hu =>
  h (List.infix_cons hu)

theorem Free.right {m u v : List α} (h : Free m (u ++ v)) : Free m v := fun hv =>
  h (hv.trans (List.suffix_append u v).isInfix)

/-- A word without the letter that follows a text lies in the text. -/
theorem prefix_of_not_mem {c : α} {m u w : List α} (hc : c ∉ m) (h : m <+: u ++ c :: w) :
    m <+: u := by
  rcases List.prefix_or_prefix_of_prefix h (List.prefix_append u (c :: w)) with hu | hu
  · exact hu
  · obtain ⟨s, rfl⟩ := hu
    obtain rfl : s = [] := by
      by_contra hs
      obtain ⟨b, s, rfl⟩ := List.exists_cons_of_ne_nil hs
      have hb := (List.cons_prefix_cons.mp ((List.prefix_append_right_inj u).mp h)).1
      exact hc (by simp [hb])
    simp

/-- A mark does not reach over the first letter of the next one. -/
theorem IsMark.prefix_left {c : α} {m u w : List α} (hm : IsMark c m) (hu : u ≠ [])
    (h : m <+: u ++ c :: w) : m <+: u := by
  obtain ⟨t, rfl, hc⟩ := hm
  obtain ⟨a, u, rfl⟩ := List.exists_cons_of_ne_nil hu
  rw [List.cons_append] at h
  obtain ⟨hca, ht⟩ := List.cons_prefix_cons.mp h
  exact List.cons_prefix_cons.mpr ⟨hca, prefix_of_not_mem hc ht⟩

/-- A text without a mark stays so before a part that begins with the letter of the marks. -/
theorem Free.append_cons {c : α} {m u w : List α} (hm : IsMark c m) (hu : Free m u)
    (hw : Free m (c :: w)) : Free m (u ++ c :: w) := by
  induction u with
  | nil => exact hw
  | cons a u ih =>
    intro h
    rcases List.infix_cons_iff.mp h with h | h
    · exact hu (hm.prefix_left (List.cons_ne_nil a u) h).isInfix
    · exact ih hu.tail h

/-- A text without a word stays so before letters that the word does not have. -/
theorem Free.append_other {m u g : List α} (hm : m ≠ []) (hu : Free m u) (hg : ∀ a ∈ g, a ∉ m) :
    Free m (u ++ g) := by
  induction g generalizing u with
  | nil => rwa [List.append_nil]
  | cons a g ih =>
    have ha := hg a (List.mem_cons_self ..)
    have hone : Free m (u ++ [a]) := by
      induction u with
      | nil =>
        intro h
        rcases List.infix_cons_iff.mp h with h | h
        · exact hm (List.prefix_nil.mp (prefix_of_not_mem (u := []) ha h))
        · exact hm (List.eq_nil_of_infix_nil h)
      | cons b u ihu =>
        intro h
        rcases List.infix_cons_iff.mp h with h | h
        · exact hu (prefix_of_not_mem ha h).isInfix
        · exact ihu hu.tail h
    have hrest := ih hone fun b hb => hg b (List.mem_cons_of_mem _ hb)
    rwa [List.append_assoc] at hrest

/-- Letters other than the first letter of a mark are no place for it. -/
theorem Free.letters_append {c : α} {m s v : List α} (hm : IsMark c m) (hs : c ∉ s)
    (hv : Free m v) : Free m (s ++ v) := by
  obtain ⟨t, rfl, -⟩ := hm
  induction s with
  | nil => exact hv
  | cons a s ih =>
    rw [List.mem_cons, not_or] at hs
    intro h
    rcases List.infix_cons_iff.mp h with h | h
    · exact hs.1 (List.cons_prefix_cons.mp h).1
    · exact ih hs.2 h

/-- Another mark is no place for a mark. -/
theorem Free.mark_append {c : α} {m n v : List α} (hm : IsMark c m) (hn : IsMark c n)
    (hne : ¬ m <+: n ++ v) (hv : Free m v) : Free m (n ++ v) := by
  obtain ⟨s, rfl, hs⟩ := hn
  intro h
  rcases List.infix_cons_iff.mp h with h | h
  · exact hne h
  · exact hv.letters_append hm hs h

/-- Words neither of which begins the other do not begin at one place. -/
theorem not_prefix_of_ne {m n : List α} (hmn : ¬ m <+: n) (hnm : ¬ n <+: m) (v : List α) :
    ¬ m <+: n ++ v := fun h =>
  (List.prefix_or_prefix_of_prefix h (List.prefix_append n v)).elim hmn hnm

/-- A text without a mark stays so before another mark. -/
theorem Free.append_mark {c : α} {m n u v : List α} (hm : IsMark c m) (hn : IsMark c n)
    (hu : Free m u) (hv : Free m (n ++ v)) : Free m (u ++ (n ++ v)) := by
  obtain ⟨s, rfl, -⟩ := hn
  exact hu.append_cons hm hv

section Find

variable [DecidableEq α]

/-- Where the word first occurs in the text. -/
def find (m : List α) : List α → Option ℕ
  | [] => if m = [] then some 0 else none
  | a :: u => if m <+: a :: u then some 0 else (find m u).map (· + 1)

theorem find_eq_none {m u : List α} : find m u = none ↔ Free m u := by
  induction u with
  | nil =>
    rw [find, Free, List.infix_nil]
    by_cases hm : m = [] <;> simp [hm]
  | cons a u ih =>
    rw [find, Free, List.infix_cons_iff]
    by_cases hp : m <+: a :: u
    · simp [hp]
    · simpa [hp, Free] using ih

/-- The first occurrence splits the text. -/
theorem exists_split {m u : List α} (hm : m ≠ []) (h : ¬ Free m u) :
    ∃ v w, u = v ++ (m ++ w) ∧ Free m v := by
  induction u with
  | nil => exact absurd (List.eq_nil_of_infix_nil (not_not.mp h)) hm
  | cons a u ih =>
    by_cases hp : m <+: a :: u
    · obtain ⟨w, hw⟩ := hp
      exact ⟨[], w, hw.symm, fun hnil => hm (List.eq_nil_of_infix_nil hnil)⟩
    · have hu : ¬ Free m u := fun hfree => h fun hin =>
        hfree ((List.infix_cons_iff.mp hin).resolve_left hp)
      obtain ⟨v, w, rfl, hv⟩ := ih hu
      refine ⟨a :: v, w, rfl, fun hin => ?_⟩
      rcases List.infix_cons_iff.mp hin with hin | hin
      · exact hp (hin.trans (List.prefix_append (a :: v) (m ++ w)))
      · exact hv hin

/-- A text without the word is skipped, up to a mark. -/
theorem find_skip {c : α} {m u w : List α} (hm : IsMark c m) (hu : Free m u) :
    find m (u ++ c :: w) = (find m (c :: w)).map (· + u.length) := by
  induction u with
  | nil => simp
  | cons a u ih =>
    have hp : ¬ m <+: a :: u ++ c :: w := fun h =>
      hu (hm.prefix_left (List.cons_ne_nil a u) h).isInfix
    rw [List.cons_append] at hp ⊢
    rw [find, if_neg hp, ih hu.tail, Option.map_map]
    rfl

/-- The word is found where it first stands. -/
theorem find_append {c : α} {m u v : List α} (hm : IsMark c m) (hu : Free m u) :
    find m (u ++ (m ++ v)) = some u.length := by
  obtain ⟨t, rfl, hc⟩ := hm
  rw [List.cons_append, find_skip ⟨t, rfl, hc⟩ hu, find,
    if_pos (List.cons_prefix_cons.mpr ⟨rfl, List.prefix_append t v⟩)]
  simp

/-- A text has one first mark. -/
theorem first_unique {c : α} {m u u' v v' : List α} (hm : IsMark c m) (hu : Free m u)
    (hu' : Free m u') (h : u ++ (m ++ v) = u' ++ (m ++ v')) : u = u' ∧ v = v' := by
  have hfind := find_append (v := v) hm hu
  rw [h, find_append hm hu', Option.some.injEq] at hfind
  obtain ⟨rfl, hrest⟩ := List.append_inj h hfind.symm
  exact ⟨rfl, List.append_cancel_left hrest⟩

/-- Letters other than the first letter of a mark are skipped. -/
theorem find_letters {c : α} {m s : List α} (hm : IsMark c m) (hs : c ∉ s) (v : List α) :
    find m (s ++ v) = (find m v).map (· + s.length) := by
  obtain ⟨t, rfl, -⟩ := hm
  induction s with
  | nil => simp
  | cons a s ih =>
    rw [List.mem_cons, not_or] at hs
    rw [List.cons_append, find, if_neg fun h => hs.1 (List.cons_prefix_cons.mp h).1, ih hs.2,
      Option.map_map]
    rfl

/-- Another mark is skipped. -/
theorem find_mark_append {c : α} {m n v : List α} (hm : IsMark c m) (hn : IsMark c n)
    (hne : ¬ m <+: n ++ v) : find m (n ++ v) = (find m v).map (· + n.length) := by
  obtain ⟨s, rfl, hs⟩ := hn
  rw [List.cons_append] at hne ⊢
  rw [find, if_neg hne, find_letters hm hs, Option.map_map]
  rfl

end Find

end Lobcore.TextMarks
