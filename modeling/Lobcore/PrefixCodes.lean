import Mathlib.Data.List.Basic
import Mathlib.Tactic.Common

/-!
Codes that can be read from the front. A code assigns words over some alphabet to the elements
that satisfy a condition; it is readable when an element and what follows its word are determined
by the word with whatever follows it. Codes of one length are readable once they tell elements
apart, and pairs, counted lists and plain lists of readable codes are again.
-/
namespace Lobcore.PrefixCodes

variable {α β σ : Type} {P : α → Prop} {R : β → Prop} {f : α → List σ} {g : β → List σ}

/-- A word and what follows it determine the element and what follows. -/
def Readable (P : α → Prop) (f : α → List σ) : Prop :=
  ∀ a b xs ys, P a → P b → f a ++ xs = f b ++ ys → a = b ∧ xs = ys

/-- Words of one length. -/
theorem readable_of_length {n : ℕ} (hlen : ∀ a, (f a).length = n)
    (hinj : ∀ a b, P a → P b → f a = f b → a = b) : Readable P f := by
  intro a b xs ys ha hb heq
  obtain ⟨hword, hrest⟩ := List.append_inj heq (by rw [hlen, hlen])
  exact ⟨hinj a b ha hb hword, hrest⟩

/-- One word behind the other. -/
theorem Readable.pair (hf : Readable P f) (hg : Readable R g) :
    Readable (fun p : α × β => P p.1 ∧ R p.2) fun p => f p.1 ++ g p.2 := by
  intro p q xs ys hp hq heq
  rw [List.append_assoc, List.append_assoc] at heq
  obtain ⟨hfst, heq⟩ := hf _ _ _ _ hp.1 hq.1 heq
  obtain ⟨hsnd, hrest⟩ := hg _ _ _ _ hp.2 hq.2 heq
  exact ⟨Prod.ext hfst hsnd, hrest⟩

/-- The words of equally many elements. -/
theorem Readable.flatMap (hf : Readable P f) {as bs : List α} (has : ∀ a ∈ as, P a)
    (hbs : ∀ b ∈ bs, P b) (hlen : as.length = bs.length) {xs ys : List σ}
    (heq : as.flatMap f ++ xs = bs.flatMap f ++ ys) : as = bs ∧ xs = ys := by
  induction as generalizing bs with
  | nil =>
    obtain rfl := List.eq_nil_of_length_eq_zero hlen.symm
    exact ⟨rfl, heq⟩
  | cons a as ih =>
    cases bs with
    | nil => cases hlen
    | cons b bs =>
      rw [List.flatMap_cons, List.flatMap_cons, List.append_assoc, List.append_assoc] at heq
      obtain ⟨rfl, htail⟩ :=
        hf _ _ _ _ (has a (List.mem_cons_self ..)) (hbs b (List.mem_cons_self ..)) heq
      obtain ⟨rfl, hrest⟩ := ih (fun a' ha' => has a' (List.mem_cons_of_mem _ ha'))
        (fun b' hb' => hbs b' (List.mem_cons_of_mem _ hb')) (Nat.succ.inj hlen) htail
      exact ⟨rfl, hrest⟩

/-- A list behind the word of its length. -/
theorem Readable.counted {R : ℕ → Prop} {count : ℕ → List σ} (hcount : Readable R count)
    (hf : Readable P f) : Readable (fun as : List α => R as.length ∧ ∀ a ∈ as, P a)
      fun as => count as.length ++ as.flatMap f := by
  intro as bs xs ys has hbs heq
  rw [List.append_assoc, List.append_assoc] at heq
  obtain ⟨hlen, heq⟩ := hcount _ _ _ _ has.1 hbs.1 heq
  exact hf.flatMap has.2 hbs.2 hlen heq

/-- Lists are determined by their words, none of which is empty. -/
theorem Readable.flatMap_inj (hf : Readable P f) (hne : ∀ a, P a → f a ≠ []) {as bs : List α}
    (has : ∀ a ∈ as, P a) (hbs : ∀ b ∈ bs, P b) (heq : as.flatMap f = bs.flatMap f) : as = bs := by
  induction as generalizing bs with
  | nil =>
    cases bs with
    | nil => rfl
    | cons b bs =>
      rw [List.flatMap_cons, List.flatMap_nil] at heq
      exact absurd (List.append_eq_nil_iff.mp heq.symm).1 (hne b (hbs b (List.mem_cons_self ..)))
  | cons a as ih =>
    cases bs with
    | nil =>
      rw [List.flatMap_cons, List.flatMap_nil] at heq
      exact absurd (List.append_eq_nil_iff.mp heq).1 (hne a (has a (List.mem_cons_self ..)))
    | cons b bs =>
      rw [List.flatMap_cons, List.flatMap_cons] at heq
      obtain ⟨rfl, hrest⟩ :=
        hf _ _ _ _ (has a (List.mem_cons_self ..)) (hbs b (List.mem_cons_self ..)) heq
      rw [ih (fun a' ha' => has a' (List.mem_cons_of_mem _ ha'))
        (fun b' hb' => hbs b' (List.mem_cons_of_mem _ hb')) hrest]

end Lobcore.PrefixCodes
