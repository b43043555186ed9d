import Lobcore.Checked
import Lobcore.ReadmeBlocks

/-!
The check of a README against a rendered block (`readme.rs`). The lines of both are compared one
by one, and the list that ends first goes on with a line that stands for its end. A line that
reads the same is taken for the end, so a list that goes on with such a line behind the whole
of the other one passes for it.
-/
namespace Lobcore.ReadmeChecks

open Checked ReadmeBlocks

/-- Outcome of a check. -/
inductive Check where
  | same
  | missing
  /-- First differing line (1-based within the deterministic lines). -/
  | drift (line : ℕ) (readme now : Text)
  deriving DecidableEq, Repr

/-- The line behind the last one. -/
def endLine : Text := "<end>".toList

def lineAt (ls : List Text) (i : ℕ) : Text := ls[i]?.getD endLine

/-- The loop over the lines. -/
def compareFrom (held want : List Text) : List ℕ → Check
  | [] => .same
  | i :: is =>
    let a := lineAt held i
    let b := lineAt want i
    if a ≠ b then .drift (i + 1) a b else compareFrom held want is

/-- Compare the block of the README with a freshly rendered one. -/
def compare (readmeText block : Text) : Exec Check :=
  match deterministicLines readmeText with
  | none => .ok .missing
  | some held => do
    let want ← expect (deterministicLines block)
    return compareFrom held want (List.range (max held.length want.length))

/-! The loop. -/

section Loop

variable {held want : List Text}

theorem compareFrom_same {is : List ℕ} :
    compareFrom held want is = .same ↔ ∀ i ∈ is, lineAt held i = lineAt want i := by
  induction is with
  | nil => simp [compareFrom]
  | cons i is ih =>
    simp only [compareFrom, List.forall_mem_cons]
    by_cases hi : lineAt held i = lineAt want i
    · simp only [hi, ne_eq, not_true_eq_false, if_false, ih, true_and]
    · simp only [ne_eq, hi, not_false_eq_true, if_true, reduceCtorEq, false_and]

theorem compareFrom_ne_missing {is : List ℕ} : compareFrom held want is ≠ .missing := by
  induction is with
  | nil => exact nofun
  | cons i is ih =>
    simp only [compareFrom]
    split
    · exact nofun
    · exact ih

/-- A difference is the first one. -/
theorem compareFrom_drift {start n line : ℕ} {a b : Text}
    (h : compareFrom held want (List.range' start n) = .drift line a b) :
    start < line ∧ (∀ i, start ≤ i → i < line - 1 → lineAt held i = lineAt want i) ∧
      lineAt held (line - 1) ≠ lineAt want (line - 1) := by
  induction n generalizing start with
  | zero => cases h
  | succ n ih =>
    simp only [List.range'_succ, compareFrom] at h
    by_cases hi : lineAt held start = lineAt want start
    · simp only [hi, ne_eq, not_true_eq_false, if_false] at h
      obtain ⟨hlt, hbefore, hne⟩ := ih h
      refine ⟨by omega, fun i hle hlt' => ?_, hne⟩
      rcases Nat.lt_or_eq_of_le hle with hstart | rfl
      · exact hbefore i hstart hlt'
      · exact hi
    · simp only [ne_eq, hi, not_false_eq_true, if_true, Check.drift.injEq] at h
      obtain ⟨rfl, -, -⟩ := h
      exact ⟨Nat.lt_succ_self start, fun i hle hlt => by omega, hi⟩

end Loop

/-! Lines and their ends. -/

/-- What a check is to tell of two lists of lines. -/
def Tells (held want : List Text) (c : Check) : Prop :=
  (c = .same ↔ held = want) ∧ ∀ line readme now, c = .drift line readme now →
    0 < line ∧ (∀ i < line - 1, held[i]? = want[i]?) ∧ held[line - 1]? ≠ want[line - 1]?

theorem prefix_of_agree {xs ys : List Text} {k : ℕ} (hbefore : ∀ i < k, xs[i]? = ys[i]?)
    (hx : xs[k]? = none) (hy : ys[k]? = some endLine) : xs ++ [endLine] <+: ys := by
  have hle : xs.length ≤ k := List.getElem?_eq_none_iff.mp hx
  have hlt : k < ys.length := (List.getElem?_eq_some_iff.mp hy).1
  have hlen : xs.length = k := by
    by_contra hne
    have hnone := hbefore xs.length (by omega)
    rw [List.getElem?_eq_none le_rfl, eq_comm, List.getElem?_eq_none_iff] at hnone
    omega
  subst hlen
  refine List.prefix_iff_getElem?.mpr fun i hi => ?_
  have hi' := hi
  rw [List.length_append, List.length_singleton] at hi'
  rcases Nat.lt_or_eq_of_le (Nat.le_of_lt_succ hi') with hlt' | rfl
  · rw [← hbefore i hlt', List.getElem_append_left hlt', List.getElem?_eq_getElem hlt']
  · rw [hy]
    simp

section Lines

variable {held want : List Text}

/-- Two lists that read the same to their ends agree, unless one goes on with an end line behind
the other. -/
theorem agree_of_lineAt (hheld : ¬ held ++ [endLine] <+: want)
    (hwant : ¬ want ++ [endLine] <+: held)
    {k : ℕ} (h : ∀ i < k, lineAt held i = lineAt want i) : ∀ i < k, held[i]? = want[i]? := by
  induction k with
  | zero => exact fun i hi => absurd hi (Nat.not_lt_zero i)
  | succ k ih =>
    have hbefore := ih fun i hi => h i (Nat.lt_succ_of_lt hi)
    intro i hi
    rcases Nat.lt_or_eq_of_le (Nat.le_of_lt_succ hi) with hi' | rfl
    · exact hbefore i hi'
    · have hlast := h i hi
      unfold lineAt at hlast
      cases hx : held[i]? with
      | none =>
        cases hy : want[i]? with
        | none => rfl
        | some b =>
          rw [hx, hy, Option.getD_none, Option.getD_some] at hlast
          exact absurd (prefix_of_agree hbefore hx (hlast ▸ hy)) hheld
      | some a =>
        cases hy : want[i]? with
        | none =>
          rw [hx, hy, Option.getD_none, Option.getD_some] at hlast
          exact absurd (prefix_of_agree (fun j hj => (hbefore j hj).symm) hy (hlast ▸ hx)) hwant
        | some b =>
          rw [hx, hy, Option.getD_some, Option.getD_some] at hlast
          rw [hlast]

/-- A list that goes on with an end line reads the same as the list in front of it, as far as
that line. -/
theorem lineAt_of_isPrefix {xs ys : List Text} (h : xs ++ [endLine] <+: ys) {i : ℕ}
    (hi : i ≤ xs.length) : lineAt xs i = lineAt ys i := by
  obtain ⟨rest, rfl⟩ := h
  unfold lineAt
  rcases Nat.lt_or_eq_of_le hi with hlt | rfl
  · rw [List.append_assoc, List.getElem?_append_left hlt]
  · simp

theorem getElem?_ne_of_isPrefix {xs ys : List Text} (h : xs ++ [endLine] <+: ys) :
    xs[xs.length]? ≠ ys[xs.length]? := by
  obtain ⟨rest, rfl⟩ := h
  simp

/-- Over an end line the loop reads on. -/
theorem not_tells_of_isPrefix {c : Check}
    (hc : c = compareFrom held want (List.range (max held.length want.length)))
    {k : ℕ} (hread : ∀ i ≤ k, lineAt held i = lineAt want i) (hne : held[k]? ≠ want[k]?) :
    ¬ Tells held want c := by
  intro htells
  rcases hcase : c with _ | _ | ⟨line, a, b⟩
  · have heq := htells.1.mp hcase
    rw [heq] at hne
    exact hne rfl
  · rw [hcase] at hc
    exact compareFrom_ne_missing hc.symm
  · obtain ⟨-, hbefore, -⟩ := htells.2 line a b hcase
    rw [hcase, List.range_eq_range'] at hc
    obtain ⟨hpos, -, hdiff⟩ := compareFrom_drift hc.symm
    have hlt : k < line - 1 := by
      by_contra hle
      exact hdiff (hread _ (by omega))
    exact hne (hbefore k hlt)

theorem tells_of_apart (hheld : ¬ held ++ [endLine] <+: want)
    (hwant : ¬ want ++ [endLine] <+: held) :
    Tells held want (compareFrom held want (List.range (max held.length want.length))) := by
  have hagree := @agree_of_lineAt held want hheld hwant
  refine ⟨⟨fun h => ?_, fun h => ?_⟩, fun line a b h => ?_⟩
  · have hall := hagree fun i hi => compareFrom_same.mp h i (List.mem_range.mpr hi)
    refine List.ext_getElem? fun i => ?_
    by_cases hi : i < max held.length want.length
    · exact hall i hi
    · rw [List.getElem?_eq_none (by omega), List.getElem?_eq_none (by omega)]
  · exact compareFrom_same.mpr fun i _ => by rw [h]
  · rw [List.range_eq_range'] at h
    obtain ⟨hpos, hbefore, hne⟩ := compareFrom_drift h
    refine ⟨hpos, hagree fun i hi => hbefore i (Nat.zero_le i) hi, fun heq => hne ?_⟩
    unfold lineAt
    rw [heq]

end Lines

/-- The check tells how the lines of a README and of a block compare exactly when neither list
goes on with an end line behind the whole of the other. -/
theorem compare_tells_iff {readmeText block : Text} {held want : List Text}
    (hheld : deterministicLines readmeText = some held)
    (hwant : deterministicLines block = some want) :
    (∃ c, compare readmeText block = .ok c ∧ Tells held want c) ↔
      ¬ held ++ [endLine] <+: want ∧ ¬ want ++ [endLine] <+: held := by
  have hrun : compare readmeText block =
      .ok (compareFrom held want (List.range (max held.length want.length))) := by
    simp only [compare, hheld, hwant, expect_some, ok_bind, pure_eq_ok]
  constructor
  · rintro ⟨c, hc, htells⟩
    rw [hrun] at hc
    have hc' := (Except.ok.inj hc).symm
    refine ⟨fun h => ?_, fun h => ?_⟩
    · exact not_tells_of_isPrefix hc' (fun i hi => lineAt_of_isPrefix h hi)
        (getElem?_ne_of_isPrefix h)
        htells
    · exact not_tells_of_isPrefix hc' (fun i hi => (lineAt_of_isPrefix h hi).symm)
        (getElem?_ne_of_isPrefix h).symm htells
  · intro h
    exact ⟨_, hrun, tells_of_apart h.1 h.2⟩

/-- A README whose block has a row behind the one of the rendered block. -/
def rowReadme : Text := marked "\n| a | 1 |\n| b | 2 |\n".toList

theorem compare_tells_iff_row : (∃ c, compare rowReadme rowBlock = .ok c ∧
    Tells ["| a | 1 |".toList, "| b | 2 |".toList] ["| a | 1 |".toList] c) ↔
      ¬ ["| a | 1 |".toList, "| b | 2 |".toList] ++ [endLine] <+: ["| a | 1 |".toList] ∧
      ¬ ["| a | 1 |".toList] ++ [endLine] <+: ["| a | 1 |".toList, "| b | 2 |".toList] :=
  compare_tells_iff (by decide +kernel) (by decide +kernel)

/-- A README with a further line that reads like an end. -/
def longReadme : Text := marked "\n| a | 1 |\n<end>\n".toList

/-- The further line passes the check. -/
theorem further_line_passes :
    deterministicLines longReadme = some ["| a | 1 |".toList, endLine] ∧
    deterministicLines rowBlock = some ["| a | 1 |".toList] ∧
    compare longReadme rowBlock = .ok .same ∧
    ¬ ∃ c, compare longReadme rowBlock = .ok c ∧
      Tells ["| a | 1 |".toList, endLine] ["| a | 1 |".toList] c := by
  have hsame : compare longReadme rowBlock = .ok .same := by decide +kernel
  refine ⟨by decide +kernel, by decide +kernel, hsame, ?_⟩
  rintro ⟨c, hc, htells⟩
  have hc' : c = .same := (Except.ok.inj (hsame.symm.trans hc)).symm
  exact absurd (htells.1.mp hc') (by decide +kernel)

end Lobcore.ReadmeChecks
