import Lobcore.TextMarks
import Mathlib.Data.List.DropRight

/-!
The statistics block of a README (`stats.rs`). The writer puts a block between two marks in
place of the one that is there, or behind the text when there is none; the checker reads the
lines between the marks. Both take the first begin mark of the text, so that a begin mark
without an end mark behind it stays in front of an appended block.
-/
namespace Lobcore.ReadmeBlocks

open TextMarks

abbrev Text := List Char

def beginMark : Text := "<!-- lobcore:begin:stats -->".toList

def endMark : Text := "<!-- lobcore:end:stats -->".toList

/-- `char::is_whitespace`. -/
def isWhitespace (c : Char) : Bool :=
  let n := c.toNat
  decide ((9 ≤ n ∧ n ≤ 13) ∨ n = 0x20 ∨ n = 0x85 ∨ n = 0xA0 ∨ n = 0x1680 ∨
    (0x2000 ≤ n ∧ n ≤ 0x200A) ∨
    n = 0x2028 ∨ n = 0x2029 ∨ n = 0x202F ∨ n = 0x205F ∨ n = 0x3000)

def trimEnd (l : Text) : Text := l.rdropWhile isWhitespace

/-- `str::split_inclusive` at newlines. -/
def splitInclusive : Text → List Text
  | [] => []
  | c :: cs =>
    if c = '\n' then [c] :: splitInclusive cs
    else match splitInclusive cs with
      | [] => [[c]]
      | l :: ls => (c :: l) :: ls

/-- A line without its ending, a newline or a carriage return and a newline. -/
def stripEnding (l : Text) : Text :=
  if l.getLast? = some '\n' then
    if l.dropLast.getLast? = some '\r' then l.dropLast.dropLast else l.dropLast
  else l

/-- `str::lines`. -/
def lines (t : Text) : List Text := (splitInclusive t).map stripEnding

/-- The rows a check must ignore. -/
def isVolatile (line : Text) : Bool := "| msgs/s".toList.isPrefixOf line

/-- The non-empty lines between the marks, without the volatile rows. -/
def deterministicLines (text : Text) : Option (List Text) := do
  let b ← find beginMark text
  let e ← (find endMark (text.drop b)).map (· + b)
  let inner := (text.take e).drop (b + beginMark.length)
  return ((lines inner).map trimEnd).filter fun l => !l.isEmpty && !isVolatile l

/-- Put the block in place of the one in the text, or behind the text when it has none. -/
def spliceBlock (text block : Text) : Text :=
  let block := block.rdropWhile (· = '\n')
  let found := do
    let b ← find beginMark text
    let e ← find endMark (text.drop b)
    return (b, b + e + endMark.length)
  match found with
  | some (b, e) => text.take b ++ block ++ text.drop e
  | none =>
    let out := if text ≠ [] ∧ text.getLast? ≠ some '\n' then text ++ ['\n'] else text
    out ++ ['\n'] ++ block ++ ['\n']

example : deterministicLines (spliceBlock "# t\n".toList
    "<!-- lobcore:begin:stats -->\n| a | 1 |\n| msgs/s x | 9 |\n| b | 2 | \r\n<!-- lobcore:end:stats -->\n".toList) =
    some ["| a | 1 |".toList, "| b | 2 |".toList] := by decide

/-- What stands between the marks of a block. -/
def marked (inner : Text) : Text := beginMark ++ (inner ++ endMark)

/-- The lines a check compares. -/
def kept (inner : Text) : List Text :=
  ((lines inner).map trimEnd).filter fun l => !l.isEmpty && !isVolatile l

/-- The newlines between a text and a block behind it. -/
def gap (text : Text) : Text :=
  (if text ≠ [] ∧ text.getLast? ≠ some '\n' then ['\n'] else []) ++ ['\n']

theorem isMark_begin : IsMark '<' beginMark :=
  ⟨"!-- lobcore:begin:stats -->".toList, rfl, by decide⟩

theorem isMark_end : IsMark '<' endMark := ⟨"!-- lobcore:end:stats -->".toList, rfl, by decide⟩

theorem not_end_at_begin (v : Text) : ¬ endMark <+: beginMark ++ v :=
  not_prefix_of_ne (by decide) (by decide) v

theorem newline_of_mem_gap {text : Text} {a : Char} (h : a ∈ gap text) : a = '\n' := by
  unfold gap at h
  split at h
  all_goals simpa using h

/-! The three kinds of text. -/

theorem text_cases (text : Text) : Free beginMark text ∨
    (∃ pre post, text = pre ++ (beginMark ++ post) ∧ Free beginMark pre ∧ Free endMark post) ∨
    ∃ pre mid post, text = pre ++ (beginMark ++ (mid ++ (endMark ++ post))) ∧
      Free beginMark pre ∧ Free endMark mid := by
  by_cases hb : Free beginMark text
  · exact Or.inl hb
  · obtain ⟨pre, rest, rfl, hpre⟩ := exists_split (by decide) hb
    by_cases he : Free endMark rest
    · exact Or.inr (Or.inl ⟨pre, rest, rfl, hpre, he⟩)
    · obtain ⟨mid, post, rfl, hmid⟩ := exists_split (by decide) he
      exact Or.inr (Or.inr ⟨pre, mid, post, rfl, hpre, hmid⟩)

theorem find_begin {pre : Text} (hpre : Free beginMark pre) (rest : Text) :
    find beginMark (pre ++ (beginMark ++ rest)) = some pre.length := find_append isMark_begin hpre

theorem find_end_free {post : Text} (hpost : Free endMark post) :
    find endMark (beginMark ++ post) = none := by
  rw [find_mark_append isMark_end isMark_begin (not_end_at_begin _), find_eq_none.mpr hpost]
  rfl

theorem find_end {mid : Text} (hmid : Free endMark mid) (post : Text) :
    find endMark (beginMark ++ (mid ++ (endMark ++ post))) =
      some (mid.length + beginMark.length) := by
  rw [find_mark_append isMark_end isMark_begin (not_end_at_begin _), find_append isMark_end hmid]
  rfl

theorem deterministicLines_closed {pre mid : Text} (hpre : Free beginMark pre)
    (hmid : Free endMark mid) (post : Text) :
    deterministicLines (pre ++ (beginMark ++ (mid ++ (endMark ++ post)))) = some (kept mid) := by
  have hinner : ((pre ++ (beginMark ++ (mid ++ (endMark ++ post)))).take
      (mid.length + beginMark.length + pre.length)).drop (pre.length + beginMark.length) = mid := by
    have hfront : pre ++ (beginMark ++ (mid ++ (endMark ++ post))) =
        (pre ++ beginMark) ++ (mid ++ (endMark ++ post)) := by simp
    have hlen : mid.length + beginMark.length + pre.length =
        (pre ++ beginMark).length + mid.length := by
      rw [List.length_append]
      omega
    rw [hfront, hlen, List.take_length_add_append, ← List.length_append, List.drop_left,
      List.take_left]
  simp only [deterministicLines, find_begin hpre, Option.bind_eq_bind, Option.bind_some,
    List.drop_left, find_end hmid, Option.map_some, hinner]
  rfl

/-! Splicing a rendered block. -/

theorem trim_rendered (inner : Text) (n : ℕ) :
    (marked inner ++ List.replicate n '\n').rdropWhile (· = '\n') = marked inner := by
  induction n with
  | zero =>
    have hend : endMark = "<!-- lobcore:end:stats --".toList ++ ['>'] := by decide
    have hlast : ¬ decide ('>' = '\n') = true := by decide
    rw [List.replicate_zero, List.append_nil, marked, hend, ← List.append_assoc,
      ← List.append_assoc, List.rdropWhile_concat_neg (fun c => decide (c = '\n')) _ _ hlast]
  | succ n ih =>
    have hlast : decide ('\n' = '\n') = true := by decide
    rw [List.replicate_succ', ← List.append_assoc,
      List.rdropWhile_concat_pos (fun c => decide (c = '\n')) _ _ hlast, ih]

section Splices

variable {inner : Text} {n : ℕ}

theorem splice_closed {pre mid : Text} (hpre : Free beginMark pre) (hmid : Free endMark mid)
    (post : Text) :
    spliceBlock (pre ++ (beginMark ++ (mid ++ (endMark ++ post))))
      (marked inner ++ List.replicate n '\n') = pre ++ (marked inner ++ post) := by
  have hafter : (pre ++ (beginMark ++ (mid ++ (endMark ++ post)))).drop
      (pre.length + (mid.length + beginMark.length) + endMark.length) = post := by
    have hfront : pre ++ (beginMark ++ (mid ++ (endMark ++ post))) =
        (pre ++ beginMark ++ mid ++ endMark) ++ post := by simp
    have hlen : pre.length + (mid.length + beginMark.length) + endMark.length =
        (pre ++ beginMark ++ mid ++ endMark).length := by
      simp only [List.length_append]
      omega
    rw [hfront, hlen, List.drop_left]
  simp only [spliceBlock, trim_rendered, find_begin hpre, Option.bind_eq_bind, Option.bind_some,
    List.drop_left, find_end hmid, List.take_left, hafter, Option.pure_def]
  rw [List.append_assoc]

/-- A text whose first begin mark has no end mark behind it, or that has none, gets a new block. -/
theorem splice_open {text : Text}
    (hopen : Free beginMark text ∨ ∃ pre post, text = pre ++ (beginMark ++ post) ∧
      Free beginMark pre ∧ Free endMark post) :
    spliceBlock text (marked inner ++ List.replicate n '\n') =
      text ++ (gap text ++ (marked inner ++ ['\n'])) := by
  have hnone : (do
      let b ← find beginMark text
      let e ← find endMark (text.drop b)
      return (b, b + e + endMark.length) : Option (ℕ × ℕ)) = none := by
    rcases hopen with hfree | ⟨pre, post, rfl, hpre, hpost⟩
    · rw [find_eq_none.mpr hfree]
      rfl
    · simp only [find_begin hpre, Option.bind_eq_bind, Option.bind_some, List.drop_left,
        find_end_free hpost, Option.bind_none]
  simp only [spliceBlock, trim_rendered, hnone, gap]
  split <;> simp

end Splices

/-! The lines of a text. -/

theorem splitInclusive_newline (u v : Text) :
    splitInclusive (u ++ '\n' :: v) = splitInclusive (u ++ ['\n']) ++ splitInclusive v := by
  induction u with
  | nil => simp [splitInclusive]
  | cons c u ih =>
    rw [List.cons_append, List.cons_append, splitInclusive, splitInclusive, ih]
    by_cases hc : c = '\n'
    · rw [if_pos hc, if_pos hc]
      rfl
    · rw [if_neg hc, if_neg hc]
      have hne : splitInclusive (u ++ ['\n']) ≠ [] := by
        cases u with
        | nil => simp [splitInclusive]
        | cons a u =>
          rw [List.cons_append, splitInclusive]
          split
          · simp
          · split <;> simp
      obtain ⟨l, ls, hl⟩ := List.exists_cons_of_ne_nil hne
      rw [hl]
      rfl

theorem splitInclusive_word {m : Text} (hm : m ≠ []) (hnew : '\n' ∉ m) (v : Text) :
    splitInclusive (m ++ v) = match splitInclusive v with
      | [] => [m]
      | l :: ls => (m ++ l) :: ls := by
  induction m with
  | nil => exact absurd rfl hm
  | cons c m ih =>
    rw [List.mem_cons, not_or] at hnew
    rw [List.cons_append, splitInclusive, if_neg (Ne.symm hnew.1)]
    by_cases hnil : m = []
    · subst hnil
      rw [List.nil_append]
      cases splitInclusive v <;> rfl
    · rw [ih hnil hnew.2]
      cases splitInclusive v <;> simp

theorem trimEnd_space (l : Text) {c : Char} (hc : isWhitespace c = true) :
    trimEnd (l ++ [c]) = trimEnd l := List.rdropWhile_concat_pos isWhitespace l c hc

/-- Trimming takes the line ending along. -/
theorem trimEnd_stripEnding (l : Text) : trimEnd (stripEnding l) = trimEnd l := by
  have hlast : ∀ {l : Text} {c : Char}, l.getLast? = some c → isWhitespace c = true →
      trimEnd l.dropLast = trimEnd l := by
    intro l c hl hc
    obtain ⟨l, rfl⟩ := List.getLast?_eq_some_iff.mp hl
    rw [List.dropLast_concat, trimEnd_space l hc]
  unfold stripEnding
  split
  · rename_i hnew
    split
    · rename_i hret
      rw [hlast hret (by decide), hlast hnew (by decide)]
    · exact hlast hnew (by decide)
  · rfl

theorem trimEnd_begin (l : Text) : trimEnd (beginMark ++ l) = beginMark ++ trimEnd l := by
  induction l using List.reverseRecOn with
  | nil => decide
  | append_singleton l c ih =>
    rw [← List.append_assoc]
    by_cases hc : isWhitespace c = true
    · rw [trimEnd_space _ hc, trimEnd_space _ hc, ih]
    · rw [trimEnd, trimEnd, List.rdropWhile_concat_neg isWhitespace _ _ hc,
        List.rdropWhile_concat_neg isWhitespace _ _ hc, List.append_assoc]

theorem kept_eq (u : Text) : kept u =
    ((splitInclusive u).map trimEnd).filter fun l => !l.isEmpty && !isVolatile l := by
  rw [kept, lines, List.map_map]
  congr 2
  funext l
  exact trimEnd_stripEnding l

theorem kept_newline (u v : Text) : kept (u ++ '\n' :: v) = kept (u ++ ['\n']) ++ kept v := by
  rw [kept_eq, kept_eq, kept_eq, splitInclusive_newline, List.map_append, List.filter_append]

/-- A begin mark among the lines is a line that the block itself does not have. -/
theorem kept_begin (inner : Text) : ∃ f ls, kept (beginMark ++ inner) = (beginMark ++ f) :: ls ∧
    (kept inner = ls ∨ kept inner = f :: ls) := by
  have hmark : ∀ f : Text, (!(beginMark ++ f).isEmpty && !isVolatile (beginMark ++ f)) = true :=
    fun f => rfl
  rw [kept_eq, kept_eq, splitInclusive_word (by decide) (by decide)]
  cases splitInclusive inner with
  | nil => exact ⟨[], [], by decide, Or.inl rfl⟩
  | cons l ls =>
    refine ⟨trimEnd l, (ls.map trimEnd).filter fun l => !l.isEmpty && !isVolatile l, ?_, ?_⟩
    · rw [List.map_cons, trimEnd_begin, List.filter_cons, if_pos (hmark _)]
    · rw [List.map_cons, List.filter_cons]
      split
      · exact Or.inr rfl
      · exact Or.inl rfl

theorem kept_dangling (u inner : Text) : kept (u ++ '\n' :: (beginMark ++ inner)) ≠ kept inner := by
  obtain ⟨f, ls, hmark, hinner⟩ := kept_begin inner
  rw [kept_newline, hmark]
  intro heq
  have hlen := congrArg List.length heq
  rw [List.length_append, List.length_cons] at hlen
  rcases hinner with hinner | hinner
  · rw [hinner] at hlen
    omega
  · rw [hinner, List.length_cons] at hlen
    have hnil : kept (u ++ ['\n']) = [] := List.eq_nil_of_length_eq_zero (by omega)
    rw [hinner, hnil, List.nil_append, List.cons.injEq] at heq
    have hmarklen := congrArg List.length heq.1
    rw [List.length_append] at hmarklen
    have hpos : 0 < beginMark.length := by decide
    omega

/-! Round trips. -/

/-- A block as it is rendered: between its marks neither mark stands, and newlines may follow. -/
def Rendered (block : Text) : Prop := ∃ inner n, block = marked inner ++ List.replicate n '\n' ∧
  Free beginMark inner ∧ Free endMark inner

/-- A block of a text: from a begin mark to an end mark, with neither mark between. -/
def IsBlock (old : Text) : Prop := ∃ inner, old = marked inner ∧
  Free beginMark inner ∧ Free endMark inner

/-- Everything of `text` outside one of its blocks is where it was in `out`; a text without blocks
is only continued. -/
def Survives (text block out : Text) : Prop :=
  (∃ pre old post, text = pre ++ (old ++ post) ∧ IsBlock old ∧
    out = pre ++ (block.rdropWhile (· = '\n') ++ post)) ∨
  (∀ old, IsBlock old → ¬ old <:+: text) ∧ text <+: out

/-- The first begin mark of the text, if it has one, has an end mark behind it. -/
def Closed (text : Text) : Prop := Free beginMark text ∨
  ∃ pre mid post, text = pre ++ (beginMark ++ (mid ++ (endMark ++ post))) ∧ Free beginMark pre

/-- The first begin mark of the text, if it has one, begins a block. -/
def Ready (text : Text) : Prop := Free beginMark text ∨
  ∃ pre old post, text = pre ++ (old ++ post) ∧ Free beginMark pre ∧ IsBlock old

/-- What is written passes the check. -/
def RoundTrips (text block : Text) : Prop :=
  deterministicLines (spliceBlock text block) = deterministicLines block

/-- Writing the block again changes nothing. -/
def Stable (text block : Text) : Prop :=
  spliceBlock (spliceBlock text block) block = spliceBlock text block

theorem deterministicLines_rendered {inner : Text} (hinner : Free endMark inner) (n : ℕ) :
    deterministicLines (marked inner ++ List.replicate n '\n') = some (kept inner) := by
  have hshape := deterministicLines_closed (free_nil isMark_begin) hinner (List.replicate n '\n')
  simpa [marked] using hshape

theorem free_text_gap {text : Text} (htext : Free beginMark text) :
    Free beginMark (text ++ gap text) :=
  htext.append_other (by decide) fun a ha => by
    rw [newline_of_mem_gap ha]
    decide

/-- In a closed text the block is the one up to the first end mark. -/
theorem closed_cases {text : Text} (h : Closed text) : Free beginMark text ∨
    ∃ pre mid post, text = pre ++ (beginMark ++ (mid ++ (endMark ++ post))) ∧
      Free beginMark pre ∧ Free endMark mid := by
  rcases text_cases text with hfree | ⟨pre, post, htext, hpre, hpost⟩ | hclosed
  · exact Or.inl hfree
  · rcases h with hfree | ⟨pre', mid, post', htext', hpre'⟩
    · exact Or.inl hfree
    · obtain ⟨-, rfl⟩ := first_unique isMark_begin hpre hpre' (htext.symm.trans htext')
      exact absurd (List.prefix_append endMark post').isInfix hpost.right
  · exact Or.inr hclosed

/-- Up to the first end mark behind a begin mark there is a block. -/
theorem exists_block {mid : Text} (hmid : Free endMark mid) :
    ∃ old, IsBlock old ∧ old <:+: beginMark ++ (mid ++ endMark) := by
  induction hn : mid.length using Nat.strong_induction_on generalizing mid with
  | _ k ih =>
    by_cases hb : Free beginMark mid
    · exact ⟨_, ⟨mid, rfl, hb, hmid⟩, List.infix_rfl⟩
    · obtain ⟨u, v, rfl, -⟩ := exists_split (by decide) hb
      have hlen : v.length < k := by
        have hpos : 0 < beginMark.length := by decide
        simp only [List.length_append] at hn
        omega
      obtain ⟨old, hold, hin⟩ := ih _ hlen hmid.right.right rfl
      refine ⟨old, hold, hin.trans ⟨beginMark ++ u, [], ?_⟩⟩
      simp

section RoundTrips

variable {text inner : Text} {n : ℕ} (he : Free endMark inner)

include he

/-- A text with the block in it, and no begin mark before it, is what writing aims at. -/
theorem settled {pre : Text} (hpre : Free beginMark pre) (post : Text) :
    deterministicLines (pre ++ (marked inner ++ post)) = some (kept inner) ∧
      spliceBlock (pre ++ (marked inner ++ post)) (marked inner ++ List.replicate n '\n') =
        pre ++ (marked inner ++ post) := by
  have hshape : pre ++ (marked inner ++ post) =
      pre ++ (beginMark ++ (inner ++ (endMark ++ post))) := by simp [marked]
  rw [hshape]
  exact ⟨deterministicLines_closed hpre he post, by rw [splice_closed hpre he, hshape]⟩

theorem settled_of_closed (h : Closed text) :
    RoundTrips text (marked inner ++ List.replicate n '\n') ∧
      Stable text (marked inner ++ List.replicate n '\n') := by
  rw [RoundTrips, Stable, deterministicLines_rendered he]
  rcases closed_cases h with hfree | ⟨pre, mid, post, rfl, hpre, hmid⟩
  · rw [splice_open (Or.inl hfree), ← List.append_assoc]
    exact settled he (free_text_gap hfree) ['\n']
  · rw [splice_closed hpre hmid]
    exact settled he hpre post

/-- A begin mark left open stays in front of the block that is appended: the check reads more
than the block, and the next write takes what stood between. -/
theorem unsettled_of_open {pre post : Text} (hpre : Free beginMark pre) (hpost : Free endMark post)
    (htext : text = pre ++ (beginMark ++ post)) :
    ¬ RoundTrips text (marked inner ++ List.replicate n '\n') ∧
      ¬ Stable text (marked inner ++ List.replicate n '\n') := by
  have hmid : Free endMark (post ++ gap text ++ (beginMark ++ inner)) := by
    have hgap : Free endMark (post ++ gap text) := hpost.append_other (by decide) fun a ha => by
      rw [newline_of_mem_gap ha]
      decide
    have hblock : Free endMark (beginMark ++ inner) :=
      he.mark_append isMark_end isMark_begin (not_end_at_begin _)
    exact hgap.append_mark isMark_end isMark_begin hblock
  have hout : spliceBlock text (marked inner ++ List.replicate n '\n') =
      pre ++ (beginMark ++ (post ++ gap text ++ (beginMark ++ inner) ++ (endMark ++ ['\n']))) := by
    rw [splice_open (Or.inr ⟨pre, post, htext, hpre, hpost⟩)]
    nth_rewrite 1 [htext]
    simp [marked]
  rw [RoundTrips, Stable, deterministicLines_rendered he, hout, deterministicLines_closed hpre hmid,
    splice_closed hpre hmid]
  constructor
  · intro heq
    have hgap : ∃ g, gap text = g ++ ['\n'] := ⟨_, rfl⟩
    obtain ⟨g, hg⟩ := hgap
    have hshape : post ++ gap text ++ (beginMark ++ inner) =
        post ++ g ++ '\n' :: (beginMark ++ inner) := by simp [hg]
    rw [Option.some.injEq, hshape] at heq
    exact kept_dangling _ inner heq
  · intro heq
    have hpos : 0 < beginMark.length := by decide
    have hlen := congrArg List.length heq
    simp only [marked, List.length_append] at hlen
    omega

end RoundTrips

section Survival

variable {text inner : Text} {n : ℕ}

theorem ready_closed (h : Ready text) : Closed text := by
  rcases h with hfree | ⟨pre, old, post, rfl, hpre, inner, rfl, -, -⟩
  · exact Or.inl hfree
  · exact Or.inr ⟨pre, inner, post, by simp [marked], hpre⟩

theorem survives_of_ready (h : Ready text) :
    Survives text (marked inner ++ List.replicate n '\n')
      (spliceBlock text (marked inner ++ List.replicate n '\n')) := by
  rw [Survives, trim_rendered]
  rcases h with hfree | ⟨pre, old, post, rfl, hpre, hold⟩
  · refine Or.inr ⟨fun old hold hin => ?_, ?_⟩
    · obtain ⟨mid, rfl, -, -⟩ := hold
      exact hfree ((List.prefix_append beginMark (mid ++ endMark)).isInfix.trans hin)
    · rw [splice_open (Or.inl hfree)]
      exact List.prefix_append ..
  · refine Or.inl ⟨pre, old, post, rfl, hold, ?_⟩
    obtain ⟨mid, rfl, -, hmid⟩ := hold
    have hshape : pre ++ (marked mid ++ post) =
        pre ++ (beginMark ++ (mid ++ (endMark ++ post))) := by simp [marked]
    rw [hshape, splice_closed hpre hmid]

/-- Text between a begin mark and the begin mark of the next block is lost with that block. -/
theorem ready_of_survives (hb : Free beginMark inner) (he : Free endMark inner)
    (hclosed : Closed text)
    (h : Survives text (marked inner ++ List.replicate n '\n')
      (spliceBlock text (marked inner ++ List.replicate n '\n'))) : Ready text := by
  rcases closed_cases hclosed with hfree | ⟨pre, mid, post, rfl, hpre, hmid⟩
  · exact Or.inl hfree
  by_cases hbegin : Free beginMark mid
  · exact Or.inr ⟨pre, marked mid, post, by simp [marked], hpre, mid, rfl, hbegin, hmid⟩
  exfalso
  rw [Survives, trim_rendered, splice_closed hpre hmid] at h
  rcases h with ⟨pre', old, post', htext, ⟨inner', rfl, hb', he'⟩, hout⟩ | ⟨hnone, -⟩
  · -- the block that was replaced is not the one from the first begin mark
    simp only [marked, List.append_assoc] at htext hout
    by_cases hpre' : Free beginMark pre'
    · obtain ⟨-, hrest⟩ := first_unique isMark_begin hpre hpre' htext
      obtain ⟨rfl, -⟩ := first_unique isMark_end hmid he' hrest
      exact hbegin hb'
    · obtain ⟨p, w, rfl, hp⟩ := exists_split (by decide) hpre'
      simp only [List.append_assoc] at htext hout
      obtain ⟨-, hrest⟩ := first_unique isMark_begin hpre hp htext
      obtain ⟨-, hrest'⟩ := first_unique isMark_begin hpre hp hout
      by_cases hw : Free endMark w
      · have hfront : Free endMark (w ++ (beginMark ++ inner)) :=
          hw.append_mark isMark_end isMark_begin
            (he.mark_append isMark_end isMark_begin (not_end_at_begin _))
        have hassoc : w ++ (beginMark ++ (inner ++ (endMark ++ post'))) =
            w ++ (beginMark ++ inner) ++ (endMark ++ post') := by simp
        obtain ⟨hsame, -⟩ := first_unique isMark_end he hfront (hrest'.trans hassoc)
        have hlen := congrArg List.length hsame
        have hpos : 0 < beginMark.length := by decide
        simp only [List.length_append] at hlen
        omega
      · obtain ⟨w₁, w₂, rfl, hw₁⟩ := exists_split (by decide) hw
        simp only [List.append_assoc] at hrest hrest'
        obtain ⟨rfl, -⟩ := first_unique isMark_end hmid hw₁ hrest
        obtain ⟨rfl, -⟩ := first_unique isMark_end he hw₁ hrest'
        exact hbegin hb
  · obtain ⟨old, hold, hin⟩ := exists_block hmid
    refine hnone old hold (hin.trans ⟨pre, post, ?_⟩)
    simp

end Survival

/-- What is written passes the check, and is not changed by writing it again, exactly when the
first begin mark of the text, if any, has an end mark behind it; all this without a loss of text
outside the blocks exactly when that begin mark begins a block. -/
theorem write_then_check_iff {block : Text} (hblock : Rendered block) (text : Text) :
    (RoundTrips text block ↔ Closed text) ∧ (Stable text block ↔ Closed text) ∧
      (RoundTrips text block ∧ Stable text block ∧ Survives text block (spliceBlock text block) ∧
        Survives text block (spliceBlock (spliceBlock text block) block) ↔ Ready text) := by
  obtain ⟨inner, n, rfl, hb, he⟩ := hblock
  have hopen : ¬ Closed text → ∃ pre post, text = pre ++ (beginMark ++ post) ∧
      Free beginMark pre ∧ Free endMark post := by
    intro hnot
    rcases text_cases text with hfree | hdangling | ⟨pre, mid, post, htext, hpre, hmid⟩
    · exact absurd (Or.inl hfree) hnot
    · exact hdangling
    · exact absurd (Or.inr ⟨pre, mid, post, htext, hpre⟩) hnot
  have hround : RoundTrips text (marked inner ++ List.replicate n '\n') ↔ Closed text := by
    refine ⟨fun h => ?_, fun h => (settled_of_closed he h).1⟩
    by_contra hnot
    obtain ⟨pre, post, htext, hpre, hpost⟩ := hopen hnot
    exact (unsettled_of_open he hpre hpost htext).1 h
  have hstable : Stable text (marked inner ++ List.replicate n '\n') ↔ Closed text := by
    refine ⟨fun h => ?_, fun h => (settled_of_closed he h).2⟩
    by_contra hnot
    obtain ⟨pre, post, htext, hpre, hpost⟩ := hopen hnot
    exact (unsettled_of_open he hpre hpost htext).2 h
  refine ⟨hround, hstable, fun h => ready_of_survives hb he (hround.mp h.1) h.2.2.1, fun h => ?_⟩
  have hboth := settled_of_closed (n := n) he (ready_closed h)
  have hsurvives := @survives_of_ready text inner n h
  exact ⟨hboth.1, hboth.2, hsurvives, by rw [hboth.2]; exact hsurvives⟩

/-- A block of one row. -/
def rowBlock : Text := marked "\n| a | 1 |\n".toList ++ List.replicate 1 '\n'

theorem rendered_rowBlock : Rendered rowBlock :=
  ⟨_, 1, rfl, find_eq_none.mp (by decide), find_eq_none.mp (by decide)⟩

theorem write_then_check_iff_row : (RoundTrips "# t\n".toList rowBlock ↔ Closed "# t\n".toList) ∧
    (Stable "# t\n".toList rowBlock ↔ Closed "# t\n".toList) := by
  obtain ⟨hround, hstable, -⟩ := write_then_check_iff rendered_rowBlock "# t\n".toList
  exact ⟨hround, hstable⟩

/-- A text with a begin mark and no end mark. -/
theorem open_text_fails_check : ¬ ∀ text block, Rendered block →
    RoundTrips text block ∧ Stable text block ∧ Survives text block (spliceBlock text block) ∧
      Survives text block (spliceBlock (spliceBlock text block) block) := by
  intro hall
  obtain ⟨hround, -⟩ :=
    hall ("# t\n".toList ++ beginMark ++ "\nx\n".toList) rowBlock rendered_rowBlock
  have hdiffer : ¬ RoundTrips ("# t\n".toList ++ beginMark ++ "\nx\n".toList) rowBlock := by
    unfold RoundTrips
    decide +kernel
  exact hdiffer hround

end Lobcore.ReadmeBlocks
