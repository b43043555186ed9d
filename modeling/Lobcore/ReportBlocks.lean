import Lobcore.StatsReports

/-!
A report is a block. No figure brings a mark into the text, whatever the counters are and
whatever bytes the symbols and the system events consist of; the name of the input is the only
text that could, and where it does the report is no block.
-/
namespace Lobcore.ReportBlocks

open Payloads SessionStats Sessions TextMarks ReadmeBlocks TypeHours FigureTexts StatsReports

/-! Texts that stay out of the marks. -/

/-- A text that never takes part in an occurrence of the word before the text that follows. -/
def Clear (m s : Text) : Prop := ∀ v, Free m v → Free m (s ++ v)

/-- A word that starts like a mark. -/
structure Marks (m : Text) : Prop where
  mark : IsMark '<' m
  second : ∃ t, m = '<' :: '!' :: t

theorem marks_begin : Marks beginMark := ⟨isMark_begin, "-- lobcore:begin:stats -->".toList, rfl⟩

theorem marks_end : Marks endMark := ⟨isMark_end, "-- lobcore:end:stats -->".toList, rfl⟩

section Clear

variable {m s t : Text} {c d : Char}

theorem Clear.free (hm : Marks m) (h : Clear m s) : Free m s :=
  List.append_nil s ▸ h [] (free_nil hm.mark)

theorem Clear.append (hs : Clear m s) (ht : Clear m t) : Clear m (s ++ t) := fun v hv => by
  rw [List.append_assoc]
  exact hs _ (ht v hv)

theorem clear_nil : Clear m [] := fun _ hv => hv

theorem clear_of_not_mem (hm : Marks m) (hs : '<' ∉ s) : Clear m s := fun _ hv =>
  hv.letters_append hm.mark hs

/-- A letter before one that does not continue a mark. -/
theorem clear_pair (hm : Marks m) (hd : d ≠ '!') (hd' : d ≠ '<') : Clear m [c, d] := by
  obtain ⟨t, rfl⟩ := hm.second
  intro v hv h
  rcases List.infix_cons_iff.mp h with h | h
  · exact hd (List.cons_prefix_cons.mp (List.cons_prefix_cons.mp h).2).1.symm
  · rcases List.infix_cons_iff.mp h with h | h
    · exact hd' (List.cons_prefix_cons.mp h).1.symm
    · exact hv h

/-- A text without the word before a letter that the word does not have. -/
theorem free_join {w : Text} (hc : c ∉ w) (hs : Free w s) {v : Text} (hv : Free w v) :
    Free w (s ++ c :: v) := by
  have hne : w ≠ [] := fun hnil => hs (hnil ▸ List.nil_infix)
  induction s with
  | nil =>
    intro h
    rcases List.infix_cons_iff.mp h with h | h
    · exact hne (List.prefix_nil.mp (prefix_of_not_mem (u := []) hc h))
    · exact hv h
  | cons a s ih =>
    intro h
    rcases List.infix_cons_iff.mp h with h | h
    · exact hs (prefix_of_not_mem hc h).isInfix
    · exact ih hs.tail h

theorem clear_ended (hc : c ∉ m) (hs : Free m s) : Clear m (s ++ [c]) := fun v hv => by
  rw [List.append_assoc]
  exact free_join hc hs hv

theorem clear_flatMap {α : Type} {f : α → Text} {xs : List α} (h : ∀ x ∈ xs, Clear m (f x)) :
    Clear m (xs.flatMap f) := by
  induction xs with
  | nil => exact clear_nil
  | cons x xs ih =>
    rw [List.flatMap_cons]
    exact (h x (List.mem_cons_self ..)).append (ih fun y hy => h y (List.mem_cons_of_mem _ hy))

theorem clear_join {sep : Text} {parts : List Text} (hsep : Clear m sep)
    (h : ∀ p ∈ parts, Clear m p) : Clear m (join sep parts) := by
  induction parts with
  | nil => exact clear_nil
  | cons p parts ih =>
    cases parts with
    | nil =>
      have hone : join sep [p] = p := List.append_nil p
      rw [hone]
      exact h p (List.mem_cons_self ..)
    | cons q parts =>
      have hmore : join sep (p :: q :: parts) = p ++ (sep ++ join sep (q :: parts)) := rfl
      rw [hmore]
      exact (h p (List.mem_cons_self ..)).append
        (hsep.append (ih fun r hr => h r (List.mem_cons_of_mem _ hr)))

theorem free_of_length (h : s.length < m.length) : Free m s := fun hin =>
  absurd hin.length_le (not_le.mpr h)

end Clear

/-! Plain texts. -/

/-- A text of one line that cannot begin a mark. -/
def Plain (s : Text) : Prop := '<' ∉ s ∧ '\n' ∉ s

instance plainDecidable : DecidablePred Plain := fun s =>
  inferInstanceAs (Decidable ('<' ∉ s ∧ '\n' ∉ s))

@[simp] theorem plain_append {s t : Text} : Plain (s ++ t) ↔ Plain s ∧ Plain t := by
  simp only [Plain, List.mem_append, not_or]
  tauto

@[simp] theorem plain_nil : Plain [] := ⟨nofun, nofun⟩

@[simp] theorem plain_cons {c : Char} {s : Text} : Plain (c :: s) ↔
    (c ≠ '<' ∧ c ≠ '\n') ∧ Plain s := by
  simp only [Plain, List.mem_cons, not_or, ne_eq, eq_comm]
  tauto

theorem plain_of_digits {s : Text} (h : ∀ c ∈ s, c.isDigit = true ∨ c = ',' ∨ c = ':' ∨ c = '.') :
    Plain s := by
  constructor <;> intro hmem <;> rcases h _ hmem with h | h | h | h <;> revert h <;> decide

@[simp] theorem plain_commas (n : ℕ) : Plain (commas n) :=
  plain_of_digits fun _ hc => (mem_commas hc).imp_right Or.inl

@[simp] theorem plain_digits (n : ℕ) : Plain (Nat.toDigits 10 n) :=
  plain_of_digits fun _ hc => Or.inl (isDigit_of_mem hc)

@[simp] theorem plain_hms (n : ℕ) : Plain (hms n) :=
  plain_of_digits fun _ hc => (mem_hms hc).imp_right Or.inr

@[simp] theorem plain_hex (bytes : List UInt8) : Plain (hex bytes) := by
  constructor <;> intro hmem <;> exact absurd (mem_hex hmem) (by decide)

@[simp] theorem plain_slash : Plain slash := by decide

@[simp] theorem plain_signed (z : ℤ) : Plain (signed z) := by
  unfold signed
  split
  · exact plain_cons.mpr ⟨by decide, plain_digits _⟩
  · exact plain_digits _

/-- The texts of floating-point figures are plain. -/
structure PlainFloats (fl : FloatTexts) : Prop where
  percent : ∀ a b, Plain (fl.percent a b)
  fraction : ∀ a b, Plain (fl.fraction a b)
  rate : ∀ a b, Plain (fl.rate a b)
  millis : ∀ a, Plain (fl.millis a)

theorem Plain.clear {m s : Text} (hm : Marks m) (h : Plain s) : Clear m s :=
  clear_of_not_mem hm h.1

/-! Symbols and what is watched. -/

theorem length_lossyFrom (fuel : ℕ) (bs : Bytes) : (lossyFrom fuel bs).length ≤ fuel := by
  induction fuel generalizing bs with
  | zero => exact Nat.zero_le _
  | succ fuel ih =>
    cases bs with
    | nil => exact Nat.zero_le _
    | cons b bs =>
      rw [lossyFrom]
      split
      · exact Nat.succ_le_succ (ih _)
      · exact Nat.succ_le_succ (ih _)

theorem length_sym (symbol : Bytes) : (sym symbol).length ≤ symbol.length :=
  (List.rdropWhile_prefix _ _).length_le.trans (length_lossyFrom _ _)

/-- A word without spaces that is longer than all parts is in none of them, nor in the whole. -/
theorem free_spaced {w : Text} (hspace : ' ' ∉ w) {parts : List Text}
    (h : ∀ p ∈ parts, p.length < w.length) (hw : w ≠ []) : Free w (join [' '] parts) := by
  induction parts with
  | nil => exact fun hin => hw (List.eq_nil_of_infix_nil hin)
  | cons p parts ih =>
    have hp := free_of_length (h p (List.mem_cons_self ..))
    cases parts with
    | nil =>
      have hone : join [' '] [p] = p := List.append_nil p
      rwa [hone]
    | cons q parts =>
      have hmore : join [' '] (p :: q :: parts) = p ++ ' ' :: join [' '] (q :: parts) := rfl
      rw [hmore]
      exact free_join hspace hp (ih fun r hr => h r (List.mem_cons_of_mem _ hr))

/-- The words of the marks. -/
def beginWord : Text := "lobcore:begin:stats".toList

def endWord : Text := "lobcore:end:stats".toList

/-- No watchlist of symbols of eight bytes describes itself by a mark. -/
theorem free_describe {w : Watchlist} (h : ∀ s ∈ w.symbols, s.length ≤ 8) :
    Free beginMark (describe w) ∧ Free endMark (describe w) := by
  have hparts : ∀ p ∈ w.symbols.map sym ++ w.locates.map (fun l => '#' :: Nat.toDigits 10 l.toNat),
      p.length ≤ 8 := by
    intro p hp
    rcases List.mem_append.mp hp with hp | hp
    · obtain ⟨s, hs, rfl⟩ := List.mem_map.mp hp
      exact (length_sym s).trans (h s hs)
    · obtain ⟨l, -, rfl⟩ := List.mem_map.mp hp
      have hlen := (Nat.length_toDigits_le_iff (n := l.toNat) (b := 10) (k := 5) (by decide)
        (by decide)).mpr (by have := l.toNat_lt; omega)
      rw [List.length_cons]
      omega
  have hword : ∀ v : Text, v ≠ [] → ' ' ∉ v → 11 < v.length → Free v (describe w) := by
    intro v hv hspace hlen
    unfold describe
    split
    · exact free_of_length hlen
    · dsimp only
      split
      · exact free_of_length (lt_trans (by decide) hlen)
      · exact free_spaced hspace (fun p hp => lt_of_le_of_lt (hparts p hp) (by omega)) hv
  have hbegin := hword beginWord (by decide) (by decide) (by decide)
  have hend := hword endWord (by decide) (by decide) (by decide)
  exact ⟨fun hin => hbegin (List.IsInfix.trans (by decide) hin),
    fun hin => hend (List.IsInfix.trans (by decide) hin)⟩

/-! The parts of a report. -/

/-- The labels of the first table. -/
def labels : List String :=
  ["source", "messages (complete frames)", "truncated final message", "inflated bytes consumed",
    "unknown message types (skipped by length)", "by type", "time span (ns since midnight)",
    "time span", "system events", "locates with a book", "order messages without a prior R",
    "adds at placeholder prices (<= $0.01 or >= $199,900)",
    "live orders: high-water mark / at close", "crossed snapshots before Q",
    "crossed snapshots after Q (all / trading-state T)", "unknown-id",
    "negative-qty attempts (over-execute + over-cancel)",
    "duplicate id / bad qty / bad price / bad side", "E/C at level head", "event log",
    "close book-state hash, all locates"]

section Summary

variable {fl : FloatTexts} {r : Report} {p : String × Text}

theorem label_mem (hp : p ∈ summary fl r) : p.1 ∈ labels := by
  simp only [summary, List.mem_cons, List.not_mem_nil, or_false] at hp
  rcases hp with rfl | rfl | rfl | rfl | rfl | rfl | rfl | rfl | rfl | rfl | rfl | rfl | rfl | rfl |
    rfl | rfl | rfl | rfl | rfl | rfl
  case inr.inr.inr.inr.inr.inr.inl =>
    split <;> simp [labels]
  all_goals simp [labels]

/-- Most values are plain; the others print names, types or events. -/
theorem summary_cases (hfl : PlainFloats fl) (hp : p ∈ summary fl r) : Plain p.2 ∨
    p = ("source", ['`'] ++ r.stats.source.toList ++ ['`']) ∨
    p = ("by type", typeHistogramLine r.stats) ∨ p = ("system events", systemEvents r.stats) ∨
    ∃ a b, Plain a ∧ Plain b ∧
      p = ("locates with a book", a ++ (r.watchlist ++ [';']) ++ b) := by
  simp only [summary, List.mem_cons, List.not_mem_nil, or_false] at hp
  rcases hp with rfl | rfl | rfl | rfl | rfl | rfl | rfl | rfl | rfl | rfl | rfl | rfl | rfl | rfl |
    rfl | rfl | rfl | rfl | rfl | rfl
  · exact Or.inr (Or.inl rfl)
  · exact Or.inl (plain_commas _)
  · exact Or.inl (by dsimp only; split <;> simp)
  · exact Or.inl (by dsimp only; split <;> simp)
  · exact Or.inl (plain_commas _)
  · exact Or.inr (Or.inr (Or.inl rfl))
  · refine Or.inl ?_
    split
    · simp
    · exact ⟨by decide, by decide⟩
  · exact Or.inr (Or.inr (Or.inr (Or.inl rfl)))
  · have hsplit : "; array window ".toList = [';'] ++ " array window ".toList := by decide
    refine Or.inr (Or.inr (Or.inr (Or.inr ⟨commas (locatesWithBook r.stats).length ++
      " (".toList ++ Nat.toDigits 10 ((locatesWithBook r.stats).filter fun p => p.2.array).length ++
      " array, ".toList ++ Nat.toDigits 10 ((locatesWithBook r.stats).length -
        ((locatesWithBook r.stats).filter fun p => p.2.array).length) ++
      " reference); watchlist: ".toList, " array window ".toList ++
      Nat.toDigits 10 r.stats.arrayWindow ++ " levels/side".toList, by simp, by simp, ?_⟩)))
    rw [hsplit]
    simp only [List.append_assoc]
  · exact Or.inl (plain_commas _)
  · exact Or.inl (by dsimp only; split <;> simp [hfl.percent])
  all_goals refine Or.inl ?_
  · simp
  · simp
  · simp
  · simp
  · simp
  · simp
  · dsimp only
    split <;> simp [hfl.fraction]
  · dsimp only
    split <;> simp
  · simp

end Summary

theorem plain_twoDigits (t : UInt8) : Plain (twoDigits 16 t.toNat) := by
  have hall : ∀ n < 256, Plain (twoDigits 16 n) := by decide +kernel
  exact hall t.toNat t.toNat_lt

theorem plain_hour (h : ℕ) : Plain (twoDigits 10 h) :=
  plain_append.mpr ⟨⟨fun h => by simp at h, fun h => by simp at h⟩, plain_digits h⟩

theorem plain_entry {s : Text} (h : Plain s) : Plain (entry s) :=
  plain_append.mpr ⟨plain_append.mpr ⟨by decide, h⟩, by decide⟩

theorem plain_entries {α : Type} {f : α → Text} (h : ∀ a, Plain (f a)) (xs : List α) :
    Plain (xs.flatMap fun a => entry (f a)) := by
  induction xs with
  | nil => exact plain_nil
  | cons x xs ih =>
    rw [List.flatMap_cons]
    exact plain_append.mpr ⟨plain_entry (h x), ih⟩

section Parts

variable {m : Text} (hm : Marks m)

include hm

theorem clear_typeLabel (t : UInt8) : Clear m (typeLabel t ++ [' ']) := by
  unfold typeLabel
  split
  · exact clear_pair hm (by decide) (by decide)
  · exact (plain_append.mpr ⟨plain_append.mpr ⟨by decide, plain_twoDigits t⟩, by decide⟩).clear hm

theorem clear_histogram (st : Stats) : Clear m (typeHistogramLine st) := by
  refine clear_join (Plain.clear hm (by decide)) fun p hp => ?_
  obtain ⟨t, -, rfl⟩ := List.mem_map.mp hp
  have hsplit : typeLabel t ++ ' ' :: commas (count st t) =
      typeLabel t ++ [' '] ++ commas (count st t) := by simp
  rw [hsplit]
  exact (clear_typeLabel hm t).append (Plain.clear hm (plain_commas _))

theorem clear_events (st : Stats) : Clear m (systemEvents st) := by
  have hjoin : Clear m (join [' '] (st.sEvents.map fun e =>
      letter e.1 :: '@' :: hms e.2.toNat)) := by
    refine clear_join (Plain.clear hm (by decide)) fun p hp => ?_
    obtain ⟨e, -, rfl⟩ := List.mem_map.mp hp
    exact (clear_pair (c := letter e.1) hm (by decide) (by decide)).append
      (Plain.clear hm (plain_hms _))
  unfold systemEvents
  dsimp only
  split
  · exact Plain.clear hm (by decide)
  · exact hjoin

theorem clear_entries {α : Type} {f : α → Text} (h : ∀ a, Plain (f a)) (xs : List α) :
    Clear m (xs.flatMap fun a => entry (f a)) := (plain_entries h xs).clear hm

theorem clear_typeRow (t : TypeHours.Row) : Clear m ("| ".toList ++ typeLabel t.ty ++ " |".toList ++
    t.cells.flatMap (fun c => entry (commas c)) ++ entry (commas t.total) ++ ['\n']) := by
  have hlabel : "| ".toList ++ typeLabel t.ty ++ " |".toList =
      "| ".toList ++ (typeLabel t.ty ++ [' ']) ++ ['|'] := by simp
  have hfirst : Clear m ("| ".toList ++ typeLabel t.ty ++ " |".toList) := by
    rw [hlabel]
    exact ((clear_of_not_mem hm (by decide)).append (clear_typeLabel hm t.ty)).append
      (clear_of_not_mem hm (by decide))
  have hcells := hfirst.append (clear_entries hm plain_commas t.cells)
  exact (hcells.append ((plain_entry (plain_commas _)).clear hm)).append
    (clear_of_not_mem hm (by decide))

theorem clear_typeHour (st : Stats) : Clear m (renderTypeHour st) := by
  unfold renderTypeHour
  dsimp only
  iterate 10 refine Clear.append ?_ ?_
  · exact clear_of_not_mem hm (by decide)
  · exact clear_entries hm plain_hour _
  · exact clear_of_not_mem hm (by decide)
  · exact clear_of_not_mem hm (by decide)
  · exact clear_flatMap fun _ _ => clear_of_not_mem hm (by decide)
  · exact clear_of_not_mem hm (by decide)
  · exact clear_flatMap fun t _ => clear_typeRow hm t
  · exact clear_of_not_mem hm (by decide)
  · exact clear_entries hm plain_commas _
  · exact (plain_entry (plain_commas _)).clear hm
  · exact clear_of_not_mem hm (by decide)

theorem clear_label {label : String} (h : label ∈ labels) : Clear m label.toList := by
  have hall : ∀ l ∈ labels, l = "adds at placeholder prices (<= $0.01 or >= $199,900)" ∨
      '<' ∉ l.toList := by decide +kernel
  have hsplit : "adds at placeholder prices (<= $0.01 or >= $199,900)".toList =
      "adds at placeholder prices (".toList ++ ['<', '='] ++ " $0.01 or >= $199,900)".toList := by
    decide
  rcases hall label h with rfl | hout
  · rw [hsplit]
    exact ((clear_of_not_mem hm (by decide)).append (clear_pair hm (by decide)
      (by decide))).append (clear_of_not_mem hm (by decide))
  · exact clear_of_not_mem hm hout

theorem clear_row {label : String} {value : Text} (hl : Clear m label.toList)
    (hv : Clear m value) : Clear m (row label value) := by
  unfold row
  iterate 4 refine Clear.append ?_ ?_
  · exact clear_of_not_mem hm (by decide)
  · exact hl
  · exact clear_of_not_mem hm (by decide)
  · exact hv
  · exact clear_of_not_mem hm (by decide)

theorem clear_locateRow {st : Stats} {l : ℕ} (hlen : 9 < m.length) (hbar : '|' ∉ m)
    (h : (st.locates.getD l .new).symbol.length ≤ 8) : Clear m (locateRow st l) := by
  have hdash : Plain "–".toList := by decide
  have hsym : Clear m (sym (st.locates.getD l .new).symbol ++ [' '] ++ ['|']) := by
    refine clear_ended hbar (free_of_length ?_)
    have hle := length_sym (st.locates.getD l .new).symbol
    rw [List.length_append, List.length_singleton]
    omega
  have hsplit : ∀ a b c d e f x v w z t : Text, ∀ g : Char,
      "| ".toList ++ a ++ " | ".toList ++ b ++ " | ".toList ++ c ++ " | ".toList ++ d ++
        " | ".toList ++ e ++ slash ++ f ++ " | ".toList ++ [g] ++ " | ".toList ++ x ++
        " | ".toList ++ v ++ " | ".toList ++ w ++ " | `".toList ++ z ++ t =
      "| ".toList ++ a ++ " | ".toList ++ (b ++ [' '] ++ ['|']) ++ (' ' :: c ++ " | ".toList ++ d ++
        " | ".toList ++ e ++ slash ++ f ++ " | ".toList) ++ [g, ' '] ++ ("| ".toList ++ x ++
        " | ".toList ++ v ++ " | ".toList ++ w ++ " | `".toList ++ z) ++ t := by
    intros
    simp
  unfold locateRow
  dsimp only
  rw [hsplit]
  iterate 7 refine Clear.append ?_ ?_
  · exact clear_of_not_mem hm (by decide)
  · exact Plain.clear hm (plain_digits l)
  · exact clear_of_not_mem hm (by decide)
  · exact hsym
  · refine Plain.clear hm ?_
    split <;> simp
  · exact clear_pair hm (by decide) (by decide)
  · refine Plain.clear hm ?_
    split <;> simp
  · exact clear_of_not_mem hm (by decide)

theorem clear_locates {st : Stats} (hlen : 9 < m.length) (hbar : '|' ∉ m)
    (h : ∀ l, (st.locates.getD l .new).symbol.length ≤ 8) : Clear m (renderLocates st) := by
  unfold renderLocates
  dsimp only
  split
  · exact clear_of_not_mem hm (by decide +kernel)
  · iterate 2 refine Clear.append ?_ ?_
    · exact clear_of_not_mem hm (by decide +kernel)
    · exact clear_of_not_mem hm (by decide +kernel)
    · exact clear_flatMap fun l _ => clear_locateRow hm hlen hbar (h l)

theorem clear_summary {fl : FloatTexts} {r : Report} (hfl : PlainFloats fl) (htick : '`' ∉ m)
    (hsemi : ';' ∉ m) (hsource : Free m r.stats.source.toList) (hwatch : Free m r.watchlist) :
    Clear m (rows (summary fl r)) := by
  refine clear_flatMap fun p hp => clear_row hm (clear_label hm (label_mem hp)) ?_
  rcases summary_cases hfl hp with h | rfl | rfl | rfl | ⟨a, b, ha, hb, rfl⟩
  · exact h.clear hm
  · exact clear_ended htick (hsource.letters_append hm.mark (by decide))
  · exact clear_histogram hm r.stats
  · exact clear_events hm r.stats
  · exact ((ha.clear hm).append (clear_ended hsemi hwatch)).append (hb.clear hm)

theorem clear_timings {fl : FloatTexts} (hfl : PlainFloats fl) (r : Report) :
    Clear m (rows (timingRows fl r)) := by
  refine clear_flatMap fun p hp => ?_
  unfold timingRows at hp
  cases htiming : r.timing with
  | none =>
    rw [htiming] at hp
    cases hp
  | some t =>
    rw [htiming] at hp
    dsimp only at hp
    rcases List.mem_cons.mp hp with rfl | hp
    · refine clear_row hm (Plain.clear hm ?_) (Plain.clear hm ?_)
      · dsimp only
        split <;> decide
      · simp [hfl.rate, hfl.millis]
    · rw [List.mem_singleton.mp hp]
      refine clear_row hm (Plain.clear hm ?_) (Plain.clear hm ?_)
      · dsimp only
        split <;> decide
      · simp [hfl.rate, hfl.millis]

end Parts

/-! The block. -/

/-- What is rendered between the marks. -/
def inner (fl : FloatTexts) (r : Report) (timing : Bool) : Text :=
  ['\n'] ++ "| replay | value |\n".toList ++ "|---|---|\n".toList ++ rows (summary fl r) ++
    (if timing then rows (timingRows fl r) else []) ++ ['\n'] ++ renderTypeHour r.stats ++ ['\n'] ++
    renderLocates r.stats

theorem renderWith_eq (fl : FloatTexts) (r : Report) (timing : Bool) :
    renderWith fl r timing = marked (inner fl r timing) ++ List.replicate 1 '\n' := by
  simp [renderWith, marked, inner]

/-- Symbols have eight bytes, and the watchlist is described by its symbols and locates. -/
structure Sized (r : Report) : Prop where
  symbols : ∀ s ∈ r.stats.locates, s.symbol.length = 8
  watchlist : ∃ w, r.watchlist = describe w ∧ ∀ s ∈ w.symbols, s.length = 8

theorem Sized.symbol {r : Report} (h : Sized r) (l : ℕ) :
    (r.stats.locates.getD l .new).symbol.length ≤ 8 := by
  rw [List.getD_eq_getElem?_getD]
  cases hl : r.stats.locates[l]? with
  | none => exact le_refl 8
  | some s => exact (h.symbols s (List.mem_of_getElem? hl)).le

section Report

variable {fl : FloatTexts} {r : Report} {timing : Bool}

theorem clear_inner {m : Text} (hm : Marks m) (hlen : 9 < m.length)
    (hout : '|' ∉ m ∧ '`' ∉ m ∧ ';' ∉ m) (hfl : PlainFloats fl) (hr : Sized r)
    (hsource : Free m r.stats.source.toList) (hwatch : Free m r.watchlist) :
    Clear m (inner fl r timing) := by
  unfold inner
  iterate 8 refine Clear.append ?_ ?_
  · exact clear_of_not_mem hm (by decide)
  · exact clear_of_not_mem hm (by decide)
  · exact clear_of_not_mem hm (by decide)
  · exact clear_summary hm hfl hout.2.1 hout.2.2 hsource hwatch
  · split
    · exact clear_timings hm hfl r
    · exact clear_nil
  · exact clear_of_not_mem hm (by decide)
  · exact clear_typeHour hm r.stats
  · exact clear_of_not_mem hm (by decide)
  · exact clear_locates hm hlen hout.1 hr.symbol

theorem source_infix : r.stats.source.toList <:+: inner fl r timing := by
  have hvalue : r.stats.source.toList <:+: row "source"
      (['`'] ++ r.stats.source.toList ++ ['`']) := by
    unfold row
    exact ⟨"| source | `".toList, "` |\n".toList, by simp⟩
  have hrow : row "source" (['`'] ++ r.stats.source.toList ++ ['`']) <:+: rows (summary fl r) :=
    (List.prefix_append _ _).isInfix
  have hrows : rows (summary fl r) <:+: inner fl r timing := by
    unfold inner
    iterate 5 refine List.IsInfix.trans ?_ (List.prefix_append _ _).isInfix
    exact (List.suffix_append _ _).isInfix
  exact (hvalue.trans hrow).trans hrows

theorem free_inner (hfl : PlainFloats fl) (hr : Sized r) (hb : Free beginMark r.stats.source.toList)
    (he : Free endMark r.stats.source.toList) :
    Free beginMark (inner fl r timing) ∧ Free endMark (inner fl r timing) := by
  obtain ⟨w, hw, hwatch⟩ := hr.watchlist
  have hfree := free_describe (w := w) fun s hs => (hwatch s hs).le
  rw [← hw] at hfree
  constructor
  · exact (clear_inner marks_begin (by decide) (by decide) hfl hr hb hfree.1).free marks_begin
  · exact (clear_inner marks_end (by decide) (by decide) hfl hr he hfree.2).free marks_end

/-- A report is a block exactly when the name of its input has no mark in it. -/
theorem report_is_block (hfl : PlainFloats fl) (hr : Sized r) :
    Rendered (renderWith fl r timing) ↔
      Free beginMark r.stats.source.toList ∧ Free endMark r.stats.source.toList := by
  rw [renderWith_eq]
  constructor
  · rintro ⟨body, n, hbody, hb, he⟩
    have htrim := congrArg (List.rdropWhile (· = '\n')) hbody
    rw [trim_rendered, trim_rendered, marked, marked, List.append_cancel_left_eq,
      List.append_cancel_right_eq] at htrim
    subst htrim
    exact ⟨fun hin => hb (hin.trans source_infix), fun hin => he (hin.trans source_infix)⟩
  · rintro ⟨hb, he⟩
    exact ⟨_, 1, rfl, free_inner hfl hr hb he⟩

end Report

/-- A report of four adds, one of them at a placeholder price, with some orders left. -/
def smallReport (live : ℕ) : Report where
  stats := { Stats.new "day.itch" 64 with
    byType := (List.replicate 256 0).set 65 4
    placeholderAdds := 1
    live := live }
  watchlist := "none".toList
  timing := none

/-- The text of one in four. -/
def smallTexts : FloatTexts where
  percent := fun _ _ => "25.00".toList
  fraction := fun _ _ => "0.250".toList
  rate := fun _ _ => "0.25".toList
  millis := fun _ => "0".toList

theorem plain_smallTexts : PlainFloats smallTexts where
  percent _ _ := (by decide : Plain "25.00".toList)
  fraction _ _ := (by decide : Plain "0.250".toList)
  rate _ _ := (by decide : Plain "0.25".toList)
  millis _ := (by decide : Plain "0".toList)

theorem sized_smallReport (live : ℕ) : Sized (smallReport live) where
  symbols := nofun
  watchlist := ⟨⟨[], [], false⟩, rfl, nofun⟩

theorem report_is_block_small : Rendered (renderWith smallTexts (smallReport 3) false) ↔
    Free beginMark "day.itch".toList ∧ Free endMark "day.itch".toList :=
  report_is_block plain_smallTexts (sized_smallReport 3)

end Lobcore.ReportBlocks
