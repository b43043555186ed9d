import Lobcore.ReportBlocks
import Lobcore.RoundTrips

/-!
The figures of a report. Every row can be read back: the separators between its figures do not
occur in the figures before them, and the names, which may be anything on one line, stand between
fixed texts or are reached from the right.
-/
namespace Lobcore.ReportFigures

open Payloads SessionStats Sessions TextMarks ReadmeBlocks TypeHours FigureTexts StatsReports
open ReportBlocks

/-! What a block without timings tells. -/

/-- The figures of a listed locate; the first three of an array book are the overflow hits, the
offsets and the window. -/
structure LocateFigures where
  locate : ℕ
  symbol : Text
  msgs : ℕ
  liveHwm : ℕ
  live : ℕ
  state : Char
  array : Option (ℕ × (ℤ × ℤ) × ℤ × ℕ × ℤ)
  closeHash : List UInt8

structure Figures where
  source : Text
  messages : ℕ
  truncated : ℕ
  sourceCut : Bool
  bytesIn : ℕ
  trailingBytes : ℕ
  unknownType : ℕ
  byType : List (UInt8 × ℕ)
  span : Option (ℕ × ℕ)
  events : List (UInt8 × ℕ)
  books : ℕ
  arrays : ℕ
  watchlist : Text
  arrayWindow : ℕ
  noDirectory : ℕ
  placeholderAdds : ℕ
  adds : ℕ
  liveHwm : ℕ
  live : ℕ
  crossedBeforeQ : ℕ
  crossedAfterQ : ℕ
  crossedAfterQTrading : ℕ
  unknownId : ℕ
  overExecute : ℕ
  overCancel : ℕ
  duplicateId : ℕ
  badQty : ℕ
  badPrice : ℕ
  badSide : ℕ
  ecAtHead : ℕ
  ecTotal : ℕ
  log : Option (ℕ × List UInt8)
  allLocatesHash : List UInt8
  table : TypeHour
  locates : List LocateFigures

/-! Numbers with other texts. -/

theorem pair_inj {a b a' b' : ℕ}
    (h : commas a ++ slash ++ commas b = commas a' ++ slash ++ commas b') : a = a' ∧ b = b' := by
  rw [List.append_assoc, List.append_assoc] at h
  obtain ⟨ha, hrest⟩ := commas_front (by simp [slash]) (by simp [slash]) h
  exact ⟨ha, commas_inj (List.append_cancel_left hrest)⟩

theorem signed_front {a b : ℤ} {x y : Text} (hx : Stops x) (hy : Stops y)
    (h : signed a ++ x = signed b ++ y) : a = b ∧ x = y := by
  have hhead : ∀ {n : ℕ} {x y : Text}, '-' :: x ≠ Nat.toDigits 10 n ++ y := by
    intro n x y heq
    obtain ⟨d, ds, hd⟩ := List.exists_cons_of_ne_nil (Nat.toDigits_ne_nil (b := 10) (n := n))
    rw [hd, List.cons_append] at heq
    have hdigit := isDigit_of_mem (n := n) (hd ▸ List.mem_cons_self ..)
    rw [← (List.cons.inj heq).1] at hdigit
    exact absurd hdigit (by decide)
  unfold signed at h
  split at h <;> split at h
  · obtain ⟨hab, hxy⟩ := digits_front hx hy (List.cons.inj h).2
    exact ⟨by omega, hxy⟩
  · exact absurd h hhead
  · exact absurd h.symm hhead
  · obtain ⟨hab, hxy⟩ := digits_front hx hy h
    exact ⟨by omega, hxy⟩

theorem signed_inj {a b : ℤ} (h : signed a = signed b) : a = b :=
  (signed_front (x := []) (y := []) stops_nil stops_nil (by simpa using h)).1

/-! Lists. -/

theorem join_cons (sep p : Text) (parts : List Text) :
    join sep (p :: parts) = if parts = [] then p else p ++ (sep ++ join sep parts) := by
  cases parts with
  | nil => exact List.append_nil p
  | cons q parts => rfl

theorem not_mem_join {c : Char} {sep : Text} {parts : List Text} (hsep : c ∉ sep)
    (h : ∀ p ∈ parts, c ∉ p) : c ∉ join sep parts := by
  induction parts with
  | nil => exact List.not_mem_nil
  | cons p parts ih =>
    have hp := h p (List.mem_cons_self ..)
    rw [join_cons]
    split
    · exact hp
    · have hrest := ih fun q hq => h q (List.mem_cons_of_mem _ hq)
      simp [hp, hsep, hrest]

/-- Parts without a letter of the separator can be told apart. -/
theorem join_inj {c : Char} {a b : Text} (ha : c ∉ a) {ps qs : List Text}
    (hps : ∀ p ∈ ps, c ∉ p ∧ p ≠ []) (hqs : ∀ q ∈ qs, c ∉ q ∧ q ≠ [])
    (h : join (a ++ c :: b) ps = join (a ++ c :: b) qs) : ps = qs := by
  induction ps generalizing qs with
  | nil =>
    cases qs with
    | nil => rfl
    | cons q qs =>
      have hq := (hqs q (List.mem_cons_self ..)).2
      rw [join_cons] at h
      split at h
      · exact absurd h.symm hq
      · exact absurd (List.append_eq_nil_iff.mp h.symm).1 hq
  | cons p ps ih =>
    have hp := hps p (List.mem_cons_self ..)
    cases qs with
    | nil =>
      rw [join_cons] at h
      split at h
      · exact absurd h hp.2
      · exact absurd (List.append_eq_nil_iff.mp h).1 hp.2
    | cons q qs =>
      have hq := hqs q (List.mem_cons_self ..)
      rw [join_cons, join_cons] at h
      have hmem : ∀ {s t : Text}, c ∈ s ++ (a ++ c :: b ++ t) := by simp
      split at h <;> split at h
      · simp_all
      · exact absurd (h ▸ hmem) hp.1
      · exact absurd (h ▸ hmem) hq.1
      · have hshape : ∀ s t : Text, s ++ (a ++ c :: b ++ t) = s ++ a ++ c :: (b ++ t) := by simp
        rw [hshape, hshape] at h
        obtain ⟨hpart, hrest⟩ := cut (fun hin => (List.mem_append.mp hin).elim hp.1 ha)
          (fun hin => (List.mem_append.mp hin).elim hq.1 ha) h
        rw [List.append_cancel_right hpart, ih (fun r hr => hps r (List.mem_cons_of_mem _ hr))
          (fun r hr => hqs r (List.mem_cons_of_mem _ hr)) (List.append_cancel_left hrest)]

theorem letter_inj {a b : UInt8} (h : letter a = letter b) : a = b := by
  rw [← RoundTrips.byte_letter a, h, RoundTrips.byte_letter]

/-- The type byte of a label. -/
def readLabel : Text → ℕ
  | [c] => c.toNat
  | s => (s.drop 2).foldl (fun n c => 16 * n + "0123456789abcdef".toList.idxOf c) 0

theorem typeLabel_inj {a b : UInt8} (h : typeLabel a = typeLabel b) : a = b := by
  have hall : ∀ n < 256, readLabel (typeLabel (.ofNat n)) = n := by decide +kernel
  have hread : ∀ t : UInt8, readLabel (typeLabel t) = t.toNat := fun t => by
    simpa using hall t.toNat t.toNat_lt
  exact UInt8.toNat_inj.mp (by rw [← hread a, h, hread])

theorem not_mem_typeLabel {c : Char} (hc : c ∈ [' ', '·', '\n']) (t : UInt8) :
    c ∉ typeLabel t := by
  have hall : ∀ n < 256, ' ' ∉ typeLabel (.ofNat n) ∧ '·' ∉ typeLabel (.ofNat n) ∧
      '\n' ∉ typeLabel (.ofNat n) := by decide +kernel
  have ht := hall t.toNat t.toNat_lt
  rw [UInt8.ofNat_toNat] at ht
  simp only [List.mem_cons, List.not_mem_nil, or_false] at hc
  rcases hc with rfl | rfl | rfl
  · exact ht.1
  · exact ht.2.1
  · exact ht.2.2

theorem histogram_inj {st st' : Stats} (h : typeHistogramLine st = typeHistogramLine st') :
    (typesPresent st).map (fun t => (t, count st t)) =
      (typesPresent st').map fun t => (t, count st' t) := by
  have hparts : ∀ st : Stats, ∀ p ∈ (typesPresent st).map fun t =>
      typeLabel t ++ ' ' :: commas (count st t), '·' ∉ p ∧ p ≠ [] := by
    intro st p hp
    obtain ⟨t, -, rfl⟩ := List.mem_map.mp hp
    refine ⟨fun hin => ?_, by simp⟩
    rcases List.mem_append.mp hin with hin | hin
    · exact not_mem_typeLabel (by decide) t hin
    · exact not_mem_commas (by decide) (by decide) _ (List.mem_of_ne_of_mem (by decide) hin)
  have hmap := join_inj (c := '·') (a := [' ']) (b := [' ']) (by decide) (hparts st) (hparts st') h
  have hinj : Function.Injective fun p : UInt8 × ℕ => typeLabel p.1 ++ ' ' :: commas p.2 := by
    intro p q hpq
    obtain ⟨hlabel, hcount⟩ := cut (not_mem_typeLabel (by decide) _)
      (not_mem_typeLabel (by decide) _) hpq
    exact Prod.ext (typeLabel_inj hlabel) (commas_inj hcount)
  refine hinj.list_map ?_
  rw [List.map_map, List.map_map]
  exact hmap

def eventText (e : UInt8 × UInt64) : Text := letter e.1 :: '@' :: hms e.2.toNat

theorem join_events (e : UInt8 × UInt64) (es : List (UInt8 × UInt64)) :
    join [' '] ((e :: es).map eventText) = letter e.1 :: '@' :: (hms e.2.toNat ++
      if es = [] then [] else ' ' :: join [' '] (es.map eventText)) := by
  rw [List.map_cons, join_cons]
  cases es <;> simp [eventText]

theorem join_events_inj {es es' : List (UInt8 × UInt64)}
    (h : join [' '] (es.map eventText) = join [' '] (es'.map eventText)) :
    es.map (fun e => (e.1, e.2.toNat)) = es'.map fun e => (e.1, e.2.toNat) := by
  induction es generalizing es' with
  | nil =>
    cases es' with
    | nil => rfl
    | cons e' es' =>
      rw [join_events] at h
      cases h
  | cons e es ih =>
    cases es' with
    | nil =>
      rw [join_events] at h
      cases h
    | cons e' es' =>
      rw [join_events, join_events] at h
      obtain ⟨hletter, hrest⟩ := List.cons.inj h
      obtain ⟨-, hrest⟩ := List.cons.inj hrest
      have htime : ∀ n, ∀ c ∈ hms n, (c.isDigit || c == ':' || c == '.') = true := by
        intro n c hc
        rcases mem_hms hc with hc | hc | hc <;> simp [hc]
      have hspace : ∀ {es : List (UInt8 × UInt64)} {t : Text},
          ∀ c ∈ (if es = [] then [] else ' ' :: t).head?,
            (c.isDigit || c == ':' || c == '.') = false := by
        intro es t c hc
        split at hc
        · cases hc
        · cases hc
          decide
      obtain ⟨hhms, hrest⟩ := front (htime _) (htime _) hspace hspace hrest
      have htail : join [' '] (es.map eventText) = join [' '] (es'.map eventText) := by
        split at hrest <;> split at hrest
        · rename_i hnil hnil'
          rw [hnil, hnil']
        · cases hrest
        · cases hrest
        · exact (List.cons.inj hrest).2
      rw [List.map_cons, List.map_cons, letter_inj hletter, hms_inj hhms, ih htail]

theorem events_inj {st st' : Stats} (h : systemEvents st = systemEvents st') :
    st.sEvents.map (fun e => (e.1, e.2.toNat)) = st'.sEvents.map fun e => (e.1, e.2.toNat) := by
  have hnone : ∀ es : List (UInt8 × UInt64), "none".toList ≠ join [' '] (es.map eventText) := by
    intro es heq
    cases es with
    | nil => cases heq
    | cons e es =>
      rw [join_events] at heq
      exact absurd (List.cons.inj (List.cons.inj heq).2).1 (by decide)
  refine join_events_inj ?_
  simp only [systemEvents] at h
  split at h <;> split at h
  · rename_i hnil hnil'
    exact hnil.trans hnil'.symm
  · exact absurd h (hnone _)
  · exact absurd h.symm (hnone _)
  · exact h

/-! The table by type and hour. -/

theorem flatMap_inj {α : Type} {f : α → Text} (hne : ∀ a, f a ≠ [])
    (hf : ∀ a b x y, f a ++ x = f b ++ y → a = b ∧ x = y) {xs ys : List α}
    (h : xs.flatMap f = ys.flatMap f) : xs = ys := by
  induction xs generalizing ys with
  | nil =>
    cases ys with
    | nil => rfl
    | cons y ys => exact absurd (List.append_eq_nil_iff.mp h.symm).1 (hne y)
  | cons x xs ih =>
    cases ys with
    | nil => exact absurd (List.append_eq_nil_iff.mp h).1 (hne x)
    | cons y ys =>
      rw [List.flatMap_cons, List.flatMap_cons] at h
      obtain ⟨rfl, hrest⟩ := hf _ _ _ _ h
      rw [ih hrest]

theorem counts_inj {xs ys : List ℕ}
    (h : xs.flatMap (fun c => entry (commas c)) = ys.flatMap fun c => entry (commas c)) :
    xs = ys := by
  refine flatMap_inj (fun a => by simp [entry]) (fun a b x y hab => ?_) h
  simp only [entry, List.append_assoc, List.cons_append] at hab
  obtain ⟨hcount, hrest⟩ := commas_front (by simp) (by simp) (List.cons.inj hab).2
  exact ⟨hcount, by simpa using hrest⟩

theorem hours_inj {xs ys : List ℕ}
    (h : xs.flatMap (fun k => entry (twoDigits 10 k)) = ys.flatMap fun k =>
      entry (twoDigits 10 k)) :
    xs = ys := by
  have hdigit : ∀ k, ∀ c ∈ padded 2 k, c.isDigit = true := fun _ _ => isDigit_padded
  refine flatMap_inj (fun a => by simp [entry]) (fun a b x y hab => ?_) h
  simp only [entry, List.append_assoc, List.cons_append] at hab
  obtain ⟨hhour, hrest⟩ := front (hdigit a) (hdigit b) (by simp) (by simp) (List.cons.inj hab).2
  exact ⟨padded_inj (show padded 2 a = padded 2 b from hhour), by simpa using hrest⟩

/-- The texts of the lines of the table. -/
def hoursLine (hours : List ℕ) : Text :=
  "| type \\ hour |".toList ++ hours.flatMap (fun h => entry (twoDigits 10 h)) ++ " total |".toList

def ruleLine (hours : List ℕ) : Text :=
  "|---|".toList ++ hours.flatMap (fun _ => "---:|".toList) ++ "---:|".toList

def typeLine (t : TypeHours.Row) : Text :=
  '|' :: ' ' :: (typeLabel t.ty ++ ' ' :: '|' ::
    (t.cells.flatMap (fun c => entry (commas c)) ++ entry (commas t.total)))

def totalLine (t : TypeHour) : Text :=
  "| total |".toList ++ (t.totals.flatMap (fun c => entry (commas c)) ++ entry (commas t.grand))

def tableLines (t : TypeHour) : List Text :=
  hoursLine t.hours :: ruleLine t.hours :: (t.rows.map typeLine ++ [totalLine t])

/-- Lines with their ends. -/
def ended (ls : List Text) : Text := ls.flatMap (· ++ ['\n'])

theorem renderTypeHour_eq (st : Stats) : renderTypeHour st = ended (tableLines (typeHour st)) := by
  have hrow : ∀ t : TypeHours.Row, "| ".toList ++ typeLabel t.ty ++ " |".toList ++
      t.cells.flatMap (fun c => entry (commas c)) ++ entry (commas t.total) ++ ['\n'] =
        typeLine t ++ ['\n'] := by
    intro t
    simp [typeLine]
  have hshape : ∀ (a b c d e h k m z : Text) (ts : List TypeHours.Row),
      a ++ h ++ (b ++ ['\n']) ++ c ++ k ++ (d ++ ['\n']) ++ ts.flatMap
        (fun t => typeLine t ++ ['\n']) ++ e ++ m ++ z ++ ['\n'] =
      ended ((a ++ h ++ b) :: (c ++ k ++ d) :: (ts.map typeLine ++ [e ++ (m ++ z)])) := by
    intros
    simp [ended, List.flatMap_map]
  refine Eq.trans ?_ (hshape ..)
  rw [← funext hrow]
  rfl

theorem cells_inj {xs ys : List ℕ} {a b : ℕ}
    (h : xs.flatMap (fun c => entry (commas c)) ++ entry (commas a) =
      ys.flatMap (fun c => entry (commas c)) ++ entry (commas b)) : xs = ys ∧ a = b := by
  have hlist : xs ++ [a] = ys ++ [b] := counts_inj (by simpa using h)
  exact ⟨(List.append_inj' hlist rfl).1, List.singleton_inj.mp (List.append_inj' hlist rfl).2⟩

theorem typeLine_inj : Function.Injective typeLine := by
  rintro ⟨t, cells, total⟩ ⟨t', cells', total'⟩ h
  obtain ⟨-, hrest⟩ := List.cons.inj h
  obtain ⟨hlabel, hrest⟩ := cut (not_mem_typeLabel (by decide) _)
    (not_mem_typeLabel (by decide) _) (List.cons.inj hrest).2
  obtain ⟨hcells, htotal⟩ := cells_inj (List.cons.inj hrest).2
  rw [TypeHours.Row.mk.injEq]
  exact ⟨typeLabel_inj hlabel, hcells, htotal⟩

theorem totalLine_inj {t t' : TypeHour} (h : totalLine t = totalLine t') :
    t.totals = t'.totals ∧ t.grand = t'.grand := cells_inj (List.append_cancel_left h)

theorem hoursLine_inj {xs ys : List ℕ} (h : hoursLine xs = hoursLine ys) : xs = ys :=
  hours_inj (List.append_cancel_left (List.append_cancel_right h))

/-- Two tables with as many rows, and what follows them. -/
theorem table_inj {t t' : TypeHour} {x y : List Text} (hrows : t.rows.length = t'.rows.length)
    (h : tableLines t ++ x = tableLines t' ++ y) : t = t' ∧ x = y := by
  simp only [tableLines, List.cons_append, List.append_assoc, List.cons.injEq] at h
  obtain ⟨hhours, -, hrest⟩ := h
  obtain ⟨hmap, hrest⟩ := List.append_inj hrest (by rw [List.length_map, List.length_map, hrows])
  obtain ⟨htotal, hxy⟩ := List.cons.inj hrest
  obtain ⟨htotals, hgrand⟩ := totalLine_inj htotal
  refine ⟨?_, hxy⟩
  cases t
  cases t'
  rw [TypeHour.mk.injEq]
  exact ⟨hoursLine_inj hhours, typeLine_inj.list_map hmap, htotals, hgrand⟩

/-! The rows of the first table. -/

def rowLine (p : String × Text) : Text :=
  '|' :: ' ' :: (p.1.toList ++ (" | ".toList ++ (p.2 ++ " |".toList)))

theorem row_eq (label : String) (value : Text) :
    row label value = rowLine (label, value) ++ ['\n'] := by
  simp [row, rowLine]

theorem rowLine_inj {label : String} {v w : Text} (h : rowLine (label, v) = rowLine (label, w)) :
    v = w :=
  List.append_cancel_right (List.append_cancel_left (List.append_cancel_left
    (List.cons.inj (List.cons.inj h).2).2))

theorem ticked_inj {s t : Text} (h : ['`'] ++ s ++ ['`'] = ['`'] ++ t ++ ['`']) : s = t :=
  List.append_cancel_left (List.append_cancel_right h)

theorem truncated_inj {a b : ℕ} {c d : Bool} {x : Text} (hx : Stops x) (hne : x ≠ [])
    (h : Nat.toDigits 10 a ++ (if c then x else []) = Nat.toDigits 10 b ++ (if d then x else [])) :
    a = b ∧ c = d := by
  have hends : ∀ c : Bool, Stops (if c then x else []) := by
    intro c
    cases c
    · exact stops_nil
    · exact hx
  obtain ⟨hab, hrest⟩ := digits_front (hends c) (hends d) h
  refine ⟨hab, ?_⟩
  cases c <;> cases d <;> simp_all

theorem trailing_inj {a b m n : ℕ} {t : Text}
    (h : commas a ++ (if 0 < m then " (".toList ++ commas m ++ t else []) =
      commas b ++ (if 0 < n then " (".toList ++ commas n ++ t else [])) : a = b ∧ m = n := by
  have hends : ∀ m : ℕ, Ends (if 0 < m then " (".toList ++ commas m ++ t else []) := by
    intro m
    split
    · rw [List.append_assoc]
      exact ends_cons.mpr (by decide)
    · exact ends_nil
  obtain ⟨hab, hrest⟩ := commas_front (hends m) (hends n) h
  refine ⟨hab, ?_⟩
  split at hrest <;> split at hrest
  · exact commas_inj (List.append_cancel_left (List.append_cancel_right hrest))
  · cases hrest
  · cases hrest
  · omega

theorem books_inj {n a k w n' a' k' w' : ℕ} {s s' : Text}
    (h : commas n ++ " (".toList ++ Nat.toDigits 10 a ++ " array, ".toList ++ Nat.toDigits 10 k ++
        " reference); watchlist: ".toList ++ s ++ "; array window ".toList ++ Nat.toDigits 10 w ++
        " levels/side".toList =
      commas n' ++ " (".toList ++ Nat.toDigits 10 a' ++ " array, ".toList ++ Nat.toDigits 10 k' ++
        " reference); watchlist: ".toList ++ s' ++ "; array window ".toList ++ Nat.toDigits 10 w' ++
        " levels/side".toList) : n = n' ∧ a = a' ∧ s = s' ∧ w = w' := by
  have hspace : ∀ u d : Text, u ++ "; array window ".toList ++ d =
      u ++ "; array window".toList ++ ' ' :: d := by
    intros
    simp
  have hdigits : ∀ n, ' ' ∉ Nat.toDigits 10 n := fun n hin =>
    absurd (isDigit_of_mem hin) (by decide)
  have hrow := List.append_cancel_right h
  rw [hspace, hspace] at hrow
  obtain ⟨hrow, hwindow⟩ := cut_last (hdigits w) (hdigits w') hrow
  have hrow := List.append_cancel_right hrow
  simp only [List.append_assoc] at hrow
  obtain ⟨hn, hrow⟩ := commas_front (by simp) (by simp) hrow
  obtain ⟨ha, hrow⟩ := digits_front (by simp) (by simp) (List.append_cancel_left hrow)
  obtain ⟨-, hrow⟩ := digits_front (by simp) (by simp) (List.append_cancel_left hrow)
  exact ⟨hn, ha, List.append_cancel_left hrow, toDigits_inj hwindow⟩

/-- Two counts with texts behind each. -/
theorem ratio_inj {a b a' b' : ℕ} {t u x y : Text} (ht : ∀ z, Ends (t ++ z))
    (hu : ∀ z, Ends (u ++ z))
    (h : commas a ++ t ++ commas b ++ u ++ x = commas a' ++ t ++ commas b' ++ u ++ y) :
    a = a' ∧ b = b' := by
  simp only [List.append_assoc] at h
  obtain ⟨ha, hrest⟩ := commas_front (ht _) (ht _) h
  obtain ⟨hb, -⟩ := commas_front (hu _) (hu _) (List.append_cancel_left hrest)
  exact ⟨ha, hb⟩

theorem sum_inj {n a b n' a' b' : ℕ}
    (h : commas n ++ " (".toList ++ commas a ++ " + ".toList ++ commas b ++ ")".toList =
      commas n' ++ " (".toList ++ commas a' ++ " + ".toList ++ commas b' ++ ")".toList) :
    a = a' ∧ b = b' := by
  have h := List.append_cancel_right h
  simp only [List.append_assoc] at h
  obtain ⟨-, h⟩ := commas_front (by simp) (by simp) h
  obtain ⟨ha, h⟩ := commas_front (by simp) (by simp) (List.append_cancel_left h)
  exact ⟨ha, commas_inj (List.append_cancel_left h)⟩

theorem four_inj {a b c d a' b' c' d' : ℕ}
    (h : Nat.toDigits 10 a ++ slash ++ Nat.toDigits 10 b ++ slash ++ Nat.toDigits 10 c ++ slash ++
        Nat.toDigits 10 d =
      Nat.toDigits 10 a' ++ slash ++ Nat.toDigits 10 b' ++ slash ++ Nat.toDigits 10 c' ++ slash ++
        Nat.toDigits 10 d') : a = a' ∧ b = b' ∧ c = c' ∧ d = d' := by
  have hslash : ∀ z, Stops (slash ++ z) := fun z => by simp [slash]
  simp only [List.append_assoc] at h
  obtain ⟨ha, h⟩ := digits_front (hslash _) (hslash _) h
  obtain ⟨hb, h⟩ := digits_front (hslash _) (hslash _) (List.append_cancel_left h)
  obtain ⟨hc, h⟩ := digits_front (hslash _) (hslash _) (List.append_cancel_left h)
  exact ⟨ha, hb, hc, toDigits_inj (List.append_cancel_left h)⟩

theorem log_inj {b b' : Bool} {n n' : ℕ} {k k' : List UInt8}
    (h : (if b then commas n ++ " records, sha256 `".toList ++ hex k ++ ['`']
        else "not recorded (log_events = false)".toList) =
      if b' then commas n' ++ " records, sha256 `".toList ++ hex k' ++ ['`']
        else "not recorded (log_events = false)".toList) :
    (if b then some (n, k) else none) = if b' then some (n', k') else none := by
  have hfirst : ∀ {n : ℕ} {x y : Text}, commas n ++ x ++ y ++ ['`'] ≠
      "not recorded (log_events = false)".toList := by
    intro n x y heq
    have hlast := congrArg List.getLast? heq
    rw [List.getLast?_concat] at hlast
    exact absurd hlast (by decide)
  cases b <;> cases b'
  · rfl
  · exact absurd h.symm hfirst
  · exact absurd h hfirst
  · have h := List.append_cancel_right h
    simp only [List.append_assoc] at h
    obtain ⟨hcount, hhash⟩ := commas_front (by simp) (by simp) h
    rw [hcount, hex_inj (List.append_cancel_left hhash)]

/-- First and last time, when there are both. -/
def span : Option UInt64 → Option UInt64 → Option (ℕ × ℕ)
  | some a, some b => some (a.toNat, b.toNat)
  | _, _ => none

def spanRow : Option UInt64 → Option UInt64 → String × Text
  | some a, some b =>
    ("time span (ns since midnight)", hms a.toNat ++ " – ".toList ++ hms b.toNat)
  | _, _ => ("time span", "none".toList)

theorem span_inj {a b a' b' : Option UInt64}
    (h : rowLine (spanRow a b) = rowLine (spanRow a' b')) : span a b = span a' b' := by
  have hcases : ∀ a b, (∃ x y, a = some x ∧ b = some y) ∨
      spanRow a b = ("time span", "none".toList) ∧ span a b = none := by
    intro a b
    cases a with
    | none => exact Or.inr ⟨rfl, rfl⟩
    | some x =>
      cases b with
      | none => exact Or.inr ⟨rfl, rfl⟩
      | some y => exact Or.inl ⟨x, y, rfl, rfl⟩
  have hne : ∀ x y, rowLine (spanRow (some x) (some y)) ≠ rowLine ("time span", "none".toList) := by
    intro x y heq
    have hletter := congrArg (fun l : Text => l[12]?) heq
    simp [rowLine, spanRow] at hletter
  rcases hcases a b with ⟨x, y, rfl, rfl⟩ | ⟨hrow, hnone⟩
  · rcases hcases a' b' with ⟨x', y', rfl, rfl⟩ | ⟨hrow', -⟩
    · have hvalue := rowLine_inj h
      rw [List.append_assoc, List.append_assoc] at hvalue
      have hspace : ∀ n, ' ' ∉ hms n := fun n hin => by
        rcases mem_hms hin with hin | hin | hin <;> exact absurd hin (by decide)
      obtain ⟨hfirst, hrest⟩ := cut (hspace _) (hspace _) hvalue
      rw [span, span, hms_inj hfirst, hms_inj (List.append_cancel_left (List.cons.inj
        (List.cons.inj hrest).2).2)]
    · rw [hrow'] at h
      exact absurd h (hne x y)
  · rcases hcases a' b' with ⟨x', y', rfl, rfl⟩ | ⟨-, hnone'⟩
    · rw [hrow] at h
      exact absurd h.symm (hne x' y')
    · rw [hnone, hnone']

/-! The rows of the locates. -/

def locateFigures (st : Stats) (l : ℕ) : LocateFigures :=
  let s := st.locates.getD l .new
  { locate := l
    symbol := sym s.symbol
    msgs := s.msgs
    liveHwm := s.liveHwm
    live := s.live
    state := if s.hState = 0 then '-' else letter s.hState
    array := if s.array then
        some (s.overflowHits, (s.maxAbsOffset, s.maxAbsOffsetReal), s.window.getD (0, 0, 0))
      else none
    closeHash := s.closeHash }

/-- The cells that depend on the book: its kind, overflow hits, offsets and window. -/
def bookCells : Option (ℕ × (ℤ × ℤ) × ℤ × ℕ × ℤ) → Text × Text × Text × Text
  | none => ("reference".toList, "–".toList, "–".toList, "–".toList)
  | some a => ("array".toList, commas a.1, signed a.2.1.1 ++ slash ++ signed a.2.1.2,
      signed a.2.2.1 ++ ", ".toList ++ Nat.toDigits 10 a.2.2.2.1 ++ ", ".toList ++
        signed a.2.2.2.2)

theorem bookCells_none :
    bookCells none = ("reference".toList, "–".toList, "–".toList, "–".toList) := rfl

theorem bookCells_some (a : ℕ × (ℤ × ℤ) × ℤ × ℕ × ℤ) :
    bookCells (some a) = ("array".toList, commas a.1, signed a.2.1.1 ++ slash ++ signed a.2.1.2,
      signed a.2.2.1 ++ ", ".toList ++ Nat.toDigits 10 a.2.2.2.1 ++ ", ".toList ++
        signed a.2.2.2.2) := rfl

/-- A further cell of a row. -/
def cellAt (u x : Text) : Text := u ++ '|' :: (' ' :: (x ++ [' ']))

def locateLine (f : LocateFigures) : Text :=
  let c := bookCells f.array
  let u := "| ".toList ++ (Nat.toDigits 10 f.locate ++ (" | ".toList ++ (f.symbol ++ [' '])))
  let u := cellAt (cellAt (cellAt u c.1) (commas f.msgs))
    (commas f.liveHwm ++ slash ++ commas f.live)
  let u := cellAt (cellAt (cellAt (cellAt u [f.state]) c.2.1) c.2.2.1) c.2.2.2
  cellAt u (['`'] ++ hex f.closeHash ++ ['`']) ++ ['|']

theorem locateRow_eq (st : Stats) (l : ℕ) :
    locateRow st l = locateLine (locateFigures st l) ++ ['\n'] := by
  unfold locateRow locateLine locateFigures
  dsimp only
  cases (st.locates.getD l .new).array <;> simp [bookCells_some, bookCells_none, cellAt]

theorem cell_inj {u v x y : Text} (hx : '|' ∉ x) (hy : '|' ∉ y) (h : cellAt u x = cellAt v y) :
    u = v ∧ x = y := by
  have hcell : ∀ {x : Text}, '|' ∉ x → '|' ∉ ' ' :: (x ++ [' ']) := by simp
  obtain ⟨huv, hcells⟩ := cut_last (hcell hx) (hcell hy) h
  exact ⟨huv, List.append_cancel_right (List.cons.inj hcells).2⟩

theorem bar_digits (n : ℕ) : '|' ∉ Nat.toDigits 10 n := fun h =>
  absurd (isDigit_of_mem h) (by decide)

theorem bar_commas (n : ℕ) : '|' ∉ commas n := not_mem_commas (by decide) (by decide) n

theorem bar_signed (z : ℤ) : '|' ∉ signed z := by
  unfold signed
  split
  · exact fun h => bar_digits _ (List.mem_of_ne_of_mem (by decide) h)
  · exact bar_digits _

theorem bar_hex (k : List UInt8) : '|' ∉ hex k := fun h => absurd (mem_hex h) (by decide)

theorem bar_cells (b : Option (ℕ × (ℤ × ℤ) × ℤ × ℕ × ℤ)) : '|' ∉ (bookCells b).1 ∧
    '|' ∉ (bookCells b).2.1 ∧ '|' ∉ (bookCells b).2.2.1 ∧ '|' ∉ (bookCells b).2.2.2 := by
  cases b with
  | none => decide
  | some a => simp [bookCells_some, bar_commas, bar_signed, bar_digits, slash]

theorem bookCells_inj : Function.Injective bookCells := by
  intro b b' h
  cases b with
  | none =>
    cases b' with
    | none => rfl
    | some a' => exact absurd (Prod.mk.inj h).1 (by decide)
  | some a =>
    cases b' with
    | none => exact absurd (Prod.mk.inj h).1 (by decide)
    | some a' =>
      obtain ⟨-, h⟩ := Prod.mk.inj h
      obtain ⟨hhits, h⟩ := Prod.mk.inj h
      obtain ⟨hoffset, hwindow⟩ := Prod.mk.inj h
      simp only [List.append_assoc] at hoffset hwindow
      obtain ⟨hall, hoffset⟩ := signed_front (by simp [slash]) (by simp [slash]) hoffset
      have hreal := signed_inj (List.append_cancel_left hoffset)
      obtain ⟨hbase, hwindow⟩ := signed_front (by simp) (by simp) hwindow
      obtain ⟨hlevels, hwindow⟩ := digits_front (by simp) (by simp)
        (List.append_cancel_left hwindow)
      have htick := signed_inj (List.append_cancel_left hwindow)
      exact congrArg some (Prod.ext (commas_inj hhits) (Prod.ext (Prod.ext hall hreal)
        (Prod.ext hbase (Prod.ext hlevels htick))))

theorem locateLine_inj : Function.Injective locateLine := by
  intro f f' h
  have hcount : ∀ f : LocateFigures, '|' ∉ commas f.liveHwm ++ slash ++ commas f.live := by
    intro f
    simp [bar_commas, slash]
  have hash : ∀ f : LocateFigures, '|' ∉ ['`'] ++ hex f.closeHash ++ ['`'] := by
    intro f
    simp [bar_hex]
  have hcells := fun f : LocateFigures => bar_cells f.array
  obtain ⟨h, hhash⟩ := cell_inj (hash f) (hash f') (List.append_cancel_right h)
  obtain ⟨h, hwindow⟩ := cell_inj (hcells f).2.2.2 (hcells f').2.2.2 h
  obtain ⟨h, hoffset⟩ := cell_inj (hcells f).2.2.1 (hcells f').2.2.1 h
  obtain ⟨h, hhits⟩ := cell_inj (hcells f).2.1 (hcells f').2.1 h
  obtain ⟨h, hstate⟩ := List.append_inj' h rfl
  obtain ⟨h, hlive⟩ := cell_inj (hcount f) (hcount f') h
  obtain ⟨h, hmsgs⟩ := cell_inj (bar_commas _) (bar_commas _) h
  obtain ⟨h, hkind⟩ := cell_inj (hcells f).1 (hcells f').1 h
  obtain ⟨hlocate, h⟩ := digits_front (by simp) (by simp) (List.append_cancel_left h)
  have hsymbol := List.append_cancel_right (List.append_cancel_left h)
  have harray := bookCells_inj (Prod.ext hkind (Prod.ext hhits (Prod.ext hoffset hwindow)))
  obtain ⟨hhwm, hlive⟩ := pair_inj hlive
  have hhash := hex_inj (List.append_cancel_left (List.append_cancel_right hhash))
  cases f
  cases f'
  rw [LocateFigures.mk.injEq]
  exact ⟨hlocate, hsymbol, commas_inj hmsgs, hhwm, hlive, by simpa using hstate, harray, hhash⟩

end Lobcore.ReportFigures
