import Lobcore.ReadmeChecks
import Lobcore.ReportFigures

/-!
What a check of a README says. The lines a check compares are the lines of the report, and these
hold every figure of it, so a README that passes the check against a replay was written from a
replay with the same figures. The rows with timings are not compared.
-/
namespace Lobcore.CertifiedReports

open Checked Payloads SessionStats Sessions TextMarks ReadmeBlocks ReadmeChecks
open TypeHours FigureTexts
open StatsReports ReportBlocks ReportFigures

/-! The figures. -/

def figures (r : Report) : Figures :=
  let st := r.stats
  { source := st.source.toList
    messages := st.messages
    truncated := st.truncated
    sourceCut := st.sourceCut
    bytesIn := st.bytesIn
    trailingBytes := st.trailingBytes
    unknownType := st.unknownType
    byType := (typesPresent st).map fun t => (t, count st t)
    span := span st.firstTs st.lastTs
    events := st.sEvents.map fun e => (e.1, e.2.toNat)
    books := (locatesWithBook st).length
    arrays := ((locatesWithBook st).filter fun p => p.2.array).length
    watchlist := r.watchlist
    arrayWindow := st.arrayWindow
    noDirectory := st.noDirectory
    placeholderAdds := st.placeholderAdds
    adds := adds st
    liveHwm := st.liveHwm
    live := st.live
    crossedBeforeQ := st.crossedBeforeQ
    crossedAfterQ := st.crossedAfterQ
    crossedAfterQTrading := st.crossedAfterQTrading
    unknownId := st.unknownId
    overExecute := st.overExecute
    overCancel := st.overCancel
    duplicateId := st.duplicateId
    badQty := st.badQty
    badPrice := st.badPrice
    badSide := st.badSide
    ecAtHead := st.ecAtHead
    ecTotal := st.ecTotal
    log := if st.eventLogged then some (st.eventCount, st.eventLogHash) else none
    allLocatesHash := st.allLocatesHash
    table := typeHour st
    locates := (listedLocates st).map (locateFigures st) }

/-! The lines. -/

def locateLines (st : Stats) : List Text :=
  if listedLocates st = [] then [noLocates]
  else locatesHead :: locatesRule ::
    (listedLocates st).map fun l => locateLine (locateFigures st l)

def reportLines (fl : FloatTexts) (r : Report) : List Text :=
  "| replay | value |".toList :: "|---|---|".toList :: ((summary fl r).map rowLine ++
    (tableLines (typeHour r.stats) ++ locateLines r.stats))

section Figures

variable {fl : FloatTexts} {r r' : Report}

theorem length_summary : (summary fl r).length = 20 := rfl

theorem locates_inj {st st' : Stats} (h : locateLines st = locateLines st') :
    (listedLocates st).map (locateFigures st) = (listedLocates st').map (locateFigures st') := by
  unfold locateLines at h
  split at h <;> split at h
  · rename_i hnil hnil'
    rw [hnil, hnil']
    rfl
  · cases (List.cons.inj h).2
  · cases (List.cons.inj h).2
  · refine locateLine_inj.list_map ?_
    rw [List.map_map, List.map_map]
    exact (List.cons.inj (List.cons.inj h).2).2

theorem figures_of_lines (h : reportLines fl r = reportLines fl r') : figures r = figures r' := by
  obtain ⟨-, h⟩ := List.cons.inj h
  obtain ⟨-, h⟩ := List.cons.inj h
  obtain ⟨hrows, h⟩ := List.append_inj h (by
    rw [List.length_map, List.length_map, length_summary, length_summary])
  obtain ⟨h₁, hrows⟩ := List.cons.inj hrows
  obtain ⟨h₂, hrows⟩ := List.cons.inj hrows
  obtain ⟨h₃, hrows⟩ := List.cons.inj hrows
  obtain ⟨h₄, hrows⟩ := List.cons.inj hrows
  obtain ⟨h₅, hrows⟩ := List.cons.inj hrows
  obtain ⟨h₆, hrows⟩ := List.cons.inj hrows
  obtain ⟨h₇, hrows⟩ := List.cons.inj hrows
  obtain ⟨h₈, hrows⟩ := List.cons.inj hrows
  obtain ⟨h₉, hrows⟩ := List.cons.inj hrows
  obtain ⟨h₁₀, hrows⟩ := List.cons.inj hrows
  obtain ⟨h₁₁, hrows⟩ := List.cons.inj hrows
  obtain ⟨h₁₂, hrows⟩ := List.cons.inj hrows
  obtain ⟨h₁₃, hrows⟩ := List.cons.inj hrows
  obtain ⟨h₁₄, hrows⟩ := List.cons.inj hrows
  obtain ⟨h₁₅, hrows⟩ := List.cons.inj hrows
  obtain ⟨h₁₆, hrows⟩ := List.cons.inj hrows
  obtain ⟨h₁₇, hrows⟩ := List.cons.inj hrows
  obtain ⟨h₁₈, hrows⟩ := List.cons.inj hrows
  obtain ⟨h₁₉, hrows⟩ := List.cons.inj hrows
  obtain ⟨h₂₀, -⟩ := List.cons.inj hrows
  have hsource := ticked_inj (rowLine_inj h₁)
  have hmessages := commas_inj (rowLine_inj h₂)
  have htruncated := truncated_inj (by simp) (by simp) (rowLine_inj h₃)
  have hbytes := trailing_inj (rowLine_inj h₄)
  have hunknown := commas_inj (rowLine_inj h₅)
  have htypes := histogram_inj (rowLine_inj h₆)
  have hspan := span_inj h₇
  have hevents := events_inj (rowLine_inj h₈)
  have hbooks := books_inj (rowLine_inj h₉)
  have hdirectory := commas_inj (rowLine_inj h₁₀)
  have hplaceholder := ratio_inj (by simp) (by simp) (List.append_cancel_right (rowLine_inj h₁₁))
  have hlive := pair_inj (rowLine_inj h₁₂)
  have hbefore := commas_inj (rowLine_inj h₁₃)
  have hafter := pair_inj (rowLine_inj h₁₄)
  have hid := commas_inj (rowLine_inj h₁₅)
  have hover := sum_inj (rowLine_inj h₁₆)
  have hbad := four_inj (rowLine_inj h₁₇)
  have hhead := ratio_inj (by simp [slash]) (by simp) (rowLine_inj h₁₈)
  have hlog := log_inj (rowLine_inj h₁₉)
  have hhash := hex_inj (ticked_inj (rowLine_inj h₂₀))
  have hlength : (typesPresent r.stats).length = (typesPresent r'.stats).length := by
    simpa using congrArg List.length htypes
  obtain ⟨htable, hlocates⟩ := table_inj (by
    show ((typesPresent r.stats).map _).length = ((typesPresent r'.stats).map _).length
    rw [List.length_map, List.length_map, hlength]) h
  unfold figures
  rw [Figures.mk.injEq]
  exact ⟨hsource, hmessages, htruncated.1, htruncated.2, hbytes.1, hbytes.2, hunknown, htypes,
    hspan, hevents, hbooks.1, hbooks.2.1, hbooks.2.2.1, hbooks.2.2.2, hdirectory, hplaceholder.1,
    hplaceholder.2, hlive.1, hlive.2, hbefore, hafter.1, hafter.2, hid, hover.1, hover.2, hbad.1,
    hbad.2.1, hbad.2.2.1, hbad.2.2.2, hhead.1, hhead.2, hlog, hhash, htable, locates_inj hlocates⟩

theorem locateLines_eq (st : Stats) : locateLines st =
    if (listedLocates st).map (locateFigures st) = [] then [noLocates]
    else locatesHead :: locatesRule ::
        ((listedLocates st).map (locateFigures st)).map locateLine := by
  rw [locateLines, List.map_map]
  simp only [List.map_eq_nil_iff]
  rfl

theorem histogram_eq (st : Stats) : typeHistogramLine st = join " · ".toList
    (((typesPresent st).map fun t => (t, count st t)).map fun p =>
      typeLabel p.1 ++ ' ' :: commas p.2) := by
  rw [typeHistogramLine, List.map_map]
  rfl

theorem events_eq (st : Stats) : st.sEvents.map eventText =
    (st.sEvents.map fun e => (e.1, e.2.toNat)).map fun p => letter p.1 :: '@' :: hms p.2 := by
  rw [List.map_map]
  rfl

theorem spanRow_eq (a b : Option UInt64) : spanRow a b = match span a b with
    | some p => ("time span (ns since midnight)", hms p.1 ++ " – ".toList ++ hms p.2)
    | none => ("time span", "none".toList) := by
  cases a <;> cases b <;> rfl

theorem lines_of_figures (h : figures r = figures r') : reportLines fl r = reportLines fl r' := by
  simp only [figures, Figures.mk.injEq] at h
  obtain ⟨hsource, hmessages, htruncated, hcut, hbytes, htrailing, hunknown, htypes, hspan, hevents,
    hbooks, harrays, hwatchlist, hwindow, hdirectory, hplaceholder, hadds, hhwm, hlive, hbefore,
    hafter, htrading, hid, hexecute, hcancel, hduplicate, hqty, hprice, hside, hhead, htotal, hlog,
    hhash, htable, hlocates⟩ := h
  have hhistogram : typeHistogramLine r.stats = typeHistogramLine r'.stats := by
    rw [histogram_eq, histogram_eq, htypes]
  have hsystem : systemEvents r.stats = systemEvents r'.stats := by
    have htexts : r.stats.sEvents.map eventText = r'.stats.sEvents.map eventText := by
      rw [events_eq, events_eq, hevents]
    have hshape : ∀ st : Stats, systemEvents st = if join [' '] (st.sEvents.map eventText) = [] then
        "none".toList else join [' '] (st.sEvents.map eventText) := fun _ => rfl
    rw [hshape, hshape, htexts]
  have hspanRow : spanRow r.stats.firstTs r.stats.lastTs =
      spanRow r'.stats.firstTs r'.stats.lastTs := by
    rw [spanRow_eq, spanRow_eq, hspan]
  have hnegative : negativeQty r.stats = negativeQty r'.stats := by
    rw [negativeQty, negativeQty, hexecute, hcancel]
  have hsummary : summary fl r = summary fl r' := by
    simp only [summary, hsource, hmessages, htruncated, hcut, hbytes, htrailing, hunknown,
      hhistogram, hsystem, hbooks, harrays, hwatchlist, hwindow, hdirectory, hplaceholder, hadds,
      hhwm, hlive, hbefore, hafter, htrading, hid, hexecute, hcancel, hnegative, hduplicate, hqty,
      hprice, hside, hhead, htotal, hhash, List.cons.injEq, true_and, and_true]
    refine ⟨hspanRow, congrArg (Prod.mk _) ?_⟩
    revert hlog
    generalize r.stats.eventLogged = logged, r'.stats.eventLogged = logged'
    intro hlog
    cases logged <;> cases logged'
    · rfl
    · cases hlog
    · cases hlog
    · obtain ⟨hcount, hhash⟩ := Prod.mk.inj (Option.some.inj hlog)
      rw [hcount, hhash]
  rw [reportLines, reportLines, hsummary, htable, locateLines_eq, locateLines_eq, hlocates]

end Figures

/-! What a check keeps of the lines. -/

/-- A line that a check keeps as it is. -/
structure Line (l : Text) : Prop where
  one : '\n' ∉ l
  last : ∃ u c, l = u ++ [c] ∧ isWhitespace c = false
  calm : isVolatile l = false
  apart : l ≠ endLine

theorem kept_blank (v : Text) : kept ('\n' :: v) = kept v := by
  have hblank : kept ([] ++ ['\n']) = [] := by decide
  have h := kept_newline [] v
  rwa [hblank, List.nil_append, List.nil_append] at h

theorem Line.kept {l : Text} (h : Line l) (v : Text) :
    ReadmeBlocks.kept (l ++ '\n' :: v) = l :: ReadmeBlocks.kept v := by
  obtain ⟨u, c, rfl, hc⟩ := h.last
  have htrim : trimEnd (u ++ [c] ++ ['\n']) = u ++ [c] := by
    rw [trimEnd_space _ (by decide), trimEnd,
      List.rdropWhile_concat_neg isWhitespace _ _ (by simp [hc])]
  have hsplit : splitInclusive (u ++ [c] ++ ['\n']) = [u ++ [c] ++ ['\n']] := by
    rw [splitInclusive_word (by simp) h.one]
    rfl
  rw [kept_newline, kept_eq (u ++ [c] ++ ['\n']), hsplit, List.map_singleton, htrim,
    List.filter_cons_of_pos (by simp [h.calm]), List.filter_nil, List.singleton_append]

theorem kept_ended {ls : List Text} (h : ∀ l ∈ ls, Line l) (v : Text) :
    kept (ended ls ++ v) = ls ++ kept v := by
  induction ls with
  | nil => rfl
  | cons l ls ih =>
    have hshape : ended (l :: ls) ++ v = l ++ '\n' :: (ended ls ++ v) := by simp [ended]
    rw [hshape, (h l (List.mem_cons_self ..)).kept,
      ih fun k hk => h k (List.mem_cons_of_mem _ hk), List.cons_append]

/-- All names in a report are on one line. -/
structure OneLine (r : Report) : Prop where
  source : '\n' ∉ r.stats.source.toList
  watchlist : '\n' ∉ r.watchlist
  events : ∀ e ∈ r.stats.sEvents, letter e.1 ≠ '\n'
  symbols : ∀ l ∈ listedLocates r.stats, '\n' ∉ (locateFigures r.stats l).symbol
  states : ∀ l ∈ listedLocates r.stats, (locateFigures r.stats l).state ≠ '\n'

section Lines

variable {fl : FloatTexts} {r : Report}

/-- A text with a bar at its end. -/
def Barred (l : Text) : Prop := ∃ u, l = u ++ ['|']

theorem Barred.append {v : Text} (h : Barred v) (u : Text) : Barred (u ++ v) := by
  obtain ⟨w, rfl⟩ := h
  exact ⟨u ++ w, (List.append_assoc ..).symm⟩

theorem barred_entry (s : Text) : Barred (entry s) := ⟨[' '] ++ s ++ [' '], by simp [entry]⟩

theorem Barred.line {l : Text} (h : Barred l) (hone : '\n' ∉ l) (hcalm : isVolatile l = false) :
    Line l := by
  obtain ⟨u, rfl⟩ := h
  refine ⟨hone, ⟨u, '|', rfl, by decide⟩, hcalm, fun heq => ?_⟩
  have hlast := congrArg List.getLast? heq
  rw [List.getLast?_concat] at hlast
  exact absurd hlast (by decide)

theorem calm_of_ne {c d : Char} {s : Text} (h : c ≠ 'm' ∨ d ≠ 's') :
    isVolatile ('|' :: ' ' :: c :: d :: s) = false := by
  rw [Bool.eq_false_iff]
  intro hvolatile
  have hrest := List.isPrefixOf_iff_prefix.mp hvolatile
  obtain ⟨-, hrest⟩ := List.cons_prefix_cons.mp hrest
  obtain ⟨-, hrest⟩ := List.cons_prefix_cons.mp hrest
  obtain ⟨hc, hrest⟩ := List.cons_prefix_cons.mp hrest
  obtain ⟨hd, -⟩ := List.cons_prefix_cons.mp hrest
  rcases h with h | h
  · exact h hc.symm
  · exact h hd.symm

theorem barred_row (p : String × Text) : Barred (rowLine p) := by
  have hbar : Barred " |".toList := ⟨[' '], rfl⟩
  exact (((hbar.append p.2).append " | ".toList).append p.1.toList).append ['|', ' ']

theorem line_events (hr : OneLine r) : '\n' ∉ systemEvents r.stats := by
  unfold systemEvents
  dsimp only
  split
  · decide
  · refine not_mem_join (by decide) fun q hq => ?_
    obtain ⟨e, he, rfl⟩ := List.mem_map.mp hq
    simp [(hr.events e he).symm, (plain_hms _).2]

theorem line_row (hfl : PlainFloats fl) (hr : OneLine r) {p : String × Text}
    (hp : p ∈ summary fl r) : Line (rowLine p) := by
  have hlabels : ∀ l ∈ labels, '\n' ∉ l.toList ∧ 2 ≤ l.toList.length ∧
      l.toList.take 2 ≠ ['m', 's'] := by decide +kernel
  obtain ⟨hlabel, hlen, hcalm⟩ := hlabels _ (label_mem hp)
  have hvalue : '\n' ∉ p.2 := by
    rcases summary_cases hfl hp with h | rfl | rfl | rfl | ⟨a, b, ha, hb, rfl⟩
    · exact h.2
    · simpa using hr.source
    · refine not_mem_join (by decide) fun q hq => ?_
      obtain ⟨t, -, rfl⟩ := List.mem_map.mp hq
      simp [not_mem_typeLabel, (plain_commas _).2]
    · exact line_events hr
    · simp [ha.2, hb.2, hr.watchlist]
  refine (barred_row p).line ?_ ?_
  · simp [rowLine, hlabel, hvalue]
  · show isVolatile ('|' :: ' ' :: _) = false
    generalize p.1.toList = label at hlen hcalm ⊢
    obtain - | ⟨c, - | ⟨d, s⟩⟩ := label
    · cases hlen
    · exact absurd hlen (by simp)
    refine calm_of_ne ?_
    by_contra h
    rw [not_or, not_not, not_not] at h
    exact hcalm (by simp [h.1, h.2])

theorem line_fixed {l : Text} (h : '\n' ∉ l ∧ l.getLast?.any (fun c => !isWhitespace c) = true ∧
    isVolatile l = false ∧ l ≠ endLine) : Line l := by
  obtain ⟨hone, hlast, hcalm, hapart⟩ := h
  obtain ⟨c, hc, hspace⟩ := Option.any_eq_true _ _ |>.mp hlast
  rw [Bool.not_eq_true'] at hspace
  obtain ⟨u, rfl⟩ := List.getLast?_eq_some_iff.mp hc
  exact ⟨hone, ⟨u, c, rfl, hspace⟩, hcalm, hapart⟩

theorem line_hours (xs : List ℕ) : Line (hoursLine xs) := by
  have hhead : Plain "| type \\ hour |".toList := by decide
  have htail : Plain " total |".toList := by decide
  have hbarred : Barred " total |".toList := ⟨" total ".toList, by decide⟩
  exact (hbarred.append _).line
    (plain_append.mpr ⟨plain_append.mpr ⟨hhead, plain_entries plain_hour xs⟩, htail⟩).2
    (calm_of_ne (Or.inl (by decide)))

theorem line_rule (xs : List ℕ) : Line (ruleLine xs) := by
  have hbarred : Barred "---:|".toList := ⟨"---:".toList, by decide⟩
  have hmem : ∀ c ∈ xs.flatMap (fun _ => "---:|".toList), c ∈ "---:|".toList := by
    intro c hc
    obtain ⟨-, -, hc⟩ := List.mem_flatMap.mp hc
    exact hc
  refine (hbarred.append _).line (fun hin => ?_) rfl
  rcases List.mem_append.mp hin with hin | hin
  · rcases List.mem_append.mp hin with hin | hin
    · exact absurd hin (by decide)
    · exact absurd (hmem _ hin) (by decide)
  · exact absurd hin (by decide)

theorem line_type (t : TypeHours.Row) : Line (typeLine t) := by
  have hcells := (plain_entries plain_commas t.cells).2
  have htotal := (plain_entry (plain_commas t.total)).2
  have hbarred := (barred_entry (commas t.total)).append ("| ".toList ++ (typeLabel t.ty ++
    " |".toList ++ t.cells.flatMap fun c => entry (commas c)))
  refine Barred.line ?_ ?_ ?_
  · simpa [typeLine] using hbarred
  · simp [typeLine, not_mem_typeLabel, hcells, htotal]
  · unfold typeLine typeLabel
    split
    · exact calm_of_ne (Or.inr (by decide))
    · exact calm_of_ne (Or.inl (by decide))

theorem line_total (t : TypeHour) : Line (totalLine t) := by
  have hhead : Plain "| total |".toList := by decide
  exact (((barred_entry _).append _).append _).line
    (plain_append.mpr ⟨hhead, plain_append.mpr ⟨plain_entries plain_commas _,
      plain_entry (plain_commas _)⟩⟩).2 (calm_of_ne (Or.inl (by decide)))

theorem line_table (t : TypeHour) : ∀ l ∈ tableLines t, Line l := by
  intro l hl
  rcases List.mem_cons.mp hl with rfl | hl
  · exact line_hours t.hours
  rcases List.mem_cons.mp hl with rfl | hl
  · exact line_rule t.hours
  rcases List.mem_append.mp hl with hl | hl
  · obtain ⟨row, -, rfl⟩ := List.mem_map.mp hl
    exact line_type row
  · rw [List.mem_singleton.mp hl]
    exact line_total t

theorem plain_cells (b : Option (ℕ × (ℤ × ℤ) × ℤ × ℕ × ℤ)) : Plain (bookCells b).1 ∧
    Plain (bookCells b).2.1 ∧ Plain (bookCells b).2.2.1 ∧ Plain (bookCells b).2.2.2 := by
  cases b with
  | none => decide
  | some a => simp [bookCells_some]

theorem line_locate {f : LocateFigures} (hsymbol : '\n' ∉ f.symbol) (hstate : f.state ≠ '\n') :
    Line (locateLine f) := by
  have hcell : ∀ {u x : Text}, '\n' ∉ u → '\n' ∉ x → '\n' ∉ cellAt u x := by
    intro u x hu hx
    simp [cellAt, hu, hx]
  obtain ⟨hkind, hhits, hoffset, hwindow⟩ := plain_cells f.array
  have hfront : '\n' ∉ "| ".toList ++ (Nat.toDigits 10 f.locate ++ (" | ".toList ++
      (f.symbol ++ [' ']))) := by
    simp [(plain_digits _).2, hsymbol]
  have hcounts := hcell (hcell (hcell hfront hkind.2) (plain_commas f.msgs).2)
    (plain_append.mpr ⟨plain_append.mpr ⟨plain_commas f.liveHwm, plain_slash⟩,
      plain_commas f.live⟩).2
  have hbook := hcell (hcell (hcell (hcell hcounts (x := [f.state]) (by simpa using hstate.symm))
    hhits.2) hoffset.2) hwindow.2
  have hhash : '\n' ∉ ['`'] ++ hex f.closeHash ++ ['`'] := by simp [(plain_hex _).2]
  refine Barred.line ⟨_, rfl⟩ ?_ ?_
  · have hall := hcell hbook hhash
    simpa [locateLine] using hall
  · obtain ⟨d, ds, hdigits⟩ := List.exists_cons_of_ne_nil
      (Nat.toDigits_ne_nil (b := 10) (n := f.locate))
    have hd : d ≠ 'm' := by
      rintro rfl
      exact absurd (isDigit_of_mem (n := f.locate) (hdigits ▸ List.mem_cons_self ..)) (by decide)
    unfold locateLine
    rw [hdigits]
    cases ds <;> exact calm_of_ne (Or.inl hd)

theorem line_locates (hr : OneLine r) : ∀ l ∈ locateLines r.stats, Line l := by
  intro l hl
  unfold locateLines at hl
  split at hl
  · rw [List.mem_singleton.mp hl]
    exact line_fixed (by decide +kernel)
  · rcases List.mem_cons.mp hl with hl | hl
    · rw [hl]
      exact line_fixed (by decide +kernel)
    rcases List.mem_cons.mp hl with hl | hl
    · rw [hl]
      exact line_fixed (by decide +kernel)
    obtain ⟨k, hk, rfl⟩ := List.mem_map.mp hl
    exact line_locate (hr.symbols k hk) (hr.states k hk)

theorem ended_cons (l : Text) (ls : List Text) : ended (l :: ls) = l ++ '\n' :: ended ls := by
  simp [ended]

theorem rows_eq (ps : List (String × Text)) : rows ps = ended (ps.map rowLine) := by
  simp [rows, ended, row_eq, List.flatMap_map]

theorem renderLocates_eq (st : Stats) : renderLocates st = ended (locateLines st) := by
  unfold renderLocates locateLines
  dsimp only
  split
  · simp only [ended, List.flatMap_singleton]
  · rw [funext (locateRow_eq st)]
    simp [ended, List.flatMap_map]

/-- The rows that are not compared. -/
def timingLines (fl : FloatTexts) (r : Report) (timing : Bool) : List Text :=
  if timing then (timingRows fl r).map rowLine else []

theorem inner_eq (timing : Bool) :
    inner fl r timing = '\n' :: (ended ("| replay | value |".toList ::
    "|---|---|".toList :: (summary fl r).map rowLine) ++ (ended (timingLines fl r timing) ++ '\n' ::
      (ended (tableLines (typeHour r.stats)) ++ '\n' :: ended (locateLines r.stats)))) := by
  have hhead : "| replay | value |\n".toList = "| replay | value |".toList ++ ['\n'] := by decide
  have hrule : "|---|---|\n".toList = "|---|---|".toList ++ ['\n'] := by decide
  have htimings : (if timing then rows (timingRows fl r) else []) =
      ended (timingLines fl r timing) := by
    cases timing
    · rfl
    · exact rows_eq _
  unfold ReportBlocks.inner
  rw [hhead, hrule, htimings, rows_eq, renderTypeHour_eq, renderLocates_eq, ended_cons, ended_cons]
  simp only [List.append_assoc, List.cons_append, List.nil_append]

theorem kept_volatile {l : Text} (hl : Barred l) (hone : '\n' ∉ l) (hvolatile : isVolatile l = true)
    (v : Text) : kept (l ++ '\n' :: v) = kept v := by
  obtain ⟨u, rfl⟩ := hl
  have htrim : trimEnd (u ++ ['|'] ++ ['\n']) = u ++ ['|'] := by
    rw [trimEnd_space _ (by decide), trimEnd,
      List.rdropWhile_concat_neg isWhitespace _ _ (by decide)]
  have hsplit : splitInclusive (u ++ ['|'] ++ ['\n']) = [u ++ ['|'] ++ ['\n']] := by
    rw [splitInclusive_word (by simp) hone]
    rfl
  rw [kept_newline, kept_eq (u ++ ['|'] ++ ['\n']), hsplit, List.map_singleton, htrim,
    List.filter_cons_of_neg (by simp [hvolatile]), List.filter_nil, List.nil_append]

theorem timing_row (hfl : PlainFloats fl) {p : String × Text} (hp : p ∈ timingRows fl r) :
    '\n' ∉ rowLine p ∧ isVolatile (rowLine p) = true := by
  have hrow : ∀ {log rest : String} {value : Text}, '\n' ∉ log.toList → '\n' ∉ rest.toList →
      '\n' ∉ value → '\n' ∉ rowLine ("msgs/s parse+apply" ++ log ++ rest, value) ∧
        isVolatile (rowLine ("msgs/s parse+apply" ++ log ++ rest, value)) = true := by
    intro log rest value hlog hrest hvalue
    simp [rowLine, isVolatile, hlog, hrest, hvalue]
  have hlog : '\n' ∉ (if r.stats.eventLogged then " + event-log sha256" else "").toList := by
    split <;> decide
  unfold timingRows at hp
  split at hp
  · cases hp
  · dsimp only at hp
    rcases List.mem_cons.mp hp with rfl | hp
    · refine hrow hlog (by decide) ?_
      simp [(hfl.rate _ _).2, (hfl.millis _).2]
    · rw [List.mem_singleton.mp hp]
      refine hrow hlog (by decide) ?_
      simp [(hfl.rate _ _).2, (hfl.millis _).2]

theorem kept_timings (hfl : PlainFloats fl) (timing : Bool) (v : Text) :
    kept (ended (timingLines fl r timing) ++ v) = kept v := by
  have hlines : ∀ ls : List Text, (∀ l ∈ ls, Barred l ∧ '\n' ∉ l ∧ isVolatile l = true) →
      kept (ended ls ++ v) = kept v := by
    intro ls hls
    induction ls with
    | nil => rfl
    | cons l ls ih =>
      obtain ⟨hl, hone, hvolatile⟩ := hls l (List.mem_cons_self ..)
      rw [ended_cons, List.append_assoc, List.cons_append, kept_volatile hl hone hvolatile,
        ih fun k hk => hls k (List.mem_cons_of_mem _ hk)]
  refine hlines _ fun l hl => ?_
  unfold timingLines at hl
  split at hl
  · obtain ⟨p, hp, rfl⟩ := List.mem_map.mp hl
    exact ⟨barred_row p, timing_row hfl hp⟩
  · cases hl

theorem line_first (hfl : PlainFloats fl) (hr : OneLine r) :
    ∀ l ∈ "| replay | value |".toList :: "|---|---|".toList :: (summary fl r).map rowLine,
    Line l := by
  intro l hl
  rcases List.mem_cons.mp hl with hl | hl
  · rw [hl]
    exact line_fixed (by decide +kernel)
  rcases List.mem_cons.mp hl with hl | hl
  · rw [hl]
    exact line_fixed (by decide +kernel)
  obtain ⟨p, hp, rfl⟩ := List.mem_map.mp hl
  exact line_row hfl hr hp

/-- A check compares the lines of the report. -/
theorem kept_inner (hfl : PlainFloats fl) (hr : OneLine r) (timing : Bool) :
    kept (inner fl r timing) = reportLines fl r := by
  have hlast := kept_ended (line_locates hr) []
  have hnil : kept [] = [] := rfl
  rw [List.append_nil, hnil, List.append_nil] at hlast
  rw [inner_eq, kept_blank, kept_ended (line_first hfl hr), kept_timings hfl, kept_blank,
    kept_ended (line_table _), kept_blank, hlast]
  rfl

theorem end_not_mem (hfl : PlainFloats fl) (hr : OneLine r) : endLine ∉ reportLines fl r := by
  have hlines : ∀ l ∈ reportLines fl r, Line l := by
    intro l hl
    have hsplit : reportLines fl r = ("| replay | value |".toList :: "|---|---|".toList ::
        (summary fl r).map rowLine) ++ (tableLines (typeHour r.stats) ++ locateLines r.stats) := rfl
    rw [hsplit] at hl
    rcases List.mem_append.mp hl with hl | hl
    · exact line_first hfl hr l hl
    rcases List.mem_append.mp hl with hl | hl
    · exact line_table _ l hl
    · exact line_locates hr l hl
  exact fun hin => (hlines _ hin).apart rfl

end Lines

/-! The check. -/

/-- A report whose names fit their places: symbols of eight bytes, all on one line, and an input
whose name has no mark in it. -/
structure Fits (r : Report) : Prop where
  sized : Sized r
  oneLine : OneLine r
  begins : Free beginMark r.stats.source.toList
  ends : Free endMark r.stats.source.toList

section Check

variable {fl : FloatTexts} {r r' : Report} {text : Text} {timing timing' : Bool}

theorem lines_of_report (hfl : PlainFloats fl) (hr : Fits r) :
    deterministicLines (renderWith fl r timing) = some (reportLines fl r) := by
  rw [renderWith_eq, deterministicLines_rendered (free_inner hfl hr.sized hr.begins hr.ends).2,
    kept_inner hfl hr.oneLine]

/-- A README with a report in it passes a check against another one exactly when both have the
same figures, however long the replays took. -/
theorem passes_iff_same_figures (hfl : PlainFloats fl) (hr : Fits r) (hr' : Fits r')
    (htext : Closed text) :
    ReadmeChecks.compare (spliceBlock text (renderWith fl r timing)) (renderWith fl r' timing') =
      .ok .same ↔
      figures r = figures r' := by
  have hheld : deterministicLines (spliceBlock text (renderWith fl r timing)) =
      some (reportLines fl r) := by
    have hfree : Free endMark (inner fl r timing) := (free_inner hfl hr.sized hr.begins hr.ends).2
    have hround := (settled_of_closed (n := 1) hfree htext).1
    rw [RoundTrips, ← renderWith_eq, lines_of_report hfl hr] at hround
    exact hround
  have hrun : ReadmeChecks.compare (spliceBlock text (renderWith fl r timing))
      (renderWith fl r' timing') =
      .ok (compareFrom (reportLines fl r) (reportLines fl r')
        (List.range (max (reportLines fl r).length (reportLines fl r').length))) := by
    simp only [ReadmeChecks.compare, hheld, lines_of_report hfl hr', expect_some,
      ok_bind, pure_eq_ok]
  have hend : ∀ ls {ks : List Text}, endLine ∉ ks → ¬ ls ++ [endLine] <+: ks := fun _ _ hout hpre =>
    hout (hpre.subset (List.mem_append_right _ (List.mem_singleton_self _)))
  have htells := tells_of_apart (hend (reportLines fl r) (end_not_mem hfl hr'.oneLine))
    (hend (reportLines fl r') (end_not_mem hfl hr.oneLine))
  rw [hrun, Except.ok.injEq, htells.1]
  exact ⟨figures_of_lines, lines_of_figures⟩

end Check

theorem fits_smallReport (live : ℕ) : Fits (smallReport live) where
  sized := sized_smallReport live
  oneLine := {
    source := by
      show '\n' ∉ "day.itch".toList
      decide
    watchlist := by
      show '\n' ∉ "none".toList
      decide
    events := nofun
    symbols := nofun
    states := nofun }
  begins := by
    show ¬ beginMark <:+: "day.itch".toList
    decide
  ends := by
    show ¬ endMark <:+: "day.itch".toList
    decide

theorem passes_iff_same_figures_small :
    ReadmeChecks.compare
    (spliceBlock "# Replay".toList (renderWith smallTexts (smallReport 3) true))
        (renderWith smallTexts (smallReport 2) false) = .ok .same ↔
      figures (smallReport 3) = figures (smallReport 2) :=
  passes_iff_same_figures plain_smallTexts (fits_smallReport 3) (fits_smallReport 2)
    (Or.inl (by
      show ¬ beginMark <:+: "# Replay".toList
      decide))

end Lobcore.CertifiedReports
