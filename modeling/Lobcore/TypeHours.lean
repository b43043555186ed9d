import Lobcore.Histograms
import Lobcore.LocateIsolation
import Lobcore.ReadmeBlocks
import Mathlib.Data.List.GetD

/-!
The table of messages by type and hour (`stats.rs`). The types and the hours that occur give the
rows and the columns. A row ends with the count of its type, which takes in messages without a
timestamp; the cells and the totals below them come from the timestamps alone.
-/
namespace Lobcore.TypeHours

open Checked OrderTypes Payloads SessionStats Sessions Replays Handlers Desks DeskSteps Histograms
open ReadmeBlocks SessionRuns

/-- Types in table order. -/
def typeOrder : List UInt8 :=
  "SRHYLVWKJhAFECXDUPQBINO".toList.map fun c => .ofNat c.toNat

/-- Every type byte. -/
def allTypes : List UInt8 := (List.range 256).map .ofNat

section Table

variable (st : Stats)

def count (t : UInt8) : ℕ := st.byType.getD t.toNat 0

def cell (t : UInt8) (h : ℕ) : ℕ := (st.byTypeHour.getD t.toNat []).getD h 0

/-- Hours with at least one message. -/
def hoursPresent : List ℕ :=
  (List.range 24).filter fun h => st.byTypeHour.any fun row => 0 < row.getD h 0

/-- Types with at least one message: the table order first, then any unknown bytes. -/
def typesPresent : List UInt8 :=
  typeOrder.filter (fun t => 0 < count st t) ++
    allTypes.filter fun t => 0 < count st t ∧ t ∉ typeOrder

end Table

structure Row where
  ty : UInt8
  cells : List ℕ
  total : ℕ
  deriving DecidableEq, Repr

structure TypeHour where
  hours : List ℕ
  rows : List Row
  totals : List ℕ
  grand : ℕ
  deriving DecidableEq, Repr

def typeHour (st : Stats) : TypeHour :=
  let hours := hoursPresent st
  let rows := (typesPresent st).map fun t => ⟨t, hours.map (cell st t), count st t⟩
  let totals := (rows.map Row.cells).foldl addRow (List.replicate hours.length 0)
  ⟨hours, rows, totals, totals.sum⟩

/-! The text of the table. -/

/-- Thousands separators. -/
def commas (n : ℕ) : Text :=
  let s := Nat.toDigits 10 n
  s.zipIdx.flatMap fun p => if 0 < p.2 ∧ (s.length - p.2) % 3 = 0 then [',', p.1] else [p.1]

/-- Digits of a base, at least two. -/
def twoDigits (base n : ℕ) : Text :=
  let s := Nat.toDigits base n
  List.replicate (2 - s.length) '0' ++ s

def typeLabel (t : UInt8) : Text :=
  if 0x21 ≤ t ∧ t ≤ 0x7E then [letter t] else "0x".toList ++ twoDigits 16 t.toNat

def entry (s : Text) : Text := [' '] ++ s ++ [' ', '|']

def renderTypeHour (st : Stats) : Text :=
  let t := typeHour st
  "| type \\ hour |".toList ++ t.hours.flatMap (fun h => entry (twoDigits 10 h)) ++
    " total |\n".toList ++
  "|---|".toList ++ t.hours.flatMap (fun _ => "---:|".toList) ++ "---:|\n".toList ++
  t.rows.flatMap (fun r => "| ".toList ++ typeLabel r.ty ++ " |".toList ++
    r.cells.flatMap (fun c => entry (commas c)) ++ entry (commas r.total) ++ ['\n']) ++
  "| total |".toList ++ t.totals.flatMap (fun c => entry (commas c)) ++ entry (commas t.grand) ++
    ['\n']

/-- A number is printed digit by digit. -/
theorem commas_digits (n : ℕ) : (commas n).filter (· ≠ ',') = Nat.toDigits 10 n := by
  have hdigit : ∀ c ∈ Nat.toDigits 10 n, c ≠ ',' := by
    rintro c hc rfl
    exact absurd (Nat.isDigit_of_mem_toDigits (by decide) (by decide) hc) (by decide)
  have hpiece : ∀ p ∈ (Nat.toDigits 10 n).zipIdx, (if 0 < p.2 ∧
      ((Nat.toDigits 10 n).length - p.2) % 3 = 0 then [',', p.1] else [p.1]).filter (· ≠ ',') =
        [p.1] := by
    intro p hp
    have hne := hdigit p.1 (List.fst_mem_of_mem_zipIdx hp)
    split <;> simp [hne]
  rw [commas, List.filter_flatMap, List.flatMap_congr hpiece, ← List.map_eq_flatMap,
    List.zipIdx_map_fst]

example : commas 4330679 = "4,330,679".toList := by decide

/-! What the counters hold. -/

def typeOf (p : Bytes) : UInt8 := byteAt p 0

/-- The hour of a payload that has a header. -/
def hourOf (p : Bytes) : Option ℕ := (headerTs p).map Stats.hour

/-- The counters of the payloads that a session has applied. -/
structure Tallied (ps : List Bytes) (st : Stats) : Prop where
  sized : st.Sized
  messages : st.messages = ps.length
  byType : ∀ t, count st t = ps.countP fun p => typeOf p = t
  cells : ∀ t h, h < 24 → cell st t h = ps.countP fun p => typeOf p = t && hourOf p = some h

theorem tallied_new (source : String) (arrayWindow : ℕ) : Tallied [] (.new source arrayWindow) where
  sized := Stats.sized_new _ _
  messages := rfl
  byType t := List.getD_replicate 0 t.toNat_lt
  cells t h hh := by
    have hrow : (List.replicate 256 (List.replicate 24 0)).getD t.toNat [] = List.replicate 24 0 :=
      List.getD_replicate _ t.toNat_lt
    show ((List.replicate 256 (List.replicate 24 0)).getD t.toNat []).getD h 0 = 0
    rw [hrow, List.getD_replicate 0 hh]

theorem getD_modify {α : Type} {xs : List α} {i : ℕ} (hi : i < xs.length) (j : ℕ) (d : α)
    (f : α → α) : (xs.modify i f).getD j d = if i = j then f (xs.getD j d) else xs.getD j d := by
  rw [List.getD_eq_getElem?_getD, List.getD_eq_getElem?_getD, List.getElem?_modify]
  by_cases hj : i = j
  · subst hj
    simp [List.getElem?_eq_getElem hi]
  · simp [hj]

/-- One more message. -/
theorem Tallied.noteMessage {ps : List Bytes} {st : Stats} (h : Tallied ps st) (p : Bytes) :
    Tallied (ps ++ [p]) (st.noteMessage (typeOf p) (headerTs p)) where
  sized := h.sized.noteMessage _ _
  messages := by
    rw [(LocateIsolation.noteMessage_header st _ _).1, h.messages, List.length_append,
      List.length_singleton]
  byType t := by
    have hty : (typeOf p).toNat < st.byType.length := h.sized.byType.symm ▸ (typeOf p).toNat_lt
    rw [count, (LocateIsolation.noteMessage_header st _ _).2.1, getD_modify hty, ← count,
      h.byType t, List.countP_append, List.countP_singleton]
    simp only [UInt8.toNat_inj, decide_eq_true_eq]
    split <;> rfl
  cells t hr hhr := by
    have hcell := h.cells t hr hhr
    rw [List.countP_append, List.countP_singleton, ← hcell]
    cases hts : headerTs p with
    | none => simp [hourOf, hts, Stats.noteMessage, cell]
    | some ts =>
      have hty : (typeOf p).toNat < st.byTypeHour.length :=
        h.sized.byTypeHour.symm ▸ (typeOf p).toNat_lt
      show ((st.byTypeHour.modify (typeOf p).toNat _).getD t.toNat []).getD hr 0 = _
      rw [getD_modify hty]
      by_cases ht : typeOf p = t
      · subst ht
        have hrow : (st.byTypeHour.getD (typeOf p).toNat []).length = 24 := by
          rw [List.getD_eq_getElem _ _ hty]
          exact h.sized.row _ (List.getElem_mem hty)
        have hlt : Stats.hour ts < (st.byTypeHour.getD (typeOf p).toNat []).length := by
          rw [hrow, Stats.hour]
          omega
        simp only [if_true, getD_modify hlt, hourOf, hts, Option.map_some, Option.some.injEq,
          decide_true, Bool.true_and, decide_eq_true_eq, cell]
        split <;> rfl
      · have hne : (typeOf p).toNat ≠ t.toNat := fun heq => ht (UInt8.toNat_inj.mp heq)
        simp [hne, ht, cell]

/-! Runs. -/

/-- The counters that the table is made of. -/
def tallies (st : Stats) : ℕ × List ℕ × List (List ℕ) := (st.messages, st.byType, st.byTypeHour)

theorem tallies_countAll (cs : List Count) (st : Stats) :
    tallies (countAll cs st) = tallies st := by
  induction cs generalizing st with
  | nil => rfl
  | cons c cs ih =>
    refine (ih (c.stats st)).trans ?_
    cases c with
    | rejected e => cases e <;> rfl
    | _ => rfl

theorem tallies_idle (st : Stats) (b : Body) (locates : List LocateStats) :
    tallies { idleStats st b with locates } = tallies st := by
  cases b <;> rfl

theorem Tallied.congr {ps : List Bytes} {st st' : Stats} (h : Tallied ps st) (hsized : st'.Sized)
    (htallies : tallies st' = tallies st) : Tallied ps st' := by
  obtain ⟨hmessages, hrest⟩ := Prod.mk.inj htallies
  obtain ⟨htype, hhour⟩ := Prod.mk.inj hrest
  refine ⟨hsized, hmessages.trans h.messages, fun t => ?_, fun t k hk => ?_⟩
  · rw [count, htype]
    exact h.byType t
  · rw [cell, hhour]
    exact h.cells t k hk

/-- A message moves the counters by its header alone. -/
theorem tallies_applyMsg {s s' : Session} {m : Msg} {b : Bool} (h : Aligned s)
    (hrun : s.applyMsg m = .ok (b, s')) :
    tallies s'.stats = tallies (s.stats.noteMessage (typeOf m.raw) (headerTs m.raw)) := by
  cases moved_of_applyMsg h hrun with
  | worked hl hact => exact tallies_countAll _ _
  | idle hl hs =>
    obtain ⟨locates, hstats⟩ := hs.stats
    rw [hstats]
    exact tallies_idle _ _ locates

theorem raw_classify {c : Char} {want : ℕ} (v : View c want) (hspec : specLen c = some want) :
    (classify v hspec).raw = v.raw := by
  simp only [classify, apply_dite Msg.raw]
  simp only [Msg.raw, View.as, dite_eq_ite, ite_self]

theorem headerLen_le {c : Char} {n : ℕ} (h : specLen c = some n) : headerLen ≤ n := by
  unfold specLen at h
  split at h <;> cases h <;> decide

/-- A payload is accepted with the length of its type, or its type is outside the size table. -/
theorem parse_eq_ok {p : Bytes} {m : Msg} (h : parse p = .ok m) : m.raw = p ∧
    (specLen (letter (typeOf p)) = none ∨ headerLen ≤ p.length) := by
  cases p with
  | nil => cases h
  | cons b rest =>
    have hty : typeOf (b :: rest) = b := rfl
    rw [parse] at h
    split at h
    · rename_i hspec
      obtain rfl := Except.ok.inj h
      exact ⟨rfl, Or.inl hspec⟩
    · rename_i want hspec
      split at h
      · rename_i hlen
        obtain rfl := Except.ok.inj h
        exact ⟨raw_classify _ _, Or.inr (hlen.symm ▸ headerLen_le hspec)⟩
      · cases h

/-- Every accepted payload is counted. -/
theorem tallied_run {s s' : Session} {ps qs : List Bytes} {out : List (Except ParseError Unit)}
    (h : Aligned s) (htally : Tallied ps s.stats) (hqs : ∀ p ∈ qs, ∃ m, parse p = .ok m)
    (hrun : run Session.applyPayload s qs = .ok (out, s')) : Tallied (ps ++ qs) s'.stats := by
  induction qs generalizing s ps out with
  | nil =>
    obtain ⟨-, rfl⟩ := Prod.mk.inj (Except.ok.inj hrun)
    rwa [List.append_nil]
  | cons p qs ih =>
    obtain ⟨r, rs, s₁, hstep, hrest, -⟩ := run_cons_eq_ok.mp hrun
    obtain ⟨⟨m, hm⟩, hqs⟩ := List.forall_mem_cons.mp hqs
    simp only [Session.applyPayload, hm] at hstep
    obtain ⟨⟨b, s₂⟩, hmsg, hret⟩ := bind_eq_ok.mp hstep
    obtain ⟨-, rfl⟩ := Prod.mk.inj (Except.ok.inj hret)
    have haligned := (moved_of_applyMsg h hmsg).aligned h
    have hone := (htally.noteMessage p).congr haligned.sized
      ((parse_eq_ok hm).1 ▸ tallies_applyMsg h hmsg)
    rw [← List.singleton_append, ← List.append_assoc]
    exact ih haligned hone hqs hrest

/-! Closing a session. -/

theorem tallies_atLocate {st st' : Stats} {l : ℕ} {f : LocateStats → LocateStats}
    (h : st.atLocate l f = .ok st') : tallies st' = tallies st := by
  obtain ⟨ls, -, h⟩ := bind_eq_ok.mp h
  obtain ⟨locates, -, h⟩ := bind_eq_ok.mp h
  obtain rfl := Except.ok.inj h
  rfl

theorem tallies_closeLocate {hash : Bytes → Bytes} {acc acc' : Stats × Bytes}
    {slot : Option LocateBook × ℕ} (h : Session.closeLocate hash acc slot = .ok acc') :
    tallies acc'.1 = tallies acc.1 := by
  unfold Session.closeLocate at h
  split at h
  · obtain rfl := Except.ok.inj h
    rfl
  · obtain ⟨bytes, -, h⟩ := bind_eq_ok.mp h
    obtain ⟨st, hst, h⟩ := bind_eq_ok.mp h
    refine Eq.trans ?_ (tallies_atLocate hst)
    split at h
    · obtain rfl := Except.ok.inj h
      rfl
    · obtain ⟨st', hst', h⟩ := bind_eq_ok.mp h
      obtain rfl := Except.ok.inj h
      exact tallies_atLocate hst'

theorem tallies_finish {hash : Bytes → Bytes} {s t : Session} (h : s.finish hash = .ok t) :
    tallies t.stats = tallies s.stats := by
  have hfold : ∀ (slots : List (Option LocateBook × ℕ)) (acc acc' : Stats × Bytes),
      slots.foldlM (Session.closeLocate hash) acc = .ok acc' → tallies acc'.1 = tallies acc.1 := by
    intro slots
    induction slots with
    | nil =>
      intro acc acc' h
      obtain rfl := Except.ok.inj h
      rfl
    | cons slot slots ih =>
      intro acc acc' h
      rw [List.foldlM_cons] at h
      obtain ⟨acc₁, hone, hrest⟩ := bind_eq_ok.mp h
      exact (ih acc₁ acc' hrest).trans (tallies_closeLocate hone)
  obtain ⟨acc, hclose, h⟩ := bind_eq_ok.mp h
  obtain rfl := Except.ok.inj h
  exact hfold _ _ _ hclose

/-! The table. -/

/-- The payload has a header, and with it an hour. -/
theorem hourOf_isSome (p : Bytes) : (hourOf p).isSome = true ↔ headerLen ≤ p.length := by
  rw [hourOf, Option.isSome_map, headerTs]
  split <;> simp [*]

section Margins

variable {ps : List Bytes} {st : Stats} (h : Tallied ps st)

include h

theorem mem_typesPresent (t : UInt8) : t ∈ typesPresent st ↔ ∃ p ∈ ps, typeOf p = t := by
  have hall : t ∈ allTypes := List.mem_map.mpr
    ⟨t.toNat, List.mem_range.mpr t.toNat_lt, UInt8.ofNat_toNat⟩
  have hpos : 0 < count st t ↔ ∃ p ∈ ps, typeOf p = t := by
    rw [h.byType, List.countP_pos_iff]
    simp only [decide_eq_true_eq]
  rw [← hpos]
  simp only [typesPresent, List.mem_append, List.mem_filter, decide_eq_true_eq, hall, true_and]
  by_cases horder : t ∈ typeOrder <;> simp [horder]

omit h in
theorem nodup_typesPresent : (typesPresent st).Nodup := by
  have horder : typeOrder.Nodup := by decide
  have hall : allTypes.Nodup := by
    refine List.nodup_range.map_on fun a ha b hb heq => ?_
    have hnat := congrArg UInt8.toNat heq
    rwa [UInt8.toNat_ofNat_of_lt' (List.mem_range.mp ha),
      UInt8.toNat_ofNat_of_lt' (List.mem_range.mp hb)] at hnat
  refine List.Nodup.append (horder.filter _) (hall.filter _) fun t ht ht' => ?_
  simp only [List.mem_filter, decide_eq_true_eq] at ht ht'
  exact ht'.2.2 ht.1

omit h in
theorem nodup_hoursPresent : (hoursPresent st).Nodup := List.nodup_range.filter _

omit h in
theorem lt_of_mem_hoursPresent {k : ℕ} (hk : k ∈ hoursPresent st) : k < 24 :=
  List.mem_range.mp (List.mem_of_mem_filter hk)

/-- The hour of a payload has a column. -/
theorem mem_hoursPresent {p : Bytes} (hp : p ∈ ps) {k : ℕ} (hk : hourOf p = some k) :
    k ∈ hoursPresent st := by
  have hlt : k < 24 := by
    obtain ⟨ts, -, rfl⟩ := Option.map_eq_some_iff.mp hk
    rw [Stats.hour]
    omega
  have hpos : 0 < cell st (typeOf p) k := by
    rw [h.cells _ k hlt, List.countP_pos_iff]
    exact ⟨p, hp, by simp [hk]⟩
  have hty : (typeOf p).toNat < st.byTypeHour.length :=
    h.sized.byTypeHour.symm ▸ (typeOf p).toNat_lt
  rw [cell, List.getD_eq_getElem _ _ hty] at hpos
  refine List.mem_filter.mpr ⟨List.mem_range.mpr hlt, List.any_eq_true.mpr ?_⟩
  exact ⟨_, List.getElem_mem hty, decide_eq_true hpos⟩

/-- The cells of a row are the messages of its type that have an hour. -/
theorem sum_cells (t : UInt8) : ((hoursPresent st).map (cell st t)).sum =
    ps.countP fun p => typeOf p = t && (hourOf p).isSome := by
  have hcells : (hoursPresent st).map (cell st t) =
      (hoursPresent st).map fun k => ps.countP fun p => typeOf p = t && hourOf p = some k :=
    List.map_congr_left fun k hk => h.cells t k (lt_of_mem_hoursPresent hk)
  rw [hcells, sum_countP nodup_hoursPresent]
  refine List.countP_congr fun p hp => ?_
  cases hk : hourOf p with
  | none => simp
  | some k => simp [mem_hoursPresent h hp hk]

/-- A row misses the messages of its type without a header. -/
theorem row_total (t : UInt8) : ((hoursPresent st).map (cell st t)).sum +
    ps.countP (fun p => typeOf p = t && p.length < headerLen) = count st t := by
  rw [sum_cells h, h.byType]
  clear h
  induction ps with
  | nil => rfl
  | cons p ps ih =>
    have hhour := hourOf_isSome p
    simp only [List.countP_cons, ← ih]
    by_cases ht : typeOf p = t
    · by_cases hlen : p.length < headerLen
      · have hnone : (hourOf p).isSome = false := by
          rw [← Bool.not_eq_true, hhour]
          omega
        simp [ht, hlen, hnone]
        omega
      · have hsome : (hourOf p).isSome = true := hhour.mpr (by omega)
        simp [ht, hlen, hsome]
        omega
    · simp [ht]

/-- The rows are the messages. -/
theorem sum_counts : ((typesPresent st).map (count st)).sum = ps.length := by
  have hcounts : (typesPresent st).map (count st) =
      (typesPresent st).map fun t => ps.countP fun p => true && some (typeOf p) = some t :=
    List.map_congr_left fun t _ => by simp [h.byType]
  rw [hcounts, sum_countP nodup_typesPresent fun p => some (typeOf p), List.countP_eq_length]
  intro p hp
  simpa using (mem_typesPresent h (typeOf p)).mpr ⟨p, hp, rfl⟩

/-- The totals of the columns are the messages that have an hour. -/
theorem sum_totals : ((hoursPresent st).map fun k =>
    ((typesPresent st).map fun t => cell st t k).sum).sum = ps.countP fun p =>
      (hourOf p).isSome := by
  have hrows : (typesPresent st).map (fun t => ((hoursPresent st).map fun k => cell st t k).sum) =
      (typesPresent st).map fun t => ps.countP fun p => (hourOf p).isSome &&
        some (typeOf p) = some t :=
    List.map_congr_left fun t _ => by
      refine (sum_cells h t).trans (List.countP_congr fun p _ => ?_)
      simp [and_comm]
  rw [sum_columns, hrows, sum_countP nodup_typesPresent fun p => some (typeOf p)]
  refine List.countP_congr fun p hp => ?_
  simp [(mem_typesPresent h (typeOf p)).mpr ⟨p, hp, rfl⟩]

end Margins

/-- A table whose margins add up but for the messages without a header: `missing` of a type, and
`allMissing` together. -/
structure Margins (t : TypeHour) (messages : ℕ) (missing : UInt8 → ℕ) (allMissing : ℕ) : Prop where
  width : ∀ r ∈ t.rows, r.cells.length = t.hours.length
  row : ∀ r ∈ t.rows, r.cells.sum + missing r.ty = r.total
  totals_width : t.totals.length = t.hours.length
  column : ∀ i < t.hours.length, t.totals.getD i 0 = (t.rows.map fun r => r.cells.getD i 0).sum
  corner : t.grand = t.totals.sum
  rows : (t.rows.map Row.total).sum = messages
  grand : t.grand + allMissing = messages

theorem typeHour_congr {st st' : Stats} (h : tallies st' = tallies st) :
    typeHour st' = typeHour st ∧ st'.messages = st.messages := by
  obtain ⟨hmessages, hrest⟩ := Prod.mk.inj h
  obtain ⟨htype, hhour⟩ := Prod.mk.inj hrest
  have hcount : count st' = count st := by
    funext t
    rw [count, htype, count]
  have hcell : cell st' = cell st := by
    funext t k
    rw [cell, hhour, cell]
  refine ⟨?_, hmessages⟩
  simp only [typeHour, hoursPresent, typesPresent, hcount, hcell, hhour]

theorem totals_eq (st : Stats) : (typeHour st).totals =
    (hoursPresent st).map fun k => ((typesPresent st).map fun t => cell st t k).sum := by
  have hwidth : ∀ row ∈ (typesPresent st).map (fun t => (hoursPresent st).map (cell st t)),
      row.length = (List.replicate (hoursPresent st).length 0).length := by
    intro row hrow
    obtain ⟨t, -, rfl⟩ := List.mem_map.mp hrow
    rw [List.length_map, List.length_replicate]
  have htotals : (typeHour st).totals = ((typesPresent st).map fun t =>
      (hoursPresent st).map (cell st t)).foldl addRow
        (List.replicate (hoursPresent st).length 0) := by
    simp only [typeHour, List.map_map]
    rfl
  have hlen := length_foldl_addRow hwidth
  rw [List.length_replicate] at hlen
  rw [htotals]
  refine List.ext_getElem (by rw [hlen, List.length_map]) fun i hi hi' => ?_
  rw [List.length_map] at hi'
  have hcell := foldl_addRow hwidth (i := i) (by rw [List.length_replicate]; exact hi')
  rw [List.getD_eq_getElem _ _ hi, List.getD_replicate 0 hi', Nat.zero_add, List.map_map] at hcell
  rw [hcell, List.getElem_map]
  congr 1
  refine List.map_congr_left fun t _ => ?_
  simp [List.getD_eq_getElem?_getD, List.getElem?_eq_getElem hi']

theorem margins_of_tallied {ps : List Bytes} {st : Stats} (h : Tallied ps st) :
    Margins (typeHour st) st.messages
      (fun t => ps.countP fun p => typeOf p = t && p.length < headerLen)
      (ps.countP fun p => p.length < headerLen) where
  width r hr := by
    obtain ⟨t, -, rfl⟩ := List.mem_map.mp hr
    exact List.length_map ..
  row r hr := by
    obtain ⟨t, -, rfl⟩ := List.mem_map.mp hr
    exact row_total h t
  totals_width := by
    rw [totals_eq, List.length_map]
    rfl
  column i hi := by
    have hi' : i < (hoursPresent st).length := hi
    rw [totals_eq, typeHour, List.map_map, List.getD_eq_getElem _ _ (by simpa using hi'),
      List.getElem_map]
    congr 1
    refine List.map_congr_left fun t _ => ?_
    simp [List.getD_eq_getElem?_getD, List.getElem?_eq_getElem hi']
  corner := rfl
  rows := by
    rw [h.messages, ← sum_counts h, typeHour, List.map_map]
    rfl
  grand := by
    have hgrand : (typeHour st).grand = (typeHour st).totals.sum := rfl
    have hsplit : ps.countP (fun p => (hourOf p).isSome) +
        ps.countP (fun p => p.length < headerLen) = ps.length := by
      rw [List.length_eq_countP_add_countP fun p => (hourOf p).isSome]
      congr 1
      refine List.countP_congr fun p _ => ?_
      simp only [decide_eq_true_eq, hourOf_isSome, Nat.not_le]
    rw [hgrand, totals_eq, sum_totals h, hsplit, h.messages]

/-- The table of a session adds up but for the messages that are shorter than the header: a row
ends with more than its cells by those of its type, and the rows come to more than the grand
total by all of them. Only types outside the size table have such messages. -/
theorem type_hour_margins {cfg : SessionConfig} {ps : List Bytes}
    {out : List (Except ParseError Unit)} {s : Session}
    (haccepted : ∀ p ∈ ps, ∃ m, parse p = .ok m)
    (hrun : run Session.applyPayload (.new cfg) ps = .ok (out, s)) :
    Margins (typeHour s.stats) s.stats.messages
        (fun t => ps.countP fun p => typeOf p = t && p.length < headerLen)
        (ps.countP fun p => p.length < headerLen) ∧
      (∀ p ∈ ps, p.length < headerLen → specLen (letter (typeOf p)) = none) ∧
      ∀ hash t, s.finish hash = .ok t → typeHour t.stats = typeHour s.stats ∧
        t.stats.messages = s.stats.messages := by
  have hnew : Aligned (.new cfg) := aligned_new _
  refine ⟨margins_of_tallied (tallied_run hnew (tallied_new _ _) haccepted hrun),
    fun p hp hlt => ?_, fun hash t hfinish => ?_⟩
  · obtain ⟨m, hm⟩ := haccepted p hp
    exact (parse_eq_ok hm).2.resolve_right (by omega)
  · exact typeHour_congr (tallies_finish hfinish)

theorem type_hour_margins_first : ∃ out s,
    run Session.applyPayload (.new (watchEvery 64)) [firstAdd, [1]] = .ok (out, s) ∧
      Margins (typeHour s.stats) s.stats.messages
        (fun t => [firstAdd, [1]].countP fun p => typeOf p = t && p.length < headerLen)
        ([firstAdd, [1]].countP fun p => p.length < headerLen) := by
  obtain ⟨⟨out, s⟩, hrun⟩ := ok_of_not_panics
    (x := run Session.applyPayload (.new (watchEvery 64)) [firstAdd, [1]]) (by decide +kernel)
  have haccepted : ∀ p ∈ [firstAdd, [1]], ∃ m, parse p = .ok m := by
    intro p hp
    rcases List.mem_pair.mp hp with rfl | rfl
    · exact ⟨_, rfl⟩
    · exact ⟨_, rfl⟩
  exact ⟨out, s, hrun, (type_hour_margins haccepted hrun).1⟩

/-- A message of one byte fills its row and no cell, and the grand total misses it. -/
theorem short_message_in_no_hour : (∃ m, parse [1] = .ok m) ∧ ∃ out s,
    run Session.applyPayload (.new (watchEvery 64)) [[1]] = .ok (out, s) ∧
      typeHour s.stats = ⟨[], [⟨1, [], 1⟩], [], 0⟩ ∧ s.stats.messages = 1 := by
  obtain ⟨⟨out, s⟩, hrun, hs⟩ := ok_of_any
    (x := run Session.applyPayload (.new (watchEvery 64)) [[1]])
    (f := fun p => typeHour p.2.stats = ⟨[], [⟨1, [], 1⟩], [], 0⟩ ∧ p.2.stats.messages = 1)
    (by decide +kernel)
  exact ⟨⟨_, rfl⟩, out, s, hrun, of_decide_eq_true hs⟩

end Lobcore.TypeHours
