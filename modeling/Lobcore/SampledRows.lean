import Lobcore.LocateIsolation
import Lobcore.ReplayColumns

/-!
What a replay samples. The loop is a session beside a sampler for each locate, and neither looks
at the other's past: the session never sees the samplers, and the sampler of a locate moves with
the order messages that its book accepts. So the rows of a locate are those of a run over its own
messages, due by its own count or its own clock.
-/
namespace Lobcore.SampledRows

open Checked OrderTypes Markets Payloads SessionStats Sessions Migrations Replays Handlers Desks
open DeskSteps SessionRefines SessionSteps SessionRuns LocateIsolation Writers
open OrderFlow WeightedMids ReplayColumns

/-! Rows. -/

/-- A row, with the features when they are asked for. -/
structure Row (F : Type) where
  quote : Quote
  features : Option (Features F)

section Columns

variable {F : Type}

/-- The cells of a row at the ends of their columns. -/
def push (c : Columns F) (row : Row F) : Columns F :=
  row.features.elim (c.pushQuote row.quote) (c.pushQuote row.quote).pushFeatures

/-- The columns of some rows. -/
def columnsOf (rows : List (Row F)) : Columns F := rows.foldl push .empty

theorem lengths_push (c : Columns F) (row : Row F) :
    (push c row).lengths row.features.isSome = (c.lengths row.features.isSome).map (· + 1) := by
  obtain ⟨quote, _ | f⟩ := row <;>
    simp [push, Columns.lengths, Columns.pushQuote, Columns.pushFeatures]

theorem columnsOf_append (rows : List (Row F)) (row : Row F) :
    columnsOf (rows ++ [row]) = push (columnsOf rows) row := by
  rw [columnsOf, List.foldl_append]
  rfl

/-- Every column has one cell for each row. -/
theorem lengths_columnsOf {features : Bool} {rows : List (Row F)}
    (h : ∀ row ∈ rows, row.features.isSome = features) :
    ∀ n ∈ (columnsOf rows).lengths features, n = rows.length := by
  induction rows using List.reverseRecOn with
  | nil =>
    intro n hn
    cases features <;> simpa [columnsOf, Columns.lengths, Columns.empty] using hn
  | append_singleton rows row ih =>
    obtain ⟨hrows, hrow⟩ := List.forall_mem_append.mp h
    have hlast : row.features.isSome = features := hrow row (List.mem_singleton_self row)
    intro n hn
    rw [columnsOf_append, ← hlast, lengths_push, hlast] at hn
    obtain ⟨k, hk, rfl⟩ := List.mem_map.mp hn
    rw [ih hrows k hk, List.length_append, List.length_singleton]

/-- A column that takes a cell of every row has the cells of the rows. -/
theorem column_eq {γ : Type} {col : Columns F → List γ} {cell : Row F → γ}
    (hempty : col .empty = []) (hpush : ∀ c row, col (push c row) = col c ++ [cell row])
    (rows : List (Row F)) : col (columnsOf rows) = rows.map cell := by
  induction rows using List.reverseRecOn with
  | nil => exact hempty
  | append_singleton rows row ih =>
    rw [columnsOf_append, hpush, ih, List.map_append, List.map_singleton]

theorem quote_columns (rows : List (Row F)) :
    (columnsOf rows).ts = rows.map (fun row => row.quote.ts) ∧
    (columnsOf rows).locate = rows.map (fun row => row.quote.locate) ∧
    (columnsOf rows).bidPx = rows.map (fun row => row.quote.bidPx) ∧
    (columnsOf rows).bidQty = rows.map (fun row => row.quote.bidQty) ∧
    (columnsOf rows).askPx = rows.map (fun row => row.quote.askPx) ∧
    (columnsOf rows).askQty = rows.map (fun row => row.quote.askQty) := by
  refine ⟨column_eq rfl ?_ rows, column_eq rfl ?_ rows, column_eq rfl ?_ rows,
    column_eq rfl ?_ rows, column_eq rfl ?_ rows, column_eq rfl ?_ rows⟩
  all_goals
    rintro c ⟨quote, _ | f⟩ <;> rfl

/-- The six columns tell the quotes of the rows. -/
def Quotes (c : Columns F) (qs : List Quote) : Prop :=
  c.ts = qs.map Quote.ts ∧ c.locate = qs.map Quote.locate ∧ c.bidPx = qs.map Quote.bidPx ∧
    c.bidQty = qs.map Quote.bidQty ∧ c.askPx = qs.map Quote.askPx ∧ c.askQty = qs.map Quote.askQty

instance decidableQuotes (c : Columns F) (qs : List Quote) : Decidable (Quotes c qs) :=
  inferInstanceAs (Decidable (c.ts = qs.map Quote.ts ∧ c.locate = qs.map Quote.locate ∧
    c.bidPx = qs.map Quote.bidPx ∧ c.bidQty = qs.map Quote.bidQty ∧
    c.askPx = qs.map Quote.askPx ∧ c.askQty = qs.map Quote.askQty))

theorem quotes_columnsOf {rows : List (Row F)} {qs : List Quote} (h : Quotes (columnsOf rows) qs) :
    rows.map Row.quote = qs := by
  obtain ⟨hts, hlocate, hbidPx, hbidQty, haskPx, haskQty⟩ := quote_columns rows
  rw [Quotes, hts, hlocate, hbidPx, hbidQty, haskPx, haskQty] at h
  clear hts hlocate hbidPx hbidQty haskPx haskQty
  induction rows generalizing qs with
  | nil => exact (List.map_eq_nil_iff.mp h.1.symm).symm
  | cons row rows ih =>
    obtain ⟨hts, hlocate, hbidPx, hbidQty, haskPx, haskQty⟩ := h
    obtain ⟨q, qs, rfl, hts, htss⟩ := List.map_eq_cons_iff.mp hts.symm
    obtain ⟨hlocate, hlocates⟩ := List.cons.inj hlocate
    obtain ⟨hbidPx, hbidPxs⟩ := List.cons.inj hbidPx
    obtain ⟨hbidQty, hbidQtys⟩ := List.cons.inj hbidQty
    obtain ⟨haskPx, haskPxs⟩ := List.cons.inj haskPx
    obtain ⟨haskQty, haskQtys⟩ := List.cons.inj haskQty
    have hquote : row.quote = q := Quote.ext hts.symm hlocate hbidPx hbidQty haskPx haskQty
    rw [List.map_cons, hquote, ih ⟨htss.symm, hlocates, hbidPxs, hbidQtys, haskPxs, haskQtys⟩]

end Columns

section Rows

variable {F : Type} (fl : Floats F)

/-- The row of a book, and the best prices it leaves behind. -/
def shot (features : Bool) (prev : Option L1) (ts : UInt64) (l : UInt16) (book : LocateBook) :
    Exec (Row F × Option L1) := do
  let v ← book.l1
  if ¬ features then
    return (⟨quoteOf ts l v, none⟩, prev)
  let levels ← book.l2 5
  let (f, cur) ← featuresOf fl prev v levels
  return (⟨quoteOf ts l v, some f⟩, cur)

/-- Appending a row is taking it and pushing its cells. -/
theorem emit_eq (cols : Columns F) (s : Sampler) (features : Bool) (ts : UInt64) (l : UInt16)
    (book : LocateBook) : emit fl cols s features ts l book = (do
      let (row, cur) ← shot fl features s.prevL1 ts l book
      return (push cols row, { s with prevL1 := cur })) := by
  unfold emit shot
  rcases book.l1 with e | v
  · rfl
  cases features with
  | false => rfl
  | true =>
    simp only [ok_bind, not_true_eq_false, if_false]
    rcases book.l2 5 with e | levels
    · rfl
    simp only [ok_bind]
    rcases featuresOf fl s.prevL1 v levels with e | ⟨f, cur⟩
    · rfl
    · rfl

/-! A book that follows a market has a row. -/

theorem fill_ok {levels : List LevelView} (h : levels.length ≤ 5) : ∃ v, fill levels = .ok v := by
  have hall : ∀ (es : List (LevelView × ℕ)) (v : Vector UInt32 5), (∀ e ∈ es, e.2 < 5) →
      ∃ v', es.foldlM (fun v e =>
        if h : e.2 < 5 then .ok (v.set e.2 (.ofNat e.1.2.1) h) else .error .outOfRange) v =
          (.ok v' : Exec (Vector UInt32 5)) := by
    intro es
    induction es with
    | nil => exact fun v _ => ⟨v, rfl⟩
    | cons e es ih =>
      intro v hes
      obtain ⟨hlt, hrest⟩ := List.forall_mem_cons.mp hes
      rw [List.foldlM_cons, dif_pos hlt, ok_bind]
      exact ih _ hrest
  refine hall _ _ fun e he => ?_
  obtain ⟨-, hlt, -⟩ := List.mem_zipIdx he
  omega

/-- A price that a book can show. -/
def InRange (px : ℤ) : Prop := -2 ^ 31 ≤ px ∧ px < 2 ^ 31

theorem toInt_ofInt {px : ℤ} (h : InRange px) : (Int64.ofInt px).toInt = px :=
  Int64.toInt_ofInt_of_le (by unfold InRange at h; omega) (by unfold InRange at h; omega)

/-- The features of the best prices, both sides there. -/
theorem pair_ok {l1 : L1} (hbid : InRange l1.bidPx.toInt) (hask : InRange l1.askPx.toInt) :
    (∃ w, wmid l1.bidPx l1.bidQty l1.askPx l1.askQty = .ok w) ∧
      (∃ i, imb1 l1.bidQty l1.askQty = .ok i) ∧ ∃ s, spread l1 = .ok s := by
  have hbq := l1.bidQty.toNat_lt
  have haq := l1.askQty.toNat_lt
  have himb : imb1 l1.bidQty l1.askQty = _ := imbalance_ok (by omega)
  exact ⟨⟨_, wmid_ok _ _ hbid hask⟩, ⟨_, himb⟩, ⟨_, spread_ok hbid hask⟩⟩

theorem both_inRange {v : Option LevelView × Option LevelView} (hbid : ∀ e ∈ v.1, InRange e.1)
    (hask : ∀ e ∈ v.2, InRange e.1) :
    ∀ l1 ∈ both v, InRange l1.bidPx.toInt ∧ InRange l1.askPx.toInt := by
  intro l1 hl1
  rcases v with ⟨_ | b, _ | a⟩
  · cases hl1
  · cases hl1
  · cases hl1
  · obtain rfl := Option.some.inj hl1
    have hb := hbid b rfl
    have ha := hask a rfl
    exact ⟨(toInt_ofInt hb).symm ▸ hb, (toInt_ofInt ha).symm ▸ ha⟩

theorem featuresOf_ok (prev : Option L1) {v : Option LevelView × Option LevelView}
    {levels : List LevelView × List LevelView} (hbid : ∀ e ∈ v.1, InRange e.1)
    (hask : ∀ e ∈ v.2, InRange e.1) (hlen : levels.1.length ≤ 5 ∧ levels.2.length ≤ 5) :
    ∃ p, featuresOf fl prev v levels = .ok p := by
  obtain ⟨bids, hbids⟩ := fill_ok hlen.1
  obtain ⟨asks, hasks⟩ := fill_ok hlen.2
  obtain ⟨db, hdb, -⟩ := depth5_le bids
  obtain ⟨da, hda, -⟩ := depth5_le asks
  obtain ⟨i5, hi5, -⟩ := imb5_signed ⟨bids, asks⟩
  have hinRange := both_inRange hbid hask
  obtain ⟨w, i, s, hw, hi, hs⟩ : ∃ w i s,
      (both v).elim (.ok none) (fun l => wmid l.bidPx l.bidQty l.askPx l.askQty) = .ok w ∧
      (both v).elim (.ok none) (fun l => imb1 l.bidQty l.askQty) = .ok i ∧
      (both v).elim (.ok 0) spread = .ok s := by
    cases hboth : both v with
    | none => exact ⟨_, _, _, rfl, rfl, rfl⟩
    | some l1 =>
      obtain ⟨hb, ha⟩ := hinRange l1 hboth
      obtain ⟨⟨w, hw⟩, ⟨i, hi⟩, s, hs⟩ := pair_ok hb ha
      exact ⟨w, i, s, by rw [Option.elim_some, hw], by rw [Option.elim_some, hi],
        by rw [Option.elim_some, hs]⟩
  unfold featuresOf
  rw [hbids, ok_bind, hasks, ok_bind]
  dsimp only
  rw [hdb, ok_bind, hda, ok_bind, hi5, ok_bind, hw, ok_bind, hi, ok_bind, hs, ok_bind]
  exact ⟨_, rfl⟩

theorem shot_ok {book : LocateBook} {m : Market} (h : book.Refines m) (features : Bool)
    (prev : Option L1) (ts : UInt64) (l : UInt16) :
    ∃ row cur v, shot fl features prev ts l book = .ok (row, cur) ∧ book.l1 = .ok v ∧
      row.quote = quoteOf ts l v ∧ row.features.isSome = features := by
  have hrange : ∀ s, ∀ e ∈ (m.levels s).head?.map Market.levelView, InRange e.1 := by
    intro s e he
    obtain ⟨lvl, hlvl, rfl⟩ := Option.map_eq_some_iff.mp he
    obtain ⟨hq, hne⟩ := Market.queue_of_mem_levels (List.mem_of_head? hlvl)
    have hpx := h.wf.px_nonneg (hq ▸ hne)
    exact ⟨(by omega : -2 ^ 31 ≤ lvl.1), hpx.2⟩
  have hlen : ∀ s, (((m.levels s).take 5).map Market.levelView).length ≤ 5 := fun s => by
    rw [List.length_map]
    exact List.length_take_le 5 _
  unfold shot
  rw [h.l1_eq, ok_bind]
  cases features with
  | false => exact ⟨_, _, _, rfl, rfl, rfl, rfl⟩
  | true =>
    obtain ⟨⟨f, cur⟩, hf⟩ : ∃ p, featuresOf fl prev m.l1 (m.l2 5) = .ok p :=
      featuresOf_ok fl prev (hrange .bid) (hrange .ask) ⟨hlen .bid, hlen .ask⟩
    refine ⟨⟨quoteOf ts l m.l1, some f⟩, cur, _, ?_, rfl, rfl, rfl⟩
    rw [h.l2_eq 5]
    simp only [not_true_eq_false, if_false, ok_bind, hf, pure_eq_ok]

end Rows

/-! One message. -/

/-- The rows of a locate. -/
def rowsOf {F : Type} (l : UInt16) (rows : List (Row F)) : List (Row F) :=
  rows.filter fun row => row.quote.locate = l

/-- A message as the loop meets it: the answer of `apply_msg`, the session behind it, and the rows
it leads to. -/
structure Entry (F : Type) where
  msg : Msg
  changed : Bool
  session : Session
  rows : List (Row F)

def sampled (r : Request) (s : Session) (l : UInt16) : Bool :=
  r.sampleAll || s.stats.locates[l.toNat]?.any LocateStats.watched

/-- An order message of the locate that its book accepted, while the locate is sampled. -/
def qualifies {F : Type} (r : Request) (l : UInt16) (e : Entry F) : Bool :=
  isBookMsg e.msg && carries l e.msg && e.changed && sampled r e.session l

/-- The timestamp of a message with a header. -/
def tsOf (m : Msg) : UInt64 := (headerTs m.raw).getD 0

theorem isBookMsg_iff {m : Msg} : isBookMsg m = true ↔ ∃ l o, body m = .order l o := by
  cases m <;> simp [isBookMsg, body]

theorem headerTs_of_locate {m : Msg} {l : UInt16} (h : headerLocate m.raw = some l) :
    headerTs m.raw = some (tsOf m) := by
  unfold headerLocate at h
  split at h
  · rename_i hlen
    rw [tsOf, headerTs, if_pos hlen, Option.getD_some]
  · cases h

theorem any_watched (s : Session) (l : UInt16) :
    (s.stats.locates[l.toNat]?.any LocateStats.watched) = (desk s l.toNat).stats.watched := by
  show _ = (s.stats.locates.getD l.toNat .new).watched
  rw [List.getD_eq_getElem?_getD]
  cases s.stats.locates[l.toNat]? <;> rfl

/-- An accepted order has a book behind it. -/
theorem book_of_changed {s s' : Session} {m : Msg} {l : UInt16} {o : Order} (h : Aligned s)
    (hbody : body m = .order l o) (hstep : s.applyMsg m = .ok (true, s')) :
    ∃ bk, s'.book l.toNat = some bk := by
  have htarget : target (body m) = some l := by rw [hbody]; rfl
  cases moved_of_applyMsg h hstep with
  | @worked k _ d cs hl hact =>
    obtain rfl : k = l := Option.some.inj (hl.symm.trans htarget)
    have hdesk : (put (noted s (note m)) k.toNat d 1 cs).book k.toNat = d.book :=
      congrArg Desk.book (desk_worked hact)
    rw [hbody] at hact
    cases ordered hact with
    | @accepted op ev d₁ d₂ ahead crossed hop hcall hahead hwindow hcrossed =>
      rw [hdesk]
      cases hbook : d.book with
      | some bk => exact ⟨bk, rfl⟩
      | none =>
        rw [Desk.checkCrossed, hbook] at hcrossed
        cases hcrossed

theorem crossed_quiet {afterQ : Bool} {d : Desk} {cs : List Count}
    (h : d.checkCrossed afterQ = .ok cs) (afterQ' : Bool) :
    ∃ cs', d.checkCrossed afterQ' = .ok cs' := by
  unfold Desk.checkCrossed at h ⊢
  obtain ⟨bk, hbook, h⟩ := bind_eq_ok.mp h
  obtain ⟨v, hl1, -⟩ := bind_eq_ok.mp h
  rw [hbook, ok_bind, hl1, ok_bind]
  rcases v with ⟨_ | bid, _ | ask⟩
  · exact ⟨_, rfl⟩
  · exact ⟨_, rfl⟩
  · exact ⟨_, rfl⟩
  · dsimp only
    by_cases hcross : ask.1 ≤ bid.1
    · rw [if_pos hcross]
      cases afterQ' <;> exact ⟨_, rfl⟩
    · rw [if_neg hcross]
      exact ⟨_, rfl⟩

/-- The open market only tells how a crossed book is counted. -/
theorem act_quiet {cfg : SessionConfig} {afterQ : Bool} {d d' : Desk} {o : Body} {b : Bool}
    {cs : List Count} (h : act cfg afterQ d o = .ok (b, d', cs)) (afterQ' : Bool) :
    ∃ cs', act cfg afterQ' d o = .ok (b, d', cs') := by
  cases o with
  | order l o =>
    unfold act Desk.order at h ⊢
    cases hop : o.op with
    | none =>
      simp only [hop] at h ⊢
      exact ⟨_, h⟩
    | some op =>
      simp only [hop] at h ⊢
      obtain ⟨ahead, hahead, h⟩ := bind_eq_ok.mp h
      obtain ⟨⟨e | ev, d₁⟩, hcall, h⟩ := bind_eq_ok.mp h
      · simp only [hahead, hcall, ok_bind]
        exact ⟨_, h⟩
      · obtain ⟨d₂, hwindow, h⟩ := bind_eq_ok.mp h
        obtain ⟨crossed, hcrossed, h⟩ := bind_eq_ok.mp h
        obtain ⟨crossed', hcrossed'⟩ := crossed_quiet hcrossed afterQ'
        obtain ⟨rfl, hrest⟩ := Prod.mk.inj (Except.ok.inj h)
        obtain ⟨rfl, -⟩ := Prod.mk.inj hrest
        simp only [hahead, hcall, ok_bind, hwindow, hcrossed']
        exact ⟨_, rfl⟩
  | _ => exact ⟨_, h⟩

section Steps

variable {F : Type} (fl : Floats F) (r : Request) (c : Cadence)

/-- The turn of a sampler at a message that counts: a row is taken when one is due. -/
def turn (s : Sampler) (ts : UInt64) (l : UInt16) (book : Option LocateBook) :
    Exec (List (Row F) × Sampler) :=
  let s := { s with since := s.since + 1 }
  if ¬ due c ts s then .ok ([], s)
  else
    let s := { s with since := 0, lastTs := some ts }
    match book with
    | none => .ok ([], s)
    | some book => do
      let (row, cur) ← shot fl r.features s.prevL1 ts l book
      return ([row], { s with prevL1 := cur })

/-- The body of the loop behind the session's step. -/
theorem sample_eq {st : Loop F} {m : Msg} {b : Bool} {s' : Session}
    (hstep : st.session.applyMsg m = .ok (b, s')) : sample fl r c st m =
      match headerLocate m.raw with
      | none => .ok { st with session := s' }
      | some l =>
        if isBookMsg m = true ∧ b = true ∧ sampled r s' l = true then do
          let (rows, s) ← turn fl r c (st.samplers.getD l.toNat .default) (tsOf m) l
            (s'.book l.toNat)
          return ⟨s', rows.foldl push st.cols,
            (growTo st.samplers (l.toNat + 1) .default).set l.toNat s⟩
        else .ok { st with session := s' } := by
  unfold sample
  simp only [headerLocate_ok, headerTs_ok, hstep, ok_bind]
  cases hlocate : headerLocate m.raw with
  | none => rfl
  | some l =>
    rw [headerTs_of_locate hlocate]
    dsimp only
    by_cases hbook : isBookMsg m = true ∧ b = true
    · rw [if_neg (by simp [hbook.1, hbook.2])]
      change (if ¬ sampled r s' l = true then _ else _) = _
      by_cases hsampled : sampled r s' l = true
      · rw [if_neg (not_not_intro hsampled), if_pos ⟨hbook.1, hbook.2, hsampled⟩,
          index_ok (growTo_get _ _ (Nat.lt_succ_self _)), ok_bind]
        have hstore : ∀ s, store (growTo st.samplers (l.toNat + 1) .default) l.toNat s =
            .ok ((growTo st.samplers (l.toNat + 1) .default).set l.toNat s) := fun s =>
          store_ok (by rw [length_growTo]; omega) s
        unfold turn
        simp only [hstore, ok_bind]
        by_cases hdue : due c (tsOf m) { st.samplers.getD l.toNat .default with
            since := (st.samplers.getD l.toNat .default).since + 1 } = true
        · rw [if_neg (not_not_intro hdue), if_neg (not_not_intro hdue)]
          rcases s'.book l.toNat with _ | bk
          · rfl
          · simp only [emit_eq]
            rcases shot fl r.features (st.samplers.getD l.toNat .default).prevL1 (tsOf m) l bk with
              e | ⟨row, cur⟩
            · rfl
            · rfl
        · rw [if_pos hdue, if_pos hdue]
          rfl
      · rw [if_pos hsampled, if_neg (fun h => hsampled h.2.2)]
        rfl
    · rw [if_pos (by
        rw [not_and_or] at hbook
        exact hbook), if_neg (fun h => hbook ⟨h.1, h.2.1⟩)]
      rfl

theorem sample_panics {st : Loop F} {m : Msg} {e : Panic}
    (hstep : st.session.applyMsg m = .error e) : sample fl r c st m = .error e := by
  unfold sample
  simp only [headerLocate_ok, headerTs_ok, hstep, ok_bind]
  rfl

/-- How a due row, or a wait for it, leaves the sampler. -/
inductive Turned (s : Sampler) (ts : UInt64) (l : UInt16) (book : LocateBook) :
    List (Row F) → Sampler → Prop
  | wait (hdue : due c ts { s with since := s.since + 1 } = false) :
      Turned s ts l book [] { s with since := s.since + 1 }
  | fire {row : Row F} {prev : Option L1} {v : Option LevelView × Option LevelView}
      (hdue : due c ts { s with since := s.since + 1 } = true) (hl1 : book.l1 = .ok v)
      (hquote : row.quote = quoteOf ts l v) (hfeatures : row.features.isSome = r.features) :
      Turned s ts l book [row] ⟨0, some ts, prev⟩

theorem turn_ok {book : LocateBook} {mk : Market} (h : book.Refines mk) (s : Sampler) (ts : UInt64)
    (l : UInt16) : ∃ rows s', turn fl r c s ts l (some book) = .ok (rows, s') ∧
      Turned r c s ts l book rows s' := by
  cases hdue : due c ts { s with since := s.since + 1 } with
  | false => exact ⟨_, _, if_pos (by rw [hdue]; decide), .wait hdue⟩
  | true =>
    obtain ⟨row, cur, v, hshot, hl1, hquote, hfeatures⟩ := shot_ok fl h r.features s.prevL1 ts l
    refine ⟨[row], ⟨0, some ts, cur⟩, ?_, .fire hdue hl1 hquote hfeatures⟩
    unfold turn
    rw [if_neg (not_not_intro hdue)]
    dsimp only
    rw [hshot, ok_bind]
    rfl

theorem Turned.locate {s s' : Sampler} {ts : UInt64} {l : UInt16} {book : LocateBook}
    {rows : List (Row F)} (h : Turned r c s ts l book rows s') :
    ∀ row ∈ rows, row.quote.locate = l := by
  intro row hrow
  cases h with
  | wait hdue => cases hrow
  | fire hdue hl1 hquote hfeatures =>
    obtain rfl := List.mem_singleton.mp hrow
    rw [hquote]
    rfl

theorem Turned.length_le {s s' : Sampler} {ts : UInt64} {l : UInt16} {book : LocateBook}
    {rows : List (Row F)} (h : Turned r c s ts l book rows s') : rows.length ≤ 1 := by
  cases h with
  | wait hdue => exact Nat.zero_le _
  | fire hdue hl1 hquote hfeatures => exact Nat.le_refl _

/-- A message on the desk and the sampler of a locate. -/
def visit (l : UInt16) (p : Desk × Sampler) (m : Msg) :
    Exec (List (Row F) × (Desk × Sampler)) :=
  if target (body m) = some l then do
    let (b, d, _) ← act r.config false p.1 (body m)
    if isBookMsg m && b && (r.sampleAll || d.stats.watched) then
      let (rows, s) ← turn fl r c p.2 (tsOf m) l d.book
      return (rows, (d, s))
    return ([], (d, p.2))
  else .ok ([], p)

/-- A message on the sampler of a locate: it does not count, or the sampler takes its turn at the
book behind it. -/
inductive Went (l : UInt16) (e : Entry F) (s : Sampler) : Sampler → Prop
  | pass (hqual : qualifies r l e = false) (hrows : rowsOf l e.rows = []) : Went l e s s
  | count {s' : Sampler} {book : LocateBook} {rows : List (Row F)}
      (hqual : qualifies r l e = true) (hrows : rowsOf l e.rows = rows)
      (hbook : e.session.book l.toNat = some book)
      (hturn : Turned r c s (tsOf e.msg) l book rows s') : Went l e s s'

theorem target_of_isBookMsg {m : Msg} {l : UInt16} (hbook : isBookMsg m = true)
    (hcarries : carries l m = true) : target (body m) = some l := by
  obtain ⟨k, o, hbody⟩ := isBookMsg_iff.mp hbook
  have htarget : target (body m) = some k := by rw [hbody]; rfl
  have hheader := headerLocate_of_target htarget
  rw [carries_iff.mp hcarries] at hheader
  rw [htarget, hheader]

/-- A message on the desk and the sampler, by the session behind it. -/
theorem visit_eq {s s' : Session} {m : Msg} {b : Bool} (h : Aligned s) (hcfg : s.cfg = r.config)
    (hstep : s.applyMsg m = .ok (b, s')) (l : UInt16) (smp : Sampler) (rows : List (Row F)) :
    visit fl r c l (desk s l.toNat, smp) m =
      if qualifies r l ⟨m, b, s', rows⟩ = true then do
        let (own, smp') ← turn fl r c smp (tsOf m) l (s'.book l.toNat)
        return (own, (desk s' l.toNat, smp'))
      else .ok ([], (desk s' l.toNat, smp)) := by
  unfold visit qualifies sampled
  dsimp only
  have hmoved := moved_of_applyMsg h hstep
  by_cases htarget : target (body m) = some l
  · have hcarries : carries l m = true := carries_iff.mpr (headerLocate_of_target htarget)
    cases hmoved with
    | @worked k b d cs hl hact =>
      obtain rfl : k = l := Option.some.inj (hl.symm.trans htarget)
      obtain ⟨cs', hquiet⟩ := act_quiet hact false
      rw [hcfg] at hquiet
      have hdesk := desk_worked hact
      have hbook : (put (noted s (note m)) k.toNat d 1 cs).book k.toNat = d.book :=
        congrArg Desk.book hdesk
      rw [if_pos htarget, hquiet, ok_bind, any_watched, hdesk, hbook, hcarries, Bool.and_true]
      rfl
    | idle hl hs => rw [hl] at htarget; cases htarget
  · have hdesk : desk s' l.toNat = desk s l.toNat := by
      cases hmoved with
      | @worked k b d cs hl hact =>
        have hne : l.toNat ≠ k.toNat := fun heq => htarget (UInt16.toNat_inj.mp heq ▸ hl)
        rw [desk_put_ne _ _ _ _ hne, desk_noted]
      | idle hl hs => rw [hs.desks, desk_noted]
    have hcond : (isBookMsg m && carries l m) = false := by
      rw [Bool.and_eq_false_iff]
      by_contra hno
      simp only [not_or, Bool.not_eq_false] at hno
      exact htarget (target_of_isBookMsg hno.1 hno.2)
    rw [if_neg htarget, hcond, hdesk, Bool.false_and, Bool.false_and, if_neg (by decide)]

/-- The sampler of a locate. -/
def samplerAt (st : Loop F) (l : UInt16) : Sampler := st.samplers.getD l.toNat .default

/-- A message that counts for no locate. -/
theorem sample_pass {st : Loop F} {m : Msg} {b : Bool} {s' : Session} (h : Aligned st.session)
    (hcfg : st.session.cfg = r.config) (hstep : st.session.applyMsg m = .ok (b, s'))
    (hqual : ∀ l, qualifies (F := F) r l ⟨m, b, s', []⟩ = false) (l : UInt16) :
    Went r c l (⟨m, b, s', []⟩ : Entry F) (samplerAt st l) (samplerAt { st with session := s' } l) ∧
      visit fl r c l (desk st.session l.toNat, samplerAt st l) m =
        .ok ([], (desk s' l.toNat, samplerAt { st with session := s' } l)) := by
  refine ⟨.pass (hqual l) rfl, ?_⟩
  rw [visit_eq fl r c h hcfg hstep l (samplerAt st l) [], hqual l, if_neg (by decide)]
  rfl

theorem samplerAt_set (xs : List Sampler) (k l : UInt16) (smp : Sampler) :
    ((growTo xs (k.toNat + 1) .default).set k.toNat smp).getD l.toNat .default =
      if l = k then smp else xs.getD l.toNat .default := by
  have hlt : k.toNat < (growTo xs (k.toNat + 1) Sampler.default).length := by
    rw [length_growTo]
    omega
  by_cases hl : l = k
  · subst hl
    rw [if_pos rfl, List.getD_eq_getElem?_getD, List.getElem?_set_self hlt, Option.getD_some]
  · have hne : k.toNat ≠ l.toNat := fun heq => hl (UInt16.toNat_inj.mp heq).symm
    rw [if_neg hl, List.getD_eq_getElem?_getD, List.getElem?_set_ne hne,
      ← List.getD_eq_getElem?_getD, growTo_getD]

theorem rowsOf_self {l : UInt16} {rows : List (Row F)} (h : ∀ row ∈ rows, row.quote.locate = l) :
    rowsOf l rows = rows :=
  List.filter_eq_self.mpr fun row hrow => decide_eq_true (h row hrow)

theorem rowsOf_other {l k : UInt16} {rows : List (Row F)}
    (h : ∀ row ∈ rows, row.quote.locate = k) (hl : l ≠ k) : rowsOf l rows = [] := by
  refine List.filter_eq_nil_iff.mpr fun row hrow => ?_
  rw [h row hrow, decide_eq_true_iff]
  exact hl.symm

/-- The turn of a sampler at an accepted order has a book to look at. -/
theorem turn_after {s s' : Session} {a : Replay} {m : Msg} {l : UInt16} (h : Follows r.config s a)
    (hstep : s.applyMsg m = .ok (true, s')) (hlocate : headerLocate m.raw = some l)
    (hmsg : isBookMsg m = true) (smp : Sampler) :
    ∃ book rows smp', s'.book l.toNat = some book ∧
      turn fl r c smp (tsOf m) l (some book) = .ok (rows, smp') ∧
      Turned r c smp (tsOf m) l book rows smp' := by
  have haligned := Closings.aligned_of_follows h
  obtain ⟨k, o, hbody⟩ := isBookMsg_iff.mp hmsg
  have htarget : target (body m) = some k := by rw [hbody]; rfl
  obtain rfl : l = k := Option.some.inj (hlocate.symm.trans (headerLocate_of_target htarget))
  obtain ⟨book, hbook⟩ := book_of_changed haligned hbody hstep
  obtain ⟨a', h', -⟩ := message_step _ _ _ _ _ h hstep
  obtain ⟨mk, -, hrefines⟩ := h'.refines hbook
  obtain ⟨rows, smp', hturn, hturned⟩ := turn_ok fl r c hrefines smp (tsOf m) l
  exact ⟨book, rows, smp', hbook, hturn, hturned⟩

/-- One message through the loop: the session takes it, and every locate sees its own part. -/
theorem sample_step {st : Loop F} {a : Replay} {m : Msg} {b : Bool} {s' : Session}
    (h : Follows r.config st.session a) (hstep : st.session.applyMsg m = .ok (b, s')) :
    ∃ rows st', sample fl r c st m = .ok st' ∧ st'.session = s' ∧
      st'.cols = rows.foldl push st.cols ∧ rows.length ≤ 1 ∧
      ∀ l, Went r c l ⟨m, b, s', rows⟩ (samplerAt st l) (samplerAt st' l) ∧
        visit fl r c l (desk st.session l.toNat, samplerAt st l) m =
          .ok (rowsOf l rows, (desk s' l.toNat, samplerAt st' l)) := by
  have haligned := Closings.aligned_of_follows h
  have hpass := sample_pass fl r c haligned h.cfg_eq hstep
  rw [sample_eq fl r c hstep]
  cases hlocate : headerLocate m.raw with
  | none =>
    refine ⟨[], _, rfl, rfl, rfl, Nat.zero_le _, hpass fun l => ?_⟩
    have hcarries : carries l m = false := by
      rw [Bool.eq_false_iff, Ne, carries_iff, hlocate]
      simp
    rw [qualifies, hcarries, Bool.and_false, Bool.false_and, Bool.false_and]
  | some k =>
    have hcarries : ∀ l, carries l m = decide (l = k) := fun l => by
      rw [Bool.eq_iff_iff, carries_iff, hlocate, decide_eq_true_iff, Option.some.injEq, eq_comm]
    have hother : ∀ l rows, l ≠ k → qualifies r l (⟨m, b, s', rows⟩ : Entry F) = false := by
      intro l rows hl
      rw [qualifies, hcarries, decide_eq_false hl, Bool.and_false, Bool.false_and, Bool.false_and]
    have hown : ∀ rows, qualifies r k (⟨m, b, s', rows⟩ : Entry F) = true ↔
        isBookMsg m = true ∧ b = true ∧ sampled r s' k = true := fun rows => by
      rw [qualifies, hcarries, decide_eq_true rfl, Bool.and_true, Bool.and_eq_true,
        Bool.and_eq_true, and_assoc]
    dsimp only
    by_cases hqual : isBookMsg m = true ∧ b = true ∧ sampled r s' k = true
    · obtain rfl : b = true := hqual.2.1
      obtain ⟨bk, rows, smp', hbook, hturn, hturned⟩ :=
        turn_after fl r c h hstep hlocate hqual.1 (samplerAt st k)
      rw [if_pos hqual, hbook]
      refine ⟨rows, _, by rw [samplerAt] at hturn; rw [hturn, ok_bind]; rfl, rfl, rfl,
        hturned.length_le, fun l => ?_⟩
      rw [visit_eq fl r c haligned h.cfg_eq hstep l _ rows]
      have hsampler : samplerAt ⟨s', rows.foldl push st.cols,
          (growTo st.samplers (k.toNat + 1) .default).set k.toNat smp'⟩ l =
          if l = k then smp' else samplerAt st l := samplerAt_set _ _ _ _
      rw [hsampler]
      by_cases hl : l = k
      · subst hl
        have hself := rowsOf_self hturned.locate
        rw [if_pos ((hown rows).mpr hqual), if_pos rfl, hbook, hturn, ok_bind, hself]
        exact ⟨.count ((hown rows).mpr hqual) hself hbook hturned, rfl⟩
      · have hnone := rowsOf_other hturned.locate hl
        rw [hother l rows hl, if_neg Bool.false_ne_true, if_neg hl, hnone]
        exact ⟨.pass (hother l rows hl) hnone, rfl⟩
    · rw [if_neg hqual]
      refine ⟨[], _, rfl, rfl, rfl, Nat.zero_le _, hpass fun l => ?_⟩
      by_cases hl : l = k
      · subst hl
        rw [Bool.eq_false_iff]
        exact fun h => hqual ((hown []).mp h)
      · exact hother l [] hl

end Steps

/-! What a message does to the sampler of a locate. -/

/-- The times of the rows of a locate. -/
def times {F : Type} (l : UInt16) (rows : List (Row F)) : List UInt64 :=
  (rowsOf l rows).map fun row => row.quote.ts

theorem times_append {F : Type} (l : UInt16) (rows rows' : List (Row F)) :
    times l (rows ++ rows') = times l rows ++ times l rows' := by
  rw [times, rowsOf, List.filter_append, List.map_append]
  rfl

section Went

variable {F : Type} {r : Request} {c : Cadence} {l : UInt16} {s s' : Sampler} {e : Entry F}

theorem Went.rows_iff (h : Went r c l e s s') : rowsOf l e.rows ≠ [] ↔
    qualifies r l e = true ∧ due c (tsOf e.msg) { s with since := s.since + 1 } = true := by
  cases h with
  | pass hqual hrows => simp [hqual, hrows]
  | count hqual hrows hbook hturn =>
    cases hturn with
    | wait hdue => simp [hrows, hdue]
    | fire hdue hl1 hquote hfeatures => simp [hqual, hrows, hdue]

/-- The count since the last row, when a row is due at every `n`-th message. -/
theorem Went.since {n : UInt64} {hn : n ≠ 0} (h : Went r (.everyN n hn) l e s s')
    (hlt : s.since < n.toNat) :
    s'.since = (s.since + if qualifies r l e = true then 1 else 0) % n.toNat := by
  cases h with
  | pass hqual hrows =>
    rw [hqual, if_neg Bool.false_ne_true, Nat.add_zero, Nat.mod_eq_of_lt hlt]
  | count hqual hrows hbook hturn =>
    rw [if_pos hqual]
    cases hturn with
    | wait hdue =>
      have hnext : s.since + 1 < n.toNat := not_le.mp (of_decide_eq_false hdue)
      rw [Nat.mod_eq_of_lt hnext]
    | fire hdue hl1 hquote hfeatures =>
      have hnext : n.toNat ≤ s.since + 1 := of_decide_eq_true hdue
      have heq : s.since + 1 = n.toNat := by omega
      rw [heq, Nat.mod_self]

/-- The time of the last row. -/
theorem Went.lastTs (h : Went r c l e s s') :
    s'.lastTs = (times l e.rows).getLast?.or s.lastTs := by
  unfold times
  cases h with
  | pass hqual hrows =>
    rw [hrows]
    rfl
  | count hqual hrows hbook hturn =>
    rw [hrows]
    cases hturn with
    | wait hdue => rfl
    | fire hdue hl1 hquote hfeatures =>
      rw [List.map_singleton, hquote]
      rfl

/-- A row shows the book right after its message. -/
def Shown (e : Entry F) (row : Row F) : Prop :=
  carries row.quote.locate e.msg = true ∧ ∃ book v,
    e.session.book row.quote.locate.toNat = some book ∧ book.l1 = .ok v ∧
      row.quote = quoteOf (tsOf e.msg) row.quote.locate v

theorem Went.shown (h : Went r c l e s s') :
    ∀ row ∈ rowsOf l e.rows, Shown e row ∧ row.features.isSome = r.features := by
  intro row hrow
  obtain rfl : row.quote.locate = l := of_decide_eq_true (List.mem_filter.mp hrow).2
  cases h with
  | pass hqual hrows =>
    rw [hrows] at hrow
    cases hrow
  | @count _ book rows hqual hrows hbook hturn =>
    rw [hrows] at hrow
    cases hturn with
    | wait hdue => cases hrow
    | fire hdue hl1 hquote hfeatures =>
      obtain rfl := List.mem_singleton.mp hrow
      rw [qualifies, Bool.and_eq_true, Bool.and_eq_true, Bool.and_eq_true] at hqual
      exact ⟨⟨hqual.1.1.2, book, _, hbook, hl1, hquote⟩, hfeatures⟩

end Went

end Lobcore.SampledRows
