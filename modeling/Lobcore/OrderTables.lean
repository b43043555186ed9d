import Lobcore.QueuePositions

/-!
What the event log alone says of the orders. A reader of the log keeps a table of the live
orders, without queues, and checks each event against it: an event that takes shares must leave
what it says, a refused call must have been refused for what the table shows. The books never
write a log that fails these checks, and the table is then that of the book.
-/
namespace Lobcore.OrderTables

open Checked OrderTypes SortedMaps Markets ArrayBooks Sessions Migrations EventReplays
open QueuePositions

/-- Side, price and shares of every live order. -/
abbrev Table := SortedMap OrderId (Side × ℤ × ℕ)

/-- Leave `rest` shares of an order; an order left with none leaves the table. -/
def leave (t : Table) (id : OrderId) (s : Side) (px : ℤ) (rest : ℕ) : Table :=
  if rest = 0 then t.erase id else t.insert id (s, px, rest)

def hearAdd (t : Table) (ev : Event) : Option Table :=
  if t.contains ev.a ∨ ev.qty.toNat = 0 ∨ ev.px.toInt ≤ 0 then none
  else (Side.fromCode ev.side).map fun s => t.insert ev.a (s, ev.px.toInt, ev.qty.toNat)

/-- A cancel, an execution or a delete: what is taken and what is left make what was held. -/
def hearTake (t : Table) (ev : Event) : Option Table :=
  (t.get? ev.a).bind fun e =>
    if ev.side = e.1.code ∧ ev.px.toInt = e.2.1 ∧ 0 < ev.qty.toNat ∧
        ev.qty.toNat + ev.b.toNat = e.2.2 ∧ (ev.kind = .delete → ev.b = 0) then
      some (leave t ev.a e.1 e.2.1 ev.b.toNat)
    else none

def hearReplace (t : Table) (ev : Event) : Option Table :=
  (t.get? ev.a).bind fun e =>
    if ev.side = e.1.code ∧ ¬ t.contains ev.b ∧ 0 < ev.qty.toNat ∧ 0 < ev.px.toInt then
      some ((t.erase ev.a).insert ev.b (e.1, ev.px.toInt, ev.qty.toNat))
    else none

/-- A refused call changes nothing; its record names what was wrong. -/
def hearReject (t : Table) (ev : Event) : Option Table :=
  if ev.b = .ofNat EventKind.exec.code.toNat then
    (t.get? ev.a).bind fun e => if e.2.2 < ev.qty.toNat then some t else none
  else if ev.b = .ofNat EventKind.add.code.toNat then
    if t.contains ev.a then some t else none
  else some t

/-- The table after an event; none when the event does not fit the table. -/
def hear (t : Table) (ev : Event) : Option Table :=
  match ev.kind with
  | .add => hearAdd t ev
  | .cancel | .exec | .delete => hearTake t ev
  | .replace => hearReplace t ev
  | .unknown => if t.contains ev.a then none else some t
  | .reject => hearReject t ev
  | _ => none

/-- The table after a log; none as soon as one event does not fit. -/
def hearAll : Table → List Event → Option Table
  | t, [] => some t
  | t, ev :: evs => (hear t ev).bind fun t' => hearAll t' evs

/-- The table has the orders of the market. -/
def Tracks (t : Table) (m : Market) : Prop := ∀ id, t.get? id = m.find id

/-! Finding orders in a market that has changed. -/

theorem remaining_append_of_ne {id new : OrderId} (hne : id ≠ new) (q : Queue) (n : ℕ) :
    remaining id (q ++ [(new, n)]) = remaining id q := by
  induction q with
  | nil => simp only [List.nil_append, remaining, if_neg hne.symm]
  | cons e q ih => simp only [List.cons_append, remaining, ih]

theorem remaining_settle_of_ne {id t : OrderId} (hne : id ≠ t) (rest : ℕ) (q : Queue) :
    remaining id (settle t rest q) = remaining id q := by
  induction q with
  | nil => rfl
  | cons e q ih =>
    unfold settle
    split_ifs with ht hzero
    · simp only [remaining, if_neg (show e.1 ≠ id from fun h => hne (h.symm.trans ht))]
    · simp only [remaining, if_neg (show e.1 ≠ id from fun h => hne (h.symm.trans ht))]
    · simp only [remaining, ih]

section Find

variable {m : Market} {id : OrderId} {s : Side} {px : ℤ}

theorem find_push (hm : m.WF) (hnew : m.home id = none) (s : Side) (px : ℤ) (qty : ℕ)
    (j : OrderId) : (m.push id s px qty).find j = if j =
      id then some (s, px, qty) else m.find j := by
  by_cases hj : j = id
  · subst hj
    have hfresh : j ∉ ids (m.queue s px) := fun hmem => by
      rw [(hm.home_iff j s px).mpr hmem] at hnew
      cases hnew
    rw [if_pos rfl]
    refine Market.find_eq_some.mpr ⟨Function.update_self .., ?_⟩
    rw [show (m.push j s px qty).queue s px = _ from Market.setQueue_self m s px _]
    exact remaining_split hfresh
  · rw [if_neg hj]
    unfold Market.find
    rw [show (m.push id s px qty).home j = m.home j from Function.update_of_ne hj ..]
    cases m.home j with
    | none => rfl
    | some p =>
      obtain ⟨s', px'⟩ := p
      by_cases hq : s' = s ∧ px' = px
      · obtain ⟨rfl, rfl⟩ := hq
        simp only [Market.push, Market.setQueue_self, remaining_append_of_ne hj]
      · simp only [Market.push, Market.setQueue_of_ne m _ hq]

theorem find_take (hm : m.WF) {n : ℕ} (hfind : m.find id = some (s, px, n)) (rest : ℕ)
    (j : OrderId) : (m.take id s px rest).find j =
      if j = id then (if rest = 0 then none else some (s, px, rest)) else m.find j := by
  obtain ⟨hhome, hrem⟩ := Market.find_eq_some.mp hfind
  by_cases hj : j = id
  · subst hj
    rw [if_pos rfl]
    split_ifs with hzero
    · unfold Market.find
      simp only [Market.take, if_pos hzero, Function.update_self]
    · refine Market.find_eq_some.mpr ⟨?_, ?_⟩
      · simp only [Market.take, if_neg hzero, hhome]
      · obtain ⟨xs, ys, hq, hxs, -⟩ := split_of_remaining hrem (hm.nodup s px)
        simp only [Market.take, Market.setQueue_self]
        rw [hq, settle_split hxs, if_neg hzero]
        exact remaining_split hxs
  · rw [if_neg hj]
    unfold Market.find
    have hkeep : (m.take id s px rest).home j = m.home j := by
      unfold Market.take
      split_ifs with hzero
      · exact Function.update_of_ne hj ..
      · rfl
    rw [hkeep]
    cases m.home j with
    | none => rfl
    | some p =>
      obtain ⟨s', px'⟩ := p
      by_cases hq : s' = s ∧ px' = px
      · obtain ⟨rfl, rfl⟩ := hq
        simp only [Market.take, Market.setQueue_self, remaining_settle_of_ne hj]
      · simp only [Market.take, Market.setQueue_of_ne m _ hq]

end Find

/-! One event. -/

theorem toNat_event {n : ℕ} (h : n < 2 ^ 32) : (UInt64.ofNat n).toNat = n :=
  UInt64.toNat_ofNat_of_lt' (Nat.lt_trans h (by decide))

theorem toInt_event {px : ℤ} (h : 0 ≤ px ∧ px < 2 ^ 31) : (Int64.ofInt px).toInt = px :=
  Int64.toInt_ofInt_of_le (by omega) (by omega)

section Events

variable {t : Table} {m : Market} (ht : Tracks t m)

include ht

theorem contains_iff_home (hm : m.WF) (id : OrderId) :
    t.contains id = true ↔ (m.home id).isSome = true := by
  rw [SortedMap.contains, ht id]
  cases hfind : m.find id with
  | none => simp [hm.find_eq_none.mp hfind]
  | some p =>
    simp [(Market.find_eq_some.mp (show m.find id = some (p.1, p.2.1, p.2.2) from hfind)).1]

theorem tracks_leave (hm : m.WF) {id : OrderId} {s : Side} {px : ℤ} {n : ℕ}
    (hfind : m.find id = some (s, px, n)) (rest : ℕ) :
    Tracks (leave t id s px rest) (m.take id s px rest) := by
  intro j
  rw [find_take hm hfind, leave]
  split_ifs with hzero hj hj
  · rw [SortedMap.get?_erase, if_pos hj]
  · rw [SortedMap.get?_erase, if_neg hj, ht j]
  · rw [SortedMap.get?_insert, if_pos hj]
  · rw [SortedMap.get?_insert, if_neg hj, ht j]

theorem tracks_insert (hm : m.WF) {id : OrderId} (hnew : m.home id = none) (s : Side) (px : ℤ)
    (qty : ℕ) : Tracks (t.insert id (s, px, qty)) (m.push id s px qty) := by
  intro j
  rw [find_push hm hnew, SortedMap.get?_insert, ht j]

/-- The record of an accepted cancel, execution or delete. -/
theorem hear_taken (hm : m.WF) {id : OrderId} {s : Side} {px : ℤ} {n taken rest : ℕ}
    (hfind : m.find id = some (s, px, n)) (hpos : 0 < taken) (hsum : taken + rest = n) {ev : Event}
    (hkind : ev.kind = .cancel ∨ ev.kind = .exec ∨ ev.kind = .delete ∧ rest = 0)
    (ha : ev.a = id) (hb : ev.b = .ofNat rest) (hpx : ev.px = .ofInt px)
    (hqty : ev.qty = .ofNat taken) (hside : ev.side = s.code) :
    ∃ t', hear t ev = some t' ∧ Tracks t' (m.take id s px rest) := by
  have hlt := hm.held_lt hfind
  have hrange : 0 ≤ px ∧ px < 2 ^ 31 := by
    obtain ⟨hhome, -⟩ := Market.find_eq_some.mp hfind
    have hmem := (hm.home_iff id s px).mp hhome
    obtain ⟨hlow, hhigh⟩ := hm.px_range s px fun hnil => by simp [hnil] at hmem
    exact ⟨(Market.lowest_nonneg s).trans hlow, hhigh⟩
  refine ⟨leave t id s px rest, ?_, tracks_leave ht hm hfind rest⟩
  have htake : hear t ev = hearTake t ev := by
    unfold hear
    rcases hkind with hk | hk | ⟨hk, -⟩ <;> rw [hk]
  have hdelete : ev.kind = .delete → ev.b = 0 := fun hk => by
    rcases hkind with hk' | hk' | ⟨-, hzero⟩
    · rw [hk'] at hk
      cases hk
    · rw [hk'] at hk
      cases hk
    · rw [hb, hzero]
      rfl
  rw [htake, hearTake, ha, ht id, hfind, Option.bind_some, if_pos, hb, toNat_event (by omega)]
  rw [hb, hpx, hqty, hside, toNat_event (by omega), toNat_event (by omega), toInt_event hrange]
  exact ⟨rfl, rfl, hpos, hsum, hb ▸ hdelete⟩

theorem hear_added (hm : m.WF) {id : OrderId} (hnew : m.home id = none) (s : Side) {px : ℤ}
    {qty : ℕ} (hpx : 0 < px ∧ px < 2 ^ 31) (hpos : 0 < qty) (hqty : qty < 2 ^ 32) :
    ∃ t', hear t (Event.add id s px qty) = some t' ∧ Tracks t' (m.push id s px qty) := by
  refine ⟨t.insert id (s, px, qty), ?_, tracks_insert ht hm hnew s px qty⟩
  have hgone : ¬ t.contains id = true := by
    rw [contains_iff_home ht hm, hnew]
    decide
  show hearAdd t (Event.add id s px qty) = _
  rw [hearAdd, if_neg]
  · simp only [Event.add, fromCode_code, Option.map_some, toNat_event hqty,
      toInt_event (show 0 ≤ px ∧ px < 2 ^ 31 by omega)]
  · simp only [Event.add, toNat_event hqty, toInt_event (show 0 ≤ px ∧ px < 2 ^ 31 by omega)]
    rintro (h | h | h)
    · exact hgone h
    · omega
    · omega

theorem hear_replaced (hm : m.WF) {old new : OrderId} {s : Side} {oldPx px : ℤ} {n qty : ℕ}
    (hfind : m.find old = some (s, oldPx, n)) (hnew : m.home new = none)
    (hpx : 0 < px ∧ px < 2 ^ 31) (hpos : 0 < qty) (hqty : qty < 2 ^ 32) :
    ∃ t', hear t (Event.replace old new s px qty) = some t' ∧
      Tracks t' ((m.take old s oldPx 0).push new s px qty) := by
  have hwf : (m.take old s oldPx 0).WF := hm.take hfind (Nat.zero_le _)
  have hleft := tracks_leave ht hm hfind 0
  have hfresh : (m.take old s oldPx 0).home new = none := by
    rw [Market.home_take_zero]
    split_ifs
    · rfl
    · exact hnew
  refine ⟨_, ?_, tracks_insert hleft hwf hfresh s px qty⟩
  have hgone : ¬ t.contains new = true := by
    rw [contains_iff_home ht hm, hnew]
    decide
  show hearReplace t (Event.replace old new s px qty) = _
  rw [hearReplace, show (Event.replace old new s px qty).a = old from rfl, ht old, hfind,
    Option.bind_some, if_pos]
  · simp only [Event.replace, toNat_event hqty,
      toInt_event (show 0 ≤ px ∧ px < 2 ^ 31 by omega), leave, if_pos]
  · simp only [Event.replace, toNat_event hqty, toInt_event (show 0 ≤ px ∧ px < 2 ^ 31 by omega)]
    exact ⟨trivial, hgone, hpos, hpx.1⟩

/-- What an error says is so. -/
def Justified (m : Market) : BookError → Prop
  | .unknownId _ id => m.find id = none
  | .overExecute id held want =>
    (∃ s px, m.find id = some (s, px, held)) ∧ held < want ∧ want < 2 ^ 32
  | .duplicateId id => (m.home id).isSome = true
  | .badQty | .badPrice => True

/-- The record of a refused call whose error says what is so. -/
theorem hear_refused (hm : m.WF) {e : BookError} (h : Justified m e) : hear t e.event = some t := by
  cases e with
  | unknownId kind id =>
    have hgone : ¬ t.contains id = true := by
      rw [SortedMap.contains, ht id, h]
      decide
    exact if_neg hgone
  | overExecute id held want =>
    obtain ⟨⟨s, px, hfind⟩, hlt, hwant⟩ := h
    show hearReject t (Event.reject .exec id (.ofNat want)) = _
    simp only [hearReject, Event.reject, if_true, ht id, hfind, Option.bind_some,
      toNat_event hwant, if_pos hlt]
  | duplicateId id =>
    show hearReject t (Event.reject .add id 0) = _
    have hadd : ¬ UInt64.ofNat EventKind.add.code.toNat = .ofNat EventKind.exec.code.toNat := by
      decide
    simp only [hearReject, Event.reject, if_neg hadd, if_true]
    exact if_pos ((contains_iff_home ht hm id).mpr h)
  | badQty => rfl
  | badPrice => rfl

end Events

/-- The error of a refused call says what is so. -/
theorem justified_of_error {m : Market} {op : Op} {e : BookError}
    (h : (m.apply op).1 = .error e) : Justified m e := by
  cases op with
  | add id s px qty =>
    simp only [Market.apply, Market.add] at h
    split_ifs at h with _ _ _ hdup
    all_goals obtain rfl := Except.error.inj h
    · trivial
    · trivial
    · trivial
    · exact hdup
  | cancel id qty =>
    simp only [Market.apply, Market.cancel] at h
    split at h
    case h_1 hfind =>
      obtain rfl := Except.error.inj h
      exact hfind
    case h_2 =>
      split_ifs at h
      obtain rfl := Except.error.inj h
      trivial
  | execute id qty =>
    simp only [Market.apply, Market.execute] at h
    split at h
    case h_1 hfind =>
      obtain rfl := Except.error.inj h
      exact hfind
    case h_2 s px held hfind =>
      split_ifs at h with hzero hover
      · obtain rfl := Except.error.inj h
        trivial
      · obtain rfl := Except.error.inj h
        exact ⟨⟨s, px, hfind⟩, hover, uint32_bound qty⟩
  | delete id =>
    simp only [Market.apply, Market.delete] at h
    split at h
    case h_1 hfind =>
      obtain rfl := Except.error.inj h
      exact hfind
    case h_2 => cases h
  | replace old new px qty =>
    simp only [Market.apply, Market.replace] at h
    split at h
    case h_1 hfind =>
      obtain rfl := Except.error.inj h
      exact hfind
    case h_2 =>
      split at h
      case isTrue hdup =>
        obtain rfl := Except.error.inj h
        exact hdup
      case isFalse =>
        split at h
        case isTrue =>
          obtain rfl := Except.error.inj h
          trivial
        case isFalse =>
          split at h
          case isTrue =>
            obtain rfl := Except.error.inj h
            trivial
          case isFalse =>
            split at h
            · split at h
              · obtain rfl := Except.error.inj h
                trivial
              · cases h
            · split at h
              · obtain rfl := Except.error.inj h
                trivial
              · cases h

/-- One call: its record fits the table, and the table stays that of the market. -/
theorem hear_step {t : Table} {m : Market} (ht : Tracks t m) (hm : m.WF) (op : Op) :
    ∃ t', hear t (loggedEvent (m.apply op).1) = some t' ∧ Tracks t' (m.apply op).2 := by
  cases hreply : (m.apply op).1 with
  | error e =>
    rw [Market.apply_error hreply]
    exact ⟨t, hear_refused ht hm (justified_of_error hreply), ht⟩
  | ok ev =>
    cases op with
    | add id s px qty =>
      obtain ⟨-, hhigh⟩ := int32_bounds px
      simp only [Market.apply, Market.add] at hreply ⊢
      split_ifs at hreply ⊢ with hzero hneg hfull hdup
      obtain rfl := Except.ok.inj hreply
      exact hear_added ht hm (by simpa using hdup) s ⟨by omega, hhigh⟩ (by omega) (uint32_bound qty)
    | cancel id qty =>
      simp only [Market.apply, Market.cancel] at hreply ⊢
      cases hfind : m.find id with
      | none => simp [hfind] at hreply
      | some p =>
        obtain ⟨s, px, n⟩ := p
        have hheld := hm.held_pos hfind
        simp only [hfind] at hreply ⊢
        split_ifs at hreply ⊢ with hzero
        obtain rfl := Except.ok.inj hreply
        exact hear_taken ht hm hfind (by omega) (by omega) (Or.inl rfl) rfl rfl rfl rfl rfl
    | execute id qty =>
      simp only [Market.apply, Market.execute] at hreply ⊢
      cases hfind : m.find id with
      | none => simp [hfind] at hreply
      | some p =>
        obtain ⟨s, px, n⟩ := p
        simp only [hfind] at hreply ⊢
        split_ifs at hreply ⊢ with hzero hover
        obtain rfl := Except.ok.inj hreply
        exact hear_taken ht hm hfind (by omega) (by omega) (Or.inr (Or.inl rfl)) rfl rfl rfl rfl rfl
    | delete id =>
      simp only [Market.apply, Market.delete] at hreply ⊢
      cases hfind : m.find id with
      | none => simp [hfind] at hreply
      | some p =>
        obtain ⟨s, px, n⟩ := p
        simp only [hfind] at hreply ⊢
        obtain rfl := Except.ok.inj hreply
        exact hear_taken ht hm hfind (hm.held_pos hfind) (Nat.add_zero n)
          (Or.inr (Or.inr ⟨rfl, rfl⟩)) rfl rfl rfl rfl rfl
    | replace old new px qty =>
      obtain ⟨-, hhigh⟩ := int32_bounds px
      simp only [Market.apply, Market.replace] at hreply ⊢
      cases hfind : m.find old with
      | none => simp [hfind] at hreply
      | some p =>
        obtain ⟨s, oldPx, n⟩ := p
        simp only [hfind] at hreply ⊢
        by_cases hdup : (m.home new).isSome
        · rw [if_pos hdup] at hreply
          cases hreply
        rw [if_neg hdup] at hreply ⊢
        by_cases hzero : qty.toNat = 0
        · rw [if_pos hzero] at hreply
          cases hreply
        rw [if_neg hzero] at hreply ⊢
        by_cases hneg : px.toInt ≤ 0
        · rw [if_pos hneg] at hreply
          cases hreply
        rw [if_neg hneg] at hreply ⊢
        by_cases hfull : 2 ^ 32 ≤ total (m.queue s px.toInt) -
            (if px.toInt = oldPx then n else 0) + qty.toNat
        · rw [if_pos hfull] at hreply
          cases hreply
        rw [if_neg hfull] at hreply ⊢
        obtain rfl := Except.ok.inj hreply
        exact hear_replaced ht hm hfind (Option.not_isSome_iff_eq_none.mp hdup)
          ⟨by omega, hhigh⟩ (by omega) (uint32_bound qty)

theorem hear_run {t : Table} {m : Market} (ht : Tracks t m) (hm : m.WF) (ops : List Op) :
    ∃ t', hearAll t ((m.applyAll ops).1.map loggedEvent) = some t' ∧
      Tracks t' (m.applyAll ops).2 := by
  induction ops generalizing t m with
  | nil => exact ⟨t, rfl, ht⟩
  | cons op ops ih =>
    obtain ⟨t₁, hhear, ht₁⟩ := hear_step ht hm op
    obtain ⟨t', hrest, ht'⟩ := ih ht₁ (hm.apply op)
    refine ⟨t', ?_, ht'⟩
    rw [Market.applyAll, List.map_cons, hearAll, hhear, Option.bind_some, hrest]

/-- A cancel, an execution and a delete name the side and the price of their order and, in what
they take and leave, its shares; a replace names the side. -/
def Names (t : Table) (ev : Event) : Prop :=
  (ev.kind = .cancel ∨ ev.kind = .exec ∨ ev.kind = .delete → ∃ s, ev.side = s.code ∧
    t.get? ev.a = some (s, ev.px.toInt, ev.qty.toNat + ev.b.toNat)) ∧
  (ev.kind = .replace → ∃ s px n, ev.side = s.code ∧ t.get? ev.a = some (s, px, n))

theorem names_of_hear {t t' : Table} {ev : Event} (h : hear t ev = some t') : Names t ev := by
  constructor
  · intro hk
    have htake : hearTake t ev = some t' := by
      unfold hear at h
      rcases hk with hk | hk | hk <;> rwa [hk] at h
    obtain ⟨⟨s, px, n⟩, hget, hsome⟩ := Option.bind_eq_some_iff.mp htake
    split at hsome
    case isFalse => cases hsome
    case isTrue hfit =>
      obtain ⟨hside, hpx, -, hsum, -⟩ := hfit
      exact ⟨s, hside, by rw [hget, hpx, hsum]⟩
  · intro hk
    have hreplace : hearReplace t ev = some t' := by
      unfold hear at h
      rwa [hk] at h
    obtain ⟨⟨s, px, n⟩, hget, hsome⟩ := Option.bind_eq_some_iff.mp hreplace
    split at hsome
    case isFalse => cases hsome
    case isTrue hfit => exact ⟨s, px, n, hfit.1, hget⟩

theorem hearAll_append (t : Table) (pre post : List Event) :
    hearAll t (pre ++ post) = (hearAll t pre).bind fun t' => hearAll t' post := by
  induction pre generalizing t with
  | nil => rfl
  | cons ev pre ih =>
    rw [List.cons_append, hearAll, hearAll]
    cases hear t ev with
    | none => rfl
    | some t' => exact ih t'

/-- Every event of a log that fits names what the table had before it. -/
theorem names_of_hearAll {t t' : Table} {pre post : List Event} {ev : Event}
    (h : hearAll t (pre ++ ev :: post) = some t') :
    ∃ t₁, hearAll t pre = some t₁ ∧ Names t₁ ev := by
  rw [hearAll_append] at h
  obtain ⟨t₁, hpre, h⟩ := Option.bind_eq_some_iff.mp h
  obtain ⟨t₂, hev, -⟩ := Option.bind_eq_some_iff.mp h
  exact ⟨t₁, hpre, names_of_hear hev⟩

/-! The table and the levels. -/

/-- The orders of the table at one price of one side, in order of their ids. -/
def tableAt (t : Table) (s : Side) (px : ℤ) : Queue :=
  (t.entries.filter fun e => decide (e.2.1 = s ∧ e.2.2.1 = px)).map fun e => (e.1, e.2.2.2)

theorem mem_tableAt {t : Table} {s : Side} {px : ℤ} {id : OrderId} {n : ℕ} :
    (id, n) ∈ tableAt t s px ↔ t.get? id = some (s, px, n) := by
  rw [tableAt, List.mem_map, SortedMap.get?_eq_some_iff]
  constructor
  · rintro ⟨⟨i, s', px', k⟩, hmem, heq⟩
    obtain ⟨hin, hat⟩ := List.mem_filter.mp hmem
    obtain ⟨rfl, rfl⟩ := Prod.mk.inj heq
    obtain ⟨rfl, rfl⟩ := of_decide_eq_true hat
    exact hin
  · intro hmem
    exact ⟨(id, s, px, n), List.mem_filter.mpr ⟨hmem, decide_eq_true ⟨rfl, rfl⟩⟩, rfl⟩

theorem nodup_tableAt (t : Table) (s : Side) (px : ℤ) : (tableAt t s px).Nodup := by
  refine List.Nodup.of_map Prod.fst ?_
  rw [tableAt, List.map_map]
  exact (List.filter_sublist.map _).nodup t.keys_nodup

theorem mem_queue_iff_find {m : Market} (hm : m.WF) {s : Side} {px : ℤ} {id : OrderId} {n : ℕ} :
    (id, n) ∈ m.queue s px ↔ m.find id = some (s, px, n) := by
  rw [Market.find_eq_some]
  constructor
  · intro hmem
    have hid : id ∈ ids (m.queue s px) := List.mem_map_of_mem hmem
    refine ⟨(hm.home_iff id s px).mpr hid, ?_⟩
    obtain ⟨k, hk⟩ := remaining_isSome_iff.mpr hid
    obtain ⟨xs, ys, hq, hxs, hys⟩ := split_of_remaining hk (hm.nodup s px)
    rw [hq] at hmem
    rcases List.mem_append.mp hmem with hin | hin
    · exact absurd (List.mem_map_of_mem hin) hxs
    · rcases List.mem_cons.mp hin with heq | hin
      · rw [hk, (Prod.mk.inj heq).2]
      · exact absurd (List.mem_map_of_mem hin) hys
  · rintro ⟨-, hrem⟩
    exact remaining_mem hrem

/-- The table has every level of the book, but for the order of its queue. -/
theorem tableAt_perm {t : Table} {m : Market} (ht : Tracks t m) (hm : m.WF) (s : Side) (px : ℤ) :
    (tableAt t s px).Perm (m.queue s px) := by
  have hnodup : (m.queue s px).Nodup := List.Nodup.of_map Prod.fst (hm.nodup s px)
  refine (List.perm_ext_iff_of_nodup (nodup_tableAt t s px) hnodup).mpr fun e => ?_
  rw [mem_tableAt, ht e.1, mem_queue_iff_find hm]

theorem length_of_tracks {t : Table} {m : Market} (ht : Tracks t m) (hm : m.WF) :
    t.length = m.live := by
  refine (Market.live_eq_map_length t fun id => ?_).symm
  rw [← contains_iff_home ht hm, SortedMap.contains, Option.isSome_iff_exists]

/-! The orders of a snapshot. -/

/-- No order stands in a snapshot twice. -/
theorem once_snapshot {m : Market} (hm : m.WF) : (m.snapshot.flatMap fun e => ids e.2.2).Nodup := by
  have hqueue : ∀ {e : Side × ℤ × Queue}, e ∈ m.snapshot → m.queue e.1 e.2.1 = e.2.2 :=
    fun he => (hm.mem_snapshot.mp he).1
  have hkeys := List.pairwise_map.mp (snapshot_keys_nodup hm.isLevels)
  refine List.nodup_flatMap.mpr ⟨fun e he => hqueue he ▸ hm.nodup e.1 e.2.1, ?_⟩
  refine hkeys.imp_of_mem fun {e f} he hf hne id hid hid' => hne ?_
  have hhome := (hm.home_iff id e.1 e.2.1).mpr (hqueue he ▸ hid)
  have hhome' := (hm.home_iff id f.1 f.2.1).mpr (hqueue hf ▸ hid')
  exact Option.some.inj (hhome.symm.trans hhome')

/-- The orders of the table, in order of their ids, are those of all levels. -/
theorem orders_perm {t : Table} {m : Market} (ht : Tracks t m) (hm : m.WF) :
    (t.entries.map fun e => (e.1, e.2.2.2)).Perm (m.snapshot.flatMap fun e => e.2.2) := by
  have htable : (t.entries.map fun e => (e.1, e.2.2.2)).Nodup := by
    refine List.Nodup.of_map Prod.fst ?_
    rw [List.map_map]
    exact t.keys_nodup
  have hsnapshot : (m.snapshot.flatMap fun e => e.2.2).Nodup := by
    refine List.Nodup.of_map Prod.fst ?_
    rw [List.map_flatMap]
    exact once_snapshot hm
  refine (List.perm_ext_iff_of_nodup htable hsnapshot).mpr fun o => ?_
  rw [List.mem_map, List.mem_flatMap]
  constructor
  · rintro ⟨⟨id, s, px, n⟩, hmem, rfl⟩
    have hfind : m.find id = some (s, px, n) :=
      (ht id).symm.trans (SortedMap.get?_eq_some_iff.mpr hmem)
    have hrests := (mem_queue_iff_find hm).mpr hfind
    exact ⟨(s, px, m.queue s px),
      hm.mem_snapshot.mpr ⟨rfl, List.ne_nil_of_mem hrests⟩, hrests⟩
  · rintro ⟨⟨s, px, q⟩, hmem, hrests⟩
    obtain ⟨rfl, -⟩ := hm.mem_snapshot.mp hmem
    have hfind := (mem_queue_iff_find hm).mp (show (o.1, o.2) ∈ m.queue s px from hrests)
    exact ⟨(o.1, s, px, o.2), SortedMap.get?_eq_some_iff.mp ((ht o.1).trans hfind), rfl⟩

/-! Shares: `mine` picks the orders whose shares are counted. -/

/-- The shares that rest in a snapshot. -/
def resting (mine : OrderId → Bool) (v : Snapshot) : ℕ :=
  ((v.flatMap fun e => e.2.2).map fun o => if mine o.1 then o.2 else 0).sum

/-- The shares that rest in the table. -/
def tabled (mine : OrderId → Bool) (t : Table) : ℕ :=
  (t.entries.map fun e => if mine e.1 then e.2.2.2 else 0).sum

/-- The shares that an event places. -/
def placedBy (mine : OrderId → Bool) (ev : Event) : ℕ :=
  match ev.kind with
  | .add => if mine ev.a then ev.qty.toNat else 0
  | .replace => if mine ev.b then ev.qty.toNat else 0
  | _ => 0

/-- The shares that an event cancels, executes or deletes. -/
def takenBy (mine : OrderId → Bool) (ev : Event) : ℕ :=
  match ev.kind with
  | .cancel | .exec | .delete => if mine ev.a then ev.qty.toNat else 0
  | _ => 0

/-- The shares the table has for an order, none for one that is not live. -/
def held (t : Table) (id : OrderId) : ℕ := ((t.get? id).map fun e => e.2.2).getD 0

/-- The shares of the order that an event puts another one in the place of. -/
def displacedBy (mine : OrderId → Bool) (t : Table) (ev : Event) : ℕ :=
  match ev.kind with
  | .replace => if mine ev.a then held t ev.a else 0
  | _ => 0

/-- The events of a log, each with the table in front of it. -/
def hearings : Table → List Event → List (Table × Event)
  | _, [] => []
  | t, ev :: evs => (t, ev) :: (hear t ev).elim [] fun t' => hearings t' evs

section Heard

variable {mine : OrderId → Bool} {t t' : Table} {ev : Event}

theorem tabled_insert (t : Table) (id : OrderId) (s : Side) (px : ℤ) (n : ℕ) :
    tabled mine (t.insert id (s, px, n)) =
      (if mine id then n else 0) + tabled mine (t.erase id) := by
  have hsum := ((t.entries_insert_perm id (s, px, n)).map fun e =>
    if mine e.1 then e.2.2.2 else 0).sum_nat
  rwa [List.map_cons, List.sum_cons] at hsum

theorem tabled_of_mem {id : OrderId} {s : Side} {px : ℤ} {n : ℕ}
    (h : t.get? id = some (s, px, n)) :
    tabled mine t = (if mine id then n else 0) + tabled mine (t.erase id) := by
  have hsum := ((SortedMap.entries_perm_of_mem h).map fun e =>
    if mine e.1 then e.2.2.2 else 0).sum_nat
  rwa [List.map_cons, List.sum_cons] at hsum

theorem tabled_leave (t : Table) (id : OrderId) (s : Side) (px : ℤ) (rest : ℕ) :
    tabled mine (leave t id s px rest) =
      (if mine id then rest else 0) + tabled mine (t.erase id) := by
  unfold leave
  by_cases hzero : rest = 0
  · rw [if_pos hzero, hzero, ite_self, Nat.zero_add]
  · rw [if_neg hzero, tabled_insert]

theorem get?_eq_none_of_contains {id : OrderId} (h : ¬ t.contains id = true) : t.get? id = none :=
  Option.not_isSome_iff_eq_none.mp h

theorem tabled_add (h : hearAdd t ev = some t') :
    (if mine ev.a then ev.qty.toNat else 0) + tabled mine t = tabled mine t' := by
  unfold hearAdd at h
  split at h
  case isTrue => cases h
  case isFalse hfree =>
    obtain ⟨s, -, rfl⟩ := Option.map_eq_some_iff.mp h
    have hfresh := get?_eq_none_of_contains fun hin => hfree (Or.inl hin)
    rw [tabled_insert, SortedMap.erase_of_fresh hfresh]

theorem tabled_take (h : hearTake t ev = some t') :
    tabled mine t = (if mine ev.a then ev.qty.toNat else 0) + tabled mine t' := by
  obtain ⟨⟨s, px, n⟩, hget, h⟩ := Option.bind_eq_some_iff.mp h
  split at h
  case isFalse => cases h
  case isTrue hfit =>
    obtain rfl := Option.some.inj h
    obtain ⟨-, -, -, hsum, -⟩ := hfit
    rw [tabled_of_mem hget, tabled_leave]
    change ev.qty.toNat + ev.b.toNat = n at hsum
    split_ifs <;> omega

theorem tabled_replace (h : hearReplace t ev = some t') :
    (if mine ev.b then ev.qty.toNat else 0) + tabled mine t =
      (if mine ev.a then held t ev.a else 0) + tabled mine t' := by
  obtain ⟨⟨s, px, n⟩, hget, h⟩ := Option.bind_eq_some_iff.mp h
  split at h
  case isFalse => cases h
  case isTrue hfit =>
    obtain rfl := Option.some.inj h
    have hheld : held t ev.a = n := by
      rw [held, hget]
      rfl
    have hfresh : (t.erase ev.a).get? ev.b = none := by
      rw [SortedMap.get?_erase, get?_eq_none_of_contains hfit.2.1, ite_self]
    rw [tabled_insert, SortedMap.erase_of_fresh hfresh, tabled_of_mem hget, hheld]
    omega

theorem hear_reject_same (h : hearReject t ev = some t') : t' = t := by
  unfold hearReject at h
  split at h
  · obtain ⟨e, -, h⟩ := Option.bind_eq_some_iff.mp h
    split at h
    · exact (Option.some.inj h).symm
    · cases h
  · split at h
    · split at h
      · exact (Option.some.inj h).symm
      · cases h
    · exact (Option.some.inj h).symm

/-- What an event places and what was there is what it takes away and what is there then. -/
theorem tabled_heard (h : hear t ev = some t') : placedBy mine ev + tabled mine t =
    takenBy mine ev + displacedBy mine t ev + tabled mine t' := by
  unfold hear at h
  unfold placedBy takenBy displacedBy
  cases hk : ev.kind with
  | add =>
    rw [hk] at h
    dsimp only at h ⊢
    rw [← tabled_add h, Nat.zero_add]
  | cancel =>
    rw [hk] at h
    dsimp only at h ⊢
    rw [tabled_take h, Nat.zero_add, Nat.add_zero]
  | exec =>
    rw [hk] at h
    dsimp only at h ⊢
    rw [tabled_take h, Nat.zero_add, Nat.add_zero]
  | delete =>
    rw [hk] at h
    dsimp only at h ⊢
    rw [tabled_take h, Nat.zero_add, Nat.add_zero]
  | replace =>
    rw [hk] at h
    dsimp only at h ⊢
    rw [tabled_replace h, Nat.zero_add]
  | unknown =>
    rw [hk] at h
    dsimp only at h ⊢
    split at h
    · cases h
    · rw [Option.some.inj h]
  | reject =>
    rw [hk] at h
    dsimp only at h ⊢
    rw [hear_reject_same h]
  | _ =>
    rw [hk] at h
    cases h

theorem tabled_heardAll {evs : List Event} (h : hearAll t evs = some t') :
    (evs.map (placedBy mine)).sum + tabled mine t = (evs.map (takenBy mine)).sum +
      ((hearings t evs).map fun p => displacedBy mine p.1 p.2).sum + tabled mine t' := by
  induction evs generalizing t with
  | nil =>
    obtain rfl := Option.some.inj h
    rfl
  | cons ev evs ih =>
    obtain ⟨t₁, hhear, hrest⟩ := Option.bind_eq_some_iff.mp h
    have hone := @tabled_heard mine t t₁ ev hhear
    have hmore := ih hrest
    simp only [hearings, hhear, Option.elim_some, List.map_cons, List.sum_cons]
    omega

end Heard

theorem resting_eq {t : Table} {m : Market} (ht : Tracks t m) (hm : m.WF)
    (mine : OrderId → Bool) : resting mine m.snapshot = tabled mine t := by
  have hsum := ((orders_perm ht hm).map fun o => if mine o.1 then o.2 else 0).sum_nat
  rw [List.map_map] at hsum
  exact hsum.symm

/-- Of one order there rests what remains of it. -/
theorem resting_one {m : Market} (hm : m.WF) {t : Table} (ht : Tracks t m) (id : OrderId) :
    resting (fun j => decide (j = id)) m.snapshot = shares m.snapshot id := by
  have hgone : tabled (fun j => decide (j = id)) (t.erase id) = 0 := by
    refine List.sum_eq_zero fun n hn => ?_
    obtain ⟨e, he, rfl⟩ := List.mem_map.mp hn
    exact if_neg fun hid => of_decide_eq_true (List.mem_filter.mp he).2 (of_decide_eq_true hid)
  rw [resting_eq ht hm, shares_eq hm, ← ht id]
  cases hget : t.get? id with
  | none => rw [← SortedMap.erase_of_fresh hget, hgone]; rfl
  | some e =>
    obtain ⟨s, px, n⟩ := e
    rw [tabled_of_mem hget, hgone, if_pos (decide_eq_true rfl)]
    rfl

/-- Of all orders there rest the totals of the levels. -/
theorem resting_all (v : Snapshot) :
    resting (fun _ => true) v = (v.map fun e => total e.2.2).sum := by
  induction v with
  | nil => rfl
  | cons e v ih =>
    rw [List.map_cons, List.sum_cons, ← ih]
    simp only [resting, List.flatMap_cons, List.map_append, List.sum_append, if_true]
    rfl

/-! Books. -/

theorem tracks_empty : Tracks .empty .empty := fun _ => rfl

/-- A log that a book has written fits the table at every event, which names what the table has
of its order before it. The table in the end is that of the book: every level but for the order of
its queue, and as many orders as are live. -/
theorem log_table {b₀ b : LocateBook} (h₀ : Fresh b₀) {ops : List Op} {replies : List Reply}
    (hrun : run LocateBook.apply b₀ ops = .ok (replies, b)) : ∃ t v,
    hearAll .empty (replies.map loggedEvent) = some t ∧ b.snapshot = .ok v ∧
      (∀ s px, (tableAt t s px).Perm (queueAt v s px)) ∧ t.length = b.liveOrders ∧
      ∀ pre ev post, replies.map loggedEvent = pre ++ ev :: post →
        ∃ t₁, hearAll .empty pre = some t₁ ∧ Names t₁ ev := by
  obtain ⟨rfl, hb, -⟩ := follows_of_run h₀.refines hrun
  obtain ⟨t, hhear, ht⟩ := hear_run tracks_empty Market.wf_empty ops
  have hm := Market.wf_empty.applyAll ops
  refine ⟨t, _, hhear, hb.snapshot_eq, fun s px => ?_, ?_, fun pre ev post hlog => ?_⟩
  · rw [queueAt_eq hm]
    exact tableAt_perm ht hm s px
  · rw [hb.liveOrders_eq, length_of_tracks ht hm]
  · exact names_of_hearAll (hlog ▸ hhear)

/-- Orders filled, cancelled and replaced; one call is refused. -/
def mixedFills : List Op := [.add 1 .bid 105 9, .add 2 .bid 105 4, .execute 1 2, .execute 2 5,
  .cancel 1 3, .replace 2 3 105 6, .add 4 .ask 110 5, .delete 4]

/-- What the log of these calls says. -/
def mixedLog : List Event := [.add 1 .bid 105 9, .add 2 .bid 105 4, .exec 1 .bid 105 2 7,
  .reject .exec 2 5, .cancel 1 .bid 105 3 4, .replace 2 3 .bid 105 6, .add 4 .ask 110 5,
  .delete 4 .ask 110 5]

def filled : Exec (ArrayBook × List Reply × LocateBook) := do
  let b₀ ← ArrayBook.new ⟨100, 4, 5⟩
  let p ← run LocateBook.apply (.array b₀) mixedFills
  return (b₀, p.1, p.2)

theorem filled_returns : ∃ b₀ replies b, ArrayBook.new ⟨100, 4, 5⟩ = .ok b₀ ∧
    run LocateBook.apply (.array b₀) mixedFills = .ok (replies, b) ∧
    replies.map loggedEvent = mixedLog := by
  obtain ⟨⟨b₀, replies, b⟩, hrun, hlog⟩ := ok_of_any (x := filled)
    (f := fun p => decide (p.2.1.map loggedEvent = mixedLog)) (by decide +kernel)
  obtain ⟨ab, hnew, hrun⟩ := bind_eq_ok.mp hrun
  obtain ⟨p, hops, hrun⟩ := bind_eq_ok.mp hrun
  simp only [pure_eq_ok, Except.ok.injEq, Prod.mk.injEq] at hrun
  obtain ⟨rfl, rfl, rfl⟩ := hrun
  exact ⟨ab, p.1, p.2, hnew, hops, of_decide_eq_true hlog⟩

theorem log_table_filled : ∃ b₀ replies b t v t₁, ArrayBook.new ⟨100, 4, 5⟩ = .ok b₀ ∧
    run LocateBook.apply (.array b₀) mixedFills = .ok (replies, b) ∧
    hearAll .empty (replies.map loggedEvent) = some t ∧ b.snapshot = .ok v ∧
    (tableAt t .bid 105).Perm (queueAt v .bid 105) ∧ t.length = b.liveOrders ∧
    hearAll .empty (mixedLog.take 4) = some t₁ ∧ t₁.get? 1 = some (.bid, 105, 7) := by
  obtain ⟨b₀, replies, b, hnew, hops, hlog⟩ := filled_returns
  obtain ⟨t, v, hhear, hv, hperm, hlen, hnames⟩ :=
    log_table (.array (by constructor <;> decide) hnew) hops
  obtain ⟨t₁, hpre, hone, -⟩ := hnames (mixedLog.take 4) (.cancel 1 .bid 105 3 4)
    (mixedLog.drop 5) hlog
  obtain ⟨s, hside, hget⟩ := hone (Or.inl rfl)
  obtain rfl : s = .bid := by
    cases s with
    | bid => rfl
    | ask => cases hside
  exact ⟨b₀, replies, b, t, v, t₁, hnew, hops, hhear, hv, hperm .bid 105, hlen, hpre, hget⟩

/-- Shares are conserved, for one order as for any group of them and for all: what the accepted
adds and replaces placed is what was cancelled, executed and deleted, what was left of orders when
another one took their place, and what rests. -/
theorem shares_conserved {b₀ b : LocateBook} (h₀ : Fresh b₀) {ops : List Op}
    {replies : List Reply} (hrun : run LocateBook.apply b₀ ops = .ok (replies, b)) :
    ∃ v, b.snapshot = .ok v ∧
      (∀ mine, ((replies.map loggedEvent).map (placedBy mine)).sum =
        ((replies.map loggedEvent).map (takenBy mine)).sum +
          ((hearings .empty (replies.map loggedEvent)).map fun p => displacedBy mine p.1 p.2).sum +
            resting mine v) ∧
      (∀ id, resting (fun j => decide (j = id)) v = shares v id) ∧
      resting (fun _ => true) v = (v.map fun e => total e.2.2).sum := by
  obtain ⟨rfl, hb, -⟩ := follows_of_run h₀.refines hrun
  obtain ⟨t, hhear, ht⟩ := hear_run tracks_empty Market.wf_empty ops
  have hm := Market.wf_empty.applyAll ops
  refine ⟨_, hb.snapshot_eq, fun mine => ?_, fun id => resting_one hm ht id, resting_all _⟩
  rw [resting_eq ht hm]
  exact tabled_heardAll hhear

/-- Of the twenty-four shares ten are taken, four were left of the replaced order, ten rest. -/
theorem shares_conserved_filled : ∃ b₀ replies b v, ArrayBook.new ⟨100, 4, 5⟩ = .ok b₀ ∧
    run LocateBook.apply (.array b₀) mixedFills = .ok (replies, b) ∧ b.snapshot = .ok v ∧
    24 = 10 + 4 + (v.map fun e => total e.2.2).sum ∧ 4 = 0 + 4 + shares v 2 := by
  obtain ⟨b₀, replies, b, hnew, hops, hlog⟩ := filled_returns
  obtain ⟨v, hv, hsums, hone, hall⟩ :=
    shares_conserved (.array (by constructor <;> decide) hnew) hops
  rw [hlog] at hsums
  refine ⟨b₀, replies, b, v, hnew, hops, hv, ?_, ?_⟩
  · rw [← hall]
    exact hsums fun _ => true
  · rw [← hone]
    exact hsums fun j => decide (j = 2)

end Lobcore.OrderTables
