import Lobcore.SessionRuns
import Mathlib.Algebra.BigOperators.Group.Finset.Basic
import Mathlib.Algebra.BigOperators.Ring.Finset

/-!
The ledger of a replay: the counters that follow the replies of the markets. A message
changes it only through the reply to its call, and moves each live count by the step of the
event; so the counts are those of the markets, in the width they have.
-/
namespace Lobcore.Ledgers

open Checked OrderTypes Markets Payloads SessionStats Sessions Replays SessionRuns

theorem ofNat_eq_zero_iff {n : ℕ} (h : n < 2 ^ 64) : UInt64.ofNat n = 0 ↔ n = 0 := by
  rw [← UInt64.toNat_inj, UInt64.toNat_ofNat_of_lt' h]
  rfl

/-- An accepted call moves the number of live orders by the step of its event. -/
theorem live_apply {m : Market} (hm : m.WF) {op : Op} {ev : Event}
    (h : (m.apply op).1 = .ok ev) : ((m.apply op).2.live : ℤ) = m.live + liveDelta ev := by
  have hpos : ∀ {id s px n}, m.find id = some (s, px, n) → 0 < m.live := by
    intro id s px n hfind
    exact (Set.ncard_pos (Set.toFinite _)).mpr ⟨id, by simp [(Market.find_eq_some.mp hfind).1]⟩
  rcases m.apply_cases op with ⟨e, he⟩ | ⟨id, s, px, qty, hid, he⟩ |
    ⟨id, s, px, n, rest, ev', hfind, hrest, hev, he⟩ |
    ⟨old, new, s, oldPx, n, px, qty, hfind, hgone, he⟩
  · rw [he] at h
    cases h
  · rw [he] at h ⊢
    obtain rfl := Except.ok.inj h
    rw [Market.live_push hid]
    rfl
  · rw [he] at h ⊢
    obtain rfl := Except.ok.inj h
    have hlt := hm.held_lt hfind
    have hlive := hpos hfind
    have hzero := ofNat_eq_zero_iff (n := rest) (by omega)
    rw [Market.live_take hfind]
    rcases hev with ⟨hkind, rfl⟩ | ⟨hkind | hkind, hb⟩
    · simp only [liveDelta, hkind, if_true]
      omega
    · simp only [liveDelta, hkind, hb, hzero]
      split <;> omega
    · simp only [liveDelta, hkind, hb, hzero]
      split <;> omega
  · rw [he] at h ⊢
    obtain rfl := Except.ok.inj h
    have hlive := hpos hfind
    rw [Market.live_push hgone, Market.live_take hfind, if_pos rfl]
    simp only [liveDelta, Event.replace]
    omega

/-- The counters that follow the replies. -/
structure Ledger where
  live : ℕ
  liveHwm : ℕ
  /-- Live count and its high-water mark, by locate. -/
  locate : ℕ → ℕ × ℕ
  rejects : ℕ
  badSide : ℕ

/-- The rejected order messages, whatever the reason. -/
def rejects (st : Stats) : ℕ :=
  st.unknownId + st.overExecute + st.duplicateId + st.badQty + st.badPrice + st.badSide

def ledger (st : Stats) : Ledger where
  live := st.live
  liveHwm := st.liveHwm
  locate l := st.locates[l]?.elim (0, 0) fun ls => (ls.live, ls.liveHwm)
  rejects := rejects st
  badSide := st.badSide

namespace Ledger

/-- A live count and its mark after a signed step in `w` bits. -/
def move (w : ℕ) (d : ℤ) (p : ℕ × ℕ) : ℕ × ℕ :=
  (((p.1 + d) % 2 ^ w).toNat, max p.2 ((p.1 + d) % 2 ^ w).toNat)

def reply (g : Ledger) (l : ℕ) : Reply → Ledger
  | .ok ev =>
    { g with
      live := (move 64 (liveDelta ev) (g.live, g.liveHwm)).1
      liveHwm := (move 64 (liveDelta ev) (g.live, g.liveHwm)).2
      locate := Function.update g.locate l (move 32 (liveDelta ev) (g.locate l)) }
  | .error _ => { g with rejects := g.rejects + 1 }

theorem move_zero {w : ℕ} {p : ℕ × ℕ} (hlt : p.1 < 2 ^ w) (hle : p.1 ≤ p.2) : move w 0 p = p := by
  have hlive : (((p.1 : ℤ) + 0) % 2 ^ w).toNat = p.1 := by
    rw [add_zero, Int.emod_eq_of_lt (Int.natCast_nonneg _) (by exact_mod_cast hlt),
      Int.toNat_natCast]
  simp only [move, hlive, max_eq_left hle]

/-- Every live count fits its width and is at most its mark. -/
structure Within (g : Ledger) : Prop where
  live_lt : g.live < 2 ^ 64
  live_le : g.live ≤ g.liveHwm
  locate_lt : ∀ l, (g.locate l).1 < 2 ^ 32
  locate_le : ∀ l, (g.locate l).1 ≤ (g.locate l).2

end Ledger

/-! What leaves the ledger alone. -/

section Ledger

variable (st : Stats) (l : ℕ)

theorem ledger_onLocate {f : LocateStats → LocateStats}
    (hf : ∀ ls, (f ls).live = ls.live ∧ (f ls).liveHwm = ls.liveHwm) :
    ledger (st.onLocate l f) = ledger st := by
  have hlocate : (ledger (st.onLocate l f)).locate = (ledger st).locate := by
    funext i
    simp only [ledger, Stats.onLocate, List.getElem?_modify]
    cases st.locates[i]? with
    | none => rfl
    | some ls =>
      by_cases hi : l = i
      · simp [hi, hf]
      · simp [hi]
  exact congrArg (fun g => { ledger st with locate := g }) hlocate

theorem ledger_grow : ledger (st.grow l) = ledger st := by
  have hlocate : (ledger (st.grow l)).locate = (ledger st).locate := by
    funext i
    simp only [ledger, Stats.grow, growTo_getElem?]
    split
    · rfl
    · rename_i hi
      rw [List.getElem?_eq_none (not_lt.mp hi)]
      split <;> rfl
  exact congrArg (fun g => { ledger st with locate := g }) hlocate

theorem ledger_noteMessage (ty : UInt8) (ts : Option UInt64) :
    ledger (st.noteMessage ty ts) = ledger st := by
  cases ts <;> rfl

theorem locates_noteMessage (ty : UInt8) (ts : Option UInt64) :
    (st.noteMessage ty ts).locates = st.locates := by
  cases ts <;> rfl

theorem ledger_moveLive (d : ℤ) (hl : l < st.locates.length) :
    ledger ((st.onLocate l (.moveLive d)).moveLive d) =
      { ledger st with
        live := (Ledger.move 64 d (st.live, st.liveHwm)).1
        liveHwm := (Ledger.move 64 d (st.live, st.liveHwm)).2
        locate := Function.update (ledger st).locate l
          (Ledger.move 32 d ((ledger st).locate l)) } := by
  have hlocate : (ledger ((st.onLocate l (.moveLive d)).moveLive d)).locate =
      Function.update (ledger st).locate l (Ledger.move 32 d ((ledger st).locate l)) := by
    funext i
    simp only [ledger, Stats.onLocate, Stats.moveLive, List.getElem?_modify]
    by_cases hi : i = l
    · subst hi
      rw [Function.update_self, List.getElem?_eq_getElem hl]
      simp [LocateStats.moveLive, Ledger.move]
    · rw [Function.update_of_ne hi]
      simp [Ne.symm hi]
  exact congrArg (fun g => { ledger st with
    live := (Ledger.move 64 d (st.live, st.liveHwm)).1
    liveHwm := (Ledger.move 64 d (st.live, st.liveHwm)).2
    locate := g }) hlocate

/-- The counters of a reply are the ledger's reply. -/
theorem ledger_noteReply {l : ℕ} (hl : l < st.locates.length) (hbal : (ledger st).Within)
    (r : Reply) : ledger (noteReply st l r) = (ledger st).reply l r := by
  cases r with
  | error e => cases e <;> simp [noteReply, ledger, Ledger.reply, Stats.countError, rejects] <;>
    omega
  | ok ev =>
    by_cases hd : liveDelta ev = 0
    · have hglobal := Ledger.move_zero (w := 64)
        (p := (st.live, st.liveHwm)) hbal.live_lt hbal.live_le
      have hlocal := Ledger.move_zero (w := 32) (p := (ledger st).locate l) (hbal.locate_lt l)
        (hbal.locate_le l)
      rw [noteReply, if_neg (not_not.mpr hd), Ledger.reply, hd]
      show _ = { ledger st with
        live := (Ledger.move 64 0 (st.live, st.liveHwm)).1
        liveHwm := (Ledger.move 64 0 (st.live, st.liveHwm)).2
        locate := Function.update (ledger st).locate l
          (Ledger.move 32 0 ((ledger st).locate l)) }
      rw [hglobal, hlocal, Function.update_eq_self]
      rfl
    · rw [noteReply, if_pos hd, ledger_moveLive st l _ hl]
      rfl

end Ledger

/-! What one message does to the ledger. -/

/-- Every locate with a market has counters. -/
def Seen (a : Replay) : Prop := ∀ l, (a.market l).isSome → l < a.stats.locates.length

/-- How a message concerns the accounts. -/
inductive Effect where
  | none
  | badSide
  | reply (l : ℕ) (r : Reply)

def effect (a : Replay) : Body → Effect
  | .order l o => o.op.elim .badSide fun op => .reply l.toNat ((a.marketOf l).apply op).1
  | _ => .none

theorem effect_none {a : Replay} {l : UInt16} {o : Order} (ho : o.op = none) :
    effect a (.order l o) = .badSide := by rw [effect, ho]; rfl

theorem effect_some {a : Replay} {l : UInt16} {o : Order} {op : Op} (ho : o.op = some op) :
    effect a (.order l o) = .reply l.toNat ((a.marketOf l).apply op).1 := by rw [effect, ho]; rfl

def Ledger.post (g : Ledger) : Effect → Ledger
  | .none => g
  | .badSide => { g with rejects := g.rejects + 1, badSide := g.badSide + 1 }
  | .reply l r => g.reply l r

section Steps

variable (a : Replay) (l : UInt16)

theorem ledger_openMarket : ledger (a.openMarket l).stats = ledger a.stats := by
  unfold Replay.openMarket
  split
  · rfl
  · exact ledger_onLocate a.stats l.toNat (f := fun ls => { ls with hasBook := true })
      fun _ => ⟨rfl, rfl⟩

theorem ledger_touch : ledger (a.touch l).stats = ledger a.stats := by
  have hcount : ∀ st : Stats,
      ledger (st.onLocate l.toNat fun ls => { ls with msgs := ls.msgs + 1 }) =
      ledger st := fun st => ledger_onLocate st l.toNat fun _ => ⟨rfl, rfl⟩
  unfold Replay.touch
  cases a.market l.toNat with
  | some m => exact hcount a.stats
  | none =>
    refine (hcount _).trans ((ledger_openMarket _ l).trans ?_)
    exact ledger_grow a.stats l.toNat

theorem ledger_placeholder (o : Order) : ledger (a.placeholder o).stats = ledger a.stats := by
  unfold Replay.placeholder
  split
  · split <;> rfl
  · rfl

theorem ledger_accepted (m : Market) (ev : Event) (o : Order) :
    ledger (a.accepted m ev o).stats = ledger a.stats := by
  unfold Replay.accepted
  split
  · rfl
  · split <;> rfl
  · rfl

theorem ledger_checkCrossed : ledger (a.checkCrossed l).stats = ledger a.stats := by
  unfold Replay.checkCrossed Replay.countCrossed
  split
  · split <;> rfl
  · rfl

theorem ledger_print (l : Option UInt16) : ledger (a.print l).stats = ledger a.stats := by
  cases l with
  | none => rfl
  | some l => exact ledger_onLocate a.stats l.toNat fun _ => ⟨rfl, rfl⟩

theorem length_openMarket : (a.openMarket l).stats.locates.length = a.stats.locates.length := by
  unfold Replay.openMarket
  split
  · rfl
  · exact List.length_modify ..

theorem length_touch (hseen : Seen a) : l.toNat < (a.touch l).stats.locates.length := by
  unfold Replay.touch
  cases hm : a.market l.toNat with
  | some m => simpa [Replay.withStats, Stats.onLocate] using hseen l.toNat (by simp [hm])
  | none =>
    show l.toNat < ((Replay.openMarket _ l).stats.locates.modify l.toNat _).length
    rw [List.length_modify, length_openMarket]
    show l.toNat < (growTo a.stats.locates (l.toNat + 1) _).length
    rw [length_growTo]
    omega

theorem length_placeholder (o : Order) :
    (a.placeholder o).stats.locates.length = a.stats.locates.length := by
  unfold Replay.placeholder
  split
  · split <;> rfl
  · rfl

theorem ledger_order (hseen : Seen a) (hwithin : (ledger a.stats).Within) (o : Order) :
    ledger (a.order l o).2.stats = (ledger a.stats).post (effect a (.order l o)) := by
  have htouch : ledger ((a.touch l).placeholder o).stats = ledger a.stats := by
    rw [ledger_placeholder, ledger_touch]
  have hlen : l.toNat < ((a.touch l).placeholder o).stats.locates.length := by
    rw [length_placeholder]
    exact length_touch a l hseen
  have hcall : ∀ op, ledger (((a.touch l).placeholder o).call l op).stats =
      (ledger a.stats).reply l.toNat ((a.marketOf l).apply op).1 := by
    intro op
    have hreply := ledger_noteReply ((a.touch l).placeholder o).stats hlen (htouch ▸ hwithin)
      ((a.marketOf l).apply op).1
    rw [htouch] at hreply
    rw [← hreply, ← Replay.marketOf_eq (Replay.market_touch_self a l o)]
    rfl
  cases ho : o.op with
  | none =>
    rw [Replay.order_none ho, effect_none ho, Ledger.post, ← htouch]
    rfl
  | some op =>
    rw [effect_some ho, Ledger.post, ← hcall op]
    cases hr : ((a.marketOf l).apply op).1 with
    | error e => rw [Replay.order_error ho hr]
    | ok ev => rw [Replay.order_ok ho hr, ledger_checkCrossed, ledger_accepted]

theorem ledger_apply (hseen : Seen a) (hwithin : (ledger a.stats).Within) (n : Note) :
    ledger (a.apply n).2.stats = (ledger a.stats).post (effect a n.body) := by
  have hhead : ledger (a.withStats (·.noteMessage n.ty n.ts)).stats = ledger a.stats :=
    ledger_noteMessage a.stats n.ty n.ts
  unfold Replay.apply
  cases n.body with
  | system code ts => exact hhead
  | directory l stock =>
    refine (ledger_openMarket _ l).trans ?_
    refine (ledger_onLocate _ l.toNat
      (f := fun ls => { ls with symbol := stock, msgs := ls.msgs + 1 })
      fun _ => ⟨rfl, rfl⟩).trans ?_
    exact (ledger_grow _ l.toNat).trans hhead
  | action l state =>
    refine (ledger_onLocate _ l.toNat
      (f := fun ls => { ls with hState := state, msgs := ls.msgs + 1 })
      fun _ => ⟨rfl, rfl⟩).trans ?_
    exact (ledger_grow _ l.toNat).trans hhead
  | order l o =>
    have horder := ledger_order (a.withStats (·.noteMessage n.ty n.ts)) l
      (fun i hi => by rw [Replay.withStats, locates_noteMessage]; exact hseen i hi)
      (hhead ▸ hwithin) o
    rw [hhead] at horder
    exact horder
  | print l => exact (ledger_print _ l).trans hhead
  | unknown => exact hhead

end Steps

/-! The ledger against the markets. -/

namespace Effect

/-- The step that a message takes on the live orders of a locate. -/
def step : Effect → ℕ → ℤ
  | .reply l (.ok ev), i => if i = l then liveDelta ev else 0
  | _, _ => 0

def accepts : Effect → Bool
  | .reply _ (.ok _) => true
  | _ => false

def isOrder : Effect → Bool
  | .none => false
  | _ => true

end Effect

theorem liveAt_apply {a : Replay} (hwf : ∀ l m, a.market l = some m → m.WF) (n : Note) (i : ℕ) :
    (liveAt (a.apply n).2 i : ℤ) = liveAt a i + (effect a n.body).step i := by
  have hmarket : ∀ l, (a.marketOf l).WF := by
    intro l
    cases hm : a.market l.toNat with
    | none =>
      rw [Replay.marketOf, hm]
      exact Market.wf_empty
    | some m =>
      rw [Replay.marketOf_eq hm]
      exact hwf _ m hm
  show (((a.apply n).2.marketAt i).live : ℤ) = (a.marketAt i).live + _
  rw [Replay.marketAt_apply]
  cases n.body with
  | order l o =>
    cases ho : o.op with
    | none =>
      rw [effect_none ho]
      by_cases hi : i = l.toNat
      · subst hi
        simp only [if_true, ho, Option.elim_none]
        exact (add_zero _).symm
      · simp only [if_neg hi]
        exact (add_zero _).symm
    | some op =>
      rw [effect_some ho]
      by_cases hi : i = l.toNat
      · subst hi
        simp only [if_true, ho, Option.elim_some]
        cases hr : ((a.marketOf l).apply op).1 with
        | error e =>
          rw [Market.apply_error hr]
          exact (add_zero _).symm
        | ok ev =>
          rw [Effect.step, if_pos rfl]
          exact live_apply (hmarket l) hr
      · simp only [if_neg hi]
        cases ((a.marketOf l).apply op).1 with
        | error e => exact (add_zero _).symm
        | ok ev => rw [Effect.step, if_neg hi, add_zero]
  | _ => exact (add_zero _).symm

theorem apply_accepts (a : Replay) (n : Note) : (a.apply n).1 = (effect a n.body).accepts := by
  unfold Replay.apply
  cases n.body with
  | order l o =>
    show ((a.withStats (·.noteMessage n.ty n.ts)).order l o).1 = _
    cases ho : o.op with
    | none =>
      rw [Replay.order_none ho, effect_none ho]
      rfl
    | some op =>
      have hsame : (a.withStats (·.noteMessage n.ty n.ts)).marketOf l = a.marketOf l := rfl
      rw [effect_some ho]
      cases hr : ((a.marketOf l).apply op).1 with
      | error e => rw [Replay.order_error ho (hsame ▸ hr)]; rfl
      | ok ev => rw [Replay.order_ok ho (hsame ▸ hr)]; rfl
  | _ => rfl

/-- The log and the switch that turns it on. -/
def journal (a : Replay) : Bool × EventLog := (a.logEvents, a.log)

theorem journal_openMarket (a : Replay) (l : UInt16) : journal (a.openMarket l) = journal a := by
  unfold Replay.openMarket
  split <;> rfl

theorem journal_touch (a : Replay) (l : UInt16) : journal (a.touch l) = journal a := by
  unfold Replay.touch
  cases a.market l.toNat with
  | some m => rfl
  | none =>
    exact journal_openMarket ((a.withStats (·.grow l.toNat)).withStats (·.countNoDirectory)) l

theorem journal_placeholder (a : Replay) (o : Order) : journal (a.placeholder o) = journal a := by
  unfold Replay.placeholder
  split
  · split <;> rfl
  · rfl

theorem journal_accepted (a : Replay) (m : Market) (ev : Event) (o : Order) :
    journal (a.accepted m ev o) = journal a := by
  unfold Replay.accepted
  split
  · rfl
  · split <;> rfl
  · rfl

theorem journal_checkCrossed (a : Replay) (l : UInt16) :
    journal (a.checkCrossed l) = journal a := by
  unfold Replay.checkCrossed Replay.countCrossed
  split
  · split <;> rfl
  · rfl

theorem journal_order {a : Replay} (hlog : a.logEvents = true) (l : UInt16) (o : Order) :
    journal (a.order l o).2 = (true, o.op.elim a.log fun op =>
      a.log.push (loggedEvent ((a.marketOf l).apply op).1)) := by
  have htouch : journal ((a.touch l).placeholder o) = (true, a.log) := by
    rw [journal_placeholder, journal_touch, journal, hlog]
  have hcall : ∀ op, journal (((a.touch l).placeholder o).call l op) =
      (true, a.log.push (loggedEvent ((a.marketOf l).apply op).1)) := by
    intro op
    obtain ⟨hon, hrecords⟩ := Prod.mk.inj htouch
    have hmarket := Replay.marketOf_eq (Replay.market_touch_self a l o)
    show (((a.touch l).placeholder o).logEvents, if ((a.touch l).placeholder o).logEvents then
      ((a.touch l).placeholder o).log.push _ else _) = _
    rw [if_pos hon, hon, hrecords, hmarket]
  cases ho : o.op with
  | none =>
    rw [Replay.order_none ho]
    exact htouch
  | some op =>
    rw [Option.elim_some, ← hcall op]
    cases hr : ((a.marketOf l).apply op).1 with
    | error e => rw [Replay.order_error ho hr]
    | ok ev => rw [Replay.order_ok ho hr, journal_checkCrossed, journal_accepted]

/-- Every reply is logged, and nothing else. -/
theorem journal_apply {a : Replay} (hlog : a.logEvents = true) (n : Note) :
    journal (a.apply n).2 = (true, match effect a n.body with
      | .reply _ r => a.log.push (loggedEvent r)
      | _ => a.log) := by
  have hsame : journal a = (true, a.log) := by rw [journal, hlog]
  unfold Replay.apply
  cases n.body with
  | system code ts => exact hsame
  | directory l stock => exact (journal_openMarket _ l).trans hsame
  | action l state => exact hsame
  | order l o =>
    refine (journal_order (a := a.withStats (·.noteMessage n.ty n.ts)) hlog l o).trans ?_
    cases ho : o.op with
    | none => rw [effect_none ho]; rfl
    | some op => rw [effect_some ho]; rfl
  | print l => cases l <;> exact hsame
  | unknown => exact hsame

/-! What the accounts say of each other. -/

/-- A step of a count kept in `w` bits. -/
theorem move_mod {w x y : ℕ} {d : ℤ} (h : (y : ℤ) = x + d) (q : ℕ) :
    (Ledger.move w d (x % 2 ^ w, q)).1 = y % 2 ^ w := by
  have hmod : ((x % 2 ^ w : ℕ) + d) % 2 ^ w = ((y % 2 ^ w : ℕ) : ℤ) := by
    rw [Int.natCast_mod, Int.natCast_mod, h]
    push_cast
    exact Int.emod_add_emod ..
  rw [Ledger.move, hmod, Int.toNat_natCast]

theorem Ledger.move_lt (w : ℕ) (d : ℤ) (p : ℕ × ℕ) : (move w d p).1 < 2 ^ w := by
  have hpos : (0 : ℤ) < 2 ^ w := by positivity
  have hlt := Int.emod_lt_of_pos (p.1 + d) hpos
  have hnonneg := Int.emod_nonneg (p.1 + d) hpos.ne'
  have : ((move w d p).1 : ℤ) < (2 ^ w : ℕ) := by
    rw [move, Int.toNat_of_nonneg hnonneg]
    exact_mod_cast hlt
  exact_mod_cast this

/-- A message keeps every count below its width and its mark, and moves the marks to the
counts it leaves. -/
theorem Ledger.Within.post {g : Ledger} (h : g.Within) (e : Effect) :
    (g.post e).Within ∧ (g.post e).liveHwm = max g.liveHwm (g.post e).live ∧
      ∀ l, ((g.post e).locate l).2 = max (g.locate l).2 ((g.post e).locate l).1 := by
  have hkeep : g.liveHwm = max g.liveHwm g.live ∧
      ∀ l, (g.locate l).2 = max (g.locate l).2 (g.locate l).1 :=
    ⟨(max_eq_left h.live_le).symm, fun l => (max_eq_left (h.locate_le l)).symm⟩
  have hidle : ∀ g' : Ledger, g'.live = g.live → g'.liveHwm = g.liveHwm → g'.locate = g.locate →
      g'.Within ∧ g'.liveHwm = max g.liveHwm g'.live ∧
        ∀ l, (g'.locate l).2 = max (g.locate l).2 (g'.locate l).1 := by
    intro g' hlive hhwm hlocate
    refine ⟨⟨?_, ?_, ?_, ?_⟩, ?_, ?_⟩ <;> simp only [hlive, hhwm, hlocate]
    · exact h.live_lt
    · exact h.live_le
    · exact h.locate_lt
    · exact h.locate_le
    · exact hkeep.1
    · exact hkeep.2
  rcases e with _ | _ | ⟨l, e | ev⟩
  · exact hidle _ rfl rfl rfl
  · exact hidle _ rfl rfl rfl
  · exact hidle _ rfl rfl rfl
  · have hlocate : ∀ i, ((g.reply l (.ok ev)).locate i) =
        if i = l then move 32 (liveDelta ev) (g.locate l) else g.locate i := fun i =>
      Function.update_apply ..
    refine ⟨⟨move_lt .., le_max_right .., fun i => ?_, fun i => ?_⟩, rfl, fun i => ?_⟩
    · rw [Ledger.post, hlocate]
      split
      · exact move_lt ..
      · exact h.locate_lt i
    · rw [Ledger.post, hlocate]
      split
      · exact le_max_right ..
      · exact h.locate_le i
    · rw [Ledger.post, hlocate]
      split
      · rename_i hi
        rw [hi]
        rfl
      · exact hkeep.2 i

/-- A market stays, and the market of a reply is there after it. -/
theorem market_apply_isSome {a : Replay} {n : Note} {i : ℕ}
    (h : (a.market i).isSome ∨ ∃ r, effect a n.body = .reply i r) :
    ((a.apply n).2.market i).isSome := by
  have hopen : ∀ (l : UInt16) (m : Market), (a.market i).isSome ∨ i = l.toNat →
      (Function.update a.market l.toNat (some m) i).isSome := by
    intro l m hi
    by_cases hl : i = l.toNat
    · subst hl
      rw [Function.update_self]
      rfl
    · rw [Function.update_of_ne hl]
      exact hi.resolve_right hl
  have hkeep : (∀ r, effect a n.body ≠ .reply i r) → (a.market i).isSome := fun hno =>
    h.resolve_right fun ⟨r, hr⟩ => hno r hr
  unfold Replay.apply
  cases hbody : n.body with
  | system code ts => exact hkeep fun r => by rw [hbody]; exact Effect.noConfusion
  | directory l stock =>
    have hmarket := Replay.market_openMarket
      (((a.withStats (·.noteMessage n.ty n.ts)).withStats (·.grow l.toNat)).withStats fun st =>
        st.onLocate l.toNat fun ls => { ls with symbol := stock, msgs := ls.msgs + 1 }) l
    have hsome := hopen l (a.marketOf l) (Or.inl (hkeep fun r => by
      rw [hbody]; exact Effect.noConfusion))
    exact (congrArg (fun f => (f i).isSome) hmarket).trans hsome
  | action l state => exact hkeep fun r => by rw [hbody]; exact Effect.noConfusion
  | order l o =>
    have hmarket := Replay.market_order (a.withStats (·.noteMessage n.ty n.ts)) l o
    refine (congrArg (fun f => (f i).isSome) hmarket).trans (hopen l _ (h.imp_right ?_))
    rintro ⟨r, hr⟩
    rw [hbody] at hr
    cases ho : o.op with
    | none =>
      rw [effect_none ho] at hr
      cases hr
    | some op =>
      rw [effect_some ho] at hr
      exact (Effect.reply.inj hr).1.symm
  | print l =>
    have hsome := hkeep fun r => by rw [hbody]; exact Effect.noConfusion
    cases l <;> exact hsome
  | unknown => exact hkeep fun r => by rw [hbody]; exact Effect.noConfusion

/-- The counters of a replay are the live orders of its markets, in the width they have. -/
structure Balanced (a : Replay) : Prop where
  within : (ledger a.stats).Within
  locate : ∀ l, ((ledger a.stats).locate l).1 = liveAt a l % 2 ^ 32
  total : ∀ N, (∀ l, N ≤ l → a.market l = none) →
    a.stats.live = (∑ l ∈ Finset.range N, liveAt a l) % 2 ^ 64

theorem balanced_new (logEvents : Bool) (source : String) : Balanced (.new logEvents source) where
  within := ⟨show 0 < 2 ^ 64 by decide, le_rfl, fun _ => show 0 < 2 ^ 32 by decide, fun _ => le_rfl⟩
  locate l := by rw [liveAt_new]; rfl
  total N _ := by simp only [liveAt_new, Finset.sum_const_zero]; rfl

theorem Balanced.apply {a : Replay} (h : Balanced a) (hseen : Seen a)
    (hwf : ∀ l m, a.market l = some m → m.WF) (n : Note) : Balanced (a.apply n).2 := by
  have hledger := ledger_apply a hseen h.within n
  have hlive := liveAt_apply hwf n
  refine ⟨hledger ▸ (h.within.post _).1, fun l => ?_, fun N hN => ?_⟩
  · rw [hledger]
    have hl := hlive l
    have hold := h.locate l
    cases he : effect a n.body with
    | none =>
      rw [he] at hl
      rw [Ledger.post, hold, Nat.cast_inj.mp (hl.trans (add_zero _))]
    | badSide =>
      rw [he] at hl
      rw [Ledger.post, hold, Nat.cast_inj.mp (hl.trans (add_zero _))]
    | reply i r =>
      rw [he] at hl
      cases r with
      | error e =>
        rw [Ledger.post, Ledger.reply, hold, Nat.cast_inj.mp (hl.trans (add_zero _))]
      | ok ev =>
        rw [Ledger.post, Ledger.reply]
        show (Function.update (ledger a.stats).locate i _ l).1 = _
        rw [Effect.step] at hl
        by_cases hi : l = i
        · subst hi
          rw [if_pos rfl] at hl
          rw [Function.update_self, ← move_mod hl ((ledger a.stats).locate l).2, ← hold]
        · rw [if_neg hi] at hl
          rw [Function.update_of_ne hi, hold, Nat.cast_inj.mp (hl.trans (add_zero _))]
  · have hbefore : ∀ l, N ≤ l → a.market l = none := fun l hl => by
      cases hm : a.market l with
      | none => rfl
      | some m =>
        have hsome := market_apply_isSome (n := n) (Or.inl (show (a.market l).isSome by simp [hm]))
        rw [hN l hl] at hsome
        cases hsome
    have hold := h.total N hbefore
    have hsum : ((∑ l ∈ Finset.range N, liveAt (a.apply n).2 l : ℕ) : ℤ) =
        (∑ l ∈ Finset.range N, liveAt a l : ℕ) +
          ∑ l ∈ Finset.range N, (effect a n.body).step l := by
      push_cast
      rw [← Finset.sum_add_distrib]
      exact Finset.sum_congr rfl fun l _ => hlive l
    have hidle : (∀ l, (effect a n.body).step l = 0) →
        (∑ l ∈ Finset.range N, liveAt (a.apply n).2 l) = ∑ l ∈ Finset.range N, liveAt a l := by
      intro hzero
      rw [Finset.sum_congr rfl fun l _ => hzero l, Finset.sum_const_zero, add_zero] at hsum
      exact Nat.cast_inj.mp hsum
    show (ledger (a.apply n).2.stats).live = _
    rw [hledger]
    cases he : effect a n.body with
    | none => rw [hidle fun l => by rw [he]; rfl]; exact hold
    | badSide => rw [hidle fun l => by rw [he]; rfl]; exact hold
    | reply i r =>
      cases r with
      | error e => rw [hidle fun l => by rw [he]; rfl]; exact hold
      | ok ev =>
        have hi : i < N := by
          by_contra hge
          have hsome := market_apply_isSome (Or.inr ⟨_, he⟩)
          rw [hN i (not_lt.mp hge)] at hsome
          cases hsome
        have hstep : ∑ l ∈ Finset.range N, (effect a n.body).step l = liveDelta ev := by
          simp only [he, Effect.step, Finset.sum_ite_eq', Finset.mem_range, hi, if_true]
        rw [hstep] at hsum
        rw [← move_mod hsum a.stats.liveHwm, ← hold]
        rfl

end Lobcore.Ledgers
