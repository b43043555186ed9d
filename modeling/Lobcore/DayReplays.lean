import Lobcore.BookChanges
import Lobcore.DayMarkets
import Lobcore.Replacements
import Lobcore.SessionAccounts

/-!
A generated day fed to a session. Every message of a day does to the book of its locate what it
did to the market of the generator, as long as the orders that are placed have a price and fit
their levels; so after every message the book shows the row of the truth, and nothing is rejected
but references that were made up.
-/
namespace Lobcore.DayReplays

open Checked OrderTypes OrderSlab SortedMaps Markets Payloads SessionStats Sessions Migrations
open Replays SessionRefines SessionSteps SessionRuns TruthBooks Writers RoundTrips Generators
open GeneratorDraws GeneratorBooks DayEvents GeneratorSteps GeneratorMessages GeneratorPaths
open GeneratorRuns GeneratedDays DayMarkets

/-! What a call spells. -/

/-- What a session reads off a call of a writer. -/
def noteBody (h : Header) : RoundTrips.Body → Replays.Body
  | .systemEvent code => .system code h.ts
  | .stockDirectory stock => .directory h.locate stock.val
  | .tradingAction _ state => .action h.locate state
  | .mpidPosition .. => .print (some h.locate)
  | .addOrder r side qty _ px => .order h.locate (.add r (sideOf side) px qty)
  | .addOrderMpid r side qty _ px _ => .order h.locate (.add r (sideOf side) px qty)
  | .orderExecuted r qty _ => .order h.locate (.execute r qty)
  | .orderExecutedWithPrice r qty .. => .order h.locate (.execute r qty)
  | .orderCancel r qty => .order h.locate (.cancel r qty)
  | .orderDelete r => .order h.locate (.delete r)
  | .orderReplace old new qty px => .order h.locate (.replace old new px qty)
  | .trade .. => .print (some h.locate)

def noteOf (c : Call) : Note := ⟨byte c.body.ty, some c.header.ts, noteBody c.header c.body⟩

theorem spells_call {c : Call} (hts : c.header.ts.toNat < 2 ^ 48) :
    Spells c.payload (noteOf c) := by
  obtain ⟨h, body⟩ := c
  cases body with
  | systemEvent code => exact spells_system h hts code
  | stockDirectory stock => exact spells_directory h hts stock
  | tradingAction stock state => exact spells_action h hts stock state
  | mpidPosition mpid stock => exact spells_position h hts mpid stock
  | addOrder r side qty stock px => exact spells_add h hts r side qty stock px
  | addOrderMpid r side qty stock px mpid => exact spells_addMpid h hts r side qty stock px mpid
  | orderExecuted r qty matchNo => exact spells_executed h hts r qty matchNo
  | orderExecutedWithPrice r qty matchNo printable px =>
    exact spells_executedPx h hts r qty matchNo printable px
  | orderCancel r qty => exact spells_cancel h hts r qty
  | orderDelete r => exact spells_delete h hts r
  | orderReplace old new qty px => exact spells_replace h hts old new qty px
  | trade qty stock px matchNo => exact spells_trade h hts qty stock px matchNo

/-! What a deal is to a market. -/

/-- An ask that crosses a mid of two ticks by three comes out at no price at all. -/
def Unpriced (p : Placement) : Prop :=
  p.draft.placeholder = false ∧ p.draft.side = .ask ∧ p.l.mid = 2 * p.l.tick ∧
    p.draft.cross = 3 * p.l.tick ∧ p.draft.offset = 0

instance (p : Placement) : Decidable (Unpriced p) := inferInstanceAs (Decidable (_ ∧ _))

/-- An order that a session takes: it has a price, and its level can count it. -/
def Takable (p : Placement) : Prop := p.Fits ∧ ¬ Unpriced p

instance (p : Placement) : Decidable (Takable p) := inferInstanceAs (Decidable (_ ∧ _))

/-- How the market of a locate treats a message. -/
inductive Treats (m : Market) (c : Call) : Market → Prop
  | quiet (hbody : ∀ l o, noteBody c.header c.body ≠ .order l o) : Treats m c m
  | taken {m' : Market} {o : Order} {op : Op} {ev : OrderTypes.Event}
      (hbody : noteBody c.header c.body = .order c.header.locate o) (hop : o.op = some op)
      (happly : m.apply op = (.ok ev, m'))
      (hwhole : ∀ id qty, o = .cancel id qty → qty.toNat ≤ ev.qty.toNat) : Treats m c m'
  | missed {o : Order} {op : Op} {site : EventKind} {id : OrderId}
      (htarget : target c.body = some id)
      (hgone : m.home id = none) (hbody : noteBody c.header c.body = .order c.header.locate o)
      (hop : o.op = some op) (happly : m.apply op = (.error (.unknownId site id), m)) : Treats m c m

section Deals

variable {allowed : Bool} {next : ℕ} {m m' : Market}

/-- A drawn order has a price, unless it is the ask that has none. -/
theorem price_pos {p : Placement} (hdraft : Drafted p.l allowed m p.draft) (h : ¬ Unpriced p) :
    0 < p.draft.px ∧ p.draft.px < 2 ^ 31 := by
  have htick := hdraft.tick
  have hgrid := hdraft.onGrid
  have hlow := hgrid.nonneg htick
  have hhigh : p.draft.px < 2 ^ 31 := by
    cases hs : p.draft.side with
    | bid =>
      rw [hs] at hgrid
      have hle := hgrid.2
      simp only [maxPrice] at hle
      rcases htick with ht | ht <;> omega
    | ask =>
      rw [hs] at hgrid
      have hlt := hgrid.2
      simp only [maxPrice] at hlt
      omega
  refine ⟨lt_of_le_of_ne hlow fun hzero => ?_, hhigh⟩
  cases hp : p.draft.placeholder with
  | true =>
    have hpx := hdraft.placeholder hp
    rw [← hzero] at hpx
    cases hs : p.draft.side <;> rw [hs] at hpx <;> cases hpx
  | false =>
    obtain ⟨hside, hmid, hcross, hoffset⟩ := (hdraft.priced hp).zero.mp hzero.symm
    exact h ⟨hp, hside, hmid, hcross, hoffset⟩

/-- A price that fits 31 bits is read as it was written. -/
theorem toInt_written {px : ℤ} (hlow : 0 < px) (hhigh : px < 2 ^ 31) :
    (UInt32.ofNat px.toNat).toInt32.toInt = px := by
  have hnat : (UInt32.ofNat px.toNat).toNat = px.toNat :=
    UInt32.toNat_ofNat_of_lt' (show px.toNat < 2 ^ 32 by omega)
  have hint : (UInt32.ofNat px.toNat).toInt32.toInt = (UInt32.ofNat px.toNat).toNat :=
    BitVec.toInt_eq_toNat_of_lt (show 2 * (UInt32.ofNat px.toNat).toNat < 2 ^ 32 by omega)
  omega

theorem sideOf_sideByte (s : Side) : sideOf (sideByte s) = some s := by
  cases s <;> rfl

/-- An order with a price and a quantity that fits is added. -/
theorem add_taken {id : OrderId} {s : Side} {px : ℤ} {n : ℕ} (hn : 0 < n) (hpx : 0 < px)
    (hfit : total (m.queue s px) + n < 2 ^ 32) (hfresh : m.home id = none) :
    m.add id s px n = (.ok (.add id s px n), m.push id s px n) := by
  rw [Market.add, if_neg (by omega), if_neg (by omega), if_neg (by omega),
    if_neg (by simp [hfresh])]

theorem placed_fits {p : Placement} (hshows : p.l.book.Shows m) (hold : p.old = none)
    (hfits : p.Fits) : total (m.queue p.draft.side p.draft.px) + p.draft.qty < 2 ^ 32 := by
  rwa [Placement.Fits, Placement.others, hold, Option.elim_none, ← hshows.queue_eq] at hfits

theorem replaced_fits {p : Placement} {old : OrderId} {oldPx : ℤ} {held : ℕ}
    (hshows : p.l.book.Shows m) (hold : p.old = some old) (hfits : p.Fits)
    (hfind : m.find old = some (p.draft.side, oldPx, held)) :
    total ((m.take old p.draft.side oldPx 0).queue p.draft.side p.draft.px) + p.draft.qty <
      2 ^ 32 := by
  rw [queue_settled hshows.sound hfind, hshows.queue_eq]
  rwa [Placement.Fits, Placement.others, hold, Option.elim_some] at hfits

/-- A message for an order that is not live is rejected as unknown. -/
theorem treats_missed {c : Call} {id : OrderId} (htarget : target c.body = some id)
    (hgone : m.home id = none) : Treats m c m := by
  obtain ⟨hd, body⟩ := c
  have hfind : m.find id = none := by rw [Market.find, hgone]
  have hexecute : ∀ qty, m.apply (.execute id qty) = (.error (.unknownId .exec id), m) :=
    fun qty => by
    simp only [Market.apply, Market.execute, hfind]
  cases body with
  | orderExecuted r qty matchNo =>
    obtain rfl := Option.some.inj htarget
    exact .missed htarget hgone rfl rfl (hexecute _)
  | orderExecutedWithPrice r qty matchNo printable px =>
    obtain rfl := Option.some.inj htarget
    exact .missed htarget hgone rfl rfl (hexecute _)
  | orderCancel r qty =>
    obtain rfl := Option.some.inj htarget
    have happly : m.apply (.cancel r qty) = (.error (.unknownId .cancel r), m) := by
      simp only [Market.apply, Market.cancel, hfind]
    exact .missed htarget hgone rfl rfl happly
  | orderDelete r =>
    obtain rfl := Option.some.inj htarget
    have happly : m.apply (.delete r) = (.error (.unknownId .delete r), m) := by
      simp only [Market.apply, Market.delete, hfind]
    exact .missed htarget hgone rfl rfl happly
  | orderReplace old new qty px =>
    obtain rfl := Option.some.inj htarget
    have happly : m.apply (.replace old new px.toInt32 qty) =
        (.error (.unknownId .replace old), m) := by
      simp only [Market.apply, Market.replace, hfind]
    exact .missed htarget hgone rfl rfl happly
  | _ => cases htarget

/-- The market of a session treats a message as the deal does. -/
theorem treats_of_deal {c : Call} (hm : m.WF) (h : Deal Takable allowed next m c.body m') :
    Treats m c m' := by
  obtain ⟨hd, body⟩ := c
  cases h with
  | mark hmark =>
    cases body with
    | stockDirectory stock => exact .quiet fun _ _ hbody => by cases hbody
    | tradingAction stock state => exact .quiet fun _ _ hbody => by cases hbody
    | mpidPosition mpid stock => exact .quiet fun _ _ hbody => by cases hbody
    | trade qty stock px matchNo => exact .quiet fun _ _ hbody => by cases hbody
    | _ => cases hmark
  | missed htarget hgone => exact treats_missed htarget hgone
  | @placed p _ hC hold hallowed hshows hdraft hfresh hbody =>
    obtain ⟨hpos, hlt⟩ := price_pos hdraft hC.2
    have hqty : (UInt32.ofNat p.draft.qty).toNat = p.draft.qty :=
      UInt32.toNat_ofNat_of_lt' (hdraft.qty_le.trans_lt (by decide))
    have happly : m.apply (.add (.ofNat next) p.draft.side (UInt32.ofNat p.draft.px.toNat).toInt32
        (.ofNat p.draft.qty)) = (.ok (.add (.ofNat next) p.draft.side p.draft.px p.draft.qty),
        m.push (.ofNat next) p.draft.side p.draft.px p.draft.qty) := by
      rw [Market.apply, toInt_written hpos hlt, hqty]
      exact add_taken hdraft.qty_pos hpos (placed_fits hshows hold hC.1) hfresh
    have hnote : noteBody hd body = .order hd.locate (.add (.ofNat next) (some p.draft.side)
        (.ofNat p.draft.px.toNat) (.ofNat p.draft.qty)) := by
      rw [← sideOf_sideByte]
      obtain rfl | rfl := hbody <;> rfl
    exact .taken hnote rfl happly fun _ _ heq => by cases heq
  | @replaced p old oldPx held hC hold hallowed hshows hdraft hfresh hfind =>
    obtain ⟨hpos, hlt⟩ := price_pos hdraft hC.2
    have hqty : (UInt32.ofNat p.draft.qty).toNat = p.draft.qty :=
      UInt32.toNat_ofNat_of_lt' (hdraft.qty_le.trans_lt (by decide))
    have hgone : (m.take old p.draft.side oldPx 0).home (.ofNat next) = none := by
      rw [Market.home_take_zero, hfresh, ite_self]
    have happly : m.apply (.replace old (.ofNat next) (UInt32.ofNat p.draft.px.toNat).toInt32
        (.ofNat p.draft.qty)) =
          (.ok (.replace old (.ofNat next) p.draft.side p.draft.px p.draft.qty),
        (m.take old p.draft.side oldPx 0).push (.ofNat next) p.draft.side p.draft.px
          p.draft.qty) := by
      rw [Market.apply, toInt_written hpos hlt, hqty, Replacements.replace_eq hm hfind hfresh,
        add_taken hdraft.qty_pos hpos (replaced_fits hshows hold hC.1 hfind) hgone]
    exact .taken rfl rfl happly fun _ _ heq => by cases heq
  | @deleted id s px n hfind =>
    have happly : m.apply (.delete id) = (.ok (.delete id s px n), m.take id s px 0) := by
      simp only [Market.apply, Market.delete, hfind]
    exact .taken rfl rfl happly fun _ _ heq => by cases heq
  | @cancelled id s px n k hfind hpos hlt =>
    have hheld := hm.held_lt hfind
    have hk : (UInt32.ofNat k).toNat = k := UInt32.toNat_ofNat_of_lt' (hlt.trans hheld)
    have happly : m.apply (.cancel id (.ofNat k)) =
        (.ok (.cancel id s px k (n - k)), m.take id s px (n - k)) := by
      simp only [Market.apply, Market.cancel, hfind, hk, if_neg hpos.ne', min_eq_left hlt.le]
    refine .taken rfl rfl happly fun id' qty heq => ?_
    obtain ⟨-, rfl⟩ := Order.cancel.inj heq
    show (UInt32.ofNat k).toNat ≤ (UInt64.ofNat k).toNat
    rw [hk, UInt64.toNat_ofNat_of_lt' (show k < 2 ^ 64 by omega)]
  | @executed id s px n k rest matchNo _ hhead hfind hpos hle hbody =>
    have hheld := hm.held_lt hfind
    have hk : (UInt32.ofNat k).toNat = k := UInt32.toNat_ofNat_of_lt' (hle.trans_lt hheld)
    have happly : m.apply (.execute id (.ofNat k)) =
        (.ok (.exec id s px k (n - k)), m.take id s px (n - k)) := by
      simp only [Market.apply, Market.execute, hfind, hk, if_neg hpos.ne', if_neg hle.not_gt]
    have hnote : noteBody hd body = .order hd.locate (.execute id (.ofNat k)) := by
      obtain rfl | ⟨printable, rfl⟩ := hbody <;> rfl
    exact .taken hnote rfl happly fun _ _ heq => by cases heq

end Deals

/-! The counters of a replay. -/

/-- The messages rejected, by reason, and the cancels that asked for more than there was. -/
structure Faults where
  unknownId : ℕ
  duplicateId : ℕ
  overExecute : ℕ
  overCancel : ℕ
  badQty : ℕ
  badPrice : ℕ
  badSide : ℕ
  deriving DecidableEq, Repr

def faults (st : Stats) : Faults :=
  ⟨st.unknownId, st.duplicateId, st.overExecute, st.overCancel, st.badQty, st.badPrice, st.badSide⟩

section Faults

variable (a : Replay) (l : UInt16) (o : Order)

theorem faults_noteMessage (st : Stats) (ty : UInt8) (ts : Option UInt64) :
    faults (st.noteMessage ty ts) = faults st := by
  cases ts <;> rfl

theorem faults_openMarket : faults (a.openMarket l).stats = faults a.stats := by
  unfold Replay.openMarket
  split <;> rfl

theorem faults_touch : faults (a.touch l).stats = faults a.stats := by
  unfold Replay.touch
  cases a.market l.toNat with
  | some m => rfl
  | none => exact faults_openMarket _ l

theorem faults_placeholder : faults (a.placeholder o).stats = faults a.stats := by
  unfold Replay.placeholder
  split
  · split <;> rfl
  · rfl

theorem faults_checkCrossed : faults (a.checkCrossed l).stats = faults a.stats := by
  unfold Replay.checkCrossed Replay.countCrossed
  split
  · split <;> rfl
  · rfl

theorem faults_accepted (m : Market) (ev : OrderTypes.Event)
    (hwhole : ∀ id qty, o = .cancel id qty → qty.toNat ≤ ev.qty.toNat) :
    faults (a.accepted m ev o).stats = faults a.stats := by
  cases o with
  | cancel id qty =>
    rw [Replay.accepted, if_neg (hwhole id qty rfl).not_gt]
  | _ => rfl

theorem faults_noteReply (st : Stats) (i : ℕ) (ev : OrderTypes.Event) :
    faults (noteReply st i (.ok ev)) = faults st := by
  unfold noteReply
  dsimp only
  split <;> rfl

/-- An order that is accepted is no fault. -/
theorem faults_taken {op : Op} {ev : OrderTypes.Event} (hop : o.op = some op)
    (hr : ((a.marketOf l).apply op).1 = .ok ev)
    (hwhole : ∀ id qty, o = .cancel id qty → qty.toNat ≤ ev.qty.toNat) :
    (a.order l o).1 = true ∧ faults (a.order l o).2.stats = faults a.stats := by
  rw [Replay.order_ok hop hr]
  refine ⟨rfl, ?_⟩
  have hmarket := Replay.marketOf_eq (Replay.market_touch_self a l o)
  rw [faults_checkCrossed, faults_accepted _ _ _ _ hwhole, Replay.call, hmarket, hr, Replay.record,
    faults_noteReply]
  exact (faults_placeholder _ o).trans (faults_touch a l)

/-- An order that is not known is one fault. -/
theorem faults_missed {op : Op} {site : EventKind} {id : OrderId} (hop : o.op = some op)
    (hr : ((a.marketOf l).apply op).1 = .error (.unknownId site id)) :
    faults (a.order l o).2.stats =
      { faults a.stats with unknownId := (faults a.stats).unknownId + 1 } := by
  rw [Replay.order_error hop hr]
  have hmarket := Replay.marketOf_eq (Replay.market_touch_self a l o)
  have hsame := (faults_placeholder (a.touch l) o).trans (faults_touch a l)
  rw [← hsame, Replay.call, hmarket, hr]
  rfl

theorem faults_dispatch {b : Replays.Body} (h : ∀ l o, b ≠ .order l o) :
    faults (a.dispatch b).2.stats = faults a.stats := by
  cases b with
  | directory l stock => exact faults_openMarket _ l
  | order l o => exact absurd rfl (h l o)
  | print l => cases l <;> rfl
  | _ => rfl

/-- A message that is no order is no fault. -/
theorem faults_quiet {n : Note} (h : ∀ l o, n.body ≠ .order l o) :
    faults (a.apply n).2.stats = faults a.stats :=
  (faults_dispatch _ h).trans (faults_noteMessage a.stats n.ty n.ts)

end Faults

/-! A message in a replay. -/

section Replay

variable {a : Replay} {c : Call} {m : Market} (h : Treats (a.marketAt c.header.locate.toNat) c m)

include h

/-- A replay changes the market of the locate as it is treated, and no other. -/
theorem marketAt_treated :
    (a.apply (noteOf c)).2.marketAt = Function.update a.marketAt c.header.locate.toNat m := by
  funext i
  have horder : ∀ {o : Order} {op : Op}, noteBody c.header c.body = .order c.header.locate o →
      o.op = some op → (a.apply (noteOf c)).2.marketAt i = Function.update a.marketAt
        c.header.locate.toNat ((a.marketAt c.header.locate.toNat).apply op).2 i := by
    intro o op hbody hop
    have hnote : (noteOf c).body = .order c.header.locate o := hbody
    rw [Replay.marketAt_apply, hnote, Function.update_apply]
    simp only [hop, Option.elim_some]
    rfl
  cases h with
  | quiet hbody =>
    rw [Function.update_eq_self, Replay.marketAt_apply]
    split
    · exact absurd ‹_› (hbody _ _)
    · rfl
  | taken hbody hop happly _ => rw [horder hbody hop, happly]
  | missed htarget hgone hbody hop happly => rw [horder hbody hop, happly]

/-- Whatever is not known is the only fault. -/
theorem faults_treated :
    (faults (a.apply (noteOf c)).2.stats = faults a.stats ∧
      ((∃ l o, noteBody c.header c.body = .order l o) → (a.apply (noteOf c)).1 = true)) ∨
    (faults (a.apply (noteOf c)).2.stats =
        { faults a.stats with unknownId := (faults a.stats).unknownId + 1 } ∧
      ∃ id, target c.body = some id ∧ (a.marketAt c.header.locate.toNat).home id = none) := by
  have hhead := faults_noteMessage a.stats (noteOf c).ty (noteOf c).ts
  have horder : ∀ {o : Order}, noteBody c.header c.body = .order c.header.locate o →
      a.apply (noteOf c) = (a.withStats (·.noteMessage (noteOf c).ty (noteOf c).ts)).order
        c.header.locate o := by
    intro o hbody
    have hnote : (noteOf c).body = .order c.header.locate o := hbody
    rw [Replay.apply, hnote]
    rfl
  cases h with
  | quiet hbody =>
    refine Or.inl ⟨faults_quiet a hbody, fun hsome => ?_⟩
    obtain ⟨l, o, heq⟩ := hsome
    exact absurd heq (hbody l o)
  | taken hbody hop happly hwhole =>
    obtain ⟨htrue, hsame⟩ := faults_taken (a.withStats (·.noteMessage (noteOf c).ty (noteOf c).ts))
      c.header.locate _ hop (congrArg Prod.fst happly) hwhole
    rw [horder hbody]
    exact Or.inl ⟨hsame.trans hhead, fun _ => htrue⟩
  | missed htarget hgone hbody hop happly =>
    have hmore := faults_missed (a.withStats (·.noteMessage (noteOf c).ty (noteOf c).ts))
      c.header.locate _ hop (congrArg Prod.fst happly)
    rw [horder hbody, hmore]
    refine Or.inr ⟨?_, _, htarget, hgone⟩
    rw [← hhead]
    rfl

end Replay

end Lobcore.DayReplays
