import Lobcore.BookChanges
import Lobcore.EventReplays

/-!
When and where a locate moves to the array book. It moves with the first add or replace at a
real price that its book accepts while the locate is on the watch; the window is centred on
that price, keeps what rests, and never moves again.
-/
namespace Lobcore.ArrayWindows

open Checked OrderTypes PriceLevels Markets ReferenceBook ArrayBooks Payloads Sessions Migrations
open SessionStats Replays Handlers Desks DeskSteps SessionRefines SessionSteps
open SessionRuns BookChanges
open EventReplays Writers

/-- The price an order message rests at. -/
def restsAt : Order → Option UInt32
  | .add _ _ px _ => some px
  | .replace _ _ px _ => some px
  | _ => none

/-- The price of a message answered with `b` that is accepted for a watched locate, if it is a
real one. -/
def centre (l : UInt16) (m : Msg) (b : Bool) (s' : Session) : Option UInt32 :=
  match body m with
  | .order l' o =>
    if l' = l ∧ b = true ∧ s'.watched.getD l.toNat false = true then
      (restsAt o).filter fun px => !isPlaceholder px
    else none
  | _ => none

/-- The prices that could centre the window of a locate, in order, along some messages. -/
def centres (l : UInt16) : Session → List Msg → Exec (List UInt32 × Session)
  | s, [] => .ok ([], s)
  | s, m :: ms => do
    let (b, s') ← s.applyMsg m
    let (ps, t) ← centres l s' ms
    return ((centre l m b s').toList ++ ps, t)

/-- The number of ticks a window reaches below the price it is centred on. -/
def reach (cfg : SessionConfig) (px : UInt32) : ℤ :=
  min ((cfg.arrayWindow / 2 : ℕ) : ℤ) (((px.toNat : ℤ) - 1) / tickFor px)

/-- The window centred on a price. -/
def windowFor (cfg : SessionConfig) (px : UInt32) : BookConfig :=
  ⟨px.toNat - reach cfg px * tickFor px, cfg.arrayWindow, tickFor px⟩

/-! An array book keeps its window. -/

/-- The call leaves the grid of an array book. -/
def OnGrid {ρ : Type} (g : Grid) (x : Exec (ρ × ArrayBook)) : Prop := ∀ p, x = .ok p → p.2.grid = g

section OnGrid

variable {ρ τ α : Type} {g : Grid} {b : ArrayBook}

theorem onGrid_ok (r : ρ) (h : b.grid = g) : OnGrid g (.ok (r, b)) := fun p hp => by
  obtain rfl := Except.ok.inj hp
  exact h

theorem onGrid_bind {x : Exec α} {f : α → Exec (ρ × ArrayBook)} (h : ∀ a, OnGrid g (f a)) :
    OnGrid g (x >>= f) := by
  intro p hp
  obtain ⟨a, -, ha⟩ := bind_eq_ok.mp hp
  exact h a p ha

theorem OnGrid.bind {x : Exec (τ × ArrayBook)} {f : τ × ArrayBook → Exec (ρ × ArrayBook)}
    (hx : OnGrid g x) (h : ∀ p, p.2.grid = g → OnGrid g (f p)) : OnGrid g (x >>= f) := by
  intro p hp
  obtain ⟨q, hq, hf⟩ := bind_eq_ok.mp hp
  exact h q (hx q hq) p hf

theorem onGrid_ite {c : Prop} [Decidable c] {x y : Exec (ρ × ArrayBook)} (hx : OnGrid g x)
    (hy : OnGrid g y) : OnGrid g (if c then x else y) := by
  split <;> assumption

end OnGrid

@[simp] theorem grid_withParts (b : ArrayBook) (s : Side) (sl : SideLevels) (slab : OrderSlab.Slab)
    (ids : OrderSlab.IdMap) : (b.withParts s sl slab ids).grid = b.grid := by
  cases s <;> rfl

theorem onGrid_take (b : ArrayBook) (slot : ℕ) (s : OrderSlab.Slot) (amount : ℕ) :
    OnGrid b.grid (b.take slot s amount) := by
  refine onGrid_bind fun _ => onGrid_bind fun _ => onGrid_ite ?_ ?_
  · exact onGrid_bind fun _ => onGrid_ok _ (grid_withParts ..)
  · exact onGrid_bind fun _ => onGrid_ok _ (grid_withParts ..)

theorem onGrid_add (b : ArrayBook) (id : OrderId) (s : Side) (px : ℤ) (qty : ℕ) :
    OnGrid b.grid (b.add id s px qty) := by
  refine onGrid_ite (onGrid_ok _ rfl) (onGrid_ite (onGrid_ok _ rfl) (onGrid_bind fun _ => ?_))
  refine onGrid_ite (onGrid_ok _ rfl) (onGrid_ite (onGrid_ok _ rfl) (onGrid_bind fun _ => ?_))
  exact onGrid_bind fun _ => onGrid_bind fun _ => onGrid_ok _ (grid_withParts ..)

theorem onGrid_apply (b : ArrayBook) (op : Op) : OnGrid b.grid (b.apply op) := by
  cases op with
  | add id s px qty => exact onGrid_add b id s _ _
  | cancel id qty =>
    rw [ArrayBook.apply, ArrayBook.cancel]
    split
    · exact onGrid_ok _ rfl
    · refine onGrid_ite (onGrid_ok _ rfl) (onGrid_bind fun _ => ?_)
      exact (onGrid_take b _ _ _).bind fun p hp => onGrid_bind fun _ => onGrid_ok _ hp
  | execute id qty =>
    rw [ArrayBook.apply, ArrayBook.execute]
    split
    · exact onGrid_ok _ rfl
    · refine onGrid_ite (onGrid_ok _ rfl) (onGrid_bind fun _ => onGrid_ite (onGrid_ok _ rfl) ?_)
      exact (onGrid_take b _ _ _).bind fun p hp => onGrid_bind fun _ => onGrid_ok _ hp
  | delete id =>
    rw [ArrayBook.apply, ArrayBook.delete]
    split
    · exact onGrid_ok _ rfl
    · refine onGrid_bind fun _ => ?_
      exact (onGrid_take b _ _ _).bind fun p hp => onGrid_bind fun _ => onGrid_ok _ hp
  | replace old new px qty =>
    rw [ArrayBook.apply, ArrayBook.replace]
    split
    · exact onGrid_ok _ rfl
    · refine onGrid_ite (onGrid_ok _ rfl) (onGrid_ite (onGrid_ok _ rfl)
        (onGrid_ite (onGrid_ok _ rfl) ?_))
      refine onGrid_bind fun _ => onGrid_bind fun _ => onGrid_bind fun _ => ?_
      refine onGrid_ite (onGrid_ok _ rfl) (onGrid_bind fun _ => onGrid_bind fun _ => ?_)
      refine onGrid_bind fun _ => onGrid_bind fun _ => onGrid_bind fun _ => ?_
      exact onGrid_ok _ (grid_withParts ..)

/-- A fold that returns keeps what each of its steps keeps. -/
theorem foldlM_invariant {α β : Type} {P : β → Prop} {f : β → α → Exec β}
    (hstep : ∀ b a b', P b → f b a = .ok b' → P b') {xs : List α} {b b' : β} (h : P b)
    (hfold : xs.foldlM f b = .ok b') : P b' := by
  induction xs generalizing b with
  | nil => exact Except.ok.inj hfold ▸ h
  | cons a xs ih =>
    rw [List.foldlM_cons] at hfold
    obtain ⟨b₁, hb₁, hfold⟩ := bind_eq_ok.mp hfold
    exact ih (hstep b a b₁ h hb₁) hfold

theorem grid_readd {g : Grid} {ab ab' : ArrayBook} {v : Snapshot} (hab : ab.grid = g)
    (h : readd ab v = .ok ab') : ab'.grid = g := by
  refine foldlM_invariant (P := fun b => b.grid = g) (fun b lvl b' hb hlevel => ?_) hab h
  refine foldlM_invariant (P := fun b => b.grid = g) (fun c e c' hc hadd => ?_) hb hlevel
  obtain ⟨⟨r, d⟩, hd, hadd⟩ := bind_eq_ok.mp hadd
  cases r with
  | error e => cases hadd
  | ok ev =>
    obtain rfl := Except.ok.inj hadd
    exact (onGrid_add c _ _ _ _ _ hd).trans hc

theorem config_of_grid {b b' : ArrayBook} (h : b'.grid = b.grid) : b'.config = b.config := by
  rw [ArrayBook.config, ArrayBook.config, h]

/-! The window of a price. -/

/-- The window is the price's tick apart, holds the price and stays among positive prices. -/
structure Centred (cfg : SessionConfig) (px : UInt32) (w : BookConfig) : Prop where
  nLevels : w.nLevels = cfg.arrayWindow
  tick : w.tick = tickFor px
  holds : ∃ k : ℕ, k < w.nLevels ∧ (px.toNat : ℤ) = w.basePx + k * w.tick
  low : 1 ≤ w.basePx
  high : w.basePx + (w.nLevels - 1) * w.tick ≤ 2 ^ 31 - 1

section Window

variable {cfg : SessionConfig} (hcfg : ValidSession cfg) {px : UInt32}
  (hpx : isPlaceholder px = false)

include hcfg hpx

theorem centred_windowFor : Centred cfg px (windowFor cfg px) := by
  obtain ⟨-, hhigh⟩ := real_range hpx
  obtain ⟨hzero, -, hdown⟩ := below_bounds hpx (k := reach cfg px) rfl
  have hhalf : reach cfg px ≤ ((cfg.arrayWindow / 2 : ℕ) : ℤ) := min_le_left _ _
  have hpos := hcfg.window_pos
  have hmax := hcfg.window_le
  unfold OrderSlab.nilSlot Bitmaps.maxLevels at *
  refine ⟨rfl, rfl, ⟨(reach cfg px).toNat, ?_, ?_⟩, ?_, ?_⟩
  · show (reach cfg px).toNat < cfg.arrayWindow
    omega
  · simp only [windowFor, Int.toNat_of_nonneg hzero]
    ring
  · simp only [windowFor]
    omega
  · simp only [windowFor]
    rcases tickFor_cases px with htick | htick
    · rw [htick] at hdown ⊢
      omega
    · rw [htick] at hdown ⊢
      omega

/-- The array book that takes over has the window of the price. -/
theorem config_migrate {rb : RefBook} {k : ℤ} {ab : ArrayBook}
    (h : migrate cfg rb px.toInt32 = .ok (k, ab)) : ab.config = windowFor cfg px := by
  obtain ⟨hvalid, heq⟩ := migrate_eq hpx (k := reach cfg px) rfl hcfg rb
  rw [heq] at h
  obtain ⟨ab₀, hcapacity, h⟩ := bind_eq_ok.mp h
  obtain ⟨ab₁, hreadd, h⟩ := bind_eq_ok.mp h
  obtain ⟨-, rfl⟩ := Prod.mk.inj (Except.ok.inj h)
  obtain ⟨-, hconfig⟩ :=
    (ArrayBook.withCapacity_returns (Q := False) hvalid False.elim).of_run hcapacity
  exact (config_of_grid (grid_readd rfl hreadd)).trans hconfig

end Window

/-! One message. -/

def bookWindow : LocateBook → Option BookConfig
  | .array ab => some ab.config
  | .ref _ => none

def deskWindow (d : Desk) : Option BookConfig := d.book.bind bookWindow

theorem windowAt_eq (s : Session) (i : ℕ) : windowAt s i = deskWindow (desk s i) := by
  show windowAt s i = (s.book i).bind bookWindow
  unfold windowAt
  rcases s.book i with _ | _ | _ <;> rfl

/-- The price a message on a desk could centre its window on. -/
def deskCentre (body : Body) (b : Bool) (d' : Desk) : Option UInt32 :=
  match body with
  | .order _ o =>
    if b = true ∧ d'.watched = true then (restsAt o).filter fun px => !isPlaceholder px else none
  | _ => none

theorem bookWindow_apply {b b' : LocateBook} {op : Op} {r : Reply} (h : b.apply op = .ok (r, b')) :
    bookWindow b' = bookWindow b := by
  cases b with
  | array ab =>
    obtain ⟨⟨r', ab'⟩, hab, h⟩ := bind_eq_ok.mp h
    obtain ⟨rfl, rfl⟩ := Prod.mk.inj (Except.ok.inj h)
    exact congrArg some (config_of_grid (onGrid_apply ab op _ hab))
  | ref rb =>
    obtain ⟨⟨r', rb'⟩, -, h⟩ := bind_eq_ok.mp h
    obtain ⟨rfl, rfl⟩ := Prod.mk.inj (Except.ok.inj h)
    rfl

section Step

variable {cfg : SessionConfig} (hcfg : ValidSession cfg)

theorem deskWindow_watch (l : UInt16) (symbol : Option Bytes) (d : Desk) :
    deskWindow (d.watch cfg l symbol) = deskWindow d := by
  unfold Desk.watch
  split <;> rfl

theorem deskWindow_openMissing (l : UInt16) (d : Desk) :
    deskWindow (d.openMissing cfg l).1 = deskWindow d := by
  unfold Desk.openMissing
  cases hbook : d.book with
  | some b => rfl
  | none => simp [deskWindow, hbook, Desk.openBook, Desk.onStats, bookWindow]

theorem deskWindow_directory (l : UInt16) (stock : Bytes) (d : Desk) :
    deskWindow (d.directory cfg l stock) = deskWindow d := by
  have hwatch := @deskWindow_watch cfg l (some stock)
    (d.onStats fun ls => { ls with symbol := stock })
  simp only [Desk.directory]
  split
  · rename_i hnone
    rw [deskWindow, hnone] at hwatch
    exact hwatch
  · exact hwatch

include hcfg

theorem deskWindow_ensureWindow {px : UInt32} {d d' : Desk} (h : d.ensureWindow cfg px = .ok d') :
    d'.watched = d.watched ∧ deskWindow d' = (deskWindow d).or
      (if d.watched = true ∧ isPlaceholder px = false then some (windowFor cfg px) else none) := by
  unfold Desk.ensureWindow at h
  cases hpx : isPlaceholder px with
  | true =>
    rw [hpx, if_pos rfl] at h
    obtain rfl := Except.ok.inj h
    simp
  | false =>
    rw [hpx, if_neg (by simp)] at h
    by_cases hwatched : d.watched = true
    · rw [if_neg (by simpa using hwatched)] at h
      obtain ⟨b, hb, h⟩ := bind_eq_ok.mp h
      have hbook : d.book = some b := by
        cases hd : d.book with
        | none =>
          rw [hd] at hb
          cases hb
        | some b' =>
          rw [hd] at hb
          exact congrArg some (Except.ok.inj hb)
      cases b with
      | array ab =>
        obtain ⟨-, -, h⟩ := bind_eq_ok.mp h
        obtain rfl := Except.ok.inj h
        simp [deskWindow, Desk.onStats, hbook, bookWindow]
      | ref rb =>
        obtain ⟨⟨k, ab⟩, hab, h⟩ := bind_eq_ok.mp h
        obtain rfl := Except.ok.inj h
        simp [deskWindow, Desk.onStats, hbook, bookWindow, config_migrate hcfg hpx hab, hwatched]
    · rw [if_pos (by simpa using hwatched)] at h
      obtain rfl := Except.ok.inj h
      simp [hwatched]

/-- After an accepted order, a real price at rest on the watch is the centre of a window. -/
theorem deskWindow_windowOf {o : Order} {d d' : Desk} (h : d.windowOf cfg o = .ok d') :
    deskWindow d' = (deskWindow d).or ((if d'.watched = true then
      (restsAt o).filter fun px => !isPlaceholder px else none).map (windowFor cfg)) := by
  have hrest : ∀ {px : UInt32}, restsAt o = some px → d.ensureWindow cfg px = .ok d' →
      deskWindow d' = (deskWindow d).or ((if d'.watched = true then
        (restsAt o).filter fun px => !isPlaceholder px else none).map (windowFor cfg)) := by
    intro px ho hd
    obtain ⟨hwatched, hwindow⟩ := deskWindow_ensureWindow hcfg hd
    rw [hwindow, hwatched, ho]
    cases d.watched <;> cases hpx : isPlaceholder px <;> simp [Option.filter, hpx]
  cases o with
  | add id side px qty => exact hrest rfl h
  | replace old new px qty => exact hrest rfl h
  | execute id qty =>
    obtain rfl := Except.ok.inj h
    simp [restsAt]
  | cancel id qty =>
    obtain rfl := Except.ok.inj h
    simp [restsAt]
  | delete id =>
    obtain rfl := Except.ok.inj h
    simp [restsAt]

/-- What a message does to the window of its desk. -/
theorem deskWindow_act {afterQ : Bool} {body : Body} {d d' : Desk} {b : Bool} {cs : List Count}
    (h : act cfg afterQ d body = .ok (b, d', cs)) :
    deskWindow d' = (deskWindow d).or ((deskCentre body b d').map (windowFor cfg)) := by
  cases body with
  | directory l stock =>
    obtain ⟨-, h⟩ := Prod.mk.inj (Except.ok.inj h)
    obtain ⟨rfl, -⟩ := Prod.mk.inj h
    simp [deskWindow_directory, deskCentre]
  | action l state =>
    obtain ⟨-, h⟩ := Prod.mk.inj (Except.ok.inj h)
    obtain ⟨rfl, -⟩ := Prod.mk.inj h
    simp [deskCentre, deskWindow, Desk.onStats]
  | order l o =>
    have hopen := @deskWindow_openMissing cfg l d
    cases ordered h with
    | unsided hop => simp [deskCentre, hopen]
    | refused hop hcall => simp [deskCentre, hopen]
    | @accepted op ev d₁ d₂ ahead crossed hop hcall hahead hwindow hcrossed =>
      obtain ⟨bk, bk', hbk, happly, rfl⟩ := callBook_eq_ok hcall
      have hrecord := book_record cfg { (d.openMissing cfg l).1 with book := some bk' } (.ok ev)
      have hbefore : deskWindow (Desk.record cfg (.ok ev)
          { (d.openMissing cfg l).1 with book := some bk' }).1 = deskWindow d := by
        rw [deskWindow, hrecord, ← hopen, deskWindow, hbk]
        exact bookWindow_apply happly
      rw [deskWindow_windowOf hcfg hwindow, hbefore, deskCentre]
      simp
  | system code ts =>
    obtain ⟨-, h⟩ := Prod.mk.inj (Except.ok.inj h)
    obtain ⟨rfl, -⟩ := Prod.mk.inj h
    simp [deskCentre]
  | print l =>
    obtain ⟨-, h⟩ := Prod.mk.inj (Except.ok.inj h)
    obtain ⟨rfl, -⟩ := Prod.mk.inj h
    simp [deskCentre]
  | unknown =>
    obtain ⟨-, h⟩ := Prod.mk.inj (Except.ok.inj h)
    obtain ⟨rfl, -⟩ := Prod.mk.inj h
    simp [deskCentre]

end Step

/-- What a message does to the window of a locate. -/
theorem window_step {s s' : Session} {m : Msg} {b : Bool} (hcfg : ValidSession s.cfg)
    (h : Aligned s) (hstep : s.applyMsg m = .ok (b, s')) (l : UInt16) : windowAt s' l.toNat =
      (windowAt s l.toNat).or ((centre l m b s').map (windowFor s.cfg)) := by
  rw [windowAt_eq, windowAt_eq]
  cases moved_of_applyMsg h hstep with
  | @worked l' _ d cs hl hact =>
    by_cases hll : l' = l
    · subst hll
      have hcentre : centre l' m b (put (noted s (note m)) l'.toNat d 1 cs) =
          deskCentre (body m) b d := by
        have hdesk := desk_worked hact
        unfold centre deskCentre
        cases hbody : body m with
        | order k o =>
          obtain rfl : k = l' := by
            rw [hbody] at hl
            exact Option.some.inj hl
          have hwatched : (put (noted s (note m)) k.toNat d 1 cs).watched.getD k.toNat false =
              d.watched := congrArg Desk.watched hdesk
          simp only [hwatched, true_and]
        | _ => rfl
      rw [desk_worked hact, hcentre]
      exact deskWindow_act hcfg hact
    · have hne : l.toNat ≠ l'.toNat := fun heq => hll (UInt16.toNat_inj.mp heq).symm
      have hcentre : centre l m b (put (noted s (note m)) l'.toNat d 1 cs) = none := by
        unfold centre
        cases hbody : body m with
        | order k o =>
          rw [hbody] at hl
          obtain rfl : k = l' := Option.some.inj hl
          simp [hll]
        | _ => rfl
      rw [desk_put_ne _ _ _ _ hne, desk_noted, hcentre]
      simp
  | idle hl hs =>
    have hcentre : centre l m false s' = none := by
      unfold centre
      cases hbody : body m with
      | order k o => simp
      | _ => rfl
    rw [hs.desks, desk_noted, hcentre]
    simp

theorem centre_real {l : UInt16} {m : Msg} {b : Bool} {s' : Session} {px : UInt32}
    (h : centre l m b s' = some px) : isPlaceholder px = false := by
  unfold centre at h
  split at h
  · split at h
    · simpa using (Option.filter_eq_some_iff.mp h).2
    · cases h
  · cases h

/-- The window of a locate after a run: the one it had, or the one its first real price on the
watch centred. -/
theorem window_run {s t : Session} {ms : List Msg} {out : List Bool} (hcfg : ValidSession s.cfg)
    (h : Aligned s) (hrun : run Session.applyMsg s ms = .ok (out, t)) (l : UInt16) :
    ∃ ps, centres l s ms = .ok (ps, t) ∧ (∀ px ∈ ps, isPlaceholder px = false) ∧
      windowAt t l.toNat = (windowAt s l.toNat).or (ps.head?.map (windowFor s.cfg)) := by
  induction ms generalizing s out with
  | nil =>
    obtain ⟨-, rfl⟩ := Prod.mk.inj (Except.ok.inj hrun)
    exact ⟨[], rfl, by simp, by simp⟩
  | cons m ms ih =>
    obtain ⟨b, out', s₁, hstep, hrest, -⟩ := run_cons_eq_ok.mp hrun
    have hmoved := moved_of_applyMsg h hstep
    have hcfg₁ : s₁.cfg = s.cfg := hmoved.cfg
    obtain ⟨ps, hps, hreal, hwindow⟩ := ih (hcfg₁ ▸ hcfg) (hmoved.aligned h) hrest
    refine ⟨(centre l m b s₁).toList ++ ps, ?_, fun px hpx => ?_, ?_⟩
    · simp only [centres, hstep, ok_bind, hps, pure_eq_ok]
    · rcases List.mem_append.mp hpx with hpx | hpx
      · exact centre_real (Option.mem_toList.mp hpx)
      · exact hreal px hpx
    · rw [hwindow, window_step hcfg h hstep l, hcfg₁]
      cases windowAt s l.toNat <;> cases centre l m b s₁ <;> simp

/-! The market stays through the move. -/

/-- An order answered with `true` has made a call that the market accepted. -/
theorem accepted_of_true {a : Replay} {l : UInt16} {o : Order} (h : (a.order l o).1 = true) :
    ∃ op ev, o.op = some op ∧ ((a.marketOf l).apply op).1 = .ok ev := by
  cases hop : o.op with
  | none =>
    rw [Replay.order_none hop] at h
    cases h
  | some op =>
    cases hr : ((a.marketOf l).apply op).1 with
    | error e =>
      rw [Replay.order_error hop hr] at h
      cases h
    | ok ev => exact ⟨op, ev, rfl, hr⟩

/-- The message moved the locate: its call was accepted by the reference book, and what that book
then shows is what the array book shows. -/
def Migrates (s : Session) (l : UInt16) (m : Msg) (s' : Session) : Prop :=
  ∃ o op ev rb rb', body m = .order l o ∧ o.op = some op ∧
    (s.book l.toNat).getD (.ref .new) = .ref rb ∧ rb.apply op = .ok (.ok ev, rb') ∧
    snapshotAt s' l.toNat = .ok rb'.snapshot

theorem migrates {cfg : SessionConfig} {s s' : Session} {a : Replay} (h : Follows cfg s a)
    {m : Msg} {b : Bool} (hstep : s.applyMsg m = .ok (b, s')) {l : UInt16}
    (hnone : windowAt s l.toNat = none) (hmoved : windowAt s' l.toNat ≠ none) :
    Migrates s l m s' := by
  have haligned : Aligned s := Closings.aligned_of_follows h
  have hwindow := window_step (h.cfg_eq.symm ▸ h.valid) haligned hstep l
  obtain ⟨hb, hnext⟩ : b = (a.apply (note m)).1 ∧ Follows cfg s' (a.apply (note m)).2 :=
    (applyMsg_answers (Q := False) h False.elim m False.elim).of_run hstep
  have hcentre : centre l m b s' ≠ none := by
    intro hc
    rw [hnone, hc] at hwindow
    exact hmoved hwindow
  obtain ⟨o, hbody, htrue⟩ : ∃ o, body m = .order l o ∧ b = true := by
    unfold centre at hcentre
    cases hbody : body m with
    | order k o =>
      rw [hbody] at hcentre
      by_cases hall : k = l ∧ b = true ∧ s'.watched.getD l.toNat false = true
      · exact ⟨o, by rw [hall.1], hall.2.1⟩
      · exact absurd (if_neg hall) hcentre
    | _ => simp [hbody] at hcentre
  have hanswer : (a.apply (note m)).1 = ((a.withStats fun st =>
      st.noteMessage (note m).ty (note m).ts).order l o).1 := by
    show (Replay.dispatch _ (body m)).1 = _
    rw [hbody]
    rfl
  obtain ⟨op, ev, hop, hev⟩ := accepted_of_true (hanswer ▸ hb.symm.trans htrue)
  have hev : ((a.marketAt l.toNat).apply op).1 = .ok ev := hev
  have hbook := refines_getD h l.toNat
  cases hget : (s.book l.toNat).getD (.ref .new) with
  | array ab =>
    have hsome : s.book l.toNat = some (.array ab) := by
      cases hs : s.book l.toNat with
      | none =>
        rw [hs] at hget
        cases hget
      | some b' => exact congrArg some (by rwa [hs] at hget)
    simp [windowAt, hsome] at hnone
  | ref rb =>
    rw [hget] at hbook
    obtain ⟨rb', hrb', href⟩ := RefBook.Refines.apply hbook.shown op
    have hmarket := a.marketAt_order (n := note m) hbody hop
    refine ⟨o, op, ev, rb, rb', hbody, hop, hget, by rw [hrb', hev], ?_⟩
    rw [snapshotAt_eq hnext, hmarket, RefBook.Refines.snapshot_eq href]

/-- A locate is on an array book exactly when a real price has been accepted for it on the watch.
The window is the one centred on the first such price; no later message moves it, and the move
keeps the snapshot. -/
theorem array_window_law {cfg : SessionConfig} (hcfg : ValidSession cfg) {ms : List Msg}
    {out : List Bool} {s : Session} (hrun : run Session.applyMsg (.new cfg) ms = .ok (out, s))
    (l : UInt16) : ∃ ps, centres l (.new cfg) ms = .ok (ps, s) ∧
      ((∃ ab, s.book l.toNat = some (.array ab)) ↔ ps ≠ []) ∧
      (∀ px, ps.head? = some px →
        windowAt s l.toNat = some (windowFor cfg px) ∧ Centred cfg px (windowFor cfg px)) ∧
      ∀ m b s', s.applyMsg m = .ok (b, s') →
        (∀ w, windowAt s l.toNat = some w → windowAt s' l.toNat = some w) ∧
        (windowAt s l.toNat = none → windowAt s' l.toNat ≠ none → Migrates s l m s') := by
  obtain ⟨-, hfollows⟩ := follows_of_run hcfg hrun
  have hnew : Aligned (.new cfg) := aligned_new _
  have hstart : windowAt (.new cfg) l.toNat = none := by simp [windowAt, Session.new, Session.book]
  obtain ⟨ps, hps, hreal, hwindow⟩ := window_run (s := .new cfg) hcfg hnew hrun l
  rw [hstart, Option.none_or] at hwindow
  have hwindow : windowAt s l.toNat = ps.head?.map (windowFor cfg) := hwindow
  have haligned : Aligned s := Closings.aligned_of_follows hfollows
  refine ⟨ps, hps, ?_, fun px hpx => ?_, fun m b s' hstep => ⟨fun w hw => ?_, ?_⟩⟩
  · have harray : (∃ ab, s.book l.toNat = some (.array ab)) ↔ windowAt s l.toNat ≠ none := by
      unfold windowAt
      rcases s.book l.toNat with _ | _ | _ <;> simp
    rw [harray, hwindow]
    cases ps <;> simp
  · have hmem : px ∈ ps := List.mem_of_head? hpx
    exact ⟨by rw [hwindow, hpx]; rfl, centred_windowFor hcfg (hreal px hmem)⟩
  · rw [window_step (hfollows.cfg_eq.symm ▸ hcfg) haligned hstep l, hw]
    rfl
  · exact migrates hfollows hstep

/-- A bid at 0.01, and then one at 1.0000 that centres the window. -/
theorem array_window_law_second : ∃ out s ps,
    run Session.applyMsg (.new (watchEvery 64)) [addMsg ⟨0, 0, 0⟩ 1 66 5 blank 100,
      addMsg ⟨0, 0, 0⟩ 2 66 5 blank 10000] = .ok (out, s) ∧
    centres 0 (.new (watchEvery 64)) [addMsg ⟨0, 0, 0⟩ 1 66 5 blank 100,
      addMsg ⟨0, 0, 0⟩ 2 66 5 blank 10000] = .ok (ps, s) ∧
    ((∃ ab, s.book 0 = some (.array ab)) ↔ ps ≠ []) := by
  obtain ⟨⟨out, s⟩, hrun⟩ := ok_of_not_panics (x := run Session.applyMsg (.new (watchEvery 64))
    [addMsg ⟨0, 0, 0⟩ 1 66 5 blank 100, addMsg ⟨0, 0, 0⟩ 2 66 5 blank 10000]) (by decide +kernel)
  obtain ⟨ps, hps, hiff, -⟩ := array_window_law (watchEvery_valid 64) hrun 0
  exact ⟨out, s, ps, hrun, hps, hiff⟩

end Lobcore.ArrayWindows
