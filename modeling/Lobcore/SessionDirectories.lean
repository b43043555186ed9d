import Lobcore.LocateIsolation
import Mathlib.Data.List.GetD

/-!
The directory of a session: which locates have a book, which are watched, and the symbol and the
trading state that are published for them. A directory message sets the symbol, opens a book and
may put the locate on the watch; an order opens a missing book and may watch a locate by its
number; an action sets the state. So the directory after a run is read off its messages, and a
symbol is looked up among their last entries.
-/
namespace Lobcore.SessionDirectories

open Checked OrderTypes Payloads SessionStats Sessions Replays Desks DeskSteps SessionRefines
open SessionRuns LocateIsolation Closings Migrations Writers

/-- What the directory says of a locate. -/
@[ext] structure Status where
  opened : Bool
  watched : Bool
  symbol : Bytes
  hState : UInt8

def status (d : Desk) : Status := ⟨d.book.isSome, d.stats.watched, d.stats.symbol, d.stats.hState⟩

/-- What a message does to the status of the locate it is for. -/
def restatus (wl : Watchlist) (p : Status) : Body → Status
  | .directory l stock =>
    { p with opened := true, watched := p.watched || wl.matchesLocate l (some stock),
             symbol := stock }
  | .action _ state => { p with hState := state }
  | .order l _ =>
    { p with opened := true, watched := p.watched || (!p.opened && wl.matchesLocate l none) }
  | _ => p

section Status

variable (cfg : SessionConfig) (l : UInt16) (d : Desk)

theorem status_watch (symbol : Option Bytes) : status (d.watch cfg l symbol) =
    { status d with watched := d.stats.watched || cfg.watchlist.matchesLocate l symbol } := by
  unfold Desk.watch
  cases hmatch : cfg.watchlist.matchesLocate l symbol with
  | true => exact Status.ext rfl (Bool.or_true _).symm rfl rfl
  | false => exact Status.ext rfl (Bool.or_false _).symm rfl rfl

theorem status_openBook : status d.openBook = { status d with opened := true } := rfl

theorem status_directory (stock : Bytes) : status (d.directory cfg l stock) =
    restatus cfg.watchlist (status d) (.directory l stock) := by
  have hwatch := status_watch cfg l (d.onStats fun ls => { ls with symbol := stock }) (some stock)
  simp only [Desk.directory]
  split
  · rw [status_openBook, hwatch]
    rfl
  · rename_i bk hbook
    have hopen := congrArg Status.opened hwatch
    rw [hwatch]
    refine Status.ext ?_ rfl rfl rfl
    exact hopen.symm.trans (congrArg Option.isSome hbook)

theorem status_openMissing (o : Order) : status (d.openMissing cfg l).1 =
    restatus cfg.watchlist (status d) (.order l o) := by
  unfold Desk.openMissing
  split
  · rename_i bk hbook
    have hopen : (status d).opened = true := congrArg Option.isSome hbook
    refine Status.ext hopen ?_ rfl rfl
    rw [restatus, hopen]
    exact (Bool.or_false _).symm
  · rename_i hbook
    have hnone : (status d).opened = false := congrArg Option.isSome hbook
    show status ((d.watch cfg l none).openBook) = _
    rw [status_openBook, status_watch, restatus, hnone]
    rfl

theorem status_record (r : Reply) : status (d.record cfg r).1 = status d := by
  unfold Desk.record
  cases r with
  | error e => rfl
  | ok ev =>
    by_cases hd : liveDelta ev ≠ 0
    · simp only [if_pos hd]
      rfl
    · simp only [if_neg hd]

end Status

theorem status_ensureWindow {cfg : SessionConfig} {px : UInt32} {d d' : Desk}
    (h : d.ensureWindow cfg px = .ok d') : status d' = status d := by
  unfold Desk.ensureWindow at h
  split at h
  · rw [← Except.ok.inj h]
  · split at h
    · rw [← Except.ok.inj h]
    · obtain ⟨bk, hbk, h⟩ := bind_eq_ok.mp h
      have hbook : d.book.isSome = true := by
        cases hd : d.book with
        | none =>
          rw [hd] at hbk
          cases hbk
        | some bk' => rfl
      cases bk with
      | array ab =>
        obtain ⟨-, -, h⟩ := bind_eq_ok.mp h
        rw [← Except.ok.inj h]
        rfl
      | ref rb =>
        obtain ⟨⟨k, ab⟩, -, h⟩ := bind_eq_ok.mp h
        rw [← Except.ok.inj h]
        exact Status.ext hbook.symm rfl rfl rfl

theorem status_windowOf {cfg : SessionConfig} {o : Order} {d d' : Desk}
    (h : d.windowOf cfg o = .ok d') : status d' = status d := by
  cases o with
  | add id side px qty => exact status_ensureWindow h
  | replace old new px qty => exact status_ensureWindow h
  | execute id qty => rw [← Except.ok.inj h]
  | cancel id qty => rw [← Except.ok.inj h]
  | delete id => rw [← Except.ok.inj h]

/-- A message on the desk of its locate. -/
theorem status_act {cfg : SessionConfig} {afterQ : Bool} {bd : Body} {d d' : Desk} {b : Bool}
    {cs : List Count} (h : act cfg afterQ d bd = .ok (b, d', cs)) :
    status d' = restatus cfg.watchlist (status d) bd := by
  cases bd with
  | directory l stock =>
    obtain ⟨-, h⟩ := Prod.mk.inj (Except.ok.inj h)
    rw [← (Prod.mk.inj h).1]
    exact status_directory cfg l d stock
  | order l o =>
    have hopen := status_openMissing cfg l d o
    cases ordered h with
    | unsided hop => exact hopen
    | refused hop hcall => exact hopen
    | @accepted op ev d₁ d₂ ahead crossed hop hcall hahead hwindow hcrossed =>
      obtain ⟨bk, bk', hbk, -, rfl⟩ := callBook_eq_ok hcall
      rw [status_windowOf hwindow, status_record, ← hopen]
      exact Status.ext (congrArg Option.isSome hbk).symm rfl rfl rfl
  | action l state =>
    obtain ⟨-, h⟩ := Prod.mk.inj (Except.ok.inj h)
    rw [← (Prod.mk.inj h).1]
    rfl
  | system code ts =>
    obtain ⟨-, h⟩ := Prod.mk.inj (Except.ok.inj h)
    rw [← (Prod.mk.inj h).1]
    rfl
  | print l =>
    obtain ⟨-, h⟩ := Prod.mk.inj (Except.ok.inj h)
    rw [← (Prod.mk.inj h).1]
    rfl
  | unknown =>
    obtain ⟨-, h⟩ := Prod.mk.inj (Except.ok.inj h)
    rw [← (Prod.mk.inj h).1]
    rfl

/-- A message on the status of any locate. -/
def heard (wl : Watchlist) (l : UInt16) (p : Status) (m : Msg) : Status :=
  if target (body m) = some l then restatus wl p (body m) else p

theorem status_step {s s' : Session} {m : Msg} {b : Bool} (h : Aligned s)
    (hstep : s.applyMsg m = .ok (b, s')) (l : UInt16) :
    status (desk s' l.toNat) = heard s.cfg.watchlist l (status (desk s l.toNat)) m := by
  unfold heard
  cases moved_of_applyMsg h hstep with
  | @worked k _ d cs hl hact =>
    by_cases hk : l = k
    · subst hk
      rw [if_pos hl, desk_worked hact, status_act hact]
    · have hne : target (body m) ≠ some l :=
        fun hl' => hk (Option.some.inj (hl'.symm.trans hl))
      rw [if_neg hne, desk_put_ne _ _ _ _ (fun heq => hk (UInt16.toNat_inj.mp heq)), desk_noted]
  | idle hl hs =>
    have hne : target (body m) ≠ some l := by
      rw [hl]
      exact nofun
    rw [if_neg hne, hs.desks, desk_noted]

/-- The trading state of an action message. -/
def stateOf : Body → Option UInt8
  | .action _ state => some state
  | _ => none

section Heard

variable {wl : Watchlist} {l : UInt16}

end Heard

end Lobcore.SessionDirectories
