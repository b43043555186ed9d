import Lobcore.Handlers

/-!
What a session keeps for one locate, and what an order message does to it. A session is its
desks side by side, with counters and a log that all of them move; a handler works on the
desk of its locate alone. It is read off the session's code once, here, and every statement
about one locate is a statement about a desk.
-/
namespace Lobcore.Desks

open Checked OrderTypes Payloads SessionStats Sessions Replays Handlers

/-- What is kept for one locate. The message count is left at zero. -/
structure Desk where
  book : Option LocateBook
  watched : Bool
  stats : LocateStats

/-- A move of the counters and the log that the locates share. -/
inductive Count where
  | noDirectory
  | placeholder
  | badSide
  | logged (e : Event)
  | rejected (e : BookError)
  | live (d : ℤ)
  | execution (atHead : Bool)
  | overCancel
  | crossedBeforeQ
  | crossedAfterQ (trading : Bool)
  deriving DecidableEq, Repr

namespace Count

def stats (st : Stats) : Count → Stats
  | noDirectory => st.countNoDirectory
  | placeholder => st.countPlaceholder
  | badSide => st.countBadSide
  | logged _ => st
  | rejected e => st.countError e
  | live d => st.moveLive d
  | execution atHead => st.countExecution atHead
  | overCancel => st.countOverCancel
  | crossedBeforeQ => st.countCrossedBeforeQ
  | crossedAfterQ trading => st.countCrossedAfterQ trading

def log (log : EventLog) : Count → EventLog
  | logged e => log.push e
  | _ => log

end Count

/-- The moves in order, on the counters. -/
def countAll (cs : List Count) (st : Stats) : Stats := cs.foldl Count.stats st

/-- The moves in order, on the log. -/
def logAll (cs : List Count) (log : EventLog) : EventLog := cs.foldl Count.log log

namespace Desk

def new : Desk := ⟨none, false, .new⟩

def onStats (d : Desk) (f : LocateStats → LocateStats) : Desk := { d with stats := f d.stats }

def watch (cfg : SessionConfig) (l : UInt16) (symbol : Option Bytes) (d : Desk) : Desk :=
  if cfg.watchlist.matchesLocate l symbol then
    { d with watched := true }.onStats fun ls => { ls with watched := true }
  else d

def openBook (d : Desk) : Desk :=
  { d with book := some (.ref .new) }.onStats fun ls => { ls with hasBook := true }

def directory (cfg : SessionConfig) (l : UInt16) (stock : Bytes) (d : Desk) : Desk :=
  let d := (d.onStats fun ls => { ls with symbol := stock }).watch cfg l (some stock)
  match d.book with
  | none => d.openBook
  | some _ => d

/-- A book on demand. -/
def openMissing (cfg : SessionConfig) (l : UInt16) (d : Desk) : Desk × List Count :=
  match d.book with
  | some _ => (d, [])
  | none => ((d.watch cfg l none).openBook, [.noDirectory])

def callBook (op : Op) (d : Desk) : Exec (Reply × Desk) := do
  let (r, b) ← (← expect d.book).apply op
  return (r, { d with book := some b })

/-- What a reply adds to the counters of the desk and to the shared ones. -/
def record (cfg : SessionConfig) (r : Reply) (d : Desk) : Desk × List Count :=
  let logged := if cfg.logEvents then [Count.logged (loggedEvent r)] else []
  match r with
  | .error e => (d, logged ++ [.rejected e])
  | .ok ev =>
    if liveDelta ev ≠ 0 then
      (d.onStats (.moveLive (liveDelta ev)), logged ++ [.live (liveDelta ev)])
    else (d, logged)

/-- The array window follows an accepted order at a real price. -/
def ensureWindow (cfg : SessionConfig) (px : UInt32) (d : Desk) : Exec Desk :=
  if isPlaceholder px then .ok d
  else if ¬ d.watched then .ok d
  else do
    match ← expect d.book with
    | .array ab =>
      ensure (ab.config.tick ≠ 0)
      let off := |(px.toInt32.toInt - ab.config.basePx).tdiv ab.config.tick|
      return d.onStats fun ls => { ls with maxAbsOffsetReal := max ls.maxAbsOffsetReal off }
    | .ref rb =>
      let (k, ab) ← migrate cfg rb px.toInt32
      return { d with book := some (.array ab) }.onStats fun ls => { ls with maxAbsOffsetReal := k }

/-- Crossed-snapshot statistic after a book change. -/
def checkCrossed (afterQ : Bool) (d : Desk) : Exec (List Count) := do
  match ← (← expect d.book).l1 with
  | (some bid, some ask) =>
    if ask.1 ≤ bid.1 then
      if afterQ then return [.crossedAfterQ (letter d.stats.hState = 'T')]
      else return [.crossedBeforeQ]
    else return []
  | _ => return []

/-- The quantity ahead of the order that an execution names. -/
def aheadOf (d : Desk) : Order → Exec (Option ℕ)
  | .execute id _ => do (← expect d.book).queueAhead id
  | _ => .ok none

def placeholderOf : Order → List Count
  | .add _ _ px _ => if isPlaceholder px then [.placeholder] else []
  | _ => []

/-- What an accepted order counts besides. -/
def acceptedOf (ahead : Option ℕ) (ev : Event) : Order → List Count
  | .execute _ _ => [.execution (ahead = some 0)]
  | .cancel _ qty => if ev.qty.toNat < qty.toNat then [.overCancel] else []
  | _ => []

/-- The window moves on adds and replaces only. -/
def windowOf (cfg : SessionConfig) (d : Desk) : Order → Exec Desk
  | .add _ _ px _ => d.ensureWindow cfg px
  | .replace _ _ px _ => d.ensureWindow cfg px
  | _ => .ok d

/-- An order message on the desk of its locate. -/
def order (cfg : SessionConfig) (afterQ : Bool) (l : UInt16) (o : Order) (d : Desk) :
    Exec (Bool × Desk × List Count) := do
  let (d, opened) := d.openMissing cfg l
  match o.op with
  | none => return (false, d, opened ++ placeholderOf o ++ [.badSide])
  | some op =>
    let ahead ← d.aheadOf o
    let (r, d) ← d.callBook op
    let (d, recorded) := d.record cfg r
    match r with
    | .error _ => return (false, d, opened ++ placeholderOf o ++ recorded)
    | .ok ev =>
      let d ← d.windowOf cfg o
      let crossed ← d.checkCrossed afterQ
      return (true, d, opened ++ placeholderOf o ++ recorded ++ acceptedOf ahead ev o ++ crossed)

end Desk

/-! A session with one of its desks in front. -/

attribute [ext] Session

/-- What a session keeps for a locate. -/
def desk (s : Session) (l : ℕ) : Desk :=
  ⟨s.book l, s.watched.getD l false, { s.stats.locates.getD l .new with msgs := 0 }⟩

/-- The session with another desk for the locate, `n` messages more on it, and the shared
counters moved. -/
def put (s : Session) (l : ℕ) (d : Desk) (n : ℕ) (cs : List Count) : Session :=
  { s with
    books := (growTo s.books (l + 1) none).set l d.book
    watched := (growTo s.watched (l + 1) false).set l d.watched
    log := logAll cs s.log
    stats := { countAll cs s.stats with
      locates := (growTo s.stats.locates (l + 1) .new).modify l fun ls =>
        { d.stats with msgs := ls.msgs + n } } }

/-- The three vectors of a session have one entry for each locate. -/
structure Aligned (s : Session) : Prop where
  watched : s.watched.length = s.books.length
  locates : s.stats.locates.length = s.books.length
  sized : s.stats.Sized

theorem countAll_append (cs ds : List Count) (st : Stats) :
    countAll (cs ++ ds) st = countAll ds (countAll cs st) := List.foldl_append

theorem logAll_append (cs ds : List Count) (log : EventLog) :
    logAll (cs ++ ds) log = logAll ds (logAll cs log) := List.foldl_append

/-- The shared counters do not depend on the locates. -/
theorem countAll_locates (cs : List Count) (st : Stats) (locates : List LocateStats) :
    countAll cs { st with locates } = { countAll cs st with locates } := by
  induction cs generalizing st with
  | nil => rfl
  | cons c cs ih =>
    have hone : c.stats { st with locates } = { c.stats st with locates } := by
      cases c with
      | rejected e => cases e <;> rfl
      | _ => rfl
    rw [countAll, List.foldl_cons, hone]
    exact ih (c.stats st)

section Put

variable (s : Session) (l : ℕ) (d : Desk) (n : ℕ) (cs : List Count)

theorem lt_put : l < (put s l d n cs).books.length := by
  show l < ((growTo _ _ _).set _ _).length
  rw [List.length_set, length_growTo]
  omega

theorem put_books : (put s l d n cs).books[l]? = some d.book :=
  List.getElem?_set_self (by rw [length_growTo]; omega)

theorem put_watched : (put s l d n cs).watched[l]? = some d.watched :=
  List.getElem?_set_self (by rw [length_growTo]; omega)

theorem put_book : (put s l d n cs).book l = d.book := by
  rw [Session.book, put_books, Option.join_some]

theorem put_locates_lt : l < (put s l d n cs).stats.locates.length := by
  show l < ((growTo _ _ _).modify _ _).length
  rw [List.length_modify, length_growTo]
  omega

/-- Another book. -/
theorem put_setBook (b : Option LocateBook) :
    { put s l d n cs with books := (put s l d n cs).books.set l b } =
      put s l { d with book := b } n cs := by
  simp only [put, List.set_set]

theorem put_setWatched (w : Bool) :
    { put s l d n cs with watched := (put s l d n cs).watched.set l w } =
      put s l { d with watched := w } n cs := by
  simp only [put, List.set_set]

/-- One move more of the shared counters. -/
theorem put_count (c : Count) (hc : ∀ log, c.log log = log) :
    { put s l d n cs with stats := c.stats (put s l d n cs).stats } =
      put s l d n (cs ++ [c]) := by
  have hlog : logAll cs s.log = logAll (cs ++ [c]) s.log := by
    rw [logAll_append]
    exact (hc _).symm
  have hstats : c.stats (put s l d n cs).stats = (put s l d n (cs ++ [c])).stats := by
    have hone := countAll_locates [c] (countAll cs s.stats) (put s l d n cs).stats.locates
    rw [← countAll_append] at hone
    exact hone
  exact Session.ext rfl rfl rfl rfl rfl hlog hstats rfl

theorem put_push (e : Event) :
    { put s l d n cs with log := (put s l d n cs).log.push e } =
      put s l d n (cs ++ [.logged e]) := by
  simp only [put, countAll_append, logAll_append]
  rfl

end Put

section Front

variable (s : Session) (l : UInt16) (d : Desk) (n : ℕ) (cs : List Count)

theorem put_bookMut : (put s l.toNat d n cs).bookMut l = expect d.book := by
  rw [Session.bookMut, index_ok (put_books s l.toNat d n cs), ok_bind]

theorem put_modify {f : LocateStats → LocateStats} (ls' : LocateStats) (n' : ℕ)
    (hf : ∀ ls : LocateStats, f { d.stats with msgs := ls.msgs + n } =
      { ls' with msgs := ls.msgs + n' }) :
    (put s l.toNat d n cs).atLocate l f =
      .ok (put s l.toNat { d with stats := ls' } n' cs) := by
  rw [Session.atLocate, Stats.atLocate_ok (put_locates_lt s l.toNat d n cs), ok_bind, pure_eq_ok]
  simp only [put, Stats.onLocate, List.modify_modify_eq, Function.comp_def, hf]

/-- An update of the locate's counters that leaves the message count alone. -/
theorem put_atLocate {f : LocateStats → LocateStats}
    (hf : ∀ ls k, f { ls with msgs := k } = { f ls with msgs := k }) :
    (put s l.toNat d n cs).atLocate l f = .ok (put s l.toNat (d.onStats f) n cs) :=
  put_modify s l d n cs (f d.stats) n fun _ => hf _ _

/-- One message more on the locate. -/
theorem put_message :
    (put s l.toNat d n cs).atLocate l (fun ls => { ls with msgs := ls.msgs + 1 }) =
      .ok (put s l.toNat d (n + 1) cs) :=
  put_modify s l d n cs d.stats (n + 1) fun _ => rfl

theorem put_watch (symbol : Option Bytes) :
    (put s l.toNat d n cs).watch l symbol = .ok (put s l.toNat (d.watch s.cfg l symbol) n cs) := by
  have hlt : l.toNat < (put s l.toNat d n cs).watched.length :=
    (List.getElem?_eq_some_iff.mp (put_watched s l.toNat d n cs)).1
  unfold Session.watch Desk.watch
  show (if s.cfg.watchlist.matchesLocate l symbol then _ else _) = _
  split
  · rw [store_ok hlt, ok_bind, put_setWatched]
    exact put_atLocate s l _ n cs fun _ _ => rfl
  · rfl

theorem put_openBook :
    (put s l.toNat d n cs).openBook l = .ok (put s l.toNat d.openBook n cs) := by
  rw [Session.openBook, store_ok (lt_put s l.toNat d n cs), ok_bind, put_setBook]
  exact put_atLocate s l _ n cs fun _ _ => rfl

theorem put_callBook (op : Op) :
    (put s l.toNat d n cs).callBook l op = (do
      let (r, d) ← d.callBook op
      return (r, put s l.toNat d n cs)) := by
  simp only [Session.callBook, Desk.callBook, put_bookMut]
  cases d.book with
  | none => rfl
  | some b =>
    simp only [expect_some, ok_bind]
    cases b.apply op with
    | error e => rfl
    | ok p =>
      simp only [ok_bind, store_ok (lt_put s l.toNat d n cs), put_setBook, pure_eq_ok]

theorem put_record (r : Reply) :
    (put s l.toNat d n cs).record l r =
      .ok (r.toOption, put s l.toNat (d.record s.cfg r).1 n (cs ++ (d.record s.cfg r).2)) := by
  have hlog : (if (put s l.toNat d n cs).cfg.logEvents then
      { put s l.toNat d n cs with log := (put s l.toNat d n cs).log.push (loggedEvent r) }
      else put s l.toNat d n cs) =
      put s l.toNat d n (cs ++ if s.cfg.logEvents then [.logged (loggedEvent r)] else []) := by
    show (if s.cfg.logEvents then _ else _) = _
    split
    · exact put_push s l.toNat d n cs _
    · rw [List.append_nil]
  unfold Session.record Desk.record
  rw [hlog]
  cases r with
  | error e =>
    have hcount := put_count s l.toNat d n
      (cs ++ if s.cfg.logEvents then [.logged (loggedEvent (.error e))] else []) (.rejected e)
      fun _ => rfl
    rw [List.append_assoc] at hcount
    exact congrArg (fun s' => Except.ok (none, s')) hcount
  | ok ev =>
    by_cases hd : liveDelta ev = 0
    · simp only [hd, ne_eq, not_true_eq_false, if_false, Except.toOption]
    · simp only [ne_eq, hd, not_false_eq_true, if_true, Except.toOption]
      rw [put_atLocate s l d n _ fun _ _ => rfl, ok_bind, pure_eq_ok, ← List.append_assoc]
      exact congrArg (fun s' => Except.ok (some ev, s'))
        (put_count s l.toNat _ n _ (.live _) fun _ => rfl)

theorem put_ensureWindow (px : UInt32) :
    (put s l.toNat d n cs).ensureWindow l px = (do
      let d ← d.ensureWindow s.cfg px
      return put s l.toNat d n cs) := by
  unfold Session.ensureWindow Session.ensureArray Desk.ensureWindow
  rw [index_ok (put_watched s l.toNat d n cs), ok_bind, put_bookMut]
  split
  · rfl
  · split
    · rfl
    · cases d.book with
      | none => rfl
      | some b =>
        simp only [expect_some, ok_bind]
        cases b with
        | array ab =>
          by_cases htick : ab.config.tick ≠ 0
          · simp only [ensure_ok htick, ok_bind]
            exact put_atLocate s l d n cs fun _ _ => rfl
          · have hstop : ensure (ab.config.tick ≠ 0) = .error .assertion := if_neg htick
            simp only [hstop, error_bind]
        | ref rb =>
          have hcfg : (put s l.toNat d n cs).cfg = s.cfg := rfl
          rcases hm : migrate s.cfg rb px.toInt32 with e | ⟨k, ab⟩
          · have hm' := hm
            rw [← hcfg] at hm'
            simp only [hm, hm', error_bind]
          · have hm' := hm
            rw [← hcfg] at hm'
            simp only [hm, hm', ok_bind, store_ok (lt_put s l.toNat d n cs),
              put_setBook, pure_eq_ok]
            exact put_atLocate s l { d with book := some (.array ab) } n cs fun _ _ => rfl

theorem put_checkCrossed :
    (put s l.toNat d n cs).checkCrossed l = (do
      let crossed ← d.checkCrossed s.afterQ
      return put s l.toNat d n (cs ++ crossed)) := by
  have hstate : (put s l.toNat d n cs).stats.locates[l.toNat]?.map LocateStats.hState =
      some d.stats.hState := by
    have hlt := put_locates_lt s l.toNat d n cs
    rw [List.getElem?_eq_getElem hlt, Option.map_some]
    simp only [put, List.getElem_modify_eq]
  have hcross : (put s l.toNat d n cs).countCrossed l = .ok (put s l.toNat d n (cs ++
      [if s.afterQ then .crossedAfterQ (letter d.stats.hState = 'T') else .crossedBeforeQ])) := by
    unfold Session.countCrossed
    show (if s.afterQ then _ else _) = _
    split
    · obtain ⟨ls, hls, hh⟩ := Option.map_eq_some_iff.mp hstate
      rw [index_ok hls, ok_bind, hh, pure_eq_ok]
      exact congrArg Except.ok (put_count s l.toNat d n cs (.crossedAfterQ _) fun _ => rfl)
    · exact congrArg Except.ok (put_count s l.toNat d n cs .crossedBeforeQ fun _ => rfl)
  unfold Session.checkCrossed Desk.checkCrossed
  rw [put_bookMut]
  cases d.book with
  | none => rfl
  | some b =>
    simp only [expect_some, ok_bind]
    cases b.l1 with
    | error e => rfl
    | ok v =>
      rcases v with ⟨_ | bid, _ | ask⟩
      · simp only [ok_bind, pure_eq_ok, List.append_nil]
      · simp only [ok_bind, pure_eq_ok, List.append_nil]
      · simp only [ok_bind, pure_eq_ok, List.append_nil]
      · simp only [ok_bind, hcross]
        by_cases hle : ask.1 ≤ bid.1
        · simp only [if_pos hle]
          split <;> rfl
        · simp only [if_neg hle, pure_eq_ok, ok_bind, List.append_nil]

end Front

theorem growTo_get {α : Type} (xs : List α) {n i : ℕ} (a : α) (hi : i < n) :
    (growTo xs n a)[i]? = some (xs.getD i a) := by
  rw [growTo_getElem?, if_pos hi, List.getD_eq_getElem?_getD]
  split
  · rename_i hlt
    rw [List.getElem?_eq_getElem hlt, Option.getD_some]
  · rename_i hge
    rw [List.getElem?_eq_none (not_lt.mp hge), Option.getD_none]

theorem set_same {α : Type} {xs : List α} {i : ℕ} {a : α} (h : xs[i]? = some a) :
    xs.set i a = xs := by
  refine List.ext_getElem? fun j => ?_
  rw [List.getElem?_set]
  split
  · rename_i hij
    rw [if_pos (List.getElem?_eq_some_iff.mp h).1, ← hij, h]
  · rfl

theorem book_eq_getD (s : Session) (l : ℕ) : s.book l = s.books.getD l none := by
  rw [Session.book, List.getD_eq_getElem?_getD]
  cases s.books[l]? <;> rfl

section Desked

variable {s : Session} (h : Aligned s) (l : UInt16)

include h

theorem ensureLocate_eq : s.ensureLocate l = { s with
    books := growTo s.books (l.toNat + 1) none
    watched := growTo s.watched (l.toNat + 1) false
    stats := s.stats.grow l.toNat } := by
  by_cases hlt : s.books.length < l.toNat + 1
  · simp only [Session.ensureLocate, growTo, Stats.grow, h.watched, h.locates, if_pos hlt]
  · simp only [Session.ensureLocate, growTo, Stats.grow, h.watched, h.locates, if_neg hlt]

/-- A session is its desk of the locate put back, once it has an entry for it. -/
theorem ensureLocate_put : s.ensureLocate l = put s l.toNat (desk s l.toNat) 0 [] := by
  have hbook := set_same (growTo_get s.books none (Nat.lt_succ_self l.toNat))
  have hwatched := set_same (growTo_get s.watched false (Nat.lt_succ_self l.toNat))
  have hstats : (growTo s.stats.locates (l.toNat + 1) .new).modify l.toNat (fun ls =>
      { (desk s l.toNat).stats with msgs := ls.msgs + 0 }) =
      growTo s.stats.locates (l.toNat + 1) .new := by
    have hget := growTo_get s.stats.locates LocateStats.new (Nat.lt_succ_self l.toNat)
    rw [Stats.modify_eq_set hget]
    exact set_same hget
  rw [ensureLocate_eq h]
  refine Session.ext rfl ?_ ?_ rfl rfl rfl ?_ rfl
  · show _ = (growTo s.books _ none).set _ (s.book l.toNat)
    rw [book_eq_getD, hbook]
  · exact hwatched.symm
  · simp only [put, hstats]
    rfl

theorem put_desk (hl : l.toNat < s.books.length) :
    put s l.toNat (desk s l.toNat) 0 [] = s := by
  rw [← ensureLocate_put h l, Session.ensureLocate, if_neg (by omega)]

theorem openMissing_put : s.openMissing l = .ok (put s l.toNat
    ((desk s l.toNat).openMissing s.cfg l).1 0 ((desk s l.toNat).openMissing s.cfg l).2) := by
  unfold Session.openMissing Desk.openMissing
  cases hbook : s.book l.toNat with
  | some b =>
    have hlt : l.toNat < s.books.length :=
      (List.getElem?_eq_some_iff.mp (Option.join_eq_some_iff.mp hbook)).1
    have hdesk : (desk s l.toNat).book = some b := hbook
    simp only [hdesk, put_desk h l hlt]
  | none =>
    have hdesk : (desk s l.toNat).book = none := hbook
    simp only [hdesk]
    have hcount : { s.ensureLocate l with
        stats := (s.ensureLocate l).stats.countNoDirectory } =
        put s l.toNat (desk s l.toNat) 0 [.noDirectory] := by
      rw [ensureLocate_put h]
      exact put_count s l.toNat _ 0 [] .noDirectory fun _ => rfl
    rw [hcount, put_watch, ok_bind, put_openBook]

theorem ensureBook_put : s.ensureBook l = .ok (put s l.toNat
    ((desk s l.toNat).openMissing s.cfg l).1 1 ((desk s l.toNat).openMissing s.cfg l).2) := by
  rw [Session.ensureBook, openMissing_put h, ok_bind, put_message]

theorem directory_put (stock : Bytes) : s.directory l stock =
    .ok (put s l.toNat ((desk s l.toNat).directory s.cfg l stock) 1 []) := by
  unfold Session.directory Desk.directory
  rw [ensureLocate_put h, put_modify s l (desk s l.toNat) 0 []
    { (desk s l.toNat).stats with symbol := stock } 1 fun _ => rfl, ok_bind,
    put_watch, ok_bind, index_ok (put_books ..), ok_bind]
  simp only [Desk.onStats]
  generalize Desk.watch s.cfg l (some stock) _ = d
  cases hbook : d.book with
  | none => exact put_openBook s l d 1 []
  | some b => rfl

theorem action_put (state : UInt8) : s.action l state =
    .ok (put s l.toNat ((desk s l.toNat).onStats fun ls => { ls with hState := state }) 1 []) := by
  rw [Session.action, ensureLocate_put h]
  exact put_modify s l (desk s l.toNat) 0 [] { (desk s l.toNat).stats with hState := state } 1
    fun _ => rfl

omit h in
theorem countPlaceholder_put (d : Desk) (n : ℕ) (cs : List Count) (id : OrderId)
    (side : Option Side) (px qty : UInt32) :
    (put s l.toNat d n cs).countPlaceholder px =
      put s l.toNat d n (cs ++ Desk.placeholderOf (.add id side px qty)) := by
  show _ = put s l.toNat d n (cs ++ if isPlaceholder px then [.placeholder] else [])
  unfold Session.countPlaceholder
  split
  · exact put_count s l.toNat d n cs .placeholder fun _ => rfl
  · rw [List.append_nil]

omit h in
/-- A call on the book, its reply recorded. -/
theorem callRecord_put {α : Type} (d : Desk) (n : ℕ) (cs : List Count) (op : Op)
    (f : Option Event × Session → Exec α) :
    ((put s l.toNat d n cs).callBook l op >>= fun p => p.2.record l p.1 >>= f) = (do
      let (r, d) ← d.callBook op
      f (r.toOption, put s l.toNat (d.record s.cfg r).1 n (cs ++ (d.record s.cfg r).2))) := by
  rw [put_callBook]
  rcases d.callBook op with e | ⟨r, d₁⟩
  · rfl
  · simp only [ok_bind, pure_eq_ok, put_record]

omit h in
/-- What follows an accepted call. -/
theorem accepted_put (d : Desk) (n : ℕ) (cs : List Count) (px : UInt32) :
    ((put s l.toNat d n cs).ensureWindow l px >>= fun s' => s'.checkCrossed l >>= fun s' =>
      pure (true, s')) = (do
      let d ← d.ensureWindow s.cfg px
      let crossed ← d.checkCrossed s.afterQ
      return (true, put s l.toNat d n (cs ++ crossed))) := by
  rw [put_ensureWindow]
  rcases d.ensureWindow s.cfg px with e | d₁
  · rfl
  · simp only [ok_bind, pure_eq_ok, put_checkCrossed]
    rcases d₁.checkCrossed s.afterQ with e | crossed <;> rfl

/-- The handler of an order message works on the desk of its locate. -/
theorem order_put (o : Order) : Handlers.order s l o = (do
    let (b, d, cs) ← (desk s l.toNat).order s.cfg s.afterQ l o
    return (b, put s l.toNat d 1 cs)) := by
  rcases hopen : (desk s l.toNat).openMissing s.cfg l with ⟨d, opened⟩
  have hensure := ensureBook_put h l
  rw [hopen] at hensure
  simp only [Desk.order, hopen]
  cases o with
  | add id side px qty =>
    simp only [Handlers.order, Session.add, hensure, ok_bind,
      countPlaceholder_put l d 1 opened id side px qty]
    cases side with
    | none =>
      exact congrArg (fun s' => Except.ok (false, s'))
        (put_count s l.toNat d 1 (opened ++ Desk.placeholderOf (.add id none px qty)) .badSide
          fun _ => rfl)
    | some side =>
      refine (callRecord_put l d 1 _ _ _).trans ?_
      simp only [Order.op, Option.map_some, Desk.aheadOf, ok_bind]
      rcases d.callBook (.add id side px.toInt32 qty) with e | ⟨e | ev, d₁⟩
      · rfl
      · rfl
      · refine (accepted_put l _ 1 _ px).trans ?_
        simp only [ok_bind, Desk.windowOf, Desk.acceptedOf, List.append_nil]
        rcases (d₁.record s.cfg (.ok ev)).1.ensureWindow s.cfg px with e | d₂
        · rfl
        · simp only [ok_bind]
          rcases d₂.checkCrossed s.afterQ with e | crossed <;> rfl
  | execute id qty =>
    simp only [Handlers.order, Session.execute, hensure, ok_bind, put_bookMut,
      Order.op, Desk.aheadOf]
    cases d.book with
    | none => rfl
    | some b =>
      simp only [expect_some, ok_bind]
      rcases b.queueAhead id with e | ahead
      · rfl
      · simp only [ok_bind]
        refine (callRecord_put l d 1 _ _ _).trans ?_
        simp only [Desk.placeholderOf, List.append_nil]
        rcases d.callBook (.execute id qty) with e | ⟨e | ev, d₁⟩
        · rfl
        · rfl
        · simp only [ok_bind, Except.toOption, Desk.windowOf, Desk.acceptedOf]
          rw [show Stats.countExecution (decide (ahead = some 0)) = fun st =>
            Count.stats st (.execution (decide (ahead = some 0))) from rfl,
            put_count s l.toNat _ 1 _ (.execution _) fun _ => rfl, put_checkCrossed]
          rcases (d₁.record s.cfg (.ok ev)).1.checkCrossed s.afterQ with e | crossed <;> rfl
  | cancel id qty =>
    simp only [Handlers.order, Session.cancel, hensure, ok_bind, Order.op, Desk.aheadOf]
    refine (callRecord_put l d 1 _ _ _).trans ?_
    simp only [Desk.placeholderOf, List.append_nil]
    rcases d.callBook (.cancel id qty) with e | ⟨e | ev, d₁⟩
    · rfl
    · rfl
    · simp only [ok_bind, Except.toOption, Desk.windowOf, Desk.acceptedOf]
      have hcount : ∀ d n cs, (put s l.toNat d n cs).countOverCancel ev qty = put s l.toNat d n
          (cs ++ if ev.qty.toNat < qty.toNat then [.overCancel] else []) := by
        intro d n cs
        unfold Session.countOverCancel
        split
        · exact put_count s l.toNat d n cs .overCancel fun _ => rfl
        · rw [List.append_nil]
      rw [hcount, put_checkCrossed]
      rcases (d₁.record s.cfg (.ok ev)).1.checkCrossed s.afterQ with e | crossed <;> rfl
  | delete id =>
    simp only [Handlers.order, Session.delete, hensure, ok_bind, Order.op, Desk.aheadOf]
    refine (callRecord_put l d 1 _ _ _).trans ?_
    simp only [Desk.placeholderOf, List.append_nil]
    rcases d.callBook (.delete id) with e | ⟨e | ev, d₁⟩
    · rfl
    · rfl
    · simp only [ok_bind, Except.toOption, Desk.windowOf, Desk.acceptedOf, put_checkCrossed,
        List.append_nil]
      rcases (d₁.record s.cfg (.ok ev)).1.checkCrossed s.afterQ with e | crossed <;> rfl
  | replace old new px qty =>
    simp only [Handlers.order, Session.replace, hensure, ok_bind, Order.op, Desk.aheadOf]
    refine (callRecord_put l d 1 _ _ _).trans ?_
    simp only [Desk.placeholderOf, List.append_nil]
    rcases d.callBook (.replace old new px.toInt32 qty) with e | ⟨e | ev, d₁⟩
    · rfl
    · rfl
    · refine (accepted_put l _ 1 _ px).trans ?_
      simp only [ok_bind, Desk.windowOf, Desk.acceptedOf, List.append_nil]
      rcases (d₁.record s.cfg (.ok ev)).1.ensureWindow s.cfg px with e | d₂
      · rfl
      · simp only [ok_bind]
        rcases d₂.checkCrossed s.afterQ with e | crossed <;> rfl

end Desked

end Lobcore.Desks
