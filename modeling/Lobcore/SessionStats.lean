import Lobcore.Checked
import Lobcore.OrderTypes
import Lobcore.Payloads

/-!
The counters of a replay (`stats.rs`). The two live counts keep their width, because they
are computed by adding signed steps; a `u64` that only counts messages is a natural number.
The wall-clock figures and the description of the watchlist are left out.
-/
namespace Lobcore.SessionStats

open Checked OrderTypes Payloads

/-- `Vec::resize`. -/
def resize {α : Type} (xs : List α) (n : ℕ) (a : α) : List α :=
  xs.take n ++ List.replicate (n - xs.length) a

/-- Per-locate counters and close state. -/
structure LocateStats where
  /-- Symbol from the directory message, space padded. -/
  symbol : List UInt8
  watched : Bool
  array : Bool
  /-- `(base_px, n_levels, tick)` of the array window, filled at the close. -/
  window : Option (ℤ × ℕ × ℤ)
  msgs : ℕ
  live : ℕ
  liveHwm : ℕ
  overflowHits : ℕ
  maxAbsOffset : ℤ
  maxAbsOffsetReal : ℤ
  /-- Last trading state, 0 if none. -/
  hState : UInt8
  closeHash : List UInt8
  hasBook : Bool
  deriving DecidableEq, Repr

namespace LocateStats

def new : LocateStats where
  symbol := List.replicate 8 32
  watched := false
  array := false
  window := none
  msgs := 0
  live := 0
  liveHwm := 0
  overflowHits := 0
  maxAbsOffset := 0
  maxAbsOffsetReal := 0
  hState := 0
  closeHash := List.replicate 32 0
  hasBook := false

/-- Move the live count by a signed step, in 32 bits. -/
def moveLive (d : ℤ) (ls : LocateStats) : LocateStats :=
  let live := ((ls.live + d) % 2 ^ 32).toNat
  { ls with live, liveHwm := max ls.liveHwm live }

end LocateStats

structure Stats where
  source : String
  arrayWindow : ℕ
  messages : ℕ
  truncated : ℕ
  sourceCut : Bool
  trailingBytes : ℕ
  bytesIn : ℕ
  unknownType : ℕ
  /-- Count per type byte. -/
  byType : List ℕ
  /-- Count per type byte and hour of day. -/
  byTypeHour : List (List ℕ)
  firstTs : Option UInt64
  lastTs : Option UInt64
  sEvents : List (UInt8 × UInt64)
  live : ℕ
  liveHwm : ℕ
  crossedBeforeQ : ℕ
  crossedAfterQ : ℕ
  crossedAfterQTrading : ℕ
  unknownId : ℕ
  overExecute : ℕ
  overCancel : ℕ
  duplicateId : ℕ
  badQty : ℕ
  badPrice : ℕ
  badSide : ℕ
  noDirectory : ℕ
  placeholderAdds : ℕ
  ecTotal : ℕ
  ecAtHead : ℕ
  locates : List LocateStats
  eventLogged : Bool
  eventCount : ℕ
  eventLogHash : List UInt8
  allLocatesHash : List UInt8
  deriving DecidableEq, Repr

namespace Stats

def new (source : String) (arrayWindow : ℕ) : Stats where
  source := source
  arrayWindow := arrayWindow
  messages := 0
  truncated := 0
  sourceCut := false
  trailingBytes := 0
  bytesIn := 0
  unknownType := 0
  byType := List.replicate 256 0
  byTypeHour := List.replicate 256 (List.replicate 24 0)
  firstTs := none
  lastTs := none
  sEvents := []
  live := 0
  liveHwm := 0
  crossedBeforeQ := 0
  crossedAfterQ := 0
  crossedAfterQTrading := 0
  unknownId := 0
  overExecute := 0
  overCancel := 0
  duplicateId := 0
  badQty := 0
  badPrice := 0
  badSide := 0
  noDirectory := 0
  placeholderAdds := 0
  ecTotal := 0
  ecAtHead := 0
  locates := []
  eventLogged := true
  eventCount := 0
  eventLogHash := List.replicate 32 0
  allLocatesHash := List.replicate 32 0

/-- Hour bucket of a timestamp in nanoseconds since midnight. -/
def hour (ts : UInt64) : ℕ := min (ts.toNat / 3600000000000) 23

/-- `xs[i] += 1`. -/
def bump (xs : List ℕ) (i : ℕ) : Exec (List ℕ) := do
  let n ← index xs i
  store xs i (n + 1)

/-- The counters every message moves. -/
def countMessage (st : Stats) (ty : UInt8) (ts : Option UInt64) : Exec Stats := do
  let byType ← bump st.byType ty.toNat
  let st := { st with messages := st.messages + 1, byType }
  match ts with
  | none => return st
  | some ts =>
    let row ← index st.byTypeHour ty.toNat
    let row ← bump row (hour ts)
    let byTypeHour ← store st.byTypeHour ty.toNat row
    return { st with byTypeHour, firstTs := some (st.firstTs.getD ts), lastTs := some ts }

/-- An update of `locates[l]`. -/
def atLocate (st : Stats) (l : ℕ) (f : LocateStats → LocateStats) : Exec Stats := do
  let ls ← index st.locates l
  let locates ← store st.locates l (f ls)
  return { st with locates }

def countError (st : Stats) : BookError → Stats
  | .unknownId _ _ => { st with unknownId := st.unknownId + 1 }
  | .overExecute _ _ _ => { st with overExecute := st.overExecute + 1 }
  | .duplicateId _ => { st with duplicateId := st.duplicateId + 1 }
  | .badQty => { st with badQty := st.badQty + 1 }
  | .badPrice => { st with badPrice := st.badPrice + 1 }

def countUnknownType (st : Stats) : Stats := { st with unknownType := st.unknownType + 1 }

def countNoDirectory (st : Stats) : Stats := { st with noDirectory := st.noDirectory + 1 }

def countPlaceholder (st : Stats) : Stats := { st with placeholderAdds := st.placeholderAdds + 1 }

def countBadSide (st : Stats) : Stats := { st with badSide := st.badSide + 1 }

def countOverCancel (st : Stats) : Stats := { st with overCancel := st.overCancel + 1 }

/-- An accepted execution, of an order that may stand at the head of its level. -/
def countExecution (atHead : Bool) (st : Stats) : Stats :=
  { st with ecTotal := st.ecTotal + 1, ecAtHead := if atHead then st.ecAtHead + 1 else st.ecAtHead }

def countCrossedBeforeQ (st : Stats) : Stats := { st with crossedBeforeQ := st.crossedBeforeQ + 1 }

def countCrossedAfterQ (trading : Bool) (st : Stats) : Stats :=
  { st with
    crossedAfterQ := st.crossedAfterQ + 1
    crossedAfterQTrading :=
      if trading then st.crossedAfterQTrading + 1 else st.crossedAfterQTrading }

/-- Move the global live count by a signed step, in 64 bits. -/
def moveLive (d : ℤ) (st : Stats) : Stats :=
  let live := ((st.live + d) % 2 ^ 64).toNat
  { st with live, liveHwm := max st.liveHwm live }

end Stats

/-- The step of the live counts that an event stands for. -/
def liveDelta (e : Event) : ℤ :=
  match e.kind with
  | .add => 1
  | .delete => -1
  | .cancel => if e.b = 0 then -1 else 0
  | .exec => if e.b = 0 then -1 else 0
  | _ => 0

/-! The same updates without the bounds checks, and what is left when nothing about array
windows is kept. -/

/-- At least `n` elements, filled up with `a`. -/
def growTo {α : Type} (xs : List α) (n : ℕ) (a : α) : List α :=
  if xs.length < n then resize xs n a else xs

theorem map_growTo {α β : Type} (f : α → β) (xs : List α) (n : ℕ) (a : α) :
    (growTo xs n a).map f = growTo (xs.map f) n (f a) := by
  by_cases h : xs.length < n
  · simp [growTo, resize, h, List.map_take]
  · simp [growTo, h]

theorem length_growTo {α : Type} (xs : List α) (n : ℕ) (a : α) :
    (growTo xs n a).length = max xs.length n := by
  unfold growTo
  split
  · simp only [resize, List.length_append, List.length_take, List.length_replicate]
    omega
  · omega

theorem growTo_getElem? {α : Type} (xs : List α) (n : ℕ) (a : α) (i : ℕ) :
    (growTo xs n a)[i]? = if i < xs.length then xs[i]? else if i < n then some a else none := by
  unfold growTo
  by_cases hn : xs.length < n
  · rw [if_pos hn, resize, List.take_of_length_le (Nat.le_of_lt hn)]
    by_cases hi : i < xs.length
    · rw [if_pos hi, List.getElem?_append_left hi]
    · rw [if_neg hi, List.getElem?_append_right (not_lt.mp hi), List.getElem?_replicate]
      refine ite_congr (propext ?_) (fun _ => rfl) fun _ => rfl
      omega
  · rw [if_neg hn]
    by_cases hi : i < xs.length
    · rw [if_pos hi]
    · rw [if_neg hi, if_neg (by omega), List.getElem?_eq_none (not_lt.mp hi)]

def LocateStats.portable (ls : LocateStats) : LocateStats :=
  { ls with
    watched := false
    array := false
    window := none
    overflowHits := 0
    maxAbsOffset := 0
    maxAbsOffsetReal := 0 }

namespace Stats

def portable (st : Stats) : Stats :=
  { st with arrayWindow := 0, locates := st.locates.map LocateStats.portable }

def onLocate (st : Stats) (l : ℕ) (f : LocateStats → LocateStats) : Stats :=
  { st with locates := st.locates.modify l f }

/-- Entries for every locate up to `l`. -/
def grow (st : Stats) (l : ℕ) : Stats := { st with locates := growTo st.locates (l + 1) .new }

def noteMessage (st : Stats) (ty : UInt8) (ts : Option UInt64) : Stats :=
  let st := { st with messages := st.messages + 1, byType := st.byType.modify ty.toNat (· + 1) }
  match ts with
  | none => st
  | some ts =>
    { st with
      byTypeHour := st.byTypeHour.modify ty.toNat fun row => row.modify (hour ts) (· + 1)
      firstTs := some (st.firstTs.getD ts)
      lastTs := some ts }

/-- The last trading state of a locate. -/
def stateOf (st : Stats) (l : ℕ) : Option Char := st.locates[l]?.map fun ls => letter ls.hState

/-- The histograms have a cell for every type byte and hour. -/
structure Sized (st : Stats) : Prop where
  byType : st.byType.length = 256
  byTypeHour : st.byTypeHour.length = 256
  row : ∀ r ∈ st.byTypeHour, r.length = 24

theorem sized_new (source : String) (arrayWindow : ℕ) : (new source arrayWindow).Sized where
  byType := List.length_replicate
  byTypeHour := List.length_replicate
  row r hr := by
    obtain ⟨-, rfl⟩ := List.mem_replicate.mp hr
    exact List.length_replicate

theorem modify_eq_set {α : Type} {xs : List α} {i : ℕ} {a : α} (h : xs[i]? = some a) (f : α → α) :
    xs.modify i f = xs.set i (f a) := by
  have : Inhabited α := ⟨a⟩
  rw [List.modify_eq_set, h, Option.getD_some]

theorem bump_ok {xs : List ℕ} {i : ℕ} (h : i < xs.length) :
    bump xs i = .ok (xs.modify i (· + 1)) := by
  have hget : xs[i]? = some xs[i] := List.getElem?_eq_getElem h
  rw [bump, index_ok hget, ok_bind, store_ok h, modify_eq_set hget]

theorem atLocate_ok {st : Stats} {l : ℕ} (h : l < st.locates.length)
    (f : LocateStats → LocateStats) : st.atLocate l f = .ok (st.onLocate l f) := by
  have hget : st.locates[l]? = some st.locates[l] := List.getElem?_eq_getElem h
  rw [atLocate, index_ok hget, ok_bind, store_ok h, ok_bind, onLocate, modify_eq_set hget]
  rfl

theorem countMessage_ok {st : Stats} (h : st.Sized) (ty : UInt8) (ts : Option UInt64) :
    st.countMessage ty ts = .ok (st.noteMessage ty ts) := by
  have hty : ty.toNat < 256 := ty.toNat_lt
  have hbump : bump st.byType ty.toNat = .ok _ := bump_ok (by rw [h.byType]; exact hty)
  cases ts with
  | none => simp only [countMessage, hbump, ok_bind, noteMessage, pure_eq_ok]
  | some ts =>
    have hlt : ty.toNat < st.byTypeHour.length := by rw [h.byTypeHour]; exact hty
    have hget : st.byTypeHour[ty.toNat]? = some st.byTypeHour[ty.toNat] :=
      List.getElem?_eq_getElem hlt
    have hrow : bump st.byTypeHour[ty.toNat] (hour ts) = .ok _ :=
      bump_ok (by rw [h.row _ (List.getElem_mem hlt), hour]; omega)
    simp only [countMessage, hbump, ok_bind, index_ok hget, hrow, store_ok hlt, noteMessage,
      modify_eq_set hget, pure_eq_ok]

theorem Sized.noteMessage {st : Stats} (h : st.Sized) (ty : UInt8) (ts : Option UInt64) :
    (st.noteMessage ty ts).Sized := by
  cases ts with
  | none => exact ⟨by simpa [Stats.noteMessage] using h.byType, h.byTypeHour, h.row⟩
  | some ts =>
    refine ⟨by simpa [Stats.noteMessage] using h.byType,
      by simpa [Stats.noteMessage] using h.byTypeHour, fun r hr => ?_⟩
    obtain ⟨i, hi⟩ := List.mem_iff_getElem?.mp hr
    simp only [Stats.noteMessage, List.getElem?_modify] at hi
    obtain ⟨r', hr', rfl⟩ := Option.map_eq_some_iff.mp hi
    have hlen := h.row r' (List.mem_of_getElem? hr')
    split
    · rw [List.length_modify, hlen]
    · exact hlen

/-! Every update is also an update of what is kept. -/

theorem portable_onLocate (st : Stats) (l : ℕ) {f g : LocateStats → LocateStats}
    (h : ∀ ls, (f ls).portable = g ls.portable) :
    (st.onLocate l f).portable = st.portable.onLocate l g := by
  have hmap : (st.locates.modify l f).map LocateStats.portable =
      (st.locates.map LocateStats.portable).modify l g := by
    refine List.ext_getElem? fun i => ?_
    rw [List.getElem?_map, List.getElem?_modify, List.getElem?_modify, List.getElem?_map]
    cases st.locates[i]? with
    | none => rfl
    | some ls =>
      by_cases hi : l = i
      · simp [hi, h]
      · simp [hi]
  simp only [portable, onLocate, hmap]

/-- An update of a locate that only concerns its array window. -/
theorem portable_onLocate_window (st : Stats) (l : ℕ) {f : LocateStats → LocateStats}
    (h : ∀ ls, (f ls).portable = ls.portable) : (st.onLocate l f).portable = st.portable := by
  rw [portable_onLocate st l (g := id) h, onLocate, List.modify_id]

theorem portable_grow (st : Stats) (l : ℕ) : (st.grow l).portable = st.portable.grow l := by
  simp only [portable, grow, map_growTo]
  rfl

theorem portable_noteMessage (st : Stats) (ty : UInt8) (ts : Option UInt64) :
    (st.noteMessage ty ts).portable = st.portable.noteMessage ty ts := by
  cases ts <;> rfl

theorem portable_moveLive (st : Stats) (d : ℤ) :
    (st.moveLive d).portable = st.portable.moveLive d := rfl

theorem portable_countError (st : Stats) (e : BookError) :
    (st.countError e).portable = st.portable.countError e := by
  cases e <;> rfl

theorem stateOf_portable (st : Stats) (l : ℕ) : st.portable.stateOf l = st.stateOf l := by
  simp only [stateOf, portable, List.getElem?_map]
  cases st.locates[l]? <;> rfl

end Stats

end Lobcore.SessionStats
