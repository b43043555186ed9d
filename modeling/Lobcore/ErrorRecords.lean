import Lobcore.QueuePositions

/-!
The records of refused calls. The convention is that an unknown id is logged under the code of
the operation that named it, with nothing else, and any other refusal under the code of the
refused operation with the quantity it asked for. The record is made from the error alone: a
refused duplicate is always logged as an add of no shares.
-/
namespace Lobcore.ErrorRecords

open Checked OrderTypes Markets ReferenceBook ArrayBooks Sessions EventReplays
open QueuePositions

/-- The operation a call attempts. -/
def attempted : Op → EventKind
  | .add .. => .add
  | .cancel .. => .cancel
  | .execute .. => .exec
  | .delete .. => .delete
  | .replace .. => .replace

/-- The quantity a call asks for. -/
def requested : Op → UInt32
  | .add _ _ _ qty => qty
  | .cancel _ qty => qty
  | .execute _ qty => qty
  | .delete _ => 0
  | .replace _ _ _ qty => qty

/-- The id an error is about. -/
def subject : BookError → Option OrderId
  | .unknownId _ id => some id
  | .overExecute id _ _ => some id
  | .duplicateId id => some id
  | .badQty => none
  | .badPrice => none

/-- The record the convention asks for, for a call refused with an error about `id`. -/
def documented (op : Op) (id : OrderId) : BookError → Event
  | .unknownId _ _ => ⟨.unknown, id, .ofNat (attempted op).code.toNat, 0, 0, 0⟩
  | _ => ⟨.reject, id, .ofNat (attempted op).code.toNat, 0, .ofNat (requested op).toNat, 0⟩

/-- The call would give a live id to a second order. -/
def Collides (v : Snapshot) : Op → Prop
  | .add id _ _ _ => Live v id
  | .replace old new _ _ => Live v old ∧ Live v new
  | _ => False

theorem ofNat_qty_ne_zero {qty : UInt32} (h : qty.toNat ≠ 0) : UInt64.ofNat qty.toNat ≠ 0 := by
  intro hzero
  have hlt := qty.toNat_lt
  have heq := congrArg UInt64.toNat hzero
  rw [UInt64.toNat_ofNat', Nat.mod_eq_of_lt (by omega)] at heq
  exact h heq

/-- A refused call of a market is logged as the convention asks exactly when no id collides. -/
theorem event_apply {m : Market} (hm : m.WF) {op : Op} {e : BookError} {id : OrderId}
    (h : (m.apply op).1 = .error e) (hid : subject e = some id) :
    e.event = documented op id e ↔ ¬ Collides m.snapshot op := by
  cases op with
  | add j s px qty =>
    rw [Collides, live_iff hm]
    simp only [Market.apply, Market.add] at h
    split_ifs at h with hzero hneg hover hdup
    all_goals cases h
    · cases hid
    · cases hid
    · cases hid
    · cases hid
      refine iff_of_false (fun heq => ?_) (not_not.mpr hdup)
      exact ofNat_qty_ne_zero hzero (congrArg Event.qty heq).symm
  | cancel j qty =>
    simp only [Market.apply, Market.cancel] at h
    cases hfind : m.find j with
    | none =>
      simp only [hfind] at h
      cases h
      cases hid
      exact iff_of_true rfl not_false
    | some p =>
      simp only [hfind] at h
      split_ifs at h
      all_goals cases h
      cases hid
  | execute j qty =>
    simp only [Market.apply, Market.execute] at h
    cases hfind : m.find j with
    | none =>
      simp only [hfind] at h
      cases h
      cases hid
      exact iff_of_true rfl not_false
    | some p =>
      simp only [hfind] at h
      split_ifs at h
      all_goals cases h
      · cases hid
      · cases hid
        exact iff_of_true rfl not_false
  | delete j =>
    simp only [Market.apply, Market.delete] at h
    cases hfind : m.find j with
    | none =>
      simp only [hfind] at h
      cases h
      cases hid
      exact iff_of_true rfl not_false
    | some p =>
      simp only [hfind] at h
      cases h
  | replace old new px qty =>
    rw [Collides, live_iff hm, live_iff hm]
    simp only [Market.apply, Market.replace] at h
    cases hfind : m.find old with
    | none =>
      simp only [hfind] at h
      cases h
      cases hid
      exact iff_of_true rfl fun hlive => by simp [hm.find_eq_none.mp hfind] at hlive
    | some p =>
      have hold : (m.home old).isSome := by simp [(Market.find_eq_some.mp hfind).1]
      simp only [hfind] at h
      by_cases hdup : (m.home new).isSome
      · rw [if_pos hdup] at h
        cases h
        cases hid
        refine iff_of_false (fun heq => ?_) (not_not.mpr ⟨hold, hdup⟩)
        have hcode : (UInt64.ofNat EventKind.add.code.toNat) =
            .ofNat EventKind.replace.code.toNat :=
          congrArg Event.b heq
        exact absurd hcode (by decide)
      · rw [if_neg hdup] at h
        split_ifs at h
        all_goals cases h
        all_goals cases hid

/-- A refusal about an id is logged as documented exactly when the call does not add a live id
and does not replace a live order by a live id. -/
theorem refusal_logged_iff {b b' : LocateBook} (hb : Reached b) {op : Op} {e : BookError}
    {id : OrderId} (hstep : b.apply op = .ok (.error e, b')) (hid : subject e = some id) :
    ∃ v, b.snapshot = .ok v ∧ (e.event = documented op id e ↔ ¬ Collides v op) := by
  obtain ⟨m, hbm⟩ := hb.refines
  obtain ⟨hr, -⟩ := refines_of_apply hbm hstep
  exact ⟨_, hbm.snapshot_eq, event_apply hbm.wf hr.symm hid⟩

/-- Two orders of a level, and an execution of more than one of them has. -/
def overExecuted : Exec (List Reply × LocateBook × Reply × LocateBook) := do
  let (replies, b) ← run LocateBook.apply (.ref .new) [.add 1 .bid 100 5, .add 2 .bid 100 5]
  let (r, b') ← b.apply (.execute 2 9)
  return (replies, b, r, b')

theorem refusal_logged_iff_overExecute : ∃ replies b b' v,
    run LocateBook.apply (.ref .new) [.add 1 .bid 100 5, .add 2 .bid 100 5] = .ok (replies, b) ∧
    b.apply (.execute 2 9) = .ok (.error (.overExecute 2 5 9), b') ∧ b.snapshot = .ok v ∧
    ((BookError.overExecute 2 5 9).event = documented (.execute 2 9) 2 (.overExecute 2 5 9) ↔
      ¬ Collides v (.execute 2 9)) ∧
    documented (.execute 2 9) 2 (.overExecute 2 5 9) = ⟨.reject, 2, 3, 0, 9, 0⟩ := by
  obtain ⟨⟨replies, b, r, b'⟩, hrun, hr⟩ := ok_of_any (x := overExecuted)
    (f := fun p => decide (p.2.2.1 = .error (.overExecute 2 5 9))) (by decide +kernel)
  obtain ⟨⟨replies₁, b₁⟩, hops, hrun⟩ := bind_eq_ok.mp hrun
  obtain ⟨⟨r₁, b₁'⟩, hstep, hrun⟩ := bind_eq_ok.mp hrun
  cases hrun
  obtain rfl : r = .error (.overExecute 2 5 9) := of_decide_eq_true hr
  obtain ⟨v, hv, hiff⟩ := refusal_logged_iff ⟨_, _, _, .ref, hops⟩ hstep rfl
  exact ⟨replies, b, b', v, hops, hstep, hv, hiff, rfl⟩

/-- An order replaced by the id of another live order. -/
def replaceOntoLive : Exec (List Reply × LocateBook × Reply × LocateBook) := do
  let (replies, b) ← run LocateBook.apply (.ref .new) [.add 1 .bid 100 5, .add 2 .bid 100 5]
  let (r, b') ← b.apply (.replace 1 2 100 4)
  return (replies, b, r, b')

/-- A replace of order 1 by the live id 2, asking for 4 shares, is logged as an add of none. -/
theorem duplicate_replace_logged_as_add : ¬ ∀ b, Reached b → ∀ op e b' id,
    b.apply op = .ok (.error e, b') → subject e = some id → e.event = documented op id e := by
  intro hall
  obtain ⟨⟨replies, b, r, b'⟩, hrun, hr⟩ := ok_of_any (x := replaceOntoLive)
    (f := fun p => decide (p.2.2.1 = .error (.duplicateId 2))) (by decide +kernel)
  obtain ⟨⟨replies₁, b₁⟩, hops, hrun⟩ := bind_eq_ok.mp hrun
  obtain ⟨⟨r₁, b₁'⟩, hstep, hrun⟩ := bind_eq_ok.mp hrun
  cases hrun
  obtain rfl : r = .error (.duplicateId 2) := of_decide_eq_true hr
  have hlogged := hall b ⟨_, _, _, .ref, hops⟩ _ _ b' 2 hstep rfl
  exact absurd hlogged (by decide)

end Lobcore.ErrorRecords
