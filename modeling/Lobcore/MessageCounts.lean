import Lobcore.LocateIsolation

/-!
The message count of a locate. Directory, trading-action and order messages make room for their
locate before they are counted; the others are counted only if there is room. So the count of a
locate starts with the first message that makes room for it, whichever locate that message
carries, and what carries the locate before it is missing.
-/
namespace Lobcore.MessageCounts

open Checked OrderTypes Payloads SessionStats Sessions Replays Handlers Desks DeskSteps SessionRuns
open LocateIsolation Writers

def isUnknown : Msg → Bool
  | .unknown _ => true
  | _ => false

/-- A message of a known type other than `S` that carries the locate. -/
def counted (l : UInt16) (m : Msg) : Bool := carries l m && !isSystem m && !isUnknown m

/-- A directory, trading-action or order message of the locate or of a larger one. -/
def reaches (l : UInt16) (m : Msg) : Bool := (target (body m)).any fun t => l.toNat ≤ t.toNat

/-- No message of the locate comes before the first one that reaches it. -/
def InOrder (l : UInt16) (ms : List Msg) : Prop :=
  ∀ m ∈ ms.takeWhile fun m => !reaches l m, counted l m = false

/-- The message count of a locate, zero before it has an entry. -/
def msgsAt (s : Session) (l : ℕ) : ℕ := (s.stats.locates.getD l .new).msgs

/-! One message. -/

theorem counted_iff {l : UInt16} {m : Msg} :
    counted l m = true ↔ target (body m) = some l ∨ body m = .print (some l) := by
  have hworked : ∀ t, target (body m) = some t → isSystem m = false → isUnknown m = false →
      body m ≠ .print (some l) →
      (counted l m = true ↔ target (body m) = some l ∨ body m = .print (some l)) := by
    intro t ht hsystem hunknown hprint
    simp only [counted, hsystem, hunknown, Bool.not_false, Bool.and_true, carries_iff,
      headerLocate_of_target ht, ht, hprint, or_false]
  have hprinted : isSystem m = false → isUnknown m = false →
      body m = .print (headerLocate m.raw) →
      (counted l m = true ↔ target (body m) = some l ∨ body m = .print (some l)) := by
    intro hsystem hunknown hbody
    simp only [counted, hsystem, hunknown, Bool.not_false, Bool.and_true, carries_iff, hbody,
      target, reduceCtorEq, false_or, Body.print.injEq]
  cases m with
  | system m => simp [counted, isSystem, body, target]
  | unknown m => simp [counted, isUnknown, body, target]
  | trade m => exact hprinted rfl rfl rfl
  | cross m => exact hprinted rfl rfl rfl
  | broken m => exact hprinted rfl rfl rfl
  | other m known => exact hprinted rfl rfl rfl
  | _ => exact hworked _ rfl rfl rfl fun hprint => by cases hprint

theorem reaches_of_target {l t : UInt16} {m : Msg} (h : target (body m) = some t) :
    reaches l m = decide (l.toNat ≤ t.toNat) := by
  rw [reaches, h, Option.any_some]

theorem reaches_of_idle {l : UInt16} {m : Msg} (h : target (body m) = none) :
    reaches l m = false := by
  rw [reaches, h, Option.any_none]

theorem getD_modify_msgs (xs : List LocateStats) (i l n : ℕ) (hi : i < xs.length)
    {f : LocateStats → LocateStats} (hf : ∀ ls, (f ls).msgs = ls.msgs + n) :
    ((xs.modify i f).getD l .new).msgs = (xs.getD l .new).msgs + if i = l then n else 0 := by
  rw [List.getD_eq_getElem?_getD, List.getD_eq_getElem?_getD, List.getElem?_modify]
  by_cases hl : i = l
  · subst hl
    rw [List.getElem?_eq_getElem hi]
    simp [hf]
  · simp [hl]

/-- A message that works on a desk makes room for its locate and is counted. -/
theorem count_put (s : Session) (t : ℕ) (d : Desk) (n : ℕ) (cs : List Count) (l : ℕ) :
    (put s t d n cs).stats.locates.length = max s.stats.locates.length (t + 1) ∧
      msgsAt (put s t d n cs) l = msgsAt s l + if t = l then n else 0 := by
  have hlen : t < (growTo s.stats.locates (t + 1) .new).length := by
    rw [length_growTo]
    omega
  constructor
  · show ((growTo s.stats.locates (t + 1) .new).modify t _).length = _
    rw [List.length_modify, length_growTo]
  · show (((growTo s.stats.locates (t + 1) .new).modify t _).getD l .new).msgs = _
    rw [getD_modify_msgs _ _ _ n hlen fun _ => rfl, growTo_getD]
    rfl

/-- A message that works on no desk makes no room, and is counted where there is room. -/
theorem count_idle {s s' : Session} {b : Body} (hl : target b = none)
    (hrun : perform s b = .ok (false, s')) (l : UInt16) :
    s'.stats.locates.length = s.stats.locates.length ∧ msgsAt s' l.toNat = msgsAt s l.toNat +
      if l.toNat < s.stats.locates.length ∧ b = .print (some l) then 1 else 0 := by
  cases b with
  | system code ts =>
    obtain ⟨-, rfl⟩ := Prod.mk.inj (Except.ok.inj hrun)
    exact ⟨rfl, by simp [msgsAt, Session.system]⟩
  | unknown =>
    obtain ⟨-, rfl⟩ := Prod.mk.inj (Except.ok.inj hrun)
    exact ⟨rfl, by simp [msgsAt, Stats.countUnknownType]⟩
  | print t =>
    cases t with
    | none =>
      obtain ⟨-, rfl⟩ := Prod.mk.inj (Except.ok.inj hrun)
      exact ⟨rfl, by simp⟩
    | some t =>
      by_cases hlt : t.toNat < s.stats.locates.length
      · simp only [perform, Session.countPrint, if_pos hlt, Session.atLocate,
          Stats.atLocate_ok hlt, ok_bind, pure_eq_ok, Except.ok.injEq, Prod.mk.injEq,
          true_and] at hrun
        subst hrun
        refine ⟨List.length_modify .., ?_⟩
        show ((s.stats.locates.modify t.toNat _).getD l.toNat .new).msgs = _
        rw [getD_modify_msgs _ _ _ 1 hlt fun _ => rfl, msgsAt]
        by_cases hl : t = l
        · subst hl
          simp [hlt]
        · have hne : t.toNat ≠ l.toNat := fun heq => hl (UInt16.toNat_inj.mp heq)
          simp [hl, hne]
      · simp only [perform, Session.countPrint, if_neg hlt, ok_bind, pure_eq_ok, Except.ok.injEq,
          Prod.mk.injEq, true_and] at hrun
        subst hrun
        refine ⟨rfl, ?_⟩
        by_cases hl : t = l
        · subst hl
          simp [hlt]
        · simp [hl]
  | directory t stock => cases hl
  | action t state => cases hl
  | order t o => cases hl

/-- One message: the room afterwards, and the count. -/
theorem count_step {s s' : Session} {m : Msg} {b : Bool} (h : Aligned s)
    (hrun : s.applyMsg m = .ok (b, s')) (l : UInt16) :
    (l.toNat < s'.stats.locates.length ↔ l.toNat < s.stats.locates.length ∨ reaches l m = true) ∧
      msgsAt s' l.toNat = msgsAt s l.toNat +
        if l.toNat < s'.stats.locates.length ∧ counted l m = true then 1 else 0 := by
  have hlocates : (noted s (note m)).stats.locates = s.stats.locates := by
    show (s.stats.noteMessage _ (note m).ts).locates = _
    cases (note m).ts <;> rfl
  have hmsgs : msgsAt (noted s (note m)) l.toNat = msgsAt s l.toNat := by
    rw [msgsAt, hlocates, msgsAt]
  rw [applyMsg_eq h.sized] at hrun
  cases ht : target (body m) with
  | none =>
    obtain ⟨s₁, hperform, -⟩ := perform_idle (aligned_noted h (note m)) ht
    obtain ⟨rfl, rfl⟩ := Prod.mk.inj (Except.ok.inj (hperform.symm.trans hrun))
    obtain ⟨hlen, hcount⟩ := count_idle ht hperform l
    rw [hlocates] at hlen hcount
    rw [hlen, hcount, hmsgs, reaches_of_idle ht]
    simp only [counted_iff, ht, reduceCtorEq, false_or, Bool.false_eq_true, or_false, true_and]
  | some t =>
    rw [perform_put (aligned_noted h (note m)) ht] at hrun
    obtain ⟨⟨b', d, cs⟩, -, hput⟩ := bind_eq_ok.mp hrun
    obtain ⟨rfl, rfl⟩ := Prod.mk.inj (Except.ok.inj hput)
    obtain ⟨hlen, hcount⟩ := count_put (noted s (note m)) t.toNat d 1 cs l.toNat
    rw [hlocates] at hlen
    have hprint : body m ≠ .print (some l) := by
      intro hbody
      rw [hbody] at ht
      cases ht
    rw [hlen, hcount, hmsgs, reaches_of_target ht, decide_eq_true_iff]
    refine ⟨by omega, ?_⟩
    simp only [counted_iff, ht, hprint, or_false, Option.some.injEq]
    by_cases hl : t = l
    · subst hl
      simp
    · have hne : t.toNat ≠ l.toNat := fun heq => hl (UInt16.toNat_inj.mp heq)
      simp [hl, hne]

/-! Runs. -/

/-- The count of a locate starts with the first message that reaches it. -/
theorem count_run {s s' : Session} {ms : List Msg} {out : List Bool} (h : Aligned s)
    (hrun : run Session.applyMsg s ms = .ok (out, s')) (l : UInt16) :
    (l.toNat < s'.stats.locates.length ↔
      l.toNat < s.stats.locates.length ∨ ∃ m ∈ ms, reaches l m = true) ∧
      msgsAt s' l.toNat = msgsAt s l.toNat +
        ((if l.toNat < s.stats.locates.length then ms
          else ms.dropWhile fun m => !reaches l m).countP (counted l)) := by
  induction ms generalizing s out with
  | nil =>
    obtain ⟨-, rfl⟩ := Prod.mk.inj (Except.ok.inj hrun)
    simp
  | cons m ms ih =>
    obtain ⟨b, bs, s₁, hstep, hrest, -⟩ := run_cons_eq_ok.mp hrun
    obtain ⟨hroom, hcount⟩ := count_step h hstep l
    obtain ⟨hroom', hcount'⟩ := ih ((moved_of_applyMsg h hstep).aligned h) hrest
    refine ⟨?_, ?_⟩
    · simp only [hroom', hroom, List.mem_cons, exists_eq_or_imp, or_assoc]
    · rw [hcount', hcount, Nat.add_assoc]
      by_cases hlt : l.toNat < s.stats.locates.length
      · have hlt₁ := hroom.mpr (Or.inl hlt)
        simp only [hlt, hlt₁, if_true, true_and, List.countP_cons, Nat.add_comm]
      · by_cases hreach : reaches l m = true
        · have hlt₁ := hroom.mpr (Or.inr hreach)
          have hdrop : (m :: ms).dropWhile (fun m => !reaches l m) = m :: ms :=
            List.dropWhile_cons_of_neg (by simp [hreach])
          simp only [hlt, hlt₁, if_true, if_false, true_and, hdrop, List.countP_cons,
            Nat.add_comm]
        · have hlt₁ : ¬ l.toNat < s₁.stats.locates.length := fun h =>
            (hroom.mp h).elim hlt hreach
          have hdrop : (m :: ms).dropWhile (fun m => !reaches l m) =
              ms.dropWhile fun m => !reaches l m :=
            List.dropWhile_cons_of_pos (by simp [hreach])
          simp only [hlt, hlt₁, false_and, if_false, Nat.zero_add, hdrop]

/-- What comes before the first message that reaches the locate is missing from the count. -/
theorem countP_eq_iff {l : UInt16} {ms : List Msg} :
    (ms.dropWhile fun m => !reaches l m).countP (counted l) = ms.countP (counted l) ↔
      InOrder l ms := by
  have hsplit : (ms.takeWhile fun m => !reaches l m).countP (counted l) +
      (ms.dropWhile fun m => !reaches l m).countP (counted l) = ms.countP (counted l) := by
    rw [← List.countP_append, List.takeWhile_append_dropWhile]
  have hzero : (ms.takeWhile fun m => !reaches l m).countP (counted l) = 0 ↔ InOrder l ms := by
    simp only [List.countP_eq_zero, InOrder, Bool.not_eq_true]
  rw [← hzero]
  omega

/-- The entry of a locate after a run of a new session, if there is one, and its count. -/
theorem count_new {cfg : SessionConfig} {ms : List Msg} {out : List Bool} {s : Session}
    (hrun : run Session.applyMsg (.new cfg) ms = .ok (out, s)) (l : UInt16) :
    (l.toNat < s.stats.locates.length ↔ ∃ m ∈ ms, reaches l m = true) ∧
      msgsAt s l.toNat = (ms.dropWhile fun m => !reaches l m).countP (counted l) := by
  have hnew : Aligned (.new cfg) := aligned_new _
  obtain ⟨hroom, hcount⟩ := count_run hnew hrun l
  have hempty : ¬ l.toNat < (Session.new cfg).stats.locates.length := Nat.not_lt_zero _
  have hzero : msgsAt (.new cfg) l.toNat = 0 := rfl
  rw [if_neg hempty, hzero, Nat.zero_add] at hcount
  exact ⟨hroom.trans (or_iff_right hempty), hcount⟩

/-- The message count of a locate is the number of its messages exactly when none of them comes
before the first message that makes room for it; then it does not depend on the order. -/
theorem msgs_counts_iff {cfg : SessionConfig} {ms : List Msg} {out : List Bool} {s : Session}
    (hrun : run Session.applyMsg (.new cfg) ms = .ok (out, s)) {l : UInt16} {ls : LocateStats}
    (hl : s.stats.locates[l.toNat]? = some ls) :
    (ls.msgs = ms.countP (counted l) ↔ InOrder l ms) ∧
      ∀ ms' out' s', ms'.Perm ms → run Session.applyMsg (.new cfg) ms' = .ok (out', s') →
        InOrder l ms → InOrder l ms' →
        ∃ ls', s'.stats.locates[l.toNat]? = some ls' ∧ ls'.msgs = ls.msgs := by
  have hentry : ∀ {t : Session} {lt : LocateStats}, t.stats.locates[l.toNat]? = some lt →
      lt.msgs = msgsAt t l.toNat := by
    intro t lt ht
    rw [msgsAt, List.getD_eq_getElem?_getD, ht, Option.getD_some]
  obtain ⟨hroom, hcount⟩ := count_new hrun l
  refine ⟨?_, fun ms' out' s' hperm hrun' horder horder' => ?_⟩
  · rw [hentry hl, hcount, countP_eq_iff]
  · obtain ⟨hroom', hcount'⟩ := count_new hrun' l
    obtain ⟨m, hm, hreach⟩ := hroom.mp (List.getElem?_eq_some_iff.mp hl).1
    have hlt' := hroom'.mpr ⟨m, hperm.mem_iff.mpr hm, hreach⟩
    have hget := List.getElem?_eq_getElem hlt'
    refine ⟨_, hget, ?_⟩
    rw [hentry hget, hentry hl, hcount', hcount, countP_eq_iff.mpr horder',
      countP_eq_iff.mpr horder, hperm.countP_eq]

/-- A trade of the locate of `firstMsg`. -/
def tradeMsg : Msg :=
  .trade ⟨payload 'P' ⟨1, 0, 0⟩ (tradeFields 5 blank 10000 1), by decide +kernel, by decide +kernel⟩

theorem msgs_counts_iff_first : ∃ out s ls,
    run Session.applyMsg (.new (watchEvery 64)) [firstMsg, tradeMsg] = .ok (out, s) ∧
      s.stats.locates[(1 : UInt16).toNat]? = some ls ∧
      (ls.msgs = [firstMsg, tradeMsg].countP (counted 1) ↔ InOrder 1 [firstMsg, tradeMsg]) := by
  obtain ⟨⟨out, s⟩, hrun, hlen⟩ := ok_of_any
    (x := run Session.applyMsg (.new (watchEvery 64)) [firstMsg, tradeMsg])
    (f := fun p => 1 < p.2.stats.locates.length) (by decide +kernel)
  have hget : s.stats.locates[(1 : UInt16).toNat]? = some _ :=
    List.getElem?_eq_getElem (of_decide_eq_true hlen)
  exact ⟨out, s, _, hrun, hget, (msgs_counts_iff hrun hget).1⟩

/-- A trade that comes before the first order of its locate is not counted; behind the order it
is. -/
theorem early_trade_missing : ∃ out s out' s' ls ls',
    run Session.applyMsg (.new (watchEvery 64)) [tradeMsg, firstMsg] = .ok (out, s) ∧
      run Session.applyMsg (.new (watchEvery 64)) [firstMsg, tradeMsg] = .ok (out', s') ∧
      s.stats.locates[(1 : UInt16).toNat]? = some ls ∧
      s'.stats.locates[(1 : UInt16).toNat]? = some ls' ∧
      [tradeMsg, firstMsg].countP (counted 1) = 2 ∧ ls.msgs = 1 ∧ ls'.msgs = 2 := by
  obtain ⟨⟨out, s⟩, hrun, hs⟩ := ok_of_any
    (x := run Session.applyMsg (.new (watchEvery 64)) [tradeMsg, firstMsg])
    (f := fun p => (p.2.stats.locates[1]?.map LocateStats.msgs) = some 1) (by decide +kernel)
  obtain ⟨⟨out', s'⟩, hrun', hs'⟩ := ok_of_any
    (x := run Session.applyMsg (.new (watchEvery 64)) [firstMsg, tradeMsg])
    (f := fun p => (p.2.stats.locates[1]?.map LocateStats.msgs) = some 2) (by decide +kernel)
  obtain ⟨ls, hls, hone⟩ := Option.map_eq_some_iff.mp (of_decide_eq_true hs)
  obtain ⟨ls', hls', htwo⟩ := Option.map_eq_some_iff.mp (of_decide_eq_true hs')
  exact ⟨out, s, out', s', ls, ls', hrun, hrun', hls, hls', by decide +kernel, hone, htwo⟩

end Lobcore.MessageCounts
