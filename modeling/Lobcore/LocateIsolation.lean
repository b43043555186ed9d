import Lobcore.Closings
import Lobcore.Interleavings

/-!
Locates do not interfere. The desk of a locate moves with the messages for the locate and
with the system messages, and with nothing else; the shared counters only add up what the
desks count. So two streams that differ in the interleaving of their locates lead to the
same desks, and to the same sums.
-/
namespace Lobcore.LocateIsolation

open Checked Interleavings OrderTypes Payloads SessionStats ArrayBooks Sessions Migrations Replays
open Handlers Desks DeskSteps SessionRefines SessionRuns Closings Writers

/-- The message carries the locate. -/
def carries (l : UInt16) (m : Msg) : Bool := m.locate = .ok (some l)

def isSystem : Msg → Bool
  | .system _ => true
  | _ => false

/-- The messages of a locate, with the system messages. -/
def concerns (l : UInt16) (m : Msg) : Bool := carries l m || isSystem m

/-- A message of the type that is too short to carry a locate. -/
def loose (ty : UInt8) (m : Msg) : Bool := m.locate = .ok none && m.ty = .ok ty

theorem carries_iff {l : UInt16} {m : Msg} : carries l m = true ↔ headerLocate m.raw = some l := by
  rw [carries, headerLocate_ok, decide_eq_true_iff, Except.ok.injEq]

/-! One desk along a run. -/

/-- A message on the desk of a locate, with the flag of the open market beside it. -/
def deskStep (cfg : SessionConfig) (l : UInt16) (p : Desk × Bool) (m : Msg) :
    Exec (List Count × (Desk × Bool)) :=
  if target (body m) = some l then do
    let (_, d, cs) ← act cfg p.2 p.1 (body m)
    return (cs, (d, p.2))
  else .ok ([], (p.1, opens p.2 (body m)))

theorem opens_of_not_system {m : Msg} (h : isSystem m = false) (afterQ : Bool) :
    opens afterQ (body m) = afterQ := by
  cases m with
  | system m => cases h
  | _ => rfl

theorem opens_of_target {b : Body} {l : UInt16} (h : target b = some l) (afterQ : Bool) :
    opens afterQ b = afterQ := by
  cases b with
  | system code ts => cases h
  | _ => rfl

theorem deskStep_skip (cfg : SessionConfig) {l : UInt16} (p : Desk × Bool) (m : Msg)
    (h : concerns l m = false) : deskStep cfg l p m = .ok ([], p) := by
  obtain ⟨hcarries, hsystem⟩ := Bool.or_eq_false_iff.mp h
  have htarget : target (body m) ≠ some l := by
    intro htarget
    rw [carries_iff.mpr (headerLocate_of_target htarget)] at hcarries
    cases hcarries
  rw [deskStep, if_neg htarget, opens_of_not_system hsystem]

/-! The counters that add up. -/

inductive Counter where
  | unknownId
  | overExecute
  | overCancel
  | duplicateId
  | badQty
  | badPrice
  | badSide
  | noDirectory
  | placeholderAdds
  | ecTotal
  | ecAtHead
  | crossedBeforeQ
  | crossedAfterQ
  | crossedAfterQTrading
  deriving DecidableEq, Repr

namespace Counter

def value (st : Stats) : Counter → ℕ
  | unknownId => st.unknownId
  | overExecute => st.overExecute
  | overCancel => st.overCancel
  | duplicateId => st.duplicateId
  | badQty => st.badQty
  | badPrice => st.badPrice
  | badSide => st.badSide
  | noDirectory => st.noDirectory
  | placeholderAdds => st.placeholderAdds
  | ecTotal => st.ecTotal
  | ecAtHead => st.ecAtHead
  | crossedBeforeQ => st.crossedBeforeQ
  | crossedAfterQ => st.crossedAfterQ
  | crossedAfterQTrading => st.crossedAfterQTrading

/-- What a move adds to the counter. -/
def weight (k : Counter) (c : Count) : ℕ := value (c.stats (.new "" 0)) k

theorem value_stats (k : Counter) (c : Count) (st : Stats) :
    value (c.stats st) k = value st k + k.weight c := by
  cases c with
  | rejected e => cases e <;> cases k <;> rfl
  | execution atHead => cases atHead <;> cases k <;> rfl
  | crossedAfterQ trading => cases trading <;> cases k <;> rfl
  | _ => cases k <;> rfl

theorem value_countAll (k : Counter) (cs : List Count) (st : Stats) :
    value (countAll cs st) k = value st k + (cs.map k.weight).sum := by
  induction cs generalizing st with
  | nil => rfl
  | cons c cs ih =>
    rw [countAll, List.foldl_cons, List.map_cons, List.sum_cons, ← Nat.add_assoc, ← value_stats]
    exact ih (c.stats st)

theorem value_noted (k : Counter) (s : Session) (n : Note) :
    value (noted s n).stats k = value s.stats k := by
  unfold noted Stats.noteMessage
  cases n.ts <;> cases k <;> rfl

theorem value_idleStats (k : Counter) (st : Stats) (b : Body) :
    value (idleStats st b) k = value st k := by
  cases b <;> cases k <;> rfl

end Counter

/-- The signed step of the live count. -/
def step : Count → ℤ
  | .live d => d
  | _ => 0

theorem live_stats (c : Count) {st : Stats} (hlt : st.live < 2 ^ 64) :
    ((c.stats st).live : ℤ) = (st.live + step c) % 2 ^ 64 ∧ (c.stats st).live < 2 ^ 64 := by
  have hsame : (st.live : ℤ) = (st.live + 0) % 2 ^ 64 := by omega
  cases c with
  | live d =>
    have hlive : (Count.stats st (.live d)).live = ((st.live + d) % 2 ^ 64).toNat := rfl
    rw [hlive, step]
    omega
  | rejected e => cases e <;> exact ⟨hsame, hlt⟩
  | _ => exact ⟨hsame, hlt⟩

theorem live_countAll (cs : List Count) {st : Stats} (hlt : st.live < 2 ^ 64) :
    ((countAll cs st).live : ℤ) = (st.live + (cs.map step).sum) % 2 ^ 64 ∧
      (countAll cs st).live < 2 ^ 64 := by
  induction cs generalizing st with
  | nil =>
    rw [List.map_nil, List.sum_nil]
    exact ⟨by show (st.live : ℤ) = _; omega, hlt⟩
  | cons c cs ih =>
    obtain ⟨hlive, hlt'⟩ := live_stats c hlt
    obtain ⟨hrest, hlast⟩ := ih hlt'
    refine ⟨?_, hlast⟩
    rw [List.map_cons, List.sum_cons]
    show ((countAll cs (c.stats st)).live : ℤ) = _
    rw [hrest, hlive, Int.emod_add_emod, add_assoc]

/-! Runs, seen by the desks. -/

/-- What a run of messages does: every desk makes its own run, and the shared counters take
up the moves of all of them. -/
structure Heard (s : Session) (ms : List Msg) (s' : Session) (moves : List (UInt16 × Count)) :
    Prop where
  aligned : Aligned s'
  cfg : s'.cfg = s.cfg
  desks : ∀ l : UInt16, ∃ css, run (deskStep s.cfg l) (desk s l.toNat, s.afterQ) ms =
    .ok (css, (desk s' l.toNat, s'.afterQ)) ∧ css.flatten = strand l moves
  value : ∀ k : Counter, k.value s'.stats = k.value s.stats + (moves.map fun p => k.weight p.2).sum
  live : s.stats.live < 2 ^ 64 → (s'.stats.live : ℤ) =
    (s.stats.live + (moves.map fun p => step p.2).sum) % 2 ^ 64 ∧ s'.stats.live < 2 ^ 64
  messages : s'.stats.messages = s.stats.messages + ms.length
  byType : s'.stats.byType =
    (ms.map fun m => byteAt m.raw 0).foldl (fun xs ty => xs.modify ty.toNat (· + 1)) s.stats.byType
  length : ∀ n, s'.books.length ≤ n ↔
    s.books.length ≤ n ∧ ∀ m ∈ ms, ∀ l, target (body m) = some l → l.toNat < n

theorem heard_nil {s : Session} (h : Aligned s) : Heard s [] s [] where
  aligned := h
  cfg := rfl
  desks _ := ⟨[], rfl, rfl⟩
  value _ := rfl
  live hlt := by
    refine ⟨?_, hlt⟩
    rw [List.map_nil, List.sum_nil]
    omega
  messages := rfl
  byType := rfl
  length n := by simp

theorem Heard.append {s s₁ s' : Session} {ms ns : List Msg} {mv nv : List (UInt16 × Count)}
    (h : Heard s ms s₁ mv) (h₁ : Heard s₁ ns s' nv) : Heard s (ms ++ ns) s' (mv ++ nv) where
  aligned := h₁.aligned
  cfg := h₁.cfg.trans h.cfg
  desks l := by
    obtain ⟨css, hrun, hpart⟩ := h.desks l
    obtain ⟨dss, hrun₁, hpart₁⟩ := h₁.desks l
    rw [h.cfg] at hrun₁
    refine ⟨css ++ dss, ?_, by rw [List.flatten_append, strand_append, hpart, hpart₁]⟩
    simp only [run_append, hrun, hrun₁, ok_bind, pure_eq_ok]
  value k := by
    rw [h₁.value, h.value, List.map_append, List.sum_append, Nat.add_assoc]
  live hlt := by
    obtain ⟨hlive, hlt₁⟩ := h.live hlt
    obtain ⟨hlive', hlt'⟩ := h₁.live hlt₁
    refine ⟨?_, hlt'⟩
    rw [hlive', hlive, List.map_append, List.sum_append, Int.emod_add_emod, add_assoc]
  messages := by
    rw [h₁.messages, h.messages, List.length_append, Nat.add_assoc]
  byType := by
    rw [h₁.byType, h.byType, List.map_append, List.foldl_append]
  length n := by
    rw [h₁.length, h.length, and_assoc]
    simp only [List.mem_append, or_imp, forall_and]

theorem messages_countAll (cs : List Count) (st : Stats) :
    (countAll cs st).messages = st.messages ∧ (countAll cs st).byType = st.byType := by
  induction cs generalizing st with
  | nil => exact ⟨rfl, rfl⟩
  | cons c cs ih =>
    have hrest := ih (c.stats st)
    cases c with
    | rejected e => cases e <;> exact hrest
    | _ => exact hrest

theorem noteMessage_header (st : Stats) (ty : UInt8) (ts : Option UInt64) :
    (st.noteMessage ty ts).messages = st.messages + 1 ∧
      (st.noteMessage ty ts).byType = st.byType.modify ty.toNat (· + 1) ∧
      (st.noteMessage ty ts).live = st.live := by
  cases ts <;> exact ⟨rfl, rfl, rfl⟩

theorem deskStep_other (cfg : SessionConfig) {l : UInt16} (p : Desk × Bool) {m : Msg}
    (h : target (body m) ≠ some l) :
    run (deskStep cfg l) p [m] = .ok ([[]], (p.1, opens p.2 (body m))) := by
  refine run_cons_ok ?_ (run_nil _ _)
  rw [deskStep, if_neg h]

/-- One message. -/
theorem heard_step {s s' : Session} {m : Msg} {b : Bool} (h : Aligned s)
    (hrun : s.applyMsg m = .ok (b, s')) : ∃ moves, Heard s [m] s' moves := by
  obtain ⟨hmessages, htype, hlive⟩ := noteMessage_header s.stats (note m).ty (note m).ts
  cases moved_of_applyMsg h hrun with
  | idle hl hdone =>
    obtain ⟨locates, hstats⟩ := hdone.stats
    refine ⟨[], hdone.aligned, hdone.cfg, fun l => ⟨[[]], ?_, rfl⟩, fun k => ?_, fun hlt => ?_, ?_,
      ?_, fun n => ?_⟩
    · rw [deskStep_other s.cfg (desk s l.toNat, s.afterQ) (by rw [hl]; simp), hdone.desks,
        desk_noted, hdone.afterQ]
      rfl
    · have hvalue : k.value s'.stats = k.value (idleStats (noted s (note m)).stats (body m)) := by
        rw [hstats]
        cases k <;> rfl
      rw [hvalue, k.value_idleStats, k.value_noted]
      rfl
    · have hsame : s'.stats.live = s.stats.live := by
        rw [hstats, ← hlive]
        cases body m <;> rfl
      rw [hsame, List.map_nil, List.sum_nil]
      exact ⟨by omega, hlt⟩
    · rw [hstats]
      exact Eq.trans (by cases body m <;> rfl) hmessages
    · rw [hstats]
      exact Eq.trans (by cases body m <;> rfl) htype
    · rw [hdone.books]
      simp only [List.mem_singleton, forall_eq, hl, reduceCtorEq, false_imp_iff,
        implies_true, and_true]
      exact Iff.rfl
  | @worked l b d cs hl hact =>
    obtain ⟨hmoves, htypes⟩ := messages_countAll cs (noted s (note m)).stats
    have hsnd : ∀ {β : Type} (f : Count → β),
        (cs.map fun c => (l, c)).map (fun p => f p.2) = cs.map f := fun f => by
      rw [List.map_map]
      rfl
    refine ⟨cs.map fun c => (l, c), aligned_put _ _ _ _ (aligned_noted h (note m)),
      rfl, fun i => ?_,
      fun k => ?_, fun hlt => ?_, hmoves.trans hmessages, htypes.trans htype, fun n => ?_⟩
    · by_cases hi : l = i
      · subst hi
        refine ⟨[cs], ?_, by rw [List.flatten_singleton, strand_map_self]⟩
        rw [desk_worked hact]
        refine run_cons_ok ?_ (run_nil _ _)
        rw [deskStep, if_pos hl, hact, ok_bind]
        rfl
      · refine ⟨[[]], ?_, by rw [strand_map_ne hi]; rfl⟩
        have hne : i.toNat ≠ l.toNat := fun heq => hi (UInt16.toNat_inj.mp heq).symm
        rw [deskStep_other s.cfg _ (by rw [hl]; simpa using hi), opens_of_target hl,
          desk_put_ne _ _ _ _ hne, desk_noted]
        rfl
    · have hvalue : k.value (put (noted s (note m)) l.toNat d 1 cs).stats =
          k.value (countAll cs (noted s (note m)).stats) := by cases k <;> rfl
      rw [hvalue, k.value_countAll, k.value_noted, hsnd]
    · rw [hsnd, ← hlive]
      exact live_countAll cs (hlive.symm ▸ hlt)
    · show ((growTo _ _ _).set _ _).length ≤ n ↔ _
      rw [List.length_set, length_growTo]
      simp only [List.mem_singleton, forall_eq, hl, Option.some.injEq, forall_eq', noted]
      omega

theorem heard_run {s s' : Session} {ms : List Msg} {out : List Bool} (h : Aligned s)
    (hrun : run Session.applyMsg s ms = .ok (out, s')) : ∃ moves, Heard s ms s' moves := by
  induction ms generalizing s out with
  | nil =>
    obtain ⟨-, rfl⟩ := Prod.mk.inj (Except.ok.inj hrun)
    exact ⟨[], heard_nil h⟩
  | cons m ms ih =>
    obtain ⟨b, bs, s₁, hstep, hrest, -⟩ := run_cons_eq_ok.mp hrun
    obtain ⟨mv, hfirst⟩ := heard_step h hstep
    obtain ⟨nv, hlast⟩ := ih hfirst.aligned hrest
    exact ⟨mv ++ nv, hfirst.append hlast⟩

/-- A run that every desk can make. -/
theorem run_of_desks {s : Session} {ms : List Msg} (h : Aligned s)
    (hdesks : ∀ l : UInt16, ∃ r, run (deskStep s.cfg l) (desk s l.toNat, s.afterQ) ms = .ok r) :
    ∃ out s', run Session.applyMsg s ms = .ok (out, s') := by
  induction ms generalizing s with
  | nil => exact ⟨[], s, rfl⟩
  | cons m ms ih =>
    obtain ⟨b, s₁, hstep⟩ : ∃ b s₁, s.applyMsg m = .ok (b, s₁) := by
      cases hl : target (body m) with
      | none =>
        obtain ⟨s₁, hperform, -⟩ := perform_idle (aligned_noted h (note m)) hl
        exact ⟨false, s₁, by rw [applyMsg_eq h.sized, hperform]⟩
      | some l =>
        obtain ⟨⟨css, p⟩, hrun⟩ := hdesks l
        obtain ⟨cs, -, q, hfirst, -, -⟩ := run_cons_eq_ok.mp hrun
        rw [deskStep, if_pos hl] at hfirst
        obtain ⟨⟨b, d, cs'⟩, hact, -⟩ := bind_eq_ok.mp hfirst
        exact ⟨b, _, applyMsg_of_act h hl hact⟩
    obtain ⟨mv, hheard⟩ := heard_step h hstep
    have hrest : ∀ l : UInt16, ∃ r,
        run (deskStep s₁.cfg l) (desk s₁ l.toNat, s₁.afterQ) ms = .ok r := by
      intro l
      obtain ⟨⟨css, p⟩, hrun⟩ := hdesks l
      obtain ⟨cs, dss, q, hfirst, hnext, -⟩ := run_cons_eq_ok.mp hrun
      obtain ⟨ess, hone, -⟩ := hheard.desks l
      obtain ⟨cs', fss, q', hfirst', hnil, -⟩ := run_cons_eq_ok.mp hone
      obtain ⟨-, hq⟩ := Prod.mk.inj (Except.ok.inj (hfirst.symm.trans hfirst'))
      obtain ⟨-, hq'⟩ := Prod.mk.inj (Except.ok.inj hnil)
      rw [hheard.cfg, ← hq', ← hq]
      exact ⟨_, hnext⟩
    obtain ⟨out, s', hrun⟩ := ih hheard.aligned hrest
    exact ⟨b :: out, s', run_cons_ok hstep hrun⟩

/-! Two streams. -/

/-- The streams differ in the interleaving of their locates only; of the messages that are
too short to carry a locate, both have equally many of every type. -/
structure SameParts (A B : List Msg) : Prop where
  locate : ∀ l, A.filter (concerns l) = B.filter (concerns l)
  loose : ∀ ty, (A.filter (loose ty)).length = (B.filter (loose ty)).length

section Parts

variable {A B : List Msg}

theorem perm_located (h : ∀ l, A.filter (concerns l) = B.filter (concerns l)) :
    (A.filter fun m => (headerLocate m.raw).isSome).Perm
      (B.filter fun m => (headerLocate m.raw).isSome) := by
  refine perm_of_parts (fun m => headerLocate m.raw) fun k => ?_
  cases k with
  | none =>
    have hnone : ∀ ms : List Msg, (ms.filter fun m => (headerLocate m.raw).isSome).filter
        (fun m => headerLocate m.raw = none) = [] := fun ms =>
      List.filter_eq_nil_iff.mpr fun m hm => by
        obtain ⟨-, hsome⟩ := List.mem_filter.mp hm
        obtain ⟨l, hl⟩ := Option.isSome_iff_exists.mp hsome
        rw [hl]
        simp
    rw [hnone, hnone]
  | some l =>
    have hown : ∀ ms : List Msg, (ms.filter fun m => (headerLocate m.raw).isSome).filter
        (fun m => headerLocate m.raw = some l) =
        (ms.filter (concerns l)).filter (fun m => headerLocate m.raw = some l) := fun ms => by
      rw [List.filter_filter, List.filter_filter]
      refine List.filter_congr fun m _ => ?_
      by_cases hl : headerLocate m.raw = some l
      · rw [concerns, carries_iff.mpr hl, hl]
        rfl
      · rw [decide_eq_false hl]
        rfl
    rw [hown, hown, h]

theorem perm_types (h : SameParts A B) :
    (A.map fun m => byteAt m.raw 0).Perm (B.map fun m => byteAt m.raw 0) := by
  have hsplit : ∀ ms : List Msg, (ms.map fun m => byteAt m.raw 0).Perm
      (((ms.filter fun m => (headerLocate m.raw).isSome).map fun m => byteAt m.raw 0) ++
        (ms.filter fun m => !(headerLocate m.raw).isSome).map fun m => byteAt m.raw 0) := by
    intro ms
    rw [← List.map_append]
    exact ((List.filter_append_perm _ ms).map _).symm
  have hloose : ∀ (ms : List Msg) (ty : UInt8),
      ((ms.filter fun m => !(headerLocate m.raw).isSome).map fun m => byteAt m.raw 0).count ty =
        (ms.filter (loose ty)).length := fun ms ty => by
    rw [List.count, List.countP_map, List.countP_filter, List.countP_eq_length_filter]
    refine congrArg List.length (List.filter_congr fun m _ => ?_)
    rw [loose, headerLocate_ok, Msg.ty_ok]
    cases headerLocate m.raw with
    | none => exact Bool.eq_iff_iff.mpr (by simp)
    | some l => simp
  refine (hsplit A).trans (List.Perm.trans ?_ (hsplit B).symm)
  refine ((perm_located h.locate).map _).append (List.perm_iff_count.mpr fun ty => ?_)
  rw [hloose, hloose, h.loose]

end Parts

theorem modify_comm (xs : List ℕ) (i j : ℕ) :
    (xs.modify i (· + 1)).modify j (· + 1) = (xs.modify j (· + 1)).modify i (· + 1) := by
  refine List.ext_getElem? fun k => ?_
  simp only [List.getElem?_modify]
  cases xs[k]? with
  | none => rfl
  | some n =>
    by_cases hi : i = k <;> by_cases hj : j = k <;> simp [hi, hj]

/-- Nothing about a locate and no sum tells the sessions apart. -/
structure Indistinct (s s' : Session) : Prop where
  desks : ∀ l : UInt16, desk s l.toNat = desk s' l.toNat
  length : s.stats.locates.length = s'.stats.locates.length
  messages : s.stats.messages = s'.stats.messages
  byType : s.stats.byType = s'.stats.byType
  live : s.stats.live = s'.stats.live
  value : ∀ k : Counter, k.value s.stats = k.value s'.stats
  allLocatesHash : s.stats.allLocatesHash = s'.stats.allLocatesHash

/-- The desk of a locate along two streams with the same part for it. -/
theorem desk_run_eq {cfg : SessionConfig} {l : UInt16} {A B : List Msg}
    (h : A.filter (concerns l) = B.filter (concerns l)) {p q : Desk × Bool}
    {css : List (List Count)} (hrun : run (deskStep cfg l) p A = .ok (css, q)) :
    ∃ dss, run (deskStep cfg l) p B = .ok (dss, q) ∧ dss.flatten = css.flatten := by
  have hskip : ∀ (p : Desk × Bool) m, concerns l m = false → deskStep cfg l p m = .ok ([], p) :=
    fun p m => deskStep_skip cfg p m
  have hA := run_filter hskip p A
  rw [h, ← run_filter hskip p B, hrun] at hA
  rcases hB : run (deskStep cfg l) p B with e | ⟨dss, q'⟩
  · rw [hB] at hA
    cases hA
  · rw [hB] at hA
    obtain ⟨hout, rfl⟩ := Prod.mk.inj (Except.ok.inj hA)
    exact ⟨dss, rfl, hout.symm⟩

/-- Closing keeps sessions with the same desks alike. -/
theorem finished_desks {hash : Bytes → Bytes} {s s' t t' : Session} (h : Finished hash s t)
    (h' : Finished hash s' t') (hdesks : ∀ l : UInt16, desk s l.toNat = desk s' l.toNat)
    (l : UInt16) : desk t l.toNat = desk t' l.toNat := by
  have hbook : s.book l.toNat = s'.book l.toNat := congrArg Desk.book (hdesks l)
  have hwatched : s.watched.getD l.toNat false = s'.watched.getD l.toNat false :=
    congrArg Desk.watched (hdesks l)
  have hstats : ({ s.stats.locates.getD l.toNat .new with msgs := 0 } : LocateStats) =
      { s'.stats.locates.getD l.toNat .new with msgs := 0 } := congrArg Desk.stats (hdesks l)
  have hlocate : ({ t.stats.locates.getD l.toNat .new with msgs := 0 } : LocateStats) =
      { t'.stats.locates.getD l.toNat .new with msgs := 0 } := by
    simp only [List.getD_eq_getElem?_getD] at hstats ⊢
    cases hb : s.book l.toNat with
    | none => rw [h.unopened _ hb, h'.unopened _ (hbook ▸ hb), hstats]
    | some b =>
      obtain ⟨bytes, ls, hbytes, hls, hclosed⟩ := h.opened _ b hb
      obtain ⟨bytes', ls', hbytes', hls', hclosed'⟩ := h'.opened _ b (hbook ▸ hb)
      obtain rfl := Except.ok.inj (hbytes.symm.trans hbytes')
      have hmsgs : ∀ ls : LocateStats, ({ closed hash b bytes ls with msgs := 0 } : LocateStats) =
          closed hash b bytes { ls with msgs := 0 } := fun ls => by cases b <;> rfl
      rw [hls, hls'] at hstats
      rw [hclosed, hclosed', Option.getD_some, Option.getD_some, hmsgs, hmsgs]
      exact congrArg _ hstats
  rw [desk, desk, h.book, h'.book, h.watched, h'.watched, hbook, hwatched, hlocate]

/-- Locates do not interfere: when a stream can be replayed, so can every other stream with
the same part for each locate, and the sessions agree on all locates and on all sums. As for every
session here, `array_window` is in `1..=4096` (`ValidSession`): no array book takes another. -/
theorem locates_do_not_interfere {cfg : SessionConfig} (hcfg : ValidSession cfg)
    (hash : Bytes → Bytes) {A B : List Msg} (h : SameParts A B) {out : List Bool} {s : Session}
    (hrun : run Session.applyMsg (.new cfg) A = .ok (out, s)) :
    ∃ out' s' t t', run Session.applyMsg (.new cfg) B = .ok (out', s') ∧
      s.finish hash = .ok t ∧ s'.finish hash = .ok t' ∧ Indistinct t t' := by
  have hnew : Aligned (.new cfg) := aligned_new _
  obtain ⟨mv, hA⟩ := heard_run hnew hrun
  obtain ⟨out', s', hrun'⟩ : ∃ out' s', run Session.applyMsg (.new cfg) B = .ok (out', s') := by
    refine run_of_desks hnew fun l => ?_
    obtain ⟨css, hdesk, -⟩ := hA.desks l
    obtain ⟨dss, hdesk', -⟩ := desk_run_eq (h.locate l) hdesk
    exact ⟨_, hdesk'⟩
  obtain ⟨nv, hB⟩ := heard_run hnew hrun'
  have hboth : ∀ l : UInt16, desk s l.toNat = desk s' l.toNat ∧ strand l mv = strand l nv := by
    intro l
    obtain ⟨css, hdesk, hmv⟩ := hA.desks l
    obtain ⟨dss, hdesk', hflat⟩ := desk_run_eq (h.locate l) hdesk
    obtain ⟨ess, hdesk'', hnv⟩ := hB.desks l
    obtain ⟨rfl, hend⟩ := Prod.mk.inj (Except.ok.inj (hdesk'.symm.trans hdesk''))
    exact ⟨(Prod.mk.inj hend).1, by rw [← hmv, ← hnv, hflat]⟩
  have hmoves : mv.Perm nv := perm_of_strand fun l => (hboth l).2
  have htypes := perm_types h
  have hlocates : s.books.length = s'.books.length := by
    have hmem : ∀ {A B : List Msg}, (∀ l, A.filter (concerns l) = B.filter (concerns l)) → ∀ n,
        (∀ m ∈ A, ∀ l, target (body m) = some l → l.toNat < n) →
        ∀ m ∈ B, ∀ l, target (body m) = some l → l.toNat < n := by
      intro A B hAB n hA m hm l hl
      have hconcerns : concerns l m = true := by
        rw [concerns, carries_iff.mpr (headerLocate_of_target hl)]
        rfl
      have hmem : m ∈ A.filter (concerns l) := by
        rw [hAB]
        exact List.mem_filter.mpr ⟨hm, hconcerns⟩
      exact hA m (List.mem_filter.mp hmem).1 l hl
    refine Nat.le_antisymm ?_ ?_
    · refine (hA.length _).mpr ⟨Nat.zero_le _, ?_⟩
      exact hmem (fun l => (h.locate l).symm) _ ((hB.length _).mp (Nat.le_refl _)).2
    · refine (hB.length _).mpr ⟨Nat.zero_le _, ?_⟩
      exact hmem h.locate _ ((hA.length _).mp (Nat.le_refl _)).2
  have hfollows := (follows_of_run hcfg hrun).2
  have hfollows' := (follows_of_run hcfg hrun').2
  obtain ⟨t, ht⟩ := finish_ok hfollows hash
  obtain ⟨t', ht'⟩ := finish_ok hfollows' hash
  have hdone := finished_of_finish hfollows.books_le ht
  have hdone' := finished_of_finish hfollows'.books_le ht'
  obtain ⟨_, _, _, _, _, hstats⟩ := hdone.stats
  obtain ⟨_, _, _, _, _, hstats'⟩ := hdone'.stats
  have hdesks := finished_desks hdone hdone' fun l => (hboth l).1
  refine ⟨out', s', t, t', hrun', ht, ht', hdesks, ?_, ?_, ?_, ?_, fun k => ?_, ?_⟩
  · rw [hdone.length, hdone'.length, hA.aligned.locates, hB.aligned.locates, hlocates]
  · have hlen := htypes.length_eq
    rw [List.length_map, List.length_map] at hlen
    rw [hstats, hstats']
    exact hA.messages.trans ((congrArg _ hlen).trans hB.messages.symm)
  · rw [hstats, hstats']
    exact hA.byType.trans ((htypes.foldl_eq' (fun _ _ _ _ _ => modify_comm ..) _).trans
      hB.byType.symm)
  · obtain ⟨hlive, -⟩ := hA.live (show 0 < 2 ^ 64 by decide)
    obtain ⟨hlive', -⟩ := hB.live (show 0 < 2 ^ 64 by decide)
    rw [hstats, hstats']
    show s.stats.live = s'.stats.live
    rw [(hmoves.map fun p => step p.2).sum_eq] at hlive
    exact Int.ofNat_inj.mp (hlive.trans hlive'.symm)
  · have hvalue : ∀ {s t : Session}, Finished hash s t → k.value t.stats = k.value s.stats := by
      intro s t h
      obtain ⟨_, _, _, _, _, hst⟩ := h.stats
      rw [hst]
      cases k <;> rfl
    rw [hvalue hdone, hvalue hdone', hA.value, hB.value,
      (hmoves.map fun p => k.weight p.2).sum_eq]
  · rw [hdone.allLocatesHash, hdone'.allLocatesHash]
    refine congrArg hash (List.flatMap_congr fun l hl => ?_)
    have hlt : l < 2 ^ 16 := List.mem_range.mp hl
    obtain ⟨k, rfl⟩ : ∃ k : UInt16, k.toNat = l := ⟨.ofNat l, UInt16.toNat_ofNat_of_lt hlt⟩
    have hbook : s.book k.toNat = s'.book k.toNat := congrArg Desk.book (hboth k).1
    have hclose : (t.stats.locates.getD k.toNat .new).closeHash =
        (t'.stats.locates.getD k.toNat .new).closeHash :=
      congrArg (fun d => d.stats.closeHash) (hdesks k)
    rw [hbook, hclose]

/-- The same order on the next locate. -/
def otherMsg : Msg := addMsg ⟨2, 0, 0⟩ 7 66 5 blank 10000

theorem sameParts_swap {m n : Msg} {l k : UInt16} (hm : headerLocate m.raw = some l)
    (hn : headerLocate n.raw = some k) (hlk : l ≠ k) (hm' : isSystem m = false)
    (hn' : isSystem n = false) : SameParts [m, n] [n, m] where
  locate i := by
    have hfirst : concerns i m = decide (l = i) := by
      rw [concerns, hm', Bool.or_false, Bool.eq_iff_iff, carries_iff, hm]
      simp
    have hlast : concerns i n = decide (k = i) := by
      rw [concerns, hn', Bool.or_false, Bool.eq_iff_iff, carries_iff, hn]
      simp
    by_cases hl : l = i
    · have hk : k ≠ i := fun hk => hlk (hl.trans hk.symm)
      simp [hfirst, hlast, hl, hk]
    · simp [hfirst, hlast, hl, List.filter_cons]
  loose ty := by simp [loose, headerLocate_ok, hm, hn]

theorem locates_do_not_interfere_swap : ∃ out' s s' t t',
    run Session.applyMsg (.new (watchEvery 64)) [firstMsg, otherMsg] = .ok ([true, true], s) ∧
      run Session.applyMsg (.new (watchEvery 64)) [otherMsg, firstMsg] = .ok (out', s') ∧
      s.finish (fun b => b) = .ok t ∧ s'.finish (fun b => b) = .ok t' ∧ Indistinct t t' := by
  have hparts : SameParts [firstMsg, otherMsg] [otherMsg, firstMsg] :=
    sameParts_swap (l := 1) (k := 2) (by decide +kernel) (by decide +kernel) (by decide) rfl rfl
  have hanswers : (run Session.applyMsg (.new (watchEvery 64)) [firstMsg, otherMsg]).map Prod.fst =
      .ok [true, true] := by decide +kernel
  rcases hrun : run Session.applyMsg (.new (watchEvery 64)) [firstMsg, otherMsg] with e | ⟨out, s⟩
  · rw [hrun] at hanswers
    cases hanswers
  · rw [hrun] at hanswers
    obtain rfl : out = [true, true] := Except.ok.inj hanswers
    obtain ⟨out', s', t, t', hrun', ht, ht', hsame⟩ :=
      locates_do_not_interfere (watchEvery_valid 64) (fun b => b) hparts hrun
    exact ⟨out', s, s', t, t', rfl, hrun', ht, ht', hsame⟩

/-- A message of an unknown type that is too short to carry a locate. -/
def shortMsg : Msg := .unknown ⟨[1], List.cons_ne_nil _ _⟩

/-- It is in no part, and counts as a message all the same. -/
theorem short_message_tells_apart : parse [1] = .ok shortMsg ∧
    (∀ l, [shortMsg].filter (concerns l) = ([] : List Msg).filter (concerns l)) ∧
    ValidSession (watchEvery 64) ∧ ∀ hash : Bytes → Bytes, ∃ out out' s s' t t',
      run Session.applyMsg (.new (watchEvery 64)) [shortMsg] = .ok (out, s) ∧
        run Session.applyMsg (.new (watchEvery 64)) [] = .ok (out', s') ∧
        s.finish hash = .ok t ∧ s'.finish hash = .ok t' ∧
        t.stats.messages = 1 ∧ t'.stats.messages = 0 := by
  have hlocate : headerLocate shortMsg.raw = none := by decide
  refine ⟨rfl, fun l => ?_, watchEvery_valid 64, fun hash => ?_⟩
  · refine List.filter_eq_nil_iff.mpr fun m hm => ?_
    rw [List.mem_singleton.mp hm, concerns, Bool.or_eq_true, carries_iff, hlocate]
    simp [shortMsg, isSystem]
  · have hnew : Aligned (.new (watchEvery 64)) := aligned_new _
    obtain ⟨⟨out, s⟩, hrun⟩ := ok_of_not_panics
      (x := run Session.applyMsg (.new (watchEvery 64)) [shortMsg]) (by decide +kernel)
    have hcount : ∀ {ms out s}, run Session.applyMsg (.new (watchEvery 64)) ms = .ok (out, s) →
        ∃ t, s.finish hash = .ok t ∧ t.stats.messages = ms.length := by
      intro ms out s hrun
      have hfollows := (follows_of_run (watchEvery_valid 64) hrun).2
      obtain ⟨t, ht⟩ := finish_ok hfollows hash
      obtain ⟨_, _, _, _, _, hstats⟩ := (finished_of_finish hfollows.books_le ht).stats
      obtain ⟨moves, hheard⟩ := heard_run hnew hrun
      refine ⟨t, ht, ?_⟩
      rw [hstats]
      exact hheard.messages.trans (Nat.zero_add _)
    obtain ⟨t, ht, hone⟩ := hcount hrun
    obtain ⟨t', ht', hzero⟩ := hcount (run_nil Session.applyMsg (.new (watchEvery 64)))
    exact ⟨out, [], s, _, t, t', hrun, rfl, ht, ht', hone, hzero⟩

end Lobcore.LocateIsolation
