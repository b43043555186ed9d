import Lobcore.DeskSteps
import Lobcore.SessionRuns

/-!
The close of a session. `finish` writes the state of every book into the statistics, and may
be called at any point of a run; `into_stats` hands them out and calls it first if it was not
called before. What is handed out is the state of the books at that moment when no message
touched a book after the last `finish`.
-/
namespace Lobcore.Sessions.LocateBook

def isArray : LocateBook → Bool
  | array _ => true
  | ref _ => false

/-- `(base_px, n_levels, tick)` of an array book. -/
def window : LocateBook → Option (ℤ × ℕ × ℤ)
  | array ab => some (ab.config.basePx, ab.config.nLevels, ab.config.tick)
  | ref _ => none

end Lobcore.Sessions.LocateBook

namespace Lobcore.Closings

open Checked OrderTypes Payloads SessionStats ArrayBooks Sessions Replays Handlers Desks DeskSteps
open SessionRefines SessionRuns Migrations

/-- What can be done with a session. -/
inductive Call where
  | message (m : Msg)
  | payload (p : Bytes)
  | finish

def call (hash : Bytes → Bytes) (s : Session) : Call → Exec (Unit × Session)
  | .message m => do
    let (_, s) ← s.applyMsg m
    return ((), s)
  | .payload p => do
    let (_, s) ← s.applyPayload p
    return ((), s)
  | .finish => do
    let s ← s.finish hash
    return ((), s)

/-- Consume the session and return the statistics, finishing first if needed. -/
def intoStats (hash : Bytes → Bytes) (s : Session) : Exec Stats := do
  let s ← if s.finished then pure s else s.finish hash
  return s.stats

/-- The close state of a locate with a book of the given state. -/
def closed (hash : Bytes → Bytes) (b : LocateBook) (bytes : Bytes) (ls : LocateStats) :
    LocateStats :=
  let ls := { ls with closeHash := hash bytes, live := b.liveOrders % 2 ^ 32 }
  match b with
  | .ref _ => ls
  | .array ab => { ls with
      array := true
      overflowHits := ab.overflowHits
      maxAbsOffset := ab.maxAbsOffset
      window := some (ab.config.basePx, ab.config.nLevels, ab.config.tick) }

/-- What one slot adds to the bytes behind the hash over all locates. -/
def slotBytes (st : Stats) (slot : Option LocateBook × ℕ) : Bytes :=
  match slot.1 with
  | none => []
  | some _ => leBytes 2 (slot.2 % 2 ^ 16) ++ (st.locates.getD slot.2 .new).closeHash

section Close

variable {hash : Bytes → Bytes}

theorem closeLocate_some {acc next : Stats × Bytes} {b : LocateBook} {i : ℕ}
    (h : Session.closeLocate hash acc (some b, i) = .ok next) :
    ∃ bytes, b.stateBytes = .ok bytes ∧ i < acc.1.locates.length ∧
      next = (acc.1.onLocate i (closed hash b bytes),
        acc.2 ++ leBytes 2 (i % 2 ^ 16) ++ hash bytes) := by
  simp only [Session.closeLocate] at h
  obtain ⟨bytes, hbytes, h⟩ := bind_eq_ok.mp h
  have hlt : i < acc.1.locates.length := by
    by_contra hge
    have hout : ∀ f, acc.1.atLocate i f = .error .outOfRange := fun f => by
      rw [Stats.atLocate, index_error (not_lt.mp hge), error_bind]
    simp only [hout, error_bind, reduceCtorEq] at h
  refine ⟨bytes, hbytes, hlt, ?_⟩
  simp only [Stats.atLocate_ok hlt, ok_bind] at h
  cases b with
  | ref r => exact (Except.ok.inj h).symm
  | array ab =>
    have hlt' : i < (acc.1.onLocate i fun ls => { ls with
        closeHash := hash bytes
        live := (LocateBook.array ab).liveOrders % 2 ^ 32 }).locates.length := by
      simpa [Stats.onLocate] using hlt
    simp only [Stats.atLocate_ok hlt', ok_bind, pure_eq_ok, Except.ok.injEq] at h
    rw [← h]
    simp only [Stats.onLocate, List.modify_modify_eq]
    rfl

/-- What the loop over the books leaves. -/
structure Filled (hash : Bytes → Bytes) (slots : List (Option LocateBook × ℕ))
    (acc last : Stats × Bytes) : Prop where
  stats : ∃ locates, last.1 = { acc.1 with locates }
  length : last.1.locates.length = acc.1.locates.length
  other : ∀ i, (∀ b, (some b, i) ∉ slots) → last.1.locates[i]? = acc.1.locates[i]?
  slot : ∀ b i, (some b, i) ∈ slots → ∃ bytes ls, b.stateBytes = .ok bytes ∧
    acc.1.locates[i]? = some ls ∧ last.1.locates[i]? = some (closed hash b bytes ls)
  bytes : last.2 = acc.2 ++ slots.flatMap (slotBytes last.1)

theorem filled_of_close {slots : List (Option LocateBook × ℕ)} {acc last : Stats × Bytes}
    (hnodup : (slots.map Prod.snd).Nodup)
    (h : slots.foldlM (Session.closeLocate hash) acc = .ok last) : Filled hash slots acc last := by
  induction slots generalizing acc with
  | nil =>
    obtain rfl := Except.ok.inj h
    exact ⟨⟨_, rfl⟩, rfl, fun _ _ => rfl, fun b i hmem => by simp at hmem, by simp⟩
  | cons slot slots ih =>
    obtain ⟨slot, i⟩ := slot
    rw [List.map_cons, List.nodup_cons] at hnodup
    rw [List.foldlM_cons] at h
    obtain ⟨next, hnext, hrest⟩ := bind_eq_ok.mp h
    have hlast := ih hnodup.2 hrest
    have hfresh : ∀ b, (some b, i) ∉ slots := fun b hmem =>
      hnodup.1 (List.mem_map.mpr ⟨_, hmem, rfl⟩)
    cases slot with
    | none =>
      obtain rfl := Except.ok.inj hnext
      refine ⟨hlast.stats, hlast.length, fun j hj => hlast.other j fun b hmem =>
        hj b (List.mem_cons_of_mem _ hmem), fun b j hmem => ?_, ?_⟩
      · rcases List.mem_cons.mp hmem with heq | hmem
        · cases (Prod.mk.inj heq).1
        · exact hlast.slot b j hmem
      · rw [hlast.bytes, List.flatMap_cons]
        rfl
    | some b =>
      obtain ⟨bytes, hbytes, hlt, rfl⟩ := closeLocate_some hnext
      have hother : ∀ j, j ≠ i → (acc.1.onLocate i (closed hash b bytes)).locates[j]? =
          acc.1.locates[j]? := fun j hj => List.getElem?_modify_ne _ _ hj.symm
      have hself : last.1.locates[i]? = some (closed hash b bytes acc.1.locates[i]) := by
        rw [hlast.other i hfresh]
        show (acc.1.locates.modify i _)[i]? = _
        rw [List.getElem?_modify_eq, List.getElem?_eq_getElem hlt]
        rfl
      refine ⟨?_, hlast.length.trans (List.length_modify ..), fun j hj => ?_, fun b' j hmem => ?_,
        ?_⟩
      · obtain ⟨locates, hstats⟩ := hlast.stats
        exact ⟨locates, hstats⟩
      · have hne : j ≠ i := by
          intro hji
          exact hj b (hji ▸ List.mem_cons_self ..)
        rw [hlast.other j fun b' hmem => hj b' (List.mem_cons_of_mem _ hmem)]
        exact hother j hne
      · rcases List.mem_cons.mp hmem with heq | hmem
        · obtain ⟨hb, rfl⟩ := Prod.mk.inj heq
          obtain rfl := Option.some.inj hb
          exact ⟨bytes, _, hbytes, List.getElem?_eq_getElem hlt, hself⟩
        · obtain ⟨bytes', ls, hbytes', hls, hclosed⟩ := hlast.slot b' j hmem
          have hne : j ≠ i := fun hji => hfresh b' (hji ▸ hmem)
          exact ⟨bytes', ls, hbytes', (hother j hne).symm.trans hls, hclosed⟩
      · have hhash : (last.1.locates.getD i .new).closeHash = hash bytes := by
          rw [List.getD_eq_getElem?_getD, hself, Option.getD_some]
          cases b <;> rfl
        rw [hlast.bytes, List.flatMap_cons]
        simp only [slotBytes, hhash, List.append_assoc]

end Close

/-- The bytes behind the hash over all locates: number and close hash of each with a book. -/
def locateStream (s : Session) (st : Stats) : Bytes :=
  (List.range (2 ^ 16)).flatMap fun l => match s.book l with
    | none => []
    | some _ => leBytes 2 l ++ (st.locates.getD l .new).closeHash

theorem flatMap_zipIdx {α β : Type} (f : α × ℕ → List β) (xs : List α) :
    xs.zipIdx.flatMap f =
      (List.range xs.length).flatMap fun i => (xs[i]?).elim [] fun x => f (x, i) := by
  induction xs using List.reverseRecOn with
  | nil => rfl
  | append_singleton xs x ih =>
    have hfront : (List.range xs.length).flatMap (fun i =>
        ((xs ++ [x])[i]?).elim [] fun x => f (x, i)) =
        (List.range xs.length).flatMap fun i => (xs[i]?).elim [] fun x => f (x, i) := by
      refine List.flatMap_congr fun i hi => ?_
      rw [List.getElem?_append_left (List.mem_range.mp hi)]
    rw [List.zipIdx_append, List.flatMap_append, ih, List.length_append, List.length_singleton,
      List.range_succ, List.flatMap_append, hfront]
    simp

theorem locateStream_eq {s : Session} (hle : s.books.length ≤ 2 ^ 16) (st : Stats) :
    s.books.zipIdx.flatMap (slotBytes st) = locateStream s st := by
  obtain ⟨k, hk⟩ := Nat.exists_eq_add_of_le hle
  have hbook : ∀ i ∈ List.range s.books.length,
      ((s.books[i]?).elim [] fun x => slotBytes st (x, i)) = (match s.book i with
        | none => []
        | some _ => leBytes 2 i ++ (st.locates.getD i .new).closeHash) := by
    intro i hi
    have hlt := List.mem_range.mp hi
    rw [Session.book, List.getElem?_eq_getElem hlt, Option.elim_some, Option.join_some, slotBytes]
    cases s.books[i] with
    | none => rfl
    | some b => simp only [Nat.mod_eq_of_lt (lt_of_lt_of_le hlt hle)]
  have hbeyond : ∀ i, s.books.length ≤ i → s.book i = none := fun i hi => by
    rw [Session.book, List.getElem?_eq_none hi, Option.join_none]
  rw [flatMap_zipIdx, List.flatMap_congr hbook, locateStream, hk, List.range_add,
    List.flatMap_append, List.flatMap_map]
  simp [hbeyond]

/-- The statistics show the books and the log of the session as they are. -/
structure Published (hash : Bytes → Bytes) (s : Session) (st : Stats) : Prop where
  locates : ∀ l b, s.book l = some b → ∃ bytes, b.stateBytes = .ok bytes ∧
    (st.locates.getD l .new).closeHash = hash bytes ∧
    (st.locates.getD l .new).live = b.liveOrders % 2 ^ 32 ∧
    (st.locates.getD l .new).array = b.isArray ∧ (st.locates.getD l .new).window = b.window
  eventCount : st.eventCount = s.log.len
  eventLogHash : st.eventLogHash = hash s.log.stream
  allLocatesHash : st.allLocatesHash = hash (locateStream s st)

/-- A locate without an array book shows no window. -/
def Unwindowed (s : Session) : Prop := ∀ l, (∀ ab, s.book l ≠ some (.array ab)) →
  (s.stats.locates.getD l .new).array = false ∧ (s.stats.locates.getD l .new).window = none

theorem Published.of_books {hash : Bytes → Bytes} {s s' : Session} {st : Stats}
    (h : Published hash s st) (hbook : ∀ l, s'.book l = s.book l) (hlog : s'.log = s.log) :
    Published hash s' st where
  locates l b hb := h.locates l b ((hbook l).symm.trans hb)
  eventCount := by rw [hlog, h.eventCount]
  eventLogHash := by rw [hlog, h.eventLogHash]
  allLocatesHash := by
    rw [h.allLocatesHash]
    simp only [locateStream, hbook]

/-- What `finish` does to a session. -/
structure Finished (hash : Bytes → Bytes) (s s' : Session) : Prop where
  cfg : s'.cfg = s.cfg
  books : s'.books = s.books
  watched : s'.watched = s.watched
  sState : s'.sState = s.sState
  afterQ : s'.afterQ = s.afterQ
  log : s'.log = s.log
  length : s'.stats.locates.length = s.stats.locates.length
  stats : ∃ locates eventLogged eventCount eventLogHash allLocatesHash, s'.stats =
    { s.stats with locates, eventLogged, eventCount, eventLogHash, allLocatesHash }
  unopened : ∀ l, s.book l = none → s'.stats.locates[l]? = s.stats.locates[l]?
  opened : ∀ l b, s.book l = some b → ∃ bytes ls, b.stateBytes = .ok bytes ∧
    s.stats.locates[l]? = some ls ∧ s'.stats.locates[l]? = some (closed hash b bytes ls)
  eventCount : s'.stats.eventCount = s.log.len
  eventLogHash : s'.stats.eventLogHash = hash s.log.stream
  allLocatesHash : s'.stats.allLocatesHash = hash (locateStream s s'.stats)
  finished : s'.finished = true

theorem finished_of_finish {hash : Bytes → Bytes} {s s' : Session} (hle : s.books.length ≤ 2 ^ 16)
    (h : s.finish hash = .ok s') : Finished hash s s' := by
  unfold Session.finish at h
  obtain ⟨⟨st, all⟩, hfold, h⟩ := bind_eq_ok.mp h
  obtain rfl := (Except.ok.inj h).symm
  have hnodup : (s.books.zipIdx.map Prod.snd).Nodup := by
    rw [List.zipIdx_map_snd]
    exact List.nodup_range'
  have hfilled := filled_of_close hnodup hfold
  obtain ⟨locates, hstats⟩ := hfilled.stats
  have hslot : ∀ b i, (some b, i) ∈ s.books.zipIdx ↔ s.book i = some b := by
    intro b i
    rw [List.mem_zipIdx_iff_getElem?, Session.book, Option.join_eq_some_iff]
  have hst : st = { s.stats with locates } := hstats
  have hbytes := hfilled.bytes
  rw [List.nil_append, locateStream_eq hle] at hbytes
  refine ⟨rfl, rfl, rfl, rfl, rfl, rfl, hfilled.length, ⟨_, _, _, _, _, by rw [hst]⟩,
    fun l hl => hfilled.other l fun b hb => ?_,
    fun l b hb => hfilled.slot b l ((hslot b l).mpr hb), rfl, rfl, congrArg hash hbytes, rfl⟩
  rw [(hslot b l).mp hb] at hl
  cases hl

namespace Finished

variable {hash : Bytes → Bytes} {s s' : Session} (h : Finished hash s s')

include h

theorem book (l : ℕ) : s'.book l = s.book l := by
  rw [Session.book, Session.book, h.books]

theorem unwindowed (hs : Unwindowed s) : Unwindowed s' := by
  intro l hl
  simp only [h.book] at hl
  cases hb : s.book l with
  | none =>
    rw [List.getD_eq_getElem?_getD, h.unopened l hb, ← List.getD_eq_getElem?_getD]
    exact hs l hl
  | some b =>
    obtain ⟨bytes, ls, -, hls, hclosed⟩ := h.opened l b hb
    have hold := hs l hl
    rw [List.getD_eq_getElem?_getD, hls, Option.getD_some] at hold
    rw [List.getD_eq_getElem?_getD, hclosed, Option.getD_some]
    cases b with
    | ref r => exact hold
    | array ab => exact absurd hb (hl ab)

theorem published (hs : Unwindowed s) : Published hash s s'.stats where
  locates := by
    intro l b hb
    obtain ⟨bytes, ls, hbytes, hls, hclosed⟩ := h.opened l b hb
    refine ⟨bytes, hbytes, ?_⟩
    have hold := hs l
    rw [List.getD_eq_getElem?_getD, hls, Option.getD_some] at hold
    rw [List.getD_eq_getElem?_getD, hclosed, Option.getD_some]
    cases b with
    | array ab => exact ⟨rfl, rfl, rfl, rfl⟩
    | ref r =>
      obtain ⟨harray, hwindow⟩ := hold fun ab hab => by
        rw [hb] at hab
        cases hab
      exact ⟨rfl, rfl, harray, hwindow⟩
  eventCount := h.eventCount
  eventLogHash := h.eventLogHash
  allLocatesHash := h.allLocatesHash

/-- A closed session follows the replay of the open one, close figures apart. -/
theorem follows {cfg : SessionConfig} {a : Replay} (hs : Follows cfg s a) :
    Follows cfg s' { a with stats := s'.stats.portable } where
  cfg_eq := h.cfg.trans hs.cfg_eq
  valid := hs.valid
  watching := by
    rw [h.watched]
    exact hs.watching
  kinds := by
    simp only [h.book]
    exact hs.kinds
  books_le := by
    rw [h.books]
    exact hs.books_le
  watched_length := by rw [h.watched, h.books, hs.watched_length]
  locates_length := by rw [h.length, h.books, hs.locates_length]
  sized := by
    obtain ⟨locates, logged, count, logHash, allHash, hstats⟩ := h.stats
    rw [hstats]
    exact ⟨hs.sized.byType, hs.sized.byTypeHour, hs.sized.row⟩
  books := by
    simp only [h.book]
    exact hs.books
  logEvents := hs.logEvents
  sState := h.sState.trans hs.sState
  afterQ := h.afterQ.trans hs.afterQ
  log := h.log.trans hs.log
  stats := rfl

end Finished

/-! What messages leave of it. -/

theorem unwindowed_moved {s s' : Session} {m : Msg} {b : Bool} (h : Moved s m b s')
    (hs : Unwindowed s) : Unwindowed s' := by
  intro i hi
  have hold : (∀ ab, (desk s i).book ≠ some (.array ab)) →
      (desk s i).stats.array = false ∧ (desk s i).stats.window = none := hs i
  have hnew : ∀ ab, (desk s' i).book ≠ some (.array ab) := hi
  show (desk s' i).stats.array = false ∧ (desk s' i).stats.window = none
  cases h with
  | idle hl hdone =>
    rw [hdone.desks, desk_noted] at hnew ⊢
    exact hold hnew
  | @worked l b d cs hl hact =>
    by_cases hil : i = l.toNat
    · subst hil
      rw [desk_worked hact] at hnew ⊢
      have hkept := act_kept hact
      rw [hkept.array, hkept.window]
      refine hold fun ab hab => ?_
      obtain ⟨ab', hab'⟩ := array_act hab hact
      exact hnew ab' hab'
    · rw [desk_put_ne _ _ _ _ hil, desk_noted] at hnew ⊢
      exact hold hnew

/-- A message that changes no book and logs nothing: it is no order, or one without a side or
refused while no events are logged, and it opens no book. -/
def Idle (s : Session) (m : Msg) : Prop :=
  match body m with
  | .directory l _ => ∃ b, s.book l.toNat = some b
  | .order l o => ∃ b, s.book l.toNat = some b ∧ (o.op = none ∨
      s.cfg.logEvents = false ∧ ∃ op e b', o.op = some op ∧ b.apply op = .ok (.error e, b'))
  | _ => True

/-- What the close has written. -/
def sealed (st : Stats) : ℕ × Bytes × Bytes := (st.eventCount, st.eventLogHash, st.allLocatesHash)

theorem sealed_countAll (cs : List Count) (st : Stats) : sealed (countAll cs st) = sealed st := by
  induction cs generalizing st with
  | nil => rfl
  | cons c cs ih =>
    refine (ih (c.stats st)).trans ?_
    cases c with
    | rejected e => cases e <;> rfl
    | _ => rfl

theorem sealed_noted (s : Session) (n : Note) : sealed (noted s n).stats = sealed s.stats := by
  unfold noted Stats.noteMessage
  cases n.ts <;> rfl

/-- Nothing that the close looks at or writes has changed. -/
structure Untouched (s s' : Session) : Prop where
  book : ∀ l, s'.book l = s.book l
  log : s'.log = s.log
  live : ∀ l, (desk s' l).stats.live = (desk s l).stats.live
  array : ∀ l, (desk s' l).stats.array = (desk s l).stats.array
  window : ∀ l, (desk s' l).stats.window = (desk s l).stats.window
  closeHash : ∀ l, (desk s' l).stats.closeHash = (desk s l).stats.closeHash
  sealed_eq : sealed s'.stats = sealed s.stats

theorem Untouched.published {hash : Bytes → Bytes} {s s' : Session} (h : Untouched s s')
    (hs : Published hash s s.stats) : Published hash s' s'.stats := by
  obtain ⟨hcount, hrest⟩ := Prod.mk.inj h.sealed_eq
  obtain ⟨hlog, hall⟩ := Prod.mk.inj hrest
  have hhash : ∀ l, (s'.stats.locates.getD l .new).closeHash =
      (s.stats.locates.getD l .new).closeHash := h.closeHash
  refine ⟨fun l b hb => ?_, hcount.trans (hs.eventCount.trans (by rw [h.log])),
    hlog.trans (hs.eventLogHash.trans (by rw [h.log])), hall.trans (hs.allLocatesHash.trans ?_)⟩
  · rw [h.book] at hb
    obtain ⟨bytes, hbytes, hclose, hlive, harray, hwindow⟩ := hs.locates l b hb
    exact ⟨bytes, hbytes, (h.closeHash l).trans hclose, (h.live l).trans hlive,
      (h.array l).trans harray, (h.window l).trans hwindow⟩
  · simp only [locateStream, h.book, hhash]

/-- An idle message on the desk of its locate. -/
theorem idle_act {s : Session} {m : Msg} {l : UInt16} {b : Bool} {d : Desk} {cs : List Count}
    (hidle : Idle s m) (hl : target (body m) = some l)
    (hact : act s.cfg s.afterQ (desk s l.toNat) (body m) = .ok (b, d, cs)) :
    d.book = s.book l.toNat ∧ d.stats.live = (desk s l.toNat).stats.live ∧
      ∀ log, logAll cs log = log := by
  unfold Idle at hidle
  cases hbody : body m with
  | directory l' stock =>
    rw [hbody] at hidle hl hact
    obtain rfl := Option.some.inj hl
    obtain ⟨-, hact⟩ := Prod.mk.inj (Except.ok.inj hact)
    obtain ⟨rfl, rfl⟩ := Prod.mk.inj hact
    obtain ⟨b', hb'⟩ := hidle
    rw [directory_some (d := desk s l'.toNat) hb']
    unfold Desk.watch
    split <;> exact ⟨rfl, rfl, fun _ => rfl⟩
  | action l' state =>
    rw [hbody] at hl hact
    obtain rfl := Option.some.inj hl
    obtain ⟨-, hact⟩ := Prod.mk.inj (Except.ok.inj hact)
    obtain ⟨rfl, rfl⟩ := Prod.mk.inj hact
    exact ⟨rfl, rfl, fun _ => rfl⟩
  | order l' o =>
    rw [hbody] at hidle hl hact
    obtain rfl := Option.some.inj hl
    obtain ⟨b', hb', hkind⟩ := hidle
    have hopen : (desk s l'.toNat).openMissing s.cfg l' = (desk s l'.toNat, []) :=
      openMissing_some hb'
    have hquiet : ∀ log, logAll (Desk.placeholderOf o) log = log := by
      intro log
      cases o with
      | add id side px qty =>
        unfold Desk.placeholderOf
        dsimp only
        split <;> rfl
      | _ => rfl
    cases ordered hact with
    | unsided hop =>
      rw [hopen]
      refine ⟨rfl, rfl, fun log => ?_⟩
      rw [List.nil_append, logAll_append, hquiet]
      rfl
    | @refused op e hop hcall =>
      rw [hopen]
      refine ⟨rfl, rfl, fun log => ?_⟩
      rw [List.nil_append, logAll_append, hquiet]
      rcases hkind with hnone | ⟨hoff, -⟩
      · rw [hnone] at hop
        cases hop
      · simp only [Desk.record, hoff, Bool.false_eq_true, if_false, List.nil_append]
        rfl
    | @accepted op ev d₁ d₂ ahead crossed hop hcall hahead hwindow hcrossed =>
      exfalso
      rw [hopen] at hcall
      obtain ⟨b₁, b₂, hb₁, happly, -⟩ := callBook_eq_ok hcall
      obtain rfl := Option.some.inj (hb'.symm.trans hb₁)
      rcases hkind with hnone | ⟨-, op', e, b₃, hop', hrefused⟩
      · rw [hnone] at hop
        cases hop
      · obtain rfl := Option.some.inj (hop.symm.trans hop')
        rw [happly] at hrefused
        cases (Prod.mk.inj (Except.ok.inj hrefused)).1
  | system code ts =>
    rw [hbody] at hl
    cases hl
  | print l' =>
    rw [hbody] at hl
    cases hl
  | unknown =>
    rw [hbody] at hl
    cases hl

theorem untouched_of_idle {s s' : Session} {m : Msg} {b : Bool} (h : Moved s m b s')
    (hidle : Idle s m) : Untouched s s' := by
  cases h with
  | idle hl hdone =>
    obtain ⟨locates, hstats⟩ := hdone.stats
    have hdesk : ∀ i, desk s' i = desk s i := fun i => (hdone.desks i).trans (desk_noted s _ i)
    refine ⟨fun i => congrArg Desk.book (hdesk i), hdone.log, fun i => by rw [hdesk],
      fun i => by rw [hdesk], fun i => by rw [hdesk], fun i => by rw [hdesk], ?_⟩
    rw [hstats, ← sealed_noted s (note m)]
    cases body m <;> rfl
  | @worked l b d cs hl hact =>
    obtain ⟨hbook, hlive, hlog⟩ := idle_act hidle hl hact
    have hkept := act_kept hact
    have hdesk : ∀ i, i ≠ l.toNat → desk (put (noted s (note m)) l.toNat d 1 cs) i = desk s i :=
      fun i hi => (desk_put_ne _ _ _ _ hi).trans (desk_noted s _ i)
    have hself := desk_worked hact
    have hall : ∀ {β : Type} (f : Desk → β), f d = f (desk s l.toNat) →
        ∀ i, f (desk (put (noted s (note m)) l.toNat d 1 cs) i) = f (desk s i) := by
      intro β f hf i
      by_cases hi : i = l.toNat
      · rw [hi, hself, hf]
      · rw [hdesk i hi]
    exact ⟨hall Desk.book hbook, hlog _, hall (fun d => d.stats.live) hlive,
      hall (fun d => d.stats.array) hkept.array, hall (fun d => d.stats.window) hkept.window,
      hall (fun d => d.stats.closeHash) hkept.closeHash,
      (sealed_countAll cs _).trans (sealed_noted s (note m))⟩

/-! Runs. -/

def IdleCall (s : Session) : Call → Prop
  | .message m => Idle s m
  | .payload p => ∀ m, parse p = .ok m → Idle s m
  | .finish => True

/-- Every call after a `finish` that no other follows is idle. -/
def Settled (hash : Bytes → Bytes) (s : Session) (calls : List Call) : Prop :=
  ∀ pre c post out t, calls = pre ++ c :: post → run (call hash) s pre = .ok (out, t) →
    t.finished = true → .finish ∉ post → IdleCall t c

theorem aligned_of_follows {cfg : SessionConfig} {s : Session} {a : Replay} (h : Follows cfg s a) :
    Aligned s := ⟨h.watched_length, h.locates_length, h.sized⟩

/-- A session on its way. -/
structure Tidy (cfg : SessionConfig) (s : Session) : Prop where
  follows : ∃ a, Follows cfg s a
  unwindowed : Unwindowed s

theorem tidy_new {cfg : SessionConfig} (hcfg : ValidSession cfg) : Tidy cfg (.new cfg) where
  follows := ⟨_, follows_new hcfg⟩
  unwindowed _ _ := ⟨rfl, rfl⟩

section Steps

variable {hash : Bytes → Bytes} {cfg : SessionConfig} {s s' : Session} (h : Tidy cfg s)

include h

theorem tidy_message {m : Msg} {b : Bool} (hrun : s.applyMsg m = .ok (b, s')) :
    Tidy cfg s' ∧ Moved s m b s' := by
  obtain ⟨a, hfollows⟩ := h.follows
  obtain ⟨a', hnext, -⟩ := message_step s a m b s' hfollows hrun
  have hmoved := moved_of_applyMsg (aligned_of_follows hfollows) hrun
  exact ⟨⟨⟨a', hnext⟩, unwindowed_moved hmoved h.unwindowed⟩, hmoved⟩

theorem tidy_finish (hrun : s.finish hash = .ok s') : Tidy cfg s' ∧ Finished hash s s' := by
  obtain ⟨a, hfollows⟩ := h.follows
  have hdone := finished_of_finish hfollows.books_le hrun
  exact ⟨⟨⟨_, hdone.follows hfollows⟩, hdone.unwindowed h.unwindowed⟩, hdone⟩

/-- A call leaves the session closed and published, or nothing published has changed when
the call is idle. -/
theorem tidy_call {c : Call} {u : Unit} (hrun : call hash s c = .ok (u, s')) :
    Tidy cfg s' ∧ (Published hash s' s'.stats ∨
      c ≠ .finish ∧ s'.finished = s.finished ∧ (IdleCall s c → Untouched s s')) := by
  cases c with
  | message m =>
    obtain ⟨⟨b, s₁⟩, hstep, hret⟩ := bind_eq_ok.mp hrun
    obtain ⟨-, rfl⟩ := Prod.mk.inj (Except.ok.inj hret)
    obtain ⟨htidy, hmoved⟩ := tidy_message h hstep
    exact ⟨htidy, Or.inr ⟨by simp, hmoved.finished, untouched_of_idle hmoved⟩⟩
  | payload p =>
    obtain ⟨⟨r, s₁⟩, hstep, hret⟩ := bind_eq_ok.mp hrun
    obtain ⟨-, rfl⟩ := Prod.mk.inj (Except.ok.inj hret)
    unfold Session.applyPayload at hstep
    cases hparse : parse p with
    | error e =>
      simp only [hparse, Except.ok.injEq, Prod.mk.injEq] at hstep
      obtain ⟨-, rfl⟩ := hstep
      have hsame : Untouched s s := ⟨fun _ => rfl, rfl, fun _ => rfl, fun _ => rfl, fun _ => rfl,
        fun _ => rfl, rfl⟩
      exact ⟨h, Or.inr ⟨by simp, rfl, fun _ => hsame⟩⟩
    | ok m =>
      simp only [hparse] at hstep
      obtain ⟨⟨b, s₂⟩, hmessage, hret⟩ := bind_eq_ok.mp hstep
      obtain ⟨-, rfl⟩ := Prod.mk.inj (Except.ok.inj hret)
      obtain ⟨htidy, hmoved⟩ := tidy_message h hmessage
      exact ⟨htidy, Or.inr ⟨by simp, hmoved.finished,
        fun hidle => untouched_of_idle hmoved (hidle m hparse)⟩⟩
  | finish =>
    obtain ⟨s₁, hstep, hret⟩ := bind_eq_ok.mp hrun
    obtain ⟨-, rfl⟩ := Prod.mk.inj (Except.ok.inj hret)
    obtain ⟨htidy, hdone⟩ := tidy_finish h hstep
    exact ⟨htidy, Or.inl ((hdone.published h.unwindowed).of_books hdone.book hdone.log)⟩

end Steps

theorem tidy_run {hash : Bytes → Bytes} {cfg : SessionConfig} {s t : Session} {calls : List Call}
    {out : List Unit} (h : Tidy cfg s) (hrun : run (call hash) s calls = .ok (out, t)) :
    Tidy cfg t :=
  run_invariant (fun _ _ _ _ h hstep => (tidy_call h hstep).1) h hrun

/-- After settled calls a closed session shows itself as it is. -/
theorem run_published {hash : Bytes → Bytes} {cfg : SessionConfig} {s t : Session}
    {calls : List Call} {out : List Unit} (h : Tidy cfg s)
    (hstart : s.finished = true → .finish ∉ calls → Published hash s s.stats)
    (hsettled : Settled hash s calls) (hrun : run (call hash) s calls = .ok (out, t)) :
    Tidy cfg t ∧ (t.finished = true → Published hash t t.stats) := by
  induction calls generalizing s out with
  | nil =>
    obtain ⟨-, rfl⟩ := Prod.mk.inj (Except.ok.inj hrun)
    exact ⟨h, fun hfin => hstart hfin (by simp)⟩
  | cons c calls ih =>
    obtain ⟨u, us, s₁, hstep, hrest, -⟩ := run_cons_eq_ok.mp hrun
    obtain ⟨h₁, hcall⟩ := tidy_call h hstep
    have hnext : s₁.finished = true → .finish ∉ calls → Published hash s₁ s₁.stats := by
      intro hfin hlast
      rcases hcall with hdone | ⟨hne, hsame, hidle⟩
      · exact hdone
      · have hfin₀ := hsame.symm.trans hfin
        have hcalls : .finish ∉ c :: calls := fun hmem =>
          (List.mem_cons.mp hmem).elim (fun heq => hne heq.symm) hlast
        exact (hidle (hsettled [] c calls [] s rfl rfl hfin₀ hlast)).published
          (hstart hfin₀ hcalls)
    have hsettled₁ : Settled hash s₁ calls := fun pre c' post out' t' hpre hrun' =>
      hsettled (c :: pre) c' post (u :: out') t' (by rw [hpre, List.cons_append])
        (run_cons_ok hstep hrun')
    exact ih h₁ hnext hsettled₁ hrest

/-- What a session with `array_window` in `1..=4096` (`ValidSession`) publishes is its state at that
moment, unless a call that is not idle comes after the last `finish`. -/
theorem settled_close_state {hash : Bytes → Bytes} {cfg : SessionConfig} (hcfg : ValidSession cfg)
    {calls : List Call} {out : List Unit} {s : Session} (hsettled : Settled hash (.new cfg) calls)
    (hrun : run (call hash) (.new cfg) calls = .ok (out, s)) :
    ∃ st, intoStats hash s = .ok st ∧ Published hash s st := by
  have hopen : (Session.new cfg).finished = true → .finish ∉ calls →
      Published hash (.new cfg) (Session.new cfg).stats := fun hfin => by cases hfin
  obtain ⟨htidy, hclosed⟩ := run_published (tidy_new hcfg) hopen hsettled hrun
  unfold intoStats
  cases hfin : s.finished with
  | true => exact ⟨s.stats, rfl, hclosed hfin⟩
  | false =>
    obtain ⟨a, hfollows⟩ := htidy.follows
    obtain ⟨s', hs'⟩ := finish_ok hfollows hash
    refine ⟨s'.stats, ?_, (tidy_finish htidy hs').2.published htidy.unwindowed⟩
    simp only [Bool.false_eq_true, if_false, hs', ok_bind, pure_eq_ok]

theorem settled_close_state_idle : ∃ out s st,
    run (call fun b => b) (.new (watchEvery 64)) [.message firstMsg, .finish, .payload []] =
        .ok (out, s) ∧
      intoStats (fun b => b) s = .ok st ∧ Published (fun b => b) s st := by
  have hsettled : Settled (fun b => b) (.new (watchEvery 64))
      [.message firstMsg, .finish, .payload []] := by
    intro pre c post out t hcalls hrun hfin hlast
    rcases pre with _ | ⟨c₀, _ | ⟨c₁, pre⟩⟩
    · obtain ⟨-, rfl⟩ := List.cons.inj hcalls
      exact absurd (List.mem_cons_self ..) hlast
    · obtain ⟨rfl, -⟩ := List.cons.inj (List.cons.inj hcalls).2
      exact trivial
    · have hrest := (List.cons.inj (List.cons.inj hcalls).2).2
      have hc : c = .payload [] := by
        have hmem : c ∈ [Call.payload []] := by
          rw [hrest]
          exact List.mem_append_right _ (List.mem_cons_self ..)
        exact List.mem_singleton.mp hmem
      rw [hc]
      intro m hparse
      cases hparse
  obtain ⟨⟨out, s⟩, hrun⟩ := ok_of_not_panics (x := run (call fun b => b) (.new (watchEvery 64))
    [.message firstMsg, .finish, .payload []]) (by decide +kernel)
  obtain ⟨st, hinto, hpublished⟩ := settled_close_state (watchEvery_valid 64) hsettled hrun
  exact ⟨out, s, st, hrun, hinto, hpublished⟩

/-- A closed session without messages. -/
def closedNew (hash : Bytes → Bytes) (cfg : SessionConfig) : Session :=
  { Session.new cfg with
    stats := { Stats.new cfg.source cfg.arrayWindow with
      allLocatesHash := hash []
      eventLogged := cfg.logEvents
      eventLogHash := hash EventLog.new.stream }
    finished := true }

/-- An order that comes after `finish` is not in the figures handed out. -/
theorem stale_close_state : ValidSession (watchEvery 64) ∧ ∀ hash : Bytes → Bytes, ∃ out s st,
    run (call hash) (.new (watchEvery 64)) [.finish, .message firstMsg] = .ok (out, s) ∧
      intoStats hash s = .ok st ∧ s.log.len = 1 ∧ st.eventCount = 0 ∧ ¬ Published hash s st := by
  refine ⟨watchEvery_valid 64, fun hash => ?_⟩
  have hlogged : (act (watchEvery 64) false .new (body firstMsg)).map
      (fun p => (logAll p.2.2 .new).len) = .ok 1 := by decide +kernel
  have htarget : target (body firstMsg) = some 1 := by decide +kernel
  have hfinish : call hash (.new (watchEvery 64)) .finish =
      .ok ((), closedNew hash (watchEvery 64)) := rfl
  have hsized := Stats.sized_new "day" 4
  have haligned : Aligned (closedNew hash (watchEvery 64)) :=
    ⟨rfl, rfl, ⟨hsized.byType, hsized.byTypeHour, hsized.row⟩⟩
  rcases hact : act (watchEvery 64) false .new (body firstMsg) with e | ⟨b, d, cs⟩
  · rw [hact] at hlogged
    cases hlogged
  · rw [hact] at hlogged
    have hlen : (logAll cs .new).len = 1 := Except.ok.inj hlogged
    have hmessage := applyMsg_of_act haligned htarget hact
    obtain ⟨s, hs⟩ : ∃ s,
        s = put (noted (closedNew hash (watchEvery 64)) (note firstMsg)) 1 d 1 cs :=
      ⟨_, rfl⟩
    have hlog : s.log.len = 1 := hs ▸ hlen
    have hcount : s.stats.eventCount = 0 := by
      rw [hs]
      exact congrArg Prod.fst ((sealed_countAll cs _).trans (sealed_noted _ (note firstMsg)))
    have hcall : call hash (closedNew hash (watchEvery 64)) (.message firstMsg) = .ok ((), s) := by
      rw [hs]
      simp only [call, hmessage, ok_bind, pure_eq_ok]
      rfl
    have hinto : intoStats hash s = .ok s.stats := by
      rw [hs]
      rfl
    refine ⟨_, s, s.stats, run_cons_ok hfinish (run_cons_ok hcall (run_nil _ _)),
      hinto, hlog, hcount, fun hpublished => ?_⟩
    have hsame := hpublished.eventCount
    rw [hcount, hlog] at hsame
    exact absurd hsame (by decide)

end Lobcore.Closings
