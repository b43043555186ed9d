import Lobcore.Ledgers
import Mathlib.Algebra.Order.BigOperators.Group.Finset

/-!
Session accounting. A session never recounts its live orders: it moves two counters by the
step of each event it logs. Over every run the counters stand for the books, their
high-water marks for the largest values so far, and the answers, the error counters and the
log for the order messages.
-/
namespace Lobcore.SessionAccounts

open Checked OrderTypes Markets Payloads SessionStats Sessions Migrations Replays
open SessionRefines SessionSteps SessionRuns Writers Ledgers

/-! Whole runs. -/

theorem applyAll_snoc (a : Replay) (ns : List Note) (n : Note) :
    a.applyAll (ns ++ [n]) =
      ((a.applyAll ns).1 ++ [((a.applyAll ns).2.apply n).1], ((a.applyAll ns).2.apply n).2) := by
  induction ns generalizing a with
  | nil => rfl
  | cons n' ns ih => simp [Replay.applyAll, ih]

/-- A message of type `A`, `F`, `E`, `C`, `X`, `D` or `U`. -/
def isOrder : Msg → Bool
  | .add _ => true
  | .addMpid _ => true
  | .exec _ => true
  | .execPx _ => true
  | .cancel _ => true
  | .delete _ => true
  | .replace _ => true
  | _ => false

theorem effect_isOrder (a : Replay) (m : Msg) : (effect a (body m)).isOrder = isOrder m := by
  have horder : ∀ l o, (effect a (.order l o)).isOrder = true := by
    intro l o
    cases ho : o.op with
    | none => rw [effect_none ho]; rfl
    | some op => rw [effect_some ho]; rfl
  cases m with
  | add m => exact horder _ _
  | addMpid m => exact horder _ _
  | exec m => exact horder _ _
  | execPx m => exact horder _ _
  | cancel m => exact horder _ _
  | delete m => exact horder _ _
  | replace m => exact horder _ _
  | _ => rfl

/-- The values of a counter over the prefixes of a run. -/
def marks (cfg : SessionConfig) (f : Session → ℕ) (ms : List Msg) : Set ℕ :=
  {n | ∃ pre out t, pre <+: ms ∧ run Session.applyMsg (.new cfg) pre = .ok (out, t) ∧ f t = n}

/-- The live count that a session keeps for a locate. -/
def localLive (l : ℕ) (s : Session) : ℕ := s.stats.locates[l]?.elim 0 LocateStats.live

theorem localLive_eq (l : ℕ) (s : Session) : localLive l s = ((ledger s.stats).locate l).1 := by
  show _ = (s.stats.locates[l]?.elim (0, 0) fun ls => (ls.live, ls.liveHwm)).1
  unfold localLive
  cases s.stats.locates[l]? <;> rfl

theorem marks_nil (cfg : SessionConfig) (f : Session → ℕ) : marks cfg f [] = {f (.new cfg)} := by
  ext n
  constructor
  · rintro ⟨pre, out, t, hpre, hrun, rfl⟩
    obtain rfl := List.prefix_nil.mp hpre
    obtain ⟨-, rfl⟩ := Prod.mk.inj (Except.ok.inj hrun)
    rfl
  · rintro rfl
    exact ⟨[], [], .new cfg, List.nil_prefix, rfl, rfl⟩

theorem marks_snoc {cfg : SessionConfig} (f : Session → ℕ) {ms : List Msg} {m : Msg}
    {out : List Bool} {s : Session}
    (hrun : run Session.applyMsg (.new cfg) (ms ++ [m]) = .ok (out, s)) :
    marks cfg f (ms ++ [m]) = insert (f s) (marks cfg f ms) := by
  ext n
  constructor
  · rintro ⟨pre, out', t, hpre, hrun', rfl⟩
    rcases List.prefix_concat_iff.mp hpre with rfl | hpre
    · obtain ⟨-, rfl⟩ := Prod.mk.inj (Except.ok.inj (hrun.symm.trans hrun'))
      exact Or.inl rfl
    · exact Or.inr ⟨pre, out', t, hpre, hrun', rfl⟩
  · rintro (rfl | ⟨pre, out', t, hpre, hrun', rfl⟩)
    · exact ⟨_, out, s, List.prefix_refl _, hrun, rfl⟩
    · exact ⟨pre, out', t, hpre.trans (List.prefix_append ..), hrun', rfl⟩

theorem run_snoc {cfg : SessionConfig} {ms : List Msg} {m : Msg} {out : List Bool} {s : Session}
    (hrun : run Session.applyMsg (.new cfg) (ms ++ [m]) = .ok (out, s)) :
    ∃ out' t b, run Session.applyMsg (.new cfg) ms = .ok (out', t) ∧
      t.applyMsg m = .ok (b, s) ∧ out = out' ++ [b] := by
  rw [run_append] at hrun
  obtain ⟨⟨out', t⟩, hfirst, hrest⟩ := bind_eq_ok.mp hrun
  obtain ⟨⟨qs, u⟩, hlast, hout⟩ := bind_eq_ok.mp hrest
  obtain ⟨b, rs, v, hstep, hnil, rfl⟩ := run_cons_eq_ok.mp hlast
  obtain ⟨rfl, rfl⟩ := Prod.mk.inj (Except.ok.inj hnil)
  obtain ⟨rfl, rfl⟩ := Prod.mk.inj (Except.ok.inj hout)
  exact ⟨out', t, b, hfirst, hstep, rfl⟩

section Following

variable {cfg : SessionConfig} {s : Session} {a : Replay} (h : Follows cfg s a)

include h

theorem seen_of_follows : Seen a := by
  intro l hl
  obtain ⟨m, hm⟩ := Option.isSome_iff_exists.mp hl
  obtain ⟨-, -, -, -, hlt⟩ := h.book_some hm
  rw [← h.stats, Stats.portable, List.length_map, h.locates_length]
  exact hlt

theorem wf_of_follows (l : ℕ) (m : Market) (hm : a.market l = some m) : m.WF := by
  obtain ⟨_, -, hrefines, -, -⟩ := h.book_some hm
  exact hrefines.wf

theorem ledger_of_follows : ledger s.stats = ledger a.stats := by
  have hport : ledger s.stats.portable = ledger s.stats := by
    have hlocate : (ledger s.stats.portable).locate = (ledger s.stats).locate := by
      funext l
      simp only [ledger, Stats.portable, List.getElem?_map]
      cases s.stats.locates[l]? <;> rfl
    exact congrArg (fun g => { ledger s.stats with locate := g }) hlocate
  rw [← hport, h.stats]

end Following

/-- Every book has fewer orders than a counter of a locate can hold. -/
def Countable (s : Session) : Prop := ∀ l b, s.book l = some b → b.liveOrders < 2 ^ 32

/-- The accounts of a session after a run. -/
structure Accounts (cfg : SessionConfig) (ms : List Msg) (out : List Bool) (s : Session) :
    Prop where
  locate_live : ∀ l b, s.book l = some b → ∃ ls, s.stats.locates[l]? = some ls ∧
    ls.live = b.liveOrders
  live : s.stats.live = (s.books.map fun b => b.elim 0 LocateBook.liveOrders).sum
  liveHwm : IsGreatest (marks cfg (fun t => t.stats.live) ms) s.stats.liveHwm
  locate_liveHwm : ∀ l ls, s.stats.locates[l]? = some ls →
    IsGreatest (marks cfg (localLive l) ms) ls.liveHwm
  orders : (ms.filter isOrder).length = out.count true + rejects s.stats
  logged : s.log.len + s.stats.badSide = (ms.filter isOrder).length

/-- The accounts as far as they hold whatever the width of a counter. -/
structure Running (cfg : SessionConfig) (ms : List Msg) (out : List Bool) (s : Session)
    (a : Replay) : Prop where
  follows : Follows cfg s a
  balanced : Balanced a
  liveHwm : IsGreatest (marks cfg (fun t => t.stats.live) ms) s.stats.liveHwm
  locate_liveHwm : ∀ l, IsGreatest (marks cfg (localLive l) ms) ((ledger s.stats).locate l).2
  orders : (ms.filter isOrder).length = out.count true + rejects s.stats
  logged : s.log.len + s.stats.badSide = (ms.filter isOrder).length

/-- One order more: accepted or counted as a reject, and logged unless it has no side. -/
theorem post_counts (g : Ledger) (e : Effect) :
    (g.post e).rejects + (if e.accepts then 1 else 0) = g.rejects + (if e.isOrder then 1 else 0) ∧
      (match e with
        | .reply _ _ => 1
        | _ => 0) + (g.post e).badSide = g.badSide + if e.isOrder then 1 else 0 := by
  rcases e with _ | _ | ⟨l, e | ev⟩
  · exact ⟨rfl, Nat.zero_add _⟩
  · exact ⟨rfl, Nat.zero_add _⟩
  · exact ⟨rfl, Nat.add_comm ..⟩
  · exact ⟨rfl, Nat.add_comm ..⟩

theorem running {cfg : SessionConfig} (hcfg : ValidSession cfg) (hlog : cfg.logEvents = true)
    {ms : List Msg} {out : List Bool} {s : Session}
    (hrun : run Session.applyMsg (.new cfg) ms = .ok (out, s)) :
    Running cfg ms out s ((Replay.new cfg.logEvents cfg.source).applyAll (ms.map note)).2 := by
  induction ms using List.reverseRecOn generalizing out s with
  | nil =>
    obtain ⟨rfl, rfl⟩ := Prod.mk.inj (Except.ok.inj hrun)
    refine ⟨follows_new hcfg, balanced_new _ _, ?_, fun l => ?_, rfl, rfl⟩
    · rw [marks_nil]
      exact isGreatest_singleton
    · rw [marks_nil]
      exact isGreatest_singleton
  | append_singleton ms m ih =>
    obtain ⟨out', t, b, hfirst, hstep, rfl⟩ := run_snoc hrun
    obtain ⟨hfollow, hbal, hhwm, hlocal, horders, hlogged⟩ := ih hfirst
    obtain ⟨hout, hnext⟩ := follows_of_run hcfg hrun
    have hout' := (follows_of_run hcfg hfirst).1
    rw [List.map_append, List.map_singleton, applyAll_snoc] at hout hnext ⊢
    generalize ((Replay.new cfg.logEvents cfg.source).applyAll (ms.map note)).2 = a at *
    have hb : b = (effect a (body m)).accepts := by
      have hlast := congrArg List.getLast? hout
      simpa [apply_accepts, note] using hlast
    have hseen := seen_of_follows hfollow
    have hledger : ledger s.stats = (ledger t.stats).post (effect a (body m)) := by
      rw [ledger_of_follows hnext, ledger_of_follows hfollow]
      exact ledger_apply a hseen hbal.within (note m)
    have hmarks := (hbal.within.post (effect a (body m))).2
    have hcounts := post_counts (ledger t.stats) (effect a (body m))
    rw [← ledger_of_follows hfollow, ← hledger] at hmarks
    rw [← hledger, ← hb, effect_isOrder] at hcounts
    have hlen : s.log.len = t.log.len + match effect a (body m) with
        | .reply _ _ => 1
        | _ => 0 := by
      have hjournal := congrArg (fun j => j.2.len)
        (journal_apply (hfollow.logEvents.symm.trans hlog) (note m))
      rw [hnext.log, hfollow.log]
      refine Eq.trans hjournal ?_
      show EventLog.len (match effect a (body m) with
        | .reply _ r => a.log.push (loggedEvent r)
        | _ => a.log) = _
      cases effect a (body m) <;> rfl
    have hfilter : ((ms ++ [m]).filter isOrder).length =
        (ms.filter isOrder).length + if isOrder m then 1 else 0 := by
      rw [List.filter_append, List.length_append, List.filter_singleton]
      cases isOrder m <;> rfl
    have hcount : (out' ++ [b]).count true = out'.count true + if b then 1 else 0 := by
      rw [List.count_append, List.count_singleton]
      cases b <;> rfl
    refine ⟨hnext, hbal.apply hseen (wf_of_follows hfollow) (note m), ?_, fun l => ?_, ?_, ?_⟩
    · have hmax : s.stats.liveHwm = max s.stats.live t.stats.liveHwm :=
        hmarks.1.trans (max_comm ..)
      rw [marks_snoc _ hrun, hmax]
      exact hhwm.insert _
    · rw [marks_snoc _ hrun, hmarks.2 l, max_comm, ← localLive_eq]
      exact (hlocal l).insert _
    · have hrejects : rejects s.stats + (if b then 1 else 0) =
        rejects t.stats + if isOrder m then 1 else 0 := hcounts.1
      rw [hfilter, hcount, horders]
      omega
    · have hbad : _ + s.stats.badSide = t.stats.badSide + if isOrder m then 1 else 0 := hcounts.2
      rw [hlen, hfilter, ← hlogged]
      omega

theorem sum_books (books : List (Option LocateBook)) :
    ∑ l ∈ Finset.range books.length, (books[l]?.join).elim 0 LocateBook.liveOrders =
      (books.map fun b => b.elim 0 LocateBook.liveOrders).sum := by
  induction books using List.reverseRecOn with
  | nil => rfl
  | append_singleton books b ih =>
    rw [List.length_append, List.length_singleton, Finset.sum_range_succ, List.map_append,
      List.sum_append, ← ih]
    refine congrArg₂ (· + ·) (Finset.sum_congr rfl fun l hl => ?_) ?_
    · rw [List.getElem?_append_left (Finset.mem_range.mp hl)]
    · simp

/-- Session accounting: after every message the live counts are those of the books, the
marks their largest values so far, and every order message is accepted, or counted as a
reject, and logged unless its side is unknown. -/
theorem session_accounts {cfg : SessionConfig} (hcfg : ValidSession cfg)
    (hlog : cfg.logEvents = true) {ms : List Msg} {out : List Bool} {s : Session}
    (hrun : run Session.applyMsg (.new cfg) ms = .ok (out, s)) (hbound : Countable s) :
    Accounts cfg ms out s := by
  obtain ⟨hfollow, hbal, hhwm, hlocal, horders, hlogged⟩ := running hcfg hlog hrun
  generalize ((Replay.new cfg.logEvents cfg.source).applyAll (ms.map note)).2 = a at *
  have hledger := ledger_of_follows hfollow
  have hlive := liveAt_of_follows hfollow
  have hlt : ∀ l, liveAt a l < 2 ^ 32 := by
    intro l
    rw [hlive]
    cases hb : s.book l with
    | none => decide
    | some b => exact hbound l b hb
  refine ⟨fun l b hb => ?_, ?_, hhwm, fun l ls hls => ?_, horders, hlogged⟩
  · have hget : s.books[l]? = some (some b) := Option.join_eq_some_iff.mp hb
    have hl : l < s.stats.locates.length := by
      rw [hfollow.locates_length]
      exact (List.getElem?_eq_some_iff.mp hget).1
    have hlocate := hbal.locate l
    rw [← hledger, Nat.mod_eq_of_lt (hlt l), hlive, hb, Option.elim_some] at hlocate
    simp only [ledger, List.getElem?_eq_getElem hl, Option.elim_some] at hlocate
    exact ⟨_, List.getElem?_eq_getElem hl, hlocate⟩
  · have hnone : ∀ l, s.books.length ≤ l → a.market l = none := by
      intro l hl
      cases hm : a.market l with
      | none => rfl
      | some m =>
        obtain ⟨-, -, -, -, hlt⟩ := hfollow.book_some hm
        omega
    have hle : ∑ l ∈ Finset.range s.books.length, liveAt a l ≤ s.books.length * 2 ^ 32 := by
      have hcard := Finset.sum_le_card_nsmul (Finset.range s.books.length) (liveAt a) (2 ^ 32)
        fun l _ => (hlt l).le
      rwa [Finset.card_range, nsmul_eq_mul, Nat.cast_id] at hcard
    have hbooks := hfollow.books_le
    have htotal := hbal.total s.books.length hnone
    rw [Nat.mod_eq_of_lt (by omega), Finset.sum_congr rfl fun l _ => hlive l] at htotal
    rw [← sum_books]
    exact (congrArg Ledger.live hledger).trans htotal
  · have hmark := hlocal l
    simp only [ledger, hls] at hmark
    exact hmark

theorem session_accounts_first : ∃ out s,
    run Session.applyMsg (.new (watchEvery 64)) [firstMsg, firstMsg] = .ok (out, s) ∧
      Accounts (watchEvery 64) [firstMsg, firstMsg] out s := by
  obtain ⟨⟨out, s⟩, hrun⟩ := ok_of_not_panics
    (x := run Session.applyMsg (.new (watchEvery 64)) [firstMsg, firstMsg]) (by decide +kernel)
  have hroom : Along Session.applyMsg Roomy (.new (watchEvery 64)) [firstMsg, firstMsg] :=
    along_of_few message_step (follows_new (watchEvery_valid 64))
      (fun l => (liveAt_new _ _ l).le) (by decide)
  have hcount : Countable s := fun l b hb =>
    lt_of_lt_of_le (hroom _ _ s (List.prefix_refl _) hrun l b hb) (by decide)
  exact ⟨out, s, hrun, session_accounts (watchEvery_valid 64) rfl hrun hcount⟩

/-! More orders than a counter of a locate can hold. -/

/-- The first `2 ^ 31` orders stand at one price and the others at the next, so that no level
total passes 32 bits. -/
def fillPx (i : ℕ) : UInt32 := if i < 2 ^ 31 then 1 else 2

def fillMsg (i : ℕ) : Msg := addMsg ⟨0, 0, 0⟩ (.ofNat i) 66 1 blank (fillPx i)

/-- Buy orders of one share with the ids below `n`. -/
def fill (n : ℕ) : List Msg := (List.range n).map fillMsg

/-- The orders with the ids below `n` rest. -/
structure Filled (n : ℕ) (m : Market) : Prop where
  home : ∀ id, (m.home id).isSome ↔ id.toNat < n
  first : total (m.queue .bid 1) = min n (2 ^ 31)
  second : total (m.queue .bid 2) = n - 2 ^ 31
  live : m.live = n

theorem Filled.add {n : ℕ} {m : Market} (h : Filled n m) (hn : n < 2 ^ 32) :
    Filled (n + 1) (m.apply (.add (.ofNat n) .bid (fillPx n).toInt32 1)).2 := by
  have hid : (UInt64.ofNat n).toNat = n := UInt64.toNat_ofNat_of_lt' (lt_of_lt_of_le hn (by decide))
  have hfree : m.home (.ofNat n) = none := by
    rw [← Option.not_isSome_iff_eq_none, h.home, hid]
    omega
  obtain ⟨px, hpx, hplace⟩ : ∃ px : ℤ, (fillPx n).toInt32.toInt = px ∧
      ((px = 1 ∧ n < 2 ^ 31) ∨ (px = 2 ∧ 2 ^ 31 ≤ n)) := by
    by_cases hlt : n < 2 ^ 31
    · exact ⟨1, by rw [fillPx, if_pos hlt]; decide, Or.inl ⟨rfl, hlt⟩⟩
    · exact ⟨2, by rw [fillPx, if_neg hlt]; decide, Or.inr ⟨rfl, not_lt.mp hlt⟩⟩
  have hroom : ¬ 2 ^ 32 ≤ total (m.queue .bid px) + 1 := by
    rcases hplace with ⟨rfl, hlt⟩ | ⟨rfl, hge⟩
    · rw [h.first]
      omega
    · rw [h.second]
      omega
  have hpos : ¬ px ≤ 0 := by omega
  have hnext : (m.apply (.add (.ofNat n) .bid (fillPx n).toInt32 1)).2 =
      m.push (.ofNat n) .bid px 1 := by
    rw [Market.apply, hpx, Market.add, if_neg (by decide), if_neg hpos,
      if_neg (show ¬ 2 ^ 32 ≤ total (m.queue .bid px) + (1 : UInt32).toNat from hroom),
      if_neg (by rw [hfree]; decide)]
    rfl
  rw [hnext]
  refine ⟨fun id => ?_, ?_, ?_, by rw [Market.live_push hfree, h.live]⟩
  · have hsame : id = .ofNat n ↔ id.toNat = n := by
      rw [← UInt64.toNat_inj, hid]
    by_cases heq : id = .ofNat n
    · simp [Market.push, heq, hid]
    · have hne : id.toNat ≠ n := fun hx => heq (hsame.mpr hx)
      simp only [Market.push, Function.update_of_ne heq, h.home]
      omega
  · rcases hplace with ⟨rfl, hlt⟩ | ⟨rfl, hge⟩
    · simp only [Market.push, Market.setQueue_self, total_append, total_cons, total_nil, h.first]
      omega
    · have hkeep : (m.push (.ofNat n) .bid 2 1).queue .bid 1 = m.queue .bid 1 := by
        simp [Market.push, Market.setQueue]
      rw [hkeep, h.first]
      omega
  · rcases hplace with ⟨rfl, hlt⟩ | ⟨rfl, hge⟩
    · have hkeep : (m.push (.ofNat n) .bid 1 1).queue .bid 2 = m.queue .bid 2 := by
        simp [Market.push, Market.setQueue]
      rw [hkeep, h.second]
      omega
    · simp only [Market.push, Market.setQueue_self, total_append, total_cons, total_nil, h.second]
      omega

theorem filled_fill (logEvents : Bool) (source : String) {n : ℕ} (hn : n ≤ 2 ^ 32) :
    Filled n (((Replay.new logEvents source).applyAll ((fill n).map note)).2.marketOf 0) := by
  induction n with
  | zero =>
    have hempty : ((Replay.new logEvents source).applyAll ((fill 0).map note)).2.marketOf 0 =
        .empty := rfl
    rw [hempty]
    exact ⟨fun id => by simp [Market.empty], by simp [Market.empty], by simp [Market.empty],
      Market.live_empty⟩
  | succ n ih =>
    have hnext := (ih (Nat.le_of_succ_le hn)).add hn
    have hfill : (fill (n + 1)).map note = (fill n).map note ++
        [⟨65, some 0, .order 0 (.add (.ofNat n) (some .bid) (fillPx n) 1)⟩] := by
      have hnote := note_addMsg ⟨0, 0, 0⟩ (by decide) (.ofNat n) 66 1 blank (fillPx n)
      rw [fill, List.range_succ, List.map_append, List.map_append]
      exact congrArg (fun x => (fill n).map note ++ [x]) hnote
    rw [hfill, applyAll_snoc]
    generalize ((Replay.new logEvents source).applyAll ((fill n).map note)).2 = a at hnext
    have hmarket := Replay.market_order (a.withStats (·.noteMessage 65 (some 0))) 0
      (.add (.ofNat n) (some .bid) (fillPx n) 1)
    have hkey := congrFun hmarket (0 : UInt16).toNat
    rw [Function.update_self] at hkey
    exact (congrArg (fun x => Filled (n + 1) (Option.getD x .empty)) hkey).mpr hnext

/-- No stock on the watch. -/
def watchNone : SessionConfig := ⟨⟨[], [], false⟩, 4, 0, "day", true⟩

theorem watchNone_valid : ValidSession watchNone where
  window_pos := (by decide : 1 ≤ 4)
  window_le := (by decide : 4 ≤ 4096)

theorem not_watching_watchNone : ¬ Watching watchNone := by
  rintro ⟨l, symbol, hmatch⟩
  cases symbol <;> simp [watchNone, Watchlist.matchesLocate] at hmatch

/-- With `n` orders on a locate its counter holds `n` in 32 bits. -/
theorem live_fill {n : ℕ} (hpos : 0 < n) (hn : n ≤ 2 ^ 32) :
    ∃ out s b ls, run Session.applyMsg (.new watchNone) (fill n) = .ok (out, s) ∧
      s.book 0 = some b ∧ b.liveOrders = n ∧ s.stats.locates[0]? = some ls ∧
      ls.live = n % 2 ^ 32 := by
  obtain ⟨⟨out, s⟩, hrun, -⟩ := (run_answers (Q := True) (follows_new watchNone_valid)
    (fun _ hw => absurd hw not_watching_watchNone)
    fun _ hw => absurd hw not_watching_watchNone).ok_of trivial
  obtain ⟨hfollow, hbal, -, -, -, -⟩ := running watchNone_valid rfl hrun
  have hlive := (filled_fill watchNone.logEvents watchNone.source hn).live
  generalize ((Replay.new watchNone.logEvents watchNone.source).applyAll ((fill n).map note)).2 =
    a at *
  have hbook := liveAt_of_follows hfollow 0
  have hlocate := hbal.locate 0
  rw [← ledger_of_follows hfollow] at hlocate
  replace hlive : liveAt a 0 = n := hlive
  rw [hlive] at hbook hlocate
  cases hb : s.book 0 with
  | none =>
    rw [hb, Option.elim_none] at hbook
    omega
  | some b =>
    rw [hb, Option.elim_some] at hbook
    have hget : s.books[0]? = some (some b) := Option.join_eq_some_iff.mp hb
    have hlt : 0 < s.stats.locates.length := by
      rw [hfollow.locates_length]
      exact (List.getElem?_eq_some_iff.mp hget).1
    simp only [ledger, List.getElem?_eq_getElem hlt, Option.elim_some] at hlocate
    exact ⟨out, s, b, _, hrun, hb, hbook.symm, List.getElem?_eq_getElem hlt, hlocate⟩

/-- After `2 ^ 32` orders the counter of their locate is back at zero. -/
theorem live_count_wraps : ValidSession watchNone ∧ watchNone.logEvents = true ∧
    ∃ out s b ls, run Session.applyMsg (.new watchNone) (fill (2 ^ 32)) = .ok (out, s) ∧
      s.book 0 = some b ∧ b.liveOrders = 2 ^ 32 ∧ s.stats.locates[0]? = some ls ∧ ls.live = 0 := by
  obtain ⟨out, s, b, ls, hrun, hb, hlive, hls, hcount⟩ := live_fill (by decide) (le_refl (2 ^ 32))
  exact ⟨watchNone_valid, rfl, out, s, b, ls, hrun, hb, hlive, hls, hcount⟩

end Lobcore.SessionAccounts
