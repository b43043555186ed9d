import Lobcore.DayTruths
import Lobcore.MemberReads
import Lobcore.SessionReplays

/-!
Files of a generated day, replayed. A reader may hand out any initial part of the bytes of the
day, in any pieces; the replay frames as many messages as are complete, applies every one of them
and closes the session, and the book of each locate then shows the last row that the truth has
for it among the rows of these messages. A gzip file of the day is such a reader.
-/
namespace Lobcore.DayFiles

open Checked OrderTypes Markets Payloads Readers Framing Drives ArrayBooks SessionStats Sessions
open Migrations Replays SessionRefines SessionSteps SessionRuns Writers RoundTrips
open Generators GeneratorDraws GeneratorMessages GeneratorPaths GeneratorRuns
open GeneratedDays DayEvents
open DayMarkets DayShapes UncrossedDays
open DayReplays DayTruths SessionReplays GzipMembers GzipInputs Interruptions MemberReads
open Closings (Finished finished_of_finish closed)
open SliceCuts (framed)

/-! Frames of an initial part. -/

theorem unframe_front {calls : List Call} {data : Bytes}
    (h : data <+: (calls.map Call.framed).flatten) :
    (unframe data).1 = (calls.take (unframe data).1.length).map Call.payload := by
  induction calls generalizing data with
  | nil =>
    obtain rfl := List.prefix_nil.mp h
    rw [unframe_none rfl]
    rfl
  | cons c calls ih =>
    rw [List.map_cons, List.flatten_cons] at h
    by_cases hlen : c.framed.length ≤ data.length
    · obtain ⟨more, rfl⟩ := List.prefix_of_prefix_length_le (List.prefix_append ..) h hlen
      have hmore := (List.prefix_append_right_inj c.framed).mp h
      have hcount : c.framed.length = 2 + c.payload.length := by
        rw [Call.framed, List.length_append, length_beBytes]
      rw [unframe_some (firstFrame_framed c more), ← hcount, List.drop_left]
      exact congrArg (c.payload :: ·) (ih hmore)
    · cases hp : firstFrame data with
      | none =>
        rw [unframe_none hp]
        rfl
      | some p =>
        obtain ⟨more, hmore⟩ := h
        have hsame := firstFrame_append hp more
        rw [hmore, firstFrame_framed] at hsame
        obtain rfl := Option.some.inj hsame
        have hfits := firstFrame_length hp
        rw [Call.framed, List.length_append, length_beBytes] at hlen
        omega

/-! Rows beside markets. -/

/-- The last row for a locate. -/
def lastRow (rows : List Truth) (l : UInt16) : Option Truth :=
  (rows.filter fun row => row.locate = l).getLast?

theorem lastRow_cons (row : Truth) (rows : List Truth) (l : UInt16) :
    lastRow (row :: rows) l =
      (lastRow rows l).or (if row.locate = l then some row else none) := by
  unfold lastRow
  by_cases hl : row.locate = l
  · rw [List.filter_cons_of_pos (by simpa using hl), if_pos hl, List.getLast?_cons]
    cases (rows.filter fun row => row.locate = l).getLast? <;> rfl
  · rw [List.filter_cons_of_neg (by simpa using hl), if_neg hl, Option.or_none]

theorem turns_take {C : Placement → Prop} {markets : ℕ → Market} {path : List Moment}
    {rows : List Truth} (h : Turns C markets path rows) (k : ℕ) :
    Turns C markets (path.take k) (rows.take k) := by
  induction h generalizing k with
  | nil markets =>
    rw [List.take_nil, List.take_nil]
    exact .nil markets
  | cons hturn hlive hrest ih =>
    cases k with
    | zero => exact .nil _
    | succ k => exact .cons hturn hlive (ih k)

/-- A session after the messages of a path. -/
structure Arrived (cfg : SessionConfig) (markets : ℕ → Market) (rows : List Truth) (s' : Session)
    (a' : Replay) : Prop where
  follows : Follows cfg s' a'
  known : OnlyUnknown s'.stats
  shown : ∀ l row, lastRow rows l = some row → ∃ c : Call, c.header.locate = l ∧
    row = rowOf c (a'.marketAt l.toNat)
  other : ∀ l, lastRow rows l = none → a'.marketAt l.toNat = markets l.toNat

theorem arrived_of_turns {cfg : SessionConfig} (hsize : Watching cfg → Reservable cfg.arrayReserve)
    {markets : ℕ → Market} {path : List Moment} {rows : List Truth}
    (h : Turns Takable markets path rows) : ∀ {s : Session} {a : Replay}, Follows cfg s a →
      OnlyUnknown s.stats → a.marketAt = markets → ∃ out s' a',
        run Session.applyPayload s (path.map fun mo => mo.call.payload) = .ok (out, s') ∧
        (upToError (path.map fun mo => mo.call.payload)).2 = none ∧
        Arrived cfg markets rows s' a' := by
  induction h with
  | nil markets =>
    intro s a hfollow hknown hmarkets
    exact ⟨[], s, a, rfl, rfl, hfollow, hknown, nofun, fun l _ => congrFun hmarkets l.toNat⟩
  | @cons markets markets' mo path rows hturn hlive hrest ih =>
    intro s a hfollow hknown hmarkets
    rw [← hmarkets] at hturn
    obtain ⟨m, htreats, hupdate, -⟩ := treats_of_turn (BookChanges.wf_marketAt hfollow) hturn
    obtain ⟨s₁, a₁, hstep, hfollow₁, hmarkets₁⟩ := step_of_turn hfollow hsize hknown hturn hlive
    obtain ⟨out, s', a', hrun, hparse, harrived⟩ := ih hfollow₁ hstep.known hmarkets₁
    obtain ⟨msg, hmsg, -⟩ := spells_call (by rw [mo.writes.ts]; exact mo.writes.ts_lt)
    have hlocate : (rowOf mo.call (markets' mo.call.header.locate.toNat)).locate =
        mo.call.header.locate := rfl
    refine ⟨.ok () :: out, s', a', run_cons_ok hstep.applied hrun, ?_, harrived.follows,
      harrived.known, fun l row hrow => ?_, fun l hnone => ?_⟩
    · rw [List.map_cons, upToError_good hmsg]
      exact hparse
    · rw [lastRow_cons, hlocate] at hrow
      cases hlast : lastRow rows l with
      | some row' =>
        rw [hlast] at hrow
        obtain rfl := Option.some.inj hrow
        exact harrived.shown l _ hlast
      | none =>
        rw [hlast] at hrow
        by_cases hl : mo.call.header.locate = l
        · rw [if_pos hl] at hrow
          obtain rfl := Option.some.inj hrow
          refine ⟨mo.call, hl, ?_⟩
          rw [harrived.other l hlast, hl]
        · rw [if_neg hl] at hrow
          cases hrow
    · rw [lastRow_cons, hlocate, Option.or_eq_none_iff] at hnone
      have hne : l.toNat ≠ mo.call.header.locate.toNat := by
        intro heq
        rw [if_pos (UInt16.toNat_inj.mp heq).symm] at hnone
        cases hnone.2
      rw [harrived.other l hnone.1, hupdate, Function.update_of_ne hne, hmarkets]

/-! Whole replays. -/

/-- A closed session after an initial part of a day: every complete message was applied, the
counters are those of the source, and the books are at the last rows of their locates. -/
structure Closed (hash : Bytes → Bytes) (day : SynthDay) (data : Bytes)
    (last : Option IoError) (s : Session) : Prop where
  finished : s.finished = true
  messages : s.stats.messages = (unframe data).1.length
  truncated : s.stats.truncated = if (unframe data).2 = [] then 0 else 1
  sourceCut : s.stats.sourceCut = decide (last = some .unexpectedEof)
  trailingBytes : s.stats.trailingBytes = trailingOf last
  bytesIn : s.stats.bytesIn = data.length
  known : OnlyUnknown s.stats
  shown : ∀ l row, lastRow (day.truth.take (unframe data).1.length) l = some row →
    row.locate = l ∧ Agrees s row
  hashed : ∀ l row b, lastRow (day.truth.take (unframe data).1.length) l = some row →
    s.book l.toNat = some b →
      ∃ ls, s.stats.locates[l.toNat]? = some ls ∧ ls.closeHash = hash row.bookBytes

theorem agrees_of_book {s s' : Session} {row : Truth} (h : s'.book = s.book)
    (hagrees : Agrees s row) : Agrees s' row := by
  unfold Agrees
  rw [h]
  exact hagrees

/-- Closing the session that the messages of a part of a day leave. -/
theorem replayed_of_arrived {cfg : SessionConfig} {hash : Bytes → Bytes} {day : SynthDay}
    {data : Bytes} {last : Option IoError} {s s' : Session} {a : Replay}
    (h : Arrived cfg (fun _ => .empty) (day.truth.take (unframe data).1.length) s a)
    (hmessages : s.stats.messages = (unframe data).1.length)
    (hfinish : (counted data last s).finish hash = .ok s') :
    Closed hash day data last s' := by
  have hdone := finished_of_finish (follows_counted h.follows data last).books_le hfinish
  obtain ⟨locates, logged, count, logHash, allHash, hstats⟩ := hdone.stats
  have hbook : s'.book = s.book := funext hdone.book
  have hshown : ∀ l row, lastRow (day.truth.take (unframe data).1.length) l = some row →
      row.locate = l ∧ Agrees s row := by
    intro l row hrow
    obtain ⟨c, rfl, rfl⟩ := h.shown l row hrow
    exact ⟨rfl, agrees_of_follows h.follows c⟩
  refine ⟨hdone.finished, by rw [hstats]; exact hmessages, by rw [hstats]; rfl,
    by rw [hstats]; rfl, by rw [hstats]; rfl, by rw [hstats]; rfl, ?_, fun l row hrow => ?_,
    fun l row b hrow hb => ?_⟩
  · rw [hstats]
    exact ⟨h.known.duplicateId, h.known.overExecute, h.known.overCancel, h.known.badQty,
      h.known.badPrice, h.known.badSide⟩
  · obtain ⟨hl, hagrees⟩ := hshown l row hrow
    exact ⟨hl, agrees_of_book hbook hagrees⟩
  · obtain ⟨rfl, hagrees⟩ := hshown l row hrow
    rw [hbook] at hb
    have hopen : (counted data last s).book row.locate.toNat = some b := hb
    obtain ⟨bytes, ls, hbytes, -, hclosed⟩ := hdone.opened row.locate.toNat b hopen
    unfold Agrees at hagrees
    simp only [hb] at hagrees
    obtain rfl := Except.ok.inj (hbytes.symm.trans hagrees.state)
    refine ⟨_, hclosed, ?_⟩
    cases b <;> rfl

/-- A part of a day over any reader that hands it out. -/
theorem replayed_of_delivers {fl : Floats} {rng : Rng} {nMsgs : ℕ} {cfg : SynthConfig}
    {day : SynthDay} {session : SessionConfig} (hday : synthItch fl rng nMsgs cfg = .ok day)
    (htakable : ∀ p ∈ placements fl rng nMsgs cfg true, Takable p) (hvalid : ValidSession session)
    (hsize : Watching session → Reservable session.arrayReserve) (debug : Bool)
    (hash : Bytes → Bytes) {data : Bytes} (hdata : data <+: day.bytes) {last : Option IoError}
    (hlast : last ≠ some .other) :
    ∃ s, Closed hash day data last s ∧
      ∀ {σ : Type} {read : σ → ℕ → ReadResult IoError × σ} {src : σ}, Delivers read src data last →
        ∀ bufLen, Enough fun fuel => ∃ f, replay (.framer read fuel) debug hash fuel
          (.new session) (.withBuffer src bufLen) = .ok (.ok (), s, f) := by
  obtain ⟨g, path, g', -, -, hbytes, hturns⟩ := day_turns hday htakable
  have hframed : (path.map fun mo => mo.call.framed) =
      (path.map fun mo => mo.call).map Call.framed := by
    rw [List.map_map]
    rfl
  rw [hbytes, hframed] at hdata
  have hpayloads := unframe_front hdata
  obtain ⟨out, s, a, hrun, hparse, harrived⟩ := arrived_of_turns hsize
    (turns_take hturns (unframe data).1.length) (follows_new hvalid)
    ⟨rfl, rfl, rfl, rfl, rfl, rfl⟩ rfl
  have hsame : ((path.take (unframe data).1.length).map fun mo => mo.call.payload) =
      (unframe data).1 := by
    rw [← List.map_take, List.map_map] at hpayloads
    exact hpayloads.symm
  rw [hsame] at hrun hparse
  obtain ⟨⟨hmessages, -⟩, -⟩ := carried_run hparse (follows_new hvalid) hrun
  have hcount : s.stats.messages = (unframe data).1.length := hmessages.trans (Nat.zero_add _)
  have hgood : verdict 0 (unframe data).1 none = .ok () := by
    simp only [verdict, hparse]
  obtain ⟨s', hfinish⟩ := finish_ok (follows_counted harrived.follows data last) hash
  have hconclude : conclude hash data last s (verdict 0 (unframe data).1 none) = .ok s' := by
    rw [hgood]
    exact hfinish
  refine ⟨s', replayed_of_arrived harrived hcount hfinish, fun {σ read src} hread bufLen => ?_⟩
  obtain ⟨⟨f, ⟨N, hN⟩, hspent⟩, -⟩ := hands_delivered hread hlast bufLen
  refine ⟨max N ((unframe data).1.length + 1), fun fuel hfuel => ?_⟩
  obtain ⟨f₁, hreplay⟩ := replay_of_hands (hN fuel (le_trans (le_max_left ..) hfuel))
    (hspent fuel) hvalid (by rw [upToError_all hparse]; exact hrun) hconclude
  rw [hgood] at hreplay
  exact ⟨f₁, hreplay debug fuel (le_trans (le_max_right ..) hfuel)⟩

/-! Files. -/

section Files

variable {δ : Type} {gz : GzDecoder δ} {IsMember : Bytes → Bytes → Prop}
variable {IsBroken : Bytes → Bytes → IoError → Prop} {src : Source}

/-- What a file holds and how it ends: the bytes themselves, or gzip members, the last of which
may be cut or followed by something else. -/
inductive Holds (IsMember : Bytes → Bytes → Prop) (IsBroken : Bytes → Bytes → IoError → Prop) :
    Source → Bytes → Option IoError → Prop
  | plain (src : Source) : Holds IsMember IsBroken src src.bytes none
  | gzip {src : Source} {members : List Member} {tail : Tail}
      (h : WellFormed IsMember IsBroken members tail) (hsrc : src.bytes = encoded members tail)
      (hfirst : 2 ≤ firstBuffer src) :
      Holds IsMember IsBroken src (decoded members ++ tail.out) tail.last

theorem openSource_plain (gz : GzDecoder δ) (hcalm : Calm src) (hmagic : ¬ gzMagic <+: src.bytes) :
    openSource gz src = .ok (.plain src) := by
  rcases src with _ | ⟨⟨b, bs⟩ | _, src⟩
  · rfl
  · have hhead : ¬ gzMagic <+: b :: bs := fun h => hmagic (h.trans ⟨Source.bytes src, rfl⟩)
    simp only [openSource, Source.fillBuf, if_neg hhead]
  · exact absurd (List.mem_cons_self ..) hcalm

/-- Members read without interruptions. -/
theorem calm_tail {members : List Member} {tail : Tail}
    (hgz : FaithfulOn Calm gz IsMember IsBroken) (h : WellFormed IsMember IsBroken members tail)
    (hcalm : Calm src) (hsrc : src.bytes = encoded members tail) (rounds : ℕ) :
    Delivers (GzMembers.read gz (rounds + 1)) (.new gz src) (decoded members ++ tail.out)
      tail.last := by
  have hdeliver := members_deliver hgz hcalm h hsrc rounds
  have hcut := cutShort_calm src members
  rw [calm_eq hcalm] at hcut
  rw [heard_eq, hcut] at hdeliver
  exact hdeliver

/-- A file is opened for what it holds, unless its bytes look like gzip. -/
theorem openSource_holds {data : Bytes} {last : Option IoError}
    (hgz : FaithfulOn Calm gz IsMember IsBroken) (h : Holds IsMember IsBroken src data last)
    (hcalm : Calm src) (hmagic : ¬ gzMagic <+: data) (rounds : ℕ) :
    ∃ o, openSource gz src = .ok o ∧ Delivers (Opened.read gz (rounds + 1)) o data last := by
  cases h with
  | plain =>
    exact ⟨_, openSource_plain gz hcalm hmagic, (plain_delivers src).embed fun _ _ => rfl⟩
  | gzip h hsrc hfirst =>
    have hopen := openSource_calm gz hcalm (hsrc ▸ encoded_magic hgz h)
    rw [if_pos hfirst] at hopen
    exact ⟨_, hopen, (calm_tail hgz h hcalm hsrc rounds).embed fun _ _ => rfl⟩

/-- No message is long enough for a frame to start like a gzip member. -/
theorem framed_no_magic {calls : List Call} {data : Bytes}
    (h : data <+: (calls.map Call.framed).flatten) : ¬ gzMagic <+: data := by
  intro hmagic
  have hall := hmagic.trans h
  cases calls with
  | nil => exact absurd hall.length_le (by decide)
  | cons c calls =>
    rw [List.map_cons, List.flatten_cons, Call.framed, List.append_assoc] at hall
    obtain ⟨more, hmore⟩ := hall
    have hlen := length_payload_call c
    have hle := length_fields_le c.body
    have hhead : gzMagic = beBytes 2 c.payload.length :=
      (List.append_inj hmore (by rw [length_beBytes]; rfl)).1
    have hnum : beNat gzMagic = c.payload.length := by
      rw [hhead, beNat_beBytes]
      exact Nat.mod_eq_of_lt (by omega)
    have hbig : beNat gzMagic = 8075 := rfl
    omega

/-- A file with an initial part of a generated day, plain or in gzip members, is opened for what
it holds and replays to the rows of the truth: every complete message is applied, nothing is
rejected but made-up references, and each locate ends at its last row. The orders of the day are
those that a session takes, the file is read without interruptions and, when it is gzip, begins
with a buffer of two bytes or more. -/
theorem day_file_replays {fl : Floats} {rng : Rng} {nMsgs : ℕ} {cfg : SynthConfig}
    {day : SynthDay} {session : SessionConfig} (hday : synthItch fl rng nMsgs cfg = .ok day)
    (htakable : ∀ p ∈ placements fl rng nMsgs cfg true, Takable p) (hvalid : ValidSession session)
    (hsize : Watching session → Reservable session.arrayReserve)
    (hgz : FaithfulOn Calm gz IsMember IsBroken) {data : Bytes} {last : Option IoError}
    (hfile : Holds IsMember IsBroken src data last) (hcalm : Calm src)
    (hdata : data <+: day.bytes) (hlast : last ≠ some .other) (debug : Bool)
    (hash : Bytes → Bytes) (rounds : ℕ) :
    ∃ o s, openSource gz src = .ok o ∧ Closed hash day data last s ∧
      Enough fun fuel => ∃ f, replay (.framer (Opened.read gz (rounds + 1)) fuel) debug hash fuel
        (.new session) (.new o) = .ok (.ok (), s, f) := by
  obtain ⟨s, hclosed, hreplay⟩ :=
    replayed_of_delivers hday htakable hvalid hsize debug hash hdata hlast
  obtain ⟨g, path, g', -, -, hbytes, -⟩ := day_turns hday htakable
  have hframed : (path.map fun mo => mo.call.framed) =
      (path.map fun mo => mo.call).map Call.framed := by
    rw [List.map_map]
    rfl
  rw [hbytes, hframed] at hdata
  obtain ⟨o, hopen, hread⟩ := openSource_holds hgz hfile hcalm (framed_no_magic hdata) rounds
  exact ⟨o, s, hopen, hclosed, hreplay hread bufLen⟩

end Files

/-- The openings, the entry of a locate and two asks on it. -/
def firstPayloads : List Bytes := [
  [83, 0, 0, 0, 0, 0, 0, 0, 0, 0, 70, 79],
  [83, 0, 0, 0, 1, 0, 0, 0, 0, 0, 70, 83],
  [82, 0, 1, 0, 2, 0, 0, 0, 0, 0, 70, 83, 89, 78, 48, 48, 48, 49, 32, 81, 32, 0, 0, 0, 100, 78, 67,
    90, 32, 80, 78, 78, 49, 78, 0, 0, 0, 0, 78],
  [72, 0, 1, 0, 3, 0, 0, 0, 0, 0, 70, 83, 89, 78, 48, 48, 48, 49, 32, 84, 32, 32, 32, 32, 32],
  [65, 0, 1, 0, 4, 0, 0, 0, 0, 0, 70, 0, 0, 0, 0, 0, 0, 0, 1, 83, 0, 0, 0, 100, 83, 89, 78, 48, 48,
    48, 49, 32, 0, 0, 9, 196],
  [65, 0, 1, 0, 5, 0, 0, 0, 0, 0, 70, 0, 0, 0, 0, 0, 0, 0, 2, 83, 0, 0, 0, 100, 83, 89, 78, 48, 48,
    48, 49, 32, 0, 0, 9, 96]]

/-- Six frames of a day and the first bytes of the seventh, in one stored block. -/
def firstMember : Member where
  enc := [0x1f, 0x8b, 8, 0, 0, 0, 0, 0, 0, 3, 1, 175, 0, 80, 255] ++
    (framed firstPayloads ++ [0, 36, 65]) ++ [226, 204, 165, 221, 175, 0, 0, 0]
  out := framed firstPayloads ++ [0, 36, 65]

/-- The member in two buffers, and a stray byte behind it. -/
def firstFile : Source :=
  [.buffer 0x1f (firstMember.enc.tail.take 99), .buffer 48 (firstMember.enc.drop 101 ++ [0])]

def IsFirst (enc out : Bytes) : Prop := enc = firstMember.enc ∧ out = firstMember.out

theorem firstMember_decodes : DecodesMembers (tableDecoder firstMember) IsFirst :=
  have h : Faithful (tableDecoder firstMember) IsFirst fun _ _ _ => False :=
    table_faithful (by decide) (by decide)
  ⟨h.member_magic, fun _ hm hsrc => h.member hm hsrc⟩

theorem firstFile_holds : Holds IsFirst (fun _ _ _ => False) firstFile firstMember.out
    (some (.trailingBytes 1)) := by
  have h : WellFormed IsFirst (fun _ _ _ => False) [firstMember] (.junk [0]) := by
    refine wellFormed_junk (fun m hm => ?_) (List.cons_ne_nil _ _) (by decide)
    rw [List.mem_singleton.mp hm]
    exact ⟨rfl, rfl⟩
  exact .gzip h (by decide +kernel) (by decide)

/-- Six messages are applied, the seventh is truncated, and the second ask is the best. -/
theorem day_file_replays_first :
    ∃ day, synthItch exactly (downDraws [1, 0]) 33 crossingAdds = .ok day ∧
    ∃ o s row, openSource (tableDecoder firstMember) firstFile = .ok o ∧ s.stats.messages = 6 ∧
      s.stats.truncated = 1 ∧ s.stats.trailingBytes = 1 ∧ row.bestAsk = some (2400, 100) ∧
      row.liveOrders = 2 ∧ Agrees s row ∧
      Enough fun fuel => ∃ f, replay (.framer (Opened.read (tableDecoder firstMember) 1) fuel) true
        (fun b => b) fuel (.new (watchEvery 64)) (.new o) = .ok (.ok (), s, f) := by
  obtain ⟨day, hday, hfirst⟩ :=
    ok_of_any (x := synthItch exactly (downDraws [1, 0]) 33 crossingAdds)
    (f := fun day => firstMember.out.isPrefixOf day.bytes && (lastRow (day.truth.take 6) 1).any
      fun row : Truth => decide (row.bestAsk = some (2400, 100) ∧ row.liveOrders = 2))
    (by decide +kernel)
  obtain ⟨hstart, hrow⟩ := (Bool.and_eq_true ..).mp hfirst
  obtain ⟨row, hlast, hfacts⟩ := (Option.any_eq_true ..).mp hrow
  obtain ⟨hask, hlive⟩ := of_decide_eq_true hfacts
  obtain ⟨o, s, hopen, hclosed, hreplay⟩ := day_file_replays hday (by decide +kernel)
    (watchEvery_valid 64) (fun _ => reservable_small) firstMember_decodes.on firstFile_holds
    (by decide) (List.isPrefixOf_iff_prefix.mp hstart) (by decide) true (fun b => b) 0
  have hunframe : unframe firstMember.out = (firstPayloads, [0, 36, 65]) :=
    unframe_frames (by decide) (by decide)
  have hmessages := hclosed.messages
  have htruncated := hclosed.truncated
  have hshown := hclosed.shown 1 row
  rw [hunframe] at hmessages htruncated hshown
  exact ⟨day, hday, o, s, row, hopen, hmessages, htruncated, hclosed.trailingBytes, hask, hlive,
    (hshown hlast).2, hreplay⟩

end Lobcore.DayFiles
