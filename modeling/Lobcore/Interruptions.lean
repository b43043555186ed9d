import Lobcore.GzipInputs

/-!
Gzip inputs with interruptions. Within a member an interruption changes nothing; one that
meets the look past a member ends the input there, and whatever follows is lost. So a source
and the same source without its interruptions replay alike exactly when no such look is
interrupted, or nothing that counts follows.
-/
namespace Lobcore.Interruptions

open Checked Payloads Readers Framing Drives GzipMembers GzipInputs

variable {δ : Type}

/-- The number of members before the first interrupted look past one of them. -/
def cutShort : Source → List Member → Option ℕ
  | _, [] => none
  | src, m :: members =>
    if (src.skip m.enc.length).quietPeek then
      (cutShort (src.skip m.enc.length) members).map (· + 1)
    else some 1

theorem heard_eq (src : Source) (members : List Member) (tail : Tail) :
    heard src members tail = match cutShort src members with
      | none => (decoded members ++ tail.out, tail.last)
      | some k => (decoded (members.take k), none) := by
  induction members generalizing src with
  | nil => rfl
  | cons m members ih =>
    rw [heard, cutShort]
    generalize src.skip m.enc.length = src₁
    cases src₁.quietPeek with
    | false => exact Prod.ext (List.append_nil m.out).symm rfl
    | true =>
      simp only [if_true, ih src₁]
      cases cutShort src₁ members with
      | none => exact Prod.ext (List.append_assoc ..).symm rfl
      | some k => rfl

theorem cutShort_calm (src : Source) (members : List Member) :
    cutShort src.calm members = none := by
  induction members generalizing src with
  | nil => rfl
  | cons m members ih =>
    rw [cutShort, Source.calm_skip, Source.quietPeek_calm, if_pos rfl, ih]
    rfl

theorem decoded_split (k : ℕ) (members : List Member) (tail : Tail) :
    decoded members ++ tail.out =
      decoded (members.take k) ++ (decoded (members.drop k) ++ tail.out) := by
  rw [← List.append_assoc, decoded, decoded, decoded, ← List.flatten_append, ← List.map_append,
    List.take_append_drop]

/-- Two sources driven to their ends: the same payloads or the same failure, and the same
counters. -/
def ReplaysAlike (gz : GzDecoder δ) (rounds : ℕ) (src₁ src₂ : Source) : Prop :=
  ∃ result f₁ f₂,
    Enough (fun fuel => drive (GzMembers.read gz rounds) fuel fuel (.new (.new gz src₁)) =
      .ok (result, f₁)) ∧
    Enough (fun fuel => drive (GzMembers.read gz rounds) fuel fuel (.new (.new gz src₂)) =
      .ok (result, f₂)) ∧
    f₁.truncated = f₂.truncated ∧ f₁.cut = f₂.cut ∧ f₁.trailing = f₂.trailing

/-- What follows the kept bytes adds no payload, does not change whether an incomplete one is
left, and ends the input quietly. -/
def Unheard (kept more : Bytes) (last : Option IoError) : Prop :=
  last = none ∧ (more = [] ∨ ((unframe kept).2 ≠ [] ∧ firstFrame ((unframe kept).2 ++ more) = none))

theorem unframe_unheard {kept more : Bytes}
    (h : more = [] ∨ ((unframe kept).2 ≠ [] ∧ firstFrame ((unframe kept).2 ++ more) = none)) :
    (unframe (kept ++ more)).1 = (unframe kept).1 ∧
      ((unframe (kept ++ more)).2 = [] ↔ (unframe kept).2 = []) := by
  rcases h with rfl | ⟨hleft, hnone⟩
  · rw [List.append_nil]
    exact ⟨rfl, Iff.rfl⟩
  · rw [unframe_append, unframe_none hnone]
    refine ⟨List.append_nil _, ?_⟩
    rw [List.append_eq_nil_iff]
    exact and_iff_left_of_imp fun hnil => absurd hnil hleft

theorem unheard_of_unframe {kept more : Bytes}
    (hpayloads : (unframe (kept ++ more)).1 = (unframe kept).1)
    (hleft : (unframe (kept ++ more)).2 = [] ↔ (unframe kept).2 = []) :
    more = [] ∨ ((unframe kept).2 ≠ [] ∧ firstFrame ((unframe kept).2 ++ more) = none) := by
  rw [unframe_append] at hpayloads hleft
  have hnone : firstFrame ((unframe kept).2 ++ more) = none := by
    cases hp : firstFrame ((unframe kept).2 ++ more) with
    | none => rfl
    | some p =>
      rw [unframe_some hp] at hpayloads
      cases List.append_right_eq_self.mp hpayloads
  rw [unframe_none hnone] at hleft
  by_cases hempty : (unframe kept).2 = []
  · exact Or.inl (List.append_eq_nil_iff.mp (hleft.mpr hempty)).2
  · exact Or.inr ⟨hempty, hnone⟩

section Interrupted

variable {gz : GzDecoder δ} {IsMember : Bytes → Bytes → Prop}
variable {IsBroken : Bytes → Bytes → IoError → Prop} {members : List Member} {tail : Tail}
variable {src : Source}

/-- Sources that are heard alike replay alike. -/
theorem alike_of_delivers {rounds : ℕ} {src₁ src₂ : Source} {data₁ data₂ : Bytes}
    (h₁ : Delivers (GzMembers.read gz rounds) (.new gz src₁) data₁ none)
    (h₂ : Delivers (GzMembers.read gz rounds) (.new gz src₂) data₂ none)
    (hpayloads : (unframe data₂).1 = (unframe data₁).1)
    (hleft : (unframe data₂).2 = [] ↔ (unframe data₁).2 = []) :
    ReplaysAlike gz rounds src₁ src₂ := by
  obtain ⟨ps₁, t₁, hdata₁, hdrive₁⟩ := drive_delivered data₁ none
  obtain ⟨ps₂, t₂, hdata₂, hdrive₂⟩ := drive_delivered data₂ none
  obtain ⟨rfl, rfl⟩ := hdata₁ nofun
  obtain ⟨rfl, rfl⟩ := hdata₂ nofun
  obtain ⟨f₁, hrun₁, ht₁, hc₁, htr₁⟩ := hdrive₁ h₁
  obtain ⟨f₂, hrun₂, ht₂, hc₂, htr₂⟩ := hdrive₂ h₂
  rw [hpayloads] at hrun₂
  simp only [hleft] at ht₂
  exact ⟨_, f₁, f₂, hrun₁, hrun₂, ht₁.trans ht₂.symm, hc₁.trans hc₂.symm, htr₁.trans htr₂.symm⟩

theorem alike_of_unheard (hgz : Faithful gz IsMember IsBroken)
    (h : WellFormed IsMember IsBroken members tail) (hsrc : src.bytes = encoded members tail)
    (rounds : ℕ) (hunheard : ∀ k, cutShort src members = some k →
      Unheard (decoded (members.take k)) (decoded (members.drop k) ++ tail.out) tail.last) :
    ReplaysAlike gz (rounds + 1) src src.calm := by
  have h₁ := members_deliver hgz.on trivial h hsrc rounds
  have h₂ := members_deliver hgz.on trivial h ((Source.bytes_calm src).trans hsrc) rounds
  rw [heard_eq, cutShort_calm] at h₂
  rw [heard_eq] at h₁
  cases hcut : cutShort src members with
  | none =>
    rw [hcut] at h₁
    obtain ⟨payloads, truncated, -, hdrive⟩ := drive_delivered _ _
    obtain ⟨f₁, hrun₁, ht₁, hc₁, htr₁⟩ := hdrive h₁
    obtain ⟨f₂, hrun₂, ht₂, hc₂, htr₂⟩ := hdrive h₂
    exact ⟨_, f₁, f₂, hrun₁, hrun₂, ht₁.trans ht₂.symm, hc₁.trans hc₂.symm, htr₁.trans htr₂.symm⟩
  | some k =>
    rw [hcut] at h₁
    obtain ⟨hlast, hmore⟩ := hunheard k hcut
    obtain ⟨hpayloads, hleft⟩ := unframe_unheard hmore
    rw [hlast, decoded_split k] at h₂
    exact alike_of_delivers h₁ h₂ hpayloads hleft

/-- A drive without failure, cut or trailing bytes is one of an input that ends quietly. -/
theorem last_eq_none (hgz : Faithful gz IsMember IsBroken)
    (h : WellFormed IsMember IsBroken members tail) (hother : tail.last ≠ some .other)
    (hcut : false = decide (tail.last = some .unexpectedEof))
    (htrailing : 0 = trailingOf tail.last) :
    tail.last = none := by
  cases htail : tail with
  | junk bytes =>
    cases bytes with
    | nil => rfl
    | cons b bs =>
      rw [htail] at htrailing
      cases htrailing
  | broken bytes out e =>
    rw [htail] at hother hcut
    rcases hgz.broken_error (h.broken bytes out e htail) with rfl | rfl
    · cases hcut
    · exact absurd rfl hother

theorem unheard_of_alike (hgz : Faithful gz IsMember IsBroken)
    (h : WellFormed IsMember IsBroken members tail) (hsrc : src.bytes = encoded members tail)
    {rounds k : ℕ} (hcut : cutShort src members = some k)
    (halike : ReplaysAlike gz (rounds + 1) src src.calm) :
    Unheard (decoded (members.take k)) (decoded (members.drop k) ++ tail.out) tail.last := by
  have h₁ := members_deliver hgz.on trivial h hsrc rounds
  have h₂ := members_deliver hgz.on trivial h ((Source.bytes_calm src).trans hsrc) rounds
  rw [heard_eq, cutShort_calm, decoded_split k] at h₂
  rw [heard_eq, hcut] at h₁
  obtain ⟨ps₁, t₁, hdata₁, hdrive₁⟩ := drive_delivered (decoded (members.take k)) none
  obtain ⟨ps₂, t₂, hdata₂, hdrive₂⟩ := drive_delivered _ tail.last
  obtain ⟨f₁, hrun₁, ht₁, hc₁, htr₁⟩ := hdrive₁ h₁
  obtain ⟨f₂, hrun₂, ht₂, hc₂, htr₂⟩ := hdrive₂ h₂
  obtain ⟨result, g₁, g₂, hg₁, hg₂, htruncated, hcuts, htrailing⟩ := halike
  obtain ⟨fuel, ⟨hf₁, hf₂⟩, hf₁', hf₂'⟩ := ((hg₁.and hg₂).and (hrun₁.and hrun₂)).exists
  -- both runs of a source are the same run
  obtain ⟨rfl, rfl⟩ := Prod.mk.inj (Except.ok.inj (hf₁.symm.trans hf₁'))
  obtain ⟨hresult, rfl⟩ := Prod.mk.inj (Except.ok.inj (hf₂.symm.trans hf₂'))
  obtain ⟨rfl, hfailure⟩ := Prod.mk.inj hresult
  have hother : tail.last ≠ some .other := by
    intro hlast
    rw [if_pos hlast] at hfailure
    cases hfailure
  have hlast := last_eq_none hgz h hother (by rw [← hc₂, ← hcuts, hc₁]; rfl)
    (by rw [← htr₂, ← htrailing, htr₁]; rfl)
  obtain ⟨hps₁, rfl⟩ := hdata₁ nofun
  obtain ⟨hps₂, rfl⟩ := hdata₂ hother
  rw [ht₁, ht₂] at htruncated
  exact ⟨hlast, unheard_of_unframe (hps₂.symm.trans hps₁) (count_eq_iff.mp htruncated.symm)⟩

/-- Interruptions change nothing of a replay but where they meet the look past a member: a
source and the same source without its interruptions replay alike exactly when no such look
is interrupted, or what follows the first one goes unheard anyway. -/
theorem replay_survives_interruptions (hgz : Faithful gz IsMember IsBroken)
    (h : WellFormed IsMember IsBroken members tail) (hsrc : src.bytes = encoded members tail)
    (rounds : ℕ) :
    ReplaysAlike gz (rounds + 1) src src.calm ↔ ∀ k, cutShort src members = some k →
      Unheard (decoded (members.take k)) (decoded (members.drop k) ++ tail.out) tail.last :=
  ⟨fun halike _ hcut => unheard_of_alike hgz h hsrc hcut halike, alike_of_unheard hgz h hsrc rounds⟩

end Interrupted

/-! A decoder that knows one member. -/

/-- Take out the first interruption before the `n`th byte. -/
def firstInterrupt : ℕ → Source → Option Source
  | 0, _ => none
  | _ + 1, [] => none
  | _ + 1, .interrupted :: src => some src
  | n + 1, .buffer b bs :: src => (firstInterrupt (n - bs.length) src).map (.buffer b bs :: ·)

theorem firstInterrupt_some {n : ℕ} {src src₁ : Source} (h : firstInterrupt n src = some src₁) :
    src₁.bytes = src.bytes ∧ src₁.skip n = src.skip n ∧ src₁.length < src.length := by
  induction src generalizing n src₁ with
  | nil => cases n <;> cases h
  | cons item src ih =>
    cases n with
    | zero => cases h
    | succ n =>
      cases item with
      | interrupted =>
        obtain rfl := Option.some.inj h
        exact ⟨rfl, rfl, Nat.lt_succ_self _⟩
      | buffer b bs =>
        obtain ⟨src₂, hsrc₂, rfl⟩ := Option.map_eq_some_iff.mp h
        obtain ⟨hbytes, hskip, hlen⟩ := ih hsrc₂
        refine ⟨congrArg (b :: bs ++ ·) hbytes, ?_, Nat.succ_lt_succ hlen⟩
        simp only [Source.skip, Nat.add_sub_add_right, hskip]
        cases hdrop : (b :: bs).drop (n + 1) with
        | nil => rfl
        | cons c cs =>
          -- the bytes end within the buffer, before any interruption
          have hlen := congrArg List.length hdrop
          rw [List.length_drop, List.length_cons, List.length_cons] at hlen
          rw [show n - bs.length = 0 by omega, firstInterrupt] at hsrc₂
          cases hsrc₂

/-- What is left of the reader, and what is left of the output once the member is decoded. -/
abbrev Table := Source × Option Bytes

/-- A decoder of the one member `m`: interruptions within it are passed through, then its output
is handed out as room is offered. -/
def tableDecoder (m : Member) : GzDecoder Table where
  new src := (src, none)
  read
    | (src, some out), n => (.ok (out.take n), (src, some (out.drop n)))
    | (src, none), n =>
      match firstInterrupt m.enc.length src with
      | some src => (.interrupted, (src, none))
      | none =>
        if m.enc <+: src.bytes then
          (.ok (m.out.take n), (src.skip m.enc.length, some (m.out.drop n)))
        else (.error .other, (src, none))
  intoInner dec := dec.1

theorem table_drains (m : Member) (src : Source) (out : Bytes) :
    Decodes (tableDecoder m) (src, some out) out src := by
  induction hn : out.length using Nat.strong_induction_on generalizing out with
  | _ len ih =>
    cases out with
    | nil => exact .finish fun n _ => ⟨congrArg IoResult.ok List.take_nil, rfl⟩
    | cons b bs =>
      refine .more (fun n => (b :: bs).drop n)
        (fun n hpos => .take (List.cons_ne_nil b bs) hpos) fun n hpos => ih _ ?_ _ rfl
      rw [← hn, List.length_drop, List.length_cons]
      omega

theorem table_decodes {m : Member} (hout : m.out ≠ []) {src : Source} {rest : Bytes}
    (hsrc : src.bytes = m.enc ++ rest) :
    Decodes (tableDecoder m) ((tableDecoder m).new src) m.out (src.skip m.enc.length) := by
  induction hn : src.length using Nat.strong_induction_on generalizing src with
  | _ len ih =>
    cases hfirst : firstInterrupt m.enc.length src with
    | some src₁ =>
      obtain ⟨hbytes, hskip, hlen⟩ := firstInterrupt_some hfirst
      rw [← hskip]
      refine Yields.interrupted (fun n _ => ?_) (ih src₁.length (hn ▸ hlen) (hbytes.trans hsrc) rfl)
      simp only [tableDecoder, hfirst]
    | none =>
      have hread : ∀ n, (tableDecoder m).read ((tableDecoder m).new src) n =
          (.ok (m.out.take n), (src.skip m.enc.length, some (m.out.drop n))) := by
        intro n
        simp only [tableDecoder, hfirst]
        exact if_pos ⟨rest, hsrc.symm⟩
      refine .more (fun n => m.out.drop n) (fun n hpos => ?_) fun n _ => ?_
      · rw [hread]
        exact .take hout hpos
      · rw [hread]
        exact table_drains m _ _

theorem table_faithful {m : Member} (hmagic : gzMagic <+: m.enc) (hout : m.out ≠ []) :
    Faithful (tableDecoder m) (fun enc out => enc = m.enc ∧ out = m.out) fun _ _ _ => False where
  member_magic := fun ⟨henc, _⟩ => henc ▸ hmagic
  member := fun ⟨henc, hm⟩ hsrc => by
    subst henc hm
    exact table_decodes hout hsrc
  broken_magic := False.elim
  broken_error := False.elim
  broken := fun h => False.elim h

/-- The frame of a one-byte payload, compressed. -/
def oneFrame : Member where
  enc := [0x1f, 0x8b, 0x08, 0, 0, 0, 0, 0, 0x02, 0x03, 0x63, 0x60, 0x74, 0x04, 0, 0x55, 0x99, 0x81,
    0xe7, 0x03, 0, 0, 0]
  out := [0, 1, 65]

theorem oneFrame_faithful : Faithful (tableDecoder oneFrame)
    (fun enc out => enc = oneFrame.enc ∧ out = oneFrame.out) fun _ _ _ => False :=
  table_faithful (by decide) (by decide)

theorem oneFrame_wellFormed (n : ℕ) :
    WellFormed (fun enc out => enc = oneFrame.enc ∧ out = oneFrame.out) (fun _ _ _ => False)
      (List.replicate (n + 1) oneFrame) (.junk []) where
  member _ hm := by
    rw [List.eq_of_mem_replicate hm]
    exact ⟨rfl, rfl⟩
  junk bytes hbytes := by
    cases hbytes
    exact ⟨nofun, by decide⟩
  broken _ _ _ hbytes := by cases hbytes

/-- Two members, with an interruption within the first and one within the second. -/
def heardOut : Source :=
  [.buffer 0x1f (oneFrame.enc.tail.take 8), .interrupted,
    .buffer 0x03 (oneFrame.enc.drop 10 ++ [0x1f, 0x8b]), .interrupted,
    .buffer 0x08 (oneFrame.enc.drop 3)]

theorem replay_survives_interruptions_within :
    ReplaysAlike (tableDecoder oneFrame) 3 heardOut heardOut.calm := by
  refine (replay_survives_interruptions oneFrame_faithful (oneFrame_wellFormed 1) (by decide) 2).mpr
    fun k hcut => ?_
  rw [show cutShort heardOut (List.replicate 2 oneFrame) = none by decide] at hcut
  cases hcut

/-- Two members, with an interruption of the look past the first. -/
def interruptedLook : Source :=
  [.buffer 0x1f oneFrame.enc.tail, .interrupted, .buffer 0x1f oneFrame.enc.tail]

/-- The second member is lost. -/
theorem interrupted_look_loses_members :
    interruptedLook.bytes = encoded [oneFrame, oneFrame] (.junk []) ∧
      ¬ ReplaysAlike (tableDecoder oneFrame) 3 interruptedLook interruptedLook.calm := by
  refine ⟨by decide, fun halike => ?_⟩
  obtain ⟨-, hmore | ⟨hleft, -⟩⟩ := unheard_of_alike oneFrame_faithful (oneFrame_wellFormed 1)
    (by decide) (show cutShort interruptedLook [oneFrame, oneFrame] = some 1 by decide) halike
  · cases hmore
  · exact hleft (by rw [unframe_some (p := [65]) (by decide), unframe_none (by decide)]; rfl)

end Lobcore.Interruptions
