import Lobcore.Interruptions

/-!
Gzip members and read-buffer boundaries. Read through, members yield their contents and the
number of trailing bytes whatever buffers the underlying reader hands out, so a framer over
them yields the same frames. Opening a file looks at the first buffer only: a first buffer of
one byte hides the magic, and the compressed bytes are taken as they are.
-/
namespace Lobcore.MemberReads

open Checked Payloads Readers Framing Drives GzipMembers GzipInputs Interruptions

variable {δ : Type}

/-- No call for a buffer is interrupted. -/
def Calm (src : Source) : Prop := Item.interrupted ∉ src

instance : DecidablePred Calm := fun src => inferInstanceAs (Decidable (Item.interrupted ∉ src))

/-- The size of the first buffer. -/
def firstBuffer : Source → ℕ
  | .buffer _ bs :: _ => bs.length + 1
  | _ => 0

/-- A source opened for framing: plain, or gzip members. -/
inductive Opened (δ : Type) where
  | plain (src : Source)
  | gz (g : GzMembers δ)

/-- `open`, on the file's buffered reader: gzip when its first buffer starts with the magic. -/
def openSource (gz : GzDecoder δ) (src : Source) : IoResult IoError (Opened δ) :=
  match src.fillBuf with
  | (.ok head, src) => .ok (if gzMagic <+: head then .gz (.new gz src) else .plain src)
  | (.interrupted, _) => .interrupted
  | (.error e, _) => .error e

/-- A read of a buffered reader. -/
def readPlain (src : Source) (n : ℕ) : ReadResult IoError × Source :=
  match src.fillBuf with
  | (.ok head, src) => (.ok (head.take n), src.skip (min n head.length))
  | (.interrupted, src) => (.interrupted, src)
  | (.error e, src) => (.error e, src)

def Opened.read (gz : GzDecoder δ) (rounds : ℕ) (o : Opened δ) (n : ℕ) :
    ReadResult IoError × Opened δ :=
  match o with
  | .plain src => ((readPlain src n).1, .plain (readPlain src n).2)
  | .gz g => ((g.read gz rounds n).1, .gz (g.read gz rounds n).2)

/-- `read_all`: open, and read to the end. -/
def readFile (gz : GzDecoder δ) (rounds fuel : ℕ) (src : Source) :
    Exec (IoResult IoError (Bytes × Bool)) :=
  match openSource gz src with
  | .ok o => readAll (Opened.read gz rounds) fuel o []
  | .interrupted => .ok .interrupted
  | .error e => .ok (.error e)

theorem calm_skip {src : Source} (n : ℕ) (h : Calm src) : Calm (src.skip n) := by
  induction src generalizing n with
  | nil => cases n <;> exact h
  | cons item src ih =>
    obtain ⟨hitem, hsrc⟩ := not_or.mp (mt List.mem_cons.mpr h)
    cases item with
    | interrupted => exact absurd rfl hitem
    | buffer b bs =>
      simp only [Source.skip]
      split
      · exact ih _ hsrc
      · intro hmem
        rcases List.mem_cons.mp hmem with hc | hmem
        · cases hc
        · exact hsrc hmem

theorem calm_eq {src : Source} (h : Calm src) : src.calm = src := by
  induction src with
  | nil => rfl
  | cons item src ih =>
    obtain ⟨hitem, hsrc⟩ := not_or.mp (mt List.mem_cons.mpr h)
    cases item with
    | interrupted => exact absurd rfl hitem
    | buffer b bs => exact congrArg (Item.buffer b bs :: ·) (ih hsrc)

theorem readPlain_buffer (b : UInt8) (bs : Bytes) (src : Source) (n : ℕ) :
    readPlain (.buffer b bs :: src) n = (.ok ((b :: bs).take n),
      match (b :: bs).drop n with
      | [] => src
      | c :: cs => .buffer c cs :: src) := by
  have hdrop : (b :: bs).drop (min n (bs.length + 1)) = (b :: bs).drop n := by
    rcases le_total n (bs.length + 1) with hle | hle
    · rw [min_eq_left hle]
    · rw [min_eq_right hle, List.drop_eq_nil_of_le (Nat.le_refl (bs.length + 1)),
        List.drop_eq_nil_of_le hle]
  have hzero : min n (bs.length + 1) - (bs.length + 1) = 0 := by omega
  cases hrest : (b :: bs).drop n with
  | nil =>
    rw [hrest] at hdrop
    simp only [readPlain, Source.fillBuf, Source.skip, List.length_cons, hdrop, hzero,
      Source.skip_zero]
  | cons c cs =>
    rw [hrest] at hdrop
    simp only [readPlain, Source.fillBuf, Source.skip, List.length_cons, hdrop]

/-- A plain source delivers its bytes. -/
theorem plain_delivers (src : Source) : Delivers readPlain src src.bytes none := by
  induction src with
  | nil => exact .finish fun n _ => congrArg IoResult.ok List.take_nil
  | cons item src ih =>
    cases item with
    | interrupted => exact Yields.interrupted (fun _ _ => rfl) ih
    | buffer b bs =>
      -- the bytes of a buffer are handed out from its front
      induction hn : bs.length using Nat.strong_induction_on generalizing b bs with
      | _ len ihlen =>
        refine .more (fun n => (b :: bs).drop n ++ Source.bytes src)
          (fun n hpos => ?_) fun n hpos => ?_
        · rw [readPlain_buffer]
          exact .take_front (List.cons_ne_nil b bs) hpos (Source.bytes src)
        · rw [readPlain_buffer]
          cases hdrop : (b :: bs).drop n with
          | nil => exact ih
          | cons c cs =>
            have hlen := congrArg List.length hdrop
            rw [List.length_drop, List.length_cons, List.length_cons] at hlen
            exact ihlen cs.length (by omega) c cs rfl

/-- What the reader relies on when no call is interrupted: a decoder decodes one member from
the front of its reader and leaves the reader right after it. -/
structure DecodesMembers (gz : GzDecoder δ) (IsMember : Bytes → Bytes → Prop) : Prop where
  magic : ∀ {enc out}, IsMember enc out → gzMagic <+: enc
  member : ∀ {enc out rest} {src : Source}, Calm src → IsMember enc out → src.bytes = enc ++ rest →
    Decodes gz (gz.new src) out (src.skip enc.length)

theorem DecodesMembers.on {gz : GzDecoder δ} {IsMember : Bytes → Bytes → Prop}
    (h : DecodesMembers gz IsMember) : FaithfulOn Calm gz IsMember fun _ _ _ => False where
  member_magic := h.magic
  member hcalm hm hsrc := h.member hcalm hm hsrc
  broken_magic := False.elim
  broken _ hb := False.elim hb
  skip n hcalm := calm_skip n hcalm

/-- Reading the file whole and framing its bytes gives the frames of the members. -/
def SameFrames (gz : GzDecoder δ) (rounds : ℕ) (src : Source) : Prop :=
  ∃ payloads f data cut sl,
    Enough (fun fuel => drive (GzMembers.read gz rounds) fuel fuel (.new (.new gz src)) =
      .ok ((payloads, none), f)) ∧
    Enough (fun fuel => readFile gz rounds fuel src = .ok (.ok (data, cut))) ∧
    Enough (fun fuel => collect fuel (.new data) = .ok (payloads, sl)) ∧
    sl.truncated = f.truncated

/-- The bytes frame alike, apart from what is left of an incomplete last frame. -/
def FrameAlike (as bs : Bytes) : Prop :=
  (unframe as).1 = (unframe bs).1 ∧ ((unframe as).2 = [] ↔ (unframe bs).2 = [])

section Boundaries

variable {gz : GzDecoder δ} {IsMember : Bytes → Bytes → Prop} {members : List Member}
variable {junk : Bytes} {src : Source}

theorem wellFormed_junk (hmembers : ∀ m ∈ members, IsMember m.enc m.out) (hne : members ≠ [])
    (hjunk : ¬ gzMagic <+: junk) :
    WellFormed IsMember (fun _ _ _ => False) members (.junk junk) where
  member := hmembers
  junk bytes hbytes := by
    obtain rfl := Tail.junk.inj hbytes
    exact ⟨hne, hjunk⟩
  broken _ _ _ hbytes := by cases hbytes

theorem last_junk (junk : Bytes) :
    (Tail.junk junk).last = if junk = [] then none else some (.trailingBytes junk.length) := by
  cases junk <;> rfl

theorem calm_deliver (hgz : DecodesMembers gz IsMember)
    (h : WellFormed IsMember (fun _ _ _ => False) members (.junk junk)) (hcalm : Calm src)
    (hsrc : src.bytes = encoded members (.junk junk)) (rounds : ℕ) :
    Delivers (GzMembers.read gz (rounds + 1)) (.new gz src) (decoded members)
      (if junk = [] then none else some (.trailingBytes junk.length)) := by
  have hdeliver := members_deliver hgz.on hcalm h hsrc rounds
  have hcut := cutShort_calm src members
  rw [calm_eq hcalm] at hcut
  rw [heard_eq, hcut, last_junk] at hdeliver
  exact (List.append_nil (decoded members)) ▸ hdeliver

/-- The first buffer decides how the file is opened. -/
theorem openSource_calm (gz : GzDecoder δ) (hcalm : Calm src) (hmagic : gzMagic <+: src.bytes) :
    openSource gz src = .ok (if 2 ≤ firstBuffer src then .gz (.new gz src) else .plain src) := by
  rcases src with _ | ⟨⟨b, _ | ⟨c, bs⟩⟩ | _, src⟩
  · cases hmagic.length_le
  · have hshort : ¬ gzMagic <+: [b] := by
      intro h
      exact absurd h.length_le (Nat.not_succ_le_self 1)
    simp only [openSource, Source.fillBuf, if_neg hshort]
    rfl
  · have hhead : gzMagic <+: b :: c :: bs := magic_iff.mpr (magic_iff.mp hmagic)
    simp only [openSource, Source.fillBuf, if_pos hhead]
    exact congrArg IoResult.ok (if_pos (Nat.succ_le_succ (Nat.succ_pos _))).symm
  · exact absurd (List.mem_cons_self ..) hcalm

/-- The bytes that reading the whole file yields. -/
theorem readFile_calm (hgz : DecodesMembers gz IsMember)
    (h : WellFormed IsMember (fun _ _ _ => False) members (.junk junk)) (hcalm : Calm src)
    (hsrc : src.bytes = encoded members (.junk junk)) (rounds : ℕ) :
    Enough fun fuel => readFile gz (rounds + 1) fuel src =
      .ok (.ok (if 2 ≤ firstBuffer src then decoded members else src.bytes, false)) := by
  have hopen := openSource_calm gz hcalm (hsrc ▸ encoded_magic hgz.on h)
  by_cases htwo : 2 ≤ firstBuffer src
  · rw [if_pos htwo] at hopen ⊢
    have hread : Delivers (Opened.read gz (rounds + 1)) (.gz (.new gz src)) (decoded members) _ :=
      (calm_deliver hgz h hcalm hsrc rounds).embed fun _ _ => rfl
    refine (readAll_delivers hread ?_ []).mono fun fuel hfuel => ?_
    · split <;> exact nofun
    · simp only [readFile, hopen, hfuel, List.nil_append]
      split <;> rfl
  · rw [if_neg htwo] at hopen ⊢
    have hread : Delivers (Opened.read gz (rounds + 1)) (.plain src) src.bytes none :=
      (plain_delivers src).embed fun _ _ => rfl
    refine (readAll_delivers hread nofun []).mono fun fuel hfuel => ?_
    simp only [readFile, hopen, hfuel, List.nil_append]
    rfl

/-- The framer over the members yields the frames of their contents. -/
theorem drive_members (hgz : DecodesMembers gz IsMember)
    (h : WellFormed IsMember (fun _ _ _ => False) members (.junk junk)) (hcalm : Calm src)
    (hsrc : src.bytes = encoded members (.junk junk)) (rounds : ℕ) :
    ∃ f, Enough (fun fuel => drive (GzMembers.read gz (rounds + 1)) fuel fuel (.new (.new gz src)) =
        .ok (((unframe (decoded members)).1, none), f)) ∧
      f.truncated = (if (unframe (decoded members)).2 = [] then 0 else 1) ∧
      f.trailing = junk.length ∧ f.cut = false := by
  have hread := calm_deliver hgz h hcalm hsrc rounds
  obtain ⟨payloads, truncated, hdata, hdrive⟩ := drive_delivered (decoded members)
    (if junk = [] then none else some (.trailingBytes junk.length))
  obtain ⟨f, hrun, ht, hcut, htrailing⟩ := hdrive hread
  cases junk with
  | nil =>
    obtain ⟨rfl, rfl⟩ := hdata nofun
    exact ⟨f, hrun, ht, htrailing, hcut⟩
  | cons b bs =>
    obtain ⟨rfl, rfl⟩ := hdata nofun
    exact ⟨f, hrun, ht, htrailing, hcut⟩

theorem collect_new (data : Bytes) :
    ∃ sl, Enough (fun fuel => collect fuel (.new data) = .ok ((unframe data).1, sl)) ∧
      sl.truncated = if (unframe data).2 = [] then 0 else 1 := by
  obtain ⟨sl, hrun, ht⟩ := collect_eq (.new data) (Nat.zero_le _)
  exact ⟨sl, hrun, ht.trans (Nat.zero_add _)⟩

theorem sameFrames_of_frameAlike (hgz : DecodesMembers gz IsMember)
    (h : WellFormed IsMember (fun _ _ _ => False) members (.junk junk)) (hcalm : Calm src)
    (hsrc : src.bytes = encoded members (.junk junk)) (rounds : ℕ)
    (halike : 2 ≤ firstBuffer src ∨ FrameAlike src.bytes (decoded members)) :
    SameFrames gz (rounds + 1) src := by
  obtain ⟨f, hdrive, htruncated, -⟩ := drive_members hgz h hcalm hsrc rounds
  have hfile := readFile_calm hgz h hcalm hsrc rounds
  by_cases htwo : 2 ≤ firstBuffer src
  · rw [if_pos htwo] at hfile
    obtain ⟨sl, hcollect, ht⟩ := collect_new (decoded members)
    exact ⟨_, f, _, _, sl, hdrive, hfile, hcollect, ht.trans htruncated.symm⟩
  · obtain ⟨hpayloads, hleft⟩ := halike.resolve_left htwo
    rw [if_neg htwo] at hfile
    obtain ⟨sl, hcollect, ht⟩ := collect_new src.bytes
    rw [hpayloads] at hcollect
    simp only [hleft] at ht
    exact ⟨_, f, _, _, sl, hdrive, hfile, hcollect, ht.trans htruncated.symm⟩

theorem frameAlike_of_sameFrames (hgz : DecodesMembers gz IsMember)
    (h : WellFormed IsMember (fun _ _ _ => False) members (.junk junk)) (hcalm : Calm src)
    (hsrc : src.bytes = encoded members (.junk junk)) {rounds : ℕ}
    (hsame : SameFrames gz (rounds + 1) src) :
    2 ≤ firstBuffer src ∨ FrameAlike src.bytes (decoded members) := by
  by_cases htwo : 2 ≤ firstBuffer src
  · exact Or.inl htwo
  · obtain ⟨f, hdrive, htruncated, -⟩ := drive_members hgz h hcalm hsrc rounds
    have hfile := readFile_calm hgz h hcalm hsrc rounds
    rw [if_neg htwo] at hfile
    obtain ⟨sl, hcollect, ht⟩ := collect_new src.bytes
    obtain ⟨payloads, f', data, cut, sl', hdrive', hfile', hcollect', ht'⟩ := hsame
    obtain ⟨fuel, ⟨hd, hd'⟩, hf, hf'⟩ := ((hdrive.and hdrive').and (hfile.and hfile')).exists
    obtain ⟨hresult, rfl⟩ := Prod.mk.inj (Except.ok.inj (hd.symm.trans hd'))
    obtain ⟨rfl, -⟩ := Prod.mk.inj hresult
    obtain ⟨rfl, -⟩ := Prod.mk.inj (IoResult.ok.inj (Except.ok.inj (hf.symm.trans hf')))
    obtain ⟨fuel, hc, hc'⟩ := (hcollect.and hcollect').exists
    obtain ⟨hpayloads, rfl⟩ := Prod.mk.inj (Except.ok.inj (hc.symm.trans hc'))
    refine Or.inr ⟨hpayloads, ?_⟩
    rw [ht, htruncated] at ht'
    exact count_eq_iff.mp ht'

/-- Members read alike whatever the buffers: their contents come out one after another, then
the end of the input or the number of trailing bytes; so a framer over them yields the frames
of the contents. Reading the file whole yields the same frames exactly when its first buffer
holds two bytes, or the compressed bytes happen to frame alike. -/
theorem members_read_whatever_the_buffers (hgz : DecodesMembers gz IsMember)
    (hmembers : ∀ m ∈ members, IsMember m.enc m.out) (hne : members ≠ [])
    (hjunk : ¬ gzMagic <+: junk) (hcalm : Calm src)
    (hsrc : src.bytes = encoded members (.junk junk)) (rounds : ℕ) :
    Delivers (GzMembers.read gz (rounds + 1)) (.new gz src) (decoded members)
      (if junk = [] then none else some (.trailingBytes junk.length)) ∧
    (∃ f, Enough (fun fuel => drive (GzMembers.read gz (rounds + 1)) fuel fuel
        (.new (.new gz src)) = .ok (((unframe (decoded members)).1, none), f)) ∧
      f.truncated = (if (unframe (decoded members)).2 = [] then 0 else 1) ∧
      f.trailing = junk.length ∧ f.cut = false) ∧
    (SameFrames gz (rounds + 1) src ↔
      2 ≤ firstBuffer src ∨ FrameAlike src.bytes (decoded members)) := by
  have h := wellFormed_junk hmembers hne hjunk
  refine ⟨calm_deliver hgz h hcalm hsrc rounds, drive_members hgz h hcalm hsrc rounds, ?_, ?_⟩
  · exact frameAlike_of_sameFrames hgz h hcalm hsrc
  · exact sameFrames_of_frameAlike hgz h hcalm hsrc rounds

end Boundaries

theorem oneFrame_decodes : DecodesMembers (tableDecoder oneFrame)
    fun enc out => enc = oneFrame.enc ∧ out = oneFrame.out where
  magic := oneFrame_faithful.member_magic
  member _ hm hsrc := oneFrame_faithful.member hm hsrc

/-- Two members and a stray byte; a buffer ends within the magic of the second member. -/
def splitMagic : Source :=
  [.buffer 0x1f (oneFrame.enc.tail ++ [0x1f]), .buffer 0x8b (oneFrame.enc.drop 2), .buffer 0x1f []]

theorem members_read_whatever_the_buffers_split :
    ∃ f, Enough (fun fuel => drive (GzMembers.read (tableDecoder oneFrame) 3) fuel fuel
        (.new (.new (tableDecoder oneFrame) splitMagic)) =
          .ok (((unframe (decoded [oneFrame, oneFrame])).1, none), f)) ∧
      f.truncated = (if (unframe (decoded [oneFrame, oneFrame])).2 = [] then 0 else 1) ∧
      f.trailing = 1 ∧ f.cut = false := by
  have hbytes : splitMagic.bytes = encoded [oneFrame, oneFrame] (.junk [0x1f]) := by decide
  have hjunk : ¬ gzMagic <+: [0x1f] := by decide
  exact (members_read_whatever_the_buffers oneFrame_decodes (by decide)
    (by decide) hjunk (by decide)
    hbytes 2).2.1

/-- One member, handed out with its first byte alone. -/
def loneFirst : Source := [.buffer 0x1f [], .buffer 0x8b (oneFrame.enc.drop 2)]

theorem unframe_oneFrame : (unframe (decoded [oneFrame])).1 = [[65]] := by
  have hfirst : firstFrame (decoded [oneFrame]) = some [65] := by decide
  rw [unframe_some hfirst, unframe_none (by decide)]

/-- The first byte alone hides the magic, and the file is taken for a plain one. -/
theorem lone_first_byte_hides_the_magic :
    loneFirst.bytes = encoded [oneFrame] (.junk []) ∧ Calm loneFirst ∧
      ¬ SameFrames (tableDecoder oneFrame) 3 loneFirst := by
  have hbytes : loneFirst.bytes = encoded [oneFrame] (.junk []) := by decide
  refine ⟨hbytes, by decide, fun hsame => ?_⟩
  have h := oneFrame_wellFormed 0
  rcases frameAlike_of_sameFrames oneFrame_decodes h (by decide) hbytes hsame with htwo | ⟨hps, -⟩
  · exact absurd htwo (by decide)
  · have hshort : firstFrame loneFirst.bytes = none := by decide
    have hone : (unframe (decoded (List.replicate 1 oneFrame))).1 = [[65]] := unframe_oneFrame
    rw [hone, unframe_none hshort] at hps
    cases hps

end Lobcore.MemberReads
