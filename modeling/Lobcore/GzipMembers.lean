import Lobcore.Drives

/-!
Gzip members decoded one after another (`frame.rs`, `GzMembers`). The decoder of one member is
not part of the repository; it is a parameter, with what the reader relies on as a hypothesis.
Between two members the reader takes the decoder apart, looks at the next one or two bytes and
starts another decoder, or counts what follows as trailing bytes. An interruption of that look
is reported with the decoder gone, and the next read reports the end of the input.
-/
namespace Lobcore.GzipMembers

open Payloads Readers Framing

/-- What an underlying reader hands out next: a buffer, which is not empty, or an interruption. -/
inductive Item where
  | buffer (b : UInt8) (bs : Bytes)
  | interrupted
  deriving DecidableEq, Repr

/-- An underlying reader, by what its calls for a buffer come to; after the last item the
buffers are empty. -/
abbrev Source := List Item

namespace Source

/-- The bytes of the source, whatever the buffers and the interruptions. -/
def bytes : Source → Bytes
  | [] => []
  | .buffer b bs :: src => b :: bs ++ bytes src
  | .interrupted :: src => bytes src

/-- The source with the interruptions removed. -/
def calm : Source → Source
  | [] => []
  | .buffer b bs :: src => .buffer b bs :: calm src
  | .interrupted :: src => calm src

/-- An interruption is over once it is reported; a buffer stays until it is consumed. -/
def fillBuf : Source → ReadResult IoError × Source
  | [] => (.ok [], [])
  | .buffer b bs :: src => (.ok (b :: bs), .buffer b bs :: src)
  | .interrupted :: src => (.interrupted, src)

/-- Mark one byte of the buffer as read. -/
def consumeOne : Source → Source
  | .buffer _ (b :: bs) :: src => .buffer b bs :: src
  | .buffer _ [] :: src => src
  | src => src

/-- The source after the next `n` bytes, and the interruptions before the last of them. -/
def skip : ℕ → Source → Source
  | _, [] => []
  | 0, .interrupted :: src => .interrupted :: src
  | n + 1, .interrupted :: src => skip (n + 1) src
  | n, .buffer b bs :: src =>
    match (b :: bs).drop n with
    | [] => skip (n - (bs.length + 1)) src
    | c :: cs => .buffer c cs :: src

end Source

/-- The two gzip magic bytes. -/
def gzMagic : Bytes := [0x1f, 0x8b]

/-- The decoder of one member, over an underlying reader. -/
structure GzDecoder (δ : Type) where
  new : Source → δ
  read : δ → ℕ → ReadResult IoError × δ
  intoInner : δ → Source

/-- The members of a source; the decoder is gone once the input is over. -/
structure GzMembers (δ : Type) where
  dec : Option δ

/-- Count the rest of the input, of which `n` bytes are consumed, through interruptions. -/
def drain : Source → ℕ → IoError
  | [], n => .trailingBytes n
  | .buffer _ bs :: src, n => drain src (n + (bs.length + 1))
  | .interrupted :: src, n => drain src n

namespace GzMembers

variable {δ : Type} (gz : GzDecoder δ)

def new (src : Source) : GzMembers δ := ⟨some (gz.new src)⟩

/-- After a member ended: start the next one, or count what follows and stop. The decoder `dec`
was taken out before. -/
def nextMember (dec : δ) : IoResult IoError Bool × GzMembers δ :=
  match (gz.intoInner dec).fillBuf with
  | (.interrupted, _) => (.interrupted, ⟨none⟩)
  | (.error e, _) => (.error e, ⟨none⟩)
  | (.ok [], _) => (.ok false, ⟨none⟩)
  | (.ok [first], src) =>
    match src.consumeOne.fillBuf with
    | (.interrupted, _) => (.interrupted, ⟨none⟩)
    | (.error e, _) => (.error e, ⟨none⟩)
    | (.ok second, src) =>
      if first = 0x1f ∧ second.head? = some 0x8b then
        (.ok true, ⟨some (gz.new (.buffer first [] :: src))⟩)
      else (.error (drain src 1), ⟨none⟩)
  | (.ok head, src) =>
    if head.take 2 = gzMagic then (.ok true, ⟨some (gz.new src)⟩)
    else (.error (drain src 0), ⟨none⟩)

/-- The loop of a read; `rounds` bounds the decoders it asks. -/
def readLoop : ℕ → GzMembers δ → ℕ → ReadResult IoError × GzMembers δ
  | 0, g, _ => (.interrupted, g)
  | rounds + 1, g, n =>
    match g.dec with
    | none => (.ok [], g)
    | some dec =>
      match gz.read dec n with
      | (.ok [], dec) =>
        match nextMember gz dec with
        | (.ok true, g) => readLoop rounds g n
        | (.ok false, g) => (.ok [], g)
        | (.interrupted, g) => (.interrupted, g)
        | (.error e, g) => (.error e, g)
      | (.ok chunk, dec) => (.ok chunk, ⟨some dec⟩)
      | (.interrupted, dec) => (.interrupted, ⟨some dec⟩)
      | (.error e, dec) => (.error e, ⟨some dec⟩)

/-- A read with room for `n` bytes. -/
def read (rounds : ℕ) (g : GzMembers δ) (n : ℕ) : ReadResult IoError × GzMembers δ :=
  if n = 0 then (.ok [], g) else readLoop gz rounds g n

end GzMembers

/-! Sources. -/

namespace Source

@[simp] theorem bytes_calm (src : Source) : src.calm.bytes = src.bytes := by
  induction src with
  | nil => rfl
  | cons item src ih =>
    cases item with
    | buffer b bs => exact congrArg (b :: bs ++ ·) ih
    | interrupted => exact ih

theorem skip_zero (src : Source) : src.skip 0 = src := by
  rcases src with _ | ⟨_ | _, src⟩ <;> rfl

theorem bytes_skip (n : ℕ) (src : Source) : (src.skip n).bytes = src.bytes.drop n := by
  induction src generalizing n with
  | nil => cases n <;> rfl
  | cons item src ih =>
    cases item with
    | interrupted =>
      cases n with
      | zero => rfl
      | succ n => exact ih (n + 1)
    | buffer b bs =>
      simp only [skip, bytes, List.drop_append, List.length_cons]
      split
      · rename_i hdrop
        rw [ih, hdrop, List.nil_append]
      · rename_i c cs hdrop
        have hlen := congrArg List.length hdrop
        rw [List.length_drop, List.length_cons, List.length_cons] at hlen
        rw [hdrop, show n - (bs.length + 1) = 0 by omega]
        rfl

/-- Skipping and removing the interruptions commute. -/
theorem calm_skip (n : ℕ) (src : Source) : src.calm.skip n = (src.skip n).calm := by
  induction src generalizing n with
  | nil => cases n <;> rfl
  | cons item src ih =>
    cases item with
    | interrupted =>
      cases n with
      | zero => exact skip_zero _
      | succ n => exact ih (n + 1)
    | buffer b bs =>
      simp only [skip, calm]
      split
      · exact ih _
      · rfl

/-- Looking at the next two bytes, or at the end of the input, meets no interruption. -/
def quietPeek : Source → Bool
  | .interrupted :: _ => false
  | .buffer _ [] :: .interrupted :: _ => false
  | _ => true

theorem quietPeek_calm (src : Source) : src.calm.quietPeek = true := by
  induction src with
  | nil => rfl
  | cons item src ih =>
    cases item with
    | interrupted => exact ih
    | buffer b bs =>
      rw [calm]
      cases bs with
      | cons c bs => rfl
      | nil =>
        cases hc : calm src with
        | nil => rfl
        | cons item rest =>
          cases item with
          | buffer c bs => rfl
          | interrupted =>
            rw [hc] at ih
            cases ih

end Source

theorem drain_eq (src : Source) (n : ℕ) : drain src n = .trailingBytes (n + src.bytes.length) := by
  induction src generalizing n with
  | nil => rfl
  | cons item src ih =>
    cases item with
    | buffer b bs =>
      rw [drain, ih, Source.bytes, List.length_append, List.length_cons]
      exact congrArg IoError.trailingBytes (by omega)
    | interrupted => exact ih n

/-! The look past a member. -/

section NextMember

open GzMembers

variable {δ : Type} {gz : GzDecoder δ} {dec : δ} {src : Source}

theorem magic_iff {a b : UInt8} {bs : Bytes} :
    gzMagic <+: a :: b :: bs ↔ a = 0x1f ∧ b = 0x8b := by
  simp only [gzMagic, List.cons_prefix_cons, List.nil_prefix, and_true]
  exact and_congr eq_comm eq_comm

theorem nextMember_interrupted (hdec : gz.intoInner dec = src) (hpeek : src.quietPeek = false) :
    nextMember gz dec = (.interrupted, ⟨none⟩) := by
  unfold nextMember
  rw [hdec]
  rcases src with _ | ⟨⟨b, _ | ⟨c, bs⟩⟩ | _, _ | ⟨⟨d, ds⟩ | _, src⟩⟩ <;>
    first | rfl | cases hpeek

theorem nextMember_end (hdec : gz.intoInner dec = src) (hpeek : src.quietPeek = true)
    (hbytes : src.bytes = []) : nextMember gz dec = (.ok false, ⟨none⟩) := by
  unfold nextMember
  rw [hdec]
  rcases src with _ | ⟨⟨b, bs⟩ | _, src⟩
  · rfl
  · cases hbytes
  · cases hpeek

theorem nextMember_magic (hdec : gz.intoInner dec = src) (hpeek : src.quietPeek = true)
    (hmagic : gzMagic <+: src.bytes) : nextMember gz dec = (.ok true, .new gz src) := by
  unfold nextMember
  rw [hdec]
  rcases src with _ | ⟨⟨b, _ | ⟨c, bs⟩⟩ | _, src⟩
  · cases hmagic.length_le
  · rcases src with _ | ⟨⟨c, bs⟩ | _, src⟩
    · exact absurd hmagic.length_le (Nat.not_succ_le_self 1)
    · obtain ⟨rfl, rfl⟩ := magic_iff.mp hmagic
      rfl
    · cases hpeek
  · obtain ⟨rfl, rfl⟩ := magic_iff.mp hmagic
    rfl
  · cases hpeek

theorem nextMember_junk (hdec : gz.intoInner dec = src) (hpeek : src.quietPeek = true)
    (hbytes : src.bytes ≠ []) (hmagic : ¬ gzMagic <+: src.bytes) :
    nextMember gz dec = (.error (.trailingBytes src.bytes.length), ⟨none⟩) := by
  unfold nextMember
  rw [hdec]
  rcases src with _ | ⟨⟨b, _ | ⟨c, bs⟩⟩ | _, src⟩
  · exact absurd rfl hbytes
  · rcases src with _ | ⟨⟨c, bs⟩ | _, src⟩
    · simp only [Source.fillBuf, Source.consumeOne, List.head?_nil, reduceCtorEq,
        and_false, if_false, drain_eq]
      rfl
    · have hne := mt magic_iff.mpr hmagic
      simp only [Source.fillBuf, Source.consumeOne, List.head?_cons, Option.some.injEq, if_neg hne,
        drain_eq, Source.bytes, List.length_append, List.length_cons, List.length_nil]
    · cases hpeek
  · have hne : (b :: c :: bs).take 2 ≠ gzMagic := fun htake => by
      obtain ⟨hb, htake⟩ := List.cons.inj htake
      exact hmagic (magic_iff.mpr ⟨hb, (List.cons.inj htake).1⟩)
    simp only [Source.fillBuf, if_neg hne, drain_eq, Nat.zero_add]
  · cases hpeek

end NextMember

end Lobcore.GzipMembers
