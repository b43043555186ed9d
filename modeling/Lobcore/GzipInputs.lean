import Lobcore.GzipMembers

/-!
Gzip inputs: members, and what follows them. From a decoder that decodes one member at a time
and passes interruptions through, the reader delivers the members one after another, up to the
first interrupted look past one of them.
-/
namespace Lobcore.GzipInputs

open Payloads Readers Framing GzipMembers

structure Member where
  enc : Bytes
  out : Bytes

/-- What follows the members: bytes that are no member, or one that the decoder gives up. -/
inductive Tail where
  | junk (bytes : Bytes)
  | broken (bytes out : Bytes) (e : IoError)

namespace Tail

def bytes : Tail → Bytes
  | junk bytes => bytes
  | broken bytes _ _ => bytes

/-- The bytes decoded from the tail. -/
def out : Tail → Bytes
  | junk _ => []
  | broken _ out _ => out

/-- How the input ends. -/
def last : Tail → Option IoError
  | junk [] => none
  | junk (b :: bs) => some (.trailingBytes (b :: bs).length)
  | broken _ _ e => some e

end Tail

def encoded (members : List Member) (tail : Tail) : Bytes :=
  (members.map Member.enc).flatten ++ tail.bytes

def decoded (members : List Member) : Bytes := (members.map Member.out).flatten

variable {δ : Type}

/-- The decoder hands out `out` from where it is, and ends with its reader at `src`. -/
def Decodes (gz : GzDecoder δ) (dec : δ) (out : Bytes) (src : Source) : Prop :=
  Yields gz.read (fun r dec => r = .ok [] ∧ gz.intoInner dec = src) dec out

/-- What the reader relies on. A decoder decodes one member from the front of its reader and
leaves the reader right after it; of a member that is cut or corrupt it decodes a part, and
fails. An interruption is passed through, with nothing lost. -/
structure Faithful (gz : GzDecoder δ) (IsMember : Bytes → Bytes → Prop)
    (IsBroken : Bytes → Bytes → IoError → Prop) : Prop where
  member_magic : ∀ {enc out}, IsMember enc out → gzMagic <+: enc
  member : ∀ {enc out rest} {src : Source}, IsMember enc out → src.bytes = enc ++ rest →
    Decodes gz (gz.new src) out (src.skip enc.length)
  broken_magic : ∀ {bytes out e}, IsBroken bytes out e → gzMagic <+: bytes
  broken_error : ∀ {bytes out e}, IsBroken bytes out e → e = .unexpectedEof ∨ e = .other
  broken : ∀ {bytes out e} {src : Source}, IsBroken bytes out e → src.bytes = bytes →
    Delivers gz.read (gz.new src) out (some e)

/-- What of it is relied on for some sources only. -/
structure FaithfulOn (P : Source → Prop) (gz : GzDecoder δ) (IsMember : Bytes → Bytes → Prop)
    (IsBroken : Bytes → Bytes → IoError → Prop) : Prop where
  member_magic : ∀ {enc out}, IsMember enc out → gzMagic <+: enc
  member : ∀ {enc out rest} {src : Source}, P src → IsMember enc out → src.bytes = enc ++ rest →
    Decodes gz (gz.new src) out (src.skip enc.length)
  broken_magic : ∀ {bytes out e}, IsBroken bytes out e → gzMagic <+: bytes
  broken : ∀ {bytes out e} {src : Source}, P src → IsBroken bytes out e → src.bytes = bytes →
    Delivers gz.read (gz.new src) out (some e)
  skip : ∀ {src : Source} (n : ℕ), P src → P (src.skip n)

theorem Faithful.on {gz : GzDecoder δ} {IsMember : Bytes → Bytes → Prop}
    {IsBroken : Bytes → Bytes → IoError → Prop} (h : Faithful gz IsMember IsBroken) :
    FaithfulOn (fun _ => True) gz IsMember IsBroken where
  member_magic := h.member_magic
  member _ hm hsrc := h.member hm hsrc
  broken_magic := h.broken_magic
  broken _ hb hsrc := h.broken hb hsrc
  skip _ _ := trivial

/-- A gzip input: members, then trailing bytes that are not another member, or a broken one. -/
structure WellFormed (IsMember : Bytes → Bytes → Prop) (IsBroken : Bytes → Bytes → IoError → Prop)
    (members : List Member) (tail : Tail) : Prop where
  member : ∀ m ∈ members, IsMember m.enc m.out
  junk : ∀ bytes, tail = .junk bytes → members ≠ [] ∧ ¬ gzMagic <+: bytes
  broken : ∀ bytes out e, tail = .broken bytes out e → IsBroken bytes out e

/-- What is heard of the input, and how it seems to end: the first interrupted look past a
member ends it. -/
def heard : Source → List Member → Tail → Bytes × Option IoError
  | _, [], tail => (tail.out, tail.last)
  | src, m :: members, tail =>
    if (src.skip m.enc.length).quietPeek then
      let rest := heard (src.skip m.enc.length) members tail
      (m.out ++ rest.1, rest.2)
    else (m.out, none)

section Reading

open GzMembers

variable {gz : GzDecoder δ} {g : GzMembers δ} {data : Bytes} {last : Option IoError}

/-- What a read with some rounds left comes to, while the reads after it have `rounds`. -/
def Serves (gz : GzDecoder δ) (rounds left : ℕ) (g : GzMembers δ) (data : Bytes)
    (last : Option IoError) : Prop :=
  (data = [] ∧ ∀ n, 0 < n → (readLoop gz left g n).1 = .last last) ∨
    ∃ rest : ℕ → Bytes, ∀ n, 0 < n → Piece n (readLoop gz left g n).1 data (rest n) ∧
      Delivers (read gz rounds) (readLoop gz left g n).2 (rest n) last

theorem read_pos {n : ℕ} (hn : 0 < n) (rounds : ℕ) (g : GzMembers δ) :
    read gz rounds g n = readLoop gz rounds g n := if_neg (Nat.ne_of_gt hn)

theorem Serves.delivers {rounds : ℕ} (h : Serves gz rounds rounds g data last) :
    Delivers (read gz rounds) g data last := by
  rcases h with ⟨rfl, hlast⟩ | ⟨rest, hrest⟩
  · exact .finish fun n hn => by rw [read_pos hn, hlast n hn]
  · exact .more rest (fun n hn => by rw [read_pos hn]; exact (hrest n hn).1)
      fun n hn => by rw [read_pos hn]; exact (hrest n hn).2

theorem Delivers.serves {rounds : ℕ} (h : Delivers (read gz rounds) g data last) :
    Serves gz rounds 0 g data last :=
  Or.inr ⟨fun _ => data, fun _ _ => ⟨.interrupted data, h⟩⟩

/-- Once the decoder is gone the input is over. -/
theorem delivers_gone (rounds : ℕ) : Delivers (read gz (rounds + 1)) ⟨none⟩ [] none :=
  .finish fun n hn => by rw [read_pos hn]; rfl

/-- What a decoder hands out is read; then comes whatever is read at its end. -/
theorem serves_yields {Ends : ReadResult IoError → δ → Prop} {rounds : ℕ} {dec : δ} {out : Bytes}
    (hout : Yields gz.read Ends dec out)
    (hend : ∀ dec, (∀ n, 0 < n → Ends (gz.read dec n).1 (gz.read dec n).2) →
      ∀ left, Serves gz (rounds + 1) (left + 1) ⟨some dec⟩ data last) (left : ℕ) :
    Serves gz (rounds + 1) (left + 1) ⟨some dec⟩ (out ++ data) last := by
  induction hout generalizing left with
  | finish hends => exact hend _ hends left
  | @more dec out rest hpiece hrest ih =>
    refine Or.inr ⟨fun n => rest n ++ data, fun n hn => ?_⟩
    have hnext := hpiece n hn
    have hgo := (ih n hn rounds).delivers
    rcases hr : gz.read dec n with ⟨r, dec₁⟩
    rw [hr] at hnext hgo
    simp only [readLoop, hr]
    generalize rest n = out₁ at hnext hgo
    cases hnext with
    | interrupted => exact ⟨.interrupted _, hgo⟩
    | @chunk chunk _ hne hlen =>
      obtain ⟨b, bs, rfl⟩ := List.exists_cons_of_ne_nil hne
      rw [List.append_assoc]
      exact ⟨.chunk _ hne hlen, hgo⟩

/-- The end of a member: the look past it decides. -/
theorem serves_next {rounds : ℕ} {dec : δ} {src : Source} {r : IoResult IoError Bool}
    (hend : ∀ n, 0 < n → (gz.read dec n).1 = .ok [] ∧ gz.intoInner (gz.read dec n).2 = src)
    (hnext : ∀ dec, gz.intoInner dec = src → nextMember gz dec = (r, g))
    (hafter : match r with
      | .ok true => ∀ left, Serves gz (rounds + 1) (left + 1) g data last
      | .ok false => data = [] ∧ last = none
      | .interrupted => Delivers (read gz (rounds + 1)) g data last
      | .error e => data = [] ∧ last = some e) (left : ℕ) :
    Serves gz (rounds + 1) (left + 1) ⟨some dec⟩ data last := by
  have hloop : ∀ n, 0 < n → readLoop gz (left + 1) ⟨some dec⟩ n = match r with
      | .ok true => readLoop gz left g n
      | .ok false => (.ok [], g)
      | .interrupted => (.interrupted, g)
      | .error e => (.error e, g) := by
    intro n hn
    obtain ⟨hr, hinner⟩ := hend n hn
    rcases hread : gz.read dec n with ⟨r', dec₁⟩
    rw [hread] at hr hinner
    obtain rfl : r' = .ok [] := hr
    simp only [readLoop, hread, hnext dec₁ hinner]
    rcases r with ⟨_ | _⟩ | _ | e <;> rfl
  rcases r with ⟨_ | _⟩ | _ | e
  · obtain ⟨rfl, rfl⟩ := hafter
    exact Or.inl ⟨rfl, fun n hn => by rw [hloop n hn]; rfl⟩
  · have hserves : Serves gz (rounds + 1) left g data last := by
      cases left with
      | zero => exact Delivers.serves (hafter rounds).delivers
      | succ left => exact hafter left
    rcases hserves with ⟨rfl, hlast⟩ | ⟨rest, hrest⟩
    · exact Or.inl ⟨rfl, fun n hn => by rw [hloop n hn]; exact hlast n hn⟩
    · exact Or.inr ⟨rest, fun n hn => by rw [hloop n hn]; exact hrest n hn⟩
  · exact Or.inr ⟨fun _ => data, fun n hn => by rw [hloop n hn]; exact ⟨.interrupted data, hafter⟩⟩
  · obtain ⟨rfl, rfl⟩ := hafter
    exact Or.inl ⟨rfl, fun n hn => by rw [hloop n hn]; rfl⟩

variable {IsMember : Bytes → Bytes → Prop} {IsBroken : Bytes → Bytes → IoError → Prop}
variable {members : List Member} {tail : Tail} {src : Source} {P : Source → Prop}

theorem serves_broken {bytes out : Bytes} {e : IoError} (hgz : FaithfulOn P gz IsMember IsBroken)
    (hP : P src) (hbroken : IsBroken bytes out e) (hsrc : src.bytes = bytes) (rounds left : ℕ) :
    Serves gz (rounds + 1) (left + 1) (.new gz src) out (some e) := by
  have hyields : Serves gz (rounds + 1) (left + 1) (.new gz src) (out ++ []) (some e) :=
    serves_yields
    (hgz.broken hP hbroken hsrc) (fun dec hend left => ?_) left
  · rwa [List.append_nil] at hyields
  · refine Or.inl ⟨rfl, fun n hn => ?_⟩
    have hr := hend n hn
    rcases hread : gz.read dec n with ⟨r', dec₁⟩
    rw [hread] at hr
    obtain rfl : r' = .error e := hr
    simp only [readLoop, hread]
    rfl

theorem WellFormed.rest {m : Member} (h : WellFormed IsMember IsBroken (m :: members) tail)
    (hrest : members ≠ [] ∨ ∀ bytes, tail ≠ .junk bytes) :
    WellFormed IsMember IsBroken members tail where
  member m' hm' := h.member m' (List.mem_cons_of_mem m hm')
  junk bytes htail :=
    ⟨hrest.resolve_right fun hne => hne bytes htail, (h.junk bytes htail).2⟩
  broken := h.broken

/-- An input that starts with a member, or a broken one, starts with the magic bytes. -/
theorem encoded_magic (hgz : FaithfulOn P gz IsMember IsBroken)
    (h : WellFormed IsMember IsBroken members tail) : gzMagic <+: encoded members tail := by
  cases members with
  | cons m members =>
    have hmagic := hgz.member_magic (h.member m (List.mem_cons_self ..))
    exact hmagic.trans ⟨_, by rw [encoded, List.map_cons, List.flatten_cons, List.append_assoc]⟩
  | nil =>
    cases htail : tail with
    | junk bytes => exact absurd rfl (h.junk bytes htail).1
    | broken bytes out e => exact hgz.broken_magic (h.broken bytes out e htail)

theorem members_serve (hgz : FaithfulOn P gz IsMember IsBroken) (hP : P src)
    (h : WellFormed IsMember IsBroken members tail) (hsrc : src.bytes = encoded members tail)
    (rounds left : ℕ) :
    Serves gz (rounds + 1) (left + 1) (.new gz src) (heard src members tail).1
      (heard src members tail).2 := by
  induction members generalizing src left with
  | nil =>
    cases htail : tail with
    | junk bytes => exact absurd rfl (h.junk bytes htail).1
    | broken bytes out e =>
      rw [htail] at hsrc
      exact serves_broken hgz hP (h.broken bytes out e htail) hsrc rounds left
  | cons m members ih =>
    have hbytes : src.bytes = m.enc ++ encoded members tail := by
      rw [hsrc, encoded, List.map_cons, List.flatten_cons, List.append_assoc]
      rfl
    have hleft : (src.skip m.enc.length).bytes = encoded members tail := by
      rw [Source.bytes_skip, hbytes, List.drop_left]
    have hdecodes := hgz.member hP (h.member m (List.mem_cons_self ..)) hbytes
    have hP₁ := hgz.skip m.enc.length hP
    rw [heard]
    generalize src.skip m.enc.length = src₁ at hleft hdecodes hP₁
    cases hpeek : src₁.quietPeek with
    | false =>
      have hserves : Serves gz (rounds + 1) (left + 1) (.new gz src) (m.out ++ []) none :=
        serves_yields hdecodes
          (fun dec hend => serves_next hend (fun dec hdec => nextMember_interrupted hdec hpeek)
          (delivers_gone rounds)) left
      rwa [List.append_nil] at hserves
    | true =>
      refine serves_yields hdecodes (fun dec hend => ?_) left
      by_cases hmore : members ≠ [] ∨ ∀ bytes, tail ≠ .junk bytes
      · have hrest := h.rest hmore
        exact serves_next hend (fun dec hdec => nextMember_magic hdec hpeek
          (hleft ▸ encoded_magic hgz hrest)) fun left => ih hP₁ hrest hleft left
      · obtain ⟨hnil, bytes, hjunk⟩ : members = [] ∧ ∃ bytes, tail = .junk bytes := by
          push Not at hmore
          exact hmore
        subst hnil hjunk
        obtain ⟨-, hmagic⟩ := h.junk bytes rfl
        replace hleft : src₁.bytes = bytes := hleft
        cases bytes with
        | nil => exact serves_next hend (fun dec hdec => nextMember_end hdec hpeek hleft) ⟨rfl, rfl⟩
        | cons b bs =>
          rw [← hleft] at hmagic
          refine serves_next hend (fun dec hdec => nextMember_junk hdec hpeek
            (by rw [hleft]; exact List.cons_ne_nil b bs) hmagic) ⟨rfl, ?_⟩
          rw [hleft]
          rfl

/-- The members of a source are read, up to the first interrupted look past one of them. -/
theorem members_deliver (hgz : FaithfulOn P gz IsMember IsBroken) (hP : P src)
    (h : WellFormed IsMember IsBroken members tail) (hsrc : src.bytes = encoded members tail)
    (rounds : ℕ) :
    Delivers (read gz (rounds + 1)) (.new gz src) (heard src members tail).1
      (heard src members tail).2 :=
  (members_serve hgz hP h hsrc rounds rounds).delivers

end Reading

end Lobcore.GzipInputs
