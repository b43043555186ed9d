import Mathlib.Tactic.Common

/-!
Readers, as far as a caller sees them. A call offers room for some bytes and gets a chunk, an
interruption, or the end of the input; what a reader delivers is the sequence of bytes it
hands out under whatever room is offered, whatever the chunks and the interruptions.
-/
namespace Lobcore.Readers

/-- The result of a call on a source: a value, an interruption, or an error. -/
inductive IoResult (ε α : Type) where
  | ok (value : α)
  | interrupted
  | error (e : ε)

/-- The result of a read: the bytes written, none of them at the end of the input. -/
abbrev ReadResult (ε : Type) := IoResult ε (List UInt8)

/-- The result that ends an input: no bytes, or an error. -/
def ReadResult.last {ε : Type} : Option ε → ReadResult ε
  | none => .ok []
  | some e => .error e

variable {σ ε : Type}

/-- What a result takes off the data still to come, with room for `n` bytes. -/
inductive Piece (n : ℕ) : ReadResult ε → List UInt8 → List UInt8 → Prop
  | interrupted (data : List UInt8) : Piece n .interrupted data data
  | chunk {chunk : List UInt8} (data : List UInt8) (hne : chunk ≠ []) (hlen : chunk.length ≤ n) :
    Piece n (.ok chunk) (chunk ++ data) data

/-- As many bytes of what is at hand as there is room for. -/
theorem Piece.take_front {out : List UInt8} {n : ℕ} (hout : out ≠ []) (hn : 0 < n)
    (more : List UInt8) :
    Piece n (.ok (out.take n) : ReadResult ε) (out ++ more) (out.drop n ++ more) := by
  have hne : out.take n ≠ [] := by
    intro hnil
    rcases List.take_eq_nil_iff.mp hnil with hzero | hnil
    · omega
    · exact hout hnil
  have hsplit : out ++ more = out.take n ++ (out.drop n ++ more) := by
    rw [← List.append_assoc, List.take_append_drop]
  rw [hsplit]
  exact .chunk _ hne (List.length_take_le ..)

theorem Piece.take {out : List UInt8} {n : ℕ} (hout : out ≠ []) (hn : 0 < n) :
    Piece n (.ok (out.take n) : ReadResult ε) out (out.drop n) := by
  have hpiece : Piece n (.ok (out.take n) : ReadResult ε) _ _ := Piece.take_front hout hn []
  rwa [List.append_nil, List.append_nil] at hpiece

/-- The reader hands out the data in chunks, interrupted finitely often, and then ends with a
result and a state as wanted. -/
inductive Yields (read : σ → ℕ → ReadResult ε × σ) (Ends : ReadResult ε → σ → Prop) :
    σ → List UInt8 → Prop
  | finish {s : σ} (hend : ∀ n, 0 < n → Ends (read s n).1 (read s n).2) : Yields read Ends s []
  | more {s : σ} {data : List UInt8} (rest : ℕ → List UInt8)
    (hpiece : ∀ n, 0 < n → Piece n (read s n).1 data (rest n))
    (hrest : ∀ n, 0 < n → Yields read Ends (read s n).2 (rest n)) : Yields read Ends s data

/-- The reader hands out the data and ends the input in the way given. -/
def Delivers (read : σ → ℕ → ReadResult ε × σ) (s : σ) (data : List UInt8) (last : Option ε) :
    Prop :=
  Yields read (fun r _ => r = .last last) s data

variable {read : σ → ℕ → ReadResult ε × σ} {Ends : ReadResult ε → σ → Prop}

/-- A call that is interrupted whatever the room. -/
theorem Yields.interrupted {s s' : σ} {data : List UInt8}
    (hcall : ∀ n, 0 < n → read s n = (.interrupted, s')) (hrest : Yields read Ends s' data) :
    Yields read Ends s data :=
  .more (fun _ => data) (fun n hn => by rw [hcall n hn]; exact .interrupted data)
    fun n hn => by rw [hcall n hn]; exact hrest

/-- A reader inside another one that passes its calls on. -/
theorem Delivers.embed {τ : Type} {read' : τ → ℕ → ReadResult ε × τ} {f : σ → τ} {s : σ}
    {data : List UInt8} {last : Option ε}
    (hread : ∀ s n, read' (f s) n = ((read s n).1, f (read s n).2))
    (h : Delivers read s data last) : Delivers read' (f s) data last := by
  unfold Delivers at h
  induction h with
  | @finish s hend =>
    refine .finish fun n hn => ?_
    rw [hread]
    exact hend n hn
  | @more s data rest hpiece hrest ih =>
    refine .more rest (fun n hn => ?_) fun n hn => ?_
    · rw [hread]
      exact hpiece n hn
    · rw [hread]
      exact ih n hn

end Lobcore.Readers
