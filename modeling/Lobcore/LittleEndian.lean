import Lobcore.OpsFormat
import Lobcore.Writers
import Mathlib.Data.List.GetD

/-!
Little-endian numbers in byte strings. Bytes and the number they spell determine each other, at
any offset of a record. A record that is a chain of such fields is read by skipping the fields in
front of the wanted one, and is written back field by field from its end.
-/
namespace Lobcore.LittleEndian

open OrderTypes OpsFormat Writers

theorem leNat_leBytes (k n : ℕ) : leNat (leBytes k n) = n % 256 ^ k := by
  induction k generalizing n with
  | zero => simp only [leBytes, leNat, pow_zero, Nat.mod_one]
  | succ k ih => rw [leBytes, leNat, ih, last_byte]

theorem leBytes_leNat (bs : List UInt8) : leBytes bs.length (leNat bs) = bs := by
  induction bs with
  | nil => simp only [leBytes, List.length_nil]
  | cons b bs ih =>
    have hb := b.toNat_lt
    have hlow : (b.toNat + 256 * leNat bs) % 256 = b.toNat := by omega
    have hhigh : (b.toNat + 256 * leNat bs) / 256 = leNat bs := by omega
    simp only [List.length_cons, leNat, leBytes, hlow, hhigh, ih, UInt8.ofNat_toNat]

theorem leNat_lt (bs : List UInt8) : leNat bs < 256 ^ bs.length := by
  induction bs with
  | nil => simp [leNat]
  | cons b bs ih =>
    have hb := b.toNat_lt
    simp only [leNat, List.length_cons, pow_succ']
    omega

/-! Reading behind other fields. -/

section At

variable {b : UInt8} {bs : List UInt8} {off k n : ℕ}

theorem leAt_cons : leAt (b :: bs) (off + 1) n = leAt bs off n := by
  simp only [leAt, List.drop_succ_cons]

theorem leAt_skip {m : ℕ} (h : k ≤ off) :
    leAt (leBytes k m ++ bs) off n = leAt bs (off - k) n := by
  have hlen := length_leBytes k m
  rw [leAt, leAt, List.drop_append, List.drop_eq_nil_of_le (by omega), hlen, List.nil_append]

theorem leAt_here (k m : ℕ) (bs : List UInt8) : leAt (leBytes k m ++ bs) 0 k = m % 256 ^ k := by
  rw [leAt, List.drop_zero, List.take_left' (length_leBytes k m), leNat_leBytes]

theorem leAt_last (k m : ℕ) : leAt (leBytes k m) 0 k = m % 256 ^ k := by
  rw [← leAt_here k m [], List.append_nil]

theorem getD_skip {m : ℕ} (h : k ≤ off) :
    (leBytes k m ++ bs).getD off b = bs.getD (off - k) b := by
  rw [List.getD_append_right _ _ _ _ (by rw [length_leBytes]; exact h), length_leBytes]

theorem leAt_lt (h : off + n ≤ bs.length) : leAt bs off n < 256 ^ n := by
  have hlen : ((bs.drop off).take n).length = n := by
    rw [List.length_take, List.length_drop]
    omega
  exact lt_of_lt_of_eq (leNat_lt _) (by rw [hlen])

/-- A field written back in front of what follows it. -/
theorem leBytes_leAt (h : off + n ≤ bs.length) :
    leBytes n (leAt bs off n) ++ bs.drop (off + n) = bs.drop off := by
  have hlen : ((bs.drop off).take n).length = n := by
    rw [List.length_take, List.length_drop]
    omega
  have hback := leBytes_leNat ((bs.drop off).take n)
  rw [hlen] at hback
  rw [leAt, hback, ← List.drop_drop, List.take_append_drop]

theorem getD_drop (h : off < bs.length) :
    bs.getD off b :: bs.drop (off + 1) = bs.drop off := by
  rw [List.getD_eq_getElem _ _ h, ← List.drop_eq_getElem_cons h]

end At

/-! Numbers of the code's widths. -/

section Widths

variable {bs : List UInt8} {off : ℕ}

def u16Le (bytes : List UInt8) (off : ℕ) : UInt16 := .ofNat (leAt bytes off 2)

theorem ofNat_mod_u64 (x : UInt64) : UInt64.ofNat (x.toNat % 256 ^ 8) = x := by
  have hlt : x.toNat < 256 ^ 8 := x.toNat_lt
  rw [Nat.mod_eq_of_lt hlt, UInt64.ofNat_toNat]

theorem ofNat_mod_u32 (x : UInt32) : UInt32.ofNat (x.toNat % 256 ^ 4) = x := by
  have hlt : x.toNat < 256 ^ 4 := x.toNat_lt
  rw [Nat.mod_eq_of_lt hlt, UInt32.ofNat_toNat]

theorem ofNat_mod_u16 (x : UInt16) : UInt16.ofNat (x.toNat % 256 ^ 2) = x := by
  have hlt : x.toNat < 256 ^ 2 := x.toNat_lt
  rw [Nat.mod_eq_of_lt hlt, UInt16.ofNat_toNat]

theorem leBytes_u64Le (h : off + 8 ≤ bs.length) :
    leBytes 8 (u64Le bs off).toNat ++ bs.drop (off + 8) = bs.drop off := by
  have hlt : leAt bs off 8 < 256 ^ 8 := leAt_lt h
  rw [u64Le, UInt64.toNat_ofNat_of_lt' hlt, leBytes_leAt h]

theorem leBytes_u32Le (h : off + 4 ≤ bs.length) :
    leBytes 4 (u32Le bs off).toNat ++ bs.drop (off + 4) = bs.drop off := by
  have hlt : leAt bs off 4 < 256 ^ 4 := leAt_lt h
  rw [u32Le, UInt32.toNat_ofNat_of_lt' hlt, leBytes_leAt h]

theorem leBytes_u16Le (h : off + 2 ≤ bs.length) :
    leBytes 2 (u16Le bs off).toNat ++ bs.drop (off + 2) = bs.drop off := by
  have hlt : leAt bs off 2 < 256 ^ 2 := leAt_lt h
  rw [u16Le, UInt16.toNat_ofNat_of_lt' hlt, leBytes_leAt h]

end Widths

end Lobcore.LittleEndian
