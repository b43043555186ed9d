import Mathlib.Order.Bounds.Basic
import Mathlib.Tactic.Common

/-!
Words as sets of bit positions: the highest and lowest member, the masks of the
positions below and above a given one, and what setting or clearing one bit does.
-/
namespace Lobcore.WordBits

variable {w : ℕ} {x : BitVec w}

/-- The positions of the bits that are on. -/
def bits (x : BitVec w) : Set ℕ := {j | x.getLsbD j = true}

theorem mem_bits {j : ℕ} : j ∈ bits x ↔ x.getLsbD j = true := Iff.rfl

theorem lt_of_mem_bits {j : ℕ} (h : j ∈ bits x) : j < w := BitVec.lt_of_getLsbD h

theorem bits_zero : bits (0#w) = ∅ := by
  ext j
  simp [bits]

/-- A word is the set of its bits. -/
theorem eq_of_bits_eq {y : BitVec w} (h : bits x = bits y) : x = y := by
  apply BitVec.eq_of_getLsbD_eq
  intro j _
  have hj := Set.ext_iff.mp h j
  rw [mem_bits, mem_bits] at hj
  exact Bool.eq_iff_iff.mpr hj

theorem ne_zero_iff : x ≠ 0#w ↔ ∃ j, j ∈ bits x := by
  constructor
  · intro hx
    exact ⟨_, BitVec.getLsbD_true_ctz_of_ne_zero hx⟩
  · rintro ⟨j, hj⟩ rfl
    simp [bits] at hj

/-- `w - 1 - leading_zeros` is the highest bit of a non-zero word. -/
theorem isGreatest_clz (hx : x ≠ 0#w) : IsGreatest (bits x) (w - 1 - x.clz.toNat) := by
  have hw : 0 < w := by
    obtain ⟨j, hj⟩ := ne_zero_iff.mp hx
    exact Nat.lt_of_le_of_lt (Nat.zero_le j) (lt_of_mem_bits hj)
  refine ⟨BitVec.getLsbD_true_clz_of_ne_zero hw hx, ?_⟩
  intro j hj
  by_contra hlt
  have hbound : x.toNat < 2 ^ j := by
    refine lt_of_lt_of_le BitVec.toNat_lt_two_pow_sub_clz (Nat.pow_le_pow_right (by omega) ?_)
    omega
  have hoff : x.getLsbD j = false := Nat.testBit_lt_two_pow hbound
  exact absurd (mem_bits.mp hj) (by simp [hoff])

/-- `trailing_zeros` is the lowest bit of a non-zero word. -/
theorem isLeast_ctz (hx : x ≠ 0#w) : IsLeast (bits x) x.ctz.toNat := by
  refine ⟨BitVec.getLsbD_true_ctz_of_ne_zero hx, ?_⟩
  intro j hj
  by_contra hlt
  exact absurd (mem_bits.mp hj) (by simp [BitVec.getLsbD_false_of_lt_ctz (not_le.mp hlt)])

theorem clz_lt (hx : x ≠ 0#w) : x.clz.toNat < w := by
  have hlt := BitVec.clz_lt_iff_ne_zero.mpr hx
  rw [BitVec.lt_def, BitVec.natCast_eq_ofNat, BitVec.toNat_ofNat] at hlt
  exact lt_of_lt_of_le hlt (Nat.mod_le _ _)

theorem getLsbD_one_shiftLeft {k j : ℕ} (hk : k < w) :
    (1#w <<< k).getLsbD j = decide (j = k) := by
  simp only [BitVec.getLsbD_shiftLeft, BitVec.getLsbD_one]
  by_cases hj : j = k
  · subst hj
    simp [hk]
    omega
  · simp only [hj, decide_false]
    by_cases hlt : j < k
    · simp [hlt]
    · have : j - k ≠ 0 := by omega
      simp [this]

theorem bits_or_bit {k : ℕ} (hk : k < w) : bits (x ||| 1#w <<< k) = insert k (bits x) := by
  ext j
  simp [bits, getLsbD_one_shiftLeft hk, or_comm]

theorem bits_and_not_bit {k : ℕ} (hk : k < w) : bits (x &&& ~~~(1#w <<< k)) = bits x \ {k} := by
  ext j
  simp only [mem_bits, BitVec.getLsbD_and, BitVec.getLsbD_not, getLsbD_one_shiftLeft hk,
    Bool.and_eq_true, Bool.not_eq_true', decide_eq_true_eq, decide_eq_false_iff_not,
    Set.mem_sdiff, Set.mem_singleton_iff]
  exact ⟨fun h => ⟨h.1, h.2.2⟩, fun h => ⟨h.1, lt_of_mem_bits (mem_bits.mpr h.1), h.2⟩⟩

/-- `(1 << k) - 1` has the positions below `k`. -/
theorem getLsbD_below {k j : ℕ} (hk : k < w) :
    (1#w <<< k - 1#w).getLsbD j = decide (j < k) := by
  have hpow : 2 ^ k < 2 ^ w := Nat.pow_lt_pow_right (by omega) hk
  have hone : 1 < 2 ^ w := Nat.one_lt_two_pow (by omega)
  have hpos : 0 < 2 ^ k := Nat.two_pow_pos k
  have hval : (1#w <<< k - 1#w).toNat = 2 ^ k - 1 := by
    rw [BitVec.toNat_sub_of_le]
    · simp [Nat.shiftLeft_eq, Nat.mod_eq_of_lt hpow, Nat.mod_eq_of_lt hone]
    · rw [BitVec.le_def]
      simpa [Nat.shiftLeft_eq, Nat.mod_eq_of_lt hpow,
        Nat.mod_eq_of_lt hone] using Nat.succ_le_of_lt hpos
  rw [BitVec.getLsbD, hval, Nat.testBit_two_pow_sub_one]

theorem bits_and_below {k : ℕ} (hk : k < w) :
    bits (x &&& (1#w <<< k - 1#w)) = {j | j ∈ bits x ∧ j < k} := by
  ext j
  simp [bits, getLsbD_below hk]

/-- `!((2 << k) - 1)` has the positions above `k`. -/
theorem bits_and_above {k : ℕ} (hk : k + 1 < w) :
    bits (x &&& ~~~(2#w <<< k - 1#w)) = {j | j ∈ bits x ∧ k < j} := by
  have htwo : 2#w <<< k = 1#w <<< (k + 1) := by
    apply BitVec.eq_of_toNat_eq
    have hlow : 2 < 2 ^ w := by
      calc 2 = 2 ^ 1 := rfl
        _ < 2 ^ w := Nat.pow_lt_pow_right (by omega) (by omega)
    simp only [BitVec.toNat_shiftLeft, BitVec.toNat_ofNat, Nat.shiftLeft_eq,
      Nat.mod_eq_of_lt hlow, Nat.mod_eq_of_lt (show 1 < 2 ^ w by omega)]
    rw [Nat.pow_succ, Nat.one_mul, Nat.mul_comm]
  ext j
  simp only [mem_bits, BitVec.getLsbD_and, BitVec.getLsbD_not, htwo, getLsbD_below hk,
    Bool.and_eq_true, Bool.not_eq_true', decide_eq_true_eq, decide_eq_false_iff_not,
    Set.mem_ofPred_eq]
  constructor
  · exact fun h => ⟨h.1, by omega⟩
  · exact fun h => ⟨h.1, lt_of_mem_bits (mem_bits.mpr h.1), by omega⟩

end Lobcore.WordBits
