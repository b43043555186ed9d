import Lobcore.Checked
import Lobcore.WordBits

/-!
The two-level occupancy bitmap (`levels.rs`) and the finite set it stands for: one bit
for each index, and one summary bit for each word that is not zero. Every operation
reads or changes the set as its name says, without a shift overflow or a word out of range.
-/
namespace Lobcore.Bitmaps

open Checked WordBits

/-- Largest supported window; one summary word covers 64 words of 64 bits. -/
def maxLevels : ℕ := 4096

abbrev Word := BitVec 64

/-- `x << k`, which panics when the amount reaches the width. -/
def shl (x : Word) (k : ℕ) : Exec Word :=
  if k < 64 then .ok (x <<< k) else .error .overflow

/-- `x >> k`, which panics when the amount reaches the width. -/
def shr (x : Word) (k : ℕ) : Exec Word :=
  if k < 64 then .ok (x >>> k) else .error .overflow

/-- `(x << k) - 1`. -/
def lowMask (x : Word) (k : ℕ) : Exec Word := do
  let y ← shl x k
  if y = 0#64 then .error .overflow else .ok (y - 1#64)

structure Bitmap where
  words : List Word
  summary : Word
  deriving DecidableEq

namespace Bitmap

def new (n : ℕ) : Exec Bitmap := do
  ensure (n ≤ maxLevels)
  return ⟨List.replicate ((n + 63) / 64) 0#64, 0#64⟩

def set (b : Bitmap) (i : ℕ) : Exec Bitmap := do
  let w := i / 64
  let word ← index b.words w
  let bit ← shl 1#64 (i % 64)
  let words ← store b.words w (word ||| bit)
  let mark ← shl 1#64 w
  return ⟨words, b.summary ||| mark⟩

def clear (b : Bitmap) (i : ℕ) : Exec Bitmap := do
  let w := i / 64
  let word ← index b.words w
  let bit ← shl 1#64 (i % 64)
  let words ← store b.words w (word &&& ~~~bit)
  if word &&& ~~~bit = 0#64 then
    let mark ← shl 1#64 w
    return ⟨words, b.summary &&& ~~~mark⟩
  else
    return ⟨words, b.summary⟩

def isSet (b : Bitmap) (i : ℕ) : Exec Bool := do
  let word ← index b.words (i / 64)
  return (word >>> (i % 64)) &&& 1#64 = 1#64

/-- Highest set index: two `leading_zeros`, no scan. -/
def max (b : Bitmap) : Exec (Option ℕ) := do
  if b.summary = 0#64 then return none
  let w ← subU 63 b.summary.clz.toNat
  let word ← index b.words w
  let bit ← subU 63 word.clz.toNat
  return some (w * 64 + bit)

/-- Lowest set index: two `trailing_zeros`, no scan. -/
def min (b : Bitmap) : Exec (Option ℕ) := do
  if b.summary = 0#64 then return none
  let w := b.summary.ctz.toNat
  let word ← index b.words w
  return some (w * 64 + word.ctz.toNat)

def prevLoop (b : Bitmap) : ℕ → ℕ → Word → Exec (Option ℕ)
  | 0, _, _ => .error .unfinished
  | fuel + 1, w, word => do
    if word ≠ 0#64 then
      let bit ← subU 63 word.clz.toNat
      return some (w * 64 + bit)
    if w = 0 then return none
    let mask ← lowMask 1#64 w
    let below := b.summary &&& mask
    if below = 0#64 then return none
    let w ← subU 63 below.clz.toNat
    let word ← index b.words w
    b.prevLoop fuel w word

/-- The bits of word `w` below `bit`. -/
def wordBelow (b : Bitmap) (w bit : ℕ) : Exec Word := do
  if bit = 0 then return 0#64
  let word ← index b.words w
  let mask ← lowMask 1#64 bit
  return word &&& mask

/-- Next set index strictly below `i`; the word index falls on every turn of the loop. -/
def prevSet (b : Bitmap) (i : ℕ) : Exec (Option ℕ) := do
  let word ← b.wordBelow (i / 64) (i % 64)
  b.prevLoop (i / 64 + 2) (i / 64) word

def nextLoop (b : Bitmap) : ℕ → ℕ → Word → Exec (Option ℕ)
  | 0, _, _ => .error .unfinished
  | fuel + 1, w, word => do
    if word ≠ 0#64 then return some (w * 64 + word.ctz.toNat)
    if 63 ≤ w then return none
    let mask ← lowMask 2#64 w
    let above := b.summary &&& ~~~mask
    if above = 0#64 then return none
    let w := above.ctz.toNat
    let word ← index b.words w
    b.nextLoop fuel w word

/-- The bits of word `w` above `bit`. -/
def wordAbove (b : Bitmap) (w bit : ℕ) : Exec Word := do
  if bit = 63 then return 0#64
  let word ← index b.words w
  let mask ← lowMask 2#64 bit
  return word &&& ~~~mask

/-- Next set index strictly above `i`; the word index rises on every turn of the loop. -/
def nextSet (b : Bitmap) (i : ℕ) : Exec (Option ℕ) := do
  let word ← b.wordAbove (i / 64) (i % 64)
  b.nextLoop (66 - i / 64) (i / 64) word

/-- The set a bitmap stands for. -/
def members (b : Bitmap) : Set ℕ :=
  {i | ∃ word, b.words[i / 64]? = some word ∧ i % 64 ∈ bits word}

structure WF (b : Bitmap) (n : ℕ) : Prop where
  bound : n ≤ maxLevels
  length_eq : b.words.length = (n + 63) / 64
  summary_iff : ∀ k, k ∈ bits b.summary ↔ ∃ word, b.words[k]? = some word ∧ word ≠ 0#64
  lt_of_mem : ∀ i ∈ b.members, i < n

end Bitmap

/-- The value of a search for the largest member. -/
def IsMax (s : Set ℕ) : Option ℕ → Prop
  | none => s = ∅
  | some k => IsGreatest s k

/-- The value of a search for the smallest member. -/
def IsMin (s : Set ℕ) : Option ℕ → Prop
  | none => s = ∅
  | some k => IsLeast s k

theorem shl_ok {x : Word} {k : ℕ} (h : k < 64) : shl x k = .ok (x <<< k) := if_pos h

theorem shr_ok {x : Word} {k : ℕ} (h : k < 64) : shr x k = .ok (x >>> k) := if_pos h

theorem lowMask_one {k : ℕ} (h : k < 64) : lowMask 1#64 k = .ok (1#64 <<< k - 1#64) := by
  have hne : (1#64 <<< k) ≠ 0#64 := ne_zero_iff.mpr ⟨k, by simp [bits, getLsbD_one_shiftLeft h]⟩
  simp only [lowMask, shl_ok h, ok_bind]
  exact if_neg hne

theorem lowMask_two {k : ℕ} (h : k < 63) : lowMask 2#64 k = .ok (2#64 <<< k - 1#64) := by
  have hne : (2#64 <<< k) ≠ 0#64 := by
    refine ne_zero_iff.mpr ⟨k + 1, ?_⟩
    simp only [mem_bits, BitVec.getLsbD_shiftLeft, show k + 1 < 64 by omega, decide_true,
      show ¬ k + 1 < k by omega, decide_false, Bool.not_false, Bool.true_and]
    rw [show k + 1 - k = 1 by omega]
    decide
  simp only [lowMask, shl_ok (show k < 64 by omega), ok_bind]
  exact if_neg hne

namespace Bitmap

variable {b : Bitmap} {n : ℕ}

theorem mem_members {i : ℕ} :
    i ∈ b.members ↔ ∃ word, b.words[i / 64]? = some word ∧ i % 64 ∈ bits word := Iff.rfl

theorem new_spec (hn : n ≤ maxLevels) : ∃ b, new n = .ok b ∧ b.WF n ∧ b.members = ∅ := by
  have hbits : ∀ k word, (List.replicate ((n + 63) / 64) 0#64)[k]? = some word →
      word = 0#64 := fun k word h => List.eq_of_mem_replicate (List.mem_of_getElem? h)
  have hempty : members ⟨List.replicate ((n + 63) / 64) 0#64, 0#64⟩ = ∅ := by
    ext i
    simp only [mem_members, Set.mem_empty_iff_false, iff_false, not_exists, not_and]
    intro word hword hmem
    rw [hbits _ _ hword, bits_zero] at hmem
    exact hmem
  refine ⟨_, by simp only [new, ensure_ok hn, ok_bind]; rfl, ⟨hn, by simp, ?_, ?_⟩, hempty⟩
  · intro k
    change k ∈ bits (0#64) ↔ _
    rw [bits_zero]
    simp only [Set.mem_empty_iff_false, ne_eq, false_iff, not_exists, not_and, not_not]
    exact fun word hword => hbits k word hword
  · exact fun i hi => absurd (hempty ▸ hi) (Set.notMem_empty i)

/-- An index of the window has a word, and the word index fits the summary. -/
theorem WF.word (h : b.WF n) {i : ℕ} (hi : i < n) :
    ∃ word, b.words[i / 64]? = some word ∧ i / 64 < b.words.length ∧ i / 64 < 64 := by
  have hlen := h.length_eq
  have hbound := h.bound
  unfold maxLevels at hbound
  have hlt : i / 64 < b.words.length := by omega
  exact ⟨b.words[i / 64], List.getElem?_eq_getElem hlt, hlt, by omega⟩

/-- Shifting a word and masking it reads one of its bits. -/
theorem shift_and_one_iff (word : Word) (k : ℕ) :
    (word >>> k) &&& 1#64 = 1#64 ↔ k ∈ bits word := by
  constructor
  · intro heq
    have h0 := congrArg (fun y : Word => y.getLsbD 0) heq
    simpa [bits] using h0
  · intro hon
    apply BitVec.eq_of_getLsbD_eq
    intro j hj
    by_cases hj0 : j = 0
    · subst hj0
      simpa [bits] using hon
    · simp [BitVec.getLsbD_one, hj0]

theorem isSet_spec (h : b.WF n) {i : ℕ} (hi : i < n) :
    ∃ bit, b.isSet i = .ok bit ∧ (bit = true ↔ i ∈ b.members) := by
  obtain ⟨word, hword, -, -⟩ := h.word hi
  refine ⟨_, by simp only [isSet, index_ok hword, ok_bind]; rfl, ?_⟩
  rw [mem_members, decide_eq_true_eq, shift_and_one_iff]
  constructor
  · exact fun hmem => ⟨word, hword, hmem⟩
  · rintro ⟨word', hword', hmem⟩
    rw [hword, Option.some.injEq] at hword'
    exact hword' ▸ hmem

/-- Rewriting one word changes membership only in that word. -/
theorem members_store {i : ℕ} {word : Word} {words : List Word} {s : Word}
    (s' : Word) (hi : i / 64 < words.length) (j : ℕ) :
    j ∈ members ⟨words.set (i / 64) word, s⟩ ↔
      if j / 64 = i / 64 then j % 64 ∈ bits word else j ∈ members ⟨words, s'⟩ := by
  simp only [mem_members, List.getElem?_set]
  by_cases hj : j / 64 = i / 64
  · simp [hj, hi]
  · simp [hj, Ne.symm hj]

theorem set_spec (h : b.WF n) {i : ℕ} (hi : i < n) :
    ∃ b', b.set i = .ok b' ∧ b'.WF n ∧ b'.members = insert i b.members := by
  obtain ⟨word, hword, hlt, hw⟩ := h.word hi
  have hbit : i % 64 < 64 := Nat.mod_lt _ (by decide)
  have hbits : bits (word ||| 1#64 <<< (i % 64)) = insert (i % 64) (bits word) := bits_or_bit hbit
  have hmembers : members ⟨b.words.set (i / 64) (word ||| 1#64 <<< (i % 64)),
      b.summary ||| 1#64 <<< (i / 64)⟩ = insert i b.members := by
    ext j
    rw [members_store b.summary hlt, hbits, Set.mem_insert_iff, Set.mem_insert_iff]
    by_cases hj : j / 64 = i / 64
    · have hval : j % 64 = i % 64 ↔ j = i := by omega
      simp [hj, hval, mem_members, hword]
    · have hne : j ≠ i := fun heq => hj (heq ▸ rfl)
      simp only [if_neg hj, hne, false_or]
  refine ⟨⟨b.words.set (i / 64) (word ||| 1#64 <<< (i % 64)), b.summary ||| 1#64 <<< (i / 64)⟩,
    ?_, ⟨h.bound, ?_, ?_, ?_⟩, hmembers⟩
  · simp only [set, index_ok hword, shl_ok hbit, store_ok hlt, shl_ok hw, ok_bind]
    rfl
  · rw [List.length_set, h.length_eq]
  · intro k
    rw [bits_or_bit hw, Set.mem_insert_iff, h.summary_iff, List.getElem?_set]
    by_cases hk : k = i / 64
    · subst hk
      have hne : word ||| 1#64 <<< (i % 64) ≠ 0#64 :=
        ne_zero_iff.mpr ⟨i % 64, by rw [hbits]; exact Set.mem_insert ..⟩
      simpa [hlt] using hne
    · simp [hk, Ne.symm hk]
  · intro j hj
    rw [hmembers] at hj
    rcases Set.mem_insert_iff.mp hj with rfl | hj
    · exact hi
    · exact h.lt_of_mem j hj

theorem clear_spec (h : b.WF n) {i : ℕ} (hi : i < n) :
    ∃ b', b.clear i = .ok b' ∧ b'.WF n ∧ b'.members = b.members \ {i} := by
  obtain ⟨word, hword, hlt, hw⟩ := h.word hi
  have hbit : i % 64 < 64 := Nat.mod_lt _ (by decide)
  have hbits : bits (word &&& ~~~(1#64 <<< (i % 64))) = bits word \ {i % 64} :=
    bits_and_not_bit hbit
  have hmembers : ∀ s, members ⟨b.words.set (i / 64) (word &&& ~~~(1#64 <<< (i % 64))), s⟩ =
      b.members \ {i} := by
    intro s
    ext j
    rw [members_store b.summary hlt, hbits]
    by_cases hj : j / 64 = i / 64
    · have hval : j % 64 = i % 64 ↔ j = i := by omega
      simp [hj, hval, mem_members, hword]
    · have hne : j ≠ i := fun heq => hj (heq ▸ rfl)
      simp only [if_neg hj, Set.mem_sdiff, Set.mem_singleton_iff, hne, not_false_eq_true, and_true]
  have hlen : (b.words.set (i / 64) (word &&& ~~~(1#64 <<< (i % 64)))).length = (n + 63) / 64 := by
    rw [List.length_set, h.length_eq]
  by_cases hzero : word &&& ~~~(1#64 <<< (i % 64)) = 0#64
  · refine ⟨⟨b.words.set (i / 64) (word &&& ~~~(1#64 <<< (i % 64))),
      b.summary &&& ~~~(1#64 <<< (i / 64))⟩, ?_, ⟨h.bound, hlen, ?_, ?_⟩, hmembers _⟩
    · simp only [clear, index_ok hword, shl_ok hbit, store_ok hlt, shl_ok hw, ok_bind]
      exact if_pos hzero
    · intro k
      rw [bits_and_not_bit hw, Set.mem_sdiff, Set.mem_singleton_iff, h.summary_iff,
        List.getElem?_set]
      by_cases hk : k = i / 64
      · subst hk
        simp [hlt, hzero]
      · simp [hk, Ne.symm hk]
    · exact fun j hj => h.lt_of_mem j (hmembers _ ▸ hj).1
  · refine ⟨⟨b.words.set (i / 64) (word &&& ~~~(1#64 <<< (i % 64))), b.summary⟩,
      ?_, ⟨h.bound, hlen, ?_, ?_⟩, hmembers _⟩
    · simp only [clear, index_ok hword, shl_ok hbit, store_ok hlt, shl_ok hw, ok_bind]
      exact if_neg hzero
    · intro k
      rw [h.summary_iff, List.getElem?_set]
      by_cases hk : k = i / 64
      · subst hk
        have hne : word ≠ 0#64 := fun hz => hzero (by rw [hz]; simp)
        simp only [if_true, hlt, hword, Option.some.injEq, exists_eq_left', ne_eq, hne, hzero]
      · simp [Ne.symm hk]
    · exact fun j hj => h.lt_of_mem j (hmembers b.summary ▸ hj).1

/-- The member at a bit of a word. -/
theorem mem_at {k j : ℕ} {word : Word} (hword : b.words[k]? = some word) (hj : j < 64) :
    k * 64 + j ∈ b.members ↔ j ∈ bits word := by
  rw [mem_members, show (k * 64 + j) / 64 = k by omega, show (k * 64 + j) % 64 = j by omega]
  simp [hword]

theorem mod_mem_word {k j : ℕ} {word : Word} (hword : b.words[k]? = some word)
    (hj : j ∈ b.members) (hk : j / 64 = k) : j % 64 ∈ bits word :=
  (mem_at hword (Nat.mod_lt _ (by decide))).mp (by rwa [show k * 64 + j % 64 = j by omega])

/-- The word of a member is marked in the summary. -/
theorem WF.div_mem_summary (h : b.WF n) {i : ℕ} (hi : i ∈ b.members) : i / 64 ∈ bits b.summary := by
  obtain ⟨word, hword, hbit⟩ := hi
  exact (h.summary_iff _).mpr ⟨word, hword, ne_zero_iff.mpr ⟨_, hbit⟩⟩

theorem members_empty_iff (h : b.WF n) : b.members = ∅ ↔ b.summary = 0#64 := by
  constructor
  · intro hempty
    by_contra hne
    obtain ⟨k, hk⟩ := ne_zero_iff.mp hne
    obtain ⟨word, hword, hw⟩ := (h.summary_iff k).mp hk
    obtain ⟨j, hj⟩ := ne_zero_iff.mp hw
    have hmem := (mem_at hword (lt_of_mem_bits hj)).mpr hj
    simp [hempty] at hmem
  · intro hzero
    ext i
    simp only [Set.mem_empty_iff_false, iff_false]
    intro hi
    have hk := h.div_mem_summary hi
    rw [hzero, bits_zero] at hk
    exact hk

/-- The highest word of a set of words, then its highest bit, is the highest member among them. -/
theorem isGreatest_of_words {s t : Set ℕ} {k bit : ℕ} {word : Word}
    (hk : IsGreatest t k) (hword : b.words[k]? = some word) (hbit : IsGreatest (bits word) bit)
    (hs : ∀ i, i ∈ s ↔ i ∈ b.members ∧ i / 64 ∈ t) : IsGreatest s (k * 64 + bit) := by
  have hlt := lt_of_mem_bits hbit.1
  refine ⟨(hs _).mpr ⟨(mem_at hword hlt).mpr hbit.1, ?_⟩, ?_⟩
  · rw [show (k * 64 + bit) / 64 = k by omega]
    exact hk.1
  · intro i hi
    obtain ⟨hmem, hit⟩ := (hs i).mp hi
    have hle : i / 64 ≤ k := hk.2 hit
    rcases Nat.lt_or_eq_of_le hle with hlt' | heq
    · omega
    · have hle' : i % 64 ≤ bit := hbit.2 (mod_mem_word hword hmem heq)
      omega

theorem isLeast_of_words {s t : Set ℕ} {k bit : ℕ} {word : Word}
    (hk : IsLeast t k) (hword : b.words[k]? = some word) (hbit : IsLeast (bits word) bit)
    (hs : ∀ i, i ∈ s ↔ i ∈ b.members ∧ i / 64 ∈ t) : IsLeast s (k * 64 + bit) := by
  have hlt := lt_of_mem_bits hbit.1
  refine ⟨(hs _).mpr ⟨(mem_at hword hlt).mpr hbit.1, ?_⟩, ?_⟩
  · rw [show (k * 64 + bit) / 64 = k by omega]
    exact hk.1
  · intro i hi
    obtain ⟨hmem, hit⟩ := (hs i).mp hi
    have hle : k ≤ i / 64 := hk.2 hit
    rcases Nat.lt_or_eq_of_le hle with hlt' | heq
    · omega
    · have hle' : bit ≤ i % 64 := hbit.2 (mod_mem_word hword hmem heq.symm)
      omega

theorem subU_clz {word : Word} (hne : word ≠ 0#64) :
    subU 63 word.clz.toNat = .ok (63 - word.clz.toNat) :=
  subU_ok (by have := clz_lt hne; omega)

theorem max_spec (h : b.WF n) : ∃ o, b.max = .ok o ∧ IsMax b.members o := by
  by_cases hzero : b.summary = 0#64
  · exact ⟨none, if_pos hzero, (members_empty_iff h).mpr hzero⟩
  · have hk := isGreatest_clz hzero
    obtain ⟨word, hword, hne⟩ := (h.summary_iff _).mp hk.1
    refine ⟨some ((63 - b.summary.clz.toNat) * 64 + (63 - word.clz.toNat)), ?_, ?_⟩
    · simp only [max, if_neg hzero, subU_clz hzero, ok_bind, index_ok hword, subU_clz hne]
      rfl
    · exact isGreatest_of_words hk hword (isGreatest_clz hne) fun i =>
        ⟨fun hi => ⟨hi, h.div_mem_summary hi⟩, And.left⟩

theorem min_spec (h : b.WF n) : ∃ o, b.min = .ok o ∧ IsMin b.members o := by
  by_cases hzero : b.summary = 0#64
  · exact ⟨none, if_pos hzero, (members_empty_iff h).mpr hzero⟩
  · have hk := isLeast_ctz hzero
    obtain ⟨word, hword, hne⟩ := (h.summary_iff _).mp hk.1
    refine ⟨some (b.summary.ctz.toNat * 64 + word.ctz.toNat), ?_, ?_⟩
    · simp only [min, if_neg hzero, ok_bind, index_ok hword]
      rfl
    · exact isLeast_of_words hk hword (isLeast_ctz hne) fun i =>
        ⟨fun hi => ⟨hi, h.div_mem_summary hi⟩, And.left⟩

theorem wordBelow_spec {w bit : ℕ} {word : Word} (hword : b.words[w]? = some word)
    (hbit : bit < 64) :
    ∃ low, b.wordBelow w bit = .ok low ∧ bits low = {j | j ∈ bits word ∧ j < bit} := by
  by_cases hzero : bit = 0
  · refine ⟨0#64, if_pos hzero, ?_⟩
    ext j
    simp [bits_zero, hzero]
  · refine ⟨_, ?_, bits_and_below hbit⟩
    simp only [wordBelow, if_neg hzero, index_ok hword, lowMask_one hbit, ok_bind]
    rfl

theorem wordAbove_spec {w bit : ℕ} {word : Word} (hword : b.words[w]? = some word)
    (hbit : bit < 64) :
    ∃ high, b.wordAbove w bit = .ok high ∧ bits high = {j | j ∈ bits word ∧ bit < j} := by
  by_cases hlast : bit = 63
  · refine ⟨0#64, if_pos hlast, ?_⟩
    ext j
    simp only [bits_zero, Set.mem_empty_iff_false, Set.mem_ofPred_eq, false_iff, not_and]
    intro hj
    have := lt_of_mem_bits hj
    omega
  · refine ⟨_, ?_, bits_and_above (by omega)⟩
    simp only [wordAbove, if_neg hlast, index_ok hword, lowMask_two (show bit < 63 by omega),
      ok_bind]
    rfl

/-- The loop returns at once on a word that is not zero. -/
theorem prevLoop_word {fuel w : ℕ} {word : Word} (hne : word ≠ 0#64) :
    b.prevLoop (fuel + 1) w word = .ok (some (w * 64 + (63 - word.clz.toNat))) := by
  simp only [prevLoop, if_pos hne, subU_clz hne, ok_bind]
  rfl

theorem nextLoop_word {fuel w : ℕ} {word : Word} (hne : word ≠ 0#64) :
    b.nextLoop (fuel + 1) w word = .ok (some (w * 64 + word.ctz.toNat)) := by
  simp only [nextLoop, if_pos hne]
  rfl

/-- From a word with nothing left the loop goes on with the marked words below. -/
theorem prevLoop_zero (h : b.WF n) {fuel w : ℕ} (hw : w < 64) :
    ∃ o, b.prevLoop (fuel + 2) w 0#64 = .ok o ∧ IsMax {j | j ∈ b.members ∧ j / 64 < w} o := by
  by_cases hw0 : w = 0
  · refine ⟨none, by simp [prevLoop, hw0], ?_⟩
    ext j
    simp [hw0]
  · have hbelow := bits_and_below (x := b.summary) hw
    by_cases hsum : b.summary &&& (1#64 <<< w - 1#64) = 0#64
    · refine ⟨none, by simp [prevLoop, hw0, lowMask_one hw, hsum], ?_⟩
      ext j
      simp only [Set.mem_ofPred_eq, Set.mem_empty_iff_false, iff_false, not_and]
      intro hj hlt
      have hmem : j / 64 ∈ bits (b.summary &&& (1#64 <<< w - 1#64)) := by
        rw [hbelow]
        exact ⟨h.div_mem_summary hj, hlt⟩
      rw [hsum, bits_zero] at hmem
      exact hmem
    · have hk := isGreatest_clz hsum
      rw [hbelow] at hk
      obtain ⟨word, hword, hne⟩ := (h.summary_iff _).mp hk.1.1
      refine ⟨some (_ * 64 + (63 - word.clz.toNat)), ?_,
        isGreatest_of_words hk hword (isGreatest_clz hne) fun j => ?_⟩
      · rw [prevLoop]
        simp only [ne_eq, not_true_eq_false, if_false, hw0, lowMask_one hw, ok_bind, hsum,
          subU_clz hsum, index_ok hword]
        exact prevLoop_word hne
      · exact and_congr_right fun hj => (and_iff_right (h.div_mem_summary hj)).symm

theorem prevSet_spec (h : b.WF n) {i : ℕ} (hi : i < n) :
    ∃ o, b.prevSet i = .ok o ∧ IsMax {j | j ∈ b.members ∧ j < i} o := by
  obtain ⟨word, hword, -, hw⟩ := h.word hi
  obtain ⟨low, hlow, hbits⟩ := wordBelow_spec hword (Nat.mod_lt i (by decide : 0 < 64))
  simp only [prevSet, hlow, ok_bind]
  by_cases hne : low ≠ 0#64
  · -- a member below `i` in its own word
    have htop := isGreatest_clz hne
    rw [hbits] at htop
    have hlt64 := lt_of_mem_bits htop.1.1
    have hlt : 63 - low.clz.toNat < i % 64 := htop.1.2
    refine ⟨_, prevLoop_word hne, ⟨(mem_at hword hlt64).mpr htop.1.1, ?_⟩, ?_⟩
    · omega
    · rintro j ⟨hj, hji⟩
      by_cases hjw : j / 64 = i / 64
      · have hmem := mod_mem_word hword hj hjw
        have hle : j % 64 ≤ 63 - low.clz.toNat := htop.2 ⟨hmem, by omega⟩
        omega
      · omega
  · rw [not_not] at hne
    have hown : ∀ j ∈ b.members, j < i ↔ j / 64 < i / 64 := by
      intro j hj
      refine ⟨fun hji => ?_, fun hlt => by omega⟩
      by_contra hge
      have hmem := mod_mem_word hword hj (by omega)
      have hlow : j % 64 ∈ bits low := by
        rw [hbits]
        exact ⟨hmem, by omega⟩
      rw [hne, bits_zero] at hlow
      exact hlow
    rw [hne, show {j | j ∈ b.members ∧ j < i} = {j | j ∈ b.members ∧ j / 64 < i / 64} from
      Set.ext fun j => and_congr_right (hown j)]
    exact prevLoop_zero h hw

/-- From a word with nothing left the loop goes on with the marked words above. -/
theorem nextLoop_zero (h : b.WF n) {fuel w : ℕ} :
    ∃ o, b.nextLoop (fuel + 2) w 0#64 = .ok o ∧ IsMin {j | j ∈ b.members ∧ w < j / 64} o := by
  by_cases hw63 : 63 ≤ w
  · refine ⟨none, by simp [nextLoop, hw63], ?_⟩
    ext j
    simp only [Set.mem_ofPred_eq, Set.mem_empty_iff_false, iff_false, not_and]
    intro hj
    have hsmall := lt_of_mem_bits (h.div_mem_summary hj)
    omega
  · have habove := bits_and_above (x := b.summary) (show w + 1 < 64 by omega)
    have hmask := lowMask_two (show w < 63 by omega)
    by_cases hsum : b.summary &&& ~~~(2#64 <<< w - 1#64) = 0#64
    · refine ⟨none, by simp [nextLoop, hw63, hmask, hsum], ?_⟩
      ext j
      simp only [Set.mem_ofPred_eq, Set.mem_empty_iff_false, iff_false, not_and]
      intro hj hlt
      have hmem : j / 64 ∈ bits (b.summary &&& ~~~(2#64 <<< w - 1#64)) := by
        rw [habove]
        exact ⟨h.div_mem_summary hj, hlt⟩
      rw [hsum, bits_zero] at hmem
      exact hmem
    · have hk := isLeast_ctz hsum
      rw [habove] at hk
      obtain ⟨word, hword, hne⟩ := (h.summary_iff _).mp hk.1.1
      refine ⟨some (_ * 64 + word.ctz.toNat), ?_,
        isLeast_of_words hk hword (isLeast_ctz hne) fun j => ?_⟩
      · rw [nextLoop]
        simp only [ne_eq, not_true_eq_false, if_false, hw63, hmask, ok_bind, hsum,
          index_ok hword]
        exact nextLoop_word hne
      · exact and_congr_right fun hj => (and_iff_right (h.div_mem_summary hj)).symm

theorem nextSet_spec (h : b.WF n) {i : ℕ} (hi : i < n) :
    ∃ o, b.nextSet i = .ok o ∧ IsMin {j | j ∈ b.members ∧ i < j} o := by
  obtain ⟨word, hword, -, hw⟩ := h.word hi
  obtain ⟨high, hhigh, hbits⟩ := wordAbove_spec hword (Nat.mod_lt i (by decide : 0 < 64))
  obtain ⟨fuel, hfuel⟩ : ∃ fuel, 66 - i / 64 = fuel + 2 := ⟨64 - i / 64, by omega⟩
  simp only [nextSet, hhigh, ok_bind, hfuel]
  by_cases hne : high ≠ 0#64
  · -- a member above `i` in its own word
    have hbot := isLeast_ctz hne
    rw [hbits] at hbot
    have hlt64 := lt_of_mem_bits hbot.1.1
    have hlt : i % 64 < high.ctz.toNat := hbot.1.2
    refine ⟨_, nextLoop_word hne, ⟨(mem_at hword hlt64).mpr hbot.1.1, ?_⟩, ?_⟩
    · omega
    · rintro j ⟨hj, hji⟩
      by_cases hjw : j / 64 = i / 64
      · have hmem := mod_mem_word hword hj hjw
        have hle : high.ctz.toNat ≤ j % 64 := hbot.2 ⟨hmem, by omega⟩
        omega
      · omega
  · rw [not_not] at hne
    have hown : ∀ j ∈ b.members, i < j ↔ i / 64 < j / 64 := by
      intro j hj
      refine ⟨fun hji => ?_, fun hlt => by omega⟩
      by_contra hge
      have hmem := mod_mem_word hword hj (by omega)
      have hhigh : j % 64 ∈ bits high := by
        rw [hbits]
        exact ⟨hmem, by omega⟩
      rw [hne, bits_zero] at hhigh
      exact hhigh
    rw [hne, show {j | j ∈ b.members ∧ i < j} = {j | j ∈ b.members ∧ i / 64 < j / 64} from
      Set.ext fun j => and_congr_right (hown j)]
    exact nextLoop_zero h

end Bitmap

end Lobcore.Bitmaps
