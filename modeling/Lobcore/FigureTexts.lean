import Lobcore.TypeHours

/-!
Figures as they are printed: numbers with and without separators, times of day and hashes. Each
way of printing loses nothing, and none of them uses the letters that stand between figures, so
a row of figures can be taken apart again.
-/
namespace Lobcore.FigureTexts

open ReadmeBlocks TypeHours

/-- A number, padded with zeros to a width. -/
def padded (width n : ℕ) : Text :=
  let s := Nat.toDigits 10 n
  List.replicate (width - s.length) '0' ++ s

/-- Nanoseconds since midnight as `HH:MM:SS.nnnnnnnnn`. -/
def hms (ts : ℕ) : Text :=
  let s := ts / 1000000000
  padded 2 (s / 3600) ++ ':' :: (padded 2 (s / 60 % 60) ++ ':' :: (padded 2 (s % 60) ++
    '.' :: padded 9 (ts % 1000000000)))

def hexDigit (n : ℕ) : Char := "0123456789abcdef".toList.getD n '0'

/-- Bytes in lowercase hexadecimal. -/
def hex (bytes : List UInt8) : Text :=
  bytes.flatMap fun b : UInt8 => [hexDigit (b >>> 4).toNat, hexDigit (b &&& 15).toNat]

/-! Taking texts apart. -/

/-- Two texts agree up to the first place of a letter and behind it. -/
theorem cut {c : Char} {u v x y : Text} (hu : c ∉ u) (hv : c ∉ v)
    (h : u ++ c :: x = v ++ c :: y) : u = v ∧ x = y := by
  induction u generalizing v with
  | nil =>
    cases v with
    | nil => exact ⟨rfl, (List.cons.inj h).2⟩
    | cons b v =>
      obtain ⟨rfl, -⟩ := List.cons.inj h
      exact absurd (List.mem_cons_self ..) hv
  | cons a u ih =>
    cases v with
    | nil =>
      obtain ⟨rfl, -⟩ := List.cons.inj h
      exact absurd (List.mem_cons_self ..) hu
    | cons b v =>
      obtain ⟨rfl, hrest⟩ := List.cons.inj h
      obtain ⟨rfl, hxy⟩ := ih (fun hc => hu (List.mem_cons_of_mem _ hc))
        (fun hc => hv (List.mem_cons_of_mem _ hc)) hrest
      exact ⟨rfl, hxy⟩

/-- Two texts agree up to the last place of a letter and behind it. -/
theorem cut_last {c : Char} {u v x y : Text} (hx : c ∉ x) (hy : c ∉ y)
    (h : u ++ c :: x = v ++ c :: y) : u = v ∧ x = y := by
  have hrev := congrArg List.reverse h
  simp only [List.reverse_append, List.reverse_cons, List.append_assoc, List.singleton_append]
    at hrev
  obtain ⟨hback, hfront⟩ := cut (mt List.mem_reverse.mp hx) (mt List.mem_reverse.mp hy) hrev
  exact ⟨List.reverse_inj.mp hfront, List.reverse_inj.mp hback⟩

/-- Two texts agree in what they begin with, letters of one kind up to the first of another. -/
theorem front {p : Char → Bool} {u v x y : Text} (hu : ∀ c ∈ u, p c = true)
    (hv : ∀ c ∈ v, p c = true) (hx : ∀ c ∈ x.head?, p c = false)
    (hy : ∀ c ∈ y.head?, p c = false) (h : u ++ x = v ++ y) : u = v ∧ x = y := by
  have htake : ∀ {w z : Text}, (∀ c ∈ w, p c = true) → (∀ c ∈ z.head?, p c = false) →
      (w ++ z).takeWhile p = w := by
    intro w z hw hz
    rw [List.takeWhile_append_of_pos hw]
    cases z with
    | nil => simp
    | cons c z =>
      rw [List.takeWhile_cons_of_neg (by simp [hz c rfl]), List.append_nil]
  have heq : u = v := by
    rw [← htake hu hx, h, htake hv hy]
  subst heq
  exact ⟨rfl, List.append_cancel_left h⟩

/-! Numbers. -/

theorem isDigit_of_mem {c : Char} {n : ℕ} (h : c ∈ Nat.toDigits 10 n) : c.isDigit = true :=
  Nat.isDigit_of_mem_toDigits (by decide) (by decide) h

theorem toDigits_inj {m n : ℕ} (h : Nat.toDigits 10 m = Nat.toDigits 10 n) : m = n := by
  have hvalue := congrArg (fun s => Nat.ofDigitChars 10 s 0) h
  simpa only [Nat.ofDigitChars_ten_toDigits] using hvalue

theorem commas_inj {m n : ℕ} (h : commas m = commas n) : m = n := by
  have hdigits := congrArg (fun s => s.filter (· ≠ ',')) h
  simp only [commas_digits] at hdigits
  exact toDigits_inj hdigits

theorem mem_commas {c : Char} {n : ℕ} (h : c ∈ commas n) : c.isDigit = true ∨ c = ',' := by
  rw [commas, List.mem_flatMap] at h
  obtain ⟨p, hp, hc⟩ := h
  have hdigit := isDigit_of_mem (List.fst_mem_of_mem_zipIdx hp)
  split at hc
  · rcases List.mem_cons.mp hc with rfl | hc
    · exact Or.inr rfl
    · exact Or.inl (List.mem_singleton.mp hc ▸ hdigit)
  · exact Or.inl (List.mem_singleton.mp hc ▸ hdigit)

theorem not_mem_commas {c : Char} (hdigit : c.isDigit = false) (hcomma : c ≠ ',') (n : ℕ) :
    c ∉ commas n := by
  intro h
  rcases mem_commas h with h | h
  · rw [hdigit] at h
    cases h
  · exact hcomma h

/-- What may follow a number. -/
def Stops (x : Text) : Prop := ∀ c ∈ x.head?, c.isDigit = false

/-- What may follow a number with separators. -/
def Ends (x : Text) : Prop := ∀ c ∈ x.head?, c.isDigit = false ∧ c ≠ ','

@[simp] theorem stops_nil : Stops [] := nofun

@[simp] theorem stops_cons {c : Char} {x : Text} : Stops (c :: x) ↔ c.isDigit = false := by
  simp [Stops]

@[simp] theorem ends_nil : Ends [] := nofun

@[simp] theorem ends_cons {c : Char} {x : Text} : Ends (c :: x) ↔ c.isDigit = false ∧ c ≠ ',' := by
  simp [Ends]

theorem digits_front {m n : ℕ} {x y : Text} (hx : Stops x) (hy : Stops y)
    (h : Nat.toDigits 10 m ++ x = Nat.toDigits 10 n ++ y) : m = n ∧ x = y := by
  obtain ⟨hfront, hrest⟩ := front (p := Char.isDigit) (fun _ => isDigit_of_mem)
    (fun _ => isDigit_of_mem) hx hy h
  exact ⟨toDigits_inj hfront, hrest⟩

theorem commas_front {m n : ℕ} {x y : Text} (hx : Ends x) (hy : Ends y)
    (h : commas m ++ x = commas n ++ y) : m = n ∧ x = y := by
  have hletter : ∀ n, ∀ c ∈ commas n, (c.isDigit || c == ',') = true := by
    intro n c hc
    simpa using mem_commas hc
  have hother : ∀ {z : Text}, Ends z → ∀ c ∈ z.head?, (c.isDigit || c == ',') = false := by
    intro z hz c hc
    simpa using hz c hc
  obtain ⟨hfront, hrest⟩ := front (hletter m) (hletter n) (hother hx) (hother hy) h
  exact ⟨commas_inj hfront, hrest⟩

theorem ofDigitChars_padded (width n : ℕ) : Nat.ofDigitChars 10 (padded width n) 0 = n := by
  rw [padded, Nat.ofDigitChars_append, Nat.ofDigitChars_replicate_zero, Nat.mul_zero,
    Nat.ofDigitChars_ten_toDigits]

theorem padded_inj {width m n : ℕ} (h : padded width m = padded width n) : m = n := by
  have hvalue := congrArg (fun s => Nat.ofDigitChars 10 s 0) h
  simpa only [ofDigitChars_padded] using hvalue

theorem isDigit_padded {c : Char} {width n : ℕ} (h : c ∈ padded width n) : c.isDigit = true := by
  rcases List.mem_append.mp h with h | h
  · rw [List.eq_of_mem_replicate h]
    decide
  · exact isDigit_of_mem h

theorem not_mem_padded {c : Char} (hdigit : c.isDigit = false) (width n : ℕ) :
    c ∉ padded width n := by
  intro h
  rw [isDigit_padded h] at hdigit
  cases hdigit

/-! Times. -/

theorem hms_inj {a b : ℕ} (h : hms a = hms b) : a = b := by
  have hcolon : ∀ width n, ':' ∉ padded width n := not_mem_padded (by decide)
  have hdot : ∀ width n, '.' ∉ padded width n := not_mem_padded (by decide)
  obtain ⟨hhour, hrest⟩ := cut (hcolon _ _) (hcolon _ _) h
  obtain ⟨hminute, hrest⟩ := cut (hcolon _ _) (hcolon _ _) hrest
  obtain ⟨hsecond, hnano⟩ := cut (hdot _ _) (hdot _ _) hrest
  have h₁ := padded_inj hhour
  have h₂ := padded_inj hminute
  have h₃ := padded_inj hsecond
  have h₄ := padded_inj hnano
  omega

theorem mem_hms {c : Char} {ts : ℕ} (h : c ∈ hms ts) : c.isDigit = true ∨ c = ':' ∨ c = '.' := by
  simp only [hms, List.mem_append, List.mem_cons] at h
  rcases h with h | rfl | h | rfl | h | rfl | h
  · exact Or.inl (isDigit_padded h)
  · exact Or.inr (Or.inl rfl)
  · exact Or.inl (isDigit_padded h)
  · exact Or.inr (Or.inl rfl)
  · exact Or.inl (isDigit_padded h)
  · exact Or.inr (Or.inr rfl)
  · exact Or.inl (isDigit_padded h)

/-! Hashes. -/

theorem hexDigit_inj {m n : ℕ} (hm : m < 16) (hn : n < 16) (h : hexDigit m = hexDigit n) :
    m = n := by
  have hall : ∀ m < 16, ∀ n < 16, hexDigit m = hexDigit n → m = n := by decide
  exact hall m hm n hn h

theorem nibbles (b : UInt8) :
    (b >>> 4).toNat < 16 ∧ (b &&& 15).toNat < 16 ∧
      b.toNat = 16 * (b >>> 4).toNat + (b &&& 15).toNat := by
  have hlow : (b &&& 15).toNat = b.toNat % 16 := Nat.and_two_pow_sub_one_eq_mod b.toNat 4
  have hhigh : (b >>> 4).toNat = b.toNat / 16 := Nat.shiftRight_eq_div_pow b.toNat 4
  have hlt := b.toNat_lt
  omega

theorem hex_inj {xs ys : List UInt8} (h : hex xs = hex ys) : xs = ys := by
  induction xs generalizing ys with
  | nil =>
    cases ys with
    | nil => rfl
    | cons b ys => cases h
  | cons a xs ih =>
    cases ys with
    | nil => cases h
    | cons b ys =>
      obtain ⟨hhigh, hrest⟩ := List.cons.inj h
      obtain ⟨hlow, hrest⟩ := List.cons.inj hrest
      obtain ⟨ha, ha', hasum⟩ := nibbles a
      obtain ⟨hb, hb', hbsum⟩ := nibbles b
      have h₁ := hexDigit_inj ha hb hhigh
      have h₂ := hexDigit_inj ha' hb' hlow
      rw [ih hrest, UInt8.toNat_inj.mp (by omega : a.toNat = b.toNat)]

theorem mem_hex {c : Char} {bytes : List UInt8} (h : c ∈ hex bytes) :
    c ∈ "0123456789abcdef".toList := by
  have hall : ∀ n < 16, hexDigit n ∈ "0123456789abcdef".toList := by decide
  obtain ⟨b, -, hc⟩ := List.mem_flatMap.mp h
  obtain ⟨hhigh, hlow, -⟩ := nibbles b
  rcases List.mem_cons.mp hc with rfl | hc
  · exact hall _ hhigh
  · rw [List.mem_singleton.mp hc]
    exact hall _ hlow

end Lobcore.FigureTexts
