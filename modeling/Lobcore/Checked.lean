import Mathlib.Algebra.Group.Int.Defs
import Mathlib.Algebra.GroupWithZero.Nat
import Mathlib.Data.Int.Basic
import Mathlib.Tactic.Common

/-!
Calls that can abort, and the fixed-width operations that abort them.
A computation either returns a value or stops with the reason of a panic:
an arithmetic overflow, an index outside a vector, or a failed assertion. A loop
without a bound of its own runs here on a bound; reaching it is `unfinished`. Runs of calls and
the items of an iterator have their rules of induction here.
Nothing here depends on the order book; every bound is a hypothesis of the
lemma that discharges it.
-/
namespace Lobcore.Checked

inductive Panic where
  | overflow
  | outOfRange
  | assertion
  | unfinished
  deriving DecidableEq, Repr

abbrev Exec := Except Panic

variable {α β σ : Type}

/-- `assert!` and `debug_assert!`. -/
def ensure (p : Prop) [Decidable p] : Exec Unit :=
  if p then .ok () else .error .assertion

/-- `Option::expect`. -/
def expect : Option α → Exec α
  | some a => .ok a
  | none => .error .assertion

/-- `xs[i]` on a vector or slice. -/
def index (xs : List α) (i : ℕ) : Exec α :=
  match xs[i]? with
  | some a => .ok a
  | none => .error .outOfRange

/-- `xs[i] = a`. -/
def store (xs : List α) (i : ℕ) (a : α) : Exec (List α) :=
  if i < xs.length then .ok (xs.set i a) else .error .outOfRange

def addU32 (a b : ℕ) : Exec ℕ :=
  if a + b < 2 ^ 32 then .ok (a + b) else .error .overflow

def addU64 (a b : ℕ) : Exec ℕ :=
  if a + b < 2 ^ 64 then .ok (a + b) else .error .overflow

/-- Subtraction of unsigned integers of any width. -/
def subU (a b : ℕ) : Exec ℕ :=
  if b ≤ a then .ok (a - b) else .error .overflow

/-- The result of a signed 32-bit operation, computed without bounds. -/
def fitI32 (x : ℤ) : Exec ℤ :=
  if -2 ^ 31 ≤ x ∧ x < 2 ^ 31 then .ok x else .error .overflow

@[simp] theorem ok_bind (a : α) (f : α → Exec β) : (Except.ok a >>= f) = f a := rfl

@[simp] theorem error_bind (e : Panic) (f : α → Exec β) :
    ((Except.error e : Exec α) >>= f) = .error e := rfl

@[simp] theorem pure_eq_ok (a : α) : (pure a : Exec α) = .ok a := rfl

@[simp] theorem map_ok (f : α → β) (a : α) : f <$> (Except.ok a : Exec α) = .ok (f a) := rfl

theorem bind_eq_ok {x : Exec α} {f : α → Exec β} {b : β} :
    (x >>= f) = .ok b ↔ ∃ a, x = .ok a ∧ f a = .ok b := by
  cases x with
  | error e => simp
  | ok a => simp

/-- A guard with another answer was not taken. -/
theorem of_ite_ne {p : Prop} [Decidable p] {x y z : α} (h : (if p then y else x) = z)
    (hne : y ≠ z) : ¬ p ∧ x = z := by
  by_cases hp : p
  · exact absurd ((if_pos hp).symm.trans h) hne
  · exact ⟨hp, (if_neg hp).symm.trans h⟩

theorem ensure_ok {p : Prop} [Decidable p] (h : p) : ensure p = .ok () := if_pos h

@[simp] theorem expect_some (a : α) : expect (some a) = .ok a := rfl

theorem index_ok {xs : List α} {i : ℕ} {a : α} (h : xs[i]? = some a) : index xs i = .ok a := by
  simp [index, h]

theorem index_eq_ok {xs : List α} {i : ℕ} {a : α} : index xs i = .ok a ↔ xs[i]? = some a := by
  unfold index
  cases xs[i]? <;> simp

theorem index_error {xs : List α} {i : ℕ} (h : xs.length ≤ i) :
    index xs i = .error .outOfRange := by
  simp [index, List.getElem?_eq_none h]

theorem store_ok {xs : List α} {i : ℕ} (h : i < xs.length) (a : α) :
    store xs i a = .ok (xs.set i a) := if_pos h

theorem addU32_ok {a b : ℕ} (h : a + b < 2 ^ 32) : addU32 a b = .ok (a + b) := if_pos h

theorem addU64_ok {a b : ℕ} (h : a + b < 2 ^ 64) : addU64 a b = .ok (a + b) := if_pos h

theorem addU64_eq {a b r : ℕ} (h : addU64 a b = .ok r) : r = a + b := by
  unfold addU64 at h
  split at h
  · exact (Except.ok.inj h).symm
  · cases h

theorem subU_ok {a b : ℕ} (h : b ≤ a) : subU a b = .ok (a - b) := if_pos h

theorem fitI32_ok {x : ℤ} (h : -2 ^ 31 ≤ x ∧ x < 2 ^ 31) : fitI32 x = .ok x := if_pos h

/-- `iter().sum()` in an unsigned type of `w` bits. -/
def sumU (w : ℕ) : List ℕ → Exec ℕ
  | [] => .ok 0
  | x :: xs => do
    let rest ← sumU w xs
    if x + rest < 2 ^ w then .ok (x + rest) else .error .overflow

theorem sumU_ok {w : ℕ} {xs : List ℕ} (h : xs.sum < 2 ^ w) : sumU w xs = .ok xs.sum := by
  induction xs with
  | nil => rfl
  | cons x xs ih =>
    rw [List.sum_cons] at h
    have hrest : sumU w xs = .ok xs.sum := ih (by omega)
    simp only [sumU, hrest, ok_bind, List.sum_cons, if_pos h]

/-- Collecting calls that all return collects their values. -/
theorem mapM_ok {f : α → Exec β} {g : α → β} {xs : List α} (h : ∀ x ∈ xs, f x = .ok (g x)) :
    xs.mapM f = .ok (xs.map g) := by
  induction xs with
  | nil => rfl
  | cons x xs ih =>
    rw [List.mapM_cons, h x (List.mem_cons_self ..),
      ih fun y hy => h y (List.mem_cons_of_mem _ hy)]
    rfl

/-- The call aborts. -/
def panics : Exec α → Bool
  | .ok _ => false
  | .error _ => true

theorem error_of_panics {x : Exec α} (h : panics x = true) : ∃ e, x = .error e := by
  cases x with
  | ok a => cases h
  | error e => exact ⟨e, rfl⟩

theorem ok_of_not_panics {x : Exec α} (h : panics x = false) : ∃ a, x = .ok a := by
  cases x with
  | ok a => exact ⟨a, rfl⟩
  | error e => cases h

/-- The call returns a value that passes the test. -/
theorem ok_of_any {x : Exec α} {f : α → Bool} (h : x.toOption.any f = true) :
    ∃ a, x = .ok a ∧ f a = true := by
  cases x with
  | ok a => exact ⟨a, rfl, h⟩
  | error e => cases h

/-! Calls that return with a property. In the circumstances `Q` they must return; outside
them they may abort instead. -/

def Returns (Q : Prop) (P : α → Prop) (x : Exec α) : Prop :=
  (∃ a, x = .ok a ∧ P a) ∨ (¬ Q ∧ ∃ e, x = .error e)

section Returns

variable {Q : Prop} {P : α → Prop} {R : β → Prop} {x : Exec α}

theorem Returns.of_ok {a : α} (h : P a) : Returns Q P (.ok a) := Or.inl ⟨a, rfl, h⟩

theorem Returns.of_eq {a : α} (hx : x = .ok a) (h : P a) : Returns Q P x := Or.inl ⟨a, hx, h⟩

theorem Returns.bind {f : α → Exec β} (hx : Returns Q P x) (hf : ∀ a, P a → Returns Q R (f a)) :
    Returns Q R (x >>= f) := by
  rcases hx with ⟨a, rfl, ha⟩ | ⟨hq, e, rfl⟩
  · exact hf a ha
  · exact Or.inr ⟨hq, e, rfl⟩

theorem Returns.mono {P' : α → Prop} (hx : Returns Q P x) (h : ∀ a, P a → P' a) :
    Returns Q P' x := by
  rcases hx with ⟨a, hx, ha⟩ | hbad
  · exact Or.inl ⟨a, hx, h a ha⟩
  · exact Or.inr hbad

/-- The value of the call is known besides. -/
theorem Returns.with_eq (hx : Returns Q P x) : Returns Q (fun a => x = .ok a ∧ P a) x := by
  rcases hx with ⟨a, hx, ha⟩ | hbad
  · exact Or.inl ⟨a, hx, hx, ha⟩
  · exact Or.inr hbad

/-- Collecting calls that may abort. -/
theorem mapM_returns {f : α → Exec β} {g : α → β} {xs : List α}
    (h : ∀ x ∈ xs, Returns Q (fun b => b = g x) (f x)) :
    Returns Q (fun bs => bs = xs.map g) (xs.mapM f) := by
  induction xs with
  | nil => exact Returns.of_ok rfl
  | cons x xs ih =>
    rw [List.mapM_cons]
    refine (h x (List.mem_cons_self ..)).bind fun b hb => ?_
    refine (ih fun y hy => h y (List.mem_cons_of_mem _ hy)).bind fun bs hbs => ?_
    exact Returns.of_ok (by rw [hb, hbs, List.map_cons])

theorem ensure_returns {p : Prop} [Decidable p] (h : Q → p) :
    Returns Q (fun _ => p) (ensure p) := by
  by_cases hp : p
  · exact Returns.of_eq (ensure_ok hp) hp
  · exact Or.inr ⟨fun hQ => hp (h hQ), _, if_neg hp⟩

theorem Returns.ok_of (hx : Returns Q P x) (hq : Q) : ∃ a, x = .ok a ∧ P a :=
  hx.resolve_right fun hbad => hbad.1 hq

theorem Returns.of_run (hx : Returns Q P x) {a : α} (ha : x = .ok a) : P a := by
  rcases hx with ⟨b, rfl, hb⟩ | ⟨-, e, rfl⟩
  · exact Except.ok.inj ha ▸ hb
  · cases ha

end Returns

/-! Loops on a bound: what holds whenever the bound is large enough. -/

def Enough (p : ℕ → Prop) : Prop := ∃ N, ∀ fuel, N ≤ fuel → p fuel

theorem Enough.of_succ {p : ℕ → Prop} (h : ∀ fuel, p (fuel + 1)) : Enough p :=
  ⟨1, fun fuel hfuel => by
    obtain ⟨fuel, rfl⟩ := Nat.exists_eq_succ_of_ne_zero (Nat.ne_of_gt hfuel)
    exact h fuel⟩

/-- One more round. -/
theorem Enough.succ {p q : ℕ → Prop} (h : Enough p) (hstep : ∀ fuel, p fuel → q (fuel + 1)) :
    Enough q := by
  obtain ⟨N, hN⟩ := h
  refine ⟨N + 1, fun fuel hfuel => ?_⟩
  obtain ⟨fuel, rfl⟩ := Nat.exists_eq_succ_of_ne_zero (Nat.ne_of_gt (Nat.zero_lt_of_lt hfuel))
  exact hstep fuel (hN fuel (Nat.le_of_succ_le_succ hfuel))

theorem Enough.and {p q : ℕ → Prop} (hp : Enough p) (hq : Enough q) :
    Enough fun fuel => p fuel ∧ q fuel := by
  obtain ⟨N, hN⟩ := hp
  obtain ⟨M, hM⟩ := hq
  exact ⟨max N M, fun fuel hfuel =>
    ⟨hN fuel (Nat.le_trans (Nat.le_max_left ..) hfuel),
      hM fuel (Nat.le_trans (Nat.le_max_right ..) hfuel)⟩⟩

theorem Enough.mono {p q : ℕ → Prop} (h : Enough p) (hpq : ∀ fuel, p fuel → q fuel) : Enough q := by
  obtain ⟨N, hN⟩ := h
  exact ⟨N, fun fuel hfuel => hpq fuel (hN fuel hfuel)⟩

/-- What holds with enough fuel holds at some. -/
theorem Enough.exists {p : ℕ → Prop} (h : Enough p) : ∃ fuel, p fuel := by
  obtain ⟨N, hN⟩ := h
  exact ⟨N, hN N (Nat.le_refl N)⟩

/-! Runs of a step function over a list of inputs, with the outputs collected. -/

variable {ι ρ τ : Type}

/-- Feed the inputs to the step in order; the first panic ends the run. -/
def run (step : σ → ι → Exec (ρ × σ)) (s : σ) : List ι → Exec (List ρ × σ)
  | [] => .ok ([], s)
  | i :: is => do
    let (r, s) ← step s i
    let (rs, s) ← run step s is
    return (r :: rs, s)

@[simp] theorem run_nil (step : σ → ι → Exec (ρ × σ)) (s : σ) : run step s [] = .ok ([], s) := rfl

theorem run_cons_ok {step : σ → ι → Exec (ρ × σ)} {s t u : σ} {i : ι} {is : List ι}
    {r : ρ} {rs : List ρ} (h : step s i = .ok (r, t)) (hs : run step t is = .ok (rs, u)) :
    run step s (i :: is) = .ok (r :: rs, u) := by
  simp [run, h, hs]

theorem run_cons_eq_ok {step : σ → ι → Exec (ρ × σ)} {s u : σ} {i : ι} {is : List ι}
    {out : List ρ} :
    run step s (i :: is) = .ok (out, u) ↔
      ∃ r rs t, step s i = .ok (r, t) ∧ run step t is = .ok (rs, u) ∧ out = r :: rs := by
  constructor
  · intro h
    obtain ⟨⟨r, t⟩, hstep, h⟩ := bind_eq_ok.mp h
    obtain ⟨⟨rs, v⟩, hrest, h⟩ := bind_eq_ok.mp h
    simp only [pure_eq_ok, Except.ok.injEq, Prod.mk.injEq] at h
    obtain ⟨rfl, rfl⟩ := h
    exact ⟨r, rs, t, hstep, hrest, rfl⟩
  · rintro ⟨r, rs, t, hstep, hrest, rfl⟩
    exact run_cons_ok hstep hrest

theorem length_of_run {step : σ → ι → Exec (ρ × σ)} {s t : σ} {is : List ι}
    {rs : List ρ} (h : run step s is = .ok (rs, t)) : rs.length = is.length := by
  induction is generalizing s rs with
  | nil =>
    obtain ⟨rfl, -⟩ := Prod.mk.inj (Except.ok.inj h)
    rfl
  | cons i is ih =>
    obtain ⟨r, rs', u, -, hrest, rfl⟩ := run_cons_eq_ok.mp h
    rw [List.length_cons, List.length_cons, ih hrest]

theorem run_append {step : σ → ι → Exec (ρ × σ)} (s : σ) (is js : List ι) :
    run step s (is ++ js) = do
      let (rs, t) ← run step s is
      let (qs, u) ← run step t js
      return (rs ++ qs, u) := by
  induction is generalizing s with
  | nil =>
    cases h : run step s js with
    | error e => simp [h]
    | ok p => simp [h]
  | cons i is ih =>
    cases h : step s i with
    | error e => simp [run, h]
    | ok p =>
      obtain ⟨r, t⟩ := p
      cases h' : run step t is with
      | error e => simp [run, h, ih, h']
      | ok q =>
        obtain ⟨rs, u⟩ := q
        cases h'' : run step u js <;> simp [run, h, ih, h', h'']

/-- A step that keeps an invariant keeps it along every run that returns. -/
theorem run_invariant {step : σ → ι → Exec (ρ × σ)} {P : σ → Prop}
    (hstep : ∀ s i r t, P s → step s i = .ok (r, t) → P t)
    {s t : σ} {is : List ι} {rs : List ρ} (hs : P s) (h : run step s is = .ok (rs, t)) : P t := by
  induction is generalizing s rs with
  | nil =>
    simp only [run_nil, Except.ok.injEq, Prod.mk.injEq] at h
    exact h.2 ▸ hs
  | cons i is ih =>
    obtain ⟨r, rs', u, hu, hrest, -⟩ := run_cons_eq_ok.mp h
    exact ih (hstep s i r u hs hu) hrest

/-- The property holds in every state that the run passes through, its ends included. -/
def Along (step : σ → ι → Exec (ρ × σ)) (P : σ → Prop) (s : σ) (is : List ι) : Prop :=
  ∀ pre out t, pre <+: is → run step s pre = .ok (out, t) → P t

theorem Along.head {step : σ → ι → Exec (ρ × σ)} {P : σ → Prop} {s : σ} {is : List ι}
    (h : Along step P s is) : P s := h [] [] s (List.nil_prefix) rfl

theorem Along.tail {step : σ → ι → Exec (ρ × σ)} {P : σ → Prop} {s t : σ} {i : ι} {is : List ι}
    {r : ρ} (h : Along step P s (i :: is)) (hstep : step s i = .ok (r, t)) :
    Along step P t is := fun pre out u hpre hrun =>
  h (i :: pre) (r :: out) u (List.cons_prefix_cons.mpr ⟨rfl, hpre⟩) (run_cons_ok hstep hrun)

/-! What an iterator hands out: the items of repeated calls of `next`, up to the first that returns
none. A relation between states and lists that every call keeps says what is handed out. -/

section Iterators

variable {σ α : Type} {next : σ → Exec (Option α × σ)} {s : σ} {as bs : List α}

/-- Repeated calls of `next` return these items in turn, and then none. -/
inductive HandsOut (next : σ → Exec (Option α × σ)) : σ → List α → Prop
  | done {s s' : σ} (hnext : next s = .ok (none, s')) : HandsOut next s []
  | item {s s' : σ} {a : α} {as : List α} (hnext : next s = .ok (some a, s'))
      (hrest : HandsOut next s' as) : HandsOut next s (a :: as)

/-- The rule of iterators: one call hands out the head and leaves the tail. -/
theorem HandsOut.of_keeps {R : σ → List α → Prop}
    (hkeep : ∀ s as, R s as → ∃ s', next s = .ok (as.head?, s') ∧ R s' as.tail)
    (h : R s as) : HandsOut next s as := by
  induction as generalizing s with
  | nil =>
    obtain ⟨s', hnext, -⟩ := hkeep s [] h
    exact .done hnext
  | cons a as ih =>
    obtain ⟨s', hnext, hrest⟩ := hkeep s (a :: as) h
    exact .item hnext (ih hrest)

theorem HandsOut.unique (h : HandsOut next s as) (h' : HandsOut next s bs) : as = bs := by
  induction h generalizing bs with
  | done hnext =>
    cases h' with
    | done => rfl
    | item hnext' => simp [hnext] at hnext'
  | item hnext _ ih =>
    cases h' with
    | done hnext' => simp [hnext] at hnext'
    | item hnext' hrest' =>
      rw [hnext, Except.ok.injEq, Prod.mk.injEq, Option.some.injEq] at hnext'
      obtain ⟨rfl, rfl⟩ := hnext'
      rw [ih hrest']

end Iterators

end Lobcore.Checked
