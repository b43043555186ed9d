import Lobcore.ArrayViews
import Lobcore.ReferenceRefines
import Lobcore.Sessions

/-!
Moving a locate from the reference book to the array book. Both kinds of book follow one
market; re-adding the snapshot of a market to an empty array book passes through the parts
of that market, each accepted in full, and ends with the market itself.
-/
namespace Lobcore.Migrations

open Checked OrderTypes OrderSlab Bitmaps Markets ReferenceBook ArrayBooks Sessions

/-- The orders of a market that stand in the given part of its queues. -/
def part (m : Market) (p : Side → ℤ → Queue) : Market where
  queue := p
  home id := (m.home id).filter fun h => id ∈ ids (p h.1 h.2)

/-- The same queues, with one of them replaced. -/
def place (p : Side → ℤ → Queue) (s : Side) (px : ℤ) (q : Queue) : Side → ℤ → Queue :=
  fun s' px' => if s' = s ∧ px' = px then q else p s' px'

theorem live_part_le (m : Market) (p : Side → ℤ → Queue) : (part m p).live ≤ m.live := by
  refine Set.ncard_le_ncard (fun id hid => ?_) (Set.toFinite _)
  simp only [part, Set.mem_ofPred_eq, Option.isSome_filter] at hid ⊢
  cases hh : m.home id with
  | none => simp [hh] at hid
  | some h => rfl

/-- The snapshot names every queue once. -/
theorem snapshot_keys_nodup {m : Market} (hlevels : ∀ s, m.IsLevels s (m.levels s)) :
    (m.snapshot.map fun e => (e.1, e.2.1)).Nodup := by
  have hside : ∀ s, ((m.levels s).map fun e => (s, e.1)).Nodup := by
    intro s
    refine List.pairwise_map.mpr ((hlevels s).sorted.imp fun {a b} hab heq => ?_)
    rw [(Prod.mk.inj heq).2] at hab
    exact Market.better_asymm s _ _ hab hab
  rw [Market.snapshot, List.map_append, List.map_map, List.map_map]
  refine List.nodup_append.mpr ⟨hside .bid, hside .ask, ?_⟩
  intro a ha b hb hab
  obtain ⟨e, -, rfl⟩ := List.mem_map.mp ha
  obtain ⟨e', -, rfl⟩ := List.mem_map.mp hb
  exact absurd (Prod.mk.inj hab).1 Side.noConfusion

section Parts

variable {m : Market} (hm : m.WF) (hpriced : m.Priced)

include hm

theorem part_queue : part m m.queue = m := by
  have hhome : (part m m.queue).home = m.home := by
    funext id
    simp only [part]
    cases hh : m.home id with
    | none => rfl
    | some h => simp [(hm.home_iff id h.1 h.2).mp hh]
  exact congrArg (Market.mk m.queue) hhome

include hpriced

/-- The next order of a queue is accepted, and is then part of the market. -/
theorem part_add {p : Side → ℤ → Queue} {s : Side} {px : ℤ} {e : OrderId × ℕ}
    (hp : p s px ++ [e] <+: m.queue s px) :
    (part m p).add e.1 s px e.2 =
      (.ok (.add e.1 s px e.2), part m (place p s px (p s px ++ [e]))) := by
  obtain ⟨rest, hq⟩ := hp
  have hmem : e ∈ m.queue s px := by simp [← hq]
  have hqty := hm.qty_pos s px e hmem
  have hne : m.queue s px ≠ [] := List.ne_nil_of_mem hmem
  have htotal := hm.total_lt s px
  rw [← hq, List.append_assoc, total_append, List.singleton_append, total_cons] at htotal
  have hnodup := hm.nodup s px
  rw [← hq, ids_append, ids_append] at hnodup
  have hfresh : e.1 ∉ ids (p s px) := fun h =>
    (List.nodup_append.mp (List.nodup_append.mp hnodup).1).2.2 e.1 h e.1 (by simp) rfl
  have hhome : m.home e.1 = some (s, px) :=
    (hm.home_iff e.1 s px).mpr (List.mem_map.mpr ⟨e, hmem, rfl⟩)
  have hgone : (part m p).home e.1 = none := by simp [part, hhome, hfresh]
  have hnext : (part m p).push e.1 s px e.2 = part m (place p s px (p s px ++ [e])) := by
    have hh : ((part m p).push e.1 s px e.2).home =
        (part m (place p s px (p s px ++ [e]))).home := by
      funext id
      simp only [Market.push, Function.update_apply, part, place]
      by_cases hid : id = e.1
      · subst hid
        simp [hhome, Option.filter_some]
      · rw [if_neg hid]
        cases m.home id with
        | none => rfl
        | some h =>
          by_cases hk : h.1 = s ∧ h.2 = px
          · obtain ⟨rfl, rfl⟩ := hk
            simp [Option.filter_some, hid]
          · simp [Option.filter_some, hk]
    exact congrArg (Market.mk _) hh
  have hfit : ¬ 2 ^ 32 ≤ total ((part m p).queue s px) + e.2 := by
    show ¬ 2 ^ 32 ≤ total (p s px) + e.2
    omega
  unfold Market.add
  rw [if_neg hqty.ne', if_neg (not_le.mpr (hpriced s px hne)), if_neg hfit, hgone, hnext]
  rfl

theorem readdLevel_returns {Q : Prop} {ab : ArrayBook} {p : Side → ℤ → Queue}
    (hroom : Q → m.live ≤ nilSlot) (h : ab.Refines (part m p)) {s : Side} {px : ℤ} {q : Queue}
    (hq : p s px ++ q <+: m.queue s px) :
    Returns Q (·.Refines (part m (place p s px (p s px ++ q)))) (readdLevel ab s px q) := by
  induction q generalizing ab p with
  | nil =>
    have hsame : place p s px (p s px ++ []) = p := by
      funext s' px'
      simp only [place, List.append_nil]
      split
      · rename_i hk
        rw [hk.1, hk.2]
      · rfl
    rw [hsame]
    exact Returns.of_ok h
  | cons e q ih =>
    have he : p s px ++ [e] <+: m.queue s px := by
      obtain ⟨rest, hrest⟩ := hq
      exact ⟨q ++ rest, by simpa using hrest⟩
    have hadd := part_add hm hpriced he
    have hpx := hm.px_range s px fun h => by
      rw [h] at he
      simp at he
    have hqty : e.2 < 2 ^ 32 :=
      lt_of_le_of_lt (le_total_of_mem (he.subset (by simp))) (hm.total_lt s px)
    have hplace : place p s px (p s px ++ [e]) s px = p s px ++ [e] := if_pos ⟨rfl, rfl⟩
    have hsame : place (place p s px (p s px ++ [e])) s px (p s px ++ [e] ++ q) =
        place p s px (p s px ++ e :: q) := by
      funext s' px'
      by_cases hk : s' = s ∧ px' = px
      · simp [place, hk]
      · simp [place, hk]
    rw [readdLevel, List.foldlM_cons, bind_assoc]
    refine (h.add_returns e.1 s hpx.2 hqty fun hgood => ?_).bind fun r hr => ?_
    · rw [hadd]
      exact (live_part_le m _).trans (hroom hgood)
    · rw [hadd] at hr
      obtain ⟨reply, ab₁⟩ := r
      obtain ⟨rfl, h₁⟩ := hr
      have hrest := ih h₁ (by rw [hplace]; simpa using hq)
      rw [hplace, hsame] at hrest
      exact hrest

/-- The part of a market in which every queue of the levels stands in full. -/
def filled (m : Market) (p : Side → ℤ → Queue) (levels : Snapshot) : Side → ℤ → Queue := fun s px =>
  if (s, px) ∈ levels.map fun e => (e.1, e.2.1) then m.queue s px else p s px

theorem readd_part {Q : Prop} {ab : ArrayBook} {p : Side → ℤ → Queue}
    (hroom : Q → m.live ≤ nilSlot) (h : ab.Refines (part m p)) {levels : Snapshot}
    (hkeys : (levels.map fun e => (e.1, e.2.1)).Nodup)
    (hlevels : ∀ e ∈ levels, p e.1 e.2.1 = [] ∧ e.2.2 = m.queue e.1 e.2.1) :
    Returns Q (·.Refines (part m (filled m p levels))) (readd ab levels) := by
  induction levels generalizing ab p with
  | nil => exact Returns.of_ok h
  | cons lvl levels ih =>
    obtain ⟨s, px, q⟩ := lvl
    have hempty : p s px = [] := (hlevels _ (List.mem_cons_self ..)).1
    obtain rfl : q = m.queue s px := (hlevels _ (List.mem_cons_self ..)).2
    rw [List.map_cons, List.nodup_cons] at hkeys
    have hsame : filled m (place p s px (m.queue s px)) levels =
        filled m p ((s, px, m.queue s px) :: levels) := by
      funext s' px'
      by_cases hk : s' = s ∧ px' = px
      · obtain ⟨rfl, rfl⟩ := hk
        simp [filled, place]
      · have hmem : (s', px') ∈ ((s, px, m.queue s px) :: levels).map (fun e => (e.1, e.2.1)) ↔
            (s', px') ∈ levels.map fun e => (e.1, e.2.1) := by
          rw [List.map_cons, List.mem_cons, Prod.mk.injEq]
          exact or_iff_right hk
        simp only [filled, place, if_neg hk, hmem]
    have hlevel := readdLevel_returns hm hpriced hroom h (s := s) (q := m.queue s px)
      (show p s px ++ m.queue s px <+: m.queue s px by rw [hempty, List.nil_append])
    rw [hempty, List.nil_append] at hlevel
    rw [readd, List.foldlM_cons]
    refine hlevel.bind fun ab₁ h₁ => ?_
    rw [← hsame]
    refine ih h₁ hkeys.2 fun e he => ?_
    obtain ⟨hp, hq⟩ := hlevels e (List.mem_cons_of_mem _ he)
    have hne : ¬ (e.1 = s ∧ e.2.1 = px) := fun hk =>
      hkeys.1 (List.mem_map.mpr ⟨e, he, by rw [hk.1, hk.2]⟩)
    exact ⟨by rw [place, if_neg hne, hp], hq⟩

/-- Re-adding the snapshot of a market to an empty array book gives a book of that market. -/
theorem readd_snapshot {Q : Prop} (hlevels : ∀ s, m.IsLevels s (m.levels s)) {ab : ArrayBook}
    (hroom : Q → m.live ≤ nilSlot) (h : ab.Refines .empty) :
    Returns Q (·.Refines m) (readd ab m.snapshot) := by
  have hempty : part m (fun _ _ => []) = .empty := by
    have hhome : (part m fun _ _ => []).home = Market.empty.home := by
      funext id
      simp [part, Market.empty]
    exact congrArg (Market.mk _) hhome
  have hreadd := readd_part hm hpriced hroom (hempty ▸ h) (snapshot_keys_nodup hlevels)
    fun e he => ⟨rfl, ((Market.mem_snapshot hlevels).mp he).1.symm⟩
  have hfull : filled m (fun _ _ => []) m.snapshot = m.queue := by
    funext s px
    by_cases hq : m.queue s px = []
    · simp [filled, hq]
    · have hmem := (Market.mem_snapshot hlevels).mpr ⟨rfl, hq⟩
      exact if_pos (List.mem_map.mpr ⟨_, hmem, rfl⟩)
  rw [hfull, part_queue hm] at hreadd
  exact hreadd

end Parts

/-- A window that the array book accepts. -/
structure ValidSession (cfg : SessionConfig) : Prop where
  window_pos : 1 ≤ cfg.arrayWindow
  window_le : cfg.arrayWindow ≤ maxLevels

theorem real_range {px : UInt32} (h : isPlaceholder px = false) :
    100 < px.toNat ∧ px.toNat < 1999000000 := by
  simp only [isPlaceholder, Bool.or_eq_false_iff, decide_eq_false_iff_not,
    UInt32.le_iff_toNat_le] at h
  exact ⟨not_le.mp h.1, not_le.mp h.2⟩

/-- A real price survives the cast to a signed price. -/
theorem toInt_of_real {px : UInt32} (h : isPlaceholder px = false) :
    px.toInt32.toInt = px.toNat := by
  have hlt := (real_range h).2
  exact BitVec.toInt_eq_toNat_of_lt (show 2 * px.toNat < 2 ^ 32 by omega)

theorem tickFor_cases (px : UInt32) : tickFor px = 100 ∨ tickFor px = 1 := by
  unfold tickFor
  split
  · exact Or.inl rfl
  · exact Or.inr rfl

section Window

variable {cfg : SessionConfig} {px : UInt32} (hpx : isPlaceholder px = false) {k : ℤ}
  (hk : min ((cfg.arrayWindow / 2 : ℕ) : ℤ) (((px.toNat : ℤ) - 1) / tickFor px) = k)

include hpx hk

/-- The bottom of the window lies below a real price, and above zero. -/
theorem below_bounds : 0 ≤ k ∧ 0 ≤ k * tickFor px ∧ k * tickFor px ≤ px.toNat - 1 := by
  obtain ⟨hlow, -⟩ := real_range hpx
  have hle : k ≤ ((px.toNat : ℤ) - 1) / tickFor px := hk ▸ min_le_right _ _
  have htick := tickFor_cases px
  generalize tickFor px = tick at hk hle htick ⊢
  have hk0 : 0 ≤ k := by
    rw [← hk]
    exact le_min (by omega) (by rcases htick with rfl | rfl <;> omega)
  rcases htick with rfl | rfl <;> omega

/-- The move at a real price, with its arithmetic done. -/
theorem migrate_eq (hcfg : ValidSession cfg) (rb : RefBook) :
    ValidConfig ⟨px.toNat - k * tickFor px, cfg.arrayWindow, tickFor px⟩ ∧
      migrate cfg rb px.toInt32 = (do
        let ab ← ArrayBook.withCapacity ⟨px.toNat - k * tickFor px, cfg.arrayWindow, tickFor px⟩
          cfg.arrayReserve
        return (k, ← readd ab rb.snapshot)) := by
  obtain ⟨hlow, hhigh⟩ := real_range hpx
  obtain ⟨hk0, hdown, htop⟩ := below_bounds hpx hk
  have hval := toInt_of_real hpx
  have hsame : px.toInt32.toUInt32 = px := rfl
  have htick := tickFor_cases px
  have hhalf : k ≤ ((cfg.arrayWindow / 2 : ℕ) : ℤ) := hk ▸ min_le_left _ _
  have hwindow := hcfg.window_le
  unfold maxLevels at hwindow
  have hbelow : fitI32 ((px.toNat : ℤ) - 1) = .ok ((px.toNat : ℤ) - 1) := fitI32_ok (by omega)
  have hdiv : ((px.toNat : ℤ) - 1).tdiv (tickFor px) = ((px.toNat : ℤ) - 1) / tickFor px :=
    Int.tdiv_eq_ediv_of_nonneg (by omega)
  have hfit : fitI32 (k * tickFor px) = .ok (k * tickFor px) := fitI32_ok (by omega)
  have hbase : fitI32 ((px.toNat : ℤ) - k * tickFor px) = .ok ((px.toNat : ℤ) - k * tickFor px) :=
    fitI32_ok (by omega)
  refine ⟨⟨hcfg.window_pos, hcfg.window_le, ?_, ?_, ?_⟩, ?_⟩
  · show 0 < tickFor px
    rcases htick with htick | htick <;> rw [htick] <;> decide
  · show 0 < (px.toNat : ℤ) - k * tickFor px
    omega
  · show (px.toNat : ℤ) - k * tickFor px + ((cfg.arrayWindow : ℤ) - 1) * tickFor px < 2 ^ 31
    rcases htick with htick | htick <;> rw [htick] at htop ⊢ <;> omega
  · simp only [migrate, hval, hsame, hbelow, ok_bind, hdiv, hk, hfit, hbase]

end Window

/-- The move to the array book at a real price keeps the market. -/
theorem migrate_returns {Q : Prop} {cfg : SessionConfig} (hcfg : ValidSession cfg)
    (hsize : Q → Reservable cfg.arrayReserve) {rb : RefBook} {m : Market} (h : rb.Refines m)
    (hpriced : m.Priced) (hroom : Q → m.live ≤ nilSlot) {px : UInt32}
    (hpx : isPlaceholder px = false) :
    Returns Q (·.2.Refines m) (migrate cfg rb px.toInt32) := by
  obtain ⟨hvalid, heq⟩ := migrate_eq hpx rfl hcfg rb
  have hlevels : ∀ s, m.IsLevels s (m.levels s) := fun s => h.bestFirst_eq s ▸ h.isLevels s
  rw [heq, h.snapshot_eq]
  refine (ArrayBook.withCapacity_returns hvalid hsize).bind fun ab hab => ?_
  refine (readd_snapshot h.wf hpriced hlevels hroom hab.1).bind fun ab' h' => ?_
  exact Returns.of_ok h'

end Lobcore.Migrations

namespace Lobcore.Sessions.LocateBook

open Checked OrderTypes OrderSlab Markets ReferenceBook ArrayBooks

/-- The book of a locate shows a market, whichever kind it is. -/
def Shows : LocateBook → Market → Prop
  | array b, m => b.Refines m
  | ref r, m => r.Refines m

/-- The book of a locate follows a market: it shows it, and every order has a positive price. -/
structure Refines (b : LocateBook) (m : Market) : Prop where
  priced : m.Priced
  shown : b.Shows m

theorem refines_new : Refines (.ref .new) .empty := ⟨Market.priced_empty, RefBook.refines_new⟩

variable {b : LocateBook} {m : Market} (h : b.Refines m)

include h

/-- A call follows the market and leaves the kind of the book; only an array book can run
out of slots. -/
theorem Refines.apply_returns {Q : Prop} (op : Op)
    (hroom : Q → ∀ ab, b = .array ab → (m.apply op).2.live ≤ nilSlot) :
    Returns Q (fun p => p.1 = (m.apply op).1 ∧ p.2.Refines (m.apply op).2 ∧
      ∀ ab, p.2 = .array ab → ∃ ab', b = .array ab') (b.apply op) := by
  cases b with
  | array b =>
    refine (ArrayBook.Refines.apply_returns h.shown op fun hq => hroom hq b rfl).bind fun p hp => ?_
    exact Returns.of_ok ⟨hp.1, ⟨h.priced.apply op, hp.2⟩, fun _ _ => ⟨b, rfl⟩⟩
  | ref r =>
    obtain ⟨r', hr, h'⟩ := RefBook.Refines.apply h.shown op
    exact Returns.of_eq (a := (_, .ref r')) (by rw [LocateBook.apply, hr]; rfl)
      ⟨rfl, ⟨h.priced.apply op, h'⟩, fun _ => LocateBook.noConfusion⟩

theorem Refines.l1_eq : b.l1 = .ok m.l1 := by
  cases b with
  | array b => exact ArrayBook.Refines.l1_eq h.shown
  | ref r => exact RefBook.Refines.l1_eq h.shown

theorem Refines.l2_eq (depth : ℕ) : b.l2 depth = .ok (m.l2 depth) := by
  cases b with
  | array b => exact ArrayBook.Refines.l2_eq h.shown depth
  | ref r => exact RefBook.Refines.l2_eq h.shown depth

theorem Refines.queueAhead_eq (id : OrderId) : b.queueAhead id = .ok (m.queueAhead id) := by
  cases b with
  | array b => exact ArrayBook.Refines.queueAhead_eq h.shown id
  | ref r => exact RefBook.Refines.queueAhead_eq h.shown id

theorem Refines.snapshot_eq : b.snapshot = .ok m.snapshot := by
  cases b with
  | array b => exact ArrayBook.Refines.snapshot_eq h.shown
  | ref r => exact congrArg Except.ok (RefBook.Refines.snapshot_eq h.shown)

theorem Refines.stateBytes_eq : b.stateBytes = .ok m.stateBytes := by
  cases b with
  | array b => exact ArrayBook.Refines.stateBytes_eq h.shown
  | ref r => exact congrArg Except.ok (RefBook.Refines.stateBytes_eq h.shown)

theorem Refines.liveOrders_eq : b.liveOrders = m.live := by
  cases b with
  | array b => exact ArrayBook.Refines.liveOrders_eq h.shown
  | ref r => exact RefBook.Refines.liveOrders_eq h.shown

theorem Refines.wf : m.WF := by
  cases b with
  | array b => exact ArrayBook.Refines.market h.shown
  | ref r => exact RefBook.Refines.wf h.shown

end Lobcore.Sessions.LocateBook
