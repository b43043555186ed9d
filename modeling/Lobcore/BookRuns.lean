import Lobcore.ArrayChecks
import Lobcore.ReferenceRefines

/-!
Runs of calls on the two books. Both books follow the market, so they give the same
replies and show the same things for as long as the slab has room; on the way the array
book keeps its representation, aborts nowhere, and a rejected call changes nothing.
-/
namespace Lobcore.BookRuns

open Checked OrderTypes SortedMaps OrderSlab PriceLevels Markets ReferenceBook ArrayBooks

/-- Fewer than `2 ^ 32 - 1` orders rest in the array book. -/
def Roomy (b : ArrayBook) : Prop := b.liveOrders < 2 ^ 32 - 1

structure SameViews (b : ArrayBook) (r : RefBook) : Prop where
  l1 : ∃ v, b.l1 = .ok v ∧ r.l1 = .ok v
  l2 : ∀ d, ∃ v, b.l2 d = .ok v ∧ r.l2 d = .ok v
  queueAhead : ∀ id, ∃ v, b.queueAhead id = .ok v ∧ r.queueAhead id = .ok v
  liveOrders : b.liveOrders = r.liveOrders
  snapshot : b.snapshot = .ok r.snapshot
  stateBytes : b.stateBytes = .ok r.stateBytes

/-- Two books that follow one market show the same. -/
theorem sameViews_of_refines {b : ArrayBook} {r : RefBook} {m : Market} (hb : b.Refines m)
    (hr : r.Refines m) : SameViews b r where
  l1 := ⟨_, hb.l1_eq, hr.l1_eq⟩
  l2 d := ⟨_, hb.l2_eq d, hr.l2_eq d⟩
  queueAhead id := ⟨_, hb.queueAhead_eq id, hr.queueAhead_eq id⟩
  liveOrders := hb.liveOrders_eq.trans hr.liveOrders_eq.symm
  snapshot := by rw [hb.snapshot_eq, hr.snapshot_eq]
  stateBytes := by rw [hb.stateBytes_eq, hr.stateBytes_eq]

/-- No book was ever fuller than a slab. -/
def Within (m : Market) (ops : List Op) : Prop :=
  ∀ pre, pre <+: ops → (m.applyAll pre).2.live ≤ nilSlot

theorem Within.tail {m : Market} {op : Op} {ops : List Op} (h : Within m (op :: ops)) :
    Within (m.apply op).2 ops := fun pre hpre =>
  h (op :: pre) (List.cons_prefix_cons.mpr ⟨rfl, hpre⟩)

/-- With room for every order the array book follows the market. -/
theorem array_run {b : ArrayBook} {m : Market} (h : b.Refines m) {ops : List Op}
    (hroom : Within m ops) :
    ∃ b', run ArrayBook.apply b ops = .ok ((m.applyAll ops).1, b') ∧
      b'.Refines (m.applyAll ops).2 := by
  induction ops generalizing b m with
  | nil => exact ⟨b, rfl, h⟩
  | cons op ops ih =>
    have hfits := hroom [op] (List.cons_prefix_cons.mpr ⟨rfl, List.nil_prefix⟩)
    obtain ⟨b₁, hstep, h₁⟩ := h.apply op hfits
    obtain ⟨b', hrest, h'⟩ := ih h₁ hroom.tail
    exact ⟨b', run_cons_ok hstep hrest, h'⟩

/-- A run that returns had room for every order. -/
theorem within_of_run {b b' : ArrayBook} {m : Market} (h : b.Refines m) {ops : List Op}
    {replies : List Reply} (hrun : run ArrayBook.apply b ops = .ok (replies, b')) :
    Within m ops := by
  induction ops generalizing b m replies with
  | nil =>
    intro pre hpre
    obtain rfl := List.prefix_nil.mp hpre
    exact h.live_le
  | cons op ops ih =>
    obtain ⟨r, rs, b₁, hstep, hrest, -⟩ := run_cons_eq_ok.mp hrun
    obtain ⟨-, h₁⟩ := (h.apply_returns (Q := False) op False.elim).of_run hstep
    intro pre hpre
    cases pre with
    | nil => exact h.live_le
    | cons op' pre =>
      obtain ⟨rfl, hprefix⟩ := List.cons_prefix_cons.mp hpre
      exact ih h₁ hrest pre hprefix

theorem within_iff {r : RefBook} {m : Market} (h : r.Refines m) (ops : List Op) :
    Along RefBook.apply (fun r => r.liveOrders ≤ 2 ^ 32 - 1) r ops ↔ Within m ops := by
  constructor
  · intro halong pre hpre
    obtain ⟨r', hrun, hr'⟩ := h.run pre
    have hle : r'.liveOrders ≤ 2 ^ 32 - 1 := halong pre _ r' hpre hrun
    rw [hr'.liveOrders_eq] at hle
    exact hle
  · intro hwithin pre out r' hpre hrun
    obtain ⟨r₁, hrun₁, hr₁⟩ := h.run pre
    obtain ⟨-, rfl⟩ := Prod.mk.inj (Except.ok.inj (hrun.symm.trans hrun₁))
    rw [hr₁.liveOrders_eq]
    exact hwithin pre hpre

theorem room_of_along {b : ArrayBook} {m : Market} (h : b.Refines m) {ops : List Op}
    (hbound : Along ArrayBook.apply Roomy b ops) :
    ∀ pre, pre <+: ops → (m.applyAll pre).2.live < nilSlot := by
  have hhead : ∀ {b : ArrayBook} {m : Market} {ops : List Op}, b.Refines m →
      Along ArrayBook.apply Roomy b ops → m.live < nilSlot := by
    intro b m ops h hbound
    have hlive := hbound.head
    rw [Roomy, h.liveOrders_eq] at hlive
    unfold nilSlot
    omega
  induction ops generalizing b m with
  | nil =>
    intro pre hpre
    obtain rfl := List.prefix_nil.mp hpre
    exact hhead h hbound
  | cons op ops ih =>
    intro pre hpre
    cases pre with
    | nil => exact hhead h hbound
    | cons op' pre =>
      obtain ⟨rfl, hrest⟩ := List.cons_prefix_cons.mp hpre
      obtain ⟨b₁, hstep, h₁⟩ := h.apply op' ((m.live_apply_le op').trans (hhead h hbound))
      exact ih h₁ (hbound.tail hstep) pre hrest

/-- A run shorter than the slab has room throughout. -/
theorem along_of_length {ops : List Op} (hlen : ops.length < 2 ^ 32 - 1) :
    Along RefBook.apply (fun r => r.liveOrders < 2 ^ 32 - 1) RefBook.new ops := by
  intro pre out r hpre hrun
  obtain ⟨r', hrun', hr'⟩ := RefBook.Refines.run RefBook.refines_new pre
  obtain ⟨-, rfl⟩ := Prod.mk.inj (Except.ok.inj (hrun.symm.trans hrun'))
  have hle := Market.live_applyAll_le .empty pre
  have hpl := hpre.length_le
  rw [Market.live_empty] at hle
  rw [hr'.liveOrders_eq]
  omega

theorem new_refines {cfg : BookConfig} (hcfg : ValidConfig cfg) {b₀ : ArrayBook}
    (hnew : ArrayBook.new cfg = .ok b₀) : b₀.Refines .empty := by
  obtain ⟨b, hb, href, -⟩ := ArrayBook.new_spec hcfg
  exact Except.ok.inj (hb.symm.trans hnew) ▸ href

theorem roomy_of_length {cfg : BookConfig} (hcfg : ValidConfig cfg) {b₀ : ArrayBook}
    (hnew : ArrayBook.new cfg = .ok b₀) {ops : List Op} (hlen : ops.length < 2 ^ 32 - 1) :
    Along ArrayBook.apply Roomy b₀ ops := by
  intro pre out b hpre hrun
  have hlt : ∀ pre', pre' <+: ops → (Market.empty.applyAll pre').2.live < nilSlot := by
    intro pre' hpre'
    have hle := Market.live_applyAll_le .empty pre'
    have hpl := hpre'.length_le
    rw [Market.live_empty] at hle
    unfold nilSlot
    omega
  obtain ⟨b', hrun', hb'⟩ := array_run (new_refines hcfg hnew) fun pre' hpre' =>
    (hlt pre' (hpre'.trans hpre)).le
  obtain ⟨-, rfl⟩ := Prod.mk.inj (Except.ok.inj (hrun.symm.trans hrun'))
  have := hlt pre hpre
  rw [Roomy, hb'.liveOrders_eq]
  unfold nilSlot at this
  omega

/-- The array book refines the reference book: from two empty books, every sequence of
calls gives the same replies, and after every call both books show the same. -/
theorem arrayBook_refines_refBook {cfg : BookConfig} (hcfg : ValidConfig cfg) {ops : List Op}
    (hbound : Along RefBook.apply (fun r => r.liveOrders < 2 ^ 32 - 1) RefBook.new ops) :
    ∃ b₀, ArrayBook.new cfg = .ok b₀ ∧ ∀ pre, pre <+: ops → ∃ replies b r,
      run ArrayBook.apply b₀ pre = .ok (replies, b) ∧
      run RefBook.apply RefBook.new pre = .ok (replies, r) ∧ SameViews b r := by
  obtain ⟨b₀, hnew, hb₀, -⟩ := ArrayBook.new_spec hcfg
  refine ⟨b₀, hnew, fun pre hpre => ?_⟩
  have hroom : ∀ pre', pre' <+: pre → (Market.empty.applyAll pre').2.live < nilSlot := by
    intro pre' hpre'
    obtain ⟨r, hrun, hr⟩ := RefBook.Refines.run RefBook.refines_new pre'
    have hlive : r.liveOrders < 2 ^ 32 - 1 := hbound pre' _ r (hpre'.trans hpre) hrun
    rw [hr.liveOrders_eq] at hlive
    unfold nilSlot
    omega
  obtain ⟨b, hrun, hb⟩ := array_run hb₀ fun pre' hpre' => (hroom pre' hpre').le
  obtain ⟨r, hrun', hr⟩ := RefBook.Refines.run RefBook.refines_new pre
  exact ⟨_, b, r, hrun, hrun', sameViews_of_refines hb hr⟩

theorem arrayBook_refines_refBook_mixed : ∃ b₀, ArrayBook.new ⟨100, 4, 5⟩ = .ok b₀ ∧
    ∀ pre, pre <+: [Op.add 1 .bid 105 5, .add 2 .bid 105 3, .execute 1 2, .replace 2 3 250 4,
      .delete 9] → ∃ replies b r, run ArrayBook.apply b₀ pre = .ok (replies, b) ∧
      run RefBook.apply RefBook.new pre = .ok (replies, r) ∧ SameViews b r :=
  arrayBook_refines_refBook (by constructor <;> decide) (along_of_length (by decide))

/-! The slots of a book: which are free, which are linked into levels, which have an id. -/

/-- The slots met from one on, following the links to their end. -/
def slotLoop (slab : Slab) : ℕ → ℕ → Exec (List ℕ)
  | 0, _ => .error .unfinished
  | fuel + 1, i =>
    if i = nilSlot then return []
    else do
      let s ← slab.get i
      return i :: (← slotLoop slab fuel s.next)

def freeSlots (b : ArrayBook) : Exec (List ℕ) :=
  slotLoop b.slab (b.slab.capacity + 1) b.slab.freeHead

def levelSlots (b : ArrayBook) (l : Level) : Exec (List ℕ) :=
  slotLoop b.slab (b.slab.capacity + 1) l.head

/-- The slots linked into the levels of a side, in the array and in the overflow map. -/
def linkedSide (b : ArrayBook) (s : Side) : Exec (List ℕ) := do
  let slots ← ((b.side s).levels ++ (b.side s).overflow.entries.map Prod.snd).mapM (levelSlots b)
  return slots.flatten

def linkedSlots (b : ArrayBook) : Exec (List ℕ) := do
  return (← linkedSide b .bid) ++ (← linkedSide b .ask)

/-- The slot of a live id. -/
def slotOf (b : ArrayBook) (id : OrderId) : ℕ := (b.ids.get? id).getD nilSlot

/-- Every slot is on the free list or linked into one level, never both, and the id map
pairs the live ids with the linked slots that hold them. -/
structure Partitioned (b : ArrayBook) (free linked : List ℕ) : Prop where
  free_eq : freeSlots b = .ok free
  linked_eq : linkedSlots b = .ok linked
  free_nodup : free.Nodup
  linked_nodup : linked.Nodup
  disjoint : ∀ i ∈ free, i ∉ linked
  cover : ∀ i, i < b.slab.capacity ↔ i ∈ free ∨ i ∈ linked
  bijection : Set.BijOn (slotOf b) {id | b.ids.contains id} {i | i ∈ linked}
  holds : ∀ id, b.ids.contains id → ∃ t, b.slab.get (slotOf b id) = .ok t ∧ t.id = id

theorem slotLoop_eq {slab : Slab} {xs : List ℕ} {fuel : ℕ}
    (hlt : ∀ i ∈ xs, i < slab.slots.length) (hnil : nilSlot ∉ xs)
    (hthread : LinkedCells.Threaded (fun i => (slab.cell i).next) xs nilSlot)
    (hfuel : xs.length < fuel) : slotLoop slab fuel (xs.headD nilSlot) = .ok xs := by
  induction xs generalizing fuel with
  | nil =>
    obtain ⟨fuel, rfl⟩ := Nat.exists_eq_succ_of_ne_zero (Nat.ne_of_gt hfuel)
    simp [slotLoop]
  | cons i xs ih =>
    obtain ⟨fuel, rfl⟩ := Nat.exists_eq_succ_of_ne_zero (Nat.ne_of_gt (Nat.zero_lt_of_lt hfuel))
    obtain ⟨hnext, hrest⟩ := hthread
    obtain ⟨hne, hnil⟩ := not_or.mp (mt List.mem_cons.mpr hnil)
    have htail := ih (fun j hj => hlt j (List.mem_cons_of_mem _ hj)) hnil hrest
      (Nat.lt_of_succ_lt_succ hfuel)
    simp only [List.headD_cons, slotLoop, if_neg (Ne.symm hne),
      Slab.get_ok (hlt i (List.mem_cons_self ..)), ok_bind, hnext, htail, pure_eq_ok]

section Slots

variable {b : ArrayBook} {m : Market} {line : Lines} {free : List ℕ} (h : Represents b m line free)

include h

theorem freeSlots_eq : freeSlots b = .ok free := by
  have hlive := h.freeList.live_eq
  rw [freeSlots, h.freeList.head_eq]
  exact slotLoop_eq h.freeList.bound (fun hmem =>
      absurd (h.freeList.bound _ hmem) (not_lt.mpr h.freeList.capacity_le)) h.freeList.threaded
    (by unfold Slab.capacity; omega)

theorem levelSlots_eq (s : Side) (px : ℤ) :
    levelSlots b (lineLevel (line s px) (m.queue s px)) = .ok (line s px) := by
  have hlen := h.line_length_le s px
  exact slotLoop_eq (fun i hi => h.line_lt hi) (fun hmem => h.ne_nilSlot hmem rfl)
    (h.linked s px).threaded
    (by unfold Slab.capacity; omega)

/-- Array and overflow map together keep one record for each checked price. -/
theorem level_records (s : Side) :
    (b.side s).levels ++ (b.side s).overflow.entries.map Prod.snd =
      (Represents.checkedPrices b s).map fun px => lineLevel (line s px) (m.queue s px) := by
  have hlevels : (b.side s).levels = (List.range b.grid.nLevels).map fun i =>
      lineLevel (line s (b.grid.price i)) (m.queue s (b.grid.price i)) := by
    refine List.ext_getElem (by simp [(h.side_wf s).length_eq]) fun i hi _ => ?_
    have hn : i < b.grid.nLevels := (h.side_wf s).length_eq ▸ hi
    have hlevel := h.level_eq s (b.grid.price i)
    rw [h.grid.locate_price hn] at hlevel
    simpa [SideLevels.levelAt, SideLevels.at?, hi] using hlevel
  rw [Represents.checkedPrices, List.map_append, List.map_map, SortedMap.keys, List.map_map]
  congr 1
  refine List.map_congr_left fun e he => ?_
  have hget := SortedMap.get?_eq_some_iff.mpr he
  obtain ⟨-, -, hloc⟩ := (h.side_wf s).overflow_entry e.1 e.2 hget
  have hlevel := h.level_eq s e.1
  rw [hloc, SideLevels.levelAt, SideLevels.at?, hget, Option.getD_some] at hlevel
  exact hlevel

theorem linkedSide_eq (s : Side) :
    linkedSide b s = .ok (Represents.sideSlots b line s) := by
  have hslots : ((b.side s).levels ++ (b.side s).overflow.entries.map Prod.snd).mapM
      (levelSlots b) =
      .ok ((Represents.checkedPrices b s).map (line s)) := by
    rw [level_records h]
    generalize Represents.checkedPrices b s = pxs
    induction pxs with
    | nil => rfl
    | cons px pxs ih =>
      rw [List.map_cons, List.mapM_cons, levelSlots_eq h, ih]
      rfl
  rw [linkedSide, hslots, ok_bind, Represents.sideSlots, List.flatMap_def, pure_eq_ok]

theorem partitioned : ∃ free linked, Partitioned b free linked := by
  have hlinked : linkedSlots b =
      .ok (Represents.sideSlots b line .bid ++ Represents.sideSlots b line .ask) := by
    simp only [linkedSlots, linkedSide_eq h, ok_bind, pure_eq_ok]
  have hmem : ∀ i, i ∈ Represents.sideSlots b line .bid ++ Represents.sideSlots b line .ask ↔
      ∃ s px, i ∈ line s px := by
    intro i
    rw [List.mem_append, h.mem_sideSlots, h.mem_sideSlots]
    constructor
    · rintro (⟨px, hi⟩ | ⟨px, hi⟩)
      · exact ⟨_, px, hi⟩
      · exact ⟨_, px, hi⟩
    · rintro ⟨s, px, hi⟩
      cases s with
      | bid => exact Or.inl ⟨px, hi⟩
      | ask => exact Or.inr ⟨px, hi⟩
  have hslot : ∀ {id}, b.ids.contains id = true → b.ids.get? id = some (slotOf b id) := by
    intro id hid
    obtain ⟨i, hi⟩ := SortedMap.contains_iff.mp hid
    simp [slotOf, hi]
  have hheld : ∀ {id}, b.ids.contains id = true →
      (∃ s px, slotOf b id ∈ line s px) ∧ (b.slab.cell (slotOf b id)).id = id := by
    intro id hid
    obtain ⟨s, px, hi, hcell⟩ := (h.ids_iff id _).mp (hslot hid)
    exact ⟨⟨s, px, hi⟩, hcell⟩
  refine ⟨free, _, freeSlots_eq h, hlinked, h.freeList.nodup, h.sideSlots_append_nodup,
    fun i hi hl => ?_, fun i => ?_,
    ⟨fun id hid => ?_, fun id hid id' hid' heq => ?_, fun i hi => ?_⟩, fun id hid => ?_⟩
  · exact ((h.used_iff i).mp ((hmem i).mp hl)).2 hi
  · rw [hmem, h.used_iff]
    constructor
    · intro hi
      by_cases hf : i ∈ free
      · exact Or.inl hf
      · exact Or.inr ⟨hi, hf⟩
    · exact fun hi => hi.elim (h.freeList.bound i) And.left
  · exact (hmem _).mpr (hheld hid).1
  · rw [← (hheld hid).2, heq, (hheld hid').2]
  · obtain ⟨s, px, hi⟩ := (hmem i).mp hi
    have hget := (h.ids_iff (b.slab.cell i).id i).mpr ⟨s, px, hi, rfl⟩
    exact ⟨(b.slab.cell i).id, SortedMap.contains_iff.mpr ⟨i, hget⟩, by simp [slotOf, hget]⟩
  · obtain ⟨⟨s, px, hi⟩, hcell⟩ := hheld hid
    exact ⟨_, Slab.get_ok (h.line_lt hi), hcell⟩

end Slots

/-- The representation invariant: after any calls the book passes its own check, and its
slots are split between the free list and the levels with one id for each linked slot. -/
theorem reached_book_consistent {cfg : BookConfig} (hcfg : ValidConfig cfg) :
    ∃ b₀, ArrayBook.new cfg = .ok b₀ ∧ ∀ ops, Along ArrayBook.apply Roomy b₀ ops →
      ∃ replies b, run ArrayBook.apply b₀ ops = .ok (replies, b) ∧ b.check = .ok (.ok ()) ∧
        ∃ free linked, Partitioned b free linked := by
  obtain ⟨b₀, hnew, hb₀, -⟩ := ArrayBook.new_spec hcfg
  refine ⟨b₀, hnew, fun ops hbound => ?_⟩
  obtain ⟨b, hrun, hb⟩ := array_run hb₀ fun pre hpre =>
    (room_of_along hb₀ hbound pre hpre).le
  obtain ⟨line, free, hrep⟩ := hb.represents
  exact ⟨_, b, hrun, hrep.check_eq, partitioned hrep⟩

theorem reached_book_consistent_small : ∃ b₀ replies b, ArrayBook.new ⟨100, 64, 1⟩ = .ok b₀ ∧
    run ArrayBook.apply b₀ [.add 1 .ask 163 5, .add 2 .ask 900 3, .replace 1 3 900 4, .cancel 2 9] =
      .ok (replies, b) ∧ b.check = .ok (.ok ()) ∧ ∃ free linked, Partitioned b free linked := by
  have hcfg : ValidConfig ⟨100, 64, 1⟩ := by constructor <;> decide
  obtain ⟨b₀, hnew, hall⟩ := reached_book_consistent hcfg
  obtain ⟨replies, b, hrun, hcheck, hslots⟩ :=
    hall [.add 1 .ask 163 5, .add 2 .ask 900 3, .replace 1 3 900 4, .cancel 2 9]
      (roomy_of_length hcfg hnew (by decide))
  exact ⟨b₀, replies, b, hnew, hrun, hcheck, hslots⟩

/-! Rejected calls. -/

/-- If the call returns an error, it returns the state it was given. -/
def Quiet {σ : Type} (s : σ) (x : Exec (Reply × σ)) : Prop :=
  ∀ e s', x = .ok (.error e, s') → s' = s

section Quiet

variable {σ α : Type} {s s' : σ}

theorem quiet_error (e : BookError) : Quiet s (.ok (.error e, s)) := fun _ _ h =>
  (Prod.mk.inj (Except.ok.inj h)).2.symm

theorem quiet_event (ev : Event) : Quiet s (.ok (.ok ev, s')) := fun e _ h => by simp at h

theorem quiet_bind {x : Exec α} {f : α → Exec (Reply × σ)} (h : ∀ a, Quiet s (f a)) :
    Quiet s (x >>= f) := by
  intro e s' he
  obtain ⟨a, -, ha⟩ := bind_eq_ok.mp he
  exact h a e s' ha

theorem quiet_ite {c : Prop} [Decidable c] {x y : Exec (Reply × σ)} (hx : Quiet s x)
    (hy : Quiet s y) : Quiet s (if c then x else y) := by
  split <;> assumption

end Quiet

theorem quiet_array (b : ArrayBook) (op : Op) : Quiet b (b.apply op) := by
  cases op with
  | add id s px qty =>
    refine quiet_ite (quiet_error _) (quiet_ite (quiet_error _) (quiet_bind fun _ => ?_))
    refine quiet_ite (quiet_error _) (quiet_ite (quiet_error _) (quiet_bind fun _ => ?_))
    exact quiet_bind fun _ => quiet_bind fun _ => quiet_event _
  | cancel id qty =>
    rw [ArrayBook.apply, ArrayBook.cancel]
    split
    · exact quiet_error _
    · refine quiet_ite (quiet_error _) (quiet_bind fun _ => quiet_bind fun _ => ?_)
      exact quiet_bind fun _ => quiet_event _
  | execute id qty =>
    rw [ArrayBook.apply, ArrayBook.execute]
    split
    · exact quiet_error _
    · refine quiet_ite (quiet_error _) (quiet_bind fun _ => quiet_ite (quiet_error _) ?_)
      exact quiet_bind fun _ => quiet_bind fun _ => quiet_event _
  | delete id =>
    rw [ArrayBook.apply, ArrayBook.delete]
    split
    · exact quiet_error _
    · exact quiet_bind fun _ => quiet_bind fun _ => quiet_bind fun _ => quiet_event _
  | replace old new px qty =>
    rw [ArrayBook.apply, ArrayBook.replace]
    split
    · exact quiet_error _
    · refine quiet_ite (quiet_error _) (quiet_ite (quiet_error _) (quiet_ite (quiet_error _) ?_))
      refine quiet_bind fun _ => quiet_bind fun _ => quiet_bind fun _ => ?_
      refine quiet_ite (quiet_error _) (quiet_bind fun _ => quiet_bind fun _ => ?_)
      exact quiet_bind fun _ => quiet_bind fun _ => quiet_bind fun _ => quiet_event _

theorem quiet_reference (r : RefBook) (op : Op) : Quiet r (r.apply op) := by
  cases op with
  | add id s px qty =>
    refine quiet_ite (quiet_error _) (quiet_ite (quiet_error _) (quiet_bind fun _ => ?_))
    exact quiet_ite (quiet_error _) (quiet_ite (quiet_error _) (quiet_event _))
  | cancel id qty =>
    rw [RefBook.apply, RefBook.cancel]
    split
    · exact quiet_error _
    · exact quiet_ite (quiet_error _) (quiet_bind fun _ => quiet_event _)
  | execute id qty =>
    rw [RefBook.apply, RefBook.execute]
    split
    · exact quiet_error _
    · refine quiet_ite (quiet_error _) (quiet_ite (quiet_error _) ?_)
      exact quiet_bind fun _ => quiet_event _
  | delete id =>
    rw [RefBook.apply, RefBook.delete]
    split
    · exact quiet_error _
    · exact quiet_bind fun _ => quiet_event _
  | replace old new px qty =>
    rw [RefBook.apply, RefBook.replace]
    split
    · exact quiet_error _
    · refine quiet_ite (quiet_error _) (quiet_ite (quiet_error _) (quiet_ite (quiet_error _) ?_))
      exact quiet_bind fun _ => quiet_ite (quiet_error _) (quiet_bind fun _ => quiet_event _)

/-- A rejected call leaves either book exactly as it was, counters included. -/
theorem rejected_call_changes_nothing (op : Op) (e : BookError) :
    (∀ b b' : ArrayBook, b.apply op = .ok (.error e, b') → b' = b) ∧
      ∀ r r' : RefBook, r.apply op = .ok (.error e, r') → r' = r :=
  ⟨fun b b' h => quiet_array b op e b' h, fun r r' h => quiet_reference r op e r' h⟩

/-- Orders on both sides, one off the window. -/
def restingOps : List Op := [.add 1 .bid 105 5, .add 2 .ask 110 3, .add 3 .bid 250 4]

/-- The book with these orders, and what it makes of a replace by the id of a live order and of an
add that its level cannot hold. -/
def refusedTwice {β : Type} (apply : β → Op → Exec (Reply × β)) (b₀ : β) :
    Exec (List Reply × β × (Reply × β) × (Reply × β)) := do
  let (out, b) ← run apply b₀ restingOps
  return (out, b, ← apply b (.replace 1 2 105 4), ← apply b (.add 4 .bid 105 4294967295))

theorem of_refusedTwice {β : Type} {apply : β → Op → Exec (Reply × β)} {b₀ b c d : β}
    {out : List Reply} {r r' : Reply}
    (h : refusedTwice apply b₀ = .ok (out, b, (r, c), (r', d))) :
    run apply b₀ restingOps = .ok (out, b) ∧ apply b (.replace 1 2 105 4) = .ok (r, c) ∧
      apply b (.add 4 .bid 105 4294967295) = .ok (r', d) := by
  obtain ⟨⟨out', b'⟩, hrun, h⟩ := bind_eq_ok.mp h
  obtain ⟨p, hreplace, h⟩ := bind_eq_ok.mp h
  obtain ⟨q, hadd, h⟩ := bind_eq_ok.mp h
  cases h
  exact ⟨hrun, hreplace, hadd⟩

theorem rejected_replace_changes_nothing : ∃ b₀ out b out' r,
    ArrayBook.new ⟨100, 4, 5⟩ = .ok b₀ ∧ run ArrayBook.apply b₀ restingOps = .ok (out, b) ∧
    b.liveOrders = 3 ∧ b.apply (.replace 1 2 105 4) = .ok (.error (.duplicateId 2), b) ∧
    b.apply (.add 4 .bid 105 4294967295) = .ok (.error .badQty, b) ∧
    run RefBook.apply .new restingOps = .ok (out', r) ∧
    r.apply (.replace 1 2 105 4) = .ok (.error (.duplicateId 2), r) ∧
    r.apply (.add 4 .bid 105 4294967295) = .ok (.error .badQty, r) := by
  obtain ⟨⟨b₀, out, b, ⟨x, c⟩, ⟨y, d⟩⟩, hbook, hgood⟩ := ok_of_any
    (x := do let b₀ ← ArrayBook.new ⟨100, 4, 5⟩; return (b₀, ← refusedTwice ArrayBook.apply b₀))
    (f := fun p => decide (p.2.2.1.liveOrders = 3 ∧
      p.2.2.2.1.1 = .error (.duplicateId 2) ∧ p.2.2.2.2.1 = .error .badQty)) (by decide +kernel)
  obtain ⟨hlive, rfl, rfl⟩ : b.liveOrders = 3 ∧ x = .error (.duplicateId 2) ∧ y = .error .badQty :=
    of_decide_eq_true hgood
  obtain ⟨b₁, hnew, hbook⟩ := bind_eq_ok.mp hbook
  obtain ⟨p, hbook, hend⟩ := bind_eq_ok.mp hbook
  cases hend
  obtain ⟨hrun, hreplace, hadd⟩ := of_refusedTwice hbook
  obtain ⟨⟨out', r, ⟨x', c'⟩, ⟨y', d'⟩⟩, href, hgood⟩ := ok_of_any
    (x := refusedTwice RefBook.apply .new)
    (f := fun p => decide (p.2.2.1.1 = .error (.duplicateId 2) ∧ p.2.2.2.1 = .error .badQty))
    (by decide +kernel)
  obtain ⟨rfl, rfl⟩ : x' = .error (.duplicateId 2) ∧ y' = .error .badQty := of_decide_eq_true hgood
  obtain ⟨hrun', hreplace', hadd'⟩ := of_refusedTwice href
  have hdup := rejected_call_changes_nothing (.replace 1 2 105 4) (.duplicateId 2)
  have hqty := rejected_call_changes_nothing (.add 4 .bid 105 4294967295) .badQty
  obtain rfl := hdup.1 b c hreplace
  obtain rfl := hqty.1 c d hadd
  obtain rfl := hdup.2 r c' hreplace'
  obtain rfl := hqty.2 c' d' hadd'
  exact ⟨b₀, out, d, out', d', hnew, hrun, hlive, hreplace, hadd, hrun', hreplace', hadd'⟩

/-! Calls of any kind, mutating or reading. -/

inductive Call where
  | op (o : Op)
  | l1
  | l2 (depth : ℕ)
  | queueAhead (id : OrderId)
  | snapshot
  | stateHash
  | check
  deriving DecidableEq

/-- What a call returns, apart from the book. -/
inductive Answer where
  | reply (r : Reply)
  | l1 (v : Option LevelView × Option LevelView)
  | l2 (v : List LevelView × List LevelView)
  | queueAhead (v : Option ℕ)
  | snapshot (v : Snapshot)
  | stateHash (v : List UInt8)
  | check (v : Except Violation Unit)

def call (b : ArrayBook) : Call → Exec (Answer × ArrayBook)
  | .op o => do
    let (r, b) ← b.apply o
    return (.reply r, b)
  | .l1 => do return (.l1 (← b.l1), b)
  | .l2 depth => do return (.l2 (← b.l2 depth), b)
  | .queueAhead id => do return (.queueAhead (← b.queueAhead id), b)
  | .snapshot => do return (.snapshot (← b.snapshot), b)
  | .stateHash => do return (.stateHash (← b.stateBytes), b)
  | .check => do return (.check (← b.check), b)

/-- With room in the slab, no call of any kind aborts. -/
theorem call_ok {b : ArrayBook} {m : Market} (h : b.Refines m) (hroom : Roomy b) (c : Call) :
    ∃ a b' m', call b c = .ok (a, b') ∧ b'.Refines m' ∧ m'.live ≤ m.live + 1 := by
  have hsame := Nat.le_succ m.live
  have hlive : m.live < nilSlot := by
    rw [Roomy, h.liveOrders_eq] at hroom
    unfold nilSlot
    omega
  cases c with
  | op o =>
    obtain ⟨b', hop, hb'⟩ := h.apply o ((m.live_apply_le o).trans hlive)
    exact ⟨.reply (m.apply o).1, b', _, by simp only [call, hop, ok_bind, pure_eq_ok], hb',
      m.live_apply_le o⟩
  | l1 => exact ⟨.l1 m.l1, b, m, by rw [call, h.l1_eq]; rfl, h, hsame⟩
  | l2 depth => exact ⟨.l2 (m.l2 depth), b, m, by rw [call, h.l2_eq]; rfl, h, hsame⟩
  | queueAhead id =>
    exact ⟨.queueAhead (m.queueAhead id), b, m, by rw [call, h.queueAhead_eq]; rfl, h, hsame⟩
  | snapshot => exact ⟨.snapshot m.snapshot, b, m, by rw [call, h.snapshot_eq]; rfl, h, hsame⟩
  | stateHash => exact ⟨.stateHash m.stateBytes, b, m, by rw [call, h.stateBytes_eq]; rfl, h, hsame⟩
  | check =>
    obtain ⟨line, free, hrep⟩ := h.represents
    exact ⟨.check (.ok ()), b, m, by rw [call, hrep.check_eq]; rfl, h, hsame⟩

theorem calls_ok {b : ArrayBook} {m : Market} (h : b.Refines m) {calls : List Call}
    (hbound : Along call Roomy b calls) : ∃ answers b', run call b calls = .ok (answers, b') := by
  induction calls generalizing b m with
  | nil => exact ⟨[], b, rfl⟩
  | cons c calls ih =>
    obtain ⟨a, b₁, m₁, hcall, h₁, -⟩ := call_ok h hbound.head c
    obtain ⟨answers, b₂, hrest⟩ := ih h₁ (hbound.tail hcall)
    exact ⟨a :: answers, b₂, run_cons_ok hcall hrest⟩

/-- Few enough calls leave room throughout. -/
theorem roomy_of_calls {b : ArrayBook} {m : Market} (h : b.Refines m) {calls : List Call}
    (hlen : m.live + calls.length < 2 ^ 32 - 1) : Along call Roomy b calls := by
  have hroom : Roomy b := by
    rw [Roomy, h.liveOrders_eq]
    omega
  intro pre out t hpre hrun
  induction pre generalizing b m calls out with
  | nil => exact (Prod.mk.inj (Except.ok.inj hrun)).2 ▸ hroom
  | cons c pre ih =>
    obtain ⟨calls, rfl⟩ : ∃ cs, calls = c :: cs := by
      obtain ⟨post, rfl⟩ := hpre
      exact ⟨pre ++ post, rfl⟩
    obtain ⟨a, rs, b₁, hcall, hrest, -⟩ := run_cons_eq_ok.mp hrun
    obtain ⟨a', b', m', hcall', hb', hlive⟩ := call_ok h hroom c
    obtain ⟨-, rfl⟩ := Prod.mk.inj (Except.ok.inj (hcall.symm.trans hcall'))
    rw [List.length_cons] at hlen
    have hlen' : m'.live + calls.length < 2 ^ 32 - 1 := by omega
    refine ih hb' hlen' ?_ rs (List.cons_prefix_cons.mp hpre).2 hrest
    rw [Roomy, hb'.liveOrders_eq]
    omega

/-- No call on a book that started empty aborts: every addition and subtraction fits, every
index is in range and every assertion holds. -/
theorem array_calls_never_abort {cfg : BookConfig} (hcfg : ValidConfig cfg) :
    ∃ b₀, ArrayBook.new cfg = .ok b₀ ∧ ∀ calls, Along call Roomy b₀ calls →
      ∃ answers b, run call b₀ calls = .ok (answers, b) := by
  obtain ⟨b₀, hnew, hb₀, -⟩ := ArrayBook.new_spec hcfg
  exact ⟨b₀, hnew, fun calls hbound => calls_ok hb₀ hbound⟩

theorem array_calls_never_abort_mixed : ∃ b₀ answers b, ArrayBook.new ⟨2147483647, 1, 1⟩ = .ok b₀ ∧
    run call b₀ [.op (.add 1 .bid 2147483647 4294967295), .op (.add 2 .ask 1 7),
      .queueAhead 2, .l2 5,
      .op (.replace 1 3 1 4294967295), .snapshot, .stateHash, .check, .l1] = .ok (answers, b) := by
  have hcfg : ValidConfig ⟨2147483647, 1, 1⟩ := by constructor <;> decide
  obtain ⟨b₀, hnew, hall⟩ := array_calls_never_abort hcfg
  have hempty : Market.empty.live = 0 := Market.live_empty
  obtain ⟨answers, b, hrun⟩ := hall
    [.op (.add 1 .bid 2147483647 4294967295), .op (.add 2 .ask 1 7), .queueAhead 2, .l2 5,
      .op (.replace 1 3 1 4294967295), .snapshot, .stateHash, .check, .l1]
    (roomy_of_calls (new_refines hcfg hnew) (by rw [hempty]; decide))
  exact ⟨b₀, answers, b, hnew, hrun⟩

end Lobcore.BookRuns
