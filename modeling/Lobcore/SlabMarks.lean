import Lobcore.ArrayEffects
import Lobcore.BookRuns

/-!
How many slots a book ever takes. A call adds a slot only when the free list is empty, that is,
when every slot is in use; so the slots are as many as the most orders that ever rested at once,
and the room that `reserve` asks the vector for is outgrown only when that many orders rest.
-/
namespace Lobcore.SlabMarks

open Checked OrderTypes SortedMaps OrderSlab PriceLevels Markets ArrayBooks ArrayEffects BookRuns

/-! What the steps of a call do to the slots. -/

section Steps

variable {s s' : Slab} {sl sl' : SideLevels} {locus : Locus} {slot : ℕ}

/-- Writes into slots leave their number, the free list and the live count. -/
structure Framed (s s' : Slab) : Prop where
  slots : s'.slots.length = s.slots.length
  head : s'.freeHead = s.freeHead
  live : s'.live = s.live

theorem Framed.rfl : Framed s s := ⟨Eq.refl _, Eq.refl _, Eq.refl _⟩

theorem Framed.trans {t : Slab} (h : Framed s s') (h' : Framed s' t) : Framed s t :=
  ⟨h'.slots.trans h.slots, h'.head.trans h.head, h'.live.trans h.live⟩

theorem length_store {slots slots' : List Slot} {i : ℕ} {a : Slot}
    (h : store slots i a = .ok slots') : i < slots.length ∧ slots'.length = slots.length := by
  unfold store at h
  split at h
  case isTrue hi =>
    obtain rfl := Except.ok.inj h
    exact ⟨hi, List.length_set ..⟩
  case isFalse => cases h

theorem framed_modify {i : ℕ} {f : Slot → Slot} (h : s.modify i f = .ok s') : Framed s s' := by
  obtain ⟨old, -, h⟩ := bind_eq_ok.mp h
  obtain ⟨slots, hstore, h⟩ := bind_eq_ok.mp h
  obtain rfl := Except.ok.inj h
  exact ⟨(length_store hstore).2, Eq.refl _, Eq.refl _⟩

theorem framed_setNext {i next : ℕ} (h : setNext s i next = .ok s') : Framed s s' := by
  unfold setNext at h
  split at h
  · exact framed_modify h
  · exact Except.ok.inj h ▸ Framed.rfl

theorem framed_setPrev {i prev : ℕ} (h : setPrev s i prev = .ok s') : Framed s s' := by
  unfold setPrev at h
  split at h
  · exact framed_modify h
  · exact Except.ok.inj h ▸ Framed.rfl

theorem framed_linkTail (h : linkTail sl s locus slot = .ok (sl', s')) : Framed s s' := by
  obtain ⟨t, -, h⟩ := bind_eq_ok.mp h
  obtain ⟨⟨lvl, sl₁⟩, -, h⟩ := bind_eq_ok.mp h
  obtain ⟨qty, -, h⟩ := bind_eq_ok.mp h
  obtain ⟨count, -, h⟩ := bind_eq_ok.mp h
  obtain ⟨sl₂, -, h⟩ := bind_eq_ok.mp h
  dsimp only at h
  split at h
  · obtain ⟨s₁, hs₁, h⟩ := bind_eq_ok.mp h
    obtain ⟨s₂, hs₂, h⟩ := bind_eq_ok.mp h
    obtain ⟨sl₃, -, h⟩ := bind_eq_ok.mp h
    obtain ⟨-, rfl⟩ := Prod.mk.inj (Except.ok.inj h)
    exact (framed_modify hs₁).trans (framed_modify hs₂)
  · obtain ⟨s₁, hs₁, h⟩ := bind_eq_ok.mp h
    obtain ⟨sl₃, -, h⟩ := bind_eq_ok.mp h
    obtain ⟨-, rfl⟩ := Prod.mk.inj (Except.ok.inj h)
    exact Except.ok.inj hs₁ ▸ Framed.rfl

theorem framed_reduce {amount : ℕ} (h : reduce sl s locus slot amount = .ok (sl', s')) :
    Framed s s' := by
  obtain ⟨lvl, -, h⟩ := bind_eq_ok.mp h
  obtain ⟨qty, -, h⟩ := bind_eq_ok.mp h
  obtain ⟨sl₁, -, h⟩ := bind_eq_ok.mp h
  obtain ⟨t, -, h⟩ := bind_eq_ok.mp h
  obtain ⟨rest, -, h⟩ := bind_eq_ok.mp h
  obtain ⟨s₁, hs₁, h⟩ := bind_eq_ok.mp h
  obtain ⟨-, rfl⟩ := Prod.mk.inj (Except.ok.inj h)
  exact framed_modify hs₁

/-- One order fewer is live, and its slot comes first on the free list. -/
structure Freed (s : Slab) (slot : ℕ) (s' : Slab) : Prop where
  slot_lt : slot < s.slots.length
  slots : s'.slots.length = s.slots.length
  head : s'.freeHead = slot
  live : s'.live + 1 = s.live

theorem freed_free (h : s.free slot = .ok s') : Freed s slot s' := by
  obtain ⟨u, hpos, h⟩ := bind_eq_ok.mp h
  obtain ⟨slots, hstore, h⟩ := bind_eq_ok.mp h
  obtain rfl := Except.ok.inj h
  have hlive : 0 < s.live := by
    by_contra hzero
    have hstop : ensure (0 < s.live) = .error .assertion := if_neg hzero
    rw [hstop] at hpos
    cases hpos
  obtain ⟨hlt, hlen⟩ := length_store hstore
  exact ⟨hlt, hlen, Eq.refl _, Nat.sub_add_cancel hlive⟩

theorem freed_unlink (h : unlink sl s locus slot = .ok (sl', s')) : Freed s slot s' := by
  obtain ⟨t, -, h⟩ := bind_eq_ok.mp h
  obtain ⟨lvl, -, h⟩ := bind_eq_ok.mp h
  obtain ⟨qty, -, h⟩ := bind_eq_ok.mp h
  obtain ⟨count, -, h⟩ := bind_eq_ok.mp h
  obtain ⟨sl₁, -, h⟩ := bind_eq_ok.mp h
  obtain ⟨s₁, hs₁, h⟩ := bind_eq_ok.mp h
  obtain ⟨s₂, hs₂, h⟩ := bind_eq_ok.mp h
  obtain ⟨sl₂, -, h⟩ := bind_eq_ok.mp h
  obtain ⟨s₃, hs₃, h⟩ := bind_eq_ok.mp h
  obtain ⟨-, rfl⟩ := Prod.mk.inj (Except.ok.inj h)
  have hframe := (framed_setNext hs₁).trans (framed_setPrev hs₂)
  obtain ⟨hlt, hlen, hhead, hlive⟩ := freed_free hs₃
  exact ⟨hframe.slots ▸ hlt, hlen.trans hframe.slots, hhead, hlive.trans hframe.live⟩

/-- One order more is live; only an empty free list costs a new slot. -/
structure Taken (s s' : Slab) : Prop where
  slots : s'.slots.length = if s.freeHead = nilSlot then s.slots.length + 1 else s.slots.length
  live : s'.live = s.live + 1

theorem taken_alloc {id : OrderId} {qty : ℕ} {px : ℤ} (h : s.alloc id qty px = .ok (slot, s')) :
    Taken s s' := by
  unfold Slab.alloc at h
  dsimp only at h
  split at h
  case isTrue hhead =>
    obtain ⟨old, -, h⟩ := bind_eq_ok.mp h
    obtain ⟨slots, hstore, h⟩ := bind_eq_ok.mp h
    obtain ⟨-, rfl⟩ := Prod.mk.inj (Except.ok.inj h)
    exact ⟨by rw [if_neg hhead]; exact (length_store hstore).2, Eq.refl _⟩
  case isFalse hhead =>
    obtain ⟨-, -, h⟩ := bind_eq_ok.mp h
    obtain ⟨-, rfl⟩ := Prod.mk.inj (Except.ok.inj h)
    exact ⟨by rw [if_pos (not_not.mp hhead)]; exact List.length_append, Eq.refl _⟩

end Steps

/-! Calls. -/

variable {b b' : ArrayBook} {m : Market}

theorem head_ne_nilSlot_iff {s : Slab} {free : List ℕ} (h : s.FreeList free) :
    s.freeHead = nilSlot ↔ s.live = s.slots.length := by
  have hlive := h.live_eq
  have hcap := h.capacity_le
  have hhead := h.head_eq
  cases free with
  | nil =>
    rw [List.length_nil] at hlive
    exact ⟨fun _ => by omega, fun _ => hhead⟩
  | cons i rest =>
    have hi := h.bound i (List.mem_cons_self ..)
    rw [List.length_cons] at hlive
    rw [List.headD_cons] at hhead
    constructor <;> intro heq <;> omega

/-- A call leaves as many slots as there were, or one for each live order if these are more. -/
theorem capacity_step (h : b.Refines m) {op : Op} {r : Reply}
    (hstep : b.apply op = .ok (r, b')) :
    b'.slab.capacity = max b.slab.capacity b'.liveOrders := by
  obtain ⟨line, free, hrep⟩ := h
  have hlive := hrep.freeList.live_eq
  have hcap := hrep.freeList.capacity_le
  have hhead := head_ne_nilSlot_iff hrep.freeList
  unfold Slab.capacity ArrayBook.liveOrders
  cases apply_effect hstep with
  | refused e => omega
  | added halloc hlink =>
    obtain ⟨hslots, hlive'⟩ := taken_alloc halloc
    obtain ⟨hslots', -, hlive''⟩ := framed_linkTail hlink
    rw [slab_withParts, hslots', hlive'', hslots, hlive']
    split_ifs with hnil
    · have := hhead.mp hnil
      omega
    · have := mt hhead.mpr hnil
      omega
  | unlinked _ hunlink =>
    obtain ⟨-, hslots, -, hlive'⟩ := freed_unlink hunlink
    rw [slab_withParts, hslots]
    omega
  | reduced _ hreduce =>
    obtain ⟨hslots, -, hlive'⟩ := framed_reduce hreduce
    rw [slab_withParts, hslots, hlive']
    omega
  | replaced hunlink halloc hlink =>
    -- the slot just freed is the one the replacement takes
    obtain ⟨hlt, hslots, hfirst, hlive'⟩ := freed_unlink hunlink
    obtain ⟨hslots', hlive''⟩ := taken_alloc halloc
    obtain ⟨hslots'', -, hlive₃⟩ := framed_linkTail hlink
    rw [slab_withParts, hslots'', hlive₃, hslots', hlive'', hfirst,
      if_neg (hlt.trans_le hcap).ne, hslots]
    omega

/-! Runs. -/

/-- The numbers of orders that rest in the books a run passes through, its ends included. -/
def liveMarks (b : ArrayBook) (ops : List Op) : Set ℕ :=
  {n | ∃ pre out b₁, pre <+: ops ∧ run ArrayBook.apply b pre = .ok (out, b₁) ∧ n = b₁.liveOrders}

theorem liveMarks_nil (b : ArrayBook) : liveMarks b [] = {b.liveOrders} := by
  ext n
  constructor
  · rintro ⟨pre, out, b₁, hpre, hrun, rfl⟩
    obtain rfl := List.prefix_nil.mp hpre
    obtain ⟨-, rfl⟩ := Prod.mk.inj (Except.ok.inj hrun)
    rfl
  · rintro rfl
    exact ⟨[], [], b, List.nil_prefix, rfl, rfl⟩

theorem liveMarks_cons {op : Op} {r : Reply} (hstep : b.apply op = .ok (r, b')) (ops : List Op) :
    liveMarks b (op :: ops) = insert b.liveOrders (liveMarks b' ops) := by
  ext n
  constructor
  · rintro ⟨pre, out, b₁, hpre, hrun, rfl⟩
    cases pre with
    | nil =>
      obtain ⟨-, rfl⟩ := Prod.mk.inj (Except.ok.inj hrun)
      exact Set.mem_insert ..
    | cons op' pre =>
      obtain ⟨rfl, htail⟩ := List.cons_prefix_cons.mp hpre
      obtain ⟨r', rs, b₂, hstep', hrest, -⟩ := run_cons_eq_ok.mp hrun
      obtain ⟨-, rfl⟩ := Prod.mk.inj (Except.ok.inj (hstep.symm.trans hstep'))
      exact Set.mem_insert_of_mem _ ⟨pre, rs, b₁, htail, hrest, rfl⟩
  · rintro (rfl | ⟨pre, out, b₁, hpre, hrun, rfl⟩)
    · exact ⟨[], [], b, List.nil_prefix, rfl, rfl⟩
    · exact ⟨op :: pre, r :: out, b₁, List.cons_prefix_cons.mpr ⟨rfl, hpre⟩,
        run_cons_ok hstep hrun, rfl⟩

theorem live_le_capacity (h : b.Refines m) : b.liveOrders ≤ b.slab.capacity := by
  obtain ⟨line, free, hrep⟩ := h
  exact Nat.le.intro hrep.freeList.live_eq

/-- A run that returns has the replies of the market and leaves a book that follows it. -/
theorem refines_of_run (h : b.Refines m) {ops : List Op} {out : List Reply}
    (hrun : run ArrayBook.apply b ops = .ok (out, b')) :
    out = (m.applyAll ops).1 ∧ b'.Refines (m.applyAll ops).2 := by
  obtain ⟨b₁, hrun₁, h₁⟩ := array_run h (within_of_run h hrun)
  obtain ⟨rfl, rfl⟩ := Prod.mk.inj (Except.ok.inj (hrun.symm.trans hrun₁))
  exact ⟨rfl, h₁⟩

/-- The slots at the end of a run: those at its start, or the most orders it ever held. -/
theorem capacity_run (h : b.Refines m) {ops : List Op} {out : List Reply}
    (hrun : run ArrayBook.apply b ops = .ok (out, b')) :
    IsGreatest (insert b.slab.capacity (liveMarks b ops)) b'.slab.capacity := by
  induction ops generalizing b m out with
  | nil =>
    obtain ⟨-, rfl⟩ := Prod.mk.inj (Except.ok.inj hrun)
    rw [liveMarks_nil]
    refine ⟨Set.mem_insert .., ?_⟩
    rintro n (rfl | rfl)
    · exact le_refl _
    · exact live_le_capacity h
  | cons op ops ih =>
    obtain ⟨r, rs, b₁, hstep, hrest, -⟩ := run_cons_eq_ok.mp hrun
    have hgrow := capacity_step h hstep
    obtain ⟨-, h₁⟩ := (h.apply_returns (Q := False) op False.elim).of_run hstep
    obtain ⟨hmem, hbound⟩ := ih h₁ hrest
    have hstart : b₁.slab.capacity ≤ b'.slab.capacity := hbound (Set.mem_insert ..)
    have hmark : b₁.liveOrders ∈ liveMarks b₁ ops := ⟨[], [], b₁, List.nil_prefix, rfl, rfl⟩
    rw [liveMarks_cons hstep]
    constructor
    · rcases hmem with heq | hmem
      · rcases max_choice b.slab.capacity b₁.liveOrders with hmax | hmax
        · rw [heq, hgrow, hmax]
          exact Set.mem_insert ..
        · rw [heq, hgrow, hmax]
          exact Set.mem_insert_of_mem _ (Set.mem_insert_of_mem _ hmark)
      · exact Set.mem_insert_of_mem _ (Set.mem_insert_of_mem _ hmem)
    · rintro n (rfl | rfl | hn)
      · omega
      · exact (live_le_capacity h).trans (by omega)
      · exact hbound (Set.mem_insert_of_mem _ hn)

/-- An empty book of a config, with or without a reserve. -/
def Opened (cfg : BookConfig) (b : ArrayBook) : Prop :=
  ArrayBook.new cfg = .ok b ∨ ∃ orders, ArrayBook.withCapacity cfg orders = .ok b

theorem reserve_eq {orders : ℕ} (h : b.reserve orders = .ok b') : b' = b := by
  obtain ⟨slab, hslab, h⟩ := bind_eq_ok.mp h
  obtain ⟨ids, hids, h⟩ := bind_eq_ok.mp h
  unfold Slab.reserve at hslab
  unfold reserveIds at hids
  split at hslab
  case isFalse => cases hslab
  split at hids
  case isFalse => cases hids
  obtain rfl := Except.ok.inj hslab
  obtain rfl := Except.ok.inj hids
  exact (Except.ok.inj h).symm

theorem Opened.new {cfg : BookConfig} (h : Opened cfg b) : ArrayBook.new cfg = .ok b := by
  rcases h with hnew | ⟨orders, hnew⟩
  · exact hnew
  · obtain ⟨b₀, hnew, hreserve⟩ := bind_eq_ok.mp hnew
    exact reserve_eq hreserve ▸ hnew

/-- The slots ever allocated are the most orders that rested at once. -/
theorem slab_capacity_high_water {cfg : BookConfig} (hcfg : ValidConfig cfg) {b₀ : ArrayBook}
    (hopen : Opened cfg b₀) {ops : List Op} {out : List Reply}
    (hrun : run ArrayBook.apply b₀ ops = .ok (out, b)) :
    IsGreatest (liveMarks b₀ ops) b.slab.capacity := by
  obtain ⟨b₁, hnew, href, -, hslab, -⟩ := ArrayBook.new_spec hcfg
  obtain rfl := Except.ok.inj (hnew.symm.trans hopen.new)
  have hzero : b₁.slab.capacity = b₁.liveOrders := by
    rw [Slab.capacity, ArrayBook.liveOrders, hslab]
    rfl
  have hmark : b₁.liveOrders ∈ liveMarks b₁ ops := ⟨[], [], b₁, List.nil_prefix, rfl, rfl⟩
  have hgreatest := capacity_run href hrun
  rwa [hzero, Set.insert_eq_of_mem hmark] at hgreatest

/-- Two orders rest, one leaves, a third takes its slot. -/
def churnOps : List Op := [.add 1 .bid 105 5, .add 2 .ask 110 3, .delete 1, .add 3 .bid 250 4]

def churned : Exec (ArrayBook × List Reply × ArrayBook) := do
  let b₀ ← ArrayBook.new ⟨100, 4, 5⟩
  let p ← run ArrayBook.apply b₀ churnOps
  return (b₀, p.1, p.2)

theorem slab_capacity_high_water_churned : ∃ b₀ out b, ArrayBook.new ⟨100, 4, 5⟩ = .ok b₀ ∧
    run ArrayBook.apply b₀ churnOps = .ok (out, b) ∧ b.slab.capacity = 2 ∧
    IsGreatest (liveMarks b₀ churnOps) b.slab.capacity := by
  obtain ⟨⟨b₀, out, b⟩, hrun, htwo⟩ := ok_of_any (x := churned)
    (f := fun p => decide (p.2.2.slab.capacity = 2)) (by decide +kernel)
  obtain ⟨b₁, hnew, hrun⟩ := bind_eq_ok.mp hrun
  obtain ⟨p, hops, hrun⟩ := bind_eq_ok.mp hrun
  simp only [pure_eq_ok, Except.ok.injEq, Prod.mk.injEq] at hrun
  obtain ⟨rfl, rfl, rfl⟩ := hrun
  exact ⟨b₁, p.1, p.2, hnew, hops, of_decide_eq_true htwo,
    slab_capacity_high_water (by constructor <;> decide) (.inl hnew) hops⟩

/-- The slots that the vector has room for once `reserve` has returned. -/
def room (s : Slab) (orders : ℕ) : ℕ := s.slots.length + (orders - (s.slots.length - s.live))

def reserved : Exec (ArrayBook × List Reply × ArrayBook × ArrayBook × List Reply × ArrayBook) := do
  let b₀ ← ArrayBook.new ⟨100, 4, 5⟩
  let p ← run ArrayBook.apply b₀ churnOps
  let b₁ ← p.2.reserve 1
  let q ← run ArrayBook.apply b₁ [.add 4 .bid 105 1, .add 5 .ask 110 1]
  return (b₀, p.1, p.2, b₁, q.1, q.2)

end Lobcore.SlabMarks
