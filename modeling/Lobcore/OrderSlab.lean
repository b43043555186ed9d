import Lobcore.Checked
import Lobcore.LinkedCells
import Lobcore.OrderTypes
import Lobcore.SortedMaps
import Mathlib.Algebra.Order.Group.Unbundled.Int
import Mathlib.Data.Nat.Log

/-!
The slab of order slots with its intrusive free list, and the id map (`slab.rs`).
A slot keeps its side in the sign of its price; the free list is threaded through
the same `next` field that links the orders of a level. The free list is described by
the list of its slots, and each operation by what it does to every slot.
-/
namespace Lobcore.OrderSlab

open Checked LinkedCells OrderTypes SortedMaps

/-- Link terminator for `prev`, `next` and the free list: `u32::MAX`. -/
def nilSlot : ℕ := 4294967295

def isizeMax : ℕ := 9223372036854775807

def usizeMax : ℕ := 18446744073709551615

/-- One resting order; positive price for a bid, negative for an ask. -/
structure Slot where
  id : OrderId
  qty : ℕ
  px : ℤ
  prev : ℕ
  next : ℕ
  deriving DecidableEq, Repr

namespace Slot

def side (s : Slot) : Side := if s.px < 0 then .ask else .bid

/-- The unsigned public price. -/
def absPx (s : Slot) : Exec ℤ := fitI32 |s.px|

/-- Encode a side into the sign of a price. -/
def signedPx (side : Side) (px : ℤ) : Exec ℤ :=
  match side with
  | .bid => .ok px
  | .ask => fitI32 (-px)

/-- A slot with other links. -/
def relink (s : Slot) (prev next : ℕ) : Slot := { s with prev, next }

end Slot

structure Slab where
  slots : List Slot
  freeHead : ℕ
  live : ℕ
  deriving DecidableEq

/-- What `check` found wrong; the source words the same data as a text. -/
inductive Violation where
  | bitCount (side : Side) (level : ℕ) (bit : Bool) (count : ℕ)
  | summary (side : Side) (word : ℕ)
  | emptyOverflow (side : Side) (px : ℤ)
  | inRangeOverflow (side : Side) (px : ℤ)
  | liveCount (linked live ids : ℕ)
  | freeCycle
  | capacity (live free capacity : ℕ)
  | idSlot (id : OrderId) (slot : ℕ) (held : OrderId)
  | zeroOrder (id : OrderId)
  | sideSums (levels orders : ℕ × ℕ)
  | fifoCycle (side : Side) (px : ℤ)
  | prevLink (side : Side) (px : ℤ) (slot prev expected : ℕ)
  | misplaced (side : Side) (px : ℤ) (slot : ℕ)
  | zeroQty (side : Side) (px : ℤ) (slot : ℕ)
  | unmapped (side : Side) (px : ℤ) (slot : ℕ) (id : OrderId)
  | tailLink (side : Side) (px : ℤ) (tail last : ℕ)
  | levelCount (side : Side) (px : ℤ) (count fifo : ℕ)
  | levelQty (side : Side) (px : ℤ) (qty sum : ℕ)
  deriving DecidableEq, Repr

namespace Slab

def new : Slab := ⟨[], nilSlot, 0⟩

def get (s : Slab) (i : ℕ) : Exec Slot := index s.slots i

/-- A write through `get_mut`. -/
def modify (s : Slab) (i : ℕ) (f : Slot → Slot) : Exec Slab := do
  let slot ← index s.slots i
  let slots ← store s.slots i (f slot)
  return { s with slots }

/-- Take a slot, from the free list first; its links are `nilSlot`. -/
def alloc (s : Slab) (id : OrderId) (qty : ℕ) (signedPx : ℤ) : Exec (ℕ × Slab) := do
  let slot : Slot := ⟨id, qty, signedPx, nilSlot, nilSlot⟩
  if s.freeHead ≠ nilSlot then
    let i := s.freeHead
    let old ← index s.slots i
    let slots ← store s.slots i slot
    return (i, ⟨slots, old.next, s.live + 1⟩)
  else
    let i := s.slots.length
    ensure (i < nilSlot)
    return (i, ⟨s.slots ++ [slot], s.freeHead, s.live + 1⟩)

/-- Return a slot to the free list. -/
def free (s : Slab) (i : ℕ) : Exec Slab := do
  ensure (0 < s.live)
  let slots ← store s.slots i ⟨0, 0, 0, nilSlot, s.freeHead⟩
  return ⟨slots, i, s.live - 1⟩

/-- Slots ever allocated. -/
def capacity (s : Slab) : ℕ := s.slots.length

/-- Room for `n` live orders. `Vec::reserve` stops when the slots, 24 bytes each, would
take more than `isize::MAX` bytes. -/
def reserve (s : Slab) (n : ℕ) : Exec Slab :=
  if 24 * (s.slots.length + (n - (s.slots.length - s.live))) ≤ isizeMax then .ok s
  else .error .overflow

def freeLoop (s : Slab) : ℕ → ℕ → ℕ → Exec (Except Violation ℕ)
  | 0, _, _ => .error .unfinished
  | fuel + 1, n, i =>
    if i = nilSlot then return .ok n
    else if s.slots.length < n + 1 then return .error .freeCycle
    else do
      let slot ← index s.slots i
      s.freeLoop fuel (n + 1) slot.next

/-- Length of the free list; it is given up as a cycle past the capacity. -/
def freeLen (s : Slab) : Exec (Except Violation ℕ) := s.freeLoop (s.slots.length + 2) 0 s.freeHead

end Slab

/-- The id map: a hash map in the source, so only its lookups and its size are used. -/
abbrev IdMap := SortedMap OrderId ℕ

/-- The bytes of a hash table for `n` entries of 16 bytes: a power of two of buckets, at
most seven in eight in use, with a control byte each and one group of 16 at the end. -/
def tableBytes (n : ℕ) : ℕ := 17 * 2 ^ Nat.clog 2 (8 * n / 7) + 16

/-- `HashMap::reserve` stops when the table layout would not fit. -/
def reserveIds (ids : IdMap) (n : ℕ) : Exec IdMap :=
  if tableBytes (ids.length + n) ≤ isizeMax - 15 then .ok ids else .error .overflow

/-- `IdMap::insert`, which asserts that the id is fresh. -/
def insertFresh (ids : IdMap) (id : OrderId) (slot : ℕ) : Exec IdMap := do
  ensure (ids.get? id = none)
  return ids.insert id slot

namespace Slab

/-- The slot at an index; a blank one past the end. -/
def cell (s : Slab) (i : ℕ) : Slot := s.slots.getD i ⟨0, 0, 0, nilSlot, nilSlot⟩

/-- Id and remaining quantity of a slot. -/
def order (s : Slab) (i : ℕ) : OrderId × ℕ := ((s.cell i).id, (s.cell i).qty)

/-- The free list runs through exactly these slots, each once. -/
structure FreeList (s : Slab) (free : List ℕ) : Prop where
  head_eq : s.freeHead = free.headD nilSlot
  threaded : Threaded (fun i => (s.cell i).next) free nilSlot
  nodup : free.Nodup
  bound : ∀ i ∈ free, i < s.slots.length
  capacity_le : s.slots.length ≤ nilSlot
  live_eq : s.live + free.length = s.slots.length

variable {s : Slab} {xs : List ℕ} {i : ℕ}

theorem get_ok (hi : i < s.slots.length) : s.get i = .ok (s.cell i) :=
  index_ok (by simp [cell, hi])

theorem modify_spec (hi : i < s.slots.length) (f : Slot → Slot) :
    ∃ s', s.modify i f = .ok s' ∧ (∀ j, s'.cell j = if j = i then f (s.cell i) else s.cell j) ∧
      s'.slots.length = s.slots.length ∧ s'.freeHead = s.freeHead ∧ s'.live = s.live := by
  have hget : index s.slots i = .ok (s.cell i) := get_ok hi
  refine ⟨{ s with slots := s.slots.set i (f (s.cell i)) }, ?_, fun j => ?_, by simp, rfl, rfl⟩
  · simp [modify, hget, store_ok hi]
  · by_cases hj : j = i
    · subst hj
      simp [cell, hi]
    · simp [cell, hj, Ne.symm hj]

/-- Writes outside the free list keep it. -/
theorem FreeList.frame {s' : Slab} (h : s.FreeList xs)
    (hcell : ∀ i ∈ xs, (s'.cell i).next = (s.cell i).next)
    (hlen : s'.slots.length = s.slots.length) (hhead : s'.freeHead = s.freeHead)
    (hlive : s'.live = s.live) : s'.FreeList xs where
  head_eq := hhead.trans h.head_eq
  threaded := h.threaded.congr hcell
  nodup := h.nodup
  bound i hi := hlen ▸ h.bound i hi
  capacity_le := hlen ▸ h.capacity_le
  live_eq := by rw [hlive, hlen, h.live_eq]

theorem freeList_new : new.FreeList [] where
  head_eq := rfl
  threaded := trivial
  nodup := List.nodup_nil
  bound i hi := by simp at hi
  capacity_le := by simp [new]
  live_eq := rfl

/-- An allocation takes the first free slot, or a new one at the end, and blanks its links. -/
theorem FreeList.alloc (h : s.FreeList xs) (hroom : s.live < nilSlot) (id : OrderId)
    (qty : ℕ) (px : ℤ) :
    ∃ i s', s.alloc id qty px = .ok (i, s') ∧ s'.FreeList xs.tail ∧ i < s'.slots.length ∧
      s'.live = s.live + 1 ∧ (xs = i :: xs.tail ∨ xs = [] ∧ i = s.slots.length) ∧
      (∀ j, j < s'.slots.length ↔ j = i ∨ j < s.slots.length) ∧
      ∀ j, s'.cell j = if j = i then ⟨id, qty, px, nilSlot, nilSlot⟩ else s.cell j := by
  cases xs with
  | nil =>
    have hhead : s.freeHead = nilSlot := h.head_eq
    have hlive := h.live_eq
    rw [List.length_nil, Nat.add_zero] at hlive
    refine ⟨s.slots.length, ⟨s.slots ++ [⟨id, qty, px, nilSlot, nilSlot⟩], s.freeHead, s.live + 1⟩,
      ?_, ⟨hhead, trivial, List.nodup_nil, by simp, ?_, ?_⟩, by simp, rfl, Or.inr ⟨rfl, rfl⟩,
      fun j => ?_, fun j => ?_⟩
    · simp [Slab.alloc, hhead, ensure_ok (show s.slots.length < nilSlot from hlive ▸ hroom)]
    · simp only [List.length_append, List.length_singleton]
      omega
    · simp [hlive]
    · simp only [List.length_append, List.length_singleton]
      omega
    · by_cases hj : j = s.slots.length
      · simp [cell, hj]
      · by_cases hlt : j < s.slots.length
        · simp [cell, hj, hlt, List.getElem?_append_left hlt]
        · have hend : (s.slots ++ [⟨id, qty, px, nilSlot, nilSlot⟩])[j]? = none :=
            List.getElem?_eq_none (by rw [List.length_append, List.length_singleton]; omega)
          simp [cell, hj, hlt, hend]
  | cons i rest =>
    have hi : i < s.slots.length := h.bound i (List.mem_cons_self ..)
    have hhead : s.freeHead = i := h.head_eq
    have hne : i ≠ nilSlot := (lt_of_lt_of_le hi h.capacity_le).ne
    obtain ⟨hnext, hrest⟩ := h.threaded
    obtain ⟨hfresh, hnodup⟩ := List.nodup_cons.mp h.nodup
    have hget : index s.slots i = .ok (s.cell i) := get_ok hi
    have hcell : ∀ j, cell ⟨s.slots.set i ⟨id, qty, px, nilSlot, nilSlot⟩, (s.cell i).next,
        s.live + 1⟩ j = if j = i then ⟨id, qty, px, nilSlot, nilSlot⟩ else s.cell j := by
      intro j
      by_cases hj : j = i
      · subst hj
        simp [cell, hi]
      · simp [cell, hj, Ne.symm hj]
    refine ⟨i, _, ?_, ⟨hnext, hrest.congr fun j hj => ?_, hnodup, fun j hj => ?_, ?_, ?_⟩, ?_, rfl,
      Or.inl rfl, fun j => ?_, hcell⟩
    · simp [Slab.alloc, hhead, hne, hget, store_ok hi]
    · have hji : j ≠ i := fun heq => hfresh (heq ▸ hj)
      simp only [hcell, if_neg hji]
    · simpa using h.bound j (List.mem_cons_of_mem _ hj)
    · simpa using h.capacity_le
    · have hlive := h.live_eq
      simp only [List.length_cons, List.length_set, List.tail_cons] at hlive ⊢
      omega
    · simpa using hi
    · simp only [List.length_set]
      omega

/-- With every slot in use an allocation stops. -/
theorem FreeList.alloc_full (h : s.FreeList xs) (hfull : s.live = nilSlot) (id : OrderId)
    (qty : ℕ) (px : ℤ) : s.alloc id qty px = .error .assertion := by
  have hlive := h.live_eq
  have hcap := h.capacity_le
  have hnil : xs = [] := List.eq_nil_of_length_eq_zero (by omega)
  subst hnil
  have hhead : s.freeHead = nilSlot := h.head_eq
  have hlen : ¬ s.slots.length < nilSlot := by omega
  simp [Slab.alloc, hhead, ensure, hlen]

/-- A freed slot becomes the first of the free list. -/
theorem FreeList.free (h : s.FreeList xs) (hi : i < s.slots.length) (hfresh : i ∉ xs)
    (hlive : 0 < s.live) :
    ∃ s', s.free i = .ok s' ∧ s'.FreeList (i :: xs) ∧ s'.slots.length = s.slots.length ∧
      s'.live = s.live - 1 ∧
      ∀ j, s'.cell j = if j = i then ⟨0, 0, 0, nilSlot, s.freeHead⟩ else s.cell j := by
  have hcell : ∀ j, cell ⟨s.slots.set i ⟨0, 0, 0, nilSlot, s.freeHead⟩, i, s.live - 1⟩ j =
      if j = i then ⟨0, 0, 0, nilSlot, s.freeHead⟩ else s.cell j := by
    intro j
    by_cases hj : j = i
    · subst hj
      simp [cell, hi]
    · simp [cell, hj, Ne.symm hj]
  have hthread : Threaded (fun j => (cell ⟨s.slots.set i ⟨0, 0, 0, nilSlot, s.freeHead⟩, i,
      s.live - 1⟩ j).next) (i :: xs) nilSlot := by
    refine ⟨?_, h.threaded.congr fun j hj => ?_⟩
    · simp only [hcell, if_true]
      exact h.head_eq
    · have hji : j ≠ i := fun heq => hfresh (heq ▸ hj)
      simp only [hcell, if_neg hji]
  refine ⟨_, by simp [Slab.free, ensure_ok hlive, store_ok hi],
    ⟨rfl, hthread, List.nodup_cons.mpr ⟨hfresh, h.nodup⟩, fun j hj => ?_, ?_, ?_⟩,
    by simp, rfl, hcell⟩
  · rcases List.mem_cons.mp hj with rfl | hj
    · simpa using hi
    · simpa using h.bound j hj
  · simpa using h.capacity_le
  · have heq := h.live_eq
    simp only [List.length_cons, List.length_set]
    omega

/-- Walking the free list counts it. -/
theorem FreeList.freeLen (h : s.FreeList xs) : s.freeLen = .ok (.ok xs.length) := by
  have hloop : ∀ (rest : List ℕ) (n fuel : ℕ), n + rest.length ≤ s.slots.length →
      rest.length < fuel → (∀ i ∈ rest, i < s.slots.length) →
      Threaded (fun i => (s.cell i).next) rest nilSlot →
      s.freeLoop fuel n (rest.headD nilSlot) = .ok (.ok (n + rest.length)) := by
    intro rest
    induction rest with
    | nil =>
      intro n fuel _ hfuel _ _
      obtain ⟨fuel, rfl⟩ := Nat.exists_eq_succ_of_ne_zero (Nat.ne_of_gt hfuel)
      simp [freeLoop]
    | cons i rest ih =>
      intro n fuel hn hfuel hbound hthread
      obtain ⟨fuel, rfl⟩ := Nat.exists_eq_succ_of_ne_zero (by omega : fuel ≠ 0)
      obtain ⟨hnext, hrest⟩ := hthread
      have hi := hbound i (List.mem_cons_self ..)
      have hne : i ≠ nilSlot := (lt_of_lt_of_le hi h.capacity_le).ne
      rw [List.length_cons] at hn hfuel
      have hget : index s.slots i = .ok (s.cell i) := get_ok hi
      have htail := ih (n + 1) fuel (by omega) (by omega)
        (fun j hj => hbound j (List.mem_cons_of_mem _ hj)) hrest
      have hshort : ¬ s.slots.length < n + 1 := by omega
      have hnext' : (s.cell i).next = rest.headD nilSlot := hnext
      simp only [List.headD_cons, freeLoop, if_neg hne, if_neg hshort, hget, ok_bind, hnext', htail,
        List.length_cons]
      congr 2
      omega
  have hle : xs.length ≤ s.slots.length := by
    have := h.live_eq
    omega
  rw [Slab.freeLen, h.head_eq, hloop xs 0 _ (by omega) (by omega) h.bound h.threaded, Nat.zero_add]

end Slab

end Lobcore.OrderSlab
