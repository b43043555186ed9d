import Lobcore.GeneratorBooks

/-!
The references that the locates of a generator keep. On one locate the live list, its index map
and the book agree; a reference that leaves the live list may be remembered as dead, and only a
new one comes in. Across the locates no reference is kept twice, none is both live and dead, and
all are below the next one to be given out.
-/
namespace Lobcore.LiveReferences

open Checked OrderTypes SortedMaps Markets TruthBooks Generators GeneratorDraws GeneratorBooks

/-- The market that a book describes. -/
def shown (t : TruthBook) : Market where
  queue s px := ((t.side s).get? px).getD []
  home id := t.orders.get? id

theorem shown_of_shows {t : TruthBook} {m : Market} (h : t.Shows m) : shown t = m := by
  have hqueue : m.queue = (shown t).queue := by
    funext s px
    exact h.queue_eq s px
  have hhome : m.home = (shown t).home := by
    funext id
    exact h.home_eq id
  cases m
  simp only at hqueue hhome
  rw [hqueue, hhome]

/-! One locate. -/

/-- The book is valid, and the live list and its index map hold the orders of the book. -/
structure Tracks (l : Locate) : Prop where
  shows : l.book.Shows (shown l.book)
  indexed : Indexed l.live l.liveIdx
  live_iff : ∀ id, id ∈ l.live ↔ (l.book.lookup id).isSome

theorem tracks_of_shows {l : Locate} {m : Market} (h : l.book.Shows m)
    (hindexed : Indexed l.live l.liveIdx) (hlive : ∀ id, id ∈ l.live ↔ (m.home id).isSome) :
    Tracks l := by
  obtain rfl := shown_of_shows h
  exact ⟨h, hindexed, hlive⟩

/-- A locate that keeps a market tracks its orders. -/
theorem tracks_of_keeps {l : Locate} {next : ℕ} {m : Market} (h : Keeps l next m) : Tracks l :=
  tracks_of_shows h.shows h.indexed h.live_iff

/-- The locate keeps the reference, live or dead. -/
def Refers (l : Locate) (id : OrderId) : Prop := id ∈ l.live ∨ id ∈ l.dead

/-- How a change of a locate moves its references: at most `new` comes in, and a reference that
is remembered as dead was live before and is not any more. -/
structure Turns (l l' : Locate) (new : Option OrderId) : Prop where
  tracks : Tracks l'
  live : ∀ id ∈ l'.live, id ∈ l.live ∨ id ∈ new
  dead : ∀ id ∈ l'.dead, id ∈ l.dead ∨ id ∈ l.live ∧ id ∉ l'.live

theorem Turns.refers {l l' : Locate} {new : Option OrderId} (h : Turns l l' new) {id : OrderId}
    (hid : Refers l' id) : Refers l id ∨ id ∈ new := by
  rcases hid with hlive | hdead
  · rcases h.live id hlive with hlive | hnew
    · exact Or.inl (Or.inl hlive)
    · exact Or.inr hnew
  · rcases h.dead id hdead with hdead | ⟨hlive, -⟩
    · exact Or.inl (Or.inr hdead)
    · exact Or.inl (Or.inl hlive)

/-- A reference that leaves, and then one that comes in. -/
theorem Turns.trans {l l' l'' : Locate} {new : Option OrderId} (h : Turns l l' none)
    (h' : Turns l' l'' new) (hnew : ∀ id ∈ new, id ∉ l.live) : Turns l l'' new where
  tracks := h'.tracks
  live id hid := by
    rcases h'.live id hid with hlive | hnew
    · exact Or.inl ((h.live id hlive).resolve_right fun hnone => by cases hnone)
    · exact Or.inr hnew
  dead id hid := by
    rcases h'.dead id hid with hdead | ⟨hlive, hgone⟩
    · rcases h.dead id hdead with hdead | ⟨hlive, hgone⟩
      · exact Or.inl hdead
      · refine Or.inr ⟨hlive, fun hback => ?_⟩
        rcases h'.live id hback with hstay | hcome
        · exact hgone hstay
        · exact hnew id hcome hlive
    · exact Or.inr ⟨(h.live id hlive).resolve_right fun hnone => (by cases hnone), hgone⟩

section Locates

variable {l : Locate} (h : Tracks l)

include h

theorem Tracks.turns : Turns l l none := ⟨h, fun _ hid => Or.inl hid, fun _ hid => Or.inl hid⟩

theorem Tracks.find {id : OrderId} (hid : id ∈ l.live) :
    ∃ s px n, (shown l.book).find id = some (s, px, n) := by
  cases hfind : (shown l.book).find id with
  | none =>
    have hhome : l.book.lookup id = none := h.shows.sound.find_eq_none.mp hfind
    rw [h.live_iff, hhome] at hid
    cases hid
  | some p => exact ⟨p.1, p.2.1, p.2.2, rfl⟩

theorem Tracks.live_of_find {id : OrderId} {s : Side} {px : ℤ} {n : ℕ}
    (hfind : (shown l.book).find id = some (s, px, n)) : id ∈ l.live := by
  have hhome : l.book.lookup id = some (s, px) := (Market.find_eq_some.mp hfind).1
  rw [h.live_iff, hhome]
  rfl

/-- A new order. -/
theorem Tracks.add {id : OrderId} (s : Side) (px : ℤ) {n : ℕ} (hid : id ∉ l.live) (hpos : 0 < n) :
    ∃ book, l.book.add id s px n = .ok book ∧ Turns l ({ l with book }.trackAdd id) (some id) := by
  have hhome : (shown l.book).home id = none := by
    rw [h.live_iff] at hid
    exact Option.not_isSome_iff_eq_none.mp hid
  obtain ⟨book, hadd, hshows⟩ := h.shows.add s px hhome hpos
  have htracks : Tracks ({ l with book }.trackAdd id) :=
    tracks_of_shows hshows (Indexed.concat h.indexed hid) (live_push h.live_iff id s px n)
  refine ⟨book, hadd, htracks, fun j hj => ?_, fun j hj => Or.inl hj⟩
  rcases List.mem_append.mp hj with hj | hj
  · exact Or.inl hj
  · exact Or.inr (List.mem_singleton.mp hj ▸ rfl)

/-- An order that leaves its book leaves the live references. -/
theorem Tracks.untrack {id : OrderId} {s : Side} {px : ℤ} {n : ℕ}
    (hfind : (shown l.book).find id = some (s, px, n)) (keepDead : Bool) {book : TruthBook}
    (hshows : book.Shows ((shown l.book).take id s px 0)) : ∃ l',
      { l with book }.trackRemove id keepDead = .ok l' ∧ l'.book = book ∧ Turns l l' none := by
  have hlive := Tracks.live_of_find h hfind
  obtain ⟨live, liveIdx, hremove, hindexed, hmem⟩ := trackRemove_ok h.indexed hlive keepDead
  refine ⟨_, hremove book, rfl, tracks_of_shows hshows hindexed (live_take h.live_iff hmem s px),
    fun j hj => ?_, fun j hj => ?_⟩
  · exact Or.inl ((hmem j).mp hj).1
  · have hcases : j ∈ l.dead ∨ j = id := by
      cases keepDead with
      | true => simpa using hj
      | false => exact Or.inl hj
    rcases hcases with hdead | rfl
    · exact Or.inl hdead
    · exact Or.inr ⟨hlive, fun hback => ((hmem j).mp hback).2 rfl⟩

theorem Tracks.delete {id : OrderId} (hid : id ∈ l.live) (keepDead : Bool) : ∃ book l',
    l.book.delete id = .ok (true, book) ∧ { l with book }.trackRemove id keepDead = .ok l' ∧
      l'.book = book ∧ Turns l l' none := by
  obtain ⟨s, px, n, hfind⟩ := Tracks.find h hid
  obtain ⟨book, hdelete, hshows⟩ := h.shows.delete hfind
  obtain ⟨l', hremove, hbook, hturns⟩ := Tracks.untrack h hfind keepDead hshows
  exact ⟨book, l', hdelete, hremove, hbook, hturns⟩

/-- Shares off an order that keeps some. -/
theorem Tracks.reduce {id : OrderId} {s : Side} {px : ℤ} {n k : ℕ}
    (hfind : (shown l.book).find id = some (s, px, n)) (hlt : k < n) : ∃ book,
      l.book.reduce id k = .ok (true, book) ∧ (book.lookup id).isSome ∧
      shown book = (shown l.book).take id s px (n - k) ∧ Turns l { l with book } none := by
  obtain ⟨book, hreduce, hshows, hcases⟩ := Shows.reduce_lookup h.shows hfind hlt.le
  have hsome := (hcases.resolve_right fun hall => hlt.ne hall.1).2
  have htracks : Tracks { l with book } := by
    refine tracks_of_shows hshows h.indexed fun j => ?_
    rw [home_take_some hlt]
    exact h.live_iff j
  exact ⟨book, hreduce, hsome, shown_of_shows hshows, htracks, fun _ hid => Or.inl hid,
    fun _ hid => Or.inl hid⟩

/-- Shares off an order, which leaves the live references if it has none left. -/
theorem Tracks.execute {id : OrderId} {s : Side} {px : ℤ} {n k : ℕ}
    (hfind : (shown l.book).find id = some (s, px, n)) (hle : k ≤ n) (keepDead : Bool) :
    ∃ book l', l.book.reduce id k = .ok (true, book) ∧ Untracked l book id keepDead l' ∧
      shown l'.book = (shown l.book).take id s px (n - k) ∧ Turns l l' none := by
  rcases Nat.lt_or_eq_of_le hle with hlt | rfl
  · obtain ⟨book, hreduce, hsome, hshown, hturns⟩ := Tracks.reduce h hfind hlt
    exact ⟨book, _, hreduce, untracked_stays hsome, hshown, hturns⟩
  · obtain ⟨book, hreduce, hshows, hcases⟩ := Shows.reduce_lookup h.shows hfind (Nat.le_refl k)
    have hgone := (hcases.resolve_left fun hsome => hsome.1.false).2
    rw [Nat.sub_self] at hshows ⊢
    obtain ⟨l', hremove, rfl, hturns⟩ := Tracks.untrack h hfind keepDead hshows
    exact ⟨l'.book, l', hreduce, untracked_gone hgone hremove, shown_of_shows hshows, hturns⟩

/-- An order in place of another. -/
theorem Tracks.replace {old new : OrderId} {px : ℤ} {n : ℕ} (hold : old ∈ l.live)
    (hnew : new ∉ l.live) (hpos : 0 < n) (keepDead : Bool) : ∃ book l',
      l.book.replace old new px n = .ok (true, book) ∧
      { l with book }.trackRemove old keepDead = .ok l' ∧
      Turns l (l'.trackAdd new) (some new) := by
  obtain ⟨s, oldPx, held, hfind⟩ := Tracks.find h hold
  have hhome : l.book.orders.get? old = some (s, oldPx) := (Market.find_eq_some.mp hfind).1
  obtain ⟨gone, hdelete, hshows⟩ := h.shows.delete hfind
  obtain ⟨live, liveIdx, hremove, -, -⟩ := trackRemove_ok h.indexed hold keepDead
  obtain ⟨l', hremove', hbook, hturns⟩ := Tracks.untrack h hfind keepDead hshows
  obtain rfl := Except.ok.inj (hremove'.symm.trans (hremove gone))
  have hout : new ∉ live := fun hback =>
    hnew ((hturns.live new hback).resolve_right fun hnone => by cases hnone)
  obtain ⟨book, hadd, hturns'⟩ := Tracks.add hturns.tracks s px hout hpos
  refine ⟨book, _, TruthBook.replace_ok hhome hdelete hadd, hremove book,
    hturns.trans hturns' fun id hid => ?_⟩
  obtain rfl := Option.some.inj hid
  exact hnew

end Locates

/-! All locates. -/

/-- The references of a generator are in step with its books. -/
structure InStep (g : Generator) : Prop where
  tracks : ∀ l ∈ g.locs, Tracks l
  gone : ∀ l ∈ g.locs, ∀ id ∈ l.dead, id ∉ l.live
  below : ∀ l ∈ g.locs, ∀ id, Refers l id → id.toNat < g.nextRef
  apart : ∀ (i j : ℕ) (l l' : Locate), g.locs[i]? = some l → g.locs[j]? = some l' → i ≠ j →
    ∀ id, Refers l id → ¬ Refers l' id

section Generators

variable {g g' : Generator} (h : InStep g)

include h

/-- The next reference is kept nowhere. -/
theorem InStep.fresh (hnext : g.nextRef < 2 ^ 64) {l : Locate} (hl : l ∈ g.locs) :
    ¬ Refers l (.ofNat g.nextRef) := by
  intro hid
  have hlt := h.below l hl _ hid
  rw [UInt64.toNat_ofNat_of_lt' hnext] at hlt
  exact lt_irrefl _ hlt

/-- Draws and mids are no part of the references. -/
theorem InStep.of_locs (hlocs : g'.locs = g.locs) (hnext : g.nextRef ≤ g'.nextRef) : InStep g' := by
  refine ⟨?_, ?_, fun l hl id hid => lt_of_lt_of_le (h.below l (hlocs ▸ hl) id hid) hnext, ?_⟩
  · rw [hlocs]
    exact h.tracks
  · rw [hlocs]
    exact h.gone
  · rw [hlocs]
    exact h.apart

/-- A change of one locate. -/
theorem InStep.turn {li : ℕ} {l l' : Locate} {new : Option OrderId} (hl : g.locs[li]? = some l)
    (hturns : Turns l l' new) (hlocs : g'.locs = g.locs.set li l')
    (hnew : ∀ id ∈ new, id = .ofNat g.nextRef ∧ g.nextRef < 2 ^ 64 ∧ g.nextRef < g'.nextRef)
    (hnext : g.nextRef ≤ g'.nextRef) : InStep g' := by
  have hmem := List.mem_of_getElem? hl
  have hcases : ∀ k ∈ g'.locs, k ∈ g.locs ∨ k = l' := by
    intro k hk
    rw [hlocs] at hk
    exact (List.mem_or_eq_of_mem_set hk)
  have hother : ∀ k ∈ g.locs, ∀ id ∈ new, ¬ Refers k id := by
    intro k hk id hid
    obtain ⟨rfl, hlt, -⟩ := hnew id hid
    exact InStep.fresh h hlt hk
  have hget : ∀ (j : ℕ) (k : Locate), g'.locs[j]? = some k →
      j = li ∧ k = l' ∨ j ≠ li ∧ g.locs[j]? = some k := by
    intro j k hk
    rw [hlocs, List.getElem?_set] at hk
    by_cases hj : li = j
    · subst hj
      rw [if_pos rfl, if_pos (List.getElem?_eq_some_iff.mp hl).1] at hk
      exact Or.inl ⟨rfl, (Option.some.inj hk).symm⟩
    · rw [if_neg hj] at hk
      exact Or.inr ⟨Ne.symm hj, hk⟩
  have hapart : ∀ (j : ℕ) (k : Locate), j ≠ li → g.locs[j]? = some k →
      ∀ id, Refers l' id → ¬ Refers k id := by
    intro j k hj hk id hid hback
    rcases hturns.refers hid with hid | hid
    · exact h.apart li j l k hl hk (Ne.symm hj) id hid hback
    · exact hother k (List.mem_of_getElem? hk) id hid hback
  refine ⟨fun k hk => ?_, fun k hk id hdead => ?_, fun k hk id hid => ?_,
    fun i j k k' hk hk' hij id hid hid' => ?_⟩
  · rcases hcases k hk with hk | rfl
    · exact h.tracks k hk
    · exact hturns.tracks
  · rcases hcases k hk with hk | rfl
    · exact h.gone k hk id hdead
    · rcases hturns.dead id hdead with hdead | ⟨-, hgone⟩
      · intro hlive
        rcases hturns.live id hlive with hlive | hnew
        · exact h.gone l hmem id hdead hlive
        · exact hother l hmem id hnew (Or.inr hdead)
      · exact hgone
  · rcases hcases k hk with hk | rfl
    · exact lt_of_lt_of_le (h.below k hk id hid) hnext
    · rcases hturns.refers hid with hid | hid
      · exact lt_of_lt_of_le (h.below l hmem id hid) hnext
      · obtain ⟨rfl, hlt, hle⟩ := hnew id hid
        rwa [UInt64.toNat_ofNat_of_lt' hlt]
  · rcases hget i k hk with ⟨rfl, rfl⟩ | ⟨hi, hk⟩
    · rcases hget j k' hk' with ⟨rfl, rfl⟩ | ⟨hj, hk'⟩
      · exact hij rfl
      · exact hapart j k' hj hk' id hid hid'
    · rcases hget j k' hk' with ⟨rfl, rfl⟩ | ⟨hj, hk'⟩
      · exact hapart i k hi hk id hid' hid
      · exact h.apart i j k k' hk hk' hij id hid hid'

end Generators

end Lobcore.LiveReferences
