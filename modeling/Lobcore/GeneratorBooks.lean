import Lobcore.GeneratorDraws

/-!
The books of the generator under its messages. A locate keeps its live references in a list with
an index map; an order that leaves is replaced in the list by the last entry. Each change of a
book is made together with the change of the references, and the locate keeps its market.
-/
namespace Lobcore.GeneratorBooks

open Checked OrderTypes SortedMaps Markets TruthBooks Generators GeneratorDraws

/-! Live references. -/

section Index

variable {live : List OrderId} {idx : SortedMap OrderId ℕ} (h : Indexed live idx)

include h

theorem Indexed.eq_of_get {id : OrderId} {i j : ℕ} (hi : live[i]? = some id)
    (hj : live[j]? = some id) : i = j := by
  have hsome := (h id i).mpr hi
  rw [(h id j).mpr hj] at hsome
  exact (Option.some.inj hsome).symm

theorem Indexed.mem_iff (id : OrderId) : id ∈ live ↔ (idx.get? id).isSome := by
  rw [List.mem_iff_getElem?, Option.isSome_iff_exists]
  exact exists_congr fun i => (h id i).symm

theorem Indexed.nodup : live.Nodup := by
  rw [List.nodup_iff_getElem?_ne_getElem?]
  intro i j hij hj heq
  have hget := List.getElem?_eq_getElem hj
  exact (Nat.ne_of_lt hij) (Indexed.eq_of_get h (heq.trans hget) hget)

theorem Indexed.concat {id : OrderId} (hid : id ∉ live) :
    Indexed (live ++ [id]) (idx.insert id live.length) := by
  intro j i
  rw [SortedMap.get?_insert]
  by_cases hj : j = id
  · subst hj
    rw [if_pos rfl]
    constructor
    · intro hi
      obtain rfl := Option.some.inj hi
      simp
    · intro hi
      rcases Nat.lt_or_ge i live.length with hlt | hge
      · rw [List.getElem?_append_left hlt] at hi
        exact absurd (List.mem_of_getElem? hi) hid
      · have hlen := (List.getElem?_eq_some_iff.mp hi).1
        rw [List.length_append, List.length_singleton] at hlen
        exact congrArg some (by omega)
  · rw [if_neg hj, h j i]
    rcases Nat.lt_or_ge i live.length with hlt | hge
    · rw [List.getElem?_append_left hlt]
    · have hnone := List.getElem?_eq_none hge
      rw [List.getElem?_append_right hge, hnone]
      constructor
      · intro hi
        cases hi
      · intro hi
        exact absurd (List.mem_singleton.mp (List.mem_of_getElem? hi)) hj

omit h in
/-- Another entry than the last one stands before it. -/
theorem getElem?_before_last {last j : OrderId} (hend : live[live.length - 1]? = some last)
    (hj : j ≠ last) (k : ℕ) :
    live[k]? = some j ↔ (if k < live.length - 1 then live[k]? else none) = some j := by
  by_cases hkl : k < live.length - 1
  · rw [if_pos hkl]
  · rw [if_neg hkl]
    constructor
    · intro hget
      have hlen := (List.getElem?_eq_some_iff.mp hget).1
      obtain rfl : k = live.length - 1 := by omega
      rw [hend] at hget
      exact absurd (Option.some.inj hget).symm hj
    · intro hget
      cases hget

/-- The last entry takes the place of the one that leaves. -/
theorem Indexed.swapRemove {id last : OrderId} {i : ℕ} (hi : live[i]? = some id)
    (hlast : live.getLast? = some last) (hlt : i < live.length - 1) :
    Indexed (live.dropLast.set i last) ((idx.erase id).insert last i) := by
  have hend : live[live.length - 1]? = some last := by rw [← List.getLast?_eq_getElem?, hlast]
  have hne : id ≠ last := by
    intro heq
    have := Indexed.eq_of_get h (heq ▸ hi) hend
    omega
  intro j k
  rw [SortedMap.get?_insert, SortedMap.get?_erase, List.getElem?_set, List.length_dropLast,
    List.getElem?_dropLast]
  by_cases hj : j = last
  · subst hj
    rw [if_pos rfl]
    by_cases hk : i = k
    · simp [hk, hk ▸ hlt]
    · rw [if_neg hk]
      constructor
      · intro hik
        exact absurd (Option.some.inj hik) hk
      · intro hget
        split at hget
        · have := Indexed.eq_of_get h hget hend
          omega
        · cases hget
  · rw [if_neg hj]
    by_cases hjd : j = id
    · subst hjd
      rw [if_pos rfl]
      constructor
      · intro hk
        cases hk
      · intro hget
        split at hget
        · exact absurd (Option.some.inj hget).symm hj
        · rename_i hik
          split at hget
          · exact absurd (Indexed.eq_of_get h hi hget) hik
          · cases hget
    · rw [if_neg hjd, h j k]
      by_cases hk : i = k
      · subst hk
        rw [if_pos rfl, if_pos hlt, hi]
        constructor
        · intro heq
          exact absurd (Option.some.inj heq).symm hjd
        · intro heq
          exact absurd (Option.some.inj heq).symm hj
      · rw [if_neg hk]
        exact getElem?_before_last hend hj k

theorem Indexed.dropLast {id : OrderId} (hlast : live.getLast? = some id) :
    Indexed live.dropLast (idx.erase id) := by
  have hend : live[live.length - 1]? = some id := by rw [← List.getLast?_eq_getElem?, hlast]
  intro j k
  rw [SortedMap.get?_erase, List.getElem?_dropLast]
  by_cases hj : j = id
  · subst hj
    rw [if_pos rfl]
    constructor
    · intro hk
      cases hk
    · intro hget
      split at hget
      · have := Indexed.eq_of_get h hget hend
        omega
      · cases hget
  · rw [if_neg hj, h j k]
    exact getElem?_before_last hend hj k

end Index

/-- An entry that leaves the list leaves every other in it. -/
theorem trackRemove_ok {l : Locate} {id : OrderId} (h : Indexed l.live l.liveIdx)
    (hid : id ∈ l.live) (keepDead : Bool) : ∃ live liveIdx,
    (∀ book, { l with book }.trackRemove id keepDead = .ok { l with
      book, live, liveIdx, dead := if keepDead then l.dead ++ [id] else l.dead }) ∧
    Indexed live liveIdx ∧ ∀ j, j ∈ live ↔ j ∈ l.live ∧ j ≠ id := by
  obtain ⟨i, hlt, rfl⟩ := List.getElem_of_mem hid
  have hi := List.getElem?_eq_getElem hlt
  have hne : l.live ≠ [] := List.ne_nil_of_mem hid
  obtain ⟨last, hlast⟩ : ∃ last, l.live.getLast? = some last :=
    ⟨_, List.getLast?_eq_some_getLast hne⟩
  have hend : l.live[l.live.length - 1]? = some last := by
    rw [← List.getLast?_eq_getElem?, hlast]
  simp only [Locate.trackRemove, (h _ i).mpr hi, expect_some, ok_bind, hlast, List.length_dropLast,
    pure_eq_ok]
  by_cases hswap : i < l.live.length - 1
  · have hidx := Indexed.swapRemove h hi hlast hswap
    refine ⟨_, _, fun book => if_pos hswap, hidx, fun j => ?_⟩
    rw [Indexed.mem_iff hidx, Indexed.mem_iff h, SortedMap.get?_insert, SortedMap.get?_erase]
    by_cases hj : j = last
    · subst hj
      have hne : j ≠ l.live[i] := by
        intro heq
        have := Indexed.eq_of_get h (heq ▸ hi) hend
        omega
      have hmem := (Indexed.mem_iff h j).mp (List.mem_of_getElem? hend)
      simp [hne, hmem]
    · rw [if_neg hj]
      split
      · simp_all
      · simp_all
  · obtain rfl : i = l.live.length - 1 := by omega
    have hlast' : l.live.getLast? = some l.live[l.live.length - 1] := by
      rw [List.getLast?_eq_getElem?, hi]
    have hidx := Indexed.dropLast h hlast'
    refine ⟨_, _, fun book => if_neg hswap, hidx, fun j => ?_⟩
    rw [Indexed.mem_iff hidx, Indexed.mem_iff h, SortedMap.get?_erase]
    split
    · simp_all
    · simp_all

/-! Live references and the orders of a market. -/

section Live

variable {live : List OrderId} {m : Market} (hlive : ∀ id, id ∈ live ↔ (m.home id).isSome)

include hlive

theorem live_push (id : OrderId) (s : Side) (px : ℤ) (n : ℕ) (j : OrderId) :
    j ∈ live ++ [id] ↔ ((m.push id s px n).home j).isSome := by
  simp only [List.mem_append, List.mem_singleton, hlive, Market.push]
  by_cases hj : j = id
  · simp [hj]
  · simp [hj]

theorem live_take {live' : List OrderId} {id : OrderId}
    (hmem : ∀ j, j ∈ live' ↔ j ∈ live ∧ j ≠ id) (s : Side) (px : ℤ) (j : OrderId) :
    j ∈ live' ↔ ((m.take id s px 0).home j).isSome := by
  rw [hmem, hlive, Market.home_take_zero]
  by_cases hj : j = id
  · simp [hj]
  · simp [hj]

end Live

theorem home_take_some {m : Market} {n k : ℕ} (hlt : k < n) (id : OrderId) (s : Side) (px : ℤ) :
    (m.take id s px (n - k)).home = m.home := by
  rw [Market.take, if_neg (by omega)]

/-- Shares off an order leave it in the book, or take it out where they were all it had. -/
theorem Shows.reduce_lookup {t : TruthBook} {m : Market} (h : t.Shows m) {id : OrderId} {s : Side}
    {px : ℤ} {n k : ℕ} (hfind : m.find id = some (s, px, n)) (hle : k ≤ n) : ∃ book,
    t.reduce id k = .ok (true, book) ∧ book.Shows (m.take id s px (n - k)) ∧
      (k < n ∧ (book.lookup id).isSome ∨ k = n ∧ book.lookup id = none) := by
  obtain ⟨book, hreduce, hshows⟩ := h.reduce hfind hle
  refine ⟨book, hreduce, hshows, ?_⟩
  rcases Nat.lt_or_eq_of_le hle with hlt | heq
  · refine Or.inl ⟨hlt, ?_⟩
    rw [hshows.lookup_eq, home_take_some hlt, (Market.find_eq_some.mp hfind).1]
    rfl
  · refine Or.inr ⟨heq, ?_⟩
    rw [hshows.lookup_eq, heq, Nat.sub_self, Market.home_take_zero, if_pos rfl]

/-! Changes of a book. -/

/-- The locate after an execution: the order leaves the live references when the book knows it no
longer. -/
def Untracked (l : Locate) (book : TruthBook) (id : OrderId) (keepDead : Bool) (l' : Locate) :
    Prop :=
  ∀ f : Locate → Exec Generator, (if book.lookup id = none then
      { l with book }.trackRemove id keepDead >>= f
    else pure { l with book } >>= f) = f l'

section Untracked

variable {l l' : Locate} {book : TruthBook} {id : OrderId} {keepDead : Bool}

theorem untracked_gone (hgone : book.lookup id = none)
    (hremove : { l with book }.trackRemove id keepDead = .ok l') :
    Untracked l book id keepDead l' := fun f => by
  rw [if_pos hgone, hremove, ok_bind]

theorem untracked_stays (hstays : (book.lookup id).isSome) :
    Untracked l book id keepDead { l with book } := fun f => by
  rw [if_neg (Option.isSome_iff_ne_none.mp hstays), pure_eq_ok, ok_bind]

end Untracked

theorem headOfBest_of_headFor {l : Locate} {first : Side} {e : OrderId × ℕ}
    (h : Generator.headFor l first = some e) : ∃ s, l.book.headOfBest s = some e := by
  unfold Generator.headFor at h
  cases hfirst : l.book.headOfBest first with
  | none => exact ⟨first.opposite, by simpa [hfirst] using h⟩
  | some e' => exact ⟨first, by simpa [hfirst] using h⟩

section Books

variable {l : Locate} {next : ℕ} {m : Market} (hk : Keeps l next m)

include hk

theorem Keeps.onGrid_take {id : OrderId} {s : Side} {px : ℤ} {n rest : ℕ}
    (hfind : m.find id = some (s, px, n)) {s' : Side} {px' : ℤ}
    (hne : (m.take id s px rest).queue s' px' ≠ []) : OnGrid l.tick s' px' := by
  by_cases hq : s' = s ∧ px' = px
  · obtain ⟨rfl, rfl⟩ := hq
    obtain ⟨xs, ys, hsplit, -, -⟩ := hk.shows.sound.split hfind
    exact hk.onGrid s' px' (by simp [hsplit])
  · simp only [Market.take, Market.setQueue_of_ne m _ hq] at hne
    exact hk.onGrid s' px' hne

theorem Keeps.onGrid_push {id : OrderId} {s : Side} {px : ℤ} {n : ℕ} (hgrid : OnGrid l.tick s px)
    {s' : Side} {px' : ℤ} (hne : (m.push id s px n).queue s' px' ≠ []) : OnGrid l.tick s' px' := by
  by_cases hq : s' = s ∧ px' = px
  · obtain ⟨rfl, rfl⟩ := hq
    exact hgrid
  · simp only [Market.push, Market.setQueue_of_ne m _ hq] at hne
    exact hk.onGrid s' px' hne

/-- A new order under the next reference. -/
theorem Keeps.add {s : Side} {px : ℤ} {n : ℕ} (hnext : next < 2 ^ 64) (hpos : 0 < n)
    (hgrid : OnGrid l.tick s px) : ∃ book, l.book.add (.ofNat next) s px n = .ok book ∧
      Keeps ({ l with book }.trackAdd (.ofNat next)) (next + 1) (m.push (.ofNat next) s px n) := by
  have hfresh := hk.fresh hnext
  have hid : (UInt64.ofNat next).toNat = next := UInt64.toNat_ofNat_of_lt' hnext
  have hnew : UInt64.ofNat next ∉ l.live := by
    rw [hk.live_iff, hfresh]
    exact Bool.false_ne_true
  obtain ⟨book, hadd, hshows⟩ := hk.shows.add s px hfresh hpos
  refine ⟨book, hadd, hk.tick, hk.mid, hshows, Indexed.concat hk.indexed hnew,
    live_push hk.live_iff _ s px n, fun id hdead => ?_, fun id hhome => ?_, fun id hdead => ?_,
    fun s' px' => Keeps.onGrid_push hk hgrid⟩
  · have hne : id ≠ .ofNat next := by
      intro heq
      have hlt := hk.dead_lt id hdead
      rw [heq, hid] at hlt
      exact lt_irrefl _ hlt
    simp only [Market.push, Function.update_of_ne hne]
    exact hk.dead id hdead
  · by_cases heq : id = .ofNat next
    · rw [heq, hid]
      exact Nat.lt_succ_self next
    · simp only [Market.push, Function.update_of_ne heq] at hhome
      exact Nat.lt_succ_of_lt (hk.live_lt id hhome)
  · exact Nat.lt_succ_of_lt (hk.dead_lt id hdead)

/-- An order that leaves its book leaves the live references. -/
theorem Keeps.untrack {id : OrderId} {s : Side} {px : ℤ} {n : ℕ}
    (hfind : m.find id = some (s, px, n)) (keepDead : Bool) : ∃ live liveIdx dead,
    (∀ book, { l with book }.trackRemove id keepDead = .ok { l with book, live, liveIdx, dead }) ∧
    ∀ book : TruthBook, book.Shows (m.take id s px 0) →
      Keeps { l with book, live, liveIdx, dead } next (m.take id s px 0) := by
  have hhome := (Market.find_eq_some.mp hfind).1
  have hlive : (m.home id).isSome := by rw [hhome]; rfl
  obtain ⟨live, liveIdx, hremove, hidx, hmem⟩ := trackRemove_ok hk.indexed
    ((hk.live_iff id).mpr hlive) keepDead
  have hgone : ∀ j, (m.take id s px 0).home j = if j = id then none else m.home j :=
    fun j => Market.home_take_zero m id j s px
  refine ⟨live, liveIdx, _, hremove, fun book hshows => ⟨hk.tick, hk.mid, hshows, hidx,
    live_take hk.live_iff hmem s px, fun j hdead => ?_, fun j hj => ?_, fun j hdead => ?_,
    fun s' px' => Keeps.onGrid_take hk hfind⟩⟩
  · rw [hgone]
    by_cases hj : j = id
    · rw [if_pos hj]
    · rw [if_neg hj]
      refine hk.dead j ?_
      cases keepDead with
      | true => simpa [hj] using hdead
      | false => exact hdead
  · rw [hgone] at hj
    split at hj
    · cases hj
    · exact hk.live_lt j hj
  · by_cases hj : j = id
    · exact hj ▸ hk.live_lt id hlive
    · refine hk.dead_lt j ?_
      cases keepDead with
      | true => simpa [hj] using hdead
      | false => exact hdead

theorem Keeps.delete {id : OrderId} {s : Side} {px : ℤ} {n : ℕ}
    (hfind : m.find id = some (s, px, n)) (keepDead : Bool) : ∃ book l',
      l.book.delete id = .ok (true, book) ∧ { l with book }.trackRemove id keepDead = .ok l' ∧
      Keeps l' next (m.take id s px 0) := by
  obtain ⟨book, hdelete, hshows⟩ := hk.shows.delete hfind
  obtain ⟨live, liveIdx, dead, hremove, hkeep⟩ := Keeps.untrack hk hfind keepDead
  exact ⟨book, _, hdelete, hremove book, hkeep book hshows⟩

/-- Shares off an order that keeps some. -/
theorem Keeps.reduce {id : OrderId} {s : Side} {px : ℤ} {n k : ℕ}
    (hfind : m.find id = some (s, px, n)) (hlt : k < n) : ∃ book,
      l.book.reduce id k = .ok (true, book) ∧ (book.lookup id).isSome ∧
      Keeps { l with book } next (m.take id s px (n - k)) := by
  obtain ⟨book, hreduce, hshows, hcases⟩ := Shows.reduce_lookup hk.shows hfind hlt.le
  have hhome := home_take_some (m := m) hlt id s px
  refine ⟨book, hreduce, ?_, hk.tick, hk.mid, hshows, hk.indexed, fun j => ?_, fun j hj => ?_,
    fun j hj => ?_, hk.dead_lt, fun s' px' => Keeps.onGrid_take hk hfind⟩
  · exact (hcases.resolve_right fun hall => hlt.ne hall.1).2
  · rw [hhome]
    exact hk.live_iff j
  · rw [hhome]
    exact hk.dead j hj
  · rw [hhome] at hj
    exact hk.live_lt j hj

/-- Shares off an order, which leaves the live references if it has none left. -/
theorem Keeps.execute {id : OrderId} {s : Side} {px : ℤ} {n k : ℕ}
    (hfind : m.find id = some (s, px, n)) (hle : k ≤ n) (keepDead : Bool) : ∃ book l',
      l.book.reduce id k = .ok (true, book) ∧ Untracked l book id keepDead l' ∧
      Keeps l' next (m.take id s px (n - k)) := by
  rcases Nat.lt_or_eq_of_le hle with hlt | rfl
  · obtain ⟨book, hreduce, hsome, hkeep⟩ := Keeps.reduce hk hfind hlt
    exact ⟨book, _, hreduce, untracked_stays hsome, hkeep⟩
  · obtain ⟨book, hreduce, hshows, hcases⟩ := Shows.reduce_lookup hk.shows hfind (Nat.le_refl k)
    have hgone := (hcases.resolve_left fun hsome => hsome.1.false).2
    rw [Nat.sub_self] at hshows ⊢
    obtain ⟨live, liveIdx, dead, hremove, hkeep⟩ := Keeps.untrack hk hfind keepDead
    exact ⟨book, _, hreduce, untracked_gone hgone (hremove book), hkeep book hshows⟩

/-- An order in place of another. -/
theorem Keeps.replace {old : OrderId} {s : Side} {oldPx px : ℤ} {held n : ℕ}
    (hfind : m.find old = some (s, oldPx, held)) (hnext : next < 2 ^ 64) (hpos : 0 < n)
    (hgrid : OnGrid l.tick s px) (keepDead : Bool) : ∃ book l',
      l.book.replace old (.ofNat next) px n = .ok (true, book) ∧
      { l with book }.trackRemove old keepDead = .ok l' ∧
      Keeps (l'.trackAdd (.ofNat next)) (next + 1)
        ((m.take old s oldPx 0).push (.ofNat next) s px n) := by
  have hhome := (hk.shows.home_eq old).symm.trans (Market.find_eq_some.mp hfind).1
  obtain ⟨gone, hdelete, hshows⟩ := hk.shows.delete hfind
  obtain ⟨live, liveIdx, dead, hremove, hkeep⟩ := Keeps.untrack hk hfind keepDead
  obtain ⟨book, hadd, hkeep'⟩ := Keeps.add (hkeep gone hshows) hnext hpos hgrid
  exact ⟨book, _, TruthBook.replace_ok hhome hdelete hadd, hremove book, hkeep'⟩

end Books

end Lobcore.GeneratorBooks
