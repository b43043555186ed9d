import Lobcore.EventReplays
import Lobcore.PrefixCodes
import Lobcore.Writers

/-!
The stream of the state hash. Level headers and order records stand behind one another without
separators; a header counts the records that follow it, so the stream can be read from the front
and determines the levels. That the count is true is what a reached book provides.
-/
namespace Lobcore.StateStreams

open Checked OrderTypes Markets PrefixCodes Writers Sessions Migrations EventReplays

/-! Numbers and records. -/

theorem leBytes_inj {k n n' : ℕ} (hn : n < 256 ^ k) (hn' : n' < 256 ^ k)
    (h : leBytes k n = leBytes k n') : n = n' := by
  have hnat : Payloads.beNat (beBytes k n) = Payloads.beNat (beBytes k n') := by
    rw [beBytes, h, beBytes]
  rwa [beNat_beBytes, beNat_beBytes, Nat.mod_eq_of_lt hn, Nat.mod_eq_of_lt hn'] at hnat

theorem readable_leBytes (k : ℕ) : Readable (· < 256 ^ k) (leBytes k) :=
  readable_of_length (length_leBytes k) fun _ _ => leBytes_inj

theorem readable_pxBytes : Readable (fun px : ℤ => -2 ^ 63 ≤ px ∧ px < 2 ^ 63) pxBytes := by
  refine readable_of_length (fun px => length_leBytes 8 _) fun px px' hpx hpx' h => ?_
  have hnat := leBytes_inj (by omega) (by omega) h
  omega

/-- The record of an order. -/
def orderBytes (e : OrderId × ℕ) : List UInt8 := leBytes 8 e.1.toNat ++ leBytes 4 e.2

theorem readable_orderBytes : Readable (fun e : OrderId × ℕ => e.2 < 2 ^ 32) orderBytes := by
  refine readable_of_length (n := 12) (fun e => ?_) fun e e' he he' h => ?_
  · rw [orderBytes, List.length_append, length_leBytes, length_leBytes]
  · obtain ⟨hid, hqty⟩ := List.append_inj h (by rw [length_leBytes, length_leBytes])
    exact Prod.ext (UInt64.toNat_inj.mp (leBytes_inj e.1.toNat_lt e'.1.toNat_lt hid))
      (leBytes_inj he he' hqty)

/-! Levels. -/

/-- The numbers of the level fit their fields. -/
structure Recordable (e : ℤ × Queue) : Prop where
  px : -2 ^ 63 ≤ e.1 ∧ e.1 < 2 ^ 63
  count : e.2.length < 2 ^ 32
  qty : ∀ o ∈ e.2, o.2 < 2 ^ 32

def levelBytes (e : ℤ × Queue) : List UInt8 := hashLevel e.1 e.2.length e.2

theorem readable_levelBytes : Readable Recordable levelBytes := by
  have hcode := readable_pxBytes.pair ((readable_leBytes 4).counted readable_orderBytes)
  intro e e' xs ys he he' heq
  rw [levelBytes, hashLevel, levelBytes, hashLevel, List.append_assoc (pxBytes e.1),
    List.append_assoc (pxBytes e'.1)] at heq
  exact hcode e e' xs ys ⟨he.px, he.count, he.qty⟩ ⟨he'.px, he'.count, he'.qty⟩ heq

theorem levelBytes_ne_nil (e : ℤ × Queue) : levelBytes e ≠ [] := by
  intro h
  have hlen := congrArg List.length h
  simp only [levelBytes, hashLevel, List.length_append, pxBytes, length_leBytes,
    List.length_nil] at hlen
  omega

theorem recordable_of_mem {m : Market} (hm : m.WF) {s : Side} {e : ℤ × Queue}
    (he : e ∈ m.levels s) : Recordable e := by
  obtain ⟨hq, hne⟩ := Market.queue_of_mem_levels he
  have htotal := hm.total_lt s e.1
  have hpx := @Market.WF.px_nonneg m hm s e.1 (by rw [hq]; exact hne)
  rw [hq] at htotal
  refine ⟨by omega, ?_, fun o ho => lt_of_le_of_lt (le_total_of_mem ho) htotal⟩
  exact lt_of_le_of_lt (length_le_total fun o ho => hm.qty_pos s e.1 o (hq ▸ ho)) htotal

/-! Books. -/

/-- The levels of one side of a snapshot, best first. -/
def levelsOf (snap : Snapshot) (s : Side) : List (ℤ × Queue) :=
  (snap.filter fun e => decide (e.1 = s)).map Prod.snd

/-- The levels of a snapshot by ascending price, bids before asks. -/
def ascending (snap : Snapshot) : List (ℤ × Queue) :=
  (levelsOf snap .bid).reverse ++ levelsOf snap .ask

/-- The number of bid levels of a snapshot. -/
def bidLevels (snap : Snapshot) : ℕ := (levelsOf snap .bid).length

theorem levelsOf_snapshot (m : Market) (s : Side) : levelsOf m.snapshot s = m.levels s := by
  have hside : ∀ (s' : Side) (l : List (ℤ × Queue)),
      ((l.map fun e => (s', e.1, e.2)).filter fun e => decide (e.1 = s)).map Prod.snd =
        if s' = s then l else [] := by
    intro s' l
    by_cases hs : s' = s <;> simp [hs, List.filter_map, Function.comp_def]
  rw [levelsOf, Market.snapshot, List.filter_append, List.map_append, hside, hside]
  cases s
  · exact List.append_nil _
  · exact List.nil_append _

theorem ascending_snapshot (m : Market) :
    ascending m.snapshot = (m.levels .bid).reverse ++ m.levels .ask := by
  rw [ascending, levelsOf_snapshot, levelsOf_snapshot]

theorem bidLevels_snapshot (m : Market) : bidLevels m.snapshot = (m.levels .bid).length := by
  rw [bidLevels, levelsOf_snapshot]

theorem stateBytes_eq_iff {m m' : Market} (hm : m.WF) (hm' : m'.WF) :
    m.stateBytes = m'.stateBytes ↔ ascending m.snapshot = ascending m'.snapshot := by
  have hrec : ∀ {m : Market}, m.WF → ∀ e ∈ (m.levels .bid).reverse ++ m.levels .ask,
      Recordable e := by
    intro m hm e he
    rcases List.mem_append.mp he with he | he
    · exact recordable_of_mem hm (List.mem_reverse.mp he)
    · exact recordable_of_mem hm he
  rw [ascending_snapshot, ascending_snapshot]
  constructor
  · exact readable_levelBytes.flatMap_inj (fun e _ => levelBytes_ne_nil e) (hrec hm) (hrec hm')
  · intro h
    rw [Market.stateBytes, h, Market.stateBytes]

/-- Levels in ascending order and the number of bid levels make the snapshot. -/
theorem snapshot_of_ascending {m m' : Market}
    (h : ascending m.snapshot = ascending m'.snapshot)
    (hbids : bidLevels m.snapshot = bidLevels m'.snapshot) : m.snapshot = m'.snapshot := by
  rw [ascending_snapshot, ascending_snapshot] at h
  rw [bidLevels_snapshot, bidLevels_snapshot] at hbids
  obtain ⟨hbid, hask⟩ :=
    List.append_inj h (by rw [List.length_reverse, List.length_reverse, hbids])
  rw [Market.snapshot, List.reverse_injective hbid, hask, Market.snapshot]

/-- The stream of the state hash determines the levels of a reached book in ascending order, and
with the number of its bid levels the snapshot. -/
theorem state_stream_determines_book {b b' : LocateBook} (hb : Reached b) (hb' : Reached b') :
    ∃ bytes bytes' snap snap', b.stateBytes = .ok bytes ∧ b'.stateBytes = .ok bytes' ∧
      b.snapshot = .ok snap ∧ b'.snapshot = .ok snap' ∧
      (bytes = bytes' ↔ ascending snap = ascending snap') ∧
      (bytes = bytes' → bidLevels snap = bidLevels snap' → snap = snap') := by
  obtain ⟨m, hm⟩ := hb.refines
  obtain ⟨m', hm'⟩ := hb'.refines
  have hiff := stateBytes_eq_iff hm.wf hm'.wf
  exact ⟨_, _, _, _, hm.stateBytes_eq, hm'.stateBytes_eq, hm.snapshot_eq, hm'.snapshot_eq, hiff,
    fun h hbids => snapshot_of_ascending (hiff.mp h) hbids⟩

theorem state_stream_determines_book_mixed : ∃ replies b bytes bytes' snap snap',
    run LocateBook.apply (.ref .new) EventReplays.mixedOps = .ok (replies, b) ∧
      b.stateBytes = .ok bytes ∧ (LocateBook.ref .new).stateBytes = .ok bytes' ∧
      b.snapshot = .ok snap ∧ (LocateBook.ref .new).snapshot = .ok snap' ∧
      (bytes = bytes' ↔ ascending snap = ascending snap') ∧
      (bytes = bytes' → bidLevels snap = bidLevels snap' → snap = snap') := by
  obtain ⟨⟨replies, b⟩, hrun⟩ := ok_of_not_panics
    (x := run LocateBook.apply (.ref .new) EventReplays.mixedOps) (by decide +kernel)
  obtain ⟨bytes, bytes', snap, snap', h⟩ := state_stream_determines_book
    ⟨_, _, _, .ref, hrun⟩ (reached_of_fresh .ref)
  exact ⟨replies, b, bytes, bytes', snap, snap', hrun, h⟩

end Lobcore.StateStreams
