import Mathlib.Data.List.Nodup
import Mathlib.Order.Lattice
import Mathlib.Tactic.Common

/-!
Finite maps as strictly ascending association lists. The order is part of the
value, so two maps with the same lookups are equal, the extreme keys are the two
ends of the list, and walking the map is walking the list.
-/
namespace Lobcore.SortedMaps

variable {κ ν μ : Type} [LinearOrder κ]

/-- Keys strictly ascending; in particular no key occurs twice. -/
def Ascending (es : List (κ × ν)) : Prop := es.Pairwise fun a b => a.1 < b.1

/-- A list strictly ordered by any asymmetric relation is determined by its members. -/
theorem eq_of_pairwise_of_mem_iff {α : Type} {r : α → α → Prop}
    (hasymm : ∀ a b, r a b → ¬ r b a) {xs ys : List α}
    (hx : xs.Pairwise r) (hy : ys.Pairwise r) (h : ∀ a, a ∈ xs ↔ a ∈ ys) : xs = ys := by
  have hne : ∀ a b, r a b → a ≠ b := fun a b hab heq => hasymm a b hab (heq ▸ hab)
  have hperm : xs.Perm ys :=
    (List.perm_ext_iff_of_nodup (hx.imp fun {a b} => hne a b) (hy.imp fun {a b} => hne a b)).mpr h
  exact hperm.eq_of_pairwise (fun a b _ _ hab hba => absurd hba (hasymm a b hab)) hx hy

@[ext]
structure SortedMap (κ ν : Type) [LinearOrder κ] where
  entries : List (κ × ν)
  ascending : Ascending entries

def lookup (k : κ) : List (κ × ν) → Option ν
  | [] => none
  | (a, v) :: es => if a = k then some v else lookup k es

def insertEntry (k : κ) (v : ν) : List (κ × ν) → List (κ × ν)
  | [] => [(k, v)]
  | (a, w) :: es =>
    if k < a then (k, v) :: (a, w) :: es
    else if a = k then (k, v) :: es
    else (a, w) :: insertEntry k v es

theorem lookup_eq_some_iff {k : κ} {v : ν} {es : List (κ × ν)} (hs : Ascending es) :
    lookup k es = some v ↔ (k, v) ∈ es := by
  induction es with
  | nil => simp [lookup]
  | cons e es ih =>
    obtain ⟨a, w⟩ := e
    obtain ⟨hlt, hs⟩ := List.pairwise_cons.mp hs
    by_cases hak : a = k
    · subst hak
      simp only [lookup, if_pos, Option.some.injEq, List.mem_cons, Prod.mk.injEq, true_and]
      constructor
      · exact fun h => Or.inl h.symm
      · rintro (rfl | hmem)
        · rfl
        · exact absurd (hlt _ hmem) (lt_irrefl a)
    · simp only [lookup, if_neg hak, ih hs, List.mem_cons, Prod.mk.injEq]
      constructor
      · exact Or.inr
      · rintro (⟨rfl, -⟩ | hmem)
        · exact absurd rfl hak
        · exact hmem

theorem mem_insertEntry_key {k : κ} {v : ν} {es : List (κ × ν)} {e : κ × ν}
    (h : e ∈ insertEntry k v es) : e.1 = k ∨ e ∈ es := by
  induction es with
  | nil => simp_all [insertEntry]
  | cons d es ih =>
    obtain ⟨a, w⟩ := d
    simp only [insertEntry] at h
    split at h
    · rcases List.mem_cons.mp h with rfl | h
      · exact Or.inl rfl
      · exact Or.inr h
    · split at h
      · rcases List.mem_cons.mp h with rfl | h
        · exact Or.inl rfl
        · exact Or.inr (List.mem_cons_of_mem _ h)
      · rcases List.mem_cons.mp h with rfl | h
        · exact Or.inr (List.mem_cons_self ..)
        · exact (ih h).imp_right (List.mem_cons_of_mem _)

theorem ascending_insertEntry (k : κ) (v : ν) {es : List (κ × ν)} (hs : Ascending es) :
    Ascending (insertEntry k v es) := by
  induction es with
  | nil => exact List.pairwise_singleton _ _
  | cons d es ih =>
    obtain ⟨a, w⟩ := d
    obtain ⟨hlt, hes⟩ := List.pairwise_cons.mp hs
    simp only [insertEntry]
    split
    · rename_i hka
      refine List.pairwise_cons.mpr ⟨?_, hs⟩
      intro e he
      rcases List.mem_cons.mp he with rfl | he
      · exact hka
      · exact hka.trans (hlt e he)
    · split
      · rename_i hak
        subst hak
        exact List.pairwise_cons.mpr ⟨hlt, hes⟩
      · rename_i hka hak
        refine List.pairwise_cons.mpr ⟨?_, ih hes⟩
        intro e he
        rcases mem_insertEntry_key he with hk | he
        · exact hk ▸ lt_of_le_of_ne (not_lt.mp hka) hak
        · exact hlt e he

theorem lookup_insertEntry (k : κ) (v : ν) (es : List (κ × ν)) (j : κ) :
    lookup j (insertEntry k v es) = if j = k then some v else lookup j es := by
  induction es with
  | nil => simp [insertEntry, lookup, eq_comm]
  | cons d es ih =>
    obtain ⟨a, w⟩ := d
    simp only [insertEntry]
    split
    · simp [lookup, eq_comm]
    · split
      · rename_i hak
        subst hak
        by_cases hj : j = a
        · simp [lookup, hj]
        · simp [lookup, hj, Ne.symm hj]
      · rename_i hak
        by_cases hj : j = k
        · subst hj
          simp [lookup, hak, ih]
        · simp [lookup, ih, hj]

theorem lookup_filter_ne (k : κ) (es : List (κ × ν)) (j : κ) :
    lookup j (es.filter fun e => e.1 ≠ k) = if j = k then none else lookup j es := by
  induction es with
  | nil => simp [lookup]
  | cons d es ih =>
    obtain ⟨a, w⟩ := d
    by_cases hak : a = k
    · subst hak
      simp only [ne_eq, not_true_eq_false, decide_false, Bool.false_eq_true,
        not_false_eq_true, List.filter_cons_of_neg, ih, lookup]
      by_cases hj : j = a
      · simp [hj]
      · simp [hj, Ne.symm hj]
    · simp only [ne_eq, hak, not_false_eq_true, decide_true, List.filter_cons_of_pos, lookup, ih]
      by_cases hj : j = k
      · simp [hj, hak]
      · simp [hj]

namespace SortedMap

def empty : SortedMap κ ν := ⟨[], List.Pairwise.nil⟩

def get? (m : SortedMap κ ν) (k : κ) : Option ν := lookup k m.entries

def contains (m : SortedMap κ ν) (k : κ) : Bool := (m.get? k).isSome

def insert (m : SortedMap κ ν) (k : κ) (v : ν) : SortedMap κ ν :=
  ⟨insertEntry k v m.entries, ascending_insertEntry k v m.ascending⟩

def erase (m : SortedMap κ ν) (k : κ) : SortedMap κ ν :=
  ⟨m.entries.filter fun e => e.1 ≠ k, m.ascending.filter _⟩

def length (m : SortedMap κ ν) : ℕ := m.entries.length

def keys (m : SortedMap κ ν) : List κ := m.entries.map Prod.fst

instance [DecidableEq ν] : DecidableEq (SortedMap κ ν) := fun m n =>
  decidable_of_iff (m.entries = n.entries) ⟨fun h => by cases m; cases n; simp_all,
    congrArg entries⟩

@[simp] theorem get?_empty (k : κ) : (empty : SortedMap κ ν).get? k = none := rfl

theorem get?_insert (m : SortedMap κ ν) (k : κ) (v : ν) (j : κ) :
    (m.insert k v).get? j = if j = k then some v else m.get? j :=
  lookup_insertEntry k v m.entries j

@[simp] theorem get?_insert_self (m : SortedMap κ ν) (k : κ) (v : ν) :
    (m.insert k v).get? k = some v := by rw [get?_insert, if_pos rfl]

theorem get?_insert_of_ne (m : SortedMap κ ν) {k j : κ} (v : ν) (h : j ≠ k) :
    (m.insert k v).get? j = m.get? j := by rw [get?_insert, if_neg h]

theorem get?_erase (m : SortedMap κ ν) (k j : κ) :
    (m.erase k).get? j = if j = k then none else m.get? j :=
  lookup_filter_ne k m.entries j

@[simp] theorem get?_erase_self (m : SortedMap κ ν) (k : κ) : (m.erase k).get? k = none := by
  rw [get?_erase, if_pos rfl]

theorem get?_erase_of_ne (m : SortedMap κ ν) {k j : κ} (h : j ≠ k) :
    (m.erase k).get? j = m.get? j := by rw [get?_erase, if_neg h]

theorem get?_eq_some_iff {m : SortedMap κ ν} {k : κ} {v : ν} :
    m.get? k = some v ↔ (k, v) ∈ m.entries := lookup_eq_some_iff m.ascending

theorem contains_iff {m : SortedMap κ ν} {k : κ} :
    m.contains k = true ↔ ∃ v, m.get? k = some v := Option.isSome_iff_exists

theorem keys_pairwise (m : SortedMap κ ν) : m.keys.Pairwise (· < ·) :=
  List.pairwise_map.mpr m.ascending

theorem keys_nodup (m : SortedMap κ ν) : m.keys.Nodup :=
  m.keys_pairwise.imp fun h => ne_of_lt h

theorem entries_nodup (m : SortedMap κ ν) : m.entries.Nodup :=
  List.Nodup.of_map Prod.fst m.keys_nodup

theorem mem_keys {m : SortedMap κ ν} {k : κ} : k ∈ m.keys ↔ ∃ v, m.get? k = some v := by
  simp only [keys, List.mem_map, Prod.exists, exists_and_right, exists_eq_right,
    get?_eq_some_iff]

/-- Maps that store something at the same keys list the same keys. -/
theorem keys_eq {m : SortedMap κ ν} {n : SortedMap κ μ}
    (h : ∀ k, (∃ v, m.get? k = some v) ↔ ∃ w, n.get? k = some w) : m.keys = n.keys :=
  eq_of_pairwise_of_mem_iff (fun _ _ hab hba => lt_asymm hab hba) m.keys_pairwise n.keys_pairwise
    fun k => by rw [mem_keys, mem_keys, h k]

/-- The same keys with other values. -/
def mapValues (m : SortedMap κ ν) (f : ν → μ) : SortedMap κ μ :=
  ⟨m.entries.map fun e => (e.1, f e.2), by
    unfold Ascending
    exact List.pairwise_map.mpr m.ascending⟩

theorem get?_mapValues (m : SortedMap κ ν) (f : ν → μ) (k : κ) :
    (m.mapValues f).get? k = (m.get? k).map f := by
  have hlookup : ∀ es : List (κ × ν),
      lookup k (es.map fun e => (e.1, f e.2)) = (lookup k es).map f := by
    intro es
    induction es with
    | nil => rfl
    | cons e es ih =>
      simp only [List.map_cons, lookup, ih]
      split <;> rfl
  exact hlookup m.entries

theorem not_mem_entries_erase (m : SortedMap κ ν) (k : κ) (v : ν) : (k, v) ∉ (m.erase k).entries :=
  fun h => of_decide_eq_true (List.mem_filter.mp h).2 rfl

/-- What is inserted, beside the entries of the other keys. -/
theorem entries_insert_perm (m : SortedMap κ ν) (k : κ) (v : ν) :
    (m.insert k v).entries.Perm ((k, v) :: (m.erase k).entries) := by
  refine (List.perm_ext_iff_of_nodup (entries_nodup _)
    ((entries_nodup _).cons (not_mem_entries_erase m k v))).mpr fun e => ?_
  obtain ⟨j, w⟩ := e
  rw [List.mem_cons, ← get?_eq_some_iff, ← get?_eq_some_iff, get?_insert, get?_erase, Prod.mk.injEq]
  by_cases hj : j = k
  · simp [hj, eq_comm]
  · simp [hj]

/-- What is stored under a key, beside the entries of the other keys. -/
theorem entries_perm_of_mem {m : SortedMap κ ν} {k : κ} {v : ν} (h : m.get? k = some v) :
    m.entries.Perm ((k, v) :: (m.erase k).entries) := by
  refine (List.perm_ext_iff_of_nodup (entries_nodup _)
    ((entries_nodup _).cons (not_mem_entries_erase m k v))).mpr fun e => ?_
  obtain ⟨j, w⟩ := e
  rw [List.mem_cons, ← get?_eq_some_iff, ← get?_eq_some_iff, get?_erase, Prod.mk.injEq]
  by_cases hj : j = k
  · simp [hj, h, eq_comm]
  · simp [hj]

theorem erase_of_fresh {m : SortedMap κ ν} {k : κ} (h : m.get? k = none) : m.erase k = m := by
  refine SortedMap.ext (List.filter_eq_self.mpr fun e he => decide_eq_true fun hk => ?_)
  rw [get?_eq_some_iff.mpr (show (k, e.2) ∈ m.entries from hk ▸ he)] at h
  cases h

theorem length_insert_of_fresh {m : SortedMap κ ν} {k : κ} (v : ν) (h : m.get? k = none) :
    (m.insert k v).length = m.length + 1 := by
  have hlen := (entries_insert_perm m k v).length_eq
  rwa [erase_of_fresh h, List.length_cons] at hlen

theorem length_erase_of_mem {m : SortedMap κ ν} {k : κ} {v : ν} (h : m.get? k = some v) :
    (m.erase k).length + 1 = m.length := by
  have hlen := (entries_perm_of_mem h).length_eq
  rw [List.length_cons] at hlen
  exact hlen.symm

end SortedMap

end Lobcore.SortedMaps
