import Litmus.Proofs.FirstWins
import Mathlib.Data.List.Sort
import Mathlib.Data.String.Basic

/-!
# Keys in order

The keys of a set are listed in the order of their code points, and so are the keys that another set
lacks. What such a list is follows from its members alone: there is only one list in strictly
increasing order with given members (`eq_of_increasing`).
-/

namespace Litmus

namespace Text

variable {l : List String}

/-- Inserting a text is what the library calls inserting into an ordered list. -/
theorem insert_eq_orderedInsert (s : String) (l : List String) :
    insert s l = l.orderedInsert (· ≤ ·) s := by
  induction l with
  | nil => rfl
  | cons t l ih =>
    rw [insert, List.orderedInsert_cons, ih]

/-- So sorting is insertion sort. -/
theorem sort_eq_insertionSort (l : List String) : sort l = l.insertionSort (· ≤ ·) := by
  induction l with
  | nil => rfl
  | cons s l ih =>
    rw [List.insertionSort_cons, ← ih, ← insert_eq_orderedInsert]
    rfl

/-- Sorting loses no text and adds none. -/
theorem sort_perm (l : List String) : (sort l).Perm l := by
  rw [sort_eq_insertionSort]
  exact List.perm_insertionSort _ l

/-- **Sorting puts texts without repetitions in strictly increasing order.** -/
theorem sort_increasing (h : l.Nodup) : (sort l).Pairwise (· < ·) := by
  have hsorted : (sort l).Pairwise (· ≤ ·) := by
    rw [sort_eq_insertionSort]
    exact List.pairwise_insertionSort _ l
  have hnodup : (sort l).Pairwise (· ≠ ·) := (sort_perm l).nodup_iff.2 h
  exact (hsorted.and hnodup).imp fun hlt ↦ lt_of_le_of_ne hlt.1 hlt.2

end Text

namespace OutcomeSet

variable {ω ω' : Type} {s : OutcomeSet ω} {t : OutcomeSet ω'} {l : List String} {k : String}

/-- **The texts are the keys of the set in the order of their code points.** -/
structure Lists (s : OutcomeSet ω) (l : List String) : Prop where
  /-- The texts strictly increase. -/
  increasing : l.Pairwise (· < ·)
  /-- The texts are the keys. -/
  mem_iff : ∀ k, k ∈ l ↔ k ∈ s.keys

/-- The sorted keys list the set. -/
theorem lists_sorted (h : s.keys.Nodup) : s.Lists s.sorted :=
  ⟨Text.sort_increasing h, fun _ ↦ Text.mem_sort⟩

/-- There is no other such list. -/
theorem Lists.eq_sorted (h : s.keys.Nodup) (hl : s.Lists l) : l = s.sorted :=
  eq_of_increasing hl.increasing (Text.sort_increasing h) fun k ↦
    (hl.mem_iff k).trans ((lists_sorted h).mem_iff k).symm

theorem length_sorted (s : OutcomeSet ω) : s.sorted.length = s.size := by
  rw [sorted, (Text.sort_perm _).length_eq, keys, List.length_map, size]

/-- What one set has beyond another are the keys that the other lacks. -/
theorem mem_beyond : k ∈ s.beyond t ↔ k ∈ s.keys ∧ k ∉ t.keys := by
  rw [beyond, Text.mem_sort, List.mem_filter, Bool.not_eq_true', ← Bool.not_eq_true, contains_iff]

theorem beyond_increasing (h : s.keys.Nodup) (t : OutcomeSet ω') :
    (s.beyond t).Pairwise (· < ·) :=
  Text.sort_increasing (h.filter _)

/-- The keys that another set has as well, in order. -/
theorem filter_sorted_contains (h : s.keys.Nodup) (ht : t.keys.Nodup)
    (hsub : ∀ k ∈ t.keys, k ∈ s.keys) : s.sorted.filter t.contains = t.sorted := by
  refine Lists.eq_sorted ht ⟨(Text.sort_increasing h).filter _, fun k ↦ ?_⟩
  rw [List.mem_filter, (lists_sorted h).mem_iff, contains_iff]
  exact ⟨And.right, fun hk ↦ ⟨hsub k hk, hk⟩⟩

/-- The keys that another set lacks, in order. -/
theorem filter_sorted_not_contains (h : s.keys.Nodup) :
    (s.sorted.filter fun k ↦ !t.contains k) = s.beyond t := by
  refine eq_of_increasing ((Text.sort_increasing h).filter _) (beyond_increasing h t)
    fun k ↦ ?_
  rw [List.mem_filter, (lists_sorted h).mem_iff, mem_beyond, Bool.not_eq_true', ← Bool.not_eq_true,
    contains_iff]

end OutcomeSet

end Litmus
