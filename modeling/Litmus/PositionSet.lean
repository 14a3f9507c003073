import Litmus.Position

/-!
# Sets of positions

A set of positions is listed in increasing order, without repetitions. There is only one such list
with given members (`eq_of_increasing`), so two sets with the same members are equal, and a set from
which a position is discarded is the one that it was before that position was added
(`PositionSet.discard_add`).
-/

namespace Litmus

/-- A finite set of positions. -/
structure PositionSet where
  /-- The members. -/
  toList : List Position
  /-- They are listed in increasing order. -/
  increasing : toList.Pairwise (· < ·)
  deriving DecidableEq

namespace PositionSet

variable {s t : PositionSet} {q r : Position}

/-- The set without members. -/
def empty : PositionSet := ⟨[], .nil⟩

instance : Membership Position PositionSet := ⟨fun s q ↦ q ∈ s.toList⟩

theorem mem_def : q ∈ s ↔ q ∈ s.toList := Iff.rfl

instance : Decidable (q ∈ s) := inferInstanceAs (Decidable (q ∈ s.toList))

/-- The number of members. -/
def size (s : PositionSet) : Nat := s.toList.length

/-- Whether there are no members. -/
def isEmpty (s : PositionSet) : Bool := s.toList.isEmpty

theorem not_mem_empty : q ∉ empty := List.not_mem_nil

/-- **Sets with the same members are equal.** -/
theorem ext (h : ∀ q, q ∈ s ↔ q ∈ t) : s = t := by
  obtain ⟨l, hl⟩ := s
  obtain ⟨l', hl'⟩ := t
  obtain rfl : l = l' := eq_of_increasing hl hl' h
  rfl

theorem isEmpty_iff : s.isEmpty = true ↔ ∀ q, q ∉ s := by
  rw [isEmpty, List.isEmpty_iff, List.eq_nil_iff_forall_not_mem]
  rfl

/-! ### Adding and discarding -/

/-- Puts a position in its place of an increasing list, unless it is there. -/
def insert (q : Position) : List Position → List Position
  | [] => [q]
  | r :: l => if q < r then q :: r :: l else if r = q then r :: l else r :: insert q l

theorem mem_insert {l : List Position} : r ∈ insert q l ↔ r = q ∨ r ∈ l := by
  induction l with
  | nil => rw [insert, List.mem_singleton, or_iff_left List.not_mem_nil]
  | cons a l ih =>
    rw [insert]
    split
    · rw [List.mem_cons]
    · split
      · rename_i haq
        rw [List.mem_cons, haq]
        exact ⟨Or.inr, fun h ↦ h.elim Or.inl id⟩
      · rw [List.mem_cons, ih, List.mem_cons, or_left_comm]

/-- What is inserted goes to its place, so the list stays in increasing order. -/
theorem insert_increasing {l : List Position} (h : l.Pairwise (· < ·)) :
    (insert q l).Pairwise (· < ·) := by
  induction l with
  | nil => exact List.pairwise_singleton _ _
  | cons a l ih =>
    obtain ⟨ha, hl⟩ := List.pairwise_cons.1 h
    rw [insert]
    split
    · -- the place is here: `q` is below the head, and so below everything
      rename_i hqa
      refine List.pairwise_cons.2 ⟨fun b hb ↦ ?_, h⟩
      rcases List.mem_cons.1 hb with rfl | hb
      · exact hqa
      · exact Position.lt_trans hqa (ha b hb)
    · rename_i hqa
      split
      · exact h
      · rename_i hne
        refine List.pairwise_cons.2 ⟨fun b hb ↦ ?_, ih hl⟩
        rcases mem_insert.1 hb with rfl | hb
        · exact Position.lt_of_not_lt_of_ne hqa hne
        · exact ha b hb

/-- The set with one more member. -/
def add (s : PositionSet) (q : Position) : PositionSet :=
  ⟨insert q s.toList, insert_increasing s.increasing⟩

/-- The set without a member. -/
def discard (s : PositionSet) (q : Position) : PositionSet :=
  ⟨s.toList.filter (· ≠ q), s.increasing.filter _⟩

/-- Adding a position adds it and nothing else. -/
@[simp] theorem mem_add : r ∈ s.add q ↔ r = q ∨ r ∈ s := mem_insert

/-- Discarding a position removes it and nothing else. It need not be there. -/
@[simp] theorem mem_discard : r ∈ s.discard q ↔ r ∈ s ∧ r ≠ q := by
  rw [mem_def, discard, List.mem_filter, decide_eq_true_iff]
  rfl

/-- **Discarding a position undoes adding it**, unless it had been there. -/
theorem discard_add (h : q ∉ s) : (s.add q).discard q = s := by
  refine ext fun r ↦ ?_
  rw [mem_discard, mem_add]
  constructor
  · rintro ⟨heq | hr, hne⟩
    · exact absurd heq hne
    · exact hr
  · intro hr
    exact ⟨Or.inr hr, fun heq ↦ h (heq ▸ hr)⟩

end PositionSet

end Litmus
