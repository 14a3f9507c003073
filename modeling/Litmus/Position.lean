import Litmus.Numeral

/-!
# Positions of instructions

An instruction of a program is addressed by its thread and its place in the thread. Positions are
plain pairs of integers, ordered by their threads and then by their places. A negative number
counts from the end where a position is looked up, but the position itself stays as it is:
`⟨-1, 0⟩` and `⟨1, 0⟩` are two positions even if both lead to the same instruction.
-/

namespace Litmus

/-- The address of an instruction: the number of its thread and its place in that thread. -/
structure Position where
  /-- The number of the thread. -/
  thread : Int
  /-- The place in the thread. -/
  index : Int
  deriving DecidableEq

namespace Position

/-- Positions are ordered by their threads, and in one thread by their places. -/
instance : LT Position :=
  ⟨fun q r ↦ q.thread < r.thread ∨ q.thread = r.thread ∧ q.index < r.index⟩

/-- Positions are ordered by thread, and within a thread by index. -/
theorem lt_iff {q r : Position} :
    q < r ↔ q.thread < r.thread ∨ q.thread = r.thread ∧ q.index < r.index :=
  Iff.rfl

instance (q r : Position) : Decidable (q < r) :=
  decidable_of_iff _ lt_iff.symm

theorem lt_asymm {q r : Position} (h : q < r) : ¬r < q := by
  rw [lt_iff] at *
  omega

theorem lt_irrefl (q : Position) : ¬q < q := fun h ↦ lt_asymm h h

theorem lt_trans {a b c : Position} (h : a < b) (h' : b < c) : a < c := by
  rw [lt_iff] at *
  omega

/-- Of two positions one comes first. -/
theorem lt_of_not_lt_of_ne {q r : Position} (h : ¬q < r) (hne : r ≠ q) : r < q := by
  obtain ⟨t, i⟩ := q
  obtain ⟨u, j⟩ := r
  simp only [lt_iff, ne_eq, Position.mk.injEq] at *
  omega

instance : Std.Asymm fun q r : Position ↦ q < r := ⟨fun _ _ ↦ lt_asymm⟩

end Position

/-- The short name of a position, such as `T0.1`. -/
def Position.label (q : Position) : String :=
  "T" ++ Numeral.write q.thread ++ "." ++ Numeral.write q.index

/-! ### Lists -/

/-- **A strictly increasing list is determined by its members.** -/
theorem eq_of_increasing {α : Type} [LT α] [Std.Asymm fun a b : α ↦ a < b] {l l' : List α}
    (h : l.Pairwise (· < ·)) (h' : l'.Pairwise (· < ·)) (hmem : ∀ a, a ∈ l ↔ a ∈ l') :
    l = l' := by
  have hirrefl (a : α) : ¬a < a := fun hlt ↦ Std.Asymm.asymm a a hlt hlt
  induction l generalizing l' with
  | nil => exact (List.eq_nil_iff_forall_not_mem.2 fun a ha ↦ nomatch (hmem a).2 ha).symm
  | cons a l ih =>
    obtain ⟨b, l', rfl⟩ := List.exists_cons_of_ne_nil
      (List.ne_nil_of_mem ((hmem a).1 List.mem_cons_self))
    obtain ⟨ha, hl⟩ := List.pairwise_cons.1 h
    obtain ⟨hb, hl'⟩ := List.pairwise_cons.1 h'
    -- the heads are the least members of both lists
    obtain rfl : a = b := by
      rcases List.mem_cons.1 ((hmem a).1 List.mem_cons_self) with hab | hab
      · exact hab
      rcases List.mem_cons.1 ((hmem b).2 List.mem_cons_self) with hba | hba
      · exact hba.symm
      · exact absurd (ha b hba) (Std.Asymm.asymm b a (hb a hab))
    refine congrArg (a :: ·) (ih hl hl' fun x ↦ ?_)
    constructor
    · intro hx
      rcases List.mem_cons.1 ((hmem x).1 (List.mem_cons_of_mem a hx)) with rfl | hx'
      · exact absurd (ha x hx) (hirrefl x)
      · exact hx'
    · intro hx
      rcases List.mem_cons.1 ((hmem x).2 (List.mem_cons_of_mem a hx)) with rfl | hx'
      · exact absurd (hb x hx) (hirrefl x)
      · exact hx'

/-- The element of a list at a place that counts from the end if it is negative. -/
def nth? {α : Type} (l : List α) (i : Int) : Option α :=
  if 0 ≤ i then l[i.toNat]? else if 0 ≤ l.length + i then l[(l.length + i).toNat]? else none

@[simp] theorem nth?_natCast {α : Type} (l : List α) (n : Nat) : nth? l n = l[n]? := by
  simp [nth?]

/-- The integers from `low` to below `high`, in increasing order. -/
def intRange (low high : Int) : List Int :=
  (List.range (high - low).toNat).map fun k : Nat ↦ low + k

/-- The upper bound is excluded. -/
@[simp] theorem mem_intRange {low high i : Int} : i ∈ intRange low high ↔ low ≤ i ∧ i < high := by
  simp only [intRange, List.mem_map, List.mem_range]
  constructor
  · rintro ⟨k, hk, rfl⟩
    omega
  · rintro ⟨h₁, h₂⟩
    exact ⟨(i - low).toNat, by omega, by omega⟩

/-- A range begins with its lower bound and goes on behind it. -/
theorem intRange_succ (low : Int) (n : Nat) :
    intRange low (low + (n + 1 : Nat)) = low :: intRange (low + 1) (low + 1 + n) := by
  have hn : (low + (n + 1 : Nat) - low).toNat = n + 1 := by omega
  have hn' : (low + 1 + n - (low + 1)).toNat = n := by omega
  rw [intRange, intRange, hn, hn', List.range_succ_eq_map, List.map_cons, List.map_map,
    List.cons.injEq]
  refine ⟨Int.add_zero low, List.map_congr_left fun k _ ↦ ?_⟩
  rw [Function.comp_apply]
  omega

end Litmus
