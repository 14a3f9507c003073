/-!
# Texts in order

Sorts texts by their code points. The lists are short, so insertion does.
-/

namespace Litmus.Text

/-- Puts a text in front of the first one that is not smaller. -/
def insert (s : String) : List String → List String
  | [] => [s]
  | t :: ts => if s ≤ t then s :: t :: ts else t :: insert s ts

/-- The texts in the order of their code points. -/
def sort (l : List String) : List String := l.foldr insert []

@[simp] theorem mem_insert {s t : String} {l : List String} : t ∈ insert s l ↔ t = s ∨ t ∈ l := by
  induction l with
  | nil => simp [insert]
  | cons u l ih => by_cases h : s ≤ u <;> simp [insert, h, ih, or_left_comm]

/-- Sorting keeps the texts. -/
@[simp] theorem mem_sort {t : String} {l : List String} : t ∈ sort l ↔ t ∈ l := by
  induction l with
  | nil => simp [sort]
  | cons u l ih =>
    rw [sort, List.foldr_cons, mem_insert, List.mem_cons]
    exact or_congr_right ih

end Litmus.Text
