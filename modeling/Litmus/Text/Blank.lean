/-!
# Blanks, lines and words

A text is handled as the list of its characters. This file says which characters are blank and
which of these end a line, and cuts a text into segments, lines and words.

Both classes are those of Unicode. They are wider than the classes of `Char`, which know the ASCII
blanks only: a no-break space divides words here, and a line separator ends a line.
-/

namespace Litmus.Text

/-! ### The two classes -/

/-- The characters that end a line: LF, VT, FF, CR, the separators U+001C to U+001E, NEL and the
line and paragraph separators. -/
def isLineEnd (c : Char) : Bool :=
  let n := c.toNat
  (0x0A ≤ n && n ≤ 0x0D) || (0x1C ≤ n && n ≤ 0x1E) || n == 0x85 || n == 0x2028 || n == 0x2029

/-- The characters that divide words: every line end, the tab, U+001F and the spaces. -/
def isBlank (c : Char) : Bool :=
  let n := c.toNat
  isLineEnd c || n == 0x09 || n == 0x1F || n == 0x20 || n == 0xA0 || n == 0x1680 ||
    (0x2000 ≤ n && n ≤ 0x200A) || n == 0x202F || n == 0x205F || n == 0x3000

/-! ### Cutting a text -/

/-- Splits a list at every element that satisfies `p`, dropping these elements. There is one more
segment than there are cuts, so the result is never empty. -/
def segments {α : Type} (p : α → Bool) : List α → List (List α)
  | [] => [[]]
  | a :: l =>
    if p a then [] :: segments p l
    else match segments p l with
      | [] => [[a]]
      | s :: ss => (a :: s) :: ss

/-- Even the empty list has a segment, which is empty. -/
theorem segments_ne_nil {α : Type} (p : α → Bool) (l : List α) : segments p l ≠ [] := by
  cases l with
  | nil => simp [segments]
  | cons a l =>
    by_cases h : p a
    · simp [segments, h]
    · simp only [segments, h]
      cases segments p l <;> simp

/-- No segment holds an element at which the list was cut. -/
theorem not_of_mem_segments {α : Type} {p : α → Bool} {l s : List α} (hs : s ∈ segments p l) {a : α}
    (ha : a ∈ s) : p a = false := by
  induction l generalizing s with
  | nil => simp_all [segments]
  | cons b l ih =>
    by_cases h : p b
    · rw [segments, if_pos h] at hs
      rcases List.mem_cons.1 hs with rfl | hs
      · simp at ha
      · exact ih hs ha
    · cases hl : segments p l with
      | nil => exact absurd hl (segments_ne_nil p l)
      | cons t ts =>
        rw [segments, if_neg h, hl] at hs
        rcases List.mem_cons.1 hs with rfl | hs
        · rcases List.mem_cons.1 ha with rfl | ha
          · simpa using h
          · exact ih (hl ▸ List.mem_cons_self) ha
        · exact ih (hl ▸ List.mem_cons_of_mem _ hs) ha

/-- The lines of a text, without their ends. CR and LF together are one end, and a text that stops
right after an end has no further line. -/
def lines : List Char → List (List Char)
  | [] => []
  | [c] => if isLineEnd c then [[]] else [[c]]
  | c :: d :: rest =>
    if c = '\r' ∧ d = '\n' then [] :: lines rest
    else if isLineEnd c then [] :: lines (d :: rest)
    else match lines (d :: rest) with
      | [] => [[c]]
      | l :: ls => (c :: l) :: ls

/-- The words of a text: its maximal runs of characters that are not blank. -/
def words (cs : List Char) : List (List Char) :=
  (segments isBlank cs).filter (!·.isEmpty)

/-- A word is not empty and holds no blank. -/
theorem of_mem_words {cs w : List Char} (h : w ∈ words cs) :
    w ≠ [] ∧ ∀ c ∈ w, isBlank c = false := by
  obtain ⟨hw, hne⟩ := List.mem_filter.1 h
  exact ⟨by simpa using hne, fun c hc ↦ not_of_mem_segments hw hc⟩

/-- A list without the elements at either end that satisfy `p`. -/
def trimBy {α : Type} (p : α → Bool) (l : List α) : List α :=
  ((l.dropWhile p).reverse.dropWhile p).reverse

/-- A text without the blanks at either end. -/
def trim (cs : List Char) : List Char := trimBy isBlank cs

end Litmus.Text
