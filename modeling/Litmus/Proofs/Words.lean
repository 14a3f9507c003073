import Litmus.Text.Blank
import Mathlib.Data.List.Basic

/-!
# Lines and words put together

A text that is put together from lines falls into these lines again, and a line that is put together
from words falls into these words. All that is needed is that no line holds a line end and that no
word is empty or holds a blank (`Text.lines_append_cons`, `Text.words_append_cons`).

Conversely nothing comes out of a text that was not in it, and the lines of a text hold no line ends
(`Text.not_isLineEnd_of_mem_lines`).
-/

namespace Litmus.Text

variable {α : Type} {p : α → Bool} {a : α} {l s : List α} {c : Char} {cs w rest : List Char}

/-! ### Segments and words -/

/-- Without a separator there is one segment. -/
theorem segments_of_forall (h : ∀ a ∈ l, p a = false) : segments p l = [l] := by
  induction l with
  | nil => rfl
  | cons a l ih =>
    obtain ⟨ha, hl⟩ := List.forall_mem_cons.1 h
    rw [segments, ha, ih hl]
    rfl

/-- The first segment ends at the first cut. -/
theorem segments_append_cons (h : ∀ a ∈ s, p a = false) (ha : p a = true) (l : List α) :
    segments p (s ++ a :: l) = s :: segments p l := by
  induction s with
  | nil => rw [List.nil_append, segments, if_pos ha]
  | cons b s ih =>
    obtain ⟨hb, hs⟩ := List.forall_mem_cons.1 h
    rw [List.cons_append, segments, hb, ih hs]
    rfl

/-- What lies on the two sides of a cut is cut on its own. -/
theorem segments_append_cons_of_cut (ha : p a = true) (l l' : List α) :
    segments p (l ++ a :: l') = segments p l ++ segments p l' := by
  induction l with
  | nil => simp [segments, ha]
  | cons b l ih =>
    rw [List.cons_append, segments, segments, ih]
    by_cases hb : p b = true
    · rw [if_pos hb, if_pos hb, List.cons_append]
    · rw [if_neg hb, if_neg hb]
      cases hl : segments p l with
      | nil => exact absurd hl (segments_ne_nil p l)
      | cons s ss => rfl

/-- Cutting drops the elements at which it cuts and nothing else. -/
theorem flatten_segments (p : α → Bool) (l : List α) :
    (segments p l).flatten = l.filter (!p ·) := by
  induction l with
  | nil => rfl
  | cons a l ih =>
    by_cases ha : p a = true
    · rw [segments, if_pos ha, List.flatten_cons, List.nil_append, ih,
        List.filter_cons_of_neg (by simpa using ha)]
    · rw [List.filter_cons_of_pos (by simpa using ha), ← ih, segments, if_neg ha]
      cases segments p l <;> rfl

theorem mem_of_mem_segments (hs : s ∈ segments p l) (ha : a ∈ s) : a ∈ l := by
  have hmem : a ∈ (segments p l).flatten := List.mem_flatten.2 ⟨s, hs, ha⟩
  rw [flatten_segments] at hmem
  exact (List.mem_filter.1 hmem).1

/-- Words contain nothing new. -/
theorem mem_of_mem_words (hw : w ∈ words cs) (hc : c ∈ w) : c ∈ cs :=
  mem_of_mem_segments (List.mem_filter.1 hw).1 hc

/-- What is not empty and has no blank is one word. -/
theorem words_of_forall (h : ∀ c ∈ w, isBlank c = false) (hw : w ≠ []) : words w = [w] := by
  rw [words, segments_of_forall h, List.filter_cons_of_pos (by simpa using hw), List.filter_nil]

/-- Blanks in front do not count. -/
theorem words_cons_of_isBlank (hc : isBlank c = true) (cs : List Char) :
    words (c :: cs) = words cs := by
  rw [words, segments, if_pos hc, List.filter_cons_of_neg (by simp), words]

/-- The first word ends at the first blank. -/
theorem words_append_cons (h : ∀ c ∈ w, isBlank c = false) (hw : w ≠ []) (hc : isBlank c = true)
    (rest : List Char) : words (w ++ c :: rest) = w :: words rest := by
  rw [words, segments_append_cons h hc, List.filter_cons_of_pos (by simpa using hw), words]

/-- A blank divides the words of a text. -/
theorem words_append_cons_of_isBlank (hc : isBlank c = true) (cs ds : List Char) :
    words (cs ++ c :: ds) = words cs ++ words ds := by
  rw [words, segments_append_cons_of_cut hc, List.filter_append, words, words]

/-- A text without blanks is told by its words. It has one or, if it is empty, none. -/
theorem flatten_words (h : ∀ c ∈ cs, isBlank c = false) : (words cs).flatten = cs := by
  by_cases hnil : cs = []
  · rw [hnil]
    rfl
  · rw [words_of_forall h hnil, List.flatten_singleton]

/-! ### Lines -/

/-- Every end of a line is a blank. -/
theorem isBlank_of_isLineEnd (h : isLineEnd c = true) : isBlank c = true := by
  simp [isBlank, h]

theorem lines_cons_of_lines {l : List Char} {ls : List (List Char)} (hc : isLineEnd c = false)
    (h : lines cs = l :: ls) : lines (c :: cs) = (c :: l) :: ls := by
  cases cs with
  | nil => cases h
  | cons d rest =>
    have hcr : ¬(c = '\r' ∧ d = '\n') := by
      rintro ⟨rfl, -⟩
      exact absurd hc (by decide)
    rw [lines, if_neg hcr, hc, h]
    rfl

/-- A line feed ends an empty line. -/
theorem lines_lineFeed_cons (rest : List Char) : lines ('\n' :: rest) = [] :: lines rest := by
  cases rest with
  | nil => rfl
  | cons d rest => rfl

/-- The first line ends at the first line end. -/
theorem lines_append_cons {l : List Char} (h : ∀ c ∈ l, isLineEnd c = false) (rest : List Char) :
    lines (l ++ '\n' :: rest) = l :: lines rest := by
  induction l with
  | nil => exact lines_lineFeed_cons rest
  | cons c l ih =>
    obtain ⟨hc, hl⟩ := List.forall_mem_cons.1 h
    exact lines_cons_of_lines hc (ih hl)

/-- **Lines that are written one after the other are read as these lines.** -/
theorem lines_flatMap {ls : List (List Char)} (h : ∀ l ∈ ls, ∀ c ∈ l, isLineEnd c = false) :
    lines (ls.flatMap fun l ↦ l ++ ['\n']) = ls := by
  induction ls with
  | nil => rfl
  | cons l ls ih =>
    obtain ⟨hl, hls⟩ := List.forall_mem_cons.1 h
    rw [List.flatMap_cons, List.append_assoc, List.singleton_append, lines_append_cons hl, ih hls]

/-- **A line holds no line end.** -/
theorem not_isLineEnd_of_mem_lines {l : List Char} (hl : l ∈ lines cs) (hc : c ∈ l) :
    isLineEnd c = false := by
  fun_induction lines cs generalizing l with
  | case1 => cases hl
  | case2 d hd =>
    obtain rfl := List.mem_singleton.1 hl
    cases hc
  | case3 d hd =>
    obtain rfl := List.mem_singleton.1 hl
    obtain rfl := List.mem_singleton.1 hc
    simpa using hd
  -- a carriage return and a line feed end one line
  | case4 d e rest hcr ih =>
    rcases List.mem_cons.1 hl with rfl | hl
    · cases hc
    · exact ih hl hc
  | case5 d e rest hcr hd ih =>
    rcases List.mem_cons.1 hl with rfl | hl
    · cases hc
    · exact ih hl hc
  | case6 d e rest hcr hd hnil ih =>
    obtain rfl := List.mem_singleton.1 hl
    obtain rfl := List.mem_singleton.1 hc
    simpa using hd
  | case7 d e rest hcr hd k ks hks ih =>
    rcases List.mem_cons.1 hl with rfl | hl
    · rcases List.mem_cons.1 hc with rfl | hc
      · simpa using hd
      · exact ih (hks ▸ List.mem_cons_self) hc
    · exact ih (hks ▸ List.mem_cons_of_mem k hl) hc

/-! ### Trimming -/

theorem mem_of_mem_trim (h : c ∈ trim cs) : c ∈ cs := by
  rw [trim, trimBy, List.mem_reverse] at h
  have hrev := (List.dropWhile_sublist _).subset h
  exact (List.dropWhile_sublist _).subset (List.mem_reverse.1 hrev)

/-- There is nothing to trim from a text that neither starts nor ends with a blank. -/
theorem trim_eq_self (hhead : ∀ c ∈ cs.head?, isBlank c = false)
    (hlast : ∀ c ∈ cs.getLast?, isBlank c = false) : trim cs = cs := by
  have hkeep : ∀ {ds : List Char}, (∀ c ∈ ds.head?, isBlank c = false) →
      ds.dropWhile isBlank = ds := by
    rintro (_ | ⟨d, ds⟩) h
    · rfl
    · rw [List.dropWhile_cons, h d rfl]
      rfl
  have hrev : ∀ c ∈ cs.reverse.head?, isBlank c = false := by rwa [List.head?_reverse]
  rw [trim, trimBy, hkeep hhead, hkeep hrev, List.reverse_reverse]

end Litmus.Text
