import Litmus.Proofs.Reporting

/-!
# The lines of a witness

A witness shows a run with one step to a line. Labels and instructions are filled up to the widths
of the longest ones, so that the arrows in front of the values stand below each other. Hence every
line depends on all steps, and a variable may be called `->` or `(forwarded)`. Still nothing is lost
(`Report.run_aligned`), as long as no name has a blank.

* The last arrow of a line is the one in front of the value: neither a numeral nor the mark behind
  it has a `>`. What comes before it has the same width in all lines
  (`Report.arrowColumn?_stepLine`).
* Filling up adds spaces at the end of a word, so the words of a line do not depend on the widths
  (`Report.words_stepLine`). They tell the step (`Report.shown_eq_of_words_eq`): the first one is
  the label, the last one says whether the value was forwarded, since it is a numeral otherwise, and
  the value, the arrow and the instruction follow from the end.
-/

namespace Litmus

open Text Listing

/-! ### Words -/

namespace Text

variable {w : List Char}

-- `decide` on these statements themselves would try all characters there are

/-- That no character is blank can be checked. -/
theorem not_isBlank_of_all (h : w.all (!isBlank ·) = true) : ∀ c ∈ w, isBlank c = false := by
  simpa only [List.all_eq_true, Bool.not_eq_true'] using h

/-- That no blank but the space occurs can be checked. -/
theorem eq_space_of_all (h : w.all (fun c ↦ !isBlank c || c == ' ') = true) :
    ∀ c ∈ w, isBlank c = true → c = ' ' := by
  intro c hc hblank
  have hspace := List.all_eq_true.1 h c hc
  rwa [hblank, Bool.not_true, Bool.false_or, beq_iff_eq] at hspace

end Text

namespace Instruction

variable {i j : Instruction}

/-- A load is two words, if its variable is one. -/
theorem words_render_load (x : String) :
    words (load x).render.toList = ['l', 'd'] :: words x.toList := by
  rw [toList_render_load, loadLine,
    words_append_cons (not_isBlank_of_all (by decide)) (by decide) (by decide)]

/-- A store is three words. The comma belongs to the word of its variable. -/
theorem words_render_store {x : String} (h : ∀ c ∈ x.toList, isBlank c = false) (v : ℤ) :
    words (store x v).render.toList =
      [['s', 't'], x.toList ++ [','], (Numeral.write v).toList] := by
  have hname : ∀ c ∈ x.toList ++ [','], isBlank c = false :=
    List.forall_mem_append.2 ⟨h, not_isBlank_of_all (by decide)⟩
  have hvalue := Numeral.plain_write v
  have hcut : x.toList ++ ',' :: ' ' :: (Numeral.write v).toList =
      (x.toList ++ [',']) ++ ' ' :: (Numeral.write v).toList := by simp
  rw [toList_render_store, storeLine,
    words_append_cons (not_isBlank_of_all (by decide)) (by decide) (by decide), hcut,
    words_append_cons hname (by simp) (by decide),
    words_of_forall hvalue.not_isBlank hvalue.ne_nil]

/-- **An instruction is told by the words of its text.** -/
theorem eq_of_words_render_eq (hi : ∀ c ∈ i.name.toList, isBlank c = false)
    (hj : ∀ c ∈ j.name.toList, isBlank c = false)
    (h : words i.render.toList = words j.render.toList) : i = j := by
  cases i with
  | load x =>
    cases j with
    | load y =>
      -- a variable may be empty, and then it is no word: its words are put together again
      rw [words_render_load, words_render_load] at h
      have hname : x.toList = y.toList :=
        calc x.toList = (words x.toList).flatten := (flatten_words hi).symm
          _ = (words y.toList).flatten := congrArg List.flatten (List.cons.inj h).2
          _ = y.toList := flatten_words hj
      rw [String.toList_injective hname]
    | store y w =>
      rw [words_render_load, words_render_store (x := y) hj] at h
      exact absurd (List.cons.inj h).1 (by decide)
  | store x v =>
    cases j with
    | load y =>
      rw [words_render_load, words_render_store (x := x) hi] at h
      exact absurd (List.cons.inj h).1 (by decide)
    | store y w =>
      rw [words_render_store (x := x) hi, words_render_store (x := y) hj] at h
      simp only [List.cons.injEq, true_and, and_true] at h
      obtain ⟨hname, hvalue⟩ := h
      rw [String.toList_injective (List.append_cancel_right hname),
        Numeral.write_injective (String.toList_injective hvalue)]

end Instruction

/-- A position is told by its label. -/
theorem Position.label_injective : Function.Injective Position.label := by
  rintro ⟨t, i⟩ ⟨u, j⟩ h
  have htext := congrArg String.toList h
  simp only [Position.label, String.toList_append, List.append_assoc] at htext
  obtain ⟨hthread, hindex⟩ := append_cons_inj_of_not_mem
    (Numeral.not_mem_write (c := '.') (by decide) (by decide) t)
    (Numeral.not_mem_write (by decide) (by decide) u) (List.append_cancel_left htext)
  rw [Numeral.write_injective (String.toList_injective hthread),
    Numeral.write_injective (String.toList_injective hindex)]

theorem Position.not_isBlank_of_mem_label (q : Position) :
    ∀ c ∈ q.label.toList, isBlank c = false := by
  have hwrite : ∀ v : ℤ, ∀ c ∈ (Numeral.write v).toList, isBlank c = false :=
    fun v ↦ (Numeral.plain_write v).not_isBlank
  simp only [Position.label, String.toList_append, List.forall_mem_append]
  exact ⟨⟨⟨not_isBlank_of_all (by decide), hwrite q.thread⟩, not_isBlank_of_all (by decide)⟩,
    hwrite q.index⟩

/-- The label of a position is one word. -/
theorem Position.words_label (q : Position) : words q.label.toList = [q.label.toList] :=
  words_of_forall q.not_isBlank_of_mem_label (by simp [Position.label])

/-- **What the line of a step shows**: its position, its instruction and its value, but of its
source only whether the value was forwarded. -/
def Step.shown {ι : Type} (t : Step ι) : Step ι :=
  { t with source := t.source.filter (· = .forwarded) }

theorem Step.source_shown_iff {ι : Type} (t : Step ι) :
    t.shown.source = some .forwarded ↔ t.source = some .forwarded := by
  simp [Step.shown, Option.filter_eq_some_iff]

/-- Two steps show the same if they differ at most in a source that is not a forwarding. -/
theorem Step.shown_eq_iff {ι : Type} {t t' : Step ι} : t.shown = t'.shown ↔
    t.position = t'.position ∧ t.instruction = t'.instruction ∧ t.value = t'.value ∧
      (t.source = some .forwarded ↔ t'.source = some .forwarded) := by
  have hsource : ∀ a b : Option Source, a.filter (· = .forwarded) = b.filter (· = .forwarded) ↔
      (a = some .forwarded ↔ b = some .forwarded) := by
    rintro (_ | (_ | _)) (_ | (_ | _)) <;> decide
  simp only [Step.shown, Step.mk.injEq, hsource]

/-- **No variable that the run accesses has a blank in its name.** -/
def Run.Spaceless (r : Run) : Prop :=
  ∀ t ∈ r, ∀ c ∈ t.instruction.name.toList, isBlank c = false

instance (r : Run) : Decidable r.Spaceless :=
  decidable_of_iff (r.all fun t ↦ t.instruction.name.toList.all (!isBlank ·)) (by
    simp [Run.Spaceless, List.all_eq_true])

namespace Report

variable {r r' : Run} {s : String}

/-! ### The parts of a line -/

/-- The mark of a value that was forwarded. -/
def forwardedMark (source : Option Source) : List Char :=
  if source = some .forwarded then " (forwarded)".toList else []

/-- The end of a step's line: its value with an arrow in front of it, and the mark. -/
def ending {ι : Type} (t : Step ι) : List Char :=
  " -> ".toList ++ ((Numeral.write t.value).toList ++ forwardedMark t.source)

/-- The parts of the line of a step. -/
theorem toList_stepLine (labels instructions : ℕ) (t : Step String) :
    (stepLine labels instructions t).toList =
      [' ', ' '] ++ (padded labels t.position.label).toList ++ [' ', ' '] ++
        (padded instructions t.instruction).toList ++ [' '] ++ ending t := by
  rw [stepLine, ending, forwardedMark]
  by_cases h : t.source = some .forwarded
  · simp [h]
  · simp [h]

theorem length_toList_padded {width : ℕ} (h : s.length ≤ width) :
    (padded width s).toList.length = width := by
  rw [padded, String.toList_append, List.length_append, String.toList_ofList, List.length_replicate,
    String.length_toList]
  omega

theorem length_le_widest {l : List String} (h : s ∈ l) : s.length ≤ widest l :=
  (le_foldl_max _ 0).2 _ (List.mem_map_of_mem h)

/-- Filling a text up to a width leaves its words alone. -/
theorem words_padded (width : ℕ) (s : String) :
    words (padded width s).toList = words s.toList := by
  have hspaces : ∀ n : ℕ, words (List.replicate n ' ') = [] := by
    intro n
    induction n with
    | zero => rfl
    | succ n ih => rw [List.replicate_succ, words_cons_of_isBlank (by decide), ih]
  rw [padded, String.toList_append, String.toList_ofList]
  cases hn : width - s.length with
  | zero => rw [List.replicate_zero, List.append_nil]
  | succ n =>
    rw [List.replicate_succ, words_append_cons_of_isBlank (by decide), hspaces, List.append_nil]

/-! ### What a line tells -/

/-- The word that stands at the end of a line if the value was forwarded. -/
def forwardedWords (source : Option Source) : List (List Char) :=
  if source = some .forwarded then ["(forwarded)".toList] else []

/-- What stands behind the columns of a line: the arrow, the value, and a word if it was forwarded.
-/
theorem words_ending {ι : Type} (t : Step ι) :
    words (ending t) =
      ['-', '>'] :: (Numeral.write t.value).toList :: forwardedWords t.source := by
  have hvalue := Numeral.plain_write t.value
  have harrow : ending t = ' ' :: (['-', '>'] ++
      ' ' :: ((Numeral.write t.value).toList ++ forwardedMark t.source)) := rfl
  rw [harrow, words_cons_of_isBlank (by decide),
    words_append_cons (not_isBlank_of_all (by decide)) (by decide) (by decide), forwardedMark,
    forwardedWords]
  by_cases h : t.source = some .forwarded
  · have hmark : words "(forwarded)".toList = ["(forwarded)".toList] := by decide
    have hspace : " (forwarded)".toList = ' ' :: "(forwarded)".toList := by decide
    rw [if_pos h, if_pos h, hspace, words_append_cons_of_isBlank (by decide),
      words_of_forall hvalue.not_isBlank hvalue.ne_nil, hmark, List.singleton_append]
  · rw [if_neg h, if_neg h, List.append_nil, words_of_forall hvalue.not_isBlank hvalue.ne_nil]

/-- **The words of a line do not depend on the widths.** -/
theorem words_stepLine (labels instructions : ℕ) (t : Step String) :
    words (stepLine labels instructions t).toList =
      t.position.label.toList :: (words t.instruction.toList ++
        ['-', '>'] :: (Numeral.write t.value).toList :: forwardedWords t.source) := by
  have hcut : (stepLine labels instructions t).toList =
      ' ' :: ' ' :: ((padded labels t.position.label).toList ++
        ' ' :: (' ' :: (padded instructions t.instruction).toList ++ ' ' :: ending t)) := by
    rw [toList_stepLine]
    simp
  rw [hcut, words_cons_of_isBlank (by decide), words_cons_of_isBlank (by decide),
    words_append_cons_of_isBlank (by decide), words_padded, Position.words_label,
    words_append_cons_of_isBlank (by decide), List.singleton_append,
    words_cons_of_isBlank (by decide), words_padded, words_ending]

/-- The last word of a line tells whether the value was forwarded. -/
theorem getLast?_words (l : List (List Char)) (v : ℤ) (source : Option Source) :
    (l ++ ['-', '>'] :: (Numeral.write v).toList :: forwardedWords source).getLast? =
      some (if source = some .forwarded then "(forwarded)".toList
        else (Numeral.write v).toList) := by
  rw [forwardedWords]
  split
  · simp
  · simp

/-- The last word of a line tells whether the value was forwarded: otherwise it is a numeral. -/
theorem forwarded_iff_of_words_eq {l l' : List (List Char)} {v v' : ℤ} {src src' : Option Source}
    (h : l ++ ['-', '>'] :: (Numeral.write v).toList :: forwardedWords src =
      l' ++ ['-', '>'] :: (Numeral.write v').toList :: forwardedWords src') :
    src = some .forwarded ↔ src' = some .forwarded := by
  -- the last word is the mark or a numeral, and these differ in their first character
  have hnumeral : ∀ u : ℤ, (Numeral.write u).toList ≠ "(forwarded)".toList := by
    intro u heq
    have hmem : '(' ∉ (Numeral.write u).toList := Numeral.not_mem_write (by decide) (by decide) u
    rw [heq] at hmem
    exact hmem (by decide)
  have hlast := congrArg List.getLast? h
  rw [getLast?_words, getLast?_words, Option.some.injEq] at hlast
  constructor
  · intro hsrc
    by_contra hsrc'
    rw [if_pos hsrc, if_neg hsrc'] at hlast
    exact hnumeral v' hlast.symm
  · intro hsrc'
    by_contra hsrc
    rw [if_neg hsrc, if_pos hsrc'] at hlast
    exact hnumeral v hlast

/-- **The words of a line tell what its step shows.** -/
theorem shown_eq_of_words_eq {t t' : Step Instruction}
    (ht : ∀ c ∈ t.instruction.name.toList, isBlank c = false)
    (ht' : ∀ c ∈ t'.instruction.name.toList, isBlank c = false) {m n m' n' : ℕ}
    (h : words (stepLine m n (t.map Instruction.render)).toList =
      words (stepLine m' n' (t'.map Instruction.render)).toList) : t.shown = t'.shown := by
  rw [words_stepLine, words_stepLine] at h
  obtain ⟨hlabel, hrest⟩ := List.cons.inj h
  have hsource : t.source = some .forwarded ↔ t'.source = some .forwarded :=
    forwarded_iff_of_words_eq hrest
  have hwords : forwardedWords t.source = forwardedWords t'.source := if_congr hsource rfl rfl
  -- the rest is read from the end, since there the number of words is known
  obtain ⟨hinstruction, hend⟩ := List.append_inj' hrest (by
    simp only [Step.map, List.length_cons, hwords])
  have hvalue := (List.cons.inj (List.cons.inj hend).2).1
  exact Step.shown_eq_iff.2 ⟨Position.label_injective (String.toList_injective hlabel),
    Instruction.eq_of_words_render_eq ht ht' hinstruction,
    Numeral.write_injective (String.toList_injective hvalue), hsource⟩

/-! ### Where the arrows stand -/

/-- The column at which the last arrow of a line starts. -/
def arrowColumn? : List Char → Option ℕ
  | [] => none
  | c :: cs =>
    match arrowColumn? cs with
    | some n => some (n + 1)
    | none => if " -> ".toList.isPrefixOf (c :: cs) then some 0 else none

theorem arrowColumn?_of_not_mem {cs : List Char} (h : '>' ∉ cs) : arrowColumn? cs = none := by
  induction cs with
  | nil => rfl
  | cons c cs ih =>
    have hcs : '>' ∉ cs := fun hmem ↦ h (List.mem_cons_of_mem c hmem)
    rw [arrowColumn?, ih hcs]
    refine if_neg fun hprefix ↦ h ?_
    exact (List.isPrefixOf_iff_prefix.1 hprefix).subset (by decide)

/-- An arrow is the last one if there is no `>` behind it. -/
theorem arrowColumn?_append (cs : List Char) {ds : List Char} (h : '>' ∉ ds) :
    arrowColumn? (cs ++ " -> ".toList ++ ds) = some cs.length := by
  induction cs with
  | nil =>
    have hspace : '>' ∉ ' ' :: ds := List.not_mem_cons_of_ne_of_not_mem (by decide) h
    have hhead : arrowColumn? ('>' :: ' ' :: ds) = none := by
      rw [arrowColumn?, arrowColumn?_of_not_mem hspace]
      rfl
    have hshaft : arrowColumn? ('-' :: '>' :: ' ' :: ds) = none := by
      rw [arrowColumn?, hhead]
      rfl
    show arrowColumn? (' ' :: '-' :: '>' :: ' ' :: ds) = some 0
    rw [arrowColumn?, hshaft]
    exact if_pos (List.isPrefixOf_iff_prefix.2 ⟨ds, rfl⟩)
  | cons c cs ih =>
    rw [List.cons_append, List.cons_append, arrowColumn?, ih, List.length_cons]

/-- **The last arrow of a line is the one in front of the value.** It stands behind a label and an
instruction that are filled up to their widths. -/
theorem arrowColumn?_stepLine {labels instructions : ℕ} {t : Step String}
    (hlabel : t.position.label.length ≤ labels)
    (hinstruction : t.instruction.length ≤ instructions) :
    arrowColumn? (stepLine labels instructions t).toList = some (labels + instructions + 5) ∧
      (stepLine labels instructions t).toList.drop (labels + instructions + 5) = ending t := by
  have hbehind : '>' ∉ (Numeral.write t.value).toList ++ forwardedMark t.source := by
    rw [List.mem_append, not_or, forwardedMark]
    refine ⟨Numeral.not_mem_write (by decide) (by decide) _, ?_⟩
    split
    · decide
    · exact List.not_mem_nil
  set front := [' ', ' '] ++ (padded labels t.position.label).toList ++ [' ', ' '] ++
    (padded instructions t.instruction).toList ++ [' '] with hfront
  have hlength : front.length = labels + instructions + 5 := by
    simp only [hfront, List.length_append, length_toList_padded hlabel,
      length_toList_padded hinstruction, List.length_cons, List.length_nil]
    omega
  rw [toList_stepLine, ← hfront, ← hlength]
  constructor
  · rw [ending, ← List.append_assoc]
    exact arrowColumn?_append front hbehind
  · exact List.drop_left

/-! ### Whole witnesses -/

theorem eq_space_of_mem_padded {c : Char} {width : ℕ}
    (h : ∀ c ∈ s.toList, isBlank c = true → c = ' ') (hc : c ∈ (padded width s).toList) :
    isBlank c = true → c = ' ' := by
  rw [padded, String.toList_append, String.toList_ofList, List.mem_append, List.mem_replicate] at hc
  rcases hc with hc | ⟨-, rfl⟩
  · exact h c hc
  · exact fun _ ↦ rfl

/-- The line of a step has no blanks but spaces. -/
theorem eq_space_of_mem_stepLine {t : Step Instruction}
    (h : ∀ c ∈ t.instruction.name.toList, isBlank c = false) (m n : ℕ) :
    ∀ c ∈ (stepLine m n (t.map Instruction.render)).toList, isBlank c = true → c = ' ' := by
  have hplain : ∀ {cs : List Char}, (∀ c ∈ cs, isBlank c = false) →
      ∀ c ∈ cs, isBlank c = true → c = ' ' :=
    fun hcs c hc hblank ↦ absurd hblank (by rw [hcs c hc]; exact Bool.false_ne_true)
  have hrender : ∀ c ∈ t.instruction.render.toList, isBlank c = true → c = ' ' := by
    cases hi : t.instruction with
    | load x =>
      rw [hi] at h
      rw [Instruction.toList_render_load, loadLine]
      refine List.forall_mem_append.2 ⟨eq_space_of_all (by decide), ?_⟩
      exact List.forall_mem_cons.2 ⟨fun _ ↦ rfl, hplain h⟩
    | store x v =>
      rw [hi] at h
      rw [Instruction.toList_render_store, storeLine]
      refine List.forall_mem_append.2 ⟨eq_space_of_all (by decide), ?_⟩
      refine List.forall_mem_cons.2 ⟨fun _ ↦ rfl, List.forall_mem_append.2 ⟨hplain h, ?_⟩⟩
      refine List.forall_mem_cons.2 ⟨by decide, List.forall_mem_cons.2 ⟨fun _ ↦ rfl, ?_⟩⟩
      exact hplain (Numeral.plain_write v).not_isBlank
  have hmark : ∀ c ∈ forwardedMark t.source, isBlank c = true → c = ' ' := by
    rw [forwardedMark]
    split
    · exact eq_space_of_all (by decide)
    · simp
  rw [toList_stepLine, ending]
  simp only [List.forall_mem_append]
  have hspaces : ∀ c ∈ [' ', ' '], isBlank c = true → c = ' ' := eq_space_of_all (by decide)
  have hlabel := hplain t.position.not_isBlank_of_mem_label
  exact ⟨⟨⟨⟨⟨hspaces, fun c ↦ eq_space_of_mem_padded hlabel⟩, hspaces⟩,
    fun c ↦ eq_space_of_mem_padded hrender⟩, eq_space_of_all (by decide)⟩,
    eq_space_of_all (by decide), hplain (Numeral.plain_write t.value).not_isBlank, hmark⟩

/-- The lines of a run are the lines of its steps: no step takes more than one. -/
theorem lines_run (h : r.Spaceless) :
    lines (run r).toList = (stepLines r).map String.toList := by
  have hlines : (run r).toList = ((stepLines r).map String.toList).flatMap (· ++ ['\n']) := by
    rw [run_eq_unlines, toList_unlines, List.flatMap_map]
  rw [hlines]
  refine lines_flatMap fun l hl c hc ↦ ?_
  obtain ⟨line, hline, rfl⟩ := List.mem_map.1 hl
  obtain ⟨t', ht', rfl⟩ := List.mem_map.1 hline
  obtain ⟨t, ht, rfl⟩ := List.mem_map.1 ht'
  by_contra hend
  have hblank := isBlank_of_isLineEnd (Bool.eq_true_of_not_eq_false hend)
  obtain rfl := eq_space_of_mem_stepLine (h t ht) _ _ c hc hblank
  exact hend (by decide)

/-- A line depends only on what it shows. -/
theorem stepLine_shown (m n : ℕ) (t : Step String) : stepLine m n t.shown = stepLine m n t := by
  simp only [stepLine, Step.source_shown_iff]
  rfl

/-- A run has the same text as what its lines show. -/
theorem run_map_shown (r : Run) : run (r.map Step.shown) = run r := by
  have hline : ∀ (m n : ℕ) (t : Step Instruction),
      stepLine m n (t.shown.map Instruction.render) = stepLine m n (t.map Instruction.render) :=
    fun m n t ↦ stepLine_shown m n (t.map Instruction.render)
  simp only [run, witness, List.map_map, Function.comp_def, hline]
  rfl

/-- **Runs with the same lines show the same**, even if the widths were not the same. -/
theorem map_shown_eq_of_lines_eq {m n m' n' : ℕ} (h : r.Spaceless) (h' : r'.Spaceless)
    (hlines : (r.map fun t ↦ stepLine m n (t.map Instruction.render)) =
      r'.map fun t ↦ stepLine m' n' (t.map Instruction.render)) :
    r.map Step.shown = r'.map Step.shown := by
  induction r generalizing r' with
  | nil => rw [List.map_eq_nil_iff.1 hlines.symm]
  | cons t r ih =>
    obtain ⟨t', rest, rfl, hline, hrest⟩ := List.map_eq_cons_iff.1 hlines.symm
    obtain ⟨ht, hr⟩ := List.forall_mem_cons.1 h
    obtain ⟨ht', hr'⟩ := List.forall_mem_cons.1 h'
    have hwords := congrArg (fun l : String ↦ words l.toList) hline.symm
    rw [List.map_cons, List.map_cons, shown_eq_of_words_eq ht ht' hwords, ih hr hr' hrest.symm]

/-- **The arrows of a run stand below each other**, each in front of its step's value. -/
theorem exists_column (r : Run) : ∃ column, List.Forall₂ (fun l t ↦
    arrowColumn? l.toList = some column ∧ l.toList.drop column = ending t) (stepLines r) r := by
  refine ⟨widest (r.map (·.position.label)) + widest (r.map (·.instruction.render)) + 5, ?_⟩
  simp only [stepLines, List.map_map, List.forall₂_map_left_iff, List.forall₂_same]
  intro t ht
  exact arrowColumn?_stepLine (t := t.map Instruction.render)
    (length_le_widest (List.mem_map_of_mem ht)) (length_le_widest (List.mem_map_of_mem ht))

/-- **The text of a run has one line for each step, its arrows stand below each other, and it tells
what its lines show.** Two runs have the same text only if their steps have the same positions,
instructions and values in the same order, and the same ones of them were forwarded. -/
theorem run_aligned (r : Run) (h : r.Spaceless) :
    (∃ (ls : List String) (column : ℕ),
      run r = unlines ls ∧ lines (run r).toList = ls.map String.toList ∧
      List.Forall₂ (fun l t ↦ arrowColumn? l.toList = some column ∧
        l.toList.drop column = ending t) ls r) ∧
    ∀ r' : Run, r'.Spaceless →
      (run r = run r' ↔ r.map Step.shown = r'.map Step.shown) := by
  constructor
  · obtain ⟨column, hcolumn⟩ := exists_column r
    exact ⟨stepLines r, column, run_eq_unlines r, lines_run h, hcolumn⟩
  · refine fun r' h' ↦ ⟨fun htext ↦ ?_, fun hshown ↦ ?_⟩
    · have hlines : stepLines r = stepLines r' := by
        have hsplit := congrArg (fun text : String ↦ lines text.toList) htext
        simp only [lines_run h, lines_run h'] at hsplit
        exact List.map_injective_iff.2 (fun _ _ ↦ String.toList_injective) hsplit
      simp only [stepLines, List.map_map] at hlines
      exact map_shown_eq_of_lines_eq h h' hlines
    · rw [← run_map_shown r, hshown, run_map_shown]

/-- Loads of variables `->` and `(forwarded)`. The value of the second comes from the given
source. -/
def lookalike (source : Source) : Run :=
  [⟨⟨0, 9⟩, .load "->", -1, some .memory⟩, ⟨⟨0, 10⟩, .load "(forwarded)", 5, some source⟩]

/-- Names that look like an arrow or a mark do not get in the way. -/
theorem lookalike_aligned :
    (lookalike .forwarded).Spaceless ∧ (lookalike .memory).Spaceless ∧
      (∃ ls : List String, ls.length = 2 ∧
        lines (run (lookalike .forwarded)).toList = ls.map String.toList) ∧
      run (lookalike .forwarded) ≠ run (lookalike .memory) := by
  have h : (lookalike .forwarded).Spaceless := by decide
  have h' : (lookalike .memory).Spaceless := by decide
  obtain ⟨⟨ls, column, -, hlines, hsteps⟩, hshown⟩ := run_aligned _ h
  exact ⟨h, h', ⟨ls, hsteps.length_eq, hlines⟩, mt (hshown _ h').1 (by decide)⟩

-- the first arrow of a line need not be the one in front of the value
example : run (lookalike .forwarded) =
    "  T0.9   ld ->           -> -1\n  T0.10  ld (forwarded)  -> 5 (forwarded)\n" := by
  decide +kernel

end Report

end Litmus
