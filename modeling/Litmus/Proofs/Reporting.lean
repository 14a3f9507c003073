import Litmus.Proofs.Printing
import Litmus.Proofs.Violations
import Litmus.Report

/-!
# The lines of a report

A report is a text that other programs read line by line. Its lines are those that it is put
together from (`Report.comparison_eq_unlines`), because none of them holds a line feed: variables
that were read from a program text have no blanks in their names (`Program.Spaceless`).

What the sections of a report list can then be read off the text alone (`Report.outcomeLines`). A
line of the table holds a tab, a line of a witness starts with a space, and only a key starts with a
bracket, so the keys stand out wherever the witnesses are. A key ends with a space, so a star at the
end of a line is a mark. The lines without one are those of the first section
(`Report.Marks.unstarred`): this is the inclusion of the models, seen in the report.
-/

namespace Litmus

/-! ### Texts of several lines -/

namespace Text

variable {s t : String} {l ls : List String}

/-- The text holds no line feed. -/
def OneLine (s : String) : Prop := '\n' ∉ s.toList

instance (s : String) : Decidable (OneLine s) := inferInstanceAs (Decidable ('\n' ∉ s.toList))

/-- Texts without a line feed can be put together. -/
theorem oneLine_append : OneLine (s ++ t) ↔ OneLine s ∧ OneLine t := by
  rw [OneLine, String.toList_append, List.mem_append, not_or]
  exact Iff.rfl

theorem oneLine_join : OneLine (String.join l) ↔ ∀ s ∈ l, OneLine s := by
  rw [OneLine, String.toList_join, List.mem_flatMap]
  push Not
  exact Iff.rfl

/-- A text without blanks has no line feed. -/
theorem oneLine_of_not_isBlank (h : ∀ c ∈ s.toList, isBlank c = false) : OneLine s := fun hc ↦
  absurd (h _ hc) (by decide)

/-- The lines, with a line feed behind each of them. -/
def unlines (ls : List String) : String := String.join (ls.map (· ++ "\n"))

/-- Each line is followed by a line feed, the last one too. -/
theorem toList_unlines (ls : List String) :
    (unlines ls).toList = ls.flatMap fun l ↦ l.toList ++ ['\n'] := by
  rw [unlines, String.toList_join, List.flatMap_map]
  simp only [String.toList_append]
  rfl

theorem unlines_append (l l' : List String) : unlines (l ++ l') = unlines l ++ unlines l' := by
  rw [← String.toList_inj, String.toList_append, toList_unlines, toList_unlines, toList_unlines,
    List.flatMap_append]

theorem unlines_cons (s : String) (l : List String) :
    unlines (s :: l) = s ++ "\n" ++ unlines l := by
  rw [← List.singleton_append, unlines_append]
  rfl

theorem unlines_flatMap {α : Type} (f : α → List String) (l : List α) :
    unlines (l.flatMap f) = String.join (l.map fun a ↦ unlines (f a)) := by
  rw [← String.toList_inj, String.toList_join, List.flatMap_map, toList_unlines,
    List.flatMap_assoc]
  simp only [toList_unlines]

/-- Lines with line feeds between them, and one more at the end. -/
theorem intercalate_eq_unlines (h : ls ≠ []) : "\n".intercalate ls ++ "\n" = unlines ls := by
  rw [← String.toList_inj, String.toList_append, String.toList_intercalate, toList_unlines]
  induction ls with
  | nil => exact absurd rfl h
  | cons l ls ih =>
    cases ls with
    | nil => simp [List.intercalate]
    | cons k ls =>
      rw [List.flatMap_cons, ← ih (List.cons_ne_nil k ls)]
      simp [List.intercalate]

/-- The parts of a text between its line feeds. What follows the last one counts, even if it is
empty. -/
def splitAtFeeds (text : String) : List String :=
  (segments (· == '\n') text.toList).map String.ofList

/-- **A text falls into the lines that it was put together from.** -/
theorem splitAtFeeds_unlines (h : ∀ l ∈ ls, OneLine l) :
    splitAtFeeds (unlines ls) = ls ++ [""] := by
  rw [splitAtFeeds, toList_unlines]
  induction ls with
  | nil => rfl
  | cons l ls ih =>
    obtain ⟨hl, hls⟩ := List.forall_mem_cons.1 h
    have hcut : ∀ c ∈ l.toList, (c == '\n') = false := by
      intro c hc
      rw [beq_eq_false_iff_ne]
      rintro rfl
      exact hl hc
    rw [List.flatMap_cons, List.append_assoc, List.singleton_append,
      segments_append_cons hcut (by decide), List.map_cons, String.ofList_toList, ih hls]
    rfl

end Text

open Text

theorem Numeral.oneLine_write (v : ℤ) : OneLine (write v) :=
  oneLine_of_not_isBlank (plain_write v).not_isBlank

/-! ### Names without blanks -/

/-- **No variable of the program has a blank in its name.** -/
def Program.Spaceless (p : Program) : Prop :=
  ∀ i ∈ p.threads.flatten, ∀ c ∈ i.name.toList, isBlank c = false

/-- A variable without blanks has no line feed. -/
theorem Program.Spaceless.oneLine {p : Program} (h : p.Spaceless) :
    ∀ i ∈ p.threads.flatten, OneLine i.name := fun i hi ↦ oneLine_of_not_isBlank (h i hi)

/-- Nor does an instruction with such a variable. -/
theorem Instruction.oneLine_render {i : Instruction} (h : OneLine i.name) : OneLine i.render := by
  cases i with
  | load x => exact oneLine_append.2 ⟨by decide, h⟩
  | store x v =>
    exact oneLine_append.2 ⟨oneLine_append.2 ⟨oneLine_append.2 ⟨by decide, h⟩, by decide⟩,
      Numeral.oneLine_write v⟩

/-- **A program that was read from lines has no blanks in its names**, even if the lines are given
one by one and have line feeds inside. -/
theorem Program.spaceless_of_ofLines {p : Program} {raws : List (List Char)} {limits : Limits}
    (h : ofLines raws limits = .ok p) : p.Spaceless := by
  intro i hi
  obtain ⟨raw, -, hholds⟩ := exists_holds_of_ofLines h hi
  exact (of_mem_words (Instruction.name_mem_tokens_of_holds hholds)).2

namespace Report

variable {p : Program} {c : Comparison} {s : Setting} {witnesses : Bool} {key : String}

/-! ### The table -/

/-- The rows of the table. -/
def rows (p : Program) : List String :=
  (List.range p.longest).map fun row ↦ String.join (p.threads.map fun th ↦ cell th row)

theorem le_foldl_max (l : List ℕ) (n : ℕ) : n ≤ l.foldl max n ∧ ∀ k ∈ l, k ≤ l.foldl max n := by
  induction l generalizing n with
  | nil => exact ⟨Nat.le_refl n, fun k hk ↦ absurd hk List.not_mem_nil⟩
  | cons k l ih =>
    obtain ⟨hle, hmem⟩ := ih (max n k)
    exact ⟨(Nat.le_max_left n k).trans hle,
      List.forall_mem_cons.2 ⟨(Nat.le_max_right n k).trans hle, hmem⟩⟩

/-- No thread is longer than the longest. -/
theorem length_le_longest {th : List Instruction} (h : th ∈ p.threads) :
    th.length ≤ p.longest :=
  (le_foldl_max _ 0).2 _ (List.mem_map_of_mem h)

theorem longest_pos (p : Program) : 0 < p.longest := by
  obtain ⟨i, hi⟩ := List.exists_mem_of_ne_nil _ p.flatten_ne_nil
  obtain ⟨th, hth, hith⟩ := List.mem_flatten.1 hi
  exact (List.length_pos_of_mem hith).trans_le (length_le_longest hth)

theorem rows_ne_nil (p : Program) : rows p ≠ [] := by
  rw [rows, ne_eq, List.map_eq_nil_iff, List.range_eq_nil]
  exact (longest_pos p).ne'

/-- The table consists of its rows. -/
theorem table_eq_unlines (p : Program) : table p = unlines (rows p) :=
  intercalate_eq_unlines (rows_ne_nil p)

theorem oneLine_cell {th : List Instruction} (h : ∀ i ∈ th, OneLine i.name) (row : ℕ) :
    OneLine (cell th row) := by
  rw [cell]
  cases hi : th[row]? with
  | none => decide
  | some i =>
    have hname : OneLine i.name := h i (List.mem_of_getElem? hi)
    exact oneLine_append.2 ⟨Instruction.oneLine_render hname, by decide⟩

/-- Every cell has a tabulator, an empty one too. So no row is an outcome or a heading. -/
theorem tab_mem_cell (th : List Instruction) (row : ℕ) : '\t' ∈ (cell th row).toList := by
  rw [cell]
  cases th[row]? with
  | none => decide
  | some i => simp

/-- A row is a single line. -/
theorem oneLine_of_mem_rows (h : ∀ i ∈ p.threads.flatten, OneLine i.name) {l : String}
    (hl : l ∈ rows p) : OneLine l := by
  obtain ⟨row, -, rfl⟩ := List.mem_map.1 hl
  refine oneLine_join.2 fun t ht ↦ ?_
  obtain ⟨th, hth, rfl⟩ := List.mem_map.1 ht
  exact oneLine_cell (fun i hi ↦ h i (List.mem_flatten_of_mem hth hi)) row

/-- A row holds a tab. -/
theorem tab_mem_of_mem_rows {l : String} (hl : l ∈ rows p) : '\t' ∈ l.toList := by
  obtain ⟨row, -, rfl⟩ := List.mem_map.1 hl
  have hne : p.threads ≠ [] := fun hnil ↦ p.flatten_ne_nil (by rw [hnil, List.flatten_nil])
  obtain ⟨th, hth⟩ := List.exists_mem_of_ne_nil _ hne
  rw [String.toList_join, List.mem_flatMap]
  exact ⟨_, List.mem_map_of_mem hth, tab_mem_cell th row⟩

/-! ### Witnesses -/

/-- The lines of a run, one for each step. -/
def stepLines (r : Run) : List String :=
  let steps := r.map (·.map Instruction.render)
  steps.map (stepLine (widest (steps.map (·.position.label))) (widest (steps.map (·.instruction))))

/-- A witness consists of the lines of its steps. -/
theorem run_eq_unlines (r : Run) : run r = unlines (stepLines r) := by
  simp only [run, witness, unlines, stepLines, List.map_map]
  rfl

theorem oneLine_padded {t : String} (h : OneLine t) (width : ℕ) : OneLine (padded width t) := by
  refine oneLine_append.2 ⟨h, ?_⟩
  rw [OneLine, String.toList_ofList, List.mem_replicate]
  exact fun hc ↦ absurd hc.2 (by decide)

theorem oneLine_label (q : Position) : OneLine q.label :=
  oneLine_append.2 ⟨oneLine_append.2 ⟨oneLine_append.2 ⟨by decide, Numeral.oneLine_write _⟩,
    by decide⟩, Numeral.oneLine_write _⟩

theorem oneLine_stepLine {t : Step String} (h : OneLine t.instruction) (m n : ℕ) :
    OneLine (stepLine m n t) := by
  have hsource : OneLine (if t.source = some .forwarded then " (forwarded)" else "") := by
    split
    · decide
    · decide
  simp only [stepLine, oneLine_append]
  exact ⟨⟨⟨⟨⟨⟨by decide, oneLine_padded (oneLine_label _) m⟩, by decide⟩, oneLine_padded h n⟩,
    by decide⟩, Numeral.oneLine_write _⟩, hsource⟩

/-- The lines of a witness are indented. So none of them is an outcome or a heading. -/
theorem head?_stepLine (m n : ℕ) (t : Step String) : (stepLine m n t).toList.head? = some ' ' := by
  simp [stepLine]

theorem oneLine_of_mem_stepLines {r : Run} (h : ∀ t ∈ r, OneLine t.instruction.render) {l : String}
    (hl : l ∈ stepLines r) : OneLine l := by
  obtain ⟨t', ht', rfl⟩ := List.mem_map.1 hl
  obtain ⟨t, ht, rfl⟩ := List.mem_map.1 ht'
  exact oneLine_stepLine (h t ht) _ _

theorem head?_of_mem_stepLines {r : Run} {l : String} (hl : l ∈ stepLines r) :
    l.toList.head? = some ' ' := by
  obtain ⟨t, -, rfl⟩ := List.mem_map.1 hl
  exact head?_stepLine _ _ t

/-! ### Outcomes -/

/-- The lines of the witness of a key, if witnesses are to be shown. -/
def witnessLines (S : OutcomeSet Run) (witnesses : Bool) (key : String) : List String :=
  match witnesses, S.witness key with
  | true, .ok r => stepLines r
  | _, _ => []

/-- The lines below a heading: each key with its mark, and then its witness. -/
def body (S : OutcomeSet Run) (reference : Option (OutcomeSet Run)) (witnesses : Bool) :
    List String :=
  S.sorted.flatMap fun key ↦ (key ++ mark reference key) :: witnessLines S witnesses key

/-- Without witnesses nothing stands behind an outcome. -/
theorem witnessOf_eq_unlines (S : OutcomeSet Run) (witnesses : Bool) (key : String) :
    witnessOf S (if witnesses then some run else none) key =
      unlines (witnessLines S witnesses key) := by
  cases witnesses with
  | false => rfl
  | true =>
    rw [if_pos rfl]
    unfold witnessOf witnessLines
    cases S.witness key with
    | error f => rfl
    | ok r => exact run_eq_unlines r

/-- A section consists of its heading, its outcomes with their marks and witnesses, and an empty
line. -/
theorem outcomes_eq_unlines (heading : String) (S : OutcomeSet Run)
    (reference : Option (OutcomeSet Run)) (witnesses : Bool) :
    outcomes heading S reference (if witnesses then some run else none) =
      unlines ((heading ++ ":") :: body S reference witnesses ++ [""]) := by
  rw [outcomes, unlines_append, unlines_cons, body, unlines_flatMap]
  simp only [unlines_cons, witnessOf_eq_unlines, String.append_assoc]
  rfl

/-! ### The sections of a report -/

/-- The heading of the outcomes that IBM370 allows. -/
def firstHeading : String := Model.ibm370.title ++ " POSSIBLE SOLUTIONS:"

/-- The heading of the outcomes that TSO allows. -/
def secondHeading : String := Model.tso.title ++ " POSSIBLE SOLUTIONS (* breaks store atomicity):"

/-- The lines above the first heading. -/
def top (p : Program) : List String := "PROGRAM LOADED:" :: rows p ++ [""]

/-- **A report is put together from lines.** -/
theorem comparison_eq_unlines (c : Comparison) (witnesses : Bool) :
    comparison c witnesses = unlines
      (top c.program ++
        firstHeading :: (body c.storeAtomic.outcomes none witnesses ++ [""] ++
          secondHeading ::
            (body c.writeAtomic.outcomes (some c.storeAtomic.outcomes) witnesses ++ [""]))) := by
  have hloaded : "PROGRAM LOADED:\n" = "PROGRAM LOADED:" ++ "\n" := by decide +kernel
  -- the titles of the models are part of the headings
  have hfirst : Model.ibm370.title ++ " POSSIBLE SOLUTIONS" ++ ":" = firstHeading := by
    decide +kernel
  have hsecond : Model.tso.title ++ " POSSIBLE SOLUTIONS (* breaks store atomicity)" ++ ":" =
      secondHeading := by decide +kernel
  have htop : "PROGRAM LOADED:\n" ++ table c.program ++ "\n" = unlines (top c.program) := by
    rw [hloaded, table_eq_unlines, top, unlines_append, unlines_cons]
    rfl
  unfold comparison
  dsimp only
  rw [htop, outcomes_eq_unlines, outcomes_eq_unlines, hfirst, hsecond, ← unlines_append,
    ← unlines_append, List.append_assoc]
  rfl

/-- The lines behind a heading. -/
def behind (heading : String) (ls : List String) : List String :=
  (ls.dropWhile (· ≠ heading)).tail

/-- **The lines of a report below the first heading**, up to the second one. -/
def firstSection (report : String) : List String :=
  (behind firstHeading (splitAtFeeds report)).takeWhile (· ≠ secondHeading)

/-- **The lines of a report below the second heading.** -/
def secondSection (report : String) : List String := behind secondHeading (splitAtFeeds report)

/-- The lines that start with a bracket. -/
def outcomeLines (ls : List String) : List String := ls.filter (·.toList.head? == some '[')

/-- Whether a line ends with a star. -/
def starred (l : String) : Bool := l.toList.getLast? == some '*'

theorem outcomeLines_append (a b : List String) :
    outcomeLines (a ++ b) = outcomeLines a ++ outcomeLines b := List.filter_append ..

/-- A section begins behind the first line that is its heading. -/
theorem behind_append_cons {heading : String} {a : List String} (h : heading ∉ a)
    (b : List String) : behind heading (a ++ heading :: b) = b := by
  have hskip : ∀ l ∈ a, decide (l ≠ heading) = true := by
    intro l hl
    rw [decide_eq_true_eq]
    rintro rfl
    exact h hl
  rw [behind, List.dropWhile_append_of_pos hskip, List.dropWhile_cons_of_neg (by simp),
    List.tail_cons]

/-- And it ends before the first line that is the next one. -/
theorem takeWhile_append_cons {heading : String} {a : List String} (h : heading ∉ a)
    (b : List String) : (a ++ heading :: b).takeWhile (· ≠ heading) = a := by
  have hkeep : ∀ l ∈ a, decide (l ≠ heading) = true := by
    intro l hl
    rw [decide_eq_true_eq]
    rintro rfl
    exact h hl
  rw [List.takeWhile_append_of_pos hkeep, List.takeWhile_cons_of_neg (by simp), List.append_nil]

/-! ### What can be told from a line -/

/-- **The texts of a set can be told apart by line**: each key is a single line between a bracket
and a space, and so is each step of a witness. -/
structure Readable (S : OutcomeSet Run) : Prop where
  /-- A key starts with a bracket. -/
  head : ∀ key ∈ S.keys, key.toList.head? = some '['
  /-- A key ends with a space. -/
  last : ∀ key ∈ S.keys, key.toList.getLast? = some ' '
  /-- A key is a single line. -/
  oneLine : ∀ key ∈ S.keys, OneLine key
  /-- An instruction in a witness is a single line. -/
  witness : ∀ x ∈ S.solutions, ∀ t ∈ x.witness, OneLine t.instruction.render

/-- The text of an outcome is one line, if the variables have no blanks. -/
theorem oneLine_text (h : p.Spaceless) (g : Image) : OneLine (p.outcomeOf g).text := by
  have hnames : ∀ x ∈ p.names, OneLine x := by
    intro x hx
    obtain ⟨i, hi, rfl⟩ := List.mem_map.1 (List.mem_eraseDups.1 hx)
    exact h.oneLine i hi
  refine oneLine_append.2 ⟨oneLine_join.2 fun t ht ↦ ?_, oneLine_join.2 fun t ht ↦ ?_⟩
  · obtain ⟨cell, hcell, rfl⟩ := List.mem_map.1 ht
    obtain ⟨x, hx, rfl⟩ := List.mem_map.1 hcell
    simp only [oneLine_append]
    exact ⟨⟨⟨⟨by decide, hnames x hx⟩, by decide⟩, Numeral.oneLine_write _⟩, by decide⟩
  · obtain ⟨load, hload, rfl⟩ := List.mem_map.1 ht
    obtain ⟨q, -, hq⟩ := List.mem_filterMap.1 hload
    obtain ⟨i, hi, rfl⟩ := Option.map_eq_some_iff.1 hq
    have hx := hnames _ (Program.mem_names_of_get? hi)
    simp only [oneLine_append]
    exact ⟨⟨⟨hx, by decide⟩, Numeral.oneLine_write _⟩, by decide⟩

theorem names_ne_nil (p : Program) : p.names ≠ [] := by
  obtain ⟨i, hi⟩ := List.exists_mem_of_ne_nil _ p.flatten_ne_nil
  have hmem : i.name ∈ p.names := List.mem_eraseDups.2 (List.mem_map_of_mem hi)
  exact List.ne_nil_of_mem hmem

/-- **Every outcome begins with a bracket**, since every program has a variable. -/
theorem head?_text (p : Program) (g : Image) : (p.outcomeOf g).text.toList.head? = some '[' := by
  obtain ⟨x, names, hnames⟩ := List.exists_cons_of_ne_nil (names_ne_nil p)
  simp [Outcome.text, Program.outcomeOf, hnames]

/-- The last character of a text that ends with a labelled number. -/
theorem getLast?_labelled (l : List (String × ℤ)) (hl : l ≠ []) :
    (l.flatMap fun e ↦ (labelled e).toList).getLast? = some ' ' := by
  obtain ⟨init, e, rfl⟩ := (List.eq_nil_or_concat' l).resolve_left hl
  simp [labelled]

/-- It ends with a space. So no star of its own can be mistaken for the mark. -/
theorem getLast?_text (p : Program) (g : Image) :
    (p.outcomeOf g).text.toList.getLast? = some ' ' := by
  rw [Outcome.toList_text]
  refine getLast?_labelled _ fun hnil ↦ ?_
  obtain ⟨hmemory, -⟩ := List.append_eq_nil_iff.1 hnil
  rw [List.map_eq_nil_iff, Program.outcomeOf, List.map_eq_nil_iff] at hmemory
  exact names_ne_nil p hmemory

/-- **What an exploration finds can be told apart by line.** -/
theorem readable_findings (h : p.Spaceless) (s : Setting) : Readable (p.findings s).outcomes := by
  have hkeys : ∀ key ∈ (p.findings s).outcomes.keys, ∃ σ, (p.outcomeAfter σ).text = key := by
    intro key hkey
    obtain ⟨σ, hσ⟩ := Program.mem_keys_findings.1 hkey
    exact ⟨σ, hσ.key_eq⟩
  refine ⟨fun key hkey ↦ ?_, fun key hkey ↦ ?_, fun key hkey ↦ ?_, fun x hx t ht ↦ ?_⟩
  · obtain ⟨σ, rfl⟩ := hkeys key hkey
    exact head?_text p _
  · obtain ⟨σ, rfl⟩ := hkeys key hkey
    exact getLast?_text p _
  · obtain ⟨σ, rfl⟩ := hkeys key hkey
    exact oneLine_text h _
  · obtain ⟨σ, hσ, rfl, -⟩ := Program.exists_schedule_of_mem_findings hx
    have hget := hσ.legal.admits.instruction t ht
    exact Instruction.oneLine_render (h.oneLine _ (Program.mem_flatten_of_get? hget))

section Body

variable {S : OutcomeSet Run} {reference : Option (OutcomeSet Run)}

/-- An outcome is marked with a star or not at all. -/
theorem mark_eq_or (reference : Option (OutcomeSet Run)) (key : String) :
    mark reference key = "" ∨ mark reference key = "*" := by
  cases reference with
  | none => exact Or.inl rfl
  | some R =>
    by_cases h : R.contains key = true
    · exact Or.inl (if_pos h)
    · exact Or.inr (if_neg h)

theorem mark_of_mem {R : OutcomeSet Run} (h : key ∈ R.keys) : mark (some R) key = "" :=
  if_pos (OutcomeSet.contains_iff.2 h)

theorem mark_of_not_mem {R : OutcomeSet Run} (h : key ∉ R.keys) : mark (some R) key = "*" :=
  if_neg fun hmem ↦ h (OutcomeSet.contains_iff.1 hmem)

/-- The mark stands behind the outcome. -/
theorem Readable.head?_append_mark (h : Readable S) (hkey : key ∈ S.sorted) :
    (key ++ mark reference key).toList.head? = some '[' := by
  have hhead := h.head key (mem_sort.1 hkey)
  have hne : key.toList ≠ [] := by
    intro hnil
    rw [hnil] at hhead
    cases hhead
  rw [String.toList_append, List.head?_append_of_ne_nil _ hne, hhead]

/-- Lines behind an outcome belong to a witness of the set. -/
theorem mem_of_mem_witnessLines {l : String} (hl : l ∈ witnessLines S witnesses key) :
    ∃ x ∈ S.solutions, l ∈ stepLines x.witness := by
  unfold witnessLines at hl
  split at hl
  · rename_i r hr
    obtain ⟨x, hx, rfl⟩ := OutcomeSet.witness_eq_ok_iff.1 hr
    exact ⟨x, List.mem_of_find?_eq_some hx, hl⟩
  · cases hl

/-- A line below a heading starts with a bracket or a space. -/
theorem Readable.head?_of_mem_body (h : Readable S) {l : String}
    (hl : l ∈ body S reference witnesses) :
    l.toList.head? = some '[' ∨ l.toList.head? = some ' ' := by
  obtain ⟨key, hkey, hl⟩ := List.mem_flatMap.1 hl
  rcases List.mem_cons.1 hl with rfl | hl
  · exact Or.inl (h.head?_append_mark hkey)
  · obtain ⟨x, -, hl⟩ := mem_of_mem_witnessLines hl
    exact Or.inr (head?_of_mem_stepLines hl)

/-- Nothing in a section takes more than one line. -/
theorem Readable.oneLine_of_mem_body (h : Readable S) {l : String}
    (hl : l ∈ body S reference witnesses) : OneLine l := by
  obtain ⟨key, hkey, hl⟩ := List.mem_flatMap.1 hl
  rcases List.mem_cons.1 hl with rfl | hl
  · refine oneLine_append.2 ⟨h.oneLine key (mem_sort.1 hkey), ?_⟩
    rcases mark_eq_or reference key with hmark | hmark
    · rw [hmark]
      decide
    · rw [hmark]
      decide
  · obtain ⟨x, hx, hl⟩ := mem_of_mem_witnessLines hl
    exact oneLine_of_mem_stepLines (h.witness x hx) hl

/-- **The lines that start with a bracket are the keys with their marks**, with or without
witnesses. -/
theorem Readable.outcomeLines_body (h : Readable S) :
    outcomeLines (body S reference witnesses) =
      S.sorted.map fun key ↦ key ++ mark reference key := by
  rw [outcomeLines, body, List.filter_flatMap, List.map_eq_flatMap]
  refine List.flatMap_congr fun key hkey ↦ ?_
  rw [List.filter_cons_of_pos (by rw [h.head?_append_mark hkey]; rfl), List.filter_eq_nil_iff.2]
  intro l hl
  obtain ⟨x, -, hl⟩ := mem_of_mem_witnessLines hl
  rw [head?_of_mem_stepLines hl]
  decide

/-- A key ends with a space, so a star at the end of its line is its mark. -/
theorem Readable.starred_append_mark (h : Readable S) {R : OutcomeSet Run} (hkey : key ∈ S.sorted) :
    starred (key ++ mark (some R) key) = !R.contains key := by
  have hlast := h.last key (mem_sort.1 hkey)
  by_cases hR : R.contains key = true
  · have hmark : mark (some R) key = "" := if_pos hR
    rw [hmark, String.append_empty, starred, hlast, hR]
    decide
  · have hmark : mark (some R) key = "*" := if_neg hR
    rw [hmark, starred, Bool.eq_false_iff.2 hR]
    simp

end Body

/-! ### The lines of the sections -/

/-- **The lines of a report on `c` can be told apart.** -/
structure Clear (c : Comparison) : Prop where
  /-- No variable has a blank in its name. -/
  spaceless : c.program.Spaceless
  /-- The outcomes under IBM370 can be told apart. -/
  first : Readable c.storeAtomic.outcomes
  /-- The outcomes under TSO can be told apart. -/
  second : Readable c.writeAtomic.outcomes

/-- What a search finds can be read off its report, if the variables have no blanks. -/
theorem clear_findings (h : p.Spaceless) (s s' : Setting) :
    Clear ⟨p, p.findings s, p.findings s'⟩ :=
  ⟨h, readable_findings h s, readable_findings h s'⟩

/-- A line without tabs that is above the first heading is one of two. -/
theorem eq_of_mem_top {l : String} (hl : l ∈ top p) (htab : '\t' ∉ l.toList) :
    l = "PROGRAM LOADED:" ∨ l = "" := by
  rw [top, List.cons_append, List.mem_cons, List.mem_append, List.mem_singleton] at hl
  rcases hl with hl | hl | hl
  · exact Or.inl hl
  · exact absurd (tab_mem_of_mem_rows hl) htab
  · exact Or.inr hl

/-- No row of the table is a heading: it would have a tabulator. -/
theorem firstHeading_not_mem_top : firstHeading ∉ top p := by
  intro hmem
  have heq : firstHeading = "PROGRAM LOADED:" ∨ firstHeading = "" :=
    eq_of_mem_top hmem (by decide)
  exact absurd heq (by decide)

theorem secondHeading_not_mem_top : secondHeading ∉ top p := by
  intro hmem
  have heq : secondHeading = "PROGRAM LOADED:" ∨ secondHeading = "" :=
    eq_of_mem_top hmem (by decide)
  exact absurd heq (by decide)

namespace Clear

variable (h : Clear c)
include h

/-- The lines of a report: the table, and a section for each of the searches. -/
theorem splitAtFeeds_comparison (witnesses : Bool) : splitAtFeeds (comparison c witnesses) =
    top c.program ++ firstHeading :: (body c.storeAtomic.outcomes none witnesses ++ [""] ++
      secondHeading :: (body c.writeAtomic.outcomes (some c.storeAtomic.outcomes) witnesses ++
        [""] ++ [""])) := by
  -- every line is one line, so splitting at line feeds gives the same lines back
  have hlines : ∀ l ∈ top c.program ++
      firstHeading :: (body c.storeAtomic.outcomes none witnesses ++ [""] ++ secondHeading ::
        (body c.writeAtomic.outcomes (some c.storeAtomic.outcomes) witnesses ++ [""])),
      OneLine l := by
    intro l hl
    simp only [top, List.mem_append, List.mem_cons, List.not_mem_nil, or_false] at hl
    rcases hl with ((rfl | hl) | rfl) | rfl | (hl | rfl) | rfl | hl | rfl
    · decide
    · exact oneLine_of_mem_rows h.spaceless.oneLine hl
    · decide
    · decide
    · exact h.first.oneLine_of_mem_body hl
    · decide
    · decide
    · exact h.second.oneLine_of_mem_body hl
    · decide
  rw [comparison_eq_unlines, splitAtFeeds_unlines hlines]
  simp

/-- No line of the first section is the second heading. -/
theorem secondHeading_not_mem_body :
    secondHeading ∉ body c.storeAtomic.outcomes none witnesses ++ [""] := by
  intro hmem
  rcases List.mem_append.1 hmem with hmem | hmem
  · have hhead := h.first.head?_of_mem_body hmem
    exact absurd hhead (by decide)
  · exact absurd (List.mem_singleton.1 hmem) (by decide)

/-- So the sections can be cut out of a report by looking for their headings. -/
theorem firstSection_comparison : firstSection (comparison c witnesses) =
    body c.storeAtomic.outcomes none witnesses ++ [""] := by
  rw [firstSection, h.splitAtFeeds_comparison, behind_append_cons firstHeading_not_mem_top,
    takeWhile_append_cons h.secondHeading_not_mem_body]

theorem secondSection_comparison : secondSection (comparison c witnesses) =
    body c.writeAtomic.outcomes (some c.storeAtomic.outcomes) witnesses ++ [""] ++ [""] := by
  have hnot : secondHeading ∉
      top c.program ++ firstHeading :: (body c.storeAtomic.outcomes none witnesses ++ [""]) := by
    rw [List.mem_append, List.mem_cons]
    rintro (hmem | hmem | hmem)
    · exact secondHeading_not_mem_top hmem
    · exact absurd hmem (by decide)
    · exact h.secondHeading_not_mem_body hmem
  rw [secondSection, h.splitAtFeeds_comparison, ← List.cons_append, ← List.append_assoc,
    behind_append_cons hnot]

/-- **The first section lists the keys under IBM370.** -/
theorem outcomeLines_first : outcomeLines (firstSection (comparison c witnesses)) =
    c.storeAtomic.outcomes.sorted := by
  have hempty : outcomeLines [""] = [] := by decide
  rw [h.firstSection_comparison, outcomeLines_append, hempty, List.append_nil,
    h.first.outcomeLines_body]
  exact List.map_id'' (fun key ↦ String.append_empty) _

/-- **The second section lists the keys under TSO with their marks.** -/
theorem outcomeLines_second : outcomeLines (secondSection (comparison c witnesses)) =
    c.writeAtomic.outcomes.sorted.map fun key ↦
      key ++ mark (some c.storeAtomic.outcomes) key := by
  have hempty : outcomeLines [""] = [] := by decide
  rw [h.secondSection_comparison, outcomeLines_append, outcomeLines_append, hempty, List.append_nil,
    List.append_nil, h.second.outcomeLines_body]

/-- The lines of the second section with a star are the violations. -/
theorem filter_starred (htso : c.writeAtomic.outcomes.keys.Nodup) :
    (outcomeLines (secondSection (comparison c witnesses))).filter starred =
      c.violations.map (· ++ "*") := by
  have hkept : (c.writeAtomic.outcomes.sorted.filter fun key ↦
      starred (key ++ mark (some c.storeAtomic.outcomes) key)) = c.violations := by
    rw [Comparison.violations, ← OutcomeSet.filter_sorted_not_contains htso]
    exact List.filter_congr fun key hkey ↦ h.second.starred_append_mark hkey
  rw [h.outcomeLines_second, List.filter_map, Function.comp_def, hkept]
  refine List.map_congr_left fun key hkey ↦ ?_
  rw [mark_of_not_mem (Comparison.mem_violations.1 hkey).2]

/-- The lines of the second section without a star are the keys under IBM370, if TSO allows these
too. -/
theorem filter_not_starred (hibm370 : c.storeAtomic.outcomes.keys.Nodup)
    (htso : c.writeAtomic.outcomes.keys.Nodup)
    (hsub : ∀ key ∈ c.storeAtomic.outcomes.keys, key ∈ c.writeAtomic.outcomes.keys) :
    (outcomeLines (secondSection (comparison c witnesses))).filter (!starred ·) =
      c.storeAtomic.outcomes.sorted := by
  have hkept : (c.writeAtomic.outcomes.sorted.filter fun key ↦
      !starred (key ++ mark (some c.storeAtomic.outcomes) key)) =
        c.storeAtomic.outcomes.sorted := by
    rw [← OutcomeSet.filter_sorted_contains htso hibm370 hsub]
    refine List.filter_congr fun key hkey ↦ ?_
    rw [h.second.starred_append_mark hkey, Bool.not_not]
  rw [h.outcomeLines_second, List.filter_map, Function.comp_def, hkept]
  refine (List.map_congr_left fun key hkey ↦ ?_).trans (List.map_id _)
  rw [mark_of_mem (mem_sort.1 hkey), String.append_empty, id]

end Clear

/-! ### What the sections list -/

/-- **A report on `c` marks what breaks store atomicity**: the lines of its first section are the
keys that IBM370 allows, those of its second section the keys that TSO allows, both in the order of
their code points, and in the second one a star is behind the violations and behind nothing else. -/
structure Marks (c : Comparison) (report : String) : Prop where
  /-- The first section lists the keys that IBM370 allows. -/
  first : c.storeAtomic.outcomes.Lists (outcomeLines (firstSection report))
  /-- The second section lists the keys that TSO allows, with a star behind each violation. -/
  second : ∃ keys, c.writeAtomic.outcomes.Lists keys ∧ outcomeLines (secondSection report) =
    keys.map fun key ↦ if key ∈ c.violations then key ++ "*" else key
  /-- The lines of the second section without a star are those of the first. -/
  unstarred : (outcomeLines (secondSection report)).filter (!starred ·) =
    outcomeLines (firstSection report)
  /-- The lines with a star are the violations in the order of their code points. -/
  violations : (outcomeLines (secondSection report)).filter starred = c.violations.map (· ++ "*")

/-- **The stars are right** in a comparison of a program without blanks in its names. That the lines
without one make up the first section is the inclusion of the models. -/
theorem marks_comparison (h : p.Spaceless) (b witnesses : Bool) :
    let c : Comparison := ⟨p, p.findings ⟨.ibm370, false⟩, p.findings ⟨.tso, b⟩⟩
    Marks c (comparison c witnesses) := by
  intro c
  have hclear : Clear c := clear_findings h _ _
  have hibm370 : c.storeAtomic.outcomes.keys.Nodup := Program.nodup_keys_findings _ _
  have htso : c.writeAtomic.outcomes.keys.Nodup := Program.nodup_keys_findings _ _
  -- whatever IBM 370 allows is found under TSO, too
  have hsub : ∀ key ∈ c.storeAtomic.outcomes.keys, key ∈ c.writeAtomic.outcomes.keys :=
    fun key ↦ Program.keys_findings_mono fun done m ↦ Program.mem_moves_tso
  refine ⟨?_, ⟨_, OutcomeSet.lists_sorted htso, ?_⟩, ?_, hclear.filter_starred htso⟩
  · rw [hclear.outcomeLines_first]
    exact OutcomeSet.lists_sorted hibm370
  · rw [hclear.outcomeLines_second]
    refine List.map_congr_left fun key hkey ↦ ?_
    by_cases hmem : key ∈ c.storeAtomic.outcomes.keys
    · rw [if_neg fun hnot ↦ (Comparison.mem_violations.1 hnot).2 hmem, mark_of_mem hmem,
        String.append_empty]
    · rw [if_pos (Comparison.mem_violations.2 ⟨mem_sort.1 hkey, hmem⟩), mark_of_not_mem hmem]
  · rw [hclear.filter_not_starred hibm370 htso hsub, hclear.outcomeLines_first]

/-- The lines of the sections are as many as the outcomes, and those with a star as many as the
violations. -/
theorem length_outcomeLines (h : p.Spaceless) (b witnesses : Bool) :
    let c : Comparison := ⟨p, p.findings ⟨.ibm370, false⟩, p.findings ⟨.tso, b⟩⟩
    (outcomeLines (firstSection (comparison c witnesses))).length = c.storeAtomic.outcomes.size ∧
    (outcomeLines (secondSection (comparison c witnesses))).length = c.writeAtomic.outcomes.size ∧
    ((outcomeLines (secondSection (comparison c witnesses))).filter starred).length =
      c.violations.length := by
  intro c
  have hclear : Clear c := clear_findings h _ _
  refine ⟨?_, ?_, ?_⟩
  · rw [hclear.outcomeLines_first, OutcomeSet.length_sorted]
  · rw [hclear.outcomeLines_second, List.length_map, OutcomeSet.length_sorted]
  · rw [hclear.filter_starred (Program.nodup_keys_findings _ _), List.length_map]

/-- **The stars are right.** A program that was read from lines can be compared within the limits it
was read with, and within any others that it meets. The sections of the report on it list what the
models allow in the order of the code points, and a star is behind the violations and behind nothing
else. What the sections list does not depend on whether the witnesses are shown. -/
theorem comparison_marks (lines : List (List Char)) (limits : Limits) (p : Program)
    (h : Program.ofLines lines limits = .ok p) (around : Bool) :
    p.check limits = .ok () ∧
    ∀ limits', p.check limits' = .ok () → ∃ c, p.compare limits' around = .ok c ∧
      (∀ witnesses, Marks c (comparison c witnesses)) ∧
      outcomeLines (firstSection (comparison c true)) =
        outcomeLines (firstSection (comparison c false)) ∧
      outcomeLines (secondSection (comparison c true)) =
        outcomeLines (secondSection (comparison c false)) := by
  have hspaceless : p.Spaceless := Program.spaceless_of_ofLines h
  have hfit : p.storesFit = true := Program.storesFit_of_ofLines h
  obtain ⟨-, -, -, hcheck⟩ := Program.ofLines_eq_ok_iff.1 h
  refine ⟨hcheck, fun limits' hc ↦ ⟨_, Program.compare_of_storesFit hc hfit around,
    marks_comparison hspaceless around, ?_⟩⟩
  have hclear := clear_findings hspaceless ⟨.ibm370, false⟩ ⟨.tso, around⟩
  exact ⟨hclear.outcomeLines_first.trans hclear.outcomeLines_first.symm,
    hclear.outcomeLines_second.trans hclear.outcomeLines_second.symm⟩

/-- Threads that forward a store, on lines that were given one by one: the first has a line feed
inside. -/
theorem storeForwarding_marks :
    let lines := ["st\nx 1", "ld x", "ld y # two", "---", "st y 2", "st x 2"].map String.toList
    Program.ofLines lines .standard = .ok Program.storeForwarding ∧
      ∃ c, Program.storeForwarding.compare .standard true = .ok c ∧
        ∀ witnesses, Marks c (comparison c witnesses) := by
  intro lines
  have hread : Program.ofLines lines .standard = .ok Program.storeForwarding := by decide
  obtain ⟨hcheck, hcompare⟩ := comparison_marks lines .standard _ hread true
  obtain ⟨c, hc, hmarks, -⟩ := hcompare .standard hcheck
  exact ⟨hread, c, hc, hmarks⟩

end Report

end Litmus
