import Litmus.Proofs.Reporting

/-!
# The table tells the program

A report shows its program as a table: the threads stand side by side, and each row has one place of
all threads. Different programs have different tables (`Report.table_eq_iff`), also if they differ
only in threads that are empty or end early.

* An instruction is told by its text (`Instruction.render_injective`). A numeral has no comma, so
  the value of a store is what stands behind the last one, whatever the name holds.
* A row is told by its text (`Report.eq_of_flatMap_cellText`). A cell that starts with a tab is an
  empty one, and any other cell goes on until its first tab, so it is known where a cell ends. This
  needs names without tabs.
* Where no name has a line feed, the table falls into its rows. As the rows go down to the end of
  the longest thread, they have all that there is in the threads (`Report.eq_of_columns`).
-/

namespace Litmus

open Text Listing

/-! ### Instructions -/

namespace Instruction

variable {i : Instruction}

/-- **An instruction is told by its text.** -/
theorem render_injective : Function.Injective render := by
  intro i j h
  have htext : i.render.toList = j.render.toList := congrArg String.toList h
  cases i with
  | load x =>
    cases j with
    | load y =>
      rw [toList_render_load, toList_render_load, loadLine, loadLine] at htext
      have hname : x.toList = y.toList := (List.cons.inj (List.append_cancel_left htext)).2
      rw [String.toList_injective hname]
    | store y w =>
      rw [toList_render_load, toList_render_store] at htext
      cases (List.cons.inj htext).1
  | store x v =>
    cases j with
    | load y =>
      rw [toList_render_load, toList_render_store] at htext
      cases (List.cons.inj htext).1
    | store y w =>
      rw [toList_render_store, toList_render_store, storeLine, storeLine] at htext
      have hrest := (List.cons.inj (List.append_cancel_left htext)).2
      -- the names may hold commas, so the text has to be cut at the last one
      have hcomma : ∀ u : ℤ, ',' ∉ ' ' :: (Numeral.write u).toList := fun u ↦
        List.not_mem_cons_of_ne_of_not_mem (by decide)
          (Numeral.not_mem_write (by decide) (by decide) u)
      obtain ⟨hname, hvalue⟩ := append_cons_inj_of_not_mem_right (hcomma v) (hcomma w) hrest
      rw [String.toList_injective hname,
        Numeral.write_injective (String.toList_injective (List.cons.inj hvalue).2)]

theorem render_ne_nil (i : Instruction) : i.render.toList ≠ [] := by
  cases i with
  | load x =>
    rw [toList_render_load]
    exact List.cons_ne_nil _ _
  | store x v =>
    rw [toList_render_store]
    exact List.cons_ne_nil _ _

/-- An instruction has no tabulator, if its variable has none. -/
theorem tab_not_mem_render (h : '\t' ∉ i.name.toList) : '\t' ∉ i.render.toList := by
  cases i with
  | load x =>
    have hname : '\t' ∉ x.toList := h
    rw [toList_render_load, loadLine]
    simpa using hname
  | store x v =>
    have hvalue : '\t' ∉ (Numeral.write v).toList :=
      Numeral.not_mem_write (by decide) (by decide) v
    have hname : '\t' ∉ x.toList := h
    rw [toList_render_store, storeLine]
    simpa [hvalue] using hname

end Instruction

namespace Report

variable {p p' : Program} {o o' : Option Instruction} {l l' : List (Option Instruction)}
  {u v : List Char}

/-! ### Rows -/

/-- The text of a cell with an instruction in it, or with none. -/
def cellText : Option Instruction → List Char
  | some i => i.render.toList ++ ['\t', '\t']
  | none => ['\t', '\t', '\t']

theorem toList_cell (th : List Instruction) (row : ℕ) :
    (cell th row).toList = cellText th[row]? := by
  rw [cell]
  cases th[row]? with
  | none => rfl
  | some i => exact String.toList_append

/-- **It is known where a cell ends.** -/
theorem cellText_append_inj (ho : ∀ i ∈ o, '\t' ∉ i.name.toList)
    (ho' : ∀ i ∈ o', '\t' ∉ i.name.toList) (h : cellText o ++ u = cellText o' ++ v) :
    o = o' ∧ u = v := by
  -- the text of an instruction does not start with a tab, as an empty cell does
  have hstart : ∀ (i : Instruction) (u v : List Char), '\t' ∉ i.name.toList →
      cellText (some i) ++ u ≠ '\t' :: v := by
    intro i u v hname heq
    obtain ⟨c, rest, hrender⟩ := List.exists_cons_of_ne_nil i.render_ne_nil
    rw [cellText, hrender] at heq
    obtain ⟨rfl, -⟩ := List.cons.inj heq
    exact Instruction.tab_not_mem_render hname (hrender ▸ List.mem_cons_self)
  cases o with
  | none =>
    cases o' with
    | none => exact ⟨rfl, List.append_cancel_left h⟩
    | some j => exact absurd h.symm (hstart j v _ (ho' j rfl))
  | some i =>
    cases o' with
    | none => exact absurd h (hstart i u _ (ho i rfl))
    | some j =>
      rw [cellText, cellText, List.append_assoc, List.append_assoc] at h
      obtain ⟨htext, hrest⟩ := append_cons_inj_of_not_mem
        (Instruction.tab_not_mem_render (ho i rfl)) (Instruction.tab_not_mem_render (ho' j rfl)) h
      rw [Instruction.render_injective (String.toList_injective htext)]
      exact ⟨rfl, (List.cons.inj hrest).2⟩

/-- **A row is told by its text.** -/
theorem eq_of_flatMap_cellText (hl : ∀ o ∈ l, ∀ i ∈ o, '\t' ∉ i.name.toList)
    (hl' : ∀ o ∈ l', ∀ i ∈ o, '\t' ∉ i.name.toList)
    (h : l.flatMap cellText = l'.flatMap cellText) : l = l' := by
  -- no cell is empty, so neither list can end before the other
  have hne : ∀ o, cellText o ≠ [] := by
    rintro (_ | i)
    · exact List.cons_ne_nil _ _
    · exact List.append_ne_nil_of_left_ne_nil i.render_ne_nil _
  induction l generalizing l' with
  | nil =>
    cases l' with
    | nil => rfl
    | cons o' l' =>
      rw [List.flatMap_nil, List.flatMap_cons] at h
      exact absurd (List.append_eq_nil_iff.1 h.symm).1 (hne o')
  | cons o l ih =>
    cases l' with
    | nil =>
      rw [List.flatMap_nil, List.flatMap_cons] at h
      exact absurd (List.append_eq_nil_iff.1 h).1 (hne o)
    | cons o' l' =>
      obtain ⟨ho, htail⟩ := List.forall_mem_cons.1 hl
      obtain ⟨ho', htail'⟩ := List.forall_mem_cons.1 hl'
      rw [List.flatMap_cons, List.flatMap_cons] at h
      obtain ⟨hcell, hrest⟩ := cellText_append_inj ho ho' h
      rw [hcell, ih htail htail' hrest]

/-! ### Tables -/

/-- Lists of threads are equal if they agree at all places down to the end of the longest thread. -/
theorem eq_of_columns {α : Type} {ths ths' : List (List α)} {n : ℕ} (hn : 0 < n)
    (hths : ∀ th ∈ ths, th.length ≤ n) (hths' : ∀ th ∈ ths', th.length ≤ n)
    (h : ∀ row < n, (ths.map fun th ↦ th[row]?) = ths'.map fun th ↦ th[row]?) : ths = ths' := by
  induction ths generalizing ths' with
  | nil => exact (List.map_eq_nil_iff.1 (h 0 hn).symm).symm
  | cons th ths ih =>
    obtain ⟨th', rest, rfl, -, -⟩ := List.map_eq_cons_iff.1 (h 0 hn).symm
    obtain ⟨hth, hths⟩ := List.forall_mem_cons.1 hths
    obtain ⟨hth', hths'⟩ := List.forall_mem_cons.1 hths'
    have hsame : th = th' := by
      refine List.ext_getElem? fun row ↦ ?_
      by_cases hrow : row < n
      · exact (List.cons.inj (h row hrow)).1
      · -- below the table both threads have ended
        rw [List.getElem?_eq_none (by omega), List.getElem?_eq_none (by omega)]
    rw [hsame, ih hths hths' fun row hrow ↦ (List.cons.inj (h row hrow)).2]

/-- **The names of the program can stand in a cell**: none of them has a tab or a line feed. -/
def FitsCells (p : Program) : Prop :=
  ∀ i ∈ p.threads.flatten, '\t' ∉ i.name.toList ∧ OneLine i.name

instance (p : Program) : Decidable (FitsCells p) :=
  inferInstanceAs (Decidable (∀ i ∈ p.threads.flatten, '\t' ∉ i.name.toList ∧ OneLine i.name))

theorem FitsCells.tabless (h : FitsCells p) (row : ℕ) :
    ∀ o ∈ p.threads.map (·[row]?), ∀ i ∈ o, '\t' ∉ i.name.toList := by
  intro o ho i hi
  obtain ⟨th, hth, rfl⟩ := List.mem_map.1 ho
  exact (h i (List.mem_flatten_of_mem hth (List.mem_of_getElem? hi))).1

/-- The lines of the table are its rows. -/
theorem FitsCells.splitAtFeeds_table (h : FitsCells p) :
    splitAtFeeds (table p) = rows p ++ [""] := by
  rw [table_eq_unlines]
  exact splitAtFeeds_unlines fun l hl ↦ oneLine_of_mem_rows (fun i hi ↦ (h i hi).2) hl

/-- A row consists of its cells. -/
theorem toList_row (p : Program) (row : ℕ) :
    (String.join (p.threads.map fun th ↦ cell th row)).toList =
      (p.threads.map (·[row]?)).flatMap cellText := by
  rw [String.toList_join, List.flatMap_map, List.flatMap_map]
  exact List.flatMap_congr fun th _ ↦ toList_cell th row

/-- The rows of a table determine the places of its threads. -/
theorem columns_eq_of_rows_eq (h : FitsCells p) (h' : FitsCells p') (hrows : rows p = rows p') :
    p.longest = p'.longest ∧
      ∀ row < p.longest, p.threads.map (·[row]?) = p'.threads.map (·[row]?) := by
  have hlen : p.longest = p'.longest := by
    simpa [rows] using congrArg List.length hrows
  refine ⟨hlen, fun row hrow ↦ ?_⟩
  rw [rows, rows, ← hlen] at hrows
  have hrow := (List.map_inj_left.1 hrows) row (List.mem_range.2 hrow)
  refine eq_of_flatMap_cellText (h.tabless row) (h'.tabless row) ?_
  rw [← toList_row, ← toList_row, hrow]

/-- **The table tells the program.** If the names of two programs hold no tabs and no line feeds,
the programs have the same table only if they are the same, with the same threads, empty ones
included, and the same instructions in each of them. -/
theorem table_eq_iff (p p' : Program) (h : FitsCells p) (h' : FitsCells p') :
    table p = table p' ↔ p = p' := by
  refine ⟨fun htable ↦ ?_, fun heq ↦ by rw [heq]⟩
  have hrows : rows p = rows p' := by
    have hsplit := congrArg splitAtFeeds htable
    rw [h.splitAtFeeds_table, h'.splitAtFeeds_table] at hsplit
    exact List.append_cancel_right hsplit
  obtain ⟨hlongest, hcolumns⟩ := columns_eq_of_rows_eq h h' hrows
  have hthreads : p.threads = p'.threads :=
    eq_of_columns (longest_pos p) (fun _ hth ↦ length_le_longest hth)
      (fun _ hth ↦ hlongest ▸ length_le_longest hth) hcolumns
  obtain ⟨ths, hne⟩ := p
  obtain ⟨ths', hne'⟩ := p'
  obtain rfl : ths = ths' := hthreads
  rfl

/-- An empty thread at the end makes a difference. -/
theorem table_ne_of_empty_thread :
    FitsCells ⟨[[.load "x, 1"], []], List.cons_ne_nil _ _⟩ ∧
      FitsCells ⟨[[.load "x, 1"]], List.cons_ne_nil _ _⟩ ∧
      table ⟨[[.load "x, 1"], []], List.cons_ne_nil _ _⟩ ≠
        table ⟨[[.load "x, 1"]], List.cons_ne_nil _ _⟩ := by
  have h : FitsCells ⟨[[.load "x, 1"], []], List.cons_ne_nil _ _⟩ := by decide
  have h' : FitsCells ⟨[[.load "x, 1"]], List.cons_ne_nil _ _⟩ := by decide
  exact ⟨h, h', mt (table_eq_iff _ _ h h').1 (by decide)⟩

-- a name with tabs looks like two cells
example : table ⟨[[.load "x\t\tld y"]], List.cons_ne_nil _ _⟩ =
    table ⟨[[.load "x"], [.load "y"]], List.cons_ne_nil _ _⟩ := by decide

end Report

end Litmus
