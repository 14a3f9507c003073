import Litmus.Proofs.Image
import Litmus.Proofs.Reading

/-!
# Printed programs are read back

A program is printed as a text with one instruction to a line and a separator after each thread
(`Program.listing`). It is read back from this text if its variables have plain names and its values
are within the limit on numerals (`Program.Legible`), empty threads included: each thread has a
separator of its own, so the segment after the last one is empty and counts for nothing.

Every program that was read from a text is legible, whatever the blanks, comments, signs and digits
of the text (`Program.legible_of_read`). So reading is undone by printing on all programs that come
of it.
-/

namespace Litmus

open Listing

variable {c : Char} {cs : List (List Char)} {i : Instruction} {th : List Instruction}
  {ths : List (List Instruction)} {p : Program} {limits : Limits} {text : String}

/-! ### Instructions -/

theorem Text.not_isBlank_of_isDigit (h : c.isDigit = true) : isBlank c = false := by
  have hrange : 48 ≤ c.toNat ∧ c.toNat ≤ 57 := by
    simpa [Char.isDigit, UInt32.le_iff_toNat_le] using h
  rw [isBlank, isLineEnd, Bool.eq_false_iff]
  simp only [ne_eq, Bool.or_eq_true, Bool.and_eq_true, decide_eq_true_eq, beq_iff_eq]
  omega

/-- A numeral that is written is a plain word. -/
theorem Numeral.plain_write (v : ℤ) : Plain (write v).toList := by
  refine ⟨(spells_write v).ne_nil, fun c hc ↦ ?_, fun hc ↦ ?_, fun hc ↦ ?_⟩
  · rcases eq_minus_or_isDigit_of_mem_write hc with rfl | hdigit
    · decide
    · exact Text.not_isBlank_of_isDigit hdigit
  · exact absurd (eq_minus_or_isDigit_of_mem_write hc) (by decide)
  · exact absurd (eq_minus_or_isDigit_of_mem_write hc) (by decide)

namespace Instruction

/-- Instructions are written as the grammar of listings has them. -/
theorem toList_render_load (x : String) : (load x).render.toList = loadLine x.toList := by
  rw [render, String.toList_append]
  rfl

theorem toList_render_store (x : String) (v : ℤ) :
    (store x v).render.toList = storeLine x.toList (Numeral.write v).toList := by
  rw [render, String.toList_append, String.toList_append, String.toList_append, storeLine]
  simp

/-- **The text of an instruction holds the instruction.** -/
theorem holds_render (hplain : Plain i.name.toList) (hfits : i.value?.all Numeral.fits = true) :
    Holds i.render.toList i := by
  cases i with
  | load x =>
    have hx : Plain x.toList := hplain
    have hwritten := Written.load x.toList
    rw [String.ofList_toList] at hwritten
    refine ⟨0, Nat.zero_le _, ?_⟩
    rw [toList_render_load, tokens_loadLine hx]
    exact hwritten
  | store x v =>
    have hx : Plain x.toList := hplain
    have hwritten := Written.store x.toList (Numeral.spells_write v)
    rw [String.ofList_toList] at hwritten
    refine ⟨Numeral.digitCount v, of_decide_eq_true hfits, ?_⟩
    rw [toList_render_store, tokens_storeLine hx (Numeral.plain_write v)]
    exact hwritten

/-- An instruction with a plain variable is written without a comment and within a line. -/
theorem clean_render (h : Plain i.name.toList) : Clean i.render.toList := by
  cases i with
  | load x =>
    rw [toList_render_load]
    exact clean_loadLine h
  | store x v =>
    rw [toList_render_store]
    exact clean_storeLine h (Numeral.plain_write v)

/-- So nothing is cut off when it is read again. -/
theorem content_render (h : Plain i.name.toList) : content i.render.toList = i.render.toList := by
  cases i with
  | load x =>
    rw [toList_render_load]
    exact content_loadLine h
  | store x v =>
    rw [toList_render_store]
    exact content_storeLine h (Numeral.plain_write v)

theorem name_mem_tokens_of_holds {line : List Char} (h : Holds line i) :
    i.name.toList ∈ tokens line := by
  obtain ⟨k, -, hwritten⟩ := h
  generalize tokens line = words at hwritten
  cases hwritten with
  | load x => simp [name]
  | store x hvalue => simp [name]

/-- What was read from a line has no more digits than can be read. -/
theorem fits_of_holds {line : List Char} (h : Holds line i) :
    i.value?.all Numeral.fits = true := by
  obtain ⟨k, hk, hwritten⟩ := h
  generalize tokens line = words at hwritten
  cases hwritten with
  | load x => rfl
  | store x hvalue => exact decide_eq_true (hvalue.digitCount_le.trans hk)

end Instruction

/-! ### Threads -/

/-- The lines of printed threads: one for each instruction, and a separator after each thread. -/
def Listing.printed (ths : List (List Instruction)) : List (List Char) :=
  ths.flatMap fun th ↦ th.map (fun i ↦ i.render.toList) ++ [separator]

namespace Listing

/-- A listing consists of instructions and separators. -/
theorem mem_printed {line : List Char} (h : line ∈ printed ths) :
    line = separator ∨ ∃ i ∈ ths.flatten, line = i.render.toList := by
  obtain ⟨th, hth, hline⟩ := List.mem_flatMap.1 h
  rcases List.mem_append.1 hline with hline | hline
  · obtain ⟨i, hi, rfl⟩ := List.mem_map.1 hline
    exact Or.inr ⟨i, List.mem_flatten.2 ⟨th, hth, hi⟩, rfl⟩
  · exact Or.inl (List.mem_singleton.1 hline)

/-- The instructions of a thread and a separator behind them describe this thread. -/
theorem describes_printed_thread (hth : ∀ i ∈ th, Holds i.render.toList i)
    (hcs : Describes cs ths) :
    Describes (th.map (fun i ↦ i.render.toList) ++ separator :: cs) (th :: ths) := by
  induction th with
  | nil => exact describes_separator_cons.2 ⟨ths, hcs, rfl⟩
  | cons i th ih =>
    obtain ⟨hi, hth⟩ := List.forall_mem_cons.1 hth
    exact (describes_cons hi.ne_nil hi.ne_separator).2 ⟨i, th, ths, hi, ih hth, rfl⟩

/-- **Printed threads describe the threads.** The segment after the last separator is empty. -/
theorem describes_printed (h : ∀ i ∈ ths.flatten, Holds i.render.toList i) :
    Describes (printed ths) (ths ++ [[]]) := by
  induction ths with
  | nil => exact describes_nil.2 rfl
  | cons th ths ih =>
    rw [List.flatten_cons, List.forall_mem_append] at h
    rw [printed, List.flatMap_cons, List.append_assoc, List.singleton_append, List.cons_append]
    exact describes_printed_thread h.1 (ih h.2)

/-- The thread that is begun by the last separator is left out. -/
theorem finish_append_nil (ths : List (List Instruction)) : finish (ths ++ [[]]) = ths := by
  rw [finish, if_pos List.getLast?_concat, List.dropLast_concat]

end Listing

/-! ### Programs -/

namespace Program

/-- **The text of a program**, one instruction to a line and with a separator after each thread. -/
def listing (p : Program) : String :=
  String.ofList ((printed p.threads).flatMap fun line ↦ line ++ ['\n'])

/-- **A program that can be read from its text**: the names of its variables are plain words, and
its values are within the limit on numerals. -/
structure Legible (p : Program) : Prop where
  /-- The names are plain. -/
  plain : ∀ i ∈ p.threads.flatten, Plain i.name.toList
  /-- The values are within the limit. -/
  storesFit : p.storesFit = true

/-- A listing has the lines that it is made of: no variable has a comment or the end of a line in
it. -/
theorem contents_listing (h : p.Legible) : contents p.listing = printed p.threads := by
  have hseparator : Plain separator := by decide
  have hclean : ∀ line ∈ printed p.threads, Clean line ∧ content line = line := by
    intro line hline
    rcases mem_printed hline with rfl | ⟨i, hi, rfl⟩
    · exact ⟨hseparator.clean, rfl⟩
    · exact ⟨Instruction.clean_render (h.plain i hi), Instruction.content_render (h.plain i hi)⟩
  have hlines : Text.lines p.listing.toList = printed p.threads := by
    rw [listing, String.toList_ofList]
    exact Text.lines_flatMap fun line hline c hc ↦ ((hclean line hline).1 c hc).1
  rw [← map_content_lines, hlines, List.map_congr_left fun line hline ↦ (hclean line hline).2,
    List.map_id']

/-- **Reading a listing gives back the program.** -/
theorem read_listing_of_legible (hc : p.check limits = .ok ()) (h : p.Legible) :
    read p.listing limits = .ok p := by
  have hholds : ∀ i ∈ p.threads.flatten, Holds i.render.toList i := fun i hi ↦
    Instruction.holds_render (h.plain i hi) (List.all_eq_true.1 h.storesFit i hi)
  refine read_eq_ok_iff.2 ⟨p.threads ++ [[]], ?_, (finish_append_nil p.threads).symm, hc⟩
  rw [contents_listing h]
  exact describes_printed hholds

/-- Every instruction of a program that was read from lines stands on one of them. -/
theorem exists_holds_of_ofLines {raws : List (List Char)} {i : Instruction}
    (h : ofLines raws limits = .ok p) (hi : i ∈ p.threads.flatten) :
    ∃ raw ∈ raws, Holds (content raw) i := by
  obtain ⟨ths, hths, hp, -⟩ := ofLines_eq_ok_iff.1 h
  rw [hp, flatten_finish, hths.mem_flatten_iff] at hi
  obtain ⟨line, hline, hholds⟩ := hi
  obtain ⟨raw, hraw, rfl⟩ := List.mem_map.1 hline
  exact ⟨raw, hraw, hholds⟩

/-- No program that has been read stores anything too long to be written. -/
theorem storesFit_of_ofLines {raws : List (List Char)} (h : ofLines raws limits = .ok p) :
    p.storesFit = true := by
  refine List.all_eq_true.2 fun i hi ↦ ?_
  obtain ⟨raw, -, hholds⟩ := exists_holds_of_ofLines h hi
  exact Instruction.fits_of_holds hholds

/-- **Every program that was read is legible.** -/
theorem legible_of_read (h : read text limits = .ok p) : p.Legible := by
  refine ⟨fun i hi ↦ ?_, storesFit_of_ofLines h⟩
  obtain ⟨raw, hraw, hholds⟩ := exists_holds_of_ofLines h hi
  have hcontent : content raw ∈ contents text := by
    rw [← map_content_lines]
    exact List.mem_map_of_mem hraw
  exact plain_of_mem_tokens (hash_not_mem_contents hcontent)
    (Instruction.name_mem_tokens_of_holds hholds)

/-- **Printing and reading undo each other.** A legible program within the limits is read back from
its text, and every program that was read from some text is legible and within the limits, so it is
read again from its own text. -/
theorem read_listing (limits : Limits) :
    (∀ p : Program, p.check limits = .ok () → p.Legible → read p.listing limits = .ok p) ∧
    (∀ text p, read text limits = .ok p → p.check limits = .ok () ∧ p.Legible) ∧
    (∀ text p, read text limits = .ok p → read p.listing limits = .ok p) := by
  have hwithin : ∀ text p, read text limits = .ok p → p.check limits = .ok () ∧ p.Legible := by
    intro text p h
    obtain ⟨-, -, -, hcheck⟩ := read_eq_ok_iff.1 h
    exact ⟨hcheck, legible_of_read h⟩
  refine ⟨fun p ↦ read_listing_of_legible, hwithin, fun text p h ↦ ?_⟩
  obtain ⟨hcheck, hlegible⟩ := hwithin text p h
  exact read_listing_of_legible hcheck hlegible

/-- Three threads, the second of them empty. -/
def emptyThread : Program := ⟨[[.store "x" 1, .load "y"], [], [.store "y" (-2)]], by decide⟩

theorem emptyThread_listing :
    emptyThread.check .standard = .ok () ∧ emptyThread.Legible ∧
    read emptyThread.listing .standard = .ok emptyThread ∧
    read "\tst x +01 # one\n\nld,y\r\n---\n --- # nothing\nst y -2" .standard =
      .ok emptyThread := by
  have hread : read "\tst x +01 # one\n\nld,y\r\n---\n --- # nothing\nst y -2" .standard =
      .ok emptyThread := by decide
  obtain ⟨hcheck, hlegible⟩ := (read_listing .standard).2.1 _ _ hread
  exact ⟨hcheck, hlegible, (read_listing .standard).1 _ hcheck hlegible, hread⟩

end Program

end Litmus
