import Litmus.Listing
import Litmus.Proofs.Numerals
import Litmus.Proofs.Words
import Mathlib.Data.List.Forall2
import Mathlib.Data.List.TakeWhile

/-!
# The grammar of program texts

Which texts are programs, apart from how they are read. What counts of a line is what stands before
its comment, without the blanks around it (`Listing.contents`). Such a line is empty, or the
separator, or it holds an instruction (`Listing.Holds`), or it is bad (`Listing.Bad`).

Lines without a bad one describe threads, one for each segment between separators
(`Listing.Describes`), in one way only (`Listing.Describes.unique`). A last segment without
instructions is no thread (`Listing.finish`).
-/

namespace Litmus

variable {line raw c w x value : List Char} {d : Char} {cs : List (List Char)} {k : ℕ}
  {number : Option Int} {i j : Instruction} {ths ths' : List (List Instruction)} {cause : LineFault}

/-! ### The grammar of a line -/

/-- **The words are those of the instruction `i`**: a load, or a store with `k` digits. -/
inductive Instruction.Written : (words : List (List Char)) → (k : ℕ) → (i : Instruction) → Prop
  /-- `ld` and a variable. -/
  | load (x : List Char) : Written [['l', 'd'], x] 0 (.load (String.ofList x))
  /-- `st`, a variable and a numeral. -/
  | store (x : List Char) {value : List Char} {k : ℕ} {v : ℤ} (h : Numeral.Spells value k v) :
    Written [['s', 't'], x, value] k (.store (String.ofList x) v)

namespace Listing

/-- The words on a line, in which commas count as spaces. -/
def tokens (line : List Char) : List (List Char) :=
  Text.words (line.map fun c ↦ if c = ',' then ' ' else c)

/-- The line holds the instruction `i`. -/
def Holds (line : List Char) (i : Instruction) : Prop :=
  ∃ k ≤ Numeral.limit, i.Written (tokens line) k

/-- The line has the form of an instruction, with a numeral whose `k` digits are too many. -/
def Overlong (line : List Char) (k : ℕ) : Prop :=
  Numeral.limit < k ∧ ∃ i : Instruction, i.Written (tokens line) k

/-- What is wrong with a line that has not the form of an instruction. -/
inductive Malformed (line : List Char) : LineFault → Prop
  /-- There are no words. -/
  | noInstruction (h : tokens line = []) : Malformed line .noInstruction
  /-- A store has not two operands. -/
  | storeOperands {operands : List (List Char)} (h : tokens line = ['s', 't'] :: operands)
    (hlen : operands.length ≠ 2) : Malformed line (.storeOperands (String.ofList (Text.trim line)))
  /-- A store has a second operand that is no numeral. -/
  | storeValue {x value : List Char} (h : tokens line = [['s', 't'], x, value])
    (hvalue : ∀ k v, ¬Numeral.Spells value k v) : Malformed line (.storeValue (String.ofList value))
  /-- A load has not one operand. -/
  | loadOperands {operands : List (List Char)} (h : tokens line = ['l', 'd'] :: operands)
    (hlen : operands.length ≠ 1) : Malformed line (.loadOperands (String.ofList (Text.trim line)))
  /-- The first word is no operation. -/
  | unknownOperation {word : List Char} {operands : List (List Char)}
    (h : tokens line = word :: operands) (hst : word ≠ ['s', 't']) (hld : word ≠ ['l', 'd']) :
    Malformed line (.unknownOperation (String.ofList word))

/-- **A bad line**: it is neither empty nor the separator and holds no instruction. -/
structure Bad (line : List Char) : Prop where
  /-- The line is not empty. -/
  ne_nil : line ≠ []
  /-- The line is not the separator. -/
  ne_separator : line ≠ separator
  /-- The line holds no instruction. -/
  not_holds : ∀ i, ¬Holds line i

/-- A line has the form of an instruction, or something is wrong with it. -/
theorem written_or_malformed (line : List Char) :
    (∃ k, ∃ i : Instruction, i.Written (tokens line) k) ∨ ∃ cause, Malformed line cause := by
  cases hwords : tokens line with
  | nil => exact Or.inr ⟨_, .noInstruction hwords⟩
  | cons word operands =>
    -- the first word decides which operands are expected
    by_cases hst : word = ['s', 't']
    · subst hst
      match operands, hwords with
      | [x, value], hwords =>
        by_cases hvalue : ∃ k v, Numeral.Spells value k v
        · obtain ⟨k, v, hvalue⟩ := hvalue
          exact Or.inl ⟨k, _, .store x hvalue⟩
        · simp only [not_exists] at hvalue
          exact Or.inr ⟨_, .storeValue hwords hvalue⟩
      | [], hwords => exact Or.inr ⟨_, .storeOperands hwords (by simp)⟩
      | [_], hwords => exact Or.inr ⟨_, .storeOperands hwords (by simp)⟩
      | _ :: _ :: _ :: _, hwords => exact Or.inr ⟨_, .storeOperands hwords (by simp)⟩
    · by_cases hld : word = ['l', 'd']
      · subst hld
        match operands, hwords with
        | [x], _ => exact Or.inl ⟨0, _, .load x⟩
        | [], hwords => exact Or.inr ⟨_, .loadOperands hwords (by simp)⟩
        | _ :: _ :: _, hwords => exact Or.inr ⟨_, .loadOperands hwords (by simp)⟩
      · exact Or.inr ⟨_, .unknownOperation hwords hst hld⟩

end Listing

namespace Instruction

open Listing

/-- A line that is written as an instruction is read as it, unless its numeral is too long. -/
theorem read_of_written (h : i.Written (tokens line) k) :
    read line number = if k ≤ Numeral.limit then .ok i else .error (.numeralTooLong k) := by
  generalize hwords : tokens line = words at h
  rw [tokens] at hwords
  cases h with
  | load x =>
    rw [read, hwords]
    rfl
  | store x hvalue =>
    rw [read, hwords]
    simp only [if_true, Numeral.read_of_spells hvalue]
    by_cases hk : k ≤ Numeral.limit
    · rw [if_pos hk, if_pos hk]
    · rw [if_neg hk, if_neg hk]

/-- A malformed line is refused with its number and its cause. -/
theorem read_of_malformed (h : Malformed line cause) :
    read line number = .error (.line number cause) := by
  cases h with
  | noInstruction h =>
    rw [tokens] at h
    rw [read, h]
  | @storeOperands operands h hlen =>
    rw [tokens] at h
    rw [read, h]
    match operands, hlen with
    | [], _ => rfl
    | [_], _ => rfl
    | _ :: _ :: _ :: _, _ => rfl
  | storeValue h hvalue =>
    rw [tokens] at h
    rw [read, h]
    simp only [if_true, Numeral.read_of_not_spells hvalue]
  | @loadOperands operands h hlen =>
    rw [tokens] at h
    rw [read, h]
    match operands, hlen with
    | [], _ => rfl
    | _ :: _ :: _, _ => rfl
  | unknownOperation h hst hld =>
    rw [tokens] at h
    rw [read, h]
    simp only [if_neg hst, if_neg hld]

/-- **The instruction that is read from a line is the one that the line holds.** -/
theorem read_eq_ok_iff : read line number = .ok i ↔ Holds line i := by
  constructor
  · intro h
    rcases written_or_malformed line with ⟨k, j, hwritten⟩ | ⟨cause, hcause⟩
    · rw [read_of_written hwritten] at h
      split at h
      · rename_i hk
        obtain rfl := Except.ok.inj h
        exact ⟨k, hk, hwritten⟩
      · cases h
    · rw [read_of_malformed hcause] at h
      cases h
  · rintro ⟨k, hk, hwritten⟩
    rw [read_of_written hwritten, if_pos hk]

end Instruction

namespace Listing

/-- A line holds one instruction. -/
theorem Holds.unique (h : Holds line i) (h' : Holds line j) : i = j := by
  have hread : Instruction.read line none = .ok i := Instruction.read_eq_ok_iff.2 h
  rw [Instruction.read_eq_ok_iff.2 h'] at hread
  exact (Except.ok.inj hread).symm

theorem Holds.ne_nil (h : Holds line i) : line ≠ [] := by
  rintro rfl
  have hread : Instruction.read [] none = .ok i := Instruction.read_eq_ok_iff.2 h
  cases hread

/-- The line between two threads holds none. -/
theorem Holds.ne_separator (h : Holds line i) : line ≠ separator := by
  rintro rfl
  have hread : Instruction.read separator none = .ok i := Instruction.read_eq_ok_iff.2 h
  cases hread

/-- Every line is of one of four kinds. -/
theorem kinds (line : List Char) :
    line = [] ∨ line = separator ∨ (∃ i, Holds line i) ∨ Bad line := by
  by_cases hnil : line = []
  · exact Or.inl hnil
  · by_cases hsep : line = separator
    · exact Or.inr (Or.inl hsep)
    · by_cases hholds : ∃ i, Holds line i
      · exact Or.inr (Or.inr (Or.inl hholds))
      · exact Or.inr (Or.inr (Or.inr ⟨hnil, hsep, not_exists.1 hholds⟩))

/-- A bad line has not the form of an instruction, or its numeral has too many digits. -/
theorem Bad.malformed_or_overlong (h : Bad line) :
    (∃ cause, Malformed line cause) ∨ ∃ k, Overlong line k := by
  rcases written_or_malformed line with ⟨k, i, hwritten⟩ | hcause
  · refine Or.inr ⟨k, Nat.lt_of_not_le fun hk ↦ ?_, i, hwritten⟩
    exact h.not_holds i ⟨k, hk, hwritten⟩
  · exact Or.inl hcause

/-- A numeral that is too long is refused without the number of its line. -/
theorem Overlong.read_eq (h : Overlong line k) (number : Option Int) :
    Instruction.read line number = .error (.numeralTooLong k) := by
  obtain ⟨hk, i, hwritten⟩ := h
  rw [Instruction.read_of_written hwritten, if_neg (Nat.not_le_of_lt hk)]

/-- It is a line that cannot be read, though it is none of the malformed ones. -/
theorem Overlong.bad (h : Overlong line k) : Bad line := by
  have hread := h.read_eq none
  refine ⟨?_, ?_, fun i hi ↦ ?_⟩
  · rintro rfl
    cases hread
  · rintro rfl
    cases hread
  · rw [Instruction.read_eq_ok_iff.2 hi] at hread
    cases hread

/-! ### Plain words -/

/-- A word that can stand anywhere on a line: it is not empty and holds no blank, comma or `#`. -/
structure Plain (w : List Char) : Prop where
  /-- The word is not empty. -/
  ne_nil : w ≠ []
  /-- The word holds no blank. -/
  not_isBlank : ∀ c ∈ w, Text.isBlank c = false
  /-- The word holds no comma. -/
  comma_not_mem : ',' ∉ w
  /-- The word holds no `#`. -/
  hash_not_mem : '#' ∉ w

/-- That a word is plain can be checked. -/
theorem plain_iff :
    Plain w ↔ w ≠ [] ∧ w.all (!Text.isBlank ·) = true ∧ ',' ∉ w ∧ '#' ∉ w := by
  simp only [List.all_eq_true, Bool.not_eq_true']
  exact ⟨fun h ↦ ⟨h.ne_nil, h.not_isBlank, h.comma_not_mem, h.hash_not_mem⟩,
    fun ⟨hne, hblank, hcomma, hhash⟩ ↦ ⟨hne, hblank, hcomma, hhash⟩⟩

instance (w : List Char) : Decidable (Plain w) := decidable_of_iff _ plain_iff.symm

/-- Nothing in a plain word is taken for a comma. -/
theorem Plain.map_eq (h : Plain w) : (w.map fun c ↦ if c = ',' then ' ' else c) = w := by
  have hkeep : ∀ c ∈ w, (if c = ',' then ' ' else c) = id c := by
    intro c hc
    have hne : c ≠ ',' := by
      rintro rfl
      exact h.comma_not_mem hc
    rw [if_neg hne, id]
  rw [List.map_congr_left hkeep, List.map_id]

/-- A plain word is one token. -/
theorem tokens_of_plain (h : Plain w) : tokens w = [w] := by
  rw [tokens, h.map_eq, Text.words_of_forall h.not_isBlank h.ne_nil]

/-- A plain word ends at a space or a comma. -/
theorem tokens_append_cons (h : Plain w) (hc : d = ' ' ∨ d = ',') (rest : List Char) :
    tokens (w ++ d :: rest) = w :: tokens rest := by
  have hspace : (if d = ',' then ' ' else d) = ' ' := by
    rcases hc with rfl | rfl
    · rfl
    · rfl
  rw [tokens, List.map_append, h.map_eq, List.map_cons, hspace,
    Text.words_append_cons h.not_isBlank h.ne_nil (by decide), tokens]

theorem tokens_space_cons (rest : List Char) : tokens (' ' :: rest) = tokens rest :=
  Text.words_cons_of_isBlank (by decide) _

/-- The words on a line without a comment are plain. -/
theorem plain_of_mem_tokens (hline : '#' ∉ line) (h : w ∈ tokens line) : Plain w := by
  obtain ⟨hne, hblank⟩ := Text.of_mem_words h
  have hmem : ∀ c ∈ w, c ∈ line ∧ c ≠ ',' := by
    intro c hc
    obtain ⟨d, hd, rfl⟩ := List.mem_map.1 (Text.mem_of_mem_words h hc)
    by_cases hcomma : d = ','
    · rw [if_pos hcomma] at hc
      exact absurd (hblank ' ' hc) (by decide)
    · rw [if_neg hcomma]
      exact ⟨hd, hcomma⟩
  exact ⟨hne, hblank, fun hc ↦ (hmem _ hc).2 rfl, fun hc ↦ hline (hmem _ hc).1⟩

/-- The line of a load. -/
def loadLine (x : List Char) : List Char := ['l', 'd'] ++ ' ' :: x

/-- The line of a store. -/
def storeLine (x value : List Char) : List Char := ['s', 't'] ++ ' ' :: (x ++ ',' :: ' ' :: value)

theorem tokens_loadLine (hx : Plain x) : tokens (loadLine x) = [['l', 'd'], x] := by
  rw [loadLine, tokens_append_cons (by decide) (Or.inl rfl), tokens_of_plain hx]

theorem tokens_storeLine (hx : Plain x) (hvalue : Plain value) :
    tokens (storeLine x value) = [['s', 't'], x, value] := by
  rw [storeLine, tokens_append_cons (by decide) (Or.inl rfl), tokens_append_cons hx (Or.inr rfl),
    tokens_space_cons, tokens_of_plain hvalue]

/-- There is nothing to trim from a line that starts and ends with plain words. -/
theorem trim_eq_of_plain {w' rest rest' : List Char} (hw : Plain w) (hw' : Plain w')
    (h : line = w ++ rest) (h' : line = rest' ++ w') : Text.trim line = line := by
  refine Text.trim_eq_self (fun c hc ↦ ?_) (fun c hc ↦ ?_)
  · rw [h, List.head?_append_of_ne_nil _ hw.ne_nil] at hc
    exact hw.not_isBlank c (List.mem_of_mem_head? hc)
  · rw [h', List.getLast?_append_of_ne_nil _ hw'.ne_nil] at hc
    exact hw'.not_isBlank c (List.mem_of_getLast? hc)

/-- A line that holds neither a line end nor a `#`. -/
def Clean (line : List Char) : Prop := ∀ c ∈ line, Text.isLineEnd c = false ∧ c ≠ '#'

theorem Plain.clean (h : Plain w) : Clean w := by
  refine fun c hc ↦ ⟨Bool.eq_false_iff.2 fun hend ↦ ?_, ?_⟩
  · exact Bool.eq_false_iff.1 (h.not_isBlank c hc) (Text.isBlank_of_isLineEnd hend)
  · rintro rfl
    exact h.hash_not_mem hc

theorem Clean.append (h : Clean line) (h' : Clean raw) : Clean (line ++ raw) :=
  List.forall_mem_append.2 ⟨h, h'⟩

theorem Clean.cons (h : Clean line) (hd : Text.isLineEnd d = false ∧ d ≠ '#') :
    Clean (d :: line) :=
  List.forall_mem_cons.2 ⟨hd, h⟩

/-- No line of an instruction with plain words contains a comment or the end of a line. -/
theorem clean_loadLine (hx : Plain x) : Clean (loadLine x) := by
  have hld : Plain ['l', 'd'] := by decide
  exact hld.clean.append (hx.clean.cons (by decide))

theorem clean_storeLine (hx : Plain x) (hvalue : Plain value) : Clean (storeLine x value) := by
  have hst : Plain ['s', 't'] := by decide
  have hrest : Clean (',' :: ' ' :: value) := (hvalue.clean.cons (by decide)).cons (by decide)
  exact hst.clean.append ((hx.clean.append hrest).cons (by decide))

/-! ### The grammar of a text -/

/-- What counts of a line that may hold line feeds. -/
def content (raw : List Char) : List Char := Text.trim (uncomment raw)

/-- What counts of each line of a text: the characters before the first `#`, without the blanks
around them. -/
def contents (text : String) : List (List Char) :=
  (Text.lines text.toList).map fun line ↦ Text.trim (line.takeWhile (· ≠ '#'))

/-- **The lines describe the threads**: there is one for each segment between separators, and its
instructions are those on the lines of the segment that are not empty. -/
def Describes (cs : List (List Char)) (ths : List (List Instruction)) : Prop :=
  List.Forall₂ (fun segment th ↦ List.Forall₂ Holds (segment.filter (· ≠ [])) th)
    (Text.segments (· == separator) cs) ths

/-- Threads without the last one if it is empty. -/
def finish (ths : List (List Instruction)) : List (List Instruction) :=
  if ths.getLast? = some [] then ths.dropLast else ths

/-- In a single line a comment goes up to the end. -/
theorem uncomment_eq_takeWhile (h : '\n' ∉ raw) : uncomment raw = raw.takeWhile (· ≠ '#') := by
  induction raw with
  | nil => rfl
  | cons c raw ih =>
    have hraw : '\n' ∉ raw := fun hmem ↦ h (List.mem_cons_of_mem c hmem)
    have hinner : '\n' ∉ raw.dropLast := fun hmem ↦ hraw (List.dropLast_subset raw hmem)
    rw [uncomment, ih hraw, List.takeWhile_cons]
    by_cases hc : c = '#'
    · simp [hc, hinner]
    · simp [hc]

theorem uncomment_of_clean (h : Clean raw) : uncomment raw = raw := by
  induction raw with
  | nil => rfl
  | cons c raw ih =>
    obtain ⟨⟨-, hc⟩, hraw⟩ := List.forall_mem_cons.1 h
    rw [uncomment, if_neg fun hcomment ↦ hc hcomment.1, ih hraw]

theorem content_loadLine (hx : Plain x) : content (loadLine x) = loadLine x := by
  rw [content, uncomment_of_clean (clean_loadLine hx)]
  exact trim_eq_of_plain (w := ['l', 'd']) (by decide) hx rfl (List.append_cons _ ' ' x)

theorem content_storeLine (hx : Plain x) (hvalue : Plain value) :
    content (storeLine x value) = storeLine x value := by
  have hlast : storeLine x value = ['s', 't'] ++ ' ' :: (x ++ [',', ' ']) ++ value := by
    simp [storeLine]
  rw [content, uncomment_of_clean (clean_storeLine hx hvalue)]
  exact trim_eq_of_plain (w := ['s', 't']) (by decide) hvalue rfl hlast

/-- No line of a text holds a line feed, so its comment starts at the first `#`. -/
theorem map_content_lines (text : String) :
    (Text.lines text.toList).map content = contents text := by
  refine List.map_congr_left fun line hline ↦ ?_
  have hfeed : '\n' ∉ line := fun hmem ↦
    absurd (Text.not_isLineEnd_of_mem_lines hline hmem) (by decide)
  rw [content, uncomment_eq_takeWhile hfeed]

/-- The contents of a text that is one store. -/
theorem contents_storeLine {x value : List Char} (hx : Plain x) (hvalue : Plain value) :
    contents (String.ofList (storeLine x value ++ ['\n'])) = [storeLine x value] := by
  have hlines := Text.lines_append_cons (fun c hc ↦ (clean_storeLine hx hvalue c hc).1) []
  rw [← map_content_lines, String.toList_ofList, hlines, Text.lines, List.map_singleton,
    content_storeLine hx hvalue]

/-- Comments are gone from what is read. -/
theorem hash_not_mem_contents {text : String} (h : line ∈ contents text) : '#' ∉ line := by
  obtain ⟨raw, -, rfl⟩ := List.mem_map.1 h
  intro hmem
  have hbefore := List.mem_takeWhile_imp (Text.mem_of_mem_trim hmem)
  exact absurd hbefore (by decide)

theorem describes_nil : Describes [] ths ↔ ths = [[]] := by
  simp [Describes, Text.segments, List.forall₂_cons_left_iff]

/-- There is always a thread to which the next instruction belongs. -/
theorem Describes.exists_cons (h : Describes cs ths) : ∃ th rest, ths = th :: rest := by
  cases ths with
  | nil => exact absurd (List.forall₂_nil_right_iff.1 h) (Text.segments_ne_nil _ _)
  | cons th rest => exact ⟨th, rest, rfl⟩

/-- A separator begins a thread. -/
theorem describes_separator_cons :
    Describes (separator :: cs) ths ↔ ∃ rest, Describes cs rest ∧ ths = [] :: rest := by
  rw [Describes, Text.segments, if_pos (by simp), List.forall₂_cons_left_iff]
  simp [Describes]

/-- A line that is no separator belongs to the first segment. -/
theorem exists_segments_cons (h : c ≠ separator) (cs : List (List Char)) : ∃ segment rest,
    Text.segments (· == separator) cs = segment :: rest ∧
      Text.segments (· == separator) (c :: cs) = (c :: segment) :: rest := by
  have hne := Text.segments_ne_nil (· == separator) cs
  obtain ⟨segment, rest, hcs⟩ := List.exists_cons_of_ne_nil hne
  refine ⟨segment, rest, hcs, ?_⟩
  rw [Text.segments, if_neg (by simpa using h), hcs]

/-- A blank line says nothing. -/
theorem describes_blank_cons : Describes ([] :: cs) ths ↔ Describes cs ths := by
  obtain ⟨segment, rest, hcs, hcons⟩ := exists_segments_cons (c := []) (by decide) cs
  rw [Describes, Describes, hcs, hcons, List.forall₂_cons_left_iff, List.forall₂_cons_left_iff]
  simp

/-- Any other line begins its thread with its instruction. -/
theorem describes_cons (hne : c ≠ []) (hsep : c ≠ separator) : Describes (c :: cs) ths ↔
    ∃ i th rest, Holds c i ∧ Describes cs (th :: rest) ∧ ths = (i :: th) :: rest := by
  obtain ⟨segment, rest, hcs, hcons⟩ := exists_segments_cons hsep cs
  have hfilter : (c :: segment).filter (· ≠ []) = c :: segment.filter (· ≠ []) :=
    List.filter_cons_of_pos (by simpa using hne)
  simp only [Describes, hcs, hcons]
  constructor
  · intro h
    obtain ⟨th, ths', hth, hths, rfl⟩ := List.forall₂_cons_left_iff.1 h
    rw [hfilter] at hth
    obtain ⟨i, th', hi, hth', rfl⟩ := List.forall₂_cons_left_iff.1 hth
    exact ⟨i, th', ths', hi, .cons hth' hths, rfl⟩
  · rintro ⟨i, th, ths', hi, h, rfl⟩
    obtain ⟨hth, hths⟩ := List.forall₂_cons.1 h
    refine .cons ?_ hths
    rw [hfilter]
    exact .cons hi hth

/-- Lines describe one list of threads only. -/
theorem Describes.unique (h : Describes cs ths) (h' : Describes cs ths') : ths = ths' := by
  have hholds : Relator.RightUnique Holds := fun _ _ _ hi hj ↦ hi.unique hj
  refine Relator.RightUnique.forall₂ ?_ h h'
  intro segment th th' hth hth'
  exact hholds.forall₂ hth hth'

/-- **Lines without a bad one describe threads.** -/
theorem exists_describes_iff : (∃ ths, Describes cs ths) ↔ ∀ c ∈ cs, ¬Bad c := by
  induction cs with
  | nil => exact ⟨fun _ c hc ↦ absurd hc List.not_mem_nil, fun _ ↦ ⟨_, describes_nil.2 rfl⟩⟩
  | cons c cs ih =>
    rw [List.forall_mem_cons, ← ih]
    -- a bad line is the only kind that describes nothing
    rcases kinds c with rfl | rfl | ⟨i, hi⟩ | hbad
    · simp only [describes_blank_cons]
      exact ⟨fun h ↦ ⟨fun hbad ↦ hbad.ne_nil rfl, h⟩, And.right⟩
    · simp only [describes_separator_cons]
      constructor
      · rintro ⟨_, rest, hrest, rfl⟩
        exact ⟨fun hbad ↦ hbad.ne_separator rfl, rest, hrest⟩
      · rintro ⟨-, rest, hrest⟩
        exact ⟨_, rest, hrest, rfl⟩
    · simp only [describes_cons hi.ne_nil hi.ne_separator]
      constructor
      · rintro ⟨_, _, th, rest, -, hrest, rfl⟩
        exact ⟨fun hbad ↦ hbad.not_holds i hi, _, hrest⟩
      · rintro ⟨-, ths, hths⟩
        obtain ⟨th, rest, rfl⟩ := hths.exists_cons
        exact ⟨_, i, th, rest, hi, hths, rfl⟩
    · simp only [describes_cons hbad.ne_nil hbad.ne_separator]
      constructor
      · rintro ⟨_, j, -, -, hj, -⟩
        exact absurd hj (hbad.not_holds j)
      · exact fun h ↦ absurd hbad h.1

/-- The instructions of the threads are those on the lines. -/
theorem Describes.mem_flatten_iff (h : Describes cs ths) :
    i ∈ ths.flatten ↔ ∃ c ∈ cs, Holds c i := by
  induction cs generalizing ths with
  | nil =>
    obtain rfl := describes_nil.1 h
    simp
  | cons c cs ih =>
    rcases kinds c with rfl | rfl | ⟨j, hj⟩ | hbad
    · rw [ih (describes_blank_cons.1 h)]
      simp only [List.exists_mem_cons_iff]
      exact ⟨Or.inr, Or.rec (fun hi ↦ absurd rfl hi.ne_nil) id⟩
    · obtain ⟨rest, hrest, rfl⟩ := describes_separator_cons.1 h
      rw [List.flatten_cons, List.nil_append, ih hrest]
      simp only [List.exists_mem_cons_iff]
      exact ⟨Or.inr, Or.rec (fun hi ↦ absurd rfl hi.ne_separator) id⟩
    · obtain ⟨j', th, rest, hj', hrest, rfl⟩ := (describes_cons hj.ne_nil hj.ne_separator).1 h
      rw [List.flatten_cons, List.cons_append, ← List.flatten_cons, List.mem_cons, ih hrest,
        List.exists_mem_cons_iff]
      exact or_congr_left ⟨fun hi ↦ hi ▸ hj', fun hi ↦ hi.unique hj'⟩
    · obtain ⟨j, -, -, hj, -⟩ := (describes_cons hbad.ne_nil hbad.ne_separator).1 h
      exact absurd hj (hbad.not_holds j)

/-- Leaving out the empty threads loses no instruction. -/
theorem flatten_finish (ths : List (List Instruction)) : (finish ths).flatten = ths.flatten := by
  rw [finish]
  split
  · rename_i hlast
    conv_rhs => rw [← List.dropLast_append_getLast? [] hlast]
    simp
  · rfl

end Listing

end Litmus
