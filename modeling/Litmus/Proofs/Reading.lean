import Litmus.Proofs.Grammar
import Litmus.Proofs.Positions

/-!
# Reading program texts

Reading accepts exactly the texts that describe a program within the limits
(`Program.ofLines_eq_ok_iff`). One line adds to the draft what it holds
(`Listing.Draft.addLine_eq_ok_iff`), so lines in a row add the threads that they describe
(`Listing.Draft.addLines_eq_ok_iff`).

Of any other text the first line that offends is reported, where a line offends if it is bad or
takes the program past a limit (`Listing.Offends`). The fault gives the number of the line and what
is wrong with it, except that a numeral with too many digits is reported without its line
(`Listing.Blamed`).

That limits are enforced line by line makes no difference to what is accepted: what the lines
describe does not depend on the limits, so it is what wider limits accept and the narrower ones
admit afterwards (`Program.read_narrower_iff`).
-/

namespace Litmus

variable {limits : Limits} {raw c : List Char} {cs raws before : List (List Char)} {k n : ℕ}
  {i : Instruction} {ths : List (List Instruction)} {cause : LineFault} {f : Fault} {p : Program}

/-- A sequence succeeds if both of its parts do. -/
theorem bind_eq_ok_iff {α β : Type} {x : Except Fault α} {g : α → Except Fault β} {b : β} :
    x >>= g = .ok b ↔ ∃ a, x = .ok a ∧ g a = .ok b := by
  cases x with
  | error e => simp [bind, Except.bind]
  | ok a => simp [bind, Except.bind]

/-- A sequence fails if its first part does, or its second part after it. -/
theorem bind_eq_error_iff {α β : Type} {x : Except Fault α} {g : α → Except Fault β} :
    x >>= g = .error f ↔ x = .error f ∨ ∃ a, x = .ok a ∧ g a = .error f := by
  cases x with
  | error e => simp [bind, Except.bind]
  | ok a => simp [bind, Except.bind]

namespace Listing

/-! ### Drafts -/

namespace Draft

variable {d d' d₁ : Draft}

/-- The threads of a draft, the open one included even if it is empty. -/
def all (d : Draft) : List (List Instruction) := d.ended ++ [d.current]

/-- A draft is known from its threads, since the last of them is the current one. -/
theorem all_injective (h : d.all = d'.all) : d = d' := by
  obtain ⟨hended, hcurrent⟩ := List.append_inj' h rfl
  obtain ⟨ended, current⟩ := d
  obtain ⟨ended', current'⟩ := d'
  obtain rfl : ended = ended' := hended
  obtain rfl : current = current' := List.singleton_inj.1 hcurrent
  rfl

theorem exists_all_eq (th : List Instruction) (rest : List (List Instruction)) :
    ∃ d : Draft, d.all = th :: rest :=
  ⟨⟨(th :: rest).dropLast, (th :: rest).getLast (by simp)⟩, List.dropLast_append_getLast _⟩

theorem finish_all (d : Draft) : finish d.all = d.threads := by
  simp [finish, all, threads]

/-- The draft stays within the limits. -/
structure Within (limits : Limits) (d : Draft) : Prop where
  /-- There are not too many ended threads. -/
  threads : d.ended.length ≤ limits.threads
  /-- No thread is too long. -/
  instructions : ∀ th ∈ d.all, th.length ≤ limits.instructions

/-- The limits on a program are those on its draft: an open thread without instructions is short. -/
theorem Within.of_threads (h : d.threads.length ≤ limits.threads ∧
    ∀ th ∈ d.threads, th.length ≤ limits.instructions) : d.Within limits := by
  obtain ⟨hlen, hth⟩ := h
  rw [Draft.threads] at hlen hth
  -- an empty current thread is not counted
  split at hlen
  · rename_i hcurrent
    rw [if_pos hcurrent] at hth
    refine ⟨hlen, fun th hmem ↦ ?_⟩
    rcases List.mem_append.1 hmem with hmem | hmem
    · exact hth th hmem
    · obtain rfl := List.mem_singleton.1 hmem
      rw [hcurrent]
      exact Nat.zero_le _
  · rename_i hcurrent
    rw [if_neg hcurrent] at hth
    refine ⟨?_, hth⟩
    rw [List.length_append] at hlen
    exact Nat.le_of_add_right_le hlen

/-- Ending a thread only makes the threads more. -/
theorem within_end_iff (hd : d.Within limits) :
    Within limits ⟨d.ended ++ [d.current], []⟩ ↔ d.ended.length + 1 ≤ limits.threads := by
  constructor
  · intro h
    have hthreads := h.threads
    rwa [List.length_append, List.length_singleton] at hthreads
  · intro hthreads
    refine ⟨by rwa [List.length_append, List.length_singleton], fun th hth ↦ ?_⟩
    rcases List.mem_append.1 hth with hth | hth
    · exact hd.instructions th hth
    · obtain rfl := List.mem_singleton.1 hth
      exact Nat.zero_le _

/-- An instruction only makes the current thread longer. -/
theorem within_push_iff (hd : d.Within limits) :
    Within limits ⟨d.ended, d.current ++ [i]⟩ ↔ d.current.length + 1 ≤ limits.instructions := by
  constructor
  · intro h
    have hinstructions := h.instructions _ (List.mem_append_right _ List.mem_cons_self)
    rwa [List.length_append, List.length_singleton] at hinstructions
  · intro hinstructions
    refine ⟨hd.threads, fun th hth ↦ ?_⟩
    rcases List.mem_append.1 hth with hth | hth
    · exact hd.instructions th (List.mem_append_left _ hth)
    · obtain rfl := List.mem_singleton.1 hth
      rwa [List.length_append, List.length_singleton]

/-- The draft `d'` comes of adding the line `c`. -/
inductive Adds (d : Draft) (c : List Char) : Draft → Prop
  /-- An empty line changes nothing. -/
  | blank (h : c = []) : Adds d c d
  /-- A separator ends the open thread. -/
  | separator (h : c = separator) : Adds d c ⟨d.ended ++ [d.current], []⟩
  /-- An instruction is added to the open thread. -/
  | instruction {i : Instruction} (h : Holds c i) : Adds d c ⟨d.ended, d.current ++ [i]⟩

/-- The draft `d'` comes of adding lines: the open thread goes on with the first of the threads
that they describe. -/
def Extends (d : Draft) (cs : List (List Char)) (d' : Draft) : Prop :=
  ∃ th rest, Describes cs (th :: rest) ∧ d'.all = d.ended ++ (d.current ++ th) :: rest

theorem extends_nil : d.Extends [] d' ↔ d' = d := by
  constructor
  · rintro ⟨th, rest, h, hall⟩
    obtain ⟨rfl, rfl⟩ := List.cons.inj (describes_nil.1 h)
    rw [List.append_nil] at hall
    exact all_injective hall
  · rintro rfl
    exact ⟨[], [], describes_nil.2 rfl, by rw [List.append_nil, all]⟩

/-- A draft is extended line by line. -/
theorem extends_cons : d.Extends (c :: cs) d' ↔ ∃ d₁, d.Adds c d₁ ∧ d₁.Extends cs d' := by
  constructor
  · rintro ⟨th, rest, h, hall⟩
    rcases kinds c with rfl | rfl | ⟨i, hi⟩ | hbad
    · exact ⟨d, .blank rfl, th, rest, describes_blank_cons.1 h, hall⟩
    · obtain ⟨ths, hths, hcons⟩ := describes_separator_cons.1 h
      obtain ⟨rfl, rfl⟩ := List.cons.inj hcons
      obtain ⟨th, rest', rfl⟩ := hths.exists_cons
      exact ⟨_, .separator rfl, th, rest', hths, by simpa using hall⟩
    · obtain ⟨j, th', rest', hj, hrest, hcons⟩ := (describes_cons hi.ne_nil hi.ne_separator).1 h
      obtain ⟨rfl, rfl⟩ := List.cons.inj hcons
      exact ⟨_, .instruction hj, th', rest, hrest, by simpa using hall⟩
    · obtain ⟨j, -, -, hj, -⟩ := (describes_cons hbad.ne_nil hbad.ne_separator).1 h
      exact absurd hj (hbad.not_holds j)
  · rintro ⟨d₁, hadds, th, rest, h, hall⟩
    cases hadds with
    | blank hc => exact ⟨th, rest, hc ▸ describes_blank_cons.2 h, hall⟩
    | separator hc =>
      exact ⟨[], th :: rest, hc ▸ describes_separator_cons.2 ⟨_, h, rfl⟩, by simpa using hall⟩
    | @instruction i hi =>
      refine ⟨i :: th, rest, ?_, by simpa using hall⟩
      exact (describes_cons hi.ne_nil hi.ne_separator).2 ⟨i, th, rest, hi, h, rfl⟩

/-- What extends the empty draft are the lines that describe it. -/
theorem extends_empty_iff : empty.Extends cs d ↔ Describes cs d.all := by
  constructor
  · rintro ⟨th, rest, h, hall⟩
    exact hall ▸ h
  · intro h
    obtain ⟨th, rest, hall⟩ := h.exists_cons
    exact ⟨th, rest, hall ▸ h, hall⟩

/-! ### One line -/

theorem addLine_of_blank (h : content raw = []) : d.addLine limits n raw = .ok d := by
  rw [content] at h
  rw [addLine, if_pos h]

/-- A separator ends the current thread, unless there are as many as there may be. -/
theorem addLine_of_separator (h : content raw = Listing.separator) : d.addLine limits n raw =
    if limits.threads < d.ended.length + 1 then
      .error (.line (some n) (.tooManyThreads limits.threads))
    else .ok ⟨d.ended ++ [d.current], []⟩ := by
  rw [content] at h
  rw [addLine, h]
  rfl

/-- A line with more than a separator on it is read as an instruction. -/
theorem addLine_of_ne (hne : content raw ≠ []) (hsep : content raw ≠ Listing.separator) :
    d.addLine limits n raw = match Instruction.read (content raw) (some n) with
      | .error f => .error f
      | .ok i =>
        if limits.instructions < d.current.length + 1 then
          .error (.line (some n) (.threadTooLong d.ended.length limits.instructions))
        else .ok ⟨d.ended, d.current ++ [i]⟩ := by
  rw [content] at hne hsep
  rw [addLine, if_neg hne, if_neg hsep]
  rfl

/-- An instruction is added to the current thread, unless it is as long as it may be. -/
theorem addLine_of_holds (h : Holds (content raw) i) : d.addLine limits n raw =
    if limits.instructions < d.current.length + 1 then
      .error (.line (some n) (.threadTooLong d.ended.length limits.instructions))
    else .ok ⟨d.ended, d.current ++ [i]⟩ := by
  rw [addLine_of_ne h.ne_nil h.ne_separator, Instruction.read_eq_ok_iff.2 h]

/-- A line that is malformed is reported with its number. -/
theorem addLine_of_malformed (hbad : Bad (content raw)) (h : Malformed (content raw) cause) :
    d.addLine limits n raw = .error (.line (some n) cause) := by
  rw [addLine_of_ne hbad.ne_nil hbad.ne_separator, Instruction.read_of_malformed h]

/-- One with a numeral that is too long is reported without. -/
theorem addLine_of_overlong (h : Overlong (content raw) k) :
    d.addLine limits n raw = .error (.numeralTooLong k) := by
  rw [addLine_of_ne h.bad.ne_nil h.bad.ne_separator, h.read_eq]

/-- **A line is accepted if it adds something to the draft that stays within the limits.** -/
theorem addLine_eq_ok_iff (hd : d.Within limits) :
    d.addLine limits n raw = .ok d' ↔ d.Adds (content raw) d' ∧ d'.Within limits := by
  constructor
  · intro h
    -- a line is blank, a separator, an instruction or bad, and the first three can be added
    rcases kinds (content raw) with hnil | hsep | ⟨i, hi⟩ | hbad
    · rw [addLine_of_blank hnil] at h
      obtain rfl := Except.ok.inj h
      exact ⟨.blank hnil, hd⟩
    · rw [addLine_of_separator hsep] at h
      split at h
      · cases h
      · rename_i hthreads
        obtain rfl := Except.ok.inj h
        exact ⟨.separator hsep, (within_end_iff hd).2 (Nat.le_of_not_lt hthreads)⟩
    · rw [addLine_of_holds hi] at h
      split at h
      · cases h
      · rename_i hinstructions
        obtain rfl := Except.ok.inj h
        exact ⟨.instruction hi, (within_push_iff hd).2 (Nat.le_of_not_lt hinstructions)⟩
    · rcases hbad.malformed_or_overlong with ⟨cause, hcause⟩ | ⟨k, hk⟩
      · rw [addLine_of_malformed hbad hcause] at h
        cases h
      · rw [addLine_of_overlong hk] at h
        cases h
  · rintro ⟨hadds, hwithin⟩
    cases hadds with
    | blank hnil => exact addLine_of_blank hnil
    | separator hsep =>
      have hthreads := (within_end_iff hd).1 hwithin
      rw [addLine_of_separator hsep, if_neg (Nat.not_lt_of_le hthreads)]
    | instruction hi =>
      have hinstructions := (within_push_iff hd).1 hwithin
      rw [addLine_of_holds hi, if_neg (Nat.not_lt_of_le hinstructions)]

/-! ### All lines -/

theorem addLines_cons_eq_ok_iff : d.addLines limits n (raw :: raws) = .ok d' ↔
    ∃ d₁, d.addLine limits n raw = .ok d₁ ∧ d₁.addLines limits (n + 1) raws = .ok d' := by
  rw [addLines]
  cases d.addLine limits n raw with
  | error f => simp
  | ok d₁ => simp

/-- Lines are read one after the other, and the numbers go on. -/
theorem addLines_append (raws' : List (List Char)) : d.addLines limits n (raws ++ raws') =
    d.addLines limits n raws >>= fun d' ↦ d'.addLines limits (n + raws.length) raws' := by
  induction raws generalizing d n with
  | nil => rfl
  | cons raw raws ih =>
    rw [List.cons_append, addLines, addLines]
    cases d.addLine limits n raw with
    | error f => rfl
    | ok d₁ =>
      rw [List.length_cons, Nat.add_comm raws.length, ← Nat.add_assoc]
      exact ih

/-- A draft only grows, so what was too large stays too large. -/
theorem Within.of_adds (h : d.Adds c d') (hd : d'.Within limits) : d.Within limits := by
  cases h with
  | blank _ => exact hd
  | separator _ =>
    refine ⟨?_, fun th hth ↦ hd.instructions th (List.mem_append_left _ hth)⟩
    have hthreads := hd.threads
    rw [List.length_append] at hthreads
    exact Nat.le_of_add_right_le hthreads
  | instruction _ =>
    refine ⟨hd.threads, fun th hth ↦ ?_⟩
    rcases List.mem_append.1 hth with hth | hth
    · exact hd.instructions th (List.mem_append_left _ hth)
    · obtain rfl := List.mem_singleton.1 hth
      have hinstructions := hd.instructions _ (List.mem_append_right _ List.mem_cons_self)
      rw [List.length_append] at hinstructions
      exact Nat.le_of_add_right_le hinstructions

theorem Within.of_extends (h : d.Extends cs d') (hd : d'.Within limits) : d.Within limits := by
  induction cs generalizing d with
  | nil => exact extends_nil.1 h ▸ hd
  | cons c cs ih =>
    obtain ⟨d₁, hadds, hextends⟩ := extends_cons.1 h
    exact (ih hextends).of_adds hadds

/-- **Lines are accepted if the threads that they describe stay within the limits.** Otherwise one
of the lines is refused, so nothing is gained by reading on. -/
theorem addLines_eq_ok_iff (hd : d.Within limits) : d.addLines limits n raws = .ok d' ↔
    d.Extends (raws.map content) d' ∧ d'.Within limits := by
  induction raws generalizing d n with
  | nil =>
    rw [List.map_nil, extends_nil, addLines, Except.ok.injEq]
    exact ⟨fun h ↦ ⟨h.symm, h ▸ hd⟩, fun h ↦ h.1.symm⟩
  | cons raw raws ih =>
    rw [List.map_cons, extends_cons, addLines_cons_eq_ok_iff]
    constructor
    · rintro ⟨d₁, hline, hlines⟩
      obtain ⟨hadds, hd₁⟩ := (addLine_eq_ok_iff hd).1 hline
      obtain ⟨hextends, hd'⟩ := (ih hd₁).1 hlines
      exact ⟨⟨d₁, hadds, hextends⟩, hd'⟩
    · rintro ⟨⟨d₁, hadds, hextends⟩, hd'⟩
      -- what is within the limits in the end has been so all the time
      have hd₁ := hd'.of_extends hextends
      exact ⟨d₁, (addLine_eq_ok_iff hd).2 ⟨hadds, hd₁⟩, (ih hd₁).2 ⟨hextends, hd'⟩⟩

theorem within_empty (limits : Limits) : empty.Within limits := by
  refine ⟨Nat.zero_le _, fun th hth ↦ ?_⟩
  obtain rfl := List.mem_singleton.1 hth
  exact Nat.zero_le _

/-- The lines that were accepted describe the draft. -/
theorem describes_of_addLines (h : empty.addLines limits n raws = .ok d) :
    Describes (raws.map content) d.all :=
  extends_empty_iff.1 ((addLines_eq_ok_iff (within_empty limits)).1 h).1

end Draft

/-! ### The first line that offends -/

/-- **The line `c` offends after the lines `before`**: it is bad, or it ends more threads than there
may be, or its instruction makes its thread too long. -/
inductive Offends (limits : Limits) (before : List (List Char)) (c : List Char) : Prop
  /-- The line is bad. -/
  | bad (h : Bad c)
  /-- The line is a separator, and the threads up to it are too many. -/
  | threads {ths : List (List Instruction)} (h : c = separator) (hbefore : Describes before ths)
    (hlimit : limits.threads < ths.length)
  /-- The line holds an instruction, and the open thread has no room for it. -/
  | instructions {ths : List (List Instruction)} {th : List Instruction} {i : Instruction}
    (h : Holds c i) (hbefore : Describes before (ths ++ [th]))
    (hlimit : limits.instructions < th.length + 1)

/-- **The fault that is reported for a line `c` that offends after the lines `before`.** -/
inductive Blamed (limits : Limits) (before : List (List Char)) (c : List Char) : Fault → Prop
  /-- A bad line that has not the form of an instruction is reported with its number. -/
  | malformed {cause : LineFault} (hbad : Bad c) (h : Malformed c cause) :
    Blamed limits before c (.line (some (before.length + 1 : ℕ)) cause)
  /-- Of a bad line with too many digits only the number of digits is reported. -/
  | overlong {k : ℕ} (h : Overlong c k) : Blamed limits before c (.numeralTooLong k)
  /-- A line that ends one thread too many is reported with its number. -/
  | threads {ths : List (List Instruction)} (h : c = separator) (hbefore : Describes before ths)
    (hlimit : limits.threads < ths.length) :
    Blamed limits before c (.line (some (before.length + 1 : ℕ)) (.tooManyThreads limits.threads))
  /-- An instruction too many is reported with its line and its thread. -/
  | instructions {ths : List (List Instruction)} {th : List Instruction} {i : Instruction}
    (h : Holds c i) (hbefore : Describes before (ths ++ [th]))
    (hlimit : limits.instructions < th.length + 1) :
    Blamed limits before c
      (.line (some (before.length + 1 : ℕ)) (.threadTooLong ths.length limits.instructions))

/-- No line offends. -/
def Sound (limits : Limits) (cs : List (List Char)) : Prop :=
  ∀ before c after, cs = before ++ c :: after → ¬Offends limits before c

/-- **A line is refused if it offends, with the fault that it is blamed for.** -/
theorem addLine_of_offends {d : Draft} (hd : Describes before d.all)
    (h : Offends limits before (content raw)) :
    ∃ f, d.addLine limits (before.length + 1) raw = .error f ∧
      Blamed limits before (content raw) f := by
  cases h with
  | bad hbad =>
    rcases hbad.malformed_or_overlong with ⟨cause, hcause⟩ | ⟨k, hk⟩
    · exact ⟨_, Draft.addLine_of_malformed hbad hcause, .malformed hbad hcause⟩
    · exact ⟨_, Draft.addLine_of_overlong hk, .overlong hk⟩
  | threads hsep hbefore hlimit =>
    obtain rfl := hbefore.unique hd
    refine ⟨_, ?_, .threads hsep hbefore hlimit⟩
    rw [Draft.all, List.length_append, List.length_singleton] at hlimit
    rw [Draft.addLine_of_separator hsep, if_pos hlimit]
  | instructions hi hbefore hlimit =>
    obtain ⟨rfl, hcurrent⟩ := List.append_inj' (hbefore.unique hd) rfl
    obtain rfl := List.singleton_inj.1 hcurrent
    refine ⟨_, ?_, .instructions hi hbefore hlimit⟩
    rw [Draft.addLine_of_holds hi, if_pos hlimit]

/-- A line that does not offend is accepted. -/
theorem exists_addLine_of_not_offends {d : Draft} (hd : Describes before d.all)
    (h : ¬Offends limits before (content raw)) : ∃ d', d.addLine limits n raw = .ok d' := by
  rcases kinds (content raw) with hnil | hsep | ⟨i, hi⟩ | hbad
  · exact ⟨d, Draft.addLine_of_blank hnil⟩
  · refine ⟨⟨d.ended ++ [d.current], []⟩, ?_⟩
    rw [Draft.addLine_of_separator hsep, if_neg fun hlimit ↦ h (.threads hsep hd ?_)]
    rwa [Draft.all, List.length_append, List.length_singleton]
  · refine ⟨⟨d.ended, d.current ++ [i]⟩, ?_⟩
    rw [Draft.addLine_of_holds hi, if_neg fun hlimit ↦ h (.instructions hi hd hlimit)]
  · exact absurd (.bad hbad) h

/-- So are lines of which none does. -/
theorem exists_addLines_of_sound (h : Sound limits (raws.map content)) :
    ∃ d, Draft.empty.addLines limits 1 raws = .ok d := by
  induction raws using List.reverseRecOn with
  | nil => exact ⟨_, rfl⟩
  | append_singleton raws raw ih =>
    rw [List.map_append, List.map_singleton] at h
    have hbefore : Sound limits (raws.map content) := by
      intro before c after hsplit
      exact h before c (after ++ [content raw]) (by rw [hsplit, List.append_assoc]; rfl)
    obtain ⟨d, hd⟩ := ih hbefore
    obtain ⟨d', hd'⟩ := exists_addLine_of_not_offends (n := 1 + raws.length)
      (Draft.describes_of_addLines hd) (h _ _ [] rfl)
    refine ⟨d', ?_⟩
    rw [Draft.addLines_append, hd]
    exact Draft.addLines_cons_eq_ok_iff.2 ⟨d', hd', rfl⟩

/-- After lines that were accepted, a line that offends is reported. -/
theorem addLines_append_of_offends {d : Draft} {raws' : List (List Char)}
    (hd : Draft.empty.addLines limits 1 raws = .ok d)
    (h : Offends limits (raws.map content) (content raw)) :
    ∃ f, Draft.empty.addLines limits 1 (raws ++ raw :: raws') = .error f ∧
      Blamed limits (raws.map content) (content raw) f := by
  obtain ⟨f, hf, hblamed⟩ := addLine_of_offends (Draft.describes_of_addLines hd) h
  refine ⟨f, ?_, hblamed⟩
  rw [List.length_map, Nat.add_comm] at hf
  rw [Draft.addLines_append, hd]
  change d.addLines limits (1 + raws.length) (raw :: raws') = .error f
  rw [Draft.addLines, hf]

/-- **Lines are accepted one after the other as long as none offends.** -/
theorem sound_iff : Sound limits (raws.map content) ↔
    ∃ d, Draft.empty.addLines limits 1 raws = .ok d := by
  refine ⟨exists_addLines_of_sound, ?_⟩
  rintro ⟨d, hd⟩ before c after hsplit hc
  obtain ⟨raws₁, tail, rfl, rfl, htail⟩ := List.map_eq_append_iff.1 hsplit
  obtain ⟨raw, raws₂, rfl, rfl, -⟩ := List.map_eq_cons_iff.1 htail
  have hprefix := hd
  rw [Draft.addLines_append] at hprefix
  obtain ⟨d₁, hd₁, -⟩ := bind_eq_ok_iff.1 hprefix
  obtain ⟨f, hf, -⟩ := addLines_append_of_offends hd₁ hc
  rw [hf] at hd
  cases hd

/-- **The first line that offends is the one that is reported.** -/
theorem addLines_of_offends {after : List (List Char)}
    (hsplit : raws.map content = before ++ c :: after) (hbefore : Sound limits before)
    (hc : Offends limits before c) :
    ∃ f, Draft.empty.addLines limits 1 raws = .error f ∧ Blamed limits before c f := by
  obtain ⟨raws₁, tail, rfl, rfl, htail⟩ := List.map_eq_append_iff.1 hsplit
  obtain ⟨raw, raws₂, rfl, rfl, -⟩ := List.map_eq_cons_iff.1 htail
  obtain ⟨d, hd⟩ := sound_iff.1 hbefore
  exact addLines_append_of_offends hd hc

/-- If not all is sound, there is a first line that offends. -/
theorem exists_first_of_not_sound (h : ¬Sound limits cs) :
    ∃ before c after, cs = before ++ c :: after ∧ Sound limits before ∧
      Offends limits before c := by
  -- by induction from the end: the first line that offends is the last one or comes before it
  induction cs using List.reverseRecOn with
  | nil => exact absurd (fun before c after hsplit ↦ by simp at hsplit) h
  | append_singleton cs c ih =>
    by_cases hcs : Sound limits cs
    · refine ⟨cs, c, [], rfl, hcs, Classical.byContradiction fun hc ↦ h ?_⟩
      intro before c' after hsplit
      rcases List.eq_nil_or_concat' after with rfl | ⟨after, c'', rfl⟩
      · obtain ⟨rfl, hlast⟩ := List.append_inj' hsplit rfl
        obtain rfl := List.singleton_inj.1 hlast
        exact hc
      · rw [← List.cons_append, ← List.append_assoc] at hsplit
        exact hcs before c' after (List.append_inj' hsplit rfl).1
    · obtain ⟨before, c', after, rfl, hbefore, hc'⟩ := ih hcs
      exact ⟨before, c', after ++ [c], by simp, hbefore, hc'⟩

/-- **The first line that offends has a numeral with `k` digits, which are too many.** -/
def FirstOverlong (limits : Limits) (cs : List (List Char)) (k : ℕ) : Prop :=
  ∃ before c after, cs = before ++ c :: after ∧ Sound limits before ∧ Overlong c k

/-- A line with a numeral that is too long is blamed for nothing else. -/
theorem Blamed.eq_of_overlong (h : Blamed limits before c f) (hc : Overlong c k) :
    f = .numeralTooLong k := by
  have hread := hc.read_eq none
  cases h with
  | malformed hbad hcause =>
    rw [Instruction.read_of_malformed hcause] at hread
    cases hread
  | overlong hk =>
    rw [hk.read_eq none] at hread
    exact Except.error.inj hread
  | threads hsep hbefore hlimit => exact absurd hsep hc.bad.ne_separator
  | instructions hholds hbefore hlimit => exact absurd hholds (hc.bad.not_holds _)

end Listing

namespace Program

open Listing

/-! ### Programs -/

theorem ofThreads_eq_ok_iff : ofThreads ths = .ok p ↔ p.threads = ths := by
  rw [ofThreads]
  constructor
  · intro h
    split at h
    · cases h
    · split at h
      · cases h
      · obtain rfl := Except.ok.inj h
        rfl
  · rintro rfl
    have hne : p.threads ≠ [] := by
      intro hnil
      exact p.flatten_ne_nil (by rw [hnil, List.flatten_nil])
    rw [if_neg hne, dif_neg p.flatten_ne_nil]

/-- Threads are refused as a program, not because of a line. -/
theorem exists_cause_of_ofThreads (h : ofThreads ths = .error f) : ∃ cause, f = .program cause := by
  rw [ofThreads] at h
  split at h
  · exact ⟨_, (Except.error.inj h).symm⟩
  · split at h
    · exact ⟨_, (Except.error.inj h).symm⟩
    · cases h

theorem exists_cause_of_check (h : p.check limits = .error f) : ∃ cause, f = .program cause := by
  rw [check] at h
  split at h
  · exact ⟨_, (Except.error.inj h).symm⟩
  · split at h
    · exact ⟨_, (Except.error.inj h).symm⟩
    · cases h

/-- What is read from the lines is what their draft makes of itself. -/
theorem ofLines_eq_bind : ofLines raws limits = Draft.empty.addLines limits 1 raws >>= fun d ↦
    ofThreads d.threads >>= fun p ↦ p.check limits >>= fun _ ↦ pure p := rfl

/-- Lines are read as a program if they make a draft, and what is in it is not too large. -/
theorem ofLines_eq_ok_iff_draft : ofLines raws limits = .ok p ↔
    ∃ d, Draft.empty.addLines limits 1 raws = .ok d ∧ p.threads = d.threads ∧
      p.check limits = .ok () := by
  simp only [ofLines_eq_bind, bind_eq_ok_iff, ofThreads_eq_ok_iff]
  constructor
  · rintro ⟨d, hd, q, hq, _, hcheck, hpure⟩
    obtain rfl := Except.ok.inj hpure
    exact ⟨d, hd, hq, hcheck⟩
  · rintro ⟨d, hd, hp, hcheck⟩
    exact ⟨d, hd, p, hp, (), hcheck, rfl⟩

/-- Once all lines are accepted, only the program as a whole can be refused. -/
theorem exists_cause_of_ofLines {d : Draft} (h : Draft.empty.addLines limits 1 raws = .ok d)
    (hf : ofLines raws limits = .error f) : ∃ cause, f = .program cause := by
  rw [ofLines_eq_bind] at hf
  rcases bind_eq_error_iff.1 hf with hlines | ⟨_, -, hf⟩
  · rw [h] at hlines
    cases hlines
  · rcases bind_eq_error_iff.1 hf with hthreads | ⟨q, -, hf⟩
    · exact exists_cause_of_ofThreads hthreads
    · rcases bind_eq_error_iff.1 hf with hcheck | ⟨_, -, hpure⟩
      · exact exists_cause_of_check hcheck
      · cases hpure

/-- **The program on the given lines has the threads that they describe**, less an empty one at the
end. It is refused only if there is no such program or it exceeds the limits. -/
theorem ofLines_eq_ok_iff : ofLines raws limits = .ok p ↔
    ∃ ths, Describes (raws.map content) ths ∧ p.threads = finish ths ∧ p.check limits = .ok () := by
  rw [ofLines_eq_ok_iff_draft]
  constructor
  · rintro ⟨d, hd, hp, hcheck⟩
    exact ⟨d.all, Draft.describes_of_addLines hd, by rw [hp, Draft.finish_all], hcheck⟩
  · rintro ⟨ths, hths, hp, hcheck⟩
    obtain ⟨th, rest, rfl⟩ := hths.exists_cons
    obtain ⟨d, hd⟩ := Draft.exists_all_eq th rest
    rw [← hd] at hths hp
    rw [Draft.finish_all] at hp
    have hwithin : d.Within limits := .of_threads (hp ▸ check_eq_ok_iff.1 hcheck)
    refine ⟨d, ?_, hp, hcheck⟩
    rw [Draft.addLines_eq_ok_iff (Draft.within_empty limits), Draft.extends_empty_iff]
    exact ⟨hths, hwithin⟩

/-- **A text is read as a program if its lines describe the threads**, and these are not too many or
too long. -/
theorem read_eq_ok_iff {text : String} : read text limits = .ok p ↔
    ∃ ths, Describes (contents text) ths ∧ p.threads = finish ths ∧ p.check limits = .ok () := by
  rw [read, ofLines_eq_ok_iff, map_content_lines]

/-- A text is accepted if it has an instruction and no bad line and describes threads within the
limits. -/
theorem exists_read_eq_ok_iff {text : String} : (∃ p, read text limits = .ok p) ↔
    (∀ c ∈ contents text, ¬Bad c) ∧ (∃ c ∈ contents text, ∃ i, Holds c i) ∧
      ∃ ths, Describes (contents text) ths ∧ (finish ths).length ≤ limits.threads ∧
        ∀ th ∈ finish ths, th.length ≤ limits.instructions := by
  simp only [read_eq_ok_iff, check_eq_ok_iff]
  constructor
  · rintro ⟨p, ths, hths, hp, hlimits⟩
    obtain ⟨i, hi⟩ := List.exists_mem_of_ne_nil _ p.flatten_ne_nil
    rw [hp, flatten_finish] at hi
    obtain ⟨c, hc, hholds⟩ := hths.mem_flatten_iff.1 hi
    exact ⟨exists_describes_iff.1 ⟨ths, hths⟩, ⟨c, hc, i, hholds⟩, ths, hths, hp ▸ hlimits⟩
  · rintro ⟨-, ⟨c, hc, i, hi⟩, ths, hths, hlimits⟩
    have hmem : i ∈ (finish ths).flatten := by
      rw [flatten_finish]
      exact hths.mem_flatten_iff.2 ⟨c, hc, hi⟩
    exact ⟨⟨finish ths, List.ne_nil_of_mem hmem⟩, ths, hths, rfl, hlimits⟩

/-- Where no line offends, a fault concerns the program as a whole. Otherwise it is the one that the
first line that offends is blamed for. -/
theorem exists_cause_or_blamed_of_read {text : String} (h : read text limits = .error f) :
    (∃ cause, f = .program cause) ∨ ∃ before c after, contents text = before ++ c :: after ∧
      Sound limits before ∧ Blamed limits before c f := by
  by_cases hsound : Sound limits (contents text)
  · rw [← map_content_lines] at hsound
    obtain ⟨d, hd⟩ := sound_iff.1 hsound
    exact Or.inl (exists_cause_of_ofLines hd h)
  · obtain ⟨before, c, after, hsplit, hbefore, hc⟩ := exists_first_of_not_sound hsound
    refine Or.inr ⟨before, c, after, hsplit, hbefore, ?_⟩
    rw [← map_content_lines] at hsplit
    obtain ⟨f', hf', hblamed⟩ := addLines_of_offends hsplit hbefore hc
    rw [read, ofLines_eq_bind, hf'] at h
    obtain rfl := Except.error.inj h
    exact hblamed

/-- **A numeral with too many digits is reported if it is what the first line that offends is blamed
for.** -/
theorem read_eq_numeralTooLong_iff {text : String} : read text limits = .error (.numeralTooLong k) ↔
    FirstOverlong limits (contents text) k := by
  constructor
  · intro h
    rcases exists_cause_or_blamed_of_read h with
      ⟨cause, hcause⟩ | ⟨before, c, after, hsplit, hbefore, hblamed⟩
    · cases hcause
    · cases hblamed with
      | overlong hc => exact ⟨before, c, after, hsplit, hbefore, hc⟩
  · rintro ⟨before, c, after, hsplit, hbefore, hc⟩
    rw [← map_content_lines] at hsplit
    obtain ⟨f, hf, hblamed⟩ := addLines_of_offends hsplit hbefore (.bad hc.bad)
    obtain rfl := hblamed.eq_of_overlong hc
    rw [read, ofLines_eq_bind, hf]
    rfl

/-- **Reading accepts exactly the texts that describe a program within the limits and blames the
first line that offends.** The program has the threads that the text describes. The fault is the one
that the line is blamed for, and where no line offends it concerns the program as a whole. -/
theorem read_grammatical (text : String) (limits : Limits) :
    ((∃ p, read text limits = .ok p) ↔
      (∀ c ∈ contents text, ¬Bad c) ∧ (∃ c ∈ contents text, ∃ i, Holds c i) ∧
        ∃ ths, Describes (contents text) ths ∧ (finish ths).length ≤ limits.threads ∧
          ∀ th ∈ finish ths, th.length ≤ limits.instructions) ∧
    (∀ p, read text limits = .ok p →
      ∃ ths, Describes (contents text) ths ∧ p.threads = finish ths) ∧
    (∀ before c after, contents text = before ++ c :: after → Sound limits before →
      Offends limits before c → ∃ f, read text limits = .error f ∧ Blamed limits before c f) ∧
    (Sound limits (contents text) →
      (∃ p, read text limits = .ok p) ∨ ∃ cause, read text limits = .error (.program cause)) := by
  refine ⟨exists_read_eq_ok_iff, fun p hp ↦ ?_, fun before c after hsplit hbefore hc ↦ ?_,
    fun hsound ↦ ?_⟩
  · obtain ⟨ths, hths, hthreads, -⟩ := read_eq_ok_iff.1 hp
    exact ⟨ths, hths, hthreads⟩
  · rw [← map_content_lines] at hsplit
    obtain ⟨f, hf, hblamed⟩ := addLines_of_offends hsplit hbefore hc
    refine ⟨f, ?_, hblamed⟩
    rw [read, ofLines_eq_bind, hf]
    rfl
  · rw [← map_content_lines] at hsound
    obtain ⟨d, hd⟩ := sound_iff.1 hsound
    cases hread : read text limits with
    | ok p => exact Or.inl ⟨p, rfl⟩
    | error f =>
      obtain ⟨cause, rfl⟩ := exists_cause_of_ofLines hd hread
      exact Or.inr ⟨cause, rfl⟩

/-- A store, a separator, and a line with no operation on it. -/
theorem unknownOperation_grammatical :
    contents "st x 1 # one\n---\nfrob y\n" = ["st x 1".toList, separator, "frob y".toList] ∧
    Sound .standard ["st x 1".toList, separator] ∧
    Offends .standard ["st x 1".toList, separator] "frob y".toList ∧
    ∃ f, read "st x 1 # one\n---\nfrob y\n" .standard = .error f ∧
      Blamed .standard ["st x 1".toList, separator] "frob y".toList f := by
  have hsplit : contents "st x 1 # one\n---\nfrob y\n" =
      ["st x 1".toList, separator] ++ "frob y".toList :: [] := by decide
  have hlines : Draft.empty.addLines .standard 1 ["st x 1".toList, separator] =
      .ok ⟨[[.store "x" 1]], []⟩ := rfl
  have hsound : Sound .standard (["st x 1".toList, separator].map content) :=
    sound_iff.2 ⟨_, hlines⟩
  have hbad : Bad "frob y".toList := by
    refine ⟨by decide, by decide, fun i hi ↦ ?_⟩
    have hread : Instruction.read "frob y".toList none = .ok i := Instruction.read_eq_ok_iff.2 hi
    cases hread
  exact ⟨hsplit, hsound, .bad hbad,
    (read_grammatical _ .standard).2.2.1 _ _ _ hsplit hsound (.bad hbad)⟩

theorem plain_replicate (h : k ≠ 0) : Plain (List.replicate k '1') := by
  have hone : ∀ c ∈ List.replicate k '1', c = '1' := fun c hc ↦ List.eq_of_mem_replicate hc
  refine ⟨by simpa using h, fun c hc ↦ ?_, fun hc ↦ ?_, fun hc ↦ ?_⟩
  · rw [hone c hc]
    decide
  · exact absurd (hone _ hc) (by decide)
  · exact absurd (hone _ hc) (by decide)

theorem exists_digits_replicate (k : ℕ) : ∃ n, Numeral.Digits (List.replicate k '1') n := by
  induction k with
  | zero => exact ⟨0, .nil⟩
  | succ k ih =>
    obtain ⟨n, hn⟩ := ih
    rw [List.replicate_succ']
    exact ⟨_, hn.snoc (Numeral.digitValue?_digitChar (d := 1) (by decide))⟩

/-- A store of a row of ones that is too long. -/
theorem overlong_replicate (h : Numeral.limit < k) :
    Overlong (storeLine ['x'] (List.replicate k '1')) k := by
  have hk : k ≠ 0 := Nat.ne_zero_of_lt h
  obtain ⟨n, hn⟩ := exists_digits_replicate k
  have hspells := Numeral.Spells.unsigned hn (plain_replicate hk).ne_nil
  rw [List.length_replicate] at hspells
  refine ⟨h, .store (String.ofList ['x']) n, ?_⟩
  rw [tokens_storeLine (by decide) (plain_replicate hk)]
  exact .store ['x'] hspells

theorem contents_replicate (h : k ≠ 0) :
    contents (String.ofList (storeLine ['x'] (List.replicate k '1') ++ ['\n'])) =
      [storeLine ['x'] (List.replicate k '1')] :=
  contents_storeLine (by decide) (plain_replicate h)

/-- Nothing comes before such a store in a text that is nothing else. -/
theorem firstOverlong_replicate (h : Numeral.limit < k) (limits : Limits) :
    FirstOverlong limits
      (contents (String.ofList (storeLine ['x'] (List.replicate k '1') ++ ['\n']))) k := by
  rw [contents_replicate (Nat.ne_zero_of_lt h)]
  refine ⟨[], _, [], rfl, fun before c after hsplit ↦ ?_, overlong_replicate h⟩
  simp at hsplit

/-- **A numeral with too many digits is reported without its line**, though its line is bad. -/
theorem overlong_unnumbered :
    Bad (storeLine ['x'] (List.replicate 4301 '1')) ∧
    contents (String.ofList (storeLine ['x'] (List.replicate 4301 '1') ++ ['\n'])) =
      [storeLine ['x'] (List.replicate 4301 '1')] ∧
    read (String.ofList (storeLine ['x'] (List.replicate 4301 '1') ++ ['\n'])) .standard =
      .error (.numeralTooLong 4301) := by
  have hlong : Numeral.limit < 4301 := by decide
  exact ⟨(overlong_replicate hlong).bad, contents_replicate (by decide),
    read_eq_numeralTooLong_iff.2 (firstOverlong_replicate hlong .standard)⟩

/-! ### Narrower limits -/

/-- A program within some limits is within wider ones. -/
theorem check_of_le {limits' : Limits} (hthreads : limits.threads ≤ limits'.threads)
    (hinstructions : limits.instructions ≤ limits'.instructions) (h : p.check limits = .ok ()) :
    p.check limits' = .ok () := by
  obtain ⟨hlen, hth⟩ := check_eq_ok_iff.1 h
  exact check_eq_ok_iff.2 ⟨hlen.trans hthreads, fun th hmem ↦ (hth th hmem).trans hinstructions⟩

/-- What the lines describe does not depend on the limits. -/
theorem ofLines_eq_ok_iff_of_le {limits' : Limits} (hthreads : limits.threads ≤ limits'.threads)
    (hinstructions : limits.instructions ≤ limits'.instructions) : ofLines raws limits = .ok p ↔
      ofLines raws limits' = .ok p ∧ p.check limits = .ok () := by
  rw [ofLines_eq_ok_iff, ofLines_eq_ok_iff]
  constructor
  · rintro ⟨ths, hths, hp, hcheck⟩
    exact ⟨⟨ths, hths, hp, check_of_le hthreads hinstructions hcheck⟩, hcheck⟩
  · rintro ⟨⟨ths, hths, hp, -⟩, hcheck⟩
    exact ⟨ths, hths, hp, hcheck⟩

/-- **Enforcing limits while reading comes to the same as reading with wider ones and checking the
program afterwards.** So no line of a program that fits is refused, no program is accepted that does
not fit, and with wider limits the same program is read. -/
theorem read_narrower_iff (limits limits' : Limits) (hthreads : limits.threads ≤ limits'.threads)
    (hinstructions : limits.instructions ≤ limits'.instructions) :
    (∀ (lines : List (List Char)) (p : Program), ofLines lines limits = .ok p ↔
      ofLines lines limits' = .ok p ∧ p.check limits = .ok ()) ∧
    ∀ (text : String) (p : Program), read text limits = .ok p ↔
      read text limits' = .ok p ∧ p.check limits = .ok () :=
  ⟨fun _ _ ↦ ofLines_eq_ok_iff_of_le hthreads hinstructions,
    fun _ _ ↦ ofLines_eq_ok_iff_of_le hthreads hinstructions⟩

/-- The last thread need not be ended, and then no line of it is one thread too many. -/
theorem unended_narrower :
    read "ld x\n---\nst y 1\nld y" .standard =
      .ok ⟨[[.load "x"], [.store "y" 1, .load "y"]], List.cons_ne_nil _ _⟩ ∧
    read "ld x\n---\nst y 1\nld y" { threads := 2, instructions := 2 } =
      .ok ⟨[[.load "x"], [.store "y" 1, .load "y"]], List.cons_ne_nil _ _⟩ ∧
    (∃ d, Draft.empty.addLines { threads := 1, instructions := 2 } 1
      (Text.lines "ld x\n---\nst y 1\nld y".toList) = .ok d) ∧
    ∀ p, read "ld x\n---\nst y 1\nld y" { threads := 1, instructions := 2 } ≠ .ok p := by
  have hwide : read "ld x\n---\nst y 1\nld y" .standard =
      .ok ⟨[[.load "x"], [.store "y" 1, .load "y"]], List.cons_ne_nil _ _⟩ := rfl
  have htwo := read_narrower_iff { threads := 2, instructions := 2 } .standard
    (by decide) (by decide)
  have hone := read_narrower_iff { threads := 1, instructions := 2 } .standard
    (by decide) (by decide)
  refine ⟨hwide, (htwo.2 _ _).2 ⟨hwide, rfl⟩, ⟨_, rfl⟩, fun p hp ↦ ?_⟩
  obtain ⟨hread, hcheck⟩ := (hone.2 _ p).1 hp
  obtain rfl := Except.ok.inj (hwide.symm.trans hread)
  cases hcheck

end Program

end Litmus
