import Litmus.CommandLine
import Litmus.Proofs.Arguments
import Litmus.Proofs.Decoding
import Litmus.Proofs.Reporting

/-!
# The responses of the command

How the command ends is settled by what it depends on (`CommandLine.ending_eq_iff`): its arguments,
its environment, what reading a path or the standard input gives, and what the machine affords. All
four are parameters, so nothing is assumed of where files are or why they cannot be read.

It leaves if the arguments are not accepted, and returns 0 after a report, 1 if there is no text to
read, and 2 if the limits admit no program or the text is none within them. There are five faults
that it does not handle.

* Three of them are its own: a limit with the mark for the end of all options attached as its value,
  a path with a null character, and a text whose first line that offends has a numeral with too many
  digits.
* Two come of the machine: a program with more instructions than calls can be nested, since the
  search calls itself for each of them, and a report that the standard output does not take.

A report is all that is ever printed on the standard output once the arguments are accepted
(`CommandLine.Invocation.Reports`), and it does not depend on whether statistics are asked for
(`CommandLine.run_congr_quiet`). The statistics count the lines of the report.
-/

namespace Litmus.CommandLine

open Text Listing

variable {i j : Invocation} {o o' : Options} {limits : Limits} {text stderr stderr' path : String}
  {p : Program} {c : Comparison} {k : ℕ} {f : Fault} {host : Host} {bs : List UInt8}
  {content : Except Fault (List UInt8)}

/-! ### What an invocation asks for -/

namespace Invocation

/-- The largest number of threads unless an option sets it, and a warning if there is one. -/
def threads (i : Invocation) : ℤ × String :=
  fromEnvironment threadsVariable (i.environment threadsVariable) Limits.standard.threads

/-- The largest number of instructions unless an option sets it, and a warning if there is one. -/
def instructions (i : Invocation) : ℤ × String :=
  fromEnvironment instructionsVariable (i.environment instructionsVariable)
    Limits.standard.instructions

/-- What the arguments ask for. -/
def request (i : Invocation) : Except UsageFault Request :=
  parse i.threads.1 i.instructions.1 i.arguments

/-- **The arguments are accepted**, and they ask for the options `o`. -/
def Accepts (i : Invocation) (o : Options) : Prop := i.request = .ok (.run o)

/-- The warnings about the environment. -/
def warnings (i : Invocation) : String := i.threads.2 ++ i.instructions.2

/-- The path of the file that is named. There is none if the program comes from the standard
input. -/
def path? : (program : Option String) → Option String
  | some path => if path = "-" then none else some path
  | none => none

/-- **The bytes of the program that is named.** Without a name, or with a dash for one, they are
what reading the standard input gives. Else they are what reading the path gives, which is made
normal first; but a path with a null character is not read at all. -/
def bytes (i : Invocation) (program : Option String) : Except Fault (List UInt8) :=
  match path? program with
  | none => (i.read none).mapError (.unreadable none)
  | some path =>
    if Path.hasNull (Path.normal path) then .error .nullInPath
    else (i.read (some (Path.normal path))).mapError (.unreadable (some (Path.normal path)))

/-- What is printed on the standard error before the program is read. -/
def preamble (i : Invocation) (o : Options) : String :=
  i.warnings ++ if o.verbose then notice ("reading " ++ (path? o.program).getD "<stdin>") else ""

end Invocation

/-! ### Limits -/

/-- The fault of a limit that is no number. -/
def noNumber : Fault := .kind (.incomparable .list)

namespace Options

variable {t n : ℤ}

theorem limits_of_none (h : o.maxThreads = none) : o.limits = .error noNumber := by
  unfold limits
  rw [h]
  rfl

/-- The number of threads is looked at first. -/
theorem limits_of_lt (h : o.maxThreads = some t) (ht : t < 1) : o.limits = .error .noRoom := by
  simp [limits, h, Limits.ofData, Limits.number, ht, bind, Except.bind, throw, throwThe,
    MonadExceptOf.throw]

theorem limits_of_le (h : o.maxThreads = some t) (ht : 1 ≤ t) : o.limits =
    match o.maxInstructions with
    | none => .error noNumber
    | some n => Limits.ofInts t n := by
  have hlt : ¬t < 1 := Int.not_lt.2 ht
  unfold limits
  rw [h]
  cases o.maxInstructions with
  | none =>
    simp [Limits.ofData, Limits.number, hlt, bind, Except.bind, noNumber]
    rfl
  | some n => simp [Limits.ofData, Limits.number, hlt, bind, Except.bind]

/-- The options admit no program: one of the limits is below one. -/
def NoRoom (o : Options) : Prop :=
  ∃ t, o.maxThreads = some t ∧ (t < 1 ∨ ∃ n, o.maxInstructions = some n ∧ n < 1)

/-- A limit that has to be looked at was left without a value. -/
def Valueless (o : Options) : Prop :=
  o.maxThreads = none ∨ ∃ t, o.maxThreads = some t ∧ 1 ≤ t ∧ o.maxInstructions = none

/-- A limit below one leaves no room for a program. -/
theorem NoRoom.limits_eq (h : o.NoRoom) : o.limits = .error .noRoom := by
  obtain ⟨t, ht, hlt⟩ := h
  by_cases hone : t < 1
  · exact limits_of_lt ht hone
  · obtain ⟨n, hn, hlt⟩ := hlt.resolve_left hone
    rw [limits_of_le ht (Int.not_lt.1 hone), hn]
    exact dif_neg (by omega)

/-- A limit without a value cannot be compared with anything. -/
theorem Valueless.limits_eq (h : o.Valueless) : o.limits = .error noNumber := by
  rcases h with hnone | ⟨t, ht, hle, hnone⟩
  · exact limits_of_none hnone
  · rw [limits_of_le ht hle, hnone]

/-- **Options set limits, or admit no program, or leave a limit without a value.** -/
theorem limits_cases (o : Options) :
    (∃ limits, o.limits = .ok limits ∧ o.maxThreads = some (limits.threads : ℤ) ∧
      o.maxInstructions = some (limits.instructions : ℤ)) ∨ o.NoRoom ∨ o.Valueless := by
  -- the threads are checked before the instructions are looked at
  cases ht : o.maxThreads with
  | none => exact Or.inr (Or.inr (Or.inl ht))
  | some t =>
    by_cases hone : t < 1
    · exact Or.inr (Or.inl ⟨t, ht, Or.inl hone⟩)
    · have hle : 1 ≤ t := Int.not_lt.1 hone
      cases hn : o.maxInstructions with
      | none => exact Or.inr (Or.inr (Or.inr ⟨t, ht, hle, hn⟩))
      | some n =>
        by_cases hpos : n < 1
        · exact Or.inr (Or.inl ⟨t, ht, Or.inr ⟨n, hn, hpos⟩⟩)
        · refine Or.inl ⟨⟨t.toNat, n.toNat, by omega, by omega⟩, ?_, ?_, ?_⟩
          · rw [limits_of_le ht hle, hn]
            exact dif_pos (by omega)
          · rw [Int.toNat_of_nonneg (by omega)]
          · rw [Int.toNat_of_nonneg (by omega)]

end Options

/-! ### Jobs -/

/-- What is prepared from arguments and environment: a response if the arguments are refused or ask
for help, and a job otherwise. -/
theorem prepare_eq (i : Invocation) : prepare i.arguments i.environment =
    match i.request with
    | .error f => .inl ⟨"", i.warnings ++ usage (helpWidth (i.environment columnsVariable)) ++
        notice ("error: " ++ f.message), .left 2⟩
    | .ok .help => .inl ⟨help (helpWidth (i.environment columnsVariable)) i.threads.1
        i.instructions.1, i.warnings, .left 0⟩
    | .ok (.run o) =>
      match o.limits with
      | .error .noRoom =>
        .inl ⟨"", i.warnings ++ notice ("error: " ++ Fault.noRoom.message), .returned 2⟩
      | .error f => .inl ⟨"", i.warnings, .broken f⟩
      | .ok limits => .inr ⟨o, limits, i.preamble o⟩ := rfl

/-- What the command reads are the bytes that are named. -/
theorem fetch_eq (i : Invocation) (program : Option String) :
    fetch (m := Id) (fun path ↦ pure (i.read path)) (Invocation.path? program) =
      pure (i.bytes program) := by
  rw [fetch, Invocation.bytes]
  cases Invocation.path? program with
  | none => rfl
  | some path =>
    simp only [Option.map_some]
    split
    · rfl
    · rfl

/-- If the limits are valid, the response is what the job makes of the bytes that have been read. -/
theorem run_of_limits (h : i.Accepts o) (hlimits : o.limits = .ok limits) :
    run i = Job.finish ⟨o, limits, i.preamble o⟩ i.host (i.bytes o.program) := by
  unfold run perform
  rw [prepare_eq, show i.request = .ok (.run o) from h]
  simp only [hlimits]
  exact congrArg (Job.finish _ i.host) (fetch_eq i o.program)

/-- If they leave no room, nothing is read. -/
theorem run_of_noRoom (h : i.Accepts o) (hlimits : o.limits = .error .noRoom) :
    run i = ⟨"", i.warnings ++ notice ("error: " ++ Fault.noRoom.message), .returned 2⟩ := by
  unfold run perform
  rw [prepare_eq, show i.request = .ok (.run o) from h]
  simp only [hlimits]
  rfl

/-- If one of them is no number, nothing is read either, but this is no proper refusal. -/
theorem run_of_noNumber (h : i.Accepts o) (hlimits : o.limits = .error noNumber) :
    run i = ⟨"", i.warnings, .broken noNumber⟩ := by
  unfold run perform
  rw [prepare_eq, show i.request = .ok (.run o) from h]
  simp only [hlimits, noNumber]
  rfl

/-- What can be printed is printed. -/
theorem Response.print_of_none {r : Response} (h : host.unprintable? r.stdout = none) :
    r.print host = r := by
  rw [print, h]

/-- What cannot be printed is lost as a whole. -/
theorem Response.print_of_some {r : Response} {reason : String}
    (h : host.unprintable? r.stdout = some reason) :
    r.print host = { r with stdout := "", ending := .broken (.unprintable reason) } := by
  rw [print, h]

theorem mapError_eq_error {α ε ε' : Type} {g : ε → ε'} {x : Except ε α} {e : ε'}
    (h : x.mapError g = .error e) : ∃ r, x = .error r ∧ g r = e := by
  cases x with
  | error r => exact ⟨r, rfl, Except.error.inj h⟩
  | ok a => cases h

namespace Job

theorem program_of_error (j : Job) (f : Fault) : j.program (.error f) = .error f := rfl

/-- The bytes of a text are decoded to this text. -/
theorem program_utf8 (j : Job) (text : String) :
    j.program (.ok (utf8 text)) = Program.read text j.limits := by
  have hdecode : decode (utf8 text) = .ok text := decode_eq_ok_iff.2 rfl
  simp only [program, bind, Except.bind, hdecode]

/-- Bytes that are those of no text are refused. -/
theorem program_of_not_utf8 (j : Job) (h : ∀ text, bs ≠ utf8 text) :
    ∃ d, j.program (.ok bs) = .error (.undecodable d) := by
  cases hdecode : decode bs with
  | error d =>
    refine ⟨d, ?_⟩
    simp only [program, bind, Except.bind, hdecode]
    rfl
  | ok text => exact absurd (decode_eq_ok_iff.1 hdecode) (h text)

/-- If there is no program, the response is a refusal. -/
theorem finish_of_error {j : Job} (h : j.program content = .error f) :
    j.finish host content = j.refuse f := by
  unfold finish
  rw [h]

/-- A refusal of what the text says names the source and the fault, and nothing is printed. -/
theorem refuse_of_malformed (j : Job)
    (h : (∃ cause, f = .program cause) ∨ ∃ n cause, f = .line n cause) :
    j.refuse f = ⟨"", j.stderr ++ notice ("error: " ++ j.source ++ ": " ++ f.message),
      .returned 2⟩ := by
  rcases h with ⟨cause, rfl⟩ | ⟨n, cause, rfl⟩
  · rfl
  · rfl

/-- A program that was read can be compared, and the report is printed if the machine affords it. -/
theorem exists_finish_eq (j : Job) (h : Program.read text j.limits = .ok p) :
    ∃ c, p.compare j.limits j.options.readAround = .ok c ∧
      j.finish host (.ok (utf8 text)) = (host.tooDeep? p.total).elim ((j.report c).print host)
        fun reason ↦ ⟨"", j.stderr, .broken (.tooDeep reason)⟩ := by
  obtain ⟨-, -, -, hcheck⟩ := Program.read_eq_ok_iff.1 h
  have hcompare := Program.compare_of_storesFit hcheck (Program.storesFit_of_ofLines h)
    j.options.readAround
  refine ⟨_, hcompare, ?_⟩
  unfold finish
  rw [program_utf8, h]
  simp only [hcompare]
  cases host.tooDeep? p.total with
  | none => rfl
  | some reason => rfl

end Job

/-! ### How the command ends -/

/-- **A well-formed program within the limits**: it has an instruction and no bad line, and neither
its threads nor their instructions are too many. -/
structure WellFormed (limits : Limits) (text : String) : Prop where
  /-- No line is bad. -/
  not_bad : ∀ c ∈ contents text, ¬Bad c
  /-- Some line holds an instruction. -/
  exists_holds : ∃ c ∈ contents text, ∃ i, Holds c i
  /-- The threads are within the limits. -/
  within : ∃ ths, Describes (contents text) ths ∧ (finish ths).length ≤ limits.threads ∧
    ∀ th ∈ finish ths, th.length ≤ limits.instructions

/-- A text is well formed if a program can be read from it. -/
theorem wellFormed_iff : WellFormed limits text ↔ ∃ p, Program.read text limits = .ok p := by
  rw [Program.exists_read_eq_ok_iff]
  exact ⟨fun ⟨hbad, hholds, hwithin⟩ ↦ ⟨hbad, hholds, hwithin⟩,
    fun ⟨hbad, hholds, hwithin⟩ ↦ ⟨hbad, hholds, hwithin⟩⟩

/-- **The machine affords the report** on the program in a text: the search is not too deep for it,
and the standard output takes what is printed. -/
def Host.Affords (host : Host) (limits : Limits) (o : Options) (text : String) : Prop :=
  ∀ p c, Program.read text limits = .ok p → p.compare limits o.readAround = .ok c →
    host.tooDeep? p.total = none ∧ host.unprintable? (Report.comparison c o.witnesses) = none

/-- A machine without limits affords everything. -/
theorem affords_unlimited (limits : Limits) (o : Options) (text : String) :
    Host.unlimited.Affords limits o text :=
  fun _ _ _ _ ↦ ⟨rfl, rfl⟩

/-- **What an invocation comes to.** The last five cases are the faults that are not handled. -/
inductive Comes (i : Invocation) : Ending → Prop
  /-- The arguments ask for help. -/
  | help (h : i.request = .ok .help) : Comes i (.left 0)
  /-- The arguments are not accepted. -/
  | usage {f : UsageFault} (h : i.request = .error f) : Comes i (.left 2)
  /-- The limits admit no program. -/
  | noRoom {o : Options} (h : i.Accepts o) (hroom : o.NoRoom) : Comes i (.returned 2)
  /-- The bytes cannot be read. -/
  | unreadable {o : Options} {limits : Limits} {path : Option String} {r : ReadFault}
    (h : i.Accepts o) (hlimits : o.limits = .ok limits)
    (hbytes : i.bytes o.program = .error (.unreadable path r)) : Comes i (.returned 1)
  /-- The bytes are no text in UTF-8. -/
  | undecodable {o : Options} {limits : Limits} {bs : List UInt8} (h : i.Accepts o)
    (hlimits : o.limits = .ok limits) (hbytes : i.bytes o.program = .ok bs)
    (hbs : ∀ text, bs ≠ utf8 text) : Comes i (.returned 1)
  /-- The text is no well-formed program within the limits. -/
  | malformed {o : Options} {limits : Limits} {text : String} (h : i.Accepts o)
    (hlimits : o.limits = .ok limits) (hbytes : i.bytes o.program = .ok (utf8 text))
    (htext : ¬WellFormed limits text) (hlong : ∀ k, ¬FirstOverlong limits (contents text) k) :
    Comes i (.returned 2)
  /-- The text is a well-formed program within the limits, and the machine affords the report. -/
  | report {o : Options} {limits : Limits} {text : String} (h : i.Accepts o)
    (hlimits : o.limits = .ok limits) (hbytes : i.bytes o.program = .ok (utf8 text))
    (htext : WellFormed limits text) (haffords : i.host.Affords limits o text) :
    Comes i (.returned 0)
  /-- A limit has no value. -/
  | valueless {o : Options} (h : i.Accepts o) (hnone : o.Valueless) : Comes i (.broken noNumber)
  /-- The path has a null character. -/
  | nullInPath {o : Options} {limits : Limits} {path : String} (h : i.Accepts o)
    (hlimits : o.limits = .ok limits) (hpath : Invocation.path? o.program = some path)
    (hnull : Path.hasNull (Path.normal path) = true) : Comes i (.broken .nullInPath)
  /-- The first line that offends has a numeral with too many digits. -/
  | overlong {o : Options} {limits : Limits} {text : String} {k : ℕ} (h : i.Accepts o)
    (hlimits : o.limits = .ok limits) (hbytes : i.bytes o.program = .ok (utf8 text))
    (hlong : FirstOverlong limits (contents text) k) : Comes i (.broken (.numeralTooLong k))
  /-- The program has more instructions than calls can be nested. -/
  | tooDeep {o : Options} {limits : Limits} {text : String} {p : Program} {reason : String}
    (h : i.Accepts o) (hlimits : o.limits = .ok limits)
    (hbytes : i.bytes o.program = .ok (utf8 text)) (hread : Program.read text limits = .ok p)
    (hdeep : i.host.tooDeep? p.total = some reason) : Comes i (.broken (.tooDeep reason))
  /-- The standard output does not take the report. -/
  | unprintable {o : Options} {limits : Limits} {text : String} {p : Program} {c : Comparison}
    {reason : String} (h : i.Accepts o) (hlimits : o.limits = .ok limits)
    (hbytes : i.bytes o.program = .ok (utf8 text)) (hread : Program.read text limits = .ok p)
    (hdeep : i.host.tooDeep? p.total = none) (hcompare : p.compare limits o.readAround = .ok c)
    (hprint : i.host.unprintable? (Report.comparison c o.witnesses) = some reason) :
    Comes i (.broken (.unprintable reason))

/-- A path with a null is refused before anything is opened. -/
theorem bytes_of_null (hpath : Invocation.path? o.program = some path)
    (hnull : Path.hasNull (Path.normal path) = true) :
    i.bytes o.program = .error .nullInPath := by
  simp only [Invocation.bytes, hpath, hnull, if_true]

/-- **Bytes cannot be had because of a null character in the path, or for the reason that reading
gives.** -/
theorem cases_of_bytes_eq_error (h : i.bytes o.program = .error f) :
    (∃ path, Invocation.path? o.program = some path ∧
      Path.hasNull (Path.normal path) = true) ∨ ∃ path r, f = .unreadable path r := by
  unfold Invocation.bytes at h
  cases hpath : Invocation.path? o.program with
  | none =>
    simp only [hpath] at h
    obtain ⟨r, -, rfl⟩ := mapError_eq_error h
    exact Or.inr ⟨none, r, rfl⟩
  | some path =>
    simp only [hpath] at h
    by_cases hnull : Path.hasNull (Path.normal path) = true
    · exact Or.inl ⟨path, rfl, hnull⟩
    · rw [if_neg hnull] at h
      obtain ⟨r, -, rfl⟩ := mapError_eq_error h
      exact Or.inr ⟨_, r, rfl⟩

/-- A text that cannot be read has a fault that is handled, or its first line that offends has a
numeral with too many digits. -/
theorem cases_of_text_eq_error (h : Program.read text limits = .error f) :
    (∃ cause, f = .program cause) ∨ (∃ n cause, f = .line n cause) ∨
      ∃ k, f = .numeralTooLong k ∧ FirstOverlong limits (contents text) k := by
  rcases Program.exists_cause_or_blamed_of_read h with
    hcause | ⟨before, c, after, hsplit, hbefore, hblamed⟩
  · exact Or.inl hcause
  · cases hblamed with
    | malformed hbad hcause => exact Or.inr (Or.inl ⟨_, _, rfl⟩)
    | overlong hc => exact Or.inr (Or.inr ⟨_, rfl, before, c, after, hsplit, hbefore, hc⟩)
    | threads hsep hd hlimit => exact Or.inr (Or.inl ⟨_, _, rfl⟩)
    | instructions hholds hd hlimit => exact Or.inr (Or.inl ⟨_, _, rfl⟩)

/-- A malformed program is reported as an error. -/
theorem run_of_malformed (h : i.Accepts o) (hlimits : o.limits = .ok limits)
    (hbytes : i.bytes o.program = .ok (utf8 text)) (htext : ¬WellFormed limits text)
    (hlong : ∀ k, ¬FirstOverlong limits (contents text) k) :
    ∃ message, run i = ⟨"", i.preamble o ++ notice ("error: " ++ message), .returned 2⟩ := by
  rw [run_of_limits h hlimits, hbytes]
  cases hread : Program.read text limits with
  | ok p => exact absurd (wellFormed_iff.2 ⟨p, hread⟩) htext
  | error f =>
    have hhandled : (∃ cause, f = .program cause) ∨ ∃ n cause, f = .line n cause := by
      rcases cases_of_text_eq_error hread with hcause | hcause | ⟨k, -, hk⟩
      · exact Or.inl hcause
      · exact Or.inr hcause
      · exact absurd hk (hlong k)
    rw [Job.finish_of_error ((Job.program_utf8 _ text).trans hread),
      Job.refuse_of_malformed _ hhandled, String.append_assoc, String.append_assoc]
    exact ⟨_, rfl⟩

/-- A well-formed program is compared, and what becomes of the report is left to the machine. -/
theorem run_of_wellFormed (h : i.Accepts o) (hlimits : o.limits = .ok limits)
    (hbytes : i.bytes o.program = .ok (utf8 text)) (hread : Program.read text limits = .ok p) :
    ∃ c, p.compare limits o.readAround = .ok c ∧
      run i = (i.host.tooDeep? p.total).elim
        ((Job.report ⟨o, limits, i.preamble o⟩ c).print i.host)
        fun reason ↦ ⟨"", i.preamble o, .broken (.tooDeep reason)⟩ := by
  rw [run_of_limits h hlimits, hbytes]
  exact Job.exists_finish_eq ⟨o, limits, i.preamble o⟩ hread

/-- If the machine affords the report, it is printed. -/
theorem run_of_affords (h : i.Accepts o) (hlimits : o.limits = .ok limits)
    (hbytes : i.bytes o.program = .ok (utf8 text)) (hread : Program.read text limits = .ok p)
    (haffords : i.host.Affords limits o text) :
    ∃ c, p.compare limits o.readAround = .ok c ∧
      run i = Job.report ⟨o, limits, i.preamble o⟩ c := by
  obtain ⟨c, hcompare, hrun⟩ := run_of_wellFormed h hlimits hbytes hread
  obtain ⟨hdeep, hprint⟩ := haffords p c hread hcompare
  refine ⟨c, hcompare, ?_⟩
  rw [hrun, hdeep, Option.elim_none]
  exact Response.print_of_none hprint

/-- **An invocation ends in what it comes to.** -/
theorem Comes.ending_eq {e : Ending} (h : Comes i e) : (run i).ending = e := by
  cases h with
  | help h =>
    unfold run perform
    rw [prepare_eq, h]
    rfl
  | usage h =>
    unfold run perform
    rw [prepare_eq, h]
    rfl
  | noRoom h hroom => rw [run_of_noRoom h hroom.limits_eq]
  | unreadable h hlimits hbytes =>
    rw [run_of_limits h hlimits, hbytes, Job.finish_of_error (Job.program_of_error _ _)]
    rfl
  | undecodable h hlimits hbytes hbs =>
    obtain ⟨d, hd⟩ := Job.program_of_not_utf8 ⟨_, _, i.preamble _⟩ hbs
    rw [run_of_limits h hlimits, hbytes, Job.finish_of_error hd]
    rfl
  | malformed h hlimits hbytes htext hlong =>
    obtain ⟨message, hrun⟩ := run_of_malformed h hlimits hbytes htext hlong
    rw [hrun]
  | report h hlimits hbytes htext haffords =>
    obtain ⟨p, hread⟩ := wellFormed_iff.1 htext
    obtain ⟨c, -, hrun⟩ := run_of_affords h hlimits hbytes hread haffords
    rw [hrun]
    rfl
  | valueless h hnone => rw [run_of_noNumber h hnone.limits_eq]
  | nullInPath h hlimits hpath hnull =>
    rw [run_of_limits h hlimits, bytes_of_null hpath hnull,
      Job.finish_of_error (Job.program_of_error _ _)]
    rfl
  | overlong h hlimits hbytes hlong =>
    have hread := Program.read_eq_numeralTooLong_iff.2 hlong
    rw [run_of_limits h hlimits, hbytes,
      Job.finish_of_error ((Job.program_utf8 _ _).trans hread)]
    rfl
  | tooDeep h hlimits hbytes hread hdeep =>
    obtain ⟨c, -, hrun⟩ := run_of_wellFormed h hlimits hbytes hread
    rw [hrun, hdeep, Option.elim_some]
  | unprintable h hlimits hbytes hread hdeep hcompare hprint =>
    obtain ⟨c, hcompare', hrun⟩ := run_of_wellFormed h hlimits hbytes hread
    obtain rfl := Except.ok.inj (hcompare'.symm.trans hcompare)
    rw [hrun, hdeep, Option.elim_none]
    exact congrArg Response.ending (Response.print_of_some hprint)

/-- A well-formed program is reported, unless the machine does not afford it. -/
theorem exists_comes_of_wellFormed (h : i.Accepts o) (hlimits : o.limits = .ok limits)
    (hbytes : i.bytes o.program = .ok (utf8 text)) (htext : WellFormed limits text) :
    ∃ e, Comes i e := by
  obtain ⟨p, hread⟩ := wellFormed_iff.1 htext
  obtain ⟨c, hcompare, -⟩ := run_of_wellFormed h hlimits hbytes hread
  cases hdeep : i.host.tooDeep? p.total with
  | some reason => exact ⟨_, .tooDeep h hlimits hbytes hread hdeep⟩
  | none =>
    cases hprint : i.host.unprintable? (Report.comparison c o.witnesses) with
    | some reason => exact ⟨_, .unprintable h hlimits hbytes hread hdeep hcompare hprint⟩
    | none =>
      refine ⟨_, .report h hlimits hbytes htext fun p' c' hread' hcompare' ↦ ?_⟩
      obtain rfl := Except.ok.inj (hread.symm.trans hread')
      obtain rfl := Except.ok.inj (hcompare.symm.trans hcompare')
      exact ⟨hdeep, hprint⟩

/-- **Every invocation comes to something.** -/
theorem exists_comes (i : Invocation) : ∃ e, Comes i e := by
  cases hrequest : i.request with
  | error f => exact ⟨_, .usage hrequest⟩
  | ok request =>
    cases request with
    | help => exact ⟨_, .help hrequest⟩
    | run o =>
      have h : i.Accepts o := hrequest
      rcases o.limits_cases with ⟨limits, hlimits, -⟩ | hroom | hnone
      · cases hbytes : i.bytes o.program with
        | error f =>
          rcases cases_of_bytes_eq_error hbytes with ⟨path, hpath, hnull⟩ | ⟨path, r, rfl⟩
          · exact ⟨_, .nullInPath h hlimits hpath hnull⟩
          · exact ⟨_, .unreadable h hlimits hbytes⟩
        | ok bs =>
          by_cases htext : ∃ text, bs = utf8 text
          · obtain ⟨text, rfl⟩ := htext
            by_cases hform : WellFormed limits text
            · exact exists_comes_of_wellFormed h hlimits hbytes hform
            · by_cases hlong : ∃ k, FirstOverlong limits (contents text) k
              · obtain ⟨k, hk⟩ := hlong
                exact ⟨_, .overlong h hlimits hbytes hk⟩
              · exact ⟨_, .malformed h hlimits hbytes hform (not_exists.1 hlong)⟩
          · exact ⟨_, .undecodable h hlimits hbytes (not_exists.1 htext)⟩
      · exact ⟨_, .noRoom h hroom⟩
      · exact ⟨_, .valueless h hnone⟩

/-- **How a run ends is decided by the cases**: one of them applies to every run, and it determines
the ending. -/
theorem ending_eq_iff {e : Ending} : (run i).ending = e ↔ Comes i e := by
  refine ⟨fun h ↦ ?_, Comes.ending_eq⟩
  obtain ⟨e', he'⟩ := exists_comes i
  rw [← h, he'.ending_eq]
  exact he'

/-! ### Where the limits come from -/

/-- **Where the limit of the option `f` comes from**: the last value that it is given, else the
variable of the environment if it holds an integer, else the standard. -/
inductive Governs (i : Invocation) (l : List (String × Kind)) (f : Flag) (name : String)
    (standard : ℤ) : ℤ → Prop
  /-- The option is given. -/
  | option {value : String} {v : ℤ} (h : (values f false l).getLast? = some value)
    (hv : Numeral.readPadded value.toList = some v) : Governs i l f name standard v
  /-- The option is not given, and the variable holds an integer. -/
  | environment {value : String} {v : ℤ} (h : values f false l = [])
    (hvalue : i.environment name = some value) (hv : Numeral.readPadded value.toList = some v) :
    Governs i l f name standard v
  /-- The option is not given, and the variable is unset or holds no integer. -/
  | standard (h : values f false l = [])
    (hvalue : ∀ value, i.environment name = some value →
      Numeral.readPadded value.toList = none) : Governs i l f name standard standard

/-- The empty text is no integer. -/
theorem fromEnvironment_fst (name : String) (value : Option String) (standard : ℤ) :
    (fromEnvironment name value standard).1 =
      (value.bind fun text ↦ Numeral.readPadded text.toList).getD standard := by
  cases value with
  | none => rfl
  | some text =>
    rw [fromEnvironment, Option.bind_some]
    by_cases hempty : text = ""
    · have hread : Numeral.readPadded "".toList = none := by decide
      rw [if_pos hempty, hempty, hread, Option.getD_none]
    · rw [if_neg hempty]
      cases Numeral.readPadded text.toList with
      | none => rfl
      | some v => rfl

theorem governs_of_lastLimit {l : List (String × Kind)} {g : Flag} {name : String} {standard v : ℤ}
    (h : lastLimit (some (fromEnvironment name (i.environment name) standard).1)
      (values g false l) = some v) : Governs i l g name standard v := by
  rw [fromEnvironment_fst] at h
  cases hlast : (values g false l).getLast? with
  | some value =>
    rw [lastLimit, hlast] at h
    exact .option hlast h
  | none =>
    rw [lastLimit, hlast, Option.elim_none, Option.some_inj] at h
    have hnil : values g false l = [] := List.getLast?_eq_none_iff.1 hlast
    subst h
    cases hread : (i.environment name).bind fun text ↦ Numeral.readPadded text.toList with
    | some v =>
      obtain ⟨value, hvalue, hv⟩ := Option.bind_eq_some_iff.1 hread
      exact .environment hnil hvalue hv
    | none => exact .standard hnil (Option.bind_eq_none_iff.1 hread)

/-- Accepted options are what the arguments mean, with the limits of the environment where they say
nothing. -/
theorem Invocation.Accepts.means (h : i.Accepts o) : ∃ l, sort i.arguments = .ok l ∧
    Means none (.initial i.threads.1 i.instructions.1) l o := by
  obtain ⟨l, hsort, htakes⟩ := parse_eq_run_iff.1 h
  exact ⟨l, hsort, htakes.means (by simp)⟩

/-! ### What is reported -/

/-- **What an invocation reports**: the comparison of the program in the text that is named, within
the limits and with the settings that are given. -/
def Invocation.Reports (i : Invocation) (report : String) : Prop :=
  ∃ l limits text p c, sort i.arguments = .ok l ∧
    Governs i l .maxThreads threadsVariable 6 (limits : Limits).threads ∧
    Governs i l .maxInstructions instructionsVariable 10 limits.instructions ∧
    i.bytes (operands false l).head? = .ok (utf8 text) ∧
    Program.read text limits = .ok p ∧
    p.compare limits (given .readAround l) = .ok c ∧
    report = Report.comparison c (given .witnesses l)

/-- The parts of an invocation that returns 0. -/
theorem exists_report_of_returned (h : (run i).ending = .returned 0) :
    ∃ o limits text p c, i.Accepts o ∧ o.maxThreads = some (limits.threads : ℤ) ∧
      o.maxInstructions = some (limits.instructions : ℤ) ∧
      i.bytes o.program = .ok (utf8 text) ∧ Program.read text limits = .ok p ∧
      p.compare limits o.readAround = .ok c ∧ run i = Job.report ⟨o, limits, i.preamble o⟩ c := by
  cases ending_eq_iff.1 h with
  | @report o limits text h hlimits hbytes htext haffords =>
    obtain ⟨p, hread⟩ := wellFormed_iff.1 htext
    obtain ⟨c, hcompare, hrun⟩ := run_of_affords h hlimits hbytes hread haffords
    rcases o.limits_cases with ⟨limits', hlimits', hthreads, hinstructions⟩ | hroom | hnone
    · obtain rfl := Except.ok.inj (hlimits.symm.trans hlimits')
      exact ⟨o, limits, text, p, c, h, hthreads, hinstructions, hbytes, hread, hcompare, hrun⟩
    · cases hlimits.symm.trans hroom.limits_eq
    · cases hlimits.symm.trans hnone.limits_eq

/-- A run that returns zero has printed the report. -/
theorem reports_of_returned (h : (run i).ending = .returned 0) : i.Reports (run i).stdout := by
  obtain ⟨o, limits, text, p, c, ho, hthreads, hinstructions, hbytes, hread, hcompare, hrun⟩ :=
    exists_report_of_returned h
  obtain ⟨l, hsort, hmeans⟩ := ho.means
  have hprogram : o.program = (operands false l).head? := by
    have htoList : operands false l = o.program.toList := hmeans.program
    rw [htoList, Option.head?_toList]
  have hwitnesses : o.witnesses = given .witnesses l := hmeans.has .witnesses rfl
  have haround : o.readAround = given .readAround l := hmeans.has .readAround rfl
  refine ⟨l, limits, text, p, c, hsort, ?_, ?_, hprogram ▸ hbytes, hread, haround ▸ hcompare, ?_⟩
  · exact governs_of_lastLimit ((hmeans.limit .maxThreads rfl).symm.trans hthreads)
  · exact governs_of_lastLimit ((hmeans.limit .maxInstructions rfl).symm.trans hinstructions)
  · rw [hrun, ← hwitnesses]
    rfl

/-! ### The standard output -/

theorem Job.stdout_refuse (j : Job) (f : Fault) : (j.refuse f).stdout = "" := by
  cases f <;> rfl

/-- A response that is not printed leaves nothing on the standard output. -/
theorem Response.stdout_print {r : Response} (h : (r.print host).ending ≠ r.ending) :
    (r.print host).stdout = "" := by
  cases hprint : host.unprintable? r.stdout with
  | none => exact absurd (by rw [print_of_none hprint]) h
  | some reason => rw [print_of_some hprint]

/-- A job prints a report or nothing. -/
theorem Job.stdout_finish {j : Job} (h : (j.finish host content).ending ≠ .returned 0) :
    (j.finish host content).stdout = "" := by
  unfold finish at h ⊢
  split
  · exact j.stdout_refuse _
  · rename_i p hp
    simp only [hp] at h
    split
    · rfl
    · rename_i hdeep
      simp only [hdeep] at h
      split
      · rfl
      · rename_i c hc
        simp only [hc] at h
        exact Response.stdout_print h

/-- A run that does not return zero has printed nothing. -/
theorem stdout_of_ne (h : i.Accepts o) (hne : (run i).ending ≠ .returned 0) :
    (run i).stdout = "" := by
  rcases o.limits_cases with ⟨limits, hlimits, -⟩ | hroom | hnone
  · rw [run_of_limits h hlimits] at hne ⊢
    exact Job.stdout_finish hne
  · rw [run_of_noRoom h hroom.limits_eq]
  · rw [run_of_noNumber h hnone.limits_eq]

/-- A run that does not leave early has accepted its arguments. -/
theorem exists_accepts (h : ∀ code, (run i).ending ≠ .left code) : ∃ o, i.Accepts o := by
  cases hrequest : i.request with
  | error f => exact absurd (Comes.usage hrequest).ending_eq (h 2)
  | ok request =>
    cases request with
    | help => exact absurd (Comes.help hrequest).ending_eq (h 0)
    | run o => exact ⟨o, hrequest⟩

/-! ### Statistics -/

theorem Response.print_congr {r r' : Response} (hstdout : r.stdout = r'.stdout)
    (hending : r.ending = r'.ending) : (r.print host).ending = (r'.print host).ending ∧
      (r.print host).stdout = (r'.print host).stdout := by
  cases hprint : host.unprintable? r.stdout with
  | none =>
    rw [print_of_none hprint, print_of_none (hstdout ▸ hprint)]
    exact ⟨hending, hstdout⟩
  | some reason =>
    rw [print_of_some hprint, print_of_some (hstdout ▸ hprint)]
    exact ⟨rfl, rfl⟩

/-- **Asking for statistics changes neither the ending nor what is printed.** -/
theorem Job.finish_congr (hq : o.quiet = o'.quiet) (limits : Limits) (stderr stderr' : String)
    (host : Host) (content : Except Fault (List UInt8)) :
    (Job.finish ⟨o, limits, stderr⟩ host content).ending =
      (Job.finish ⟨o', limits, stderr'⟩ host content).ending ∧
    (Job.finish ⟨o, limits, stderr⟩ host content).stdout =
      (Job.finish ⟨o', limits, stderr'⟩ host content).stdout := by
  have haround : o.quiet.readAround = o'.quiet.readAround := by rw [hq]
  have hwitnesses : o.quiet.witnesses = o'.quiet.witnesses := by rw [hq]
  -- being quiet changes neither of these options
  change o.readAround = o'.readAround at haround
  change o.witnesses = o'.witnesses at hwitnesses
  have hprogram : Job.program ⟨o, limits, stderr⟩ content =
      Job.program ⟨o', limits, stderr'⟩ content := rfl
  unfold finish
  rw [hprogram]
  cases Job.program ⟨o', limits, stderr'⟩ content with
  | error f => cases f <;> exact ⟨rfl, rfl⟩
  | ok p =>
    simp only [haround]
    cases host.tooDeep? p.total with
    | some reason => exact ⟨rfl, rfl⟩
    | none =>
      cases p.compare limits o'.readAround with
      | error f => exact ⟨rfl, rfl⟩
      | ok c =>
        refine Response.print_congr ?_ rfl
        show Report.comparison c o.witnesses = Report.comparison c o'.witnesses
        rw [hwitnesses]

/-- **Asking for statistics changes neither the end nor the standard output.** -/
theorem run_congr_quiet {arguments : List String} (hquiet : quiet arguments = quiet i.arguments)
    (h : i.Accepts o) (h' : Invocation.Accepts { i with arguments } o') :
    (run { i with arguments }).ending = (run i).ending ∧
      (run { i with arguments }).stdout = (run i).stdout := by
  have hq : o'.quiet = o.quiet := parse_congr_quiet hquiet h' h
  have hlimits : o'.quiet.limits = o.quiet.limits := by rw [hq]
  change o'.limits = o.limits at hlimits
  obtain ⟨hprogram, -⟩ := Options.eq_of_quiet hq
  rcases o.limits_cases with ⟨limits, hok, -⟩ | hroom | hnone
  · rw [run_of_limits h hok, run_of_limits h' (hlimits.trans hok), hprogram]
    exact Job.finish_congr hq limits _ _ i.host _
  · rw [run_of_noRoom h hroom.limits_eq, run_of_noRoom h' (hlimits.trans hroom.limits_eq)]
    exact ⟨rfl, rfl⟩
  · rw [run_of_noNumber h hnone.limits_eq, run_of_noNumber h' (hlimits.trans hnone.limits_eq)]
    exact ⟨rfl, rfl⟩

/-- A notice is a line. -/
theorem notice_eq_unlines (text : String) : notice text = unlines ["conscheck: " ++ text] := by
  rw [unlines_cons]
  exact String.append_empty.symm

theorem notice_error (message : String) :
    notice ("error: " ++ message) = unlines ["conscheck: error: " ++ message] := by
  have hstart : "conscheck: " ++ "error: " = "conscheck: error: " := by decide
  rw [notice_eq_unlines, ← String.append_assoc, hstart]

theorem fromEnvironment_snd_eq_unlines (name : String) (value : Option String) (standard : ℤ) :
    ∃ lines, (fromEnvironment name value standard).2 = unlines lines := by
  unfold fromEnvironment
  split
  · exact ⟨[], rfl⟩
  · split
    · exact ⟨[], rfl⟩
    · split
      · exact ⟨[], rfl⟩
      · exact ⟨_, notice_eq_unlines _⟩

/-- Warnings are whole lines, so what is appended to them begins a line. -/
theorem warnings_eq_unlines (i : Invocation) : ∃ lines, i.warnings = unlines lines := by
  obtain ⟨lines, hlines⟩ := fromEnvironment_snd_eq_unlines threadsVariable
    (i.environment threadsVariable) Limits.standard.threads
  obtain ⟨lines', hlines'⟩ := fromEnvironment_snd_eq_unlines instructionsVariable
    (i.environment instructionsVariable) Limits.standard.instructions
  refine ⟨lines ++ lines', ?_⟩
  rw [unlines_append, ← hlines, ← hlines']
  rfl

theorem preamble_eq_unlines (i : Invocation) (o : Options) :
    ∃ lines, i.preamble o = unlines lines := by
  obtain ⟨lines, hlines⟩ := warnings_eq_unlines i
  rw [Invocation.preamble, hlines]
  split
  · rw [notice_eq_unlines, ← unlines_append]
    exact ⟨_, rfl⟩
  · exact ⟨lines, String.append_empty⟩

/-- The line that counts the executions and the outcomes under a model. -/
def statisticsLine (m : Model) (executions outcomes : ℕ) : String :=
  "conscheck: " ++ (m.title ++ ": " ++ Numeral.write executions ++ " executions, " ++
    Numeral.write outcomes ++ " distinct outcomes")

/-- The line that counts the violations. -/
def violationsLine (violations : ℕ) : String :=
  "conscheck: " ++ (Numeral.write violations ++ " store-atomicity violations")

/-- The statistics stand behind everything else. -/
theorem stderr_report {j : Job} (h : j.options.verbose = true) (c : Comparison) :
    (j.report c).stderr = j.stderr ++ unlines
      [statisticsLine .ibm370 c.storeAtomic.executions c.storeAtomic.outcomes.size,
        statisticsLine .tso c.writeAtomic.executions c.writeAtomic.outcomes.size,
        violationsLine c.violations.length] := by
  have hlines : (j.report c).stderr = j.stderr ++
      (statistics .ibm370 c.storeAtomic ++ statistics .tso c.writeAtomic ++
        notice (Numeral.write c.violations.length ++ " store-atomicity violations")) := by
    show j.stderr ++ (if j.options.verbose = true then _ else _) = _
    rw [if_pos h]
  rw [hlines, statistics, statistics, notice_eq_unlines, notice_eq_unlines, notice_eq_unlines,
    ← unlines_append, ← unlines_append]
  rfl

/-- **The statistics count the lines of the report**, and those with a star. -/
theorem stderr_of_verbose (h : (run i).ending = .returned 0) (ho : i.Accepts o)
    (hverbose : o.verbose = true) :
    ∃ lines executions executions', (run i).stderr = unlines (lines ++
      [statisticsLine .ibm370 executions
          (Report.outcomeLines (Report.firstSection (run i).stdout)).length,
        statisticsLine .tso executions'
          (Report.outcomeLines (Report.secondSection (run i).stdout)).length,
        violationsLine ((Report.outcomeLines (Report.secondSection (run i).stdout)).filter
          Report.starred).length]) := by
  obtain ⟨o', limits, text, p, c, ho', -, -, -, hread, hcompare, hrun⟩ :=
    exists_report_of_returned h
  -- the options that the report was made for are the accepted ones
  obtain rfl : o' = o := by
    have heq := (show i.request = .ok (.run o') from ho').symm.trans ho
    exact Request.run.inj (Except.ok.inj heq)
  have hstdout : (run i).stdout = Report.comparison c o'.witnesses := by
    rw [hrun]
    rfl
  obtain ⟨-, -, -, hcheck⟩ := Program.read_eq_ok_iff.1 hread
  rw [Program.compare_of_storesFit hcheck (Program.storesFit_of_ofLines hread)] at hcompare
  obtain ⟨hfirst, hsecond, hstarred⟩ := Report.length_outcomeLines
    (Program.spaceless_of_ofLines hread) o'.readAround o'.witnesses
  rw [Except.ok.inj hcompare, ← hstdout] at hfirst hsecond hstarred
  obtain ⟨lines, hlines⟩ := preamble_eq_unlines i o'
  refine ⟨lines, c.storeAtomic.executions, c.writeAtomic.executions, ?_⟩
  rw [hfirst, hsecond, hstarred, hrun, stderr_report hverbose, hlines, unlines_append]

/-! ### The whole command -/

/-- **The command handles all faults but five, of which two are the machine's.** Whatever its
arguments and its environment are, whatever reading gives and whatever the machine affords, it ends
in what its invocation comes to. If it returns 2 there is a line that says what is wrong, and if it
returns 0 the report is printed. -/
theorem run_comes (i : Invocation) :
    (∀ e, (run i).ending = e ↔ Comes i e) ∧
    ((run i).ending = .returned 2 → ∃ lines message,
      (run i).stderr = unlines (lines ++ ["conscheck: error: " ++ message])) ∧
    ((run i).ending = .returned 0 → i.Reports (run i).stdout) := by
  refine ⟨fun e ↦ ending_eq_iff, fun h ↦ ?_, reports_of_returned⟩
  cases ending_eq_iff.1 h with
  | noRoom h hroom =>
    obtain ⟨lines, hlines⟩ := warnings_eq_unlines i
    refine ⟨lines, Fault.noRoom.message, ?_⟩
    rw [run_of_noRoom h hroom.limits_eq, hlines, notice_error, ← unlines_append]
  | @malformed o limits text h hlimits hbytes htext hlong =>
    obtain ⟨lines, hlines⟩ := preamble_eq_unlines i o
    obtain ⟨message, hrun⟩ := run_of_malformed h hlimits hbytes htext hlong
    refine ⟨lines, message, ?_⟩
    rw [hrun, hlines, notice_error, ← unlines_append]

/-- A limit with the mark for the end of all options attached. -/
theorem valueless_comes :
    let i : Invocation :=
      ⟨["--max-threads=--"], fun _ ↦ none, fun _ ↦ .ok (utf8 "ld x\n"), .unlimited⟩
    Comes i (.broken noNumber) ∧ (run i).ending = .broken noNumber := by
  intro i
  have haccepts : i.Accepts ⟨none, false, false, none, some 10, false⟩ := rfl
  have hcomes : Comes i (.broken noNumber) := .valueless haccepts (Or.inl rfl)
  exact ⟨hcomes, ((run_comes i).1 _).2 hcomes⟩

/-- **A numeral with too many digits ends the command**, though its text is valid and is no
well-formed program, and though the machine affords everything. -/
theorem overlong_breaks :
    let text := String.ofList (storeLine ['x'] (List.replicate 4301 '1') ++ ['\n'])
    let i : Invocation := ⟨[], fun _ ↦ none, fun _ ↦ .ok (utf8 text), .unlimited⟩
    i.Accepts (.initial 6 10) ∧ i.bytes none = .ok (utf8 text) ∧ ¬WellFormed .standard text ∧
      (run i).ending = .broken (.numeralTooLong 4301) := by
  intro text i
  have hlong : Numeral.limit < 4301 := by decide
  have hfirst : FirstOverlong .standard (contents text) 4301 :=
    Program.firstOverlong_replicate hlong .standard
  -- stated for any reading, since the bytes of this one are not to be computed
  have hinput : ∀ read : Option String → Reading,
      Invocation.Accepts ⟨[], fun _ ↦ none, read, .unlimited⟩ (.initial 6 10) ∧
        Invocation.bytes ⟨[], fun _ ↦ none, read, .unlimited⟩ none =
          (read none).mapError (.unreadable none) := fun read ↦ ⟨rfl, rfl⟩
  obtain ⟨haccepts, hbytes⟩ := hinput fun _ ↦ .ok (utf8 text)
  have hlimits : (Options.initial 6 10).limits = .ok .standard := rfl
  refine ⟨haccepts, hbytes, fun hform ↦ ?_, ?_⟩
  · refine hform.not_bad _ ?_ (Program.overlong_replicate hlong).bad
    rw [Program.contents_replicate (by decide)]
    exact List.mem_singleton_self _
  · exact (Comes.overlong haccepts hlimits hbytes hfirst).ending_eq

/-- **The standard output is all or nothing, and asking for statistics does not change it.** If the
command returns 0 it prints the report, and in all other cases nothing, once the arguments are
accepted. Arguments that differ only in the request for statistics lead to the same end and the same
output. The statistics count the lines of the sections, and those with a star. -/
theorem run_reports (i : Invocation) :
    ((run i).ending = .returned 0 → i.Reports (run i).stdout) ∧
    (∀ code, (run i).ending = .returned code →
      (code = 0 ∨ code = 1 ∨ code = 2) ∧ (code ≠ 0 → (run i).stdout = "")) ∧
    (∀ arguments, quiet arguments = quiet i.arguments → (∀ code, (run i).ending ≠ .left code) →
      (∀ code, (run { i with arguments }).ending ≠ .left code) →
      (run { i with arguments }).ending = (run i).ending ∧
        (run { i with arguments }).stdout = (run i).stdout) ∧
    (∀ l, sort i.arguments = .ok l → given .verbose l = true → (run i).ending = .returned 0 →
      ∃ lines executions executions', (run i).stderr = unlines (lines ++
        [statisticsLine .ibm370 executions
            (Report.outcomeLines (Report.firstSection (run i).stdout)).length,
          statisticsLine .tso executions'
            (Report.outcomeLines (Report.secondSection (run i).stdout)).length,
          violationsLine ((Report.outcomeLines (Report.secondSection (run i).stdout)).filter
            Report.starred).length])) := by
  refine ⟨reports_of_returned, fun code h ↦ ⟨?_, fun hne ↦ ?_⟩, fun arguments hquiet h h' ↦ ?_,
    fun l hsort hverbose h ↦ ?_⟩
  · cases ending_eq_iff.1 h with
    | noRoom => exact Or.inr (Or.inr rfl)
    | unreadable => exact Or.inr (Or.inl rfl)
    | undecodable => exact Or.inr (Or.inl rfl)
    | malformed => exact Or.inr (Or.inr rfl)
    | report => exact Or.inl rfl
  · obtain ⟨o, ho⟩ := exists_accepts (i := i) fun code' hleft ↦ by
      rw [h] at hleft
      cases hleft
    refine stdout_of_ne ho fun hzero ↦ hne ?_
    rw [h] at hzero
    exact Ending.returned.inj hzero
  · obtain ⟨o, ho⟩ := exists_accepts h
    obtain ⟨o', ho'⟩ := exists_accepts h'
    exact run_congr_quiet hquiet ho ho'
  · obtain ⟨o, -, -, -, -, ho, -⟩ := exists_report_of_returned h
    obtain ⟨l', hsort', hmeans⟩ := ho.means
    obtain rfl := Except.ok.inj (hsort.symm.trans hsort')
    exact stderr_of_verbose h ho ((hmeans.has .verbose rfl).trans hverbose)

/-- A load in a file that is named from the root, with and without statistics. -/
theorem load_reports :
    let i : Invocation :=
      ⟨["-v", "--max-threads", "2", "/load"], fun _ ↦ none,
        fun path ↦ if path = some "/load" then .ok (utf8 "ld x\n") else .error ⟨13, "denied"⟩,
        .unlimited⟩
    (run i).ending = .returned 0 ∧ i.Reports (run i).stdout ∧
      (run { i with arguments := ["--max-threads", "2", "/load"] }).stdout = (run i).stdout := by
  intro i
  have haccepts : i.Accepts ⟨some "/load", false, false, some 2, some 10, true⟩ := rfl
  have haccepts' : Invocation.Accepts { i with arguments := ["--max-threads", "2", "/load"] }
    ⟨some "/load", false, false, some 2, some 10, false⟩ := rfl
  have hbytes : i.bytes (some "/load") = .ok (utf8 "ld x\n") := by
    have hnormal : Path.normal "/load" = "/load" := by decide
    have hnull : Path.hasNull "/load" = false := by decide
    simp [Invocation.bytes, Invocation.path?, hnormal, hnull, i, Except.mapError]
  have hform : WellFormed ⟨2, 10, by decide, by decide⟩ "ld x\n" :=
    wellFormed_iff.2 ⟨⟨[[.load "x"]], by decide⟩, by decide⟩
  have hending := (Comes.report haccepts rfl hbytes hform (affords_unlimited _ _ _)).ending_eq
  have hending' := (Comes.report haccepts' rfl hbytes hform (affords_unlimited _ _ _)).ending_eq
  obtain ⟨hreports, -, hquiet, -⟩ := run_reports i
  refine ⟨hending, hreports hending, (hquiet _ (by decide) ?_ ?_).2⟩
  · rw [hending]
    exact nofun
  · rw [hending']
    exact nofun

end Litmus.CommandLine
