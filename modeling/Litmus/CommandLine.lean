import Litmus.CommandLine.Help
import Litmus.Listing
import Litmus.Path
import Litmus.Report

/-!
# The command

The command reads a program, compares the models on it and prints the report.
`CommandLine.prepare` turns the arguments and the environment into a response at once or into a
`Job` that wants some bytes, and `Job.finish` turns the bytes into a response. Reading the bytes is
left to a parameter of `CommandLine.perform`, which joins the two: it may do anything, as long as it
ends in bytes or in a reason why there are none. `CommandLine.run` is the command on what the
readings give.

What the machine affords is a parameter as well (`Host`): how deep calls can be nested, and which
texts the standard output takes.

The report goes to the standard output, all else to the standard error. The command returns 0 after
a report, 1 if the program cannot be read, and 2 if it is malformed or too large.
-/

namespace Litmus.CommandLine

/-- How the command ends. -/
inductive Ending where
  /-- It returns a code. -/
  | returned (code : Nat)
  /-- It leaves while taking its arguments. -/
  | left (code : Nat)
  /-- A fault that it does not handle ends it. -/
  | broken (f : Fault)
  deriving DecidableEq

/-- What the command prints and how it ends. -/
structure Response where
  /-- The standard output. -/
  stdout : String
  /-- The standard error. -/
  stderr : String
  /-- The end. -/
  ending : Ending
  deriving DecidableEq

/-- A command that has taken its arguments and waits for the program text. -/
structure Job where
  /-- What the arguments ask for. -/
  options : Options
  /-- The limits on the program. -/
  limits : Limits
  /-- What has been printed on the standard error. -/
  stderr : String

/-- The path of the file to read. There is none if the program comes from the standard input. -/
def Job.path? (j : Job) : Option String :=
  match j.options.program with
  | some path => if path = "-" then none else some path
  | none => none

/-- What the source of the program is called in messages. -/
def Job.source (j : Job) : String := j.path?.getD "<stdin>"

/-! ### The environment -/

/-- A line on the standard error. -/
def notice (text : String) : String := "conscheck: " ++ text ++ "\n"

/-- The integer in an environment variable, or the standard value if it is unset, empty or no
integer. In the last case there is a warning. -/
def fromEnvironment (name : String) (value : Option String) (standard : Int) : Int × String :=
  match value with
  | none => (standard, "")
  | some text =>
    if text = "" then (standard, "")
    else match Numeral.readPadded text.toList with
      | some v => (v, "")
      | none =>
        (standard, notice ("warning: ignoring non-integer " ++ name ++ "=" ++ Text.quoted text))

/-! ### Before and after reading -/

/-- The limits that the options set. An option that was left without a value has an empty list of
them, which is no number. -/
def Options.limits (o : Options) : Except Fault Limits :=
  let datum (limit : Option Int) : Datum := (limit.map .int).getD (.list [])
  Limits.ofData (datum o.maxThreads) (datum o.maxInstructions)

/-- Takes the arguments and the environment. -/
def prepare (arguments : List String) (environment : String → Option String) : Response ⊕ Job :=
  let width := helpWidth (environment columnsVariable)
  let (threads, warning) :=
    fromEnvironment threadsVariable (environment threadsVariable) Limits.standard.threads
  let (instructions, warning') :=
    fromEnvironment instructionsVariable (environment instructionsVariable)
      Limits.standard.instructions
  let warnings := warning ++ warning'
  match parse threads instructions arguments with
  | .error f => .inl ⟨"", warnings ++ usage width ++ notice ("error: " ++ f.message), .left 2⟩
  | .ok .help => .inl ⟨help width threads instructions, warnings, .left 0⟩
  | .ok (.run o) =>
    match o.limits with
    | .error .noRoom =>
      .inl ⟨"", warnings ++ notice ("error: " ++ Fault.noRoom.message), .returned 2⟩
    | .error f => .inl ⟨"", warnings, .broken f⟩
    | .ok limits =>
      let job : Job := ⟨o, limits, warnings⟩
      let reading := if o.verbose then notice ("reading " ++ job.source) else ""
      .inr { job with stderr := warnings ++ reading }

/-- The statistics of a model's findings. -/
def statistics (m : Model) (f : Findings) : String :=
  notice (m.title ++ ": " ++ Numeral.write f.executions ++ " executions, " ++
    Numeral.write f.outcomes.size ++ " distinct outcomes")

/-- The program in the given bytes. -/
def Job.program (j : Job) (content : Except Fault (List UInt8)) : Except Fault Program := do
  match Text.decode (← content) with
  | .error f => throw (.undecodable f)
  | .ok text => Program.read text j.limits

/-- The response to a program that could not be had. -/
def Job.refuse (j : Job) (f : Fault) : Response :=
  let unreadable (reason : String) : Response :=
    ⟨"", j.stderr ++ notice ("cannot read " ++ j.source ++ ": " ++ reason), .returned 1⟩
  match f with
  | .unreadable _ r => unreadable (if r.reason = "" then f.message else r.reason)
  | .undecodable d =>
    unreadable ("not UTF-8 text (" ++ d.reason.message ++ " at byte " ++
      Numeral.write d.start ++ ")")
  | .program _ | .line _ _ =>
    ⟨"", j.stderr ++ notice ("error: " ++ j.source ++ ": " ++ f.message), .returned 2⟩
  | _ => ⟨"", j.stderr, .broken f⟩

/-- The response to a comparison. -/
def Job.report (j : Job) (c : Comparison) : Response :=
  let counts :=
    if j.options.verbose then
      statistics .ibm370 c.storeAtomic ++ statistics .tso c.writeAtomic ++
        notice (Numeral.write c.violations.length ++ " store-atomicity violations")
    else ""
  ⟨Report.comparison c j.options.witnesses, j.stderr ++ counts, .returned 0⟩

/-- What the machine affords. -/
structure Host where
  /-- Why so many calls cannot be nested, if they cannot. -/
  tooDeep? : Nat → Option String
  /-- Why the standard output does not take a text, if it does not. -/
  unprintable? : String → Option String

/-- A machine that affords everything. -/
def Host.unlimited : Host := ⟨fun _ ↦ none, fun _ ↦ none⟩

/-- Prints a response to a comparison, unless the standard output does not take it. -/
def Response.print (r : Response) (host : Host) : Response :=
  match host.unprintable? r.stdout with
  | none => r
  | some reason => { r with stdout := "", ending := .broken (.unprintable reason) }

/-- Does the job on the bytes that were read, or says why none were. The search calls itself for
every instruction of the program. -/
def Job.finish (j : Job) (host : Host) (content : Except Fault (List UInt8)) : Response :=
  match j.program content with
  | .error f => j.refuse f
  | .ok p =>
    match host.tooDeep? p.total with
    | some reason => ⟨"", j.stderr, .broken (.tooDeep reason)⟩
    | none =>
      match p.compare j.limits j.options.readAround with
      | .error f => ⟨"", j.stderr, .broken f⟩
      | .ok c => (j.report c).print host

/-! ### The whole command -/

/-- What reading gives: the bytes of the file at a path, or of the standard input if there is no
path, or the system's reason why there are none. -/
abbrev Reading : Type := Except ReadFault (List UInt8)

/-- The bytes of the file at a path, or of the standard input if there is no path. A path with a
null character is refused before the system is asked. -/
def fetch {m : Type → Type} [Monad m] (read : Option String → m Reading) (path : Option String) :
    m (Except Fault (List UInt8)) :=
  match path.map Path.normal with
  | none => return (← read none).mapError (.unreadable none)
  | some path =>
    if Path.hasNull path then return .error .nullInPath
    else return (← read (some path)).mapError (.unreadable (some path))

/-- The response of the command, which reads at most once. -/
def perform {m : Type → Type} [Monad m] (arguments : List String)
    (environment : String → Option String) (host : Host) (read : Option String → m Reading) :
    m Response :=
  match prepare arguments environment with
  | .inl response => return response
  | .inr job => return job.finish host (← fetch read job.path?)

/-- All that the command depends on. -/
structure Invocation where
  /-- The arguments. -/
  arguments : List String
  /-- The environment. -/
  environment : String → Option String
  /-- What reading a path or the standard input gives. -/
  read : Option String → Reading
  /-- What the machine affords. -/
  host : Host := .unlimited

/-- The response of the command. -/
def run (i : Invocation) : Response :=
  Id.run (perform i.arguments i.environment i.host fun path ↦ pure (i.read path))

end Litmus.CommandLine
