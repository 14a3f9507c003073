import Litmus.Numeral
import Litmus.Text.Quoted

/-!
# The arguments of the command

Which options there are, how they are recognised, and what a list of arguments means.

Arguments are sorted first: each is an option, an operand, or the `--` after which all are operands.
A long option may be abbreviated as long as it stays unambiguous, and short options may be joined
behind one dash, with or without an equals sign after the first. What looks like a negative number,
or contains a space, is an operand unless it is an option of the command. Then the arguments are
taken from left to right. The first operand names the program; further ones, and options that the
command does not have, are left over and reported at the end.
-/

namespace Litmus.CommandLine

/-! ### Options -/

/-- The options of the command. -/
inductive Flag where
  /-- Asks for help. -/
  | help
  /-- Asks for the witness of each outcome. -/
  | witnesses
  /-- Lets a load read around the stores that it has overtaken. -/
  | readAround
  /-- Sets the largest number of threads. -/
  | maxThreads
  /-- Sets the largest number of instructions in a thread. -/
  | maxInstructions
  /-- Asks for statistics. -/
  | verbose
  deriving DecidableEq

namespace Flag

/-- All options, in the order in which they are listed. -/
def all : List Flag := [help, witnesses, readAround, maxThreads, maxInstructions, verbose]

/-- The names of an option, the short one first. -/
def names : Flag → List String
  | help => ["-h", "--help"]
  | witnesses => ["--witnesses"]
  | readAround => ["--read-around-pending-stores"]
  | maxThreads => ["--max-threads"]
  | maxInstructions => ["--max-instructions"]
  | verbose => ["-v", "--verbose"]

/-- What the value of an option is called in the help, if the option takes one. -/
def valueName? : Flag → Option String
  | maxThreads => some "MAX_THREADS"
  | maxInstructions => some "MAX_INSTRUCTIONS"
  | _ => none

/-- Whether an option takes a value. -/
def takesValue (f : Flag) : Bool := f.valueName?.isSome

/-- What an option is called in a message. -/
def title (f : Flag) : String := "/".intercalate f.names

/-- The names of all options, each with its option. -/
def table : List (String × Flag) := all.flatMap fun f ↦ f.names.map fun n ↦ (n, f)

/-- The option with exactly this name. -/
def ofName? (name : String) : Option Flag := table.lookup name

end Flag

/-! ### Faults -/

/-- What can be wrong with the arguments. -/
inductive UsageFault where
  /-- The value of an option is no integer. -/
  | invalidInt (f : Flag) (value : String)
  /-- An option lacks its value. -/
  | missingValue (f : Flag)
  /-- An option that takes none has a value attached. -/
  | ignoredValue (f : Flag) (value : String)
  /-- An abbreviation of several options. -/
  | ambiguous (argument : String) (names : List String)
  /-- Arguments that are left over. -/
  | unrecognized (arguments : List String)
  deriving DecidableEq

/-- The wording of a fault. -/
def UsageFault.message : UsageFault → String
  | invalidInt f value => "argument " ++ f.title ++ ": invalid int value: " ++ Text.quoted value
  | missingValue f => "argument " ++ f.title ++ ": expected one argument"
  | ignoredValue f value =>
    "argument " ++ f.title ++ ": ignored explicit argument " ++ Text.quoted value
  | ambiguous argument names =>
    "ambiguous option: " ++ argument ++ " could match " ++ ", ".intercalate names
  | unrecognized arguments => "unrecognized arguments: " ++ " ".intercalate arguments

/-! ### Sorting the arguments -/

/-- What kind of argument it is. -/
inductive Kind where
  /-- An option of the command, with the text that is attached to its name. The flag `long` says
  that it was given by a long name. -/
  | option (f : Flag) (long : Bool) (attached : Option (List Char))
  /-- An option that the command does not have. -/
  | unknown
  /-- An operand. -/
  | operand
  /-- The end of all options. -/
  | endOfOptions

/-- The name and the text after the first equals sign, if there is one. -/
def splitEquals (cs : List Char) : List Char × Option (List Char) :=
  match cs.dropWhile (· != '=') with
  | [] => (cs, none)
  | _ :: text => (cs.takeWhile (· != '='), some text)

/-- Whether characters look like a negative number: a dash, then digits, with a point before the
last of them at most. A single line feed may follow. -/
def looksNegative (cs : List Char) : Bool :=
  let body := if cs.getLast? = some '\n' then cs.dropLast else cs
  match body with
  | '-' :: rest =>
    let whole := rest.takeWhile Text.isDigit
    match rest.drop whole.length with
    | [] => !whole.isEmpty
    | '.' :: fraction => !fraction.isEmpty && fraction.all Text.isDigit
    | _ => false
  | _ => false

/-- The kind of an argument that starts with a dash, has a further character, and is not the name of
an option. -/
def kindOfDashed (argument : String) : Except UsageFault Kind :=
  let cs := argument.toList
  let (name, attached) := splitEquals cs
  let rest : Except UsageFault Kind :=
    if looksNegative cs || cs.contains ' ' then .ok .operand else .ok .unknown
  match attached, Flag.ofName? (String.ofList name) with
  | some a, some f => .ok (.option f (name[1]? == some '-') (some a))
  | _, _ =>
    if cs[1]? = some '-' then
      match Flag.table.filter fun entry ↦ name.isPrefixOf entry.1.toList with
      | [] => rest
      | [entry] => .ok (.option entry.2 true attached)
      | entries => .error (.ambiguous argument (entries.map (·.1)))
    else match Flag.ofName? (String.ofList (cs.take 2)) with
      | some f => .ok (.option f false (some (cs.drop 2)))
      | none => rest

/-- The kind of an argument before the end of all options. -/
def kind (argument : String) : Except UsageFault Kind :=
  match argument.toList with
  | ['-', '-'] => .ok .endOfOptions
  | '-' :: c :: _ =>
    match Flag.ofName? argument with
    | some f => .ok (.option f (c == '-') none)
    | none => kindOfDashed argument
  | _ => .ok .operand

/-- Sorts the arguments. -/
def sort : List String → Except UsageFault (List (String × Kind))
  | [] => .ok []
  | argument :: rest => do
    match ← kind argument with
    | .endOfOptions => return (argument, .endOfOptions) :: rest.map fun a ↦ (a, .operand)
    | k => return (argument, k) :: (← sort rest)

/-! ### Taking the arguments -/

/-- What the arguments ask for. -/
structure Options where
  /-- The program to read, if it is named. -/
  program : Option String := none
  /-- Whether witnesses are printed. -/
  witnesses : Bool := false
  /-- Whether loads may read around the stores that they have overtaken. -/
  readAround : Bool := false
  /-- The largest number of threads, unless the option for it was left without a value. -/
  maxThreads : Option Int
  /-- The largest number of instructions in a thread, unless the option for it was left without a
  value. -/
  maxInstructions : Option Int
  /-- Whether statistics are printed. -/
  verbose : Bool := false
  deriving DecidableEq

/-- What comes of taking arguments: options, or a request for help that ends everything. -/
inductive Request where
  /-- Go on with these options. -/
  | run (o : Options)
  /-- Print the help. -/
  | help
  deriving DecidableEq

/-- The options that short names stand for when they are joined to the one of `f`. What is no short
name of an option counts as a value of the one before it. -/
def joined (f : Flag) : List Char → Except UsageFault (List Flag)
  | [] => .error (.ignoredValue f "")
  | c :: rest =>
    match Flag.ofName? (String.ofList ['-', c]), rest with
    | none, _ => .error (.ignoredValue f (String.ofList (c :: rest)))
    | some f', [] => .ok [f, f']
    | some f', d :: rest' => (joined f' (d :: rest')).map (f :: ·)

/-- The options with those set that take no value. A request for help ends the sequence. -/
def setAll (o : Options) : List Flag → Request
  | [] => .run o
  | .help :: _ => .help
  | .witnesses :: rest => setAll { o with witnesses := true } rest
  | .readAround :: rest => setAll { o with readAround := true } rest
  | .verbose :: rest => setAll { o with verbose := true } rest
  | _ :: rest => setAll o rest

/-- The options with the limit of one set. -/
def Options.setLimit (o : Options) (f : Flag) (limit : Option Int) : Options :=
  if f = .maxThreads then { o with maxThreads := limit } else { o with maxInstructions := limit }

/-- The options with the value of one set. -/
def setValue (o : Options) (f : Flag) (value : String) : Except UsageFault Options :=
  match Numeral.readPadded value.toList with
  | none => .error (.invalidInt f value)
  | some v => .ok (o.setLimit f (some v))

/-- The options with a value set that was attached to the name of one. The mark that ends all
options is no value, even if it is attached. -/
def setAttached (o : Options) (f : Flag) (value : String) : Except UsageFault Options :=
  if value = "--" then .ok (o.setLimit f none) else setValue o f value

/-- The options that one argument stands for, none of which takes a value. A long name stands
alone. -/
def flagsOf (f : Flag) (long : Bool) : Option (List Char) → Except UsageFault (List Flag)
  | none => .ok [f]
  | some text => if long then .error (.ignoredValue f (String.ofList text)) else joined f text

/-- Takes the arguments one after the other, and collects in `left` those that are left over. While
`awaiting` an option's value, the next argument has to be an operand. The end of all options goes
unnoticed before the operand that names the program and right behind it. -/
def take (o : Options) (left : List String) :
    (awaiting : Option Flag) → List (String × Kind) → Except UsageFault Request
  | some f, (value, .operand) :: rest =>
    match setValue o f value with
    | .error e => .error e
    | .ok o' => take o' left none rest
  | some f, _ => .error (.missingValue f)
  | none, [] => if left.isEmpty then .ok (.run o) else .error (.unrecognized left)
  | none, (argument, .unknown) :: rest => take o (left ++ [argument]) none rest
  | none, (argument, .operand) :: (dashes, .endOfOptions) :: rest =>
    match o.program with
    | none => take { o with program := some argument } left none rest
    | some _ => take o (left ++ [argument, dashes]) none rest
  | none, (argument, .operand) :: rest =>
    match o.program with
    | none => take { o with program := some argument } left none rest
    | some _ => take o (left ++ [argument]) none rest
  | none, (dashes, .endOfOptions) :: rest =>
    match o.program with
    | none => take o left none rest
    | some _ => take o (left ++ [dashes]) none rest
  | none, (_, .option f long attached) :: rest =>
    if f.takesValue then
      match attached with
      | none => take o left (some f) rest
      | some text =>
        match setAttached o f (String.ofList text) with
        | .error e => .error e
        | .ok o' => take o' left none rest
    else match flagsOf f long attached with
      | .error e => .error e
      | .ok fs =>
        match setAll o fs with
        | .help => .ok .help
        | .run o' => take o' left none rest

/-- What a list of arguments means, given the limits that hold if it sets none. -/
def parse (maxThreads maxInstructions : Int) (arguments : List String) :
    Except UsageFault Request := do
  take { maxThreads := some maxThreads, maxInstructions := some maxInstructions } [] none
    (← sort arguments)

end Litmus.CommandLine
