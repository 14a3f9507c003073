import Litmus.Datum
import Litmus.Position
import Litmus.Text.Quoted
import Litmus.Text.Utf8

/-!
# Faults

Everything that can go wrong, by cause, and the wording of each cause in `Fault.message`.

A fault belongs to one of a few families: a malformed program (`ProgramFault`), a bad line of a
program text (`LineFault`), a broken rule of executing and undoing (`ContractFault`), bytes that
cannot be had (`ReadFault`), a value of the wrong kind (`KindFault`), and a handful of single
causes.
-/

namespace Litmus

/-- Why a program, or an instruction of it, is refused. -/
inductive ProgramFault where
  /-- An instruction without a variable. -/
  | unnamed
  /-- A store of something that is no integer. The variable and the offer are given by their
  texts. -/
  | storeNeedsInteger (name offered : String)
  /-- A load with a value. The variable is given by its text. -/
  | loadCarriesValue (name : String)
  /-- A program without threads. -/
  | noThreads
  /-- A member of a thread that is no instruction. -/
  | notInstruction (offered : String)
  /-- A program whose threads are all empty. -/
  | noInstructions
  /-- More threads than allowed. -/
  | tooManyThreads (count limit : Nat)
  /-- A thread with more instructions than allowed. -/
  | threadTooLong (thread count limit : Nat)
  deriving DecidableEq

/-- Why a line of a program text is refused. -/
inductive LineFault where
  /-- A line of commas. -/
  | noInstruction
  /-- A store without exactly two operands. -/
  | storeOperands (line : String)
  /-- A store of something that is no numeral. -/
  | storeValue (word : String)
  /-- A load without exactly one operand. -/
  | loadOperands (line : String)
  /-- A line that starts with neither operation. -/
  | unknownOperation (word : String)
  /-- A line that ends one thread too many. -/
  | tooManyThreads (limit : Nat)
  /-- An instruction too many in its thread. -/
  | threadTooLong (thread limit : Nat)
  deriving DecidableEq

/-- How the rules of executing and undoing instructions can be broken. -/
inductive ContractFault where
  /-- An instruction is executed while it counts as executed. -/
  | executedTwice (q : Position)
  /-- A load is executed without a value. -/
  | unresolved (q : Position)
  /-- An instruction is undone before any was executed. -/
  | nothingExecuted (q : Position)
  /-- An instruction is undone that is not the latest. -/
  | notLatest (q latest : Position)
  /-- A variable that the memory does not hold, given by its text. -/
  | undeclared (shown : String)
  deriving DecidableEq

/-- Why the system gives no bytes for a path or for the standard input. -/
structure ReadFault where
  /-- The system's number for the reason. -/
  number : Nat
  /-- The reason in words. -/
  reason : String
  deriving DecidableEq

/-- The sets of words that select a constant. -/
inductive Vocabulary where
  /-- The operations `ld` and `st`. -/
  | operation
  /-- The names of the models. -/
  | model
  /-- The sources of a load's value. -/
  | source
  deriving DecidableEq

/-- How a value can be of the wrong kind for its purpose. -/
inductive KindFault where
  /-- A limit that cannot be compared with a number. -/
  | incomparable (k : Datum.Kind)
  /-- A value without members where several are expected. -/
  | noMembers (k : Datum.Kind)
  /-- A value without parts where an instruction is expected. -/
  | noParts (k : Datum.Kind)
  /-- A value that cannot serve as a key. -/
  | noKey (k : Datum.Kind)
  /-- A value that is asked for a property that only instructions have. -/
  | noProperty (k : Datum.Kind) (property : String)
  /-- An operation without operands. -/
  | noOperands
  /-- An operation with more operands than a variable and a value. -/
  | tooManyOperands (count : Nat)
  /-- A setting that does not exist. -/
  | noSetting (name : String)
  deriving DecidableEq

/-- Everything that can go wrong. -/
inductive Fault where
  /-- A malformed program. -/
  | program (f : ProgramFault)
  /-- A bad line of a program text, with its number if it is known. -/
  | line (number : Option Int) (f : LineFault)
  /-- A broken rule of executing and undoing. -/
  | contract (f : ContractFault)
  /-- A numeral with too many digits to be read. -/
  | numeralTooLong (digits : Nat)
  /-- An integer with too many digits to be written. -/
  | unwritable
  /-- Limits that admit no program. -/
  | noRoom
  /-- A value that is no word of its vocabulary, given by its text. -/
  | unknownWord (shown : String) (v : Vocabulary)
  /-- A value of the wrong kind. -/
  | kind (f : KindFault)
  /-- A position that leads to no instruction. -/
  | outsideProgram
  /-- A position with a number that no list can reach. -/
  | unreachable
  /-- An instruction without an operation. -/
  | noOperation
  /-- An instruction that is an empty text. -/
  | emptyText
  /-- A value forwarded from a store that does not exist. -/
  | noEarlierStore
  /-- A position that is not one of the expected ones. -/
  | unknownPosition (q : Position)
  /-- A key that is not there, given by its text. -/
  | unknownKey (shown : String)
  /-- Bytes that are no text. -/
  | undecodable (f : Text.DecodeFault)
  /-- A path that cannot be read, or the standard input if there is none. -/
  | unreadable (path : Option String) (f : ReadFault)
  /-- A path with a null character. -/
  | nullInPath
  /-- More nested calls than the host allows, with its reason. -/
  | tooDeep (reason : String)
  /-- A text that the standard output does not take, with the reason. -/
  | unprintable (reason : String)
  /-- A pick from nothing. -/
  | emptyChoice
  deriving DecidableEq

/-! ### Wording -/

/-- The wording of a program's fault. -/
def ProgramFault.message : ProgramFault → String
  | unnamed => "Instruction must name a variable"
  | storeNeedsInteger name offered =>
    "Store to " ++ name ++ " needs an integer value, got " ++ offered
  | loadCarriesValue name => "Load from " ++ name ++ " cannot carry a value"
  | noThreads => "Program must contain at least one thread"
  | notInstruction offered => "Expected an Instruction, got " ++ offered
  | noInstructions => "Program must contain at least one instruction"
  | tooManyThreads count limit =>
    "Program has " ++ Numeral.write count ++ " threads; at most " ++ Numeral.write limit ++
      " are supported"
  | threadTooLong thread count limit =>
    "Thread " ++ Numeral.write thread ++ " has " ++ Numeral.write count ++
      " instructions; at most " ++ Numeral.write limit ++ " are supported"

/-- The wording of a line's fault, without the number of the line. -/
def LineFault.message : LineFault → String
  | noInstruction => "empty instruction"
  | storeOperands line => "'st' takes a variable and a value, got " ++ Text.quoted line
  | storeValue word => "store value must be an integer, got " ++ Text.quoted word
  | loadOperands line => "'ld' takes exactly one variable, got " ++ Text.quoted line
  | unknownOperation word => "unknown operation " ++ Text.quoted word
  | tooManyThreads limit => "more than " ++ Numeral.write limit ++ " threads"
  | threadTooLong thread limit =>
    "thread " ++ Numeral.write thread ++ " has more than " ++ Numeral.write limit ++
      " instructions"

/-- The wording of a broken rule. -/
def ContractFault.message : ContractFault → String
  | executedTwice q => q.label ++ " executed twice"
  | unresolved q => "load " ++ q.label ++ " executed without a resolved value"
  | nothingExecuted q => "undo of " ++ q.label ++ " with nothing executed"
  | notLatest q latest =>
    "undo of " ++ q.label ++ " but the most recent instruction is " ++ latest.label
  | undeclared shown => "read of undeclared variable " ++ shown

/-- The wording of a reading fault. A fault of the standard input names no path. -/
def ReadFault.message (f : ReadFault) (path : Option String) : String :=
  "[Errno " ++ Numeral.write f.number ++ "] " ++ f.reason ++
    (path.map fun path ↦ ": " ++ Text.quoted path).getD ""

/-- What a vocabulary is called in messages. -/
def Vocabulary.title : Vocabulary → String
  | operation => "Op"
  | model => "ConsistencyModel"
  | source => "LoadSource"

/-- The wording of a fault of kind. -/
def KindFault.message : KindFault → String
  | incomparable k => "'<' not supported between instances of '" ++ k.title ++ "' and 'int'"
  | noMembers k => "'" ++ k.title ++ "' object is not iterable"
  | noParts k => "'" ++ k.title ++ "' object is not subscriptable"
  | noKey k => "unhashable type: '" ++ k.title ++ "'"
  | noProperty k property => "'" ++ k.title ++ "' object has no attribute '" ++ property ++ "'"
  | noOperands => "Instruction.__init__() missing 1 required positional argument: 'variable'"
  | tooManyOperands count =>
    "Instruction.__init__() takes from 3 to 4 positional arguments but " ++
      Numeral.write (count + 2) ++ " were given"
  | noSetting name =>
    "program_strategy() got an unexpected keyword argument '" ++ name ++ "'"

/-- The position as a key that was not found. -/
def Position.keyText (q : Position) : String :=
  "InstrId(thread=" ++ Numeral.write q.thread ++ ", index=" ++ Numeral.write q.index ++ ")"

/-- The start of both messages about integers that are too long. -/
def limitNotice : String :=
  "Exceeds the limit (" ++ Numeral.write Numeral.limit ++ " digits) for integer string conversion"

/-- The end of both messages about integers that are too long. -/
def limitAdvice : String := "; use sys.set_int_max_str_digits() to increase the limit"

/-- The wording of a fault. -/
def Fault.message : Fault → String
  | program f => f.message
  | line none f => f.message
  | line (some n) f => "line " ++ Numeral.write n ++ ": " ++ f.message
  | contract f => f.message
  | numeralTooLong digits =>
    limitNotice ++ ": value has " ++ Numeral.write digits ++ " digits" ++ limitAdvice
  | unwritable => limitNotice ++ limitAdvice
  | noRoom => "Bounds must allow at least one thread and one instruction"
  | unknownWord shown v => shown ++ " is not a valid " ++ v.title
  | kind f => f.message
  | outsideProgram => "tuple index out of range"
  | unreachable => "cannot fit 'int' into an index-sized integer"
  | noOperation => "list index out of range"
  | emptyText => "string index out of range"
  | noEarlierStore => "list index out of range"
  | unknownPosition q => q.keyText
  | unknownKey shown => shown
  | undecodable f => f.message
  | unreadable path f => f.message path
  | nullInPath => "embedded null byte"
  | tooDeep reason => reason
  | unprintable reason => reason
  | emptyChoice => "integer modulo by zero"

/-! ### Looking things up -/

/-- The constant that a value selects by its word. -/
def Vocabulary.find {α : Type} (v : Vocabulary) (table : List (String × α)) (d : Datum) :
    Except Fault α :=
  match d.text?.bind fun w ↦ table.lookup w with
  | some a => .ok a
  | none => .error (.unknownWord d.render v)

/-- The members of a value that must have some. -/
def Datum.members (d : Datum) : Except Fault (List Datum) :=
  match d.members? with
  | some l => .ok l
  | none => .error (.kind (.noMembers d.kind))

/-- A value that must be fit for a key. -/
def Datum.key (d : Datum) : Except Fault Datum :=
  if d.isKey then .ok d else .error (.kind (.noKey d.kind))

/-! ### Going through a list -/

/-- Goes through a list and changes a state with each of its elements, unless a fault puts an end to
it. What was done before the fault stays. -/
def forEach {α β : Type} (body : α → β → β × Except Fault Unit) :
    List α → β → β × Except Fault Unit
  | [], b => (b, .ok ())
  | a :: l, b =>
    match body a b with
    | (b', .ok ()) => forEach body l b'
    | (b', .error f) => (b', .error f)

end Litmus
