import Litmus.Datum
import Litmus.Fault

/-!
# Instructions

A thread does two things to shared memory: it loads a variable, or it stores a constant in one.
-/

namespace Litmus

/-- A load or a store of a named shared variable. -/
inductive Instruction where
  /-- Loads the variable. -/
  | load (name : String)
  /-- Stores a value in the variable. -/
  | store (name : String) (value : Int)
  deriving DecidableEq

namespace Instruction

/-- The variable that an instruction accesses. -/
def name : Instruction → String
  | load x => x
  | store x _ => x

/-- Whether an instruction is a load. -/
def isLoad : Instruction → Bool
  | load _ => true
  | store _ _ => false

/-- Whether an instruction is a store. -/
def isStore : Instruction → Bool
  | load _ => false
  | store _ _ => true

/-- The value that a store writes. -/
def value? : Instruction → Option Int
  | load _ => none
  | store _ v => some v

/-- Whether an instruction is a store to the variable `x`. -/
def storesTo (x : String) : Instruction → Bool
  | load _ => false
  | store y _ => y == x

/-- The text of an instruction, `ld x` or `st x, 1`. -/
def render : Instruction → String
  | load x => "ld " ++ x
  | store x v => "st " ++ x ++ ", " ++ Numeral.write v

/-! ### Instructions from data -/

/-- A load of a variable, which must have a name. It takes no value. -/
def makeLoad (x value : Datum) : Except Fault Instruction :=
  if x.isTrue then
    match value with
    | .null => .ok (load x.plain)
    | _ => .error (.program (.loadCarriesValue x.render))
  else .error (.program .unnamed)

/-- A store to a variable, which must have a name, of a value, which must be an integer. -/
def makeStore (x value : Datum) : Except Fault Instruction :=
  if x.isTrue then
    match value with
    | .int v => .ok (store x.plain v)
    | d => .error (.program (.storeNeedsInteger x.render d.render))
  else .error (.program .unnamed)

/-- How an operation makes an instruction of a variable and a value. -/
def maker (operation : Datum) : Except Fault (Datum → Datum → Except Fault Instruction) :=
  Vocabulary.operation.find [("ld", makeLoad), ("st", makeStore)] operation

/-- The instruction with the given operation, variable and value. -/
def make (operation x value : Datum) : Except Fault Instruction := do
  (← maker operation) x value

/-- The instruction with the given operation and operands: a variable, and the value of a store. The
operation is looked up before the operands are counted. -/
def ofParts : List Datum → Except Fault Instruction
  | [] => .error .noOperation
  | operation :: operands => do
    let instruction ← maker operation
    match operands with
    | [] => .error (.kind .noOperands)
    | [x] => instruction x .null
    | [x, value] => instruction x value
    | _ => .error (.kind (.tooManyOperands operands.length))

/-- The instruction that a value describes by its parts. The parts of a text are its characters, and
a record has none that could be found. -/
def ofDatum : Datum → Except Fault Instruction
  | .list parts => ofParts parts
  | .text s =>
    if s = "" then .error .emptyText
    else ofParts (s.toList.map fun c ↦ .text (String.singleton c))
  | .record _ => .error (.unknownKey "0")
  | d => .error (.kind (.noParts d.kind))

end Instruction

/-- What may stand where an instruction is expected. -/
inductive Offer where
  /-- An instruction. -/
  | instruction (i : Instruction)
  /-- Anything else. -/
  | other (d : Datum)

/-- The text of an offer that stands alone. -/
def Offer.plain : Offer → String
  | instruction i => i.render
  | other d => d.plain

end Litmus
