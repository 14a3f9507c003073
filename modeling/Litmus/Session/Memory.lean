import Litmus.Memory
import Litmus.Session.Command

/-!
# Sessions with a memory

The calls read and write variables and ask for them. A call may name its variable by any value,
but only a text can be the name of a declared one. There are no blocks.
-/

namespace Litmus.Session.Memory

/-- The calls. -/
inductive Call where
  /-- Reads a variable. -/
  | read (x : Datum)
  /-- Writes a variable. -/
  | write (x : Datum) (v : Int)
  /-- Asks whether a variable is declared. -/
  | contains (x : Datum)
  /-- Asks for the text of the memory. -/
  | render

/-- The replies. -/
inductive Reply where
  /-- The value of a variable. -/
  | value (v : Int)
  /-- A truth value. -/
  | flag (b : Bool)
  /-- A text. -/
  | text (s : String)

/-- The name that a value gives to a variable that is read or written. -/
def nameOf (x : Datum) : Except Fault String := do
  let x ← x.key
  match x.text? with
  | some name => return name
  | none => throw (.contract (.undeclared x.render))

/-- The reactions of a memory. -/
def machine : Machine Litmus.Memory Call Empty Unit Reply where
  call
    | .read x, m => (m, (nameOf x >>= m.read).map .value)
    | .write x v, m =>
      match nameOf x with
      | .ok name => Prod.map id (Except.map .value) (m.write name v)
      | .error f => (m, .error f)
    | .contains x, m => (m, x.key.map fun x ↦ .flag (x.text?.any m.contains))
    | .render, m => (m, .ok (.text m.render))
  enter b := nomatch b
  leave b := nomatch b

end Litmus.Session.Memory
