import Litmus.Execution
import Litmus.Session.Command

/-!
# Sessions with an execution

The calls execute and undo instructions and ask for the state; the one block executes an instruction
for as long as it lasts.
-/

namespace Litmus.Session.Execution

/-- The calls. -/
inductive Call where
  /-- Executes an instruction. -/
  | execute (q : Position) (observed : Option Int)
  /-- Undoes an instruction. -/
  | undo (q : Position) (prior : Int)
  /-- Asks whether an instruction has run. -/
  | executed (q : Position)
  /-- Asks for the value of a load. -/
  | loadValue (q : Position)
  /-- Asks whether the program has run. -/
  | complete
  /-- Asks for the outcome if the run ended here. -/
  | outcome

/-- The block. -/
inductive Block where
  /-- Executes an instruction until it is left. -/
  | executing (q : Position) (observed : Option Int)

/-- The replies. -/
inductive Reply where
  /-- Nothing to say. -/
  | done
  /-- A value. -/
  | value (v : Int)
  /-- A truth value. -/
  | flag (b : Bool)
  /-- An outcome. -/
  | outcome (o : Outcome)

variable {p : Program}

/-- The reactions of an execution. -/
def machine : Machine (Litmus.Execution p) Call Block Int Reply where
  call
    | .execute q observed, e => Prod.map id (Except.map .value) (e.execute q observed)
    | .undo q prior, e => Prod.map id (Except.map fun _ ↦ .done) (e.undo q prior)
    | .executed q, e => (e, .ok (.flag (e.executed q)))
    | .loadValue q, e => (e, (e.loadValue q).map .value)
    | .complete, e => (e, .ok (.flag e.complete))
    | .outcome, e => (e, e.outcome.key.map fun _ ↦ .outcome e.outcome)
  enter
    | .executing q observed, e =>
      Prod.map id (Except.map fun prior ↦ (prior, .value prior)) (e.execute q observed)
  leave
    | .executing q _, prior, e => e.undo q prior

end Litmus.Session.Execution
