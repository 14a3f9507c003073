import Litmus.Exploration

/-!
# Reports

The text in which a comparison of the models is shown: the program as a table, then the outcomes
under each model in the order of their code points. Under TSO, a star marks what IBM370 does not
allow.
-/

namespace Litmus.Report

/-! ### The program -/

/-- The cell of a thread's instruction in one row of the table. A thread that has ended leaves a
wider gap. -/
def cell (thread : List Instruction) (row : Nat) : String :=
  match thread[row]? with
  | some i => i.render ++ "\t\t"
  | none => "\t\t\t"

/-- The threads side by side, one place of the program to a row. -/
def table (p : Program) : String :=
  "\n".intercalate ((List.range p.longest).map fun row ↦
    String.join (p.threads.map fun th ↦ cell th row)) ++ "\n"

/-! ### Witnesses -/

/-- A text filled up with spaces to a width. -/
def padded (width : Nat) (s : String) : String :=
  s ++ String.ofList (List.replicate (width - s.length) ' ')

/-- The length of the longest text. -/
def widest (l : List String) : Nat := (l.map String.length).foldl max 0

/-- One step of a run, with its label and instruction filled up to the given widths. -/
def stepLine (labels instructions : Nat) (t : Step String) : String :=
  "  " ++ padded labels t.position.label ++ "  " ++ padded instructions t.instruction ++
    "  -> " ++ Numeral.write t.value ++
    (if t.source = some .forwarded then " (forwarded)" else "")

/-- The steps of a run, one to a line. Their instructions are given as texts. -/
def witness (steps : List (Step String)) : String :=
  let labels := widest (steps.map (·.position.label))
  let instructions := widest (steps.map (·.instruction))
  String.join (steps.map fun t ↦ stepLine labels instructions t ++ "\n")

/-- The steps of a run of the program, one to a line. -/
def run (r : Run) : String := witness (r.map (·.map Instruction.render))

/-! ### Outcomes -/

variable {ω ω' : Type}

/-- The mark of an outcome that the reference lacks. -/
def mark (reference : Option (OutcomeSet ω)) (key : String) : String :=
  match reference with
  | some r => if r.contains key then "" else "*"
  | none => ""

/-- The text of the witness of a key, if witnesses are to be shown. -/
def witnessOf (s : OutcomeSet ω) (shown : Option (ω → String)) (key : String) : String :=
  match shown, s.witness key with
  | some text, .ok w => text w
  | _, _ => ""

/-- The outcomes of a set under a heading. They are marked by a reference if there is one, and their
witnesses follow if it is said how to show them. -/
def outcomes (heading : String) (s : OutcomeSet ω) (reference : Option (OutcomeSet ω'))
    (shown : Option (ω → String)) : String :=
  heading ++ ":\n" ++
    String.join (s.sorted.map fun key ↦
      key ++ mark reference key ++ "\n" ++ witnessOf s shown key) ++ "\n"

/-- The whole report on a comparison. -/
def comparison (c : Comparison) (witnesses : Bool) : String :=
  let shown := if witnesses then some run else none
  let reference : Option (OutcomeSet Run) := none
  "PROGRAM LOADED:\n" ++ table c.program ++ "\n" ++
    outcomes (Model.ibm370.title ++ " POSSIBLE SOLUTIONS") c.storeAtomic.outcomes reference shown ++
    outcomes (Model.tso.title ++ " POSSIBLE SOLUTIONS (* breaks store atomicity)")
      c.writeAtomic.outcomes (some c.storeAtomic.outcomes) shown

end Litmus.Report
