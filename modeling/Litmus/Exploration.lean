import Litmus.Walk

/-!
# Exploring a program

Exploring a program visits every complete execution once and collects the outcomes. Every execution
counts, and an outcome that comes up again keeps its first witness.

The executions are visited by a recursion over the tree of all steps (`Exploration.run`), in which
every branch has a walk of its own. `Exploration.search` is the same search in place: there is one
walk, and each step is taken back before the next one is tried.
-/

namespace Litmus

/-- What an exploration has found. -/
structure Findings where
  /-- The distinct outcomes. -/
  outcomes : OutcomeSet Run := .empty
  /-- The number of complete executions. -/
  executions : Nat := 0
  deriving DecidableEq

namespace Findings

/-- Adds a completed walk. It is counted before its outcome is written, so it also counts if the
outcome cannot be written. -/
def record {p : Program} {s : Setting} (f : Findings) (w : Walk p s) :
    Findings × Except Fault Unit :=
  match f.outcomes.add w.execution.outcome w.trace with
  | .ok (outcomes, _) => (⟨outcomes, f.executions + 1⟩, .ok ())
  | .error fault => ({ f with executions := f.executions + 1 }, .error fault)

/-- Adds what a visit brings, unless a fault has ended the exploration before. -/
def observe {p : Program} {s : Setting} :
    Findings × Except Fault Unit → Except Fault (Walk p s) → Findings × Except Fault Unit
  | (f, .error fault), _ => (f, .error fault)
  | (f, .ok ()), .error fault => (f, .error fault)
  | (f, .ok ()), .ok w => f.record w

end Findings

/-- An exploration in progress: where it stands and what it has found. -/
structure Exploration (p : Program) (s : Setting) where
  /-- Where it stands. -/
  walk : Walk p s
  /-- What it has found. -/
  findings : Findings

namespace Exploration

variable {p : Program} {s : Setting}

/-- The exploration that has not begun. -/
def start (p : Program) (s : Setting) : Exploration p s := ⟨Walk.start p s, {}⟩

/-- Visits all executions that continue the walk, and adds them to the findings. -/
def run (e : Exploration p s) : Exploration p s × Except Fault Unit :=
  let (findings, r) := e.walk.visit Findings.observe e.walk.remaining (e.findings, .ok ())
  ({ e with findings }, r)

/-- Runs the instruction at a position for as long as `body` lasts. The step is taken back however
the body ends; a fault in taking it back replaces one of the body. -/
def within {α : Type} (e : Exploration p s) (q : Position) (c : Choice)
    (body : Exploration p s → Exploration p s × Except Fault α) :
    Exploration p s × Except Fault α :=
  match e.walk.enter q c with
  | (walk, .error f) => ({ e with walk }, .error f)
  | (walk, .ok prior) =>
    let (e', result) := body { e with walk }
    let (walk', left) := e'.walk.leave q prior
    ({ e' with walk := walk' }, left.bind fun _ ↦ result)

/-- Adds the walk to the findings. -/
def record (e : Exploration p s) : Exploration p s × Except Fault Unit :=
  ({ e with findings := (e.findings.record e.walk).1 }, (e.findings.record e.walk).2)

/-- Searches on from the walk, at most `n` steps deep, with the one walk that there is. Each step is
taken back before the next one is tried, and the choices for a position are asked for when it is its
turn. -/
def search : Nat → Exploration p s → Exploration p s × Except Fault Unit
  | 0, e => (e, .ok ())
  | n + 1, e =>
    forEach (fun q e ↦
      match e.walk.choices q with
      | .error fault => (e, .error fault)
      | .ok cs => forEach (fun c e ↦ e.within q c fun e ↦
          if e.walk.execution.complete then e.record else search n e) cs e) e.walk.eligible e

end Exploration

/-- All outcomes of a program that stays within the limits. -/
def Program.explore (p : Program) (s : Setting) (limits : Limits) : Except Fault Findings := do
  p.check limits
  let (e, r) := (Exploration.start p s).run
  r
  return e.findings

/-! ### Comparing the models -/

/-- The findings of both models on one program. -/
structure Comparison where
  /-- The program. -/
  program : Program
  /-- What IBM370 allows. -/
  storeAtomic : Findings
  /-- What TSO allows. -/
  writeAtomic : Findings

/-- The outcomes that break store atomicity: TSO allows them and IBM370 does not. -/
def Comparison.violations (c : Comparison) : List String :=
  c.writeAtomic.outcomes.beyond c.storeAtomic.outcomes

/-- Explores a program under both models. -/
def Program.compare (p : Program) (limits : Limits) (readAround : Bool) :
    Except Fault Comparison := do
  let storeAtomic ← p.explore { model := .ibm370 } limits
  let writeAtomic ← p.explore { model := .tso, readAround } limits
  return ⟨p, storeAtomic, writeAtomic⟩

end Litmus
