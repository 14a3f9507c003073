import Litmus.Execution
import Litmus.OutcomeSet
import Litmus.WaitGraph

/-!
# Walking through the executions of a program

A walk is a point on the way from the first step of a program to its last. It knows which
instructions may run next (`Walk.eligible`) and with which values (`Walk.choices`), and steps into
and out of them (`Walk.enter`, `Walk.leave`).

An instruction may run when it waits for nothing. A store has only one way to run. A load reads
memory, except that under TSO it may have overtaken the stores of its own thread to its variable: as
long as none of them has run, it takes the value of the nearest.
-/

namespace Litmus

/-- What governs a walk: the model, and whether a load that has overtaken its own thread's stores
may read memory as well. -/
structure Setting where
  /-- The model. -/
  model : Model
  /-- Whether a load may read around the stores that it has overtaken. -/
  readAround : Bool := false
  deriving DecidableEq

/-- One way for an instruction to run: the value that it stores or sees, and for a load the source
of it. -/
structure Choice where
  /-- Where a load takes its value from. -/
  source : Option Source
  /-- The value. -/
  value : Int
  deriving DecidableEq

/-- A point of a walk. -/
structure Walk (p : Program) (s : Setting) where
  /-- Which instructions wait for which. -/
  graph : WaitGraph p s.model
  /-- What has run, and with which effect. -/
  execution : Execution p
  /-- The steps taken, the first one first. -/
  trace : Run

namespace Walk

variable {p : Program} {s : Setting}

/-- The point at which nothing has run. -/
def start (p : Program) (s : Setting) : Walk p s := ⟨.full, Execution.start p, []⟩

/-! ### What may happen next -/

/-- The positions whose instructions may run next. -/
def eligible (w : Walk p s) : List Position :=
  p.positions.filter fun q ↦ !w.execution.executed q && !w.graph.isWaiting q

/-- The sources from which the load at a position may take its value, in the order in which they are
tried. -/
def sources (w : Walk p s) (q : Position) : Except Fault (List Source) :=
  match s.model with
  | .ibm370 => .ok [.memory]
  | .tso => (p.storesBefore q).map fun stores ↦
    if stores.isEmpty || stores.any w.execution.executed then [.memory]
    else if s.readAround then [.forwarded, .memory]
    else [.forwarded]

/-- The value of the nearest earlier store of the same thread to the same variable. -/
def forwardedValue (p : Program) (q : Position) : Except Fault Int := do
  match ← p.storesBefore q with
  | [] => throw .noEarlierStore
  | r :: _ =>
    match p.get? r with
    | some (.store _ v) => return v
    | _ => throw .noEarlierStore

/-- The value that an instruction at a position takes from a source. -/
def resolve (w : Walk p s) (q : Position) (source : Source) : Except Fault Int := do
  let i ← p.fetch q
  match source with
  | .forwarded => forwardedValue p q
  | .memory => w.execution.memory.read i.name

/-- All ways in which the instruction at a position can run now. -/
def choices (w : Walk p s) (q : Position) : Except Fault (List Choice) := do
  match ← p.fetch q with
  | .store _ v => return [⟨none, v⟩]
  | .load _ =>
    (← w.sources q).mapM fun source ↦ do return ⟨some source, ← w.resolve q source⟩

/-! ### Stepping in and out -/

/-- Takes back the effect of the instruction at a position, and then imposes the edges to it again.
A fault in the first of these does not keep the second from being done, and the last fault is the
one that is reported. -/
def retreat (w : Walk p s) (q : Position) (prior : Int) : Walk p s × Except Fault Unit :=
  let (execution, undone) := w.execution.undo q prior
  let (graph, imposed) := w.graph.impose q
  ({ w with graph, execution }, imposed.bind fun _ ↦ undone)

/-- Runs the instruction at a position, and gives the value that it replaced. The edges to it are
lifted first. If it then fails to run, they are imposed again before the fault is reported. -/
def enter (w : Walk p s) (q : Position) (c : Choice) : Walk p s × Except Fault Int :=
  match w.graph.lift q with
  | (graph, .error f) => ({ w with graph }, .error f)
  | (lifted, .ok ()) =>
    match w.execution.execute q (c.source.map fun _ ↦ c.value) with
    | (execution, .error f) =>
      let (graph, imposed) := lifted.impose q
      ({ w with graph, execution }, imposed.bind fun _ ↦ .error f)
    | (execution, .ok prior) =>
      match p.fetch q with
      | .ok i =>
        (⟨lifted, execution, w.trace ++ [⟨q, i, c.value, c.source⟩]⟩, .ok prior)
      | .error f =>
        -- what was executed has an instruction, so this is never reached
        let (w', retreated) := retreat { w with graph := lifted, execution } q prior
        (w', retreated.bind fun _ ↦ .error f)

/-- Takes back the step into a position: the last step of the trace, then the effect of the
instruction, then the edges to it. -/
def leave (w : Walk p s) (q : Position) (prior : Int) : Walk p s × Except Fault Unit :=
  retreat { w with trace := w.trace.dropLast } q prior

/-! ### Visiting all completions -/

/-- The number of the program's own positions whose instructions have not run. -/
def remaining (w : Walk p s) : Nat :=
  (p.positions.filter fun q ↦ !w.execution.executed q).length

/-- Visits the completions of a walk that take at most `n` steps, in order: positions in increasing
order, and the choices for each in turn. The visitor `f` sees each completed walk, or the fault that
stands in the way of it. -/
def visit {β : Type} (f : β → Except Fault (Walk p s) → β) : Nat → Walk p s → β → β
  | 0, _, b => b
  | n + 1, w, b =>
    w.eligible.foldl (fun b q ↦
      match w.choices q with
      | .error fault => f b (.error fault)
      | .ok cs => cs.foldl (fun b c ↦
          match w.enter q c with
          | (_, .error fault) => f b (.error fault)
          | (w', .ok _) => if w'.execution.complete then f b (.ok w') else visit f n w' b) b) b

end Walk

end Litmus
