import Litmus.Session.Command
import Litmus.WaitGraph

/-!
# Sessions with a wait graph

The calls lift and impose edges and ask for them; the one block lifts the edges that lead to a
position for as long as it lasts.
-/

namespace Litmus.Session.Graph

/-- The calls. -/
inductive Call where
  /-- Lifts the edges to a position. -/
  | lift (q : Position)
  /-- Imposes the edges to a position. -/
  | impose (q : Position)
  /-- Asks whether a position waits. -/
  | isWaiting (q : Position)
  /-- Asks what a position waits for. -/
  | dependencies (q : Position)

/-- The block. -/
inductive Block where
  /-- Lifts the edges to a position until it is left. -/
  | lifted (q : Position)

/-- The replies. -/
inductive Reply where
  /-- Nothing to say. -/
  | done
  /-- A truth value. -/
  | flag (b : Bool)
  /-- Positions. -/
  | positions (l : List Position)

variable {p : Program} {m : Model}

/-- The reactions of a wait graph. -/
def machine : Machine (WaitGraph p m) Call Block Unit Reply where
  call
    | .lift q, g => Prod.map id (Except.map fun _ ↦ .done) (g.lift q)
    | .impose q, g => Prod.map id (Except.map fun _ ↦ .done) (g.impose q)
    | .isWaiting q, g => (g, (g.dependencies q).map fun l ↦ .flag !l.isEmpty)
    | .dependencies q, g => (g, (g.dependencies q).map .positions)
  enter | .lifted q, g => Prod.map id (Except.map fun _ ↦ ((), .done)) (g.lift q)
  leave | .lifted q, (), g => g.impose q

end Litmus.Session.Graph
