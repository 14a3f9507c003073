import Litmus.Exploration
import Litmus.Session.Command

/-!
# Sessions with an exploration

The calls ask what may happen next and run the exploration from where it stands; the one block takes
a step for as long as it lasts. Sources are given by values, which are looked up first.
-/

namespace Litmus.Session.Exploration

/-- The calls. -/
inductive Call where
  /-- Asks which positions may run next. -/
  | eligible
  /-- Asks for the sources of a load. -/
  | sources (q : Position)
  /-- Asks for the value that a source gives. -/
  | resolve (q : Position) (source : Datum)
  /-- Asks for all ways in which an instruction can run. -/
  | choices (q : Position)
  /-- Explores all continuations. -/
  | run

/-- The block. -/
inductive Block where
  /-- Takes a step until it is left. -/
  | step (q : Position) (source : Datum) (value : Int)

/-- The replies. -/
inductive Reply where
  /-- Nothing to say. -/
  | done
  /-- Positions. -/
  | positions (l : List Position)
  /-- Sources. -/
  | sources (l : List Source)
  /-- A value. -/
  | value (v : Int)
  /-- Choices. -/
  | choices (l : List Choice)
  /-- All that was found so far. -/
  | findings (f : Findings)

variable {p : Program} {s : Setting}

/-- The reactions of an exploration. -/
def machine : Machine (Litmus.Exploration p s) Call Block Int Reply where
  call
    | .eligible, e => (e, .ok (.positions e.walk.eligible))
    | .sources q, e => (e, (e.walk.sources q).map .sources)
    | .resolve q source, e => (e, do return .value (← e.walk.resolve q (← Source.ofDatum source)))
    | .choices q, e => (e, (e.walk.choices q).map .choices)
    | .run, e =>
      let (e', r) := e.run
      (e', r.map fun _ ↦ .findings e'.findings)
  enter
    | .step q source value, e =>
      match Source.ofDatum? source with
      | .error f => (e, .error f)
      | .ok source =>
        let (walk, r) := e.walk.enter q ⟨source, value⟩
        ({ e with walk }, r.map fun prior ↦ (prior, .done))
  leave
    | .step q _ _, prior, e =>
      let (walk, r) := e.walk.leave q prior
      ({ e with walk }, r)

end Litmus.Session.Exploration
