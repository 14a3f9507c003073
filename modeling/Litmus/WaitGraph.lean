import Litmus.Model
import Litmus.PositionSet
import Litmus.Program

/-!
# Which instruction waits for which

A wait graph holds, for every instruction of a program, the set of those that it still has to wait
for. They all stand before it in its thread, and at first they are all that the model orders before
it. Executing an instruction lifts the edges that lead to it, and undoing it imposes them again.

Both go through the positions behind the instruction and change their sets one after the other:
`WaitGraph.lift` discards it from every set, and `WaitGraph.impose` adds it where the model asks for
it. A position that is not one of the program's own has no set, and is a fault that ends the loop
where it stands.
-/

namespace Litmus

/-- For every position of a program, the positions that it waits for under a model. -/
structure WaitGraph (p : Program) (m : Model) where
  /-- The positions, each with those that it waits for. -/
  entries : List (Position × PositionSet)
  /-- Every position of the program has one entry, in order. -/
  keys : entries.map Prod.fst = p.positions
  deriving DecidableEq

namespace WaitGraph

variable {p : Program} {m : Model}

/-! ### Reading the edges -/

/-- The set of a position, if it is one of the program's own. -/
def waits? (g : WaitGraph p m) (q : Position) : Option PositionSet := g.entries.lookup q

/-- The positions that a position waits for. -/
def waitsFor (g : WaitGraph p m) (q : Position) : PositionSet := (g.waits? q).getD .empty

/-- Whether a position waits for anything. -/
def isWaiting (g : WaitGraph p m) (q : Position) : Bool := !(g.waitsFor q).isEmpty

/-- All edges, as pairs of a position and one that it waits for, in increasing order. -/
def edges (g : WaitGraph p m) : List (Position × Position) :=
  g.entries.flatMap fun e ↦ e.2.toList.map fun r ↦ (e.1, r)

/-- The positions that a position waits for, which has to be one of the program's own. -/
def dependencies (g : WaitGraph p m) (q : Position) : Except Fault (List Position) :=
  match g.waits? q with
  | some s => .ok s.toList
  | none => .error (.unknownPosition q)

/-! ### Changing the sets -/

/-- The graph with the set of one position changed. -/
def alter (g : WaitGraph p m) (q : Position) (f : PositionSet → PositionSet) : WaitGraph p m where
  entries := g.entries.map fun e ↦ if e.1 = q then (e.1, f e.2) else e
  keys := by
    rw [List.map_map, ← g.keys]
    refine List.map_congr_left fun e _ ↦ ?_
    rw [Function.comp_apply]
    split <;> rfl

/-- Changes the set of a position, which has to be one of the program's own. -/
def change (g : WaitGraph p m) (q : Position) (f : PositionSet → PositionSet) :
    WaitGraph p m × Except Fault Unit :=
  match g.waits? q with
  | some _ => (g.alter q f, .ok ())
  | none => (g, .error (.unknownPosition q))

/-- Goes through `n` places of a thread, beginning with `i`, unless a fault puts an end to it. What
was done before the fault stays. The places are counted and not listed: there can be very many if
`i` is far below zero, and the first of them is a fault. -/
def sweep (body : Position → WaitGraph p m → WaitGraph p m × Except Fault Unit) (thread : Int) :
    (i : Int) → (n : Nat) → WaitGraph p m → WaitGraph p m × Except Fault Unit
  | _, 0, g => (g, .ok ())
  | i, n + 1, g =>
    match body ⟨thread, i⟩ g with
    | (g', .ok ()) => sweep body thread (i + 1) n g'
    | (g', .error f) => (g', .error f)

/-- Goes through the positions behind `q` up to the end of its thread. -/
def forLater (g : WaitGraph p m) (q : Position)
    (body : Position → WaitGraph p m → WaitGraph p m × Except Fault Unit) :
    WaitGraph p m × Except Fault Unit :=
  match p.threadAt q with
  | .ok th => sweep body q.thread (q.index + 1) (th.length - (q.index + 1)).toNat g
  | .error f => (g, .error f)

/-- Lifts the edges that lead to `q`. -/
def lift (g : WaitGraph p m) (q : Position) : WaitGraph p m × Except Fault Unit :=
  g.forLater q fun r g ↦ g.change r (·.discard q)

/-- Imposes the edges that lead to `q`: those from the instructions that the model orders after the
one at `q`. -/
def impose (g : WaitGraph p m) (q : Position) : WaitGraph p m × Except Fault Unit :=
  match p.fetch q with
  | .error f => (g, .error f)
  | .ok earlier => g.forLater q fun r g ↦
    match p.fetch r with
    | .error f => (g, .error f)
    | .ok later => if m.ordered earlier later then g.change r (·.add q) else (g, .ok ())

/-- The graph without edges. -/
def bare : WaitGraph p m where
  entries := p.positions.map fun q ↦ (q, .empty)
  keys := by
    rw [List.map_map]
    exact List.map_id _

/-- The graph with all edges of the program. They are imposed for one position after the other,
which cannot fail. -/
def full : WaitGraph p m := p.positions.foldl (fun g q ↦ (g.impose q).1) bare

/-! ### What a change does -/

variable {g : WaitGraph p m} {q r : Position}

theorem lookup_cons_of_ne (h : r ≠ q) (s : PositionSet) (l : List (Position × PositionSet)) :
    List.lookup r ((q, s) :: l) = List.lookup r l := by
  rw [List.lookup_cons, beq_false_of_ne h]

/-- Changing the entry of one position leaves the entries of all others alone. -/
theorem lookup_map (q r : Position) (f : PositionSet → PositionSet)
    (l : List (Position × PositionSet)) :
    (l.map fun e ↦ if e.1 = q then (e.1, f e.2) else e).lookup r =
      if r = q then (l.lookup r).map f else l.lookup r := by
  induction l with
  | nil => simp
  | cons e l ih =>
    obtain ⟨k, s⟩ := e
    rw [List.map_cons]
    -- the entry of `k` comes first, and every other key is looked up behind it
    by_cases hr : r = k
    · subst hr
      by_cases hq : r = q <;> simp [hq]
    · rw [lookup_cons_of_ne hr]
      split
      · rw [lookup_cons_of_ne hr, ih]
      · rw [lookup_cons_of_ne hr, ih]

/-- The set of one position is changed and no other. -/
theorem waits?_alter (g : WaitGraph p m) (q : Position) (f : PositionSet → PositionSet)
    (r : Position) :
    (g.alter q f).waits? r = if r = q then (g.waits? r).map f else g.waits? r :=
  lookup_map q r f g.entries

/-- What is a key of the dictionary can be looked up. -/
theorem lookup_eq_some_of_mem {l : List (Position × PositionSet)} (h : q ∈ l.map Prod.fst) :
    ∃ s, l.lookup q = some s := by
  induction l with
  | nil => cases h
  | cons e l ih =>
    obtain ⟨k, s⟩ := e
    by_cases hq : q = k
    · exact ⟨s, by rw [List.lookup_cons, hq, beq_self_eq_true]⟩
    · rw [lookup_cons_of_ne hq]
      exact ih ((List.mem_cons.1 h).resolve_left hq)

/-- The positions of the program have sets. -/
theorem exists_waits? (g : WaitGraph p m) (hq : q ∈ p.positions) : ∃ s, g.waits? q = some s :=
  lookup_eq_some_of_mem (g.keys ▸ hq)

/-- A set that is there can be changed. Only a position outside of the program makes this fail. -/
theorem change_eq (g : WaitGraph p m) (hq : q ∈ p.positions) (f : PositionSet → PositionSet) :
    g.change q f = (g.alter q f, .ok ()) := by
  obtain ⟨s, hs⟩ := g.exists_waits? hq
  rw [change, hs]

end WaitGraph

end Litmus
