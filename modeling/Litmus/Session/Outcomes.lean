import Litmus.Report
import Litmus.Session.Command

/-!
# Sessions with named sets of outcomes

Every call names a set, and may name a second one. A set is empty when it is first named. There are
no blocks.
-/

namespace Litmus.Session.Outcomes

/-- The steps of a witness, which need not be instructions. -/
abbrev Witness : Type := List (Step Offer)

/-- The sets named so far. -/
structure Shelf where
  /-- The names with their sets, in the order in which they were first named. -/
  sets : List (String × OutcomeSet Witness)

/-- No set has been named. -/
def Shelf.empty : Shelf := ⟨[]⟩

/-- The set with a name. -/
def Shelf.get (h : Shelf) (name : String) : OutcomeSet Witness := (h.sets.lookup name).getD .empty

/-- Makes room for a name. -/
def Shelf.mention (h : Shelf) (name : String) : Shelf :=
  if (h.sets.lookup name).isSome then h else ⟨h.sets ++ [(name, .empty)]⟩

/-- Replaces the set with a name that was mentioned before. -/
def Shelf.put (h : Shelf) (name : String) (s : OutcomeSet Witness) : Shelf :=
  ⟨h.sets.map fun x ↦ if x.1 = name then (x.1, s) else x⟩

/-- What is asked of a set, or of a set and a second one. -/
inductive Request where
  /-- Adds an outcome. -/
  | add (o : Outcome) (witness : Witness)
  /-- Asks for a key. -/
  | contains (key : Datum)
  /-- Asks for the key of an outcome. -/
  | containsOutcome (o : Outcome)
  /-- Asks for the keys in order. -/
  | sorted
  /-- Asks for the text of the set. -/
  | render
  /-- Asks whether the second set has the same keys. -/
  | equal
  /-- Asks whether the keys are the given ones. -/
  | equalKeys (keys : List Datum)
  /-- Asks whether the set is a list, which it never is. -/
  | equalList
  /-- Asks whether the second set has all the keys. -/
  | subset
  /-- Asks for the keys that the second set lacks. -/
  | beyond
  /-- Asks for the outcome with a key. -/
  | outcome (key : Datum)
  /-- Asks for the witness of a key. -/
  | witness (key : Datum)
  /-- Asks for the section of a report, with the second set as the reference. -/
  | report (heading : String) (witnesses : Bool)

/-- A call: the sets that it names, and what is asked of them or why that could not be
understood. -/
structure Call where
  /-- The name of the set. -/
  set : String
  /-- The name of the second set. -/
  other : Option String
  /-- The request. -/
  request : Except Fault Request

/-- The replies. -/
inductive Reply where
  /-- A truth value. -/
  | flag (b : Bool)
  /-- Texts. -/
  | texts (l : List String)
  /-- A text. -/
  | text (s : String)
  /-- An outcome. -/
  | outcome (o : Outcome)
  /-- The steps of a run. -/
  | steps (l : Witness)

/-! ### Keys of any kind -/

/-- Whether some outcome has the key. One that is no text belongs to none. -/
def containsKey (s : OutcomeSet Witness) (key : Datum) : Except Fault Bool :=
  key.key.map fun k ↦ k.text?.any s.contains

/-- What is found under a key. -/
def findKey {α : Type} (find : String → Except Fault α) (key : Datum) : Except Fault α := do
  match ← key.key with
  | .text k => find k
  | d => .error (.unknownKey d.render)

/-- Whether the keys are exactly the given ones. -/
def sameKeys (s : OutcomeSet Witness) (keys : List Datum) : Except Fault Bool := do
  let keys ← keys.mapM Datum.key
  return keys.all (fun k ↦ k.text?.isSome) && s.sameKeys (keys.filterMap Datum.text?)

/-! ### Requests -/

/-- Does what is asked of a set, given by its name, and a second one. -/
def Request.perform (h : Shelf) (name : String) (second : Option (OutcomeSet Witness)) :
    Request → Shelf × Except Fault Reply
  | add o steps =>
    match (h.get name).add o steps with
    | .ok (s, added) => (h.put name s, .ok (.flag added))
    | .error f => (h, .error f)
  | contains key => (h, (containsKey (h.get name) key).map .flag)
  | containsOutcome o => (h, o.key.map fun key ↦ .flag ((h.get name).contains key))
  | sorted => (h, .ok (.texts (h.get name).sorted))
  | render => (h, .ok (.text (h.get name).render))
  | equal => (h, .ok (.flag ((h.get name).sameKeys (second.getD .empty).keys)))
  | equalKeys keys => (h, (sameKeys (h.get name) keys).map .flag)
  | equalList => (h, .ok (.flag false))
  | subset => (h, .ok (.flag ((h.get name).subset (second.getD .empty))))
  | beyond => (h, .ok (.texts ((h.get name).beyond (second.getD .empty))))
  | outcome key => (h, (findKey (h.get name).outcome key).map .outcome)
  | witness key => (h, (findKey (h.get name).witness key).map .steps)
  | report heading witnesses =>
    let shown := if witnesses then some fun r : Witness ↦ Report.witness (r.map (·.map Offer.plain))
      else none
    (h, .ok (.text (Report.outcomes heading (h.get name) second shown)))

/-- The reactions of named sets. -/
def machine : Machine Shelf Call Empty Unit Reply where
  call c h :=
    let h := h.mention c.set
    let h := (c.other.map h.mention).getD h
    match c.request with
    | .ok request => request.perform h c.set (c.other.map h.get)
    | .error f => (h, .error f)
  enter b := nomatch b
  leave b := nomatch b

end Litmus.Session.Outcomes
