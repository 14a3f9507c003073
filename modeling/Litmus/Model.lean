import Litmus.Instruction

/-!
# Consistency models

A model says which earlier instructions of its own thread an instruction has to wait for. Nothing
orders the instructions of different threads.

In both models the stores of a thread keep their order, and nothing runs before an earlier load.
They differ in a load after a store: under IBM370, which is store-atomic, the load waits if the
store is to its own variable; under TSO, which is write-atomic, it never waits.
-/

namespace Litmus

/-- The two models. -/
inductive Model where
  /-- Store-atomic. -/
  | ibm370
  /-- Write-atomic. -/
  | tso
  deriving DecidableEq

namespace Model

/-- The heading of a model's outcomes in a report. -/
def title : Model → String
  | ibm370 => "IBM370 (STORE-ATOMIC)"
  | tso => "TSO (WRITE-ATOMIC)"

/-- The word for a model. -/
def word : Model → String
  | ibm370 => "ibm370"
  | tso => "tso"

/-- The model that a value names by its word. -/
def ofDatum (d : Datum) : Except Fault Model :=
  Vocabulary.model.find ([ibm370, tso].map fun m ↦ (m.word, m)) d

/-- Whether a store becomes visible to its own thread and to all others at once. -/
def storeAtomic : Model → Bool
  | ibm370 => true
  | tso => false

/-- Whether `later` has to wait for `earlier`, which precedes it in the same thread. -/
def ordered (m : Model) (earlier later : Instruction) : Bool :=
  earlier.isLoad || later.isStore || (m.storeAtomic && earlier.name == later.name)

/-- Whether one offer has to wait for another. The earlier one is asked whether it is a load and, if
it is not, the later one whether it is a store; only instructions can answer. -/
def orderedOffers (m : Model) : (earlier later : Offer) → Except Fault Bool
  | .instruction i, .instruction j => .ok (m.ordered i j)
  | .instruction i, .other d =>
    if i.isLoad then .ok true else .error (.kind (.noProperty d.kind "is_store"))
  | .other d, _ => .error (.kind (.noProperty d.kind "is_load"))

end Model

end Litmus
