import Litmus.Instruction
import Litmus.Outcome
import Litmus.Text.Order

/-!
# Sets of outcomes

A set of outcomes has at most one outcome for each key. It keeps the outcomes in the order in which
they were found, each with the witness that it was first found with. A witness is mostly a run,
given by its steps, but nothing here depends on it.

There are two dictionaries, one of outcomes and one of witnesses. Whether a key is there is asked of
the first alone; both are written for a new key, so they always have the same keys in the same
order. `OutcomeSet.solutions` lists what they hold for each.
-/

namespace Litmus

/-- Where a load takes its value from. -/
inductive Source where
  /-- The shared memory. -/
  | memory
  /-- The nearest earlier store of its own thread to its variable, still pending. -/
  | forwarded
  deriving DecidableEq

namespace Source

/-- The word for a source. -/
def word : Source → String
  | memory => "memory"
  | forwarded => "forwarded"

/-- The source that a value names by its word. -/
def ofDatum (d : Datum) : Except Fault Source :=
  Vocabulary.source.find ([memory, forwarded].map fun s ↦ (s.word, s)) d

/-- The source that a value names by its word, if it is a value at all. -/
def ofDatum? : Datum → Except Fault (Option Source)
  | .null => .ok none
  | d => (ofDatum d).map some

end Source

/-- One step of a run of instructions of type `ι`. -/
structure Step (ι : Type) where
  /-- The position of the instruction. -/
  position : Position
  /-- The instruction. -/
  instruction : ι
  /-- The value that was stored or seen. -/
  value : Int
  /-- Where a load took its value from. -/
  source : Option Source
  deriving DecidableEq

/-- The step with its instruction replaced by something made of it. -/
def Step.map {ι κ : Type} (f : ι → κ) (t : Step ι) : Step κ :=
  { t with instruction := f t.instruction }

/-- A run of a program, step by step. -/
abbrev Run : Type := List (Step Instruction)

/-- An outcome with its key and a witness. -/
structure Solution (ω : Type) where
  /-- The key of the outcome. -/
  key : String
  /-- The outcome. -/
  outcome : Outcome
  /-- The witness that it was first found with. -/
  witness : ω
  deriving DecidableEq

/-! ### Dictionaries -/

namespace Dictionary

variable {α β : Type} {k : String} {l : List (String × α)}

/-- The dictionary with a key set to a value. A new key goes to the end. -/
def assign (k : String) (a : α) : List (String × α) → List (String × α)
  | [] => [(k, a)]
  | e :: l => if e.1 = k then (k, a) :: l else e :: assign k a l

/-- A new key goes to the end. -/
theorem assign_of_not_mem (h : k ∉ l.map Prod.fst) (a : α) : assign k a l = l ++ [(k, a)] := by
  induction l with
  | nil => rfl
  | cons e l ih =>
    rw [List.map_cons, List.mem_cons, not_or] at h
    rw [assign, if_neg (Ne.symm h.1), ih h.2, List.cons_append]

/-- A key that is there keeps its place. -/
theorem keys_assign_of_mem (h : k ∈ l.map Prod.fst) (a : α) :
    (assign k a l).map Prod.fst = l.map Prod.fst := by
  induction l with
  | nil => cases h
  | cons e l ih =>
    rw [assign]
    split
    · rename_i he
      rw [List.map_cons, List.map_cons, he]
    · rename_i he
      rw [List.map_cons, ih ((List.mem_cons.1 h).resolve_left (Ne.symm he)), List.map_cons]

/-- What happens to the keys does not depend on the values. -/
theorem keys_assign_congr {l' : List (String × β)} (h : l.map Prod.fst = l'.map Prod.fst)
    (k : String) (a : α) (b : β) :
    (assign k a l).map Prod.fst = (assign k b l').map Prod.fst := by
  by_cases hk : k ∈ l.map Prod.fst
  · rw [keys_assign_of_mem hk, keys_assign_of_mem (h ▸ hk), h]
  · rw [assign_of_not_mem hk, assign_of_not_mem (h ▸ hk), List.map_append, List.map_append, h]
    rfl

/-- What the dictionary holds for a key that has to be there. -/
def fetch (l : List (String × α)) (key : String) : Except Fault α :=
  match l.lookup key with
  | some a => .ok a
  | none => .error (.unknownKey (Text.quoted key))

end Dictionary

/-! ### Sets -/

/-- Outcomes with distinct keys, in the order in which they were found. -/
structure OutcomeSet (ω : Type) where
  /-- The outcomes by their keys. -/
  outcomes : List (String × Outcome)
  /-- The witnesses by the keys of their outcomes. -/
  witnesses : List (String × ω)
  /-- Every outcome has its witness. -/
  keys_eq : witnesses.map Prod.fst = outcomes.map Prod.fst
  deriving DecidableEq

namespace OutcomeSet

variable {ω ω' : Type}

/-- The set without outcomes. -/
def empty : OutcomeSet ω := ⟨[], [], rfl⟩

/-- The keys in the order in which they were found. -/
def keys (s : OutcomeSet ω) : List String := s.outcomes.map Prod.fst

/-- The number of outcomes. -/
def size (s : OutcomeSet ω) : Nat := s.outcomes.length

/-- Whether some outcome has the key. -/
def contains (s : OutcomeSet ω) (key : String) : Bool := s.outcomes.any (·.1 == key)

/-- The set with an outcome and its witness under a key. -/
def set (s : OutcomeSet ω) (key : String) (o : Outcome) (witness : ω) : OutcomeSet ω where
  outcomes := Dictionary.assign key o s.outcomes
  witnesses := Dictionary.assign key witness s.witnesses
  keys_eq := Dictionary.keys_assign_congr s.keys_eq key witness o

/-- Adds an outcome unless its key is there already, and says whether it was added. -/
def add (s : OutcomeSet ω) (o : Outcome) (witness : ω) : Except Fault (OutcomeSet ω × Bool) :=
  o.key.map fun k ↦ if s.contains k then (s, false) else (s.set k o witness, true)

/-- The outcome with a key. -/
def outcome (s : OutcomeSet ω) (key : String) : Except Fault Outcome :=
  Dictionary.fetch s.outcomes key

/-- The witness of the outcome with a key. -/
def witness (s : OutcomeSet ω) (key : String) : Except Fault ω := Dictionary.fetch s.witnesses key

/-- The outcome with a key, together with its witness. -/
def find (s : OutcomeSet ω) (key : String) : Except Fault (Solution ω) := do
  return ⟨key, ← s.outcome key, ← s.witness key⟩

/-- The outcomes with their keys and witnesses, in the order in which they were found. -/
def solutions (s : OutcomeSet ω) : List (Solution ω) :=
  List.zipWith (fun e e' ↦ ⟨e.1, e.2, e'.2⟩) s.outcomes s.witnesses

/-- The keys in the order of their code points. -/
def sorted (s : OutcomeSet ω) : List String := Text.sort s.keys

/-- Whether every key of one set is a key of the other. -/
def subset (s : OutcomeSet ω) (t : OutcomeSet ω') : Bool := s.keys.all t.contains

/-- Whether the keys are exactly the given ones. -/
def sameKeys (s : OutcomeSet ω) (keys : List String) : Bool :=
  s.keys.all keys.contains && keys.all s.contains

/-- The keys of one set that the other lacks, in the order of their code points. -/
def beyond (s : OutcomeSet ω) (t : OutcomeSet ω') : List String :=
  Text.sort (s.keys.filter fun k ↦ !t.contains k)

/-- The text of a set in a message: its keys in order. -/
def render (s : OutcomeSet ω) : String :=
  "SolutionSet([" ++ ", ".intercalate (s.sorted.map Text.quoted) ++ "])"

end OutcomeSet

end Litmus
