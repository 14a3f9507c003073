import Litmus.Position
import Litmus.Fault

/-!
# Outcomes

What is left when a program has run: the final memory and the value that every load saw. Two
outcomes of one program count as the same if their texts are equal, and the text serves as a key.
-/

namespace Litmus

/-- A load with its variable and the value that it saw. -/
structure LoadValue where
  /-- The position of the load. -/
  position : Position
  /-- The variable. -/
  name : String
  /-- The value. -/
  value : Int
  deriving DecidableEq

/-- The final memory and the values of the loads. -/
structure Outcome where
  /-- The variables with their final values, in the order of declaration. -/
  memory : List (String × Int)
  /-- The loads in the order of their positions. -/
  loads : List LoadValue
  deriving DecidableEq

namespace Outcome

/-- The text of an outcome, such as `[x]==1; [y]==2; x==1; y==0; `. -/
def text (o : Outcome) : String :=
  String.join (o.memory.map fun c ↦ "[" ++ c.1 ++ "]==" ++ Numeral.write c.2 ++ "; ") ++
    String.join (o.loads.map fun l ↦ l.name ++ "==" ++ Numeral.write l.value ++ "; ")

/-- Whether all values of an outcome are within the limit on numerals. -/
def fits (o : Outcome) : Bool :=
  o.memory.all (fun c ↦ Numeral.fits c.2) && o.loads.all fun l ↦ Numeral.fits l.value

/-- The key of an outcome: its text, if all its values can be written. -/
def key (o : Outcome) : Except Fault String := if o.fits then .ok o.text else .error .unwritable

end Outcome

end Litmus
