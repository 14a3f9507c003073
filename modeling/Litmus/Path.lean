import Litmus.Text.Blank

/-!
# Paths

A path is made normal before it is handed to the system: what says nothing is left out.
-/

namespace Litmus.Path

/-- The names on a path. Empty names and single dots say nothing and are dropped. -/
def names (path : String) : List String :=
  ((Text.segments (· == '/') path.toList).filter fun n ↦ n ≠ [] ∧ n ≠ ['.']).map String.ofList

/-- The slashes that a path starts with: none, one, or exactly two. Three or more count as one. -/
def root (path : String) : String :=
  match (path.toList.takeWhile (· == '/')).length with
  | 0 => ""
  | 2 => "//"
  | _ => "/"

/-- The path without anything superfluous. The empty path is the current directory. -/
def normal (path : String) : String :=
  let short := root path ++ "/".intercalate (names path)
  if short = "" then "." else short

/-- Whether a path has a null character, which the system takes for its end. -/
def hasNull (path : String) : Bool := path.toList.contains (Char.ofNat 0)

end Litmus.Path
