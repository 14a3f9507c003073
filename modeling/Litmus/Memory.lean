import Litmus.Fault

/-!
# Shared memory

The values of the declared variables, all zero at first. The variables keep the order in which they
were declared, and no variable can be added later.
-/

namespace Litmus

/-- The declared variables with their values, in the order of declaration. -/
structure Memory where
  /-- The variables and their values. -/
  cells : List (String × Int)
  deriving DecidableEq

namespace Memory

/-- The memory with the given variables, each declared once, all zero. -/
def ofNames (names : List String) : Memory := ⟨names.eraseDups.map fun x ↦ (x, 0)⟩

/-- The value of a variable, if it is declared. -/
def get? (m : Memory) (x : String) : Option Int := m.cells.lookup x

/-- Cells with the value of the first one named `x` replaced. -/
def setCell (x : String) (v : Int) : List (String × Int) → List (String × Int)
  | [] => []
  | c :: cs => if x = c.1 then (x, v) :: cs else c :: setCell x v cs

/-- The memory with the value of a declared variable replaced. -/
def set (m : Memory) (x : String) (v : Int) : Memory := ⟨setCell x v m.cells⟩

/-- Whether a variable is declared. -/
def contains (m : Memory) (x : String) : Bool := (m.get? x).isSome

/-- Reads a declared variable. -/
def read (m : Memory) (x : String) : Except Fault Int :=
  match m.get? x with
  | some v => .ok v
  | none => .error (.contract (.undeclared (Text.quoted x)))

/-- Writes a declared variable, and gives the value that it had. The variable is read first, so
nothing is written if it is not declared. -/
def write (m : Memory) (x : String) (v : Int) : Memory × Except Fault Int :=
  match m.read x with
  | .ok prior => (m.set x v, .ok prior)
  | .error f => (m, .error f)

/-- The text of a memory in a message. -/
def render (m : Memory) : String :=
  "Memory(\x7b" ++
    ", ".intercalate (m.cells.map fun c ↦ Text.quoted c.1 ++ ": " ++ Numeral.write c.2) ++ "\x7d)"

/-! ### What writing does -/

theorem lookup_cons_of_ne {x z : String} (h : x ≠ z) (u : Int) (cs : List (String × Int)) :
    List.lookup x ((z, u) :: cs) = List.lookup x cs := by
  rw [List.lookup_cons, beq_false_of_ne h]

/-- A variable that has no cell does not get one. -/
theorem lookup_setCell (x y : String) (v : Int) (cs : List (String × Int)) :
    (setCell x v cs).lookup y =
      if y = x then (cs.lookup x).map fun _ ↦ v else cs.lookup y := by
  induction cs with
  | nil => simp [setCell]
  | cons c cs ih =>
    obtain ⟨z, u⟩ := c
    by_cases hxz : x = z
    · subst hxz
      by_cases hyx : y = x
      · simp [setCell, hyx]
      · simp [setCell, hyx, lookup_cons_of_ne hyx]
    · rw [setCell, if_neg hxz, lookup_cons_of_ne hxz]
      by_cases hyz : y = z
      · subst hyz
        simp [Ne.symm hxz]
      · rw [lookup_cons_of_ne hyz, lookup_cons_of_ne hyz, ih]

/-- Writing a variable changes its value and no other. -/
theorem get?_set (m : Memory) (x y : String) (v : Int) :
    (m.set x v).get? y = if y = x then (m.get? x).map fun _ ↦ v else m.get? y :=
  lookup_setCell x y v m.cells

/-- Of two values for one variable the last stays. -/
theorem setCell_setCell (x : String) (v w : Int) (cs : List (String × Int)) :
    setCell x w (setCell x v cs) = setCell x w cs := by
  induction cs with
  | nil => rfl
  | cons c cs ih => by_cases h : x = c.1 <;> simp [setCell, h, ih]

/-- Writing what is there changes nothing. -/
theorem setCell_of_lookup {x : String} {v : Int} {cs : List (String × Int)}
    (h : cs.lookup x = some v) : setCell x v cs = cs := by
  induction cs with
  | nil => rfl
  | cons c cs ih =>
    obtain ⟨z, u⟩ := c
    by_cases hxz : x = z
    · subst hxz
      simp_all [setCell]
    · rw [lookup_cons_of_ne hxz] at h
      rw [setCell, if_neg hxz, ih h]

/-- **Writing back what was there restores the memory**, the order of its cells included. -/
theorem set_set_of_get? {m : Memory} {x : String} {u : Int} (h : m.get? x = some u) (v : Int) :
    (m.set x v).set x u = m := by
  simp only [set, setCell_setCell]
  rw [setCell_of_lookup h]

end Memory

end Litmus
