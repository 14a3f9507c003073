import Litmus.Program

/-!
# Generating programs

A generator builds a small program. It never makes more threads or instructions than its recipe
allows, and keeps a budget for the instructions of all threads. The first thread always gets an
instruction, so the program is never empty.

Every number is drawn from a range, and the ranges are logged. Who draws the numbers is left open: a
`Chooser` is anything that answers a range which is not empty with a number of it. One of them reads
its numbers off a list of picks (`Chooser.picks`).
-/

namespace Litmus.Generator

/-- What programs to generate. Variables and values are offered as they come, and refused when an
instruction is made of them. -/
structure Recipe where
  /-- The largest number of threads. -/
  maxThreads : Int := 3
  /-- The largest number of instructions in a thread. -/
  maxInstructions : Int := 3
  /-- The variables to choose from. -/
  names : List Datum := [.text "x", .text "y"]
  /-- The values to choose from. -/
  values : List Datum := [.int 1, .int 2]
  /-- The largest number of instructions in all. -/
  maxTotal : Option Int := none

namespace Recipe

/-- The names of the settings. -/
def settings : List String :=
  ["max_threads", "max_instructions", "variables", "values", "max_total"]

/-- The number in a setting. -/
def number (standard : Int) : Option Datum → Int
  | some (.int v) => v
  | some (.bool b) => if b then 1 else 0
  | _ => standard

/-- The recipe with the given settings. All others have their standard values. -/
def ofSettings (fields : List (String × Datum)) : Except Fault Recipe := do
  match fields.find? fun f ↦ !settings.contains f.1 with
  | some f => throw (.kind (.noSetting f.1))
  | none =>
    let standard : Recipe := {}
    let names ← match fields.lookup "variables" with
      | some d => d.members
      | none => pure standard.names
    let values ← match fields.lookup "values" with
      | some d => d.members
      | none => pure standard.values
    return {
      maxThreads := number standard.maxThreads (fields.lookup "max_threads")
      maxInstructions := number standard.maxInstructions (fields.lookup "max_instructions")
      names, values
      maxTotal := match fields.lookup "max_total" with
        | none | some .null => none
        | d => some (number 0 d) }

end Recipe

/-! ### Drawing numbers -/

/-- Something that draws numbers, with a state of type `σ`. -/
structure Chooser (σ : Type) where
  /-- Draws a number between two others, and gives the state that follows. -/
  draw : (low high : Int) → σ → Except Fault (Int × σ)
  /-- If there is a number between them, it is such a number that is drawn. -/
  draw_mem : ∀ low high s, low ≤ high → ∃ k s', draw low high s = .ok (k, s') ∧ low ≤ k ∧ k ≤ high

/-- Draws by a list of picks, each of which is reduced modulo the size of its range. When they are
used up, zeros follow. -/
def Chooser.picks : Chooser (List Int) where
  draw low high l :=
    if high - low + 1 = 0 then .error .emptyChoice
    else .ok (low + Int.fmod (l.headD 0) (high - low + 1), l.tail)
  draw_mem low high l h := by
    have hpos : 0 < high - low + 1 := by omega
    have hlow := Int.fmod_nonneg_of_pos (l.headD 0) hpos
    have hhigh := Int.fmod_lt_of_pos (l.headD 0) hpos
    exact ⟨_, l.tail, if_neg (by omega), by omega, by omega⟩

/-- A number that was drawn, with its range. -/
inductive Draw where
  /-- A number of threads. -/
  | count (low high : Int)
  /-- A number of instructions. -/
  | length (low high : Int)
  deriving DecidableEq

/-- The state of the chooser, and the draws that are logged. -/
structure Supply (σ : Type) where
  /-- The state of the chooser. -/
  state : σ
  /-- The draws, the first one first. -/
  draws : List Draw := []

/-- A step of a generation. -/
abbrev Gen (σ α : Type) : Type := StateT (Supply σ) (Except Fault) α

/-- Logs a draw. -/
def note {σ : Type} (d : Draw) : Gen σ Unit :=
  fun s ↦ .ok ((), { s with draws := s.draws ++ [d] })

variable {σ : Type} (c : Chooser σ)

/-- A number between `low` and `high`. -/
def between (low high : Int) : Gen σ Int := fun s ↦
  (c.draw low high s.state).map fun (k, state) ↦ (k, { s with state })

/-- One of the given elements. -/
def oneOf {α : Type} (l : List α) : Gen σ α := do
  match l[(← between c 0 (l.length - 1)).toNat]? with
  | some a => return a
  | none => throw .emptyChoice

/-! ### Instructions, threads and programs -/

/-- An instruction: first its kind, then its variable, then the value of a store. -/
def instruction (r : Recipe) : Gen σ Instruction := do
  if (← between c 0 1) = 0 then Instruction.makeLoad (← oneOf c r.names) .null
  else
    let x ← oneOf c r.names
    Instruction.makeStore x (← oneOf c r.values)

/-- A number of instructions. -/
def instructions (r : Recipe) : Nat → Gen σ (List Instruction)
  | 0 => return []
  | n + 1 => do
    let i ← instruction c r
    return i :: (← instructions r n)

/-- A thread. It takes no more than is left of the budget, but the first one has an instruction in
any case. -/
def thread (r : Recipe) (isFirst : Bool) (budget : Int) : Gen σ (List Instruction) := do
  let low : Int := if isFirst then 1 else 0
  let high := max low (min r.maxInstructions budget)
  note (.length low high)
  instructions c r (← between c low high).toNat

/-- A number of threads. -/
def threads (r : Recipe) (isFirst : Bool) (budget : Int) : Nat → Gen σ (List (List Instruction))
  | 0 => return []
  | n + 1 => do
    let th ← thread c r isFirst budget
    return th :: (← threads r false (budget - th.length) n)

/-- A program. Without a limit on all its instructions, every thread may be as long as allowed. -/
def program (r : Recipe) : Gen σ Program := do
  note (.count 1 r.maxThreads)
  let n ← between c 1 r.maxThreads
  Program.ofThreads (← threads c r true (r.maxTotal.getD (n * r.maxInstructions)) n.toNat)

/-- The program that a recipe makes of what is drawn from a state on, and the draws that were
made. -/
def generate (r : Recipe) (s : σ) : Except Fault (Program × List Draw) :=
  ((program c r).run { state := s }).map fun (p, s) ↦ (p, s.draws)

end Litmus.Generator
