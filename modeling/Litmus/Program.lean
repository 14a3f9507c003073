import Litmus.Instruction
import Litmus.Limits

/-!
# Programs

A program is a list of threads, each a straight line of instructions. Some thread has an
instruction; empty threads beside it are fine.

`Program.positions` lists the positions of all instructions, thread by thread. Looking up other
positions fails, except that negative numbers count from the end (`Program.get?`).
-/

namespace Litmus

/-- A list of threads with at least one instruction in all. -/
structure Program where
  /-- The threads, each with its instructions in program order. -/
  threads : List (List Instruction)
  /-- Some thread has an instruction. -/
  flatten_ne_nil : threads.flatten ≠ []
  deriving DecidableEq

/-- The element of a list at a place that counts from the end if it is negative. There must be
one. -/
def fetchNth {α : Type} (l : List α) (i : Int) : Except Fault α :=
  match nth? l i with
  | some a => .ok a
  | none => .error (if -Nat.pow 2 63 ≤ i ∧ i < Nat.pow 2 63 then .outsideProgram else .unreachable)

namespace Program

/-! ### Making programs -/

/-- The program with the given threads. -/
def ofThreads (threads : List (List Instruction)) : Except Fault Program :=
  if threads = [] then .error (.program .noThreads)
  else if h : threads.flatten = [] then .error (.program .noInstructions)
  else .ok ⟨threads, h⟩

/-- The instructions of a thread in which nothing else was offered. -/
def thread (offers : List Offer) : Except Fault (List Instruction) :=
  offers.mapM fun
    | .instruction i => .ok i
    | .other d => .error (.program (.notInstruction d.render))

/-- The program with the given threads, in which only instructions may occur. -/
def ofOffers (threads : List (List Offer)) : Except Fault Program := do
  ofThreads (← threads.mapM thread)

/-! ### Size -/

/-- The number of instructions. -/
def total (p : Program) : Nat := p.threads.flatten.length

/-- The number of instructions in the longest thread. -/
def longest (p : Program) : Nat := (p.threads.map List.length).foldl max 0

/-- Accepts a program that stays within the limits. The number of threads is checked first, then
the threads in order. -/
def check (p : Program) (limits : Limits) : Except Fault Unit :=
  if limits.threads < p.threads.length then
    .error (.program (.tooManyThreads p.threads.length limits.threads))
  else match p.threads.zipIdx.find? fun th ↦ limits.instructions < th.1.length with
    | some (th, t) => .error (.program (.threadTooLong t th.length limits.instructions))
    | none => .ok ()

/-! ### Positions -/

/-- The positions of all instructions, in the order of threads and then of places. -/
def positions (p : Program) : List Position :=
  p.threads.zipIdx.flatMap fun th ↦ (List.range th.1.length).map fun i : Nat ↦ ⟨th.2, i⟩

/-- The instruction at a position. Negative numbers count from the end. -/
def get? (p : Program) (q : Position) : Option Instruction :=
  (nth? p.threads q.thread).bind fun th ↦ nth? th q.index

/-- The thread that a position names, which must exist. -/
def threadAt (p : Program) (q : Position) : Except Fault (List Instruction) :=
  fetchNth p.threads q.thread

/-- The instruction at a position, which must lead to one. -/
def fetch (p : Program) (q : Position) : Except Fault Instruction := do
  fetchNth (← p.threadAt q) q.index

/-- The positions after the given one up to the end of its thread. -/
def after (p : Program) (q : Position) : Except Fault (List Position) :=
  (p.threadAt q).map fun th ↦ (intRange (q.index + 1) th.length).map fun i ↦ ⟨q.thread, i⟩

/-- The earlier stores of the same thread to the same variable, the nearest first. -/
def storesBefore (p : Program) (q : Position) : Except Fault (List Position) := do
  let th ← p.threadAt q
  let i ← fetchNth th q.index
  let stores := (th.take q.index.toNat).zipIdx.filter fun e ↦ e.1.storesTo i.name
  return stores.reverse.map fun e ↦ ⟨q.thread, e.2⟩

/-- The positions of the loads. -/
def loads (p : Program) : List Position :=
  p.positions.filter fun q ↦ (p.get? q).any (·.isLoad)

/-- The variables, in the order of their first access. -/
def names (p : Program) : List String := (p.threads.flatten.map (·.name)).eraseDups

/-! ### Text -/

/-- A list of texts between brackets. -/
def bracketed (items : List String) : String := "[" ++ ", ".intercalate items ++ "]"

/-- The text of a program in a message: its threads as lists of quoted instructions. -/
def render (p : Program) : String :=
  "Program(" ++
    bracketed (p.threads.map fun th ↦ bracketed (th.map fun i ↦ Text.quoted i.render)) ++ ")"

end Program

end Litmus
