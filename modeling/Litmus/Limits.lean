import Litmus.Fault

/-!
# Limits on the size of a program

The number of interleavings grows factorially, so a program is only explored if it has few threads
and few instructions in each.
-/

namespace Litmus

/-- The largest number of threads, and of instructions in a thread, that is accepted. Both are
positive. -/
structure Limits where
  /-- The largest number of threads. -/
  threads : Nat
  /-- The largest number of instructions in a thread. -/
  instructions : Nat
  /-- At least one thread is accepted. -/
  threads_pos : 0 < threads := by decide
  /-- At least one instruction is accepted. -/
  instructions_pos : 0 < instructions := by decide
  deriving DecidableEq

namespace Limits

/-- Six threads of ten instructions. -/
def standard : Limits := { threads := 6, instructions := 10 }

/-- The limits with the given numbers, which must be positive. -/
def ofInts (threads instructions : Int) : Except Fault Limits :=
  if h : 0 < threads.toNat ∧ 0 < instructions.toNat then
    .ok { threads := threads.toNat, instructions := instructions.toNat, threads_pos := h.1,
          instructions_pos := h.2 }
  else .error .noRoom

/-- The number that a value offers as a limit. A fraction is rounded down. -/
def number : Datum → Except Fault Int
  | .int v => .ok v
  | .bool b => .ok (if b then 1 else 0)
  | .float x => .ok x.floor.toInt64.toInt
  | d => .error (.kind (.incomparable d.kind))

/-- The limits with the numbers that are offered, which must be positive. The number of threads is
checked before the other one is looked at. -/
def ofData (threads instructions : Datum) : Except Fault Limits := do
  let t ← number threads
  if t < 1 then throw .noRoom
  ofInts t (← number instructions)

end Limits

end Litmus
