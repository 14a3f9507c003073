import Litmus.Program

/-!
# Program texts

A program is written one instruction to a line:

```
st x 1      # store 1 in x
ld y
---         # ends the first thread
st y, 2
```

A comma counts as a space, blank lines are skipped, and `#` starts a comment. Instructions after the
last `---` form a last thread.

Lines are read in order, and the limits are enforced while reading: the first line that is bad, or
that makes the program too large, is the one that is reported.
-/

namespace Litmus

/-- The instruction on a line. The number of the line is only used in faults. -/
def Instruction.read (line : List Char) (number : Option Int) : Except Fault Instruction :=
  match Text.words (line.map fun c ↦ if c = ',' then ' ' else c) with
  | [] => .error (.line number .noInstruction)
  | word :: operands =>
    if word = ['s', 't'] then
      match operands with
      | [x, value] =>
        match Numeral.read value with
        | .malformed => .error (.line number (.storeValue (String.ofList value)))
        | .tooLong digits => .error (.numeralTooLong digits)
        | .value v => .ok (.store (String.ofList x) v)
      | _ => .error (.line number (.storeOperands (String.ofList (Text.trim line))))
    else if word = ['l', 'd'] then
      match operands with
      | [x] => .ok (.load (String.ofList x))
      | _ => .error (.line number (.loadOperands (String.ofList (Text.trim line))))
    else .error (.line number (.unknownOperation (String.ofList word)))

namespace Listing

/-- The line that ends a thread. -/
def separator : List Char := ['-', '-', '-']

/-- A line without its comment. A comment runs from its `#` to the end of the line, and a line feed
can only be the last character of one: where a line feed stands further inside, what precedes it
holds no comment. -/
def uncomment : List Char → List Char
  | [] => []
  | c :: rest => if c = '#' ∧ !rest.dropLast.contains '\n' then [] else c :: uncomment rest

/-- The part of a program that has been read: the threads that were ended, and the instructions of
the thread that is open. -/
structure Draft where
  /-- The threads that were ended. -/
  ended : List (List Instruction)
  /-- The instructions of the open thread. -/
  current : List Instruction
  deriving DecidableEq

/-- The draft before the first line. -/
def Draft.empty : Draft := ⟨[], []⟩

/-- The threads of a draft. The open thread counts if it has instructions. -/
def Draft.threads (d : Draft) : List (List Instruction) :=
  if d.current = [] then d.ended else d.ended ++ [d.current]

/-- Adds one line to a draft. -/
def Draft.addLine (limits : Limits) (d : Draft) (number : Nat) (raw : List Char) :
    Except Fault Draft :=
  let line := Text.trim (uncomment raw)
  if line = [] then .ok d
  else if line = separator then
    if limits.threads < d.ended.length + 1 then
      .error (.line (some number) (.tooManyThreads limits.threads))
    else .ok ⟨d.ended ++ [d.current], []⟩
  else match Instruction.read line (some number) with
    | .error f => .error f
    | .ok i =>
      if limits.instructions < d.current.length + 1 then
        .error (.line (some number) (.threadTooLong d.ended.length limits.instructions))
      else .ok ⟨d.ended, d.current ++ [i]⟩

/-- Adds lines to a draft. The first of them has the given number. -/
def Draft.addLines (limits : Limits) (d : Draft) (number : Nat) :
    List (List Char) → Except Fault Draft
  | [] => .ok d
  | line :: rest =>
    match d.addLine limits number line with
    | .error f => .error f
    | .ok d' => d'.addLines limits (number + 1) rest

end Listing

namespace Program

/-- The program on the given lines, which has to stay within the limits. -/
def ofLines (lines : List (List Char)) (limits : Limits) : Except Fault Program := do
  let draft ← Listing.Draft.empty.addLines limits 1 lines
  let p ← ofThreads draft.threads
  p.check limits
  return p

/-- The program with the given text, which has to stay within the limits. -/
def read (text : String) (limits : Limits) : Except Fault Program :=
  ofLines (Text.lines text.toList) limits

end Program

end Litmus
