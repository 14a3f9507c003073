import Litmus.CommandLine.Arguments
import Litmus.Text.Wrap

/-!
# The help of the command

The usage, which also precedes every message about bad arguments, and the full help. The help states
the limits that hold if no option sets them.

Both are laid out for the width of the terminal, as the environment gives it. The width is an
integer, since a narrow terminal may leave less than nothing; no paragraph gets less than
`narrowest`.
-/

namespace Litmus.CommandLine

/-- The environment variable with the largest number of threads. -/
def threadsVariable : String := "CONSCHECK_MAX_THREADS"

/-- The environment variable with the largest number of instructions in a thread. -/
def instructionsVariable : String := "CONSCHECK_MAX_INSTRUCTIONS"

/-- The environment variable with the number of columns of the terminal. -/
def columnsVariable : String := "COLUMNS"

/-! ### Widths -/

/-- The width of the help: the columns of the terminal but two. Without a positive number of columns
it is 78. -/
def helpWidth (columns : Option String) : Int :=
  match columns.bind fun text ↦ Numeral.readPadded text.toList with
  | some n => if 0 < n then n - 2 else 78
  | none => 78

/-- The least width of a paragraph. -/
def narrowest : Nat := 11

/-- The column at which explanations start. -/
def column (width : Int) : Nat := min 24 (max (width - 20) 4).toNat

/-- A number of spaces. -/
def spaces (n : Nat) : String := String.ofList (List.replicate n ' ')

/-! ### The usage -/

/-- Fills lines with parts, as many as fit, and indents all lines after the first. The line in the
making holds `line` and is `used` wide, not counting a space that would follow. -/
def fill (width : Int) (indent : Nat) : (used : Int) → (line : List String) → List String →
    List (List String)
  | _, line, [] => if line = [] then [] else [line]
  | used, line, part :: rest =>
    if width < used + 1 + part.length ∧ line ≠ [] then
      line :: fill width indent (indent + part.length) [part] rest
    else fill width indent (used + 1 + part.length) (line ++ [part]) rest

/-- An option in the usage: its first name, with its value if it takes one. -/
def Flag.usage (f : Flag) : String :=
  "[" ++ f.names.headD "" ++ (f.valueName?.map (" " ++ ·)).getD "" ++ "]"

/-- How the command is used. If it does not fit on one line, the options and the operand start lines
of their own, beside the name of the command or, if there is little room, below it. -/
def usage (width : Int) : String :=
  let options := Flag.all.map Flag.usage
  let operands := ["[program]"]
  let onOneLine := " ".intercalate (["usage:", "conscheck"] ++ options ++ operands)
  let indented (indent : Nat) (lines : List (List String)) : List String :=
    lines.map fun l ↦ spaces indent ++ " ".intercalate l
  let lines :=
    if onOneLine.length ≤ width then [onOneLine]
    else if 4 * 16 ≤ 3 * width then
      match fill width 17 6 [] ("conscheck" :: options) with
      | [] => []
      | first :: others =>
        ("usage: " ++ " ".intercalate first) ::
          indented 17 (others ++ fill width 17 16 [] operands)
    else
      let together := fill width 7 6 [] (options ++ operands)
      "usage: conscheck" :: indented 7 (
        if together.length ≤ 1 then together
        else fill width 7 6 [] options ++ fill width 7 6 [] operands)
  "\n".intercalate lines ++ "\n"

/-! ### The whole help -/

/-- What the command does. -/
def description : String :=
  "Enumerate every outcome of a load/store program under the IBM370 (store-atomic) and " ++
    "TSO (write-atomic) consistency models."

/-- What an option does. -/
def Flag.explanation (threads instructions : Int) : Flag → String
  | help => "show this help message and exit"
  | witnesses => "Print an interleaving that produces each outcome."
  | readAround =>
    "TSO: also let a load that runs ahead of its own buffered store read shared memory."
  | maxThreads =>
    "Largest accepted thread count (env " ++ threadsVariable ++ ", default " ++
      Numeral.write threads ++ ")."
  | maxInstructions =>
    "Largest accepted instructions per thread (env " ++ instructionsVariable ++ ", default " ++
      Numeral.write instructions ++ ")."
  | verbose => "Print exploration statistics to stderr."

/-- The names of an option as the help lists them. -/
def Flag.listing (f : Flag) : String :=
  ", ".intercalate (f.names.map fun n ↦ match f.valueName? with
    | some v => n ++ " " ++ v
    | none => n)

/-- An entry of the help. The explanation starts beside a short term and below a long one. -/
def entry (width : Int) (term explanation : String) : String :=
  let c := column width
  let lines := Text.wrap (max (width - c).toNat narrowest) explanation
  let body := ("\n" ++ spaces c).intercalate lines ++ "\n"
  if term.length + 4 ≤ c then "  " ++ term ++ spaces (c - 2 - term.length) ++ body
  else "  " ++ term ++ "\n" ++ spaces c ++ body

/-- The full help. -/
def help (width threads instructions : Int) : String :=
  usage width ++ "\n" ++
    "\n".intercalate (Text.wrap (max width.toNat narrowest) description) ++ "\n\n" ++
    "positional arguments:\n" ++
    entry width "program" "Program file ('-' or omitted reads stdin)." ++ "\n" ++
    "options:\n" ++
    String.join (Flag.all.map fun f ↦
      entry width f.listing (f.explanation threads instructions))

end Litmus.CommandLine
