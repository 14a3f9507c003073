import Litmus.Text.Printable

/-!
# Quoted texts

How a message shows a text that came from outside: between quotes, on one line, with everything
that would not be visible written as an escape.

The quotes are single, unless the text has a single quote and no double one; then they are double.
-/

namespace Litmus.Text

/-- The quote that encloses a text unless the text itself calls for the other. -/
def singleQuote : Char := Char.ofNat 0x27

/-- The quote around a text that has single quotes only. -/
def doubleQuote : Char := Char.ofNat 0x22

/-- The quote that encloses a text. -/
def quoteFor (cs : List Char) : Char :=
  if cs.contains singleQuote && !cs.contains doubleQuote then doubleQuote else singleQuote

/-- A number in lower-case hexadecimal, filled up with zeros to at least `width` digits. -/
def hex (width n : Nat) : List Char :=
  let ds := Nat.toDigits 16 n
  List.replicate (width - ds.length) '0' ++ ds

/-- One character of a text between the given quotes. The quote and the backslash are marked by a
backslash, what is not printable becomes an escape, and the rest stands for itself. -/
def escape (quote c : Char) : List Char :=
  if c = quote ∨ c = '\\' then ['\\', c]
  else if c = '\n' then ['\\', 'n']
  else if c = '\r' then ['\\', 'r']
  else if c = '\t' then ['\\', 't']
  else if isPrintable c then [c]
  else if c.toNat < 0x100 then '\\' :: 'x' :: hex 2 c.toNat
  else if c.toNat < 0x10000 then '\\' :: 'u' :: hex 4 c.toNat
  else '\\' :: 'U' :: hex 8 c.toNat

/-- A text as a message shows it. -/
def quoted (s : String) : String :=
  let q := quoteFor s.toList
  String.ofList (q :: s.toList.flatMap (escape q) ++ [q])

end Litmus.Text
