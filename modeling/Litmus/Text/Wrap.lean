/-!
# Filling lines

Breaks a paragraph into lines of a given width. A line ends at a space or behind a hyphen inside a
word, as late as possible. A piece that is wider than a whole line is cut where the line is full.
-/

namespace Litmus.Text

/-- Puts an element in front of the first of several lists. -/
def consFirst {α : Type} (a : α) : List (List α) → List (List α)
  | [] => [[a]]
  | l :: ls => (a :: l) :: ls

/-- Cuts a list into a first piece of at most `room` elements and further pieces of at most `width`,
all but the last of them full. -/
def cut {α : Type} (width : Nat) : Nat → List α → List (List α)
  | _, [] => [[]]
  | 0, a :: l => [] :: consFirst a (cut width (width - 1) l)
  | room + 1, a :: l => consFirst a (cut width room l)

/-- The pieces of a paragraph between which a line may end: words, the spaces between them, and the
parts of a word that end in a hyphen with two letters on either side. The arguments `b` and `a` are
the two characters before the rest of the paragraph. -/
def piecesAfter (b a : Char) : List Char → List (List Char)
  | [] => []
  | [c] => [[c]]
  | c :: d :: rest =>
    let letters := b.isAlpha && a.isAlpha && d.isAlpha && (rest.head?.any Char.isAlpha)
    if c = ' ' ∨ d = ' ' ∨ (c = '-' ∧ letters) then [c] :: piecesAfter a c (d :: rest)
    else consFirst c (piecesAfter a c (d :: rest))

/-- The pieces of a paragraph between which a line may end. -/
def pieces (paragraph : List Char) : List (List Char) := piecesAfter ' ' ' ' paragraph

/-- Lines in the making: the full ones, and the one that is being filled. -/
structure Filling where
  /-- The full lines. -/
  done : List (List Char)
  /-- The line that is being filled. -/
  line : List Char

/-- A line without the spaces at its end. -/
def trimEnd (line : List Char) : List Char := (line.reverse.dropWhile (· == ' ')).reverse

/-- Adds a piece. A space that would open a line is dropped. -/
def Filling.add (width : Nat) (f : Filling) (piece : List Char) : Filling :=
  if f.line.length + piece.length ≤ width then
    if f.line = [] ∧ piece = [' '] then f else ⟨f.done, f.line ++ piece⟩
  else if width < piece.length then
    match cut width (width - f.line.length) piece with
    | [] => f
    | first :: others =>
      let all := (f.line ++ first) :: others
      ⟨f.done ++ all.dropLast, all.getLastD []⟩
  else ⟨f.done ++ [trimEnd f.line], if piece = [' '] then [] else piece⟩

/-- The lines of a paragraph. -/
def wrap (width : Nat) (paragraph : String) : List String :=
  let f := (pieces paragraph.toList).foldl (Filling.add width) ⟨[], []⟩
  (f.done ++ if f.line = [] then [] else [trimEnd f.line]).map String.ofList

end Litmus.Text
