import Litmus.Text.Blank
import Litmus.Text.Digit

/-!
# Numerals

The decimal texts of integers. Writing is plain: a minus sign if need be, then ASCII digits without
leading zeros. Reading takes the digits of every script, in two forms:

* `Numeral.read` takes an optional sign and digits, the form of a stored value in a program text;
* `Numeral.readPadded` also allows blanks around the numeral and single underscores between its
  digits, the form of a setting that a person types.

No numeral may have more than `Numeral.limit` digits. Leading zeros count, signs do not.
-/

namespace Litmus.Numeral

/-- The largest number of digits that a numeral may have. -/
def limit : Nat := 4300

/-! ### Writing -/

/-- The decimal text of an integer. -/
def write : Int → String
  | .ofNat n => Nat.repr n
  | .negSucc n => "-" ++ Nat.repr (n + 1)

/-- The number of digits of an integer's decimal text, without the sign. -/
def digitCount (v : Int) : Nat := (Nat.toDigits 10 v.natAbs).length

/-- Whether the decimal text of an integer stays within the limit. -/
def fits (v : Int) : Bool := digitCount v ≤ limit

/-! ### Reading -/

/-- What comes of reading a numeral. -/
inductive Reading where
  /-- The text has not the form of a numeral. -/
  | malformed
  /-- The text is a numeral with too many digits. -/
  | tooLong (digits : Nat)
  /-- The text is the numeral of `v`. -/
  | value (v : Int)
  deriving DecidableEq

/-- The number with the given decimal digits, the most significant first. -/
def ofDigits (ds : List Nat) : Nat := ds.foldl (fun n d ↦ 10 * n + d) 0

/-- Splits an optional sign off. The flag says that the sign is a minus. -/
def splitSign : List Char → Bool × List Char
  | [] => (false, [])
  | c :: cs => if c = '-' then (true, cs) else if c = '+' then (false, cs) else (false, c :: cs)

/-- The integer with the given sign and digits, unless the digits are too many. -/
def ofSigned (negative : Bool) (ds : List Nat) : Reading :=
  if ds.length ≤ limit then .value (if negative then -(ofDigits ds : Int) else ofDigits ds)
  else .tooLong ds.length

/-- Reads an optional sign followed by one or more digits. -/
def read (cs : List Char) : Reading :=
  match (splitSign cs).2.mapM Text.digitValue? with
  | some (d :: ds) => ofSigned (splitSign cs).1 (d :: ds)
  | _ => .malformed

/-- The blanks that may stand around a padded numeral: all but the separators U+001C to U+001F. -/
def isPadding (c : Char) : Bool := Text.isBlank c && !(0x1C ≤ c.toNat && c.toNat ≤ 0x1F)

/-- The values of one or more digits that may be divided by single underscores. -/
def groupedDigits? (cs : List Char) : Option (List Nat) :=
  let groups := Text.segments (· == '_') cs
  if groups.any (·.isEmpty) then none else groups.flatten.mapM Text.digitValue?

/-- Reads a numeral that may be padded with blanks and grouped by underscores. -/
def readPadded (cs : List Char) : Option Int :=
  let (negative, body) := splitSign (Text.trimBy isPadding cs)
  match groupedDigits? body with
  | none => none
  | some ds =>
    match ofSigned negative ds with
    | .value v => some v
    | _ => none

end Litmus.Numeral
