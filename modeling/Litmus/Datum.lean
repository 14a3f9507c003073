import Litmus.Decimal.Shortest
import Litmus.Numeral
import Litmus.Text.Quoted

/-!
# Loosely typed values

A value of a general data format, as it is offered where an instruction, the value of a store or one
of a few words is expected. Most of these are refused, and the refusal shows the value:
`Datum.render` is its text.
-/

namespace Litmus

/-- A value of a general data format. -/
inductive Datum where
  /-- The absent value. -/
  | null
  /-- A truth value. -/
  | bool (b : Bool)
  /-- An integer. -/
  | int (v : Int)
  /-- A floating-point number. -/
  | float (x : Float)
  /-- A text. -/
  | text (s : String)
  /-- A list of values. -/
  | list (items : List Datum)
  /-- Named values, in the order in which they were given. -/
  | record (fields : List (String × Datum))

/-- The kinds of values. -/
inductive Datum.Kind where
  /-- The kind of the absent value. -/
  | null
  /-- The kind of truth values. -/
  | bool
  /-- The kind of integers. -/
  | int
  /-- The kind of floating-point numbers. -/
  | float
  /-- The kind of texts. -/
  | text
  /-- The kind of lists. -/
  | list
  /-- The kind of records. -/
  | record
  deriving DecidableEq

/-- What a kind is called in messages. -/
def Datum.Kind.title : Datum.Kind → String
  | null => "NoneType"
  | bool => "bool"
  | int => "int"
  | float => "float"
  | text => "str"
  | list => "list"
  | record => "dict"

namespace Datum

/-! ### Taking values apart -/

/-- The kind of a value. -/
def kind : Datum → Kind
  | null => .null
  | bool _ => .bool
  | int _ => .int
  | float _ => .float
  | text _ => .text
  | list _ => .list
  | record _ => .record

/-- The text that a value is, if it is one. -/
def text? : Datum → Option String
  | text s => some s
  | _ => none

/-- Whether a value counts as true. Nothing, zero, and what is empty do not. -/
def isTrue : Datum → Bool
  | null => false
  | bool b => b
  | int v => v != 0
  | float x => x.toBits.toNat % Nat.pow 2 63 != 0
  | text s => s != ""
  | list items => !items.isEmpty
  | record fields => !fields.isEmpty

/-- Whether a value may serve as a key. Lists and records may not. -/
def isKey : Datum → Bool
  | list _ | record _ => false
  | _ => true

/-- The members of a value, if it has any: the items of a list, the characters of a text, the names
in a record. -/
def members? : Datum → Option (List Datum)
  | list items => some items
  | text s => some (s.toList.map fun c ↦ text (String.singleton c))
  | record fields => some (fields.map fun f ↦ text f.1)
  | _ => none

/-! ### Floating-point numbers -/

/-- The digits of a number with the decimal point after the first `point` of them. It is written
positionally for `-4 < point ≤ 16` and with an exponent of at least two digits elsewhere; a whole
number keeps the digit zero behind its point. -/
def placePoint (ds : List Char) (point : Int) : List Char :=
  if 16 < point ∨ point ≤ -4 then
    let e := point - 1
    let es := Nat.toDigits 10 e.natAbs
    let mantissa := match ds with
      | [] => []
      | [d] => [d]
      | d :: rest => d :: '.' :: rest
    mantissa ++ 'e' :: (if e < 0 then '-' else '+') ::
      (List.replicate (2 - es.length) '0' ++ es)
  else if point ≤ 0 then '0' :: '.' :: (List.replicate (-point).toNat '0' ++ ds)
  else
    let n := point.toNat
    let whole := ds.take n ++ List.replicate (n - ds.length) '0'
    whole ++ '.' :: (if (ds.drop n).isEmpty then ['0'] else ds.drop n)

/-- The shortest text that reads back as the double-precision number with the given bits. -/
def renderBits (bits : Nat) : String :=
  let negative := bits / Nat.pow 2 63 == 1
  let exponent : Nat := bits / Nat.pow 2 52 % Nat.pow 2 11
  let fraction : Nat := bits % Nat.pow 2 52
  let sign := if negative then "-" else ""
  if exponent = 2047 then if fraction = 0 then sign ++ "inf" else "nan"
  else if exponent = 0 ∧ fraction = 0 then sign ++ "0.0"
  else
    let m := if exponent = 0 then fraction else Nat.pow 2 52 + fraction
    let q : Int := (max 1 exponent : Nat) - 1075
    let (c, e) := (Decimal.Interval.ofBinary m q (fraction == 0 && 1 < exponent)).shortest
    let ds := Nat.toDigits 10 c
    let kept := (ds.reverse.dropWhile (· == '0')).reverse
    sign ++ String.ofList (placePoint kept (ds.length + e))

/-! ### All values -/

mutual

/-- The text of a value in a message. -/
def render : Datum → String
  | null => "None"
  | bool b => if b then "True" else "False"
  | int v => Numeral.write v
  | float x => renderBits x.toBits.toNat
  | text s => Text.quoted s
  | list items => "[" ++ ", ".intercalate (renderItems items) ++ "]"
  | record fields => "\x7b" ++ ", ".intercalate (renderFields fields) ++ "\x7d"

/-- The texts of the items of a list. -/
def renderItems : List Datum → List String
  | [] => []
  | d :: ds => render d :: renderItems ds

/-- The texts of the fields of a record. -/
def renderFields : List (String × Datum) → List String
  | [] => []
  | (k, d) :: fs => (Text.quoted k ++ ": " ++ render d) :: renderFields fs

end

/-- The text of a value that stands alone: a text as it is, all else as in a message. -/
def plain : Datum → String
  | text s => s
  | d => d.render

end Datum

end Litmus
