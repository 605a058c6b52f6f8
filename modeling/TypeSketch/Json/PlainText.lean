import TypeSketch.Json
import TypeSketch.Text.Quoted

/-!
# Values as plain text

A value as it is shown outside a document. A text stands for itself, and inside a list or an object
it is quoted.

**Decimal fractions** (`Number.decimalText`). The point is written where it stands if it falls among
the first sixteen digits or behind at most three zeros before them. Else the point stands behind the
first digit, with an exponent of at least two digits.
-/

namespace TypeSketch

namespace Number

/-- A number without the zeros at its end, and how many they were. -/
def dropZeros (n : Nat) : Nat × Nat :=
  if _h : 0 < n ∧ n % 10 = 0 then ((dropZeros (n / 10)).1, (dropZeros (n / 10)).2 + 1)
  else (n, 0)
termination_by n

/-- Digits with a point behind the first `place` of them. -/
def pointed (digits : List Char) (place : Int) : List Char :=
  if place ≤ 0 then '0' :: '.' :: (List.replicate (-place).toNat '0' ++ digits)
  else
    let whole := digits.take place.toNat ++ List.replicate (place.toNat - digits.length) '0'
    let behind := digits.drop place.toNat
    whole ++ '.' :: (if behind.isEmpty then ['0'] else behind)

/-- Digits with a point behind the first of them, and an exponent. -/
def scientific (digits : List Char) (exponent : Int) : List Char :=
  let behind := digits.drop 1
  let size := (toString exponent.natAbs).toList
  digits.take 1 ++ (if behind.isEmpty then [] else '.' :: behind) ++
    'e' :: (if exponent < 0 then '-' else '+') :: (if size.length < 2 then '0' :: size else size)

/-- A decimal fraction as text. -/
def decimalText (negative : Bool) (mantissa : Nat) (exponent : Int) : String :=
  let (significant, zeros) := dropZeros mantissa
  let digits := (toString significant).toList
  let place := if significant = 0 then 1 else digits.length + zeros + exponent
  let body :=
    if -4 < place ∧ place ≤ 16 then pointed digits place else scientific digits (place - 1)
  String.ofList (if negative then '-' :: body else body)

/-- A number as text. -/
def text : Number → String
  | .integer n => toString n
  | .decimal negative m e => decimalText negative m e
  | .notANumber => "nan"
  | .infinite negative => if negative then "-inf" else "inf"

end Number

namespace Json

mutual

/-- A value as it stands inside a list or an object. -/
def innerText : Json → String
  | .null => "None"
  | .bool b => if b then "True" else "False"
  | .number n => n.text
  | .string s => Text.shown s
  | .array items => "[" ++ ", ".intercalate (itemTexts items) ++ "]"
  | .object members => "\x7b" ++ ", ".intercalate (memberTexts members) ++ "\x7d"
  | .other => "object"

/-- The items of a list as text. -/
def itemTexts : List Json → List String
  | [] => []
  | item :: rest => innerText item :: itemTexts rest

/-- The members of an object as text. -/
def memberTexts : List (Text × Json) → List String
  | [] => []
  | (key, value) :: rest => (Text.shown key ++ ": " ++ innerText value) :: memberTexts rest

end

/-- A value as text. -/
def plainText : Json → Text
  | .string s => s
  | v => innerText v

end Json

end TypeSketch
