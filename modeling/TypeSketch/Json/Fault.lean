import TypeSketch.Text.CodePoint

/-!
# Faults in JSON text

Why a text is no JSON document, and where. A fault is noticed at some point of the text, and the
number of code points that are left from there on tells the place. Only a line feed begins a new
line.
-/

namespace TypeSketch.Json

/-- What is wrong at a place of a text. -/
inductive Cause where
  | expectedValue
  | expectedKey
  | expectedColon
  | expectedComma
  | extraText
  | unterminatedString
  | controlCharacter
  | badEscape
  | badUnicodeEscape
  | byteOrderMark
deriving DecidableEq, Inhabited, Repr

def Cause.message : Cause → String
  | .expectedValue => "Expecting value"
  | .expectedKey => "Expecting property name enclosed in double quotes"
  | .expectedColon => "Expecting ':' delimiter"
  | .expectedComma => "Expecting ',' delimiter"
  | .extraText => "Extra data"
  | .unterminatedString => "Unterminated string starting at"
  | .controlCharacter => "Invalid control character at"
  | .badEscape => "Invalid \\escape"
  | .badUnicodeEscape => "Invalid \\uXXXX escape"
  | .byteOrderMark => "Unexpected UTF-8 BOM (decode using utf-8-sig)"

/-- The two kinds of values that hold others. -/
inductive Container where
  | array
  | object
deriving DecidableEq, Inhabited, Repr

/-- Why reading stopped. -/
inductive Fault where
  /-- The text is wrong where `left` code points are left. -/
  | malformed (cause : Cause) (left : Nat)
  /-- A container opens inside too many others. -/
  | tooDeep (container : Container)
  /-- An integer has more digits than are read. -/
  | tooManyDigits (count : Nat)
deriving DecidableEq, Inhabited, Repr

/-- A place in a text: the line and the column from one, and the offset from zero. -/
structure Position where
  line : Nat
  column : Nat
  offset : Nat
deriving DecidableEq, Inhabited, Repr

/-- The place where `left` code points of a text are left. -/
def Position.ofLeft (text : Text) (left : Nat) : Position :=
  let before := text.take (text.length - left)
  { line := before.count (.char '\n') + 1
    column := (before.reverse.takeWhile (· != .char '\n')).length + 1
    offset := before.length }

def Position.message (p : Position) : String :=
  "line " ++ toString p.line ++ " column " ++ toString p.column ++
    " (char " ++ toString p.offset ++ ")"

end TypeSketch.Json
