import TypeSketch.Text.CodePoint
import TypeSketch.Text.UpperCase

/-!
# Names

## Changes of case

**Camel case** (`camelCase`). Every underscore directly followed by a letter `a` to `z` goes away,
and the letter becomes upper case. Everything else stays: `user_name` becomes `userName`, and
`HTTP_Code` is kept.

**Pascal case** (`pascalCase`). Only the letters and digits of ASCII stay. A word begins wherever
no letter stands before, and the first letter of a word becomes upper case. Upper-case letters are
kept: `first 3 rows` becomes `First3Rows`, and `HTTPCodes` stays.

**First letter** (`upperFirst`). The first character becomes upper case and the rest is kept.

## Identifiers

**Type names** (`typeName`). The letters and digits of ASCII and the underscore stay, the rest goes
away, and an underscore is put before a leading digit. Nothing may be left.

**Member names of an enum** (`memberKey`). Every other character becomes an underscore, and an
underscore is put before a leading digit or in place of nothing. So something is always left.

**Bare property keys** (`isBare`). A key is written without quotes when it begins with a letter, an
underscore or a dollar sign and goes on with these and digits. One line feed may close it.
-/

namespace TypeSketch.Text

/-! ## Changes of case -/

/-- The name with every underscore and lower-case letter after it joined to the upper-case
letter. -/
def camelCase : Text → Text
  | .char '_' :: .char c :: rest =>
    if c.isLower then .char c.toUpper :: camelCase rest else '_' :: camelCase (.char c :: rest)
  | p :: rest => p :: camelCase rest
  | [] => []

/-- Pascal case on the characters of a name. The flag says whether a letter stands just before. -/
def pascal (afterLetter : Bool) : List Char → List Char
  | [] => []
  | c :: rest =>
    if c.isLower then (if afterLetter then c else c.toUpper) :: pascal true rest
    else if c.isUpper then c :: pascal true rest
    else if c.isDigit then c :: pascal false rest
    else pascal false rest

/-- The words of a text, each with a capital, joined without anything between them. -/
def pascalCase (s : Text) : String := String.ofList (pascal false s.chars)

/-- The text with its first character in upper case. -/
def upperFirst : Text → Text
  | .char c :: rest => (UpperCase.ofChar c).map .char ++ rest
  | s => s

/-! ## Identifiers -/

/-- An ASCII letter, an ASCII digit or the underscore. -/
def isWordChar (c : Char) : Bool := c.isAlphanum || c == '_'

def startsWithDigit : List Char → Bool
  | [] => false
  | c :: _ => c.isDigit

/-- The characters, after an underscore if they begin with a digit. -/
def guardDigit (cs : List Char) : List Char := if startsWithDigit cs then '_' :: cs else cs

/-- The part of a text that a type name can hold, which may be empty. -/
def typeName (s : Text) : String := String.ofList (guardDigit (s.chars.filter isWordChar))

/-- The name of an enum member for a value. -/
def memberKey (s : Text) : String :=
  let cs := s.chars.map fun c => if isWordChar c then c else '_'
  String.ofList (if cs.isEmpty then ['_'] else guardDigit cs)

/-- A character that a bare property key may begin with. -/
def isBareStart : CodePoint → Bool
  | .char c => c.isAlpha || c == '_' || c == '$'
  | .surrogate _ => false

/-- A character that a bare property key may go on with. -/
def isBareRest (p : CodePoint) : Bool := isBareStart p || p.isDigit

/-- Whether a bare property key may go on with these characters to its end. -/
def isBareTail : Text → Bool
  | [] => true
  | [.char '\n'] => true
  | p :: rest => isBareRest p && isBareTail rest

/-- Whether a property key can be written without quotes. -/
def isBare : Text → Bool
  | [] => false
  | p :: rest => isBareStart p && isBareTail rest

end TypeSketch.Text
