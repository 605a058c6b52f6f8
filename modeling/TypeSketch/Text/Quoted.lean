import TypeSketch.Text.CodePoint
import TypeSketch.Text.Printable

/-!
# Quoted text

A text between quotes, in two forms.

**Literals** (`quote`). The form that JSON and TypeScript share stands between double quotes. The
double quote, the backslash and the control characters below U+0020 are escaped, with a letter where
there is one and with four hexadecimal digits otherwise. Everything else stands for itself.

**Messages** (`shown`). A text that a message shows stands between single quotes, or between double
quotes if it holds a single quote and no double one. Backslashes, the quote around it, surrogates
and characters that are not printable are escaped.
-/

namespace TypeSketch.Text

/-! ## Literals -/

/-- A character as it stands inside quotes. -/
def escapeChar (c : Char) : List Char :=
  match c with
  | '"' => ['\\', '"']
  | '\\' => ['\\', '\\']
  | '\n' => ['\\', 'n']
  | '\r' => ['\\', 'r']
  | '\t' => ['\\', 't']
  | '\x08' => ['\\', 'b']
  | '\x0c' => ['\\', 'f']
  | c =>
    if c.toNat < 0x20 then
      ['\\', 'u', '0', '0', (c.toNat / 16).digitChar, (c.toNat % 16).digitChar]
    else [c]

/-- A code point as it stands inside quotes. -/
def escape : CodePoint → Text
  | .char c => (escapeChar c).map .char
  | .surrogate s => [.surrogate s]

def quote (s : Text) : Text := '"' :: (s.flatMap escape ++ [.char '"'])

/-! ## Messages -/

/-- The last `width` hexadecimal digits of a number. -/
def hexDigits (n : Nat) : Nat → List Char
  | 0 => []
  | width + 1 => hexDigits (n / 16) width ++ [(n % 16).digitChar]

/-- A surrogate as it is written where it cannot stand itself. -/
def spelledSurrogate (s : Surrogate) : List Char := '\\' :: 'u' :: hexDigits s.code 4

/-- A character as it is shown between the given quotes. -/
def shownChar (mark c : Char) : List Char :=
  if c == mark || c == '\\' then ['\\', c]
  else if c == '\n' then ['\\', 'n']
  else if c == '\r' then ['\\', 'r']
  else if c == '\t' then ['\\', 't']
  else if isPrintable c then [c]
  else if c.toNat < 0x100 then '\\' :: 'x' :: hexDigits c.toNat 2
  else if c.toNat < 0x10000 then '\\' :: 'u' :: hexDigits c.toNat 4
  else '\\' :: 'U' :: hexDigits c.toNat 8

/-- A code point as it is shown between the given quotes. -/
def shownPoint (mark : Char) : CodePoint → List Char
  | .char c => shownChar mark c
  | .surrogate s => spelledSurrogate s

/-- A text as messages show it. -/
def shown (s : Text) : String :=
  let mark := if s.contains '\'' && !s.contains '"' then '"' else '\''
  String.ofList (mark :: (s.flatMap (shownPoint mark) ++ [mark]))

/-- A code point as it is written without quotes. -/
def spelledPoint : CodePoint → List Char
  | .char c => [c]
  | .surrogate s => spelledSurrogate s

/-- A text as messages give it without quotes: only surrogates are escaped. -/
def spelled (s : Text) : String := String.ofList (s.flatMap spelledPoint)

end TypeSketch.Text
