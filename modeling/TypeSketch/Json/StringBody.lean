import TypeSketch.Json.Fault
import TypeSketch.Text.CodePoint

/-!
# Strings in JSON text

Reading a string from behind its opening quote to its closing quote. An escape of four hexadecimal
digits may give a surrogate. A high and a low one that are escaped directly behind each other make
one character, and every other surrogate stays as it is.

**Theorem** (`length_of_readString`). What is left behind a string is shorter than what was left
before it.
-/

namespace TypeSketch.Json

def hexValue? (p : CodePoint) : Option Nat :=
  match p with
  | .char c =>
    if c.isDigit then some (c.toNat - '0'.toNat)
    else if 'a' ≤ c && c ≤ 'f' then some (c.toNat - 'a'.toNat + 10)
    else if 'A' ≤ c && c ≤ 'F' then some (c.toNat - 'A'.toNat + 10)
    else none
  | .surrogate _ => none

def hexValue4? (a b c d : CodePoint) : Option Nat := do
  let a ← hexValue? a
  let b ← hexValue? b
  let c ← hexValue? c
  let d ← hexValue? d
  pure (((a * 16 + b) * 16 + c) * 16 + d)

/-- The character of an escape of one letter. -/
def letterEscape? : CodePoint → Option Char
  | .char '"' => some '"'
  | .char '\\' => some '\\'
  | .char '/' => some '/'
  | .char 'b' => some '\x08'
  | .char 'f' => some '\x0c'
  | .char 'n' => some '\n'
  | .char 'r' => some '\r'
  | .char 't' => some '\t'
  | _ => none

/-- The code points read so far, from the last to the first, with that of an escape of hexadecimal
digits. The flag says whether such an escape stands directly before it. -/
def pushEscape (afterEscape : Bool) (read : Text) (p : CodePoint) : Text :=
  match afterEscape, read, p with
  | true, .surrogate high :: earlier, .surrogate low =>
    match high.join? low with
    | some c => .char c :: earlier
    | none => .surrogate low :: read
  | _, _, p => p :: read

/-- Reads the rest of a string. The code points read so far stand from the last to the first, and a
string that does not end is at fault where only `start` is left. Behind four hexadecimal digits at
least one more code point has to follow. -/
def readRest (start : Text) (afterEscape : Bool) (read : Text) : Text → Except Fault (Text × Text)
  | [] => .error (.malformed .unterminatedString start.length)
  | .char '"' :: rest => .ok (read.reverse, rest)
  | .char '\\' :: rest =>
    match rest with
    | [] => .error (.malformed .unterminatedString start.length)
    | .char 'u' :: a :: b :: c :: d :: e :: more =>
      match hexValue4? a b c d with
      | some code => readRest start true (pushEscape afterEscape read (.ofNat code)) (e :: more)
      | none => .error (.malformed .badUnicodeEscape rest.length)
    | .char 'u' :: _ => .error (.malformed .badUnicodeEscape rest.length)
    | p :: more =>
      match letterEscape? p with
      | some c => readRest start false (.char c :: read) more
      | none => .error (.malformed .badEscape (rest.length + 1))
  | p :: rest =>
    if p.toNat < 0x20 then .error (.malformed .controlCharacter (rest.length + 1))
    else readRest start false (p :: read) rest

/-- Reads a string from behind its opening quote. -/
def readString (s : Text) : Except Fault (Text × Text) := readRest (.char '"' :: s) false [] s

theorem length_of_readRest {start read s text rest : Text} {afterEscape : Bool}
    (h : readRest start afterEscape read s = .ok (text, rest)) : rest.length < s.length := by
  fun_induction readRest start afterEscape read s <;> simp_all <;> omega

theorem length_of_readString {s text rest : Text} (h : readString s = .ok (text, rest)) :
    rest.length < s.length :=
  length_of_readRest h

end TypeSketch.Json
