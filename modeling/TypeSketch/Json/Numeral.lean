import TypeSketch.Json
import TypeSketch.Json.Fault

/-!
# Numbers in JSON text

A number is an optional minus sign and an integer part without leading zeros, then possibly a
fraction and an exponent. What could begin a fraction or an exponent but does not go on as one is
left behind. A number with neither is an integer, and an integer has at most `maxDigits` digits.

**Theorem** (`length_of_readNumeral?`). What is left behind a number is shorter than what was left
before it.
-/

namespace TypeSketch.Json

/-- A number as it is written. The digits of the integer part are never empty. -/
structure Numeral where
  negative : Bool
  digits : Text
  /-- The digits behind the point, none if there is no point. -/
  places : Text
  exponent : Option Int
deriving DecidableEq, Inhabited, Repr

/-- The most digits that an integer may have. -/
def maxDigits : Nat := 4300

def digitsValue (digits : Text) : Nat :=
  digits.foldl (fun n p => n * 10 + (p.toNat - '0'.toNat)) 0

def signed (negative : Bool) (n : Nat) : Int := if negative then -n else n

def Numeral.value (n : Numeral) : Except Fault Number :=
  if n.places.isEmpty && n.exponent.isNone then
    if n.digits.length ≤ maxDigits then .ok (.integer (signed n.negative (digitsValue n.digits)))
    else .error (.tooManyDigits n.digits.length)
  else
    .ok (.decimal n.negative (digitsValue (n.digits ++ n.places))
      (n.exponent.getD 0 - n.places.length))

/-! ## Reading the parts -/

/-- The digits that a text begins with, and what is left. -/
def splitDigits (s : Text) : Text × Text :=
  (s.takeWhile CodePoint.isDigit, s.dropWhile CodePoint.isDigit)

/-- The digits of an integer part, none if there is no such part, and what is left. -/
def readInteger (s : Text) : Text × Text :=
  match s with
  | .char '0' :: rest => ([.char '0'], rest)
  | s => splitDigits s

/-- The digits of a fraction, none if there is no fraction, and what is left. -/
def readFraction (s : Text) : Text × Text :=
  match s with
  | .char '.' :: rest => if (splitDigits rest).1.isEmpty then ([], s) else splitDigits rest
  | s => ([], s)

/-- A sign, if there is one, and what is left. -/
def readSign (s : Text) : Bool × Text :=
  match s with
  | .char '-' :: rest => (true, rest)
  | .char '+' :: rest => (false, rest)
  | s => (false, s)

/-- An exponent, if there is one, and what is left. -/
def readExponent (s : Text) : Option Int × Text :=
  match s with
  | [] => (none, s)
  | p :: rest =>
    let digits := splitDigits (readSign rest).2
    if (p == 'e' || p == 'E') && !digits.1.isEmpty then
      (some (signed (readSign rest).1 (digitsValue digits.1)), digits.2)
    else (none, s)

/-- The numeral that a text begins with, and what is left. -/
def readNumeral? (s : Text) : Option (Numeral × Text) :=
  let negative := s.head? == some (.char '-')
  let integer := readInteger (if negative then s.drop 1 else s)
  let fraction := readFraction integer.2
  let exponent := readExponent fraction.2
  if integer.1.isEmpty then none
  else some (⟨negative, integer.1, fraction.1, exponent.1⟩, exponent.2)

/-! ## What is left gets shorter -/

theorem length_splitDigits (s : Text) :
    (splitDigits s).1.length + (splitDigits s).2.length = s.length := by
  rw [← List.length_append]
  exact congrArg List.length List.takeWhile_append_dropWhile

theorem length_readInteger (s : Text) :
    (readInteger s).1.length + (readInteger s).2.length = s.length := by
  unfold readInteger
  split
  · simp [Nat.add_comm]
  · exact length_splitDigits s

theorem length_readFraction (s : Text) : (readFraction s).2.length ≤ s.length := by
  unfold readFraction
  split
  · next rest =>
    split
    · exact Nat.le_refl _
    · have := length_splitDigits rest
      simp only [List.length_cons]
      omega
  · exact Nat.le_refl _

theorem length_readSign (s : Text) : (readSign s).2.length ≤ s.length := by
  unfold readSign
  split <;> simp

theorem length_readExponent (s : Text) : (readExponent s).2.length ≤ s.length := by
  unfold readExponent
  split
  · exact Nat.le_refl _
  · next rest =>
    have := length_readSign rest
    have := length_splitDigits (readSign rest).2
    dsimp only
    split
    · simp only [List.length_cons]
      omega
    · exact Nat.le_refl _

theorem length_of_readNumeral? {s rest : Text} {n : Numeral}
    (h : readNumeral? s = some (n, rest)) : rest.length < s.length := by
  simp only [readNumeral?, Option.ite_none_left_eq_some, Option.some.injEq, Prod.mk.injEq,
    List.isEmpty_iff] at h
  obtain ⟨hne, -, rfl⟩ := h
  generalize hs : (if s.head? == some (.char '-') then s.drop 1 else s) = body at *
  have hbody : body.length ≤ s.length := by
    rw [← hs]
    split
    · simp
    · exact Nat.le_refl _
  have := List.length_pos_iff.2 hne
  have := length_readInteger body
  have := length_readFraction (readInteger body).2
  have := length_readExponent (readFraction (readInteger body).2).2
  omega

end TypeSketch.Json
