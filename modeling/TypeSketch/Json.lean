import TypeSketch.Text.CodePoint

/-!
# JSON values

A decoded document. Numbers keep the value they were written with, so a zero can be told from any
other number, and a negative zero from a positive one. Strings and names are texts, which may hold
surrogates. The members of an object stand in order. A value built by hand may hold coinciding
member names, or something that is no JSON value at all (`other`); a decoded text holds neither.
-/

namespace TypeSketch

/-- A number: an integer, a decimal fraction `± mantissa · 10 ^ exponent`, or one of the three
values that are no real numbers. -/
inductive Number where
  | integer (value : Int)
  | decimal (negative : Bool) (mantissa : Nat) (exponent : Int)
  | notANumber
  | infinite (negative : Bool)
deriving DecidableEq, Inhabited, Repr

/-- A JSON value, or something that is none. -/
inductive Json where
  | null
  | bool (value : Bool)
  | number (value : Number)
  | string (text : Text)
  | array (items : List Json)
  | object (members : List (Text × Json))
  | other
deriving Inhabited

namespace Number

/-- Whether the nearest double-precision number is zero. The least positive one is `2 ^ -1074`, and
half of it still goes to zero. -/
def isZero : Number → Bool
  | .integer n => n == 0
  | .decimal _ m e =>
    let digits : Int := (toString m).length
    if m == 0 then true
    else if digits + e < -323 then true
    else if -323 < digits + e then false
    else m * Nat.pow 2 1075 ≤ Nat.pow 10 (-e).toNat
  | .notANumber => false
  | .infinite _ => false

def isOne : Number → Bool
  | .integer n => n == 1
  | .decimal negative m e =>
    !negative && e ≤ 0 && (toString m).length == (-e).toNat + 1 && m == Nat.pow 10 (-e).toNat
  | .notANumber => false
  | .infinite _ => false

end Number

namespace Json

/-- The word by which messages call the kind of a value. -/
def kindName : Json → String
  | .null => "NoneType"
  | .bool _ => "bool"
  | .number (.integer _) => "int"
  | .number _ => "float"
  | .string _ => "str"
  | .array _ => "list"
  | .object _ => "dict"
  | .other => "object"

/-- Whether a value counts as absent: null, false, zero, or anything empty. -/
def isBlank : Json → Bool
  | .null => true
  | .bool b => !b
  | .number n => n.isZero
  | .string s => s.isEmpty
  | .array items => items.isEmpty
  | .object members => members.isEmpty
  | .other => false

def isString : Json → Bool
  | .string _ => true
  | _ => false

mutual

/-- The number of values in a document, the document itself included. -/
def size : Json → Nat
  | .array items => 1 + sizeItems items
  | .object members => 1 + sizeMembers members
  | _ => 1

def sizeItems : List Json → Nat
  | [] => 0
  | item :: rest => item.size + sizeItems rest

def sizeMembers : List (Text × Json) → Nat
  | [] => 0
  | (_, value) :: rest => value.size + sizeMembers rest

end

theorem size_pos (v : Json) : 0 < v.size := by
  cases v <;> simp only [size] <;> omega

theorem size_le_of_mem {item : Json} {items : List Json} (h : item ∈ items) :
    item.size ≤ sizeItems items := by
  induction items with
  | nil => cases h
  | cons first rest ih =>
    rw [sizeItems]
    rcases List.mem_cons.1 h with rfl | h
    · omega
    · have := ih h
      omega

end Json

end TypeSketch
