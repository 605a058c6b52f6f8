import TypeSketch.Distinct

/-!
# Type expressions

The type of a place in a document: an atom, an array of one type, or an array whose items have
several types. An atom is a built-in type such as `string` or the name of a declaration.

**Arrays** (`ofItems`). The type of an array comes from the types of its items. Items whose types
read the same count once. One type makes `T[]`, and several make `(A | B)[]` in the order in which
they were first seen.
-/

namespace TypeSketch

/-- The type of a place. -/
inductive TypeExpr where
  | atom (name : String)
  | array (item : TypeExpr)
  | arrayOfUnion (members : List TypeExpr)
deriving Inhabited, Repr

namespace TypeExpr

mutual

def decEq (a b : TypeExpr) : Decidable (a = b) :=
  match a, b with
  | .atom x, .atom y => decidable_of_iff (x = y) (by simp)
  | .array x, .array y =>
    match decEq x y with
    | isTrue h => isTrue (h ▸ rfl)
    | isFalse h => isFalse (by simp [h])
  | .arrayOfUnion xs, .arrayOfUnion ys =>
    match decEqList xs ys with
    | isTrue h => isTrue (h ▸ rfl)
    | isFalse h => isFalse (by simp [h])
  | .atom _, .array _ | .atom _, .arrayOfUnion _ | .array _, .atom _ | .array _, .arrayOfUnion _
  | .arrayOfUnion _, .atom _ | .arrayOfUnion _, .array _ => isFalse (by simp)

def decEqList (as bs : List TypeExpr) : Decidable (as = bs) :=
  match as, bs with
  | [], [] => isTrue rfl
  | a :: as, b :: bs =>
    match decEq a b, decEqList as bs with
    | isTrue h, isTrue h' => isTrue (h ▸ h' ▸ rfl)
    | isFalse h, _ => isFalse (by simp [h])
    | _, isFalse h => isFalse (by simp [h])
  | [], _ :: _ | _ :: _, [] => isFalse (by simp)

end

instance : DecidableEq TypeExpr := decEq

/-- The type as it stands in a declaration. -/
def text : TypeExpr → String
  | .atom name => name
  | .array item => item.text ++ "[]"
  | .arrayOfUnion members => "(" ++ " | ".intercalate (members.map text) ++ ")[]"

/-- The type of the null value when nulls are strict. -/
def null : TypeExpr := .atom "null"

def any : TypeExpr := .atom "any"

def boolean : TypeExpr := .atom "boolean"

def number : TypeExpr := .atom "number"

def string : TypeExpr := .atom "string"

/-- The atoms of the built-in types. -/
def builtins : List String := ["null", "any", "boolean", "number", "string"]

/-- The types that read differently, each where it was first seen. -/
def distinct (types : List TypeExpr) : List TypeExpr := Distinct.ofList text types

/-- The array over types that read differently. -/
def ofDistinct : List TypeExpr → TypeExpr
  | [item] => .array item
  | members => .arrayOfUnion members

/-- The type of an array whose items have the given types. -/
def ofItems (types : List TypeExpr) : TypeExpr := ofDistinct (distinct types)

end TypeExpr

end TypeSketch
