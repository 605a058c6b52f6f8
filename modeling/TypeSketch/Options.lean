import TypeSketch.Json
import TypeSketch.Text.Name

/-!
# Options

Four switches steer a sketch. They can be read from a JSON object in which each switch goes by
either of two names. The members are taken in order, so of several members for one switch the last
one stands.

**Reserved names** (`Options.reserved`). Names that belong to the options record itself. Like the
switches they take nothing but a truth value, but nothing is set by them, and some do not take even
that. All other names are ignored.

**Listing** (`Options.toMembers`). Options can be listed as members of a document again. A reserved
name asks for this, so a document that gives this name a truth value cannot be listed.
-/

namespace TypeSketch

/-- What a sketch does beyond the plain case. -/
structure Options where
  /-- Arrays of nothing but strings become enums. -/
  detectEnums : Bool := false
  /-- Property names go to camel case. -/
  camelCase : Bool := false
  /-- Every property is optional. -/
  markOptional : Bool := false
  /-- Null has a type of its own. -/
  strictNulls : Bool := true
deriving DecidableEq, Inhabited, Repr

/-- One of the four options. -/
inductive Switch where
  | detectEnums
  | camelCase
  | markOptional
  | strictNulls
deriving DecidableEq, Inhabited, Repr

namespace Switch

/-- All four, in the order in which they are listed. -/
def all : List Switch := [.detectEnums, .camelCase, .markOptional, .strictNulls]

/-- The name in a file, with underscores. -/
def name : Switch → String
  | .detectEnums => "detect_enums"
  | .camelCase => "camel_case"
  | .markOptional => "mark_optional"
  | .strictNulls => "strict_null_checks"

/-- The other name in a file, in camel case. -/
def camelName : Switch → String
  | .detectEnums => "detectEnums"
  | .camelCase => "camelCase"
  | .markOptional => "markOptional"
  | .strictNulls => "strictNullChecks"

/-- The switch that goes by a name. -/
def named? (s : Text) : Option Switch := all.find? fun w => s == w.name || s == w.camelName

end Switch

/-- Why a document gives no options. -/
inductive OptionsError where
  | notAnObject (value : Json)
  | notBoolean (name : String) (value : Json)
  | notAClass (name : String) (value : Json)
  | notADictionary (name : String) (value : Json)
  | readOnly (name : String)
deriving Inhabited

def OptionsError.message : OptionsError → String
  | .notAnObject v => "'" ++ v.kindName ++ "' object has no attribute 'items'"
  | .notBoolean name v => "Expected " ++ name ++ " to be a boolean, got " ++ v.kindName
  | .notAClass name v => name ++ " must be set to a class, not '" ++ v.kindName ++ "' object"
  | .notADictionary name v => name ++ " must be set to a dictionary, not a '" ++ v.kindName ++ "'"
  | .readOnly name => "attribute '" ++ name ++ "' of 'ConverterConfig' objects is not writable"

namespace Options

def get (o : Options) : Switch → Bool
  | .detectEnums => o.detectEnums
  | .camelCase => o.camelCase
  | .markOptional => o.markOptional
  | .strictNulls => o.strictNulls

def set (o : Options) (w : Switch) (b : Bool) : Options :=
  match w with
  | .detectEnums => { o with detectEnums := b }
  | .camelCase => { o with camelCase := b }
  | .markOptional => { o with markOptional := b }
  | .strictNulls => { o with strictNulls := b }

@[simp] theorem get_set (o : Options) (w w' : Switch) (b : Bool) :
    (o.set w b).get w' = if w' = w then b else o.get w' := by
  cases w <;> cases w' <;> rfl

/-- The reserved name that asks for the listing. -/
def listingName : String := "to_dict"

/-- Names that take only truth values although they are no switches. -/
def reserved : List String :=
  [listingName, "from_dict", "__annotations__", "__class__", "__dataclass_fields__",
    "__dataclass_params__", "__delattr__", "__dict__", "__dir__", "__doc__", "__eq__", "__format__",
    "__ge__", "__getattribute__", "__getstate__", "__gt__", "__hash__", "__init__",
    "__init_subclass__", "__le__", "__lt__", "__match_args__", "__module__", "__ne__", "__new__",
    "__reduce__", "__reduce_ex__", "__repr__", "__setattr__", "__sizeof__", "__str__",
    "__subclasshook__", "__weakref__"]

/-- Why a reserved name does not take a truth value, if it does not. -/
def refusal? (name : String) (value : Json) : Option OptionsError :=
  if name = "__class__" then some (.notAClass name value)
  else if name = "__dict__" then some (.notADictionary name value)
  else if name = "__weakref__" then some (.readOnly name)
  else none

/-- The options after one member of a document. -/
def assign (o : Options) (member : Text × Json) : Except OptionsError Options :=
  match Switch.named? member.1, member.2 with
  | some w, .bool b => .ok (o.set w b)
  | some w, v => .error (.notBoolean w.name v)
  | none, v =>
    match reserved.find? (fun name => member.1 == Text.ofString name), v with
    | some name, .bool _ =>
      match refusal? name v with
      | some e => .error e
      | none => .ok o
    | some name, _ => .error (.notBoolean name v)
    | none, _ => .ok o

/-- The options after all members of a document, from the first to the last. -/
def assignAll (o : Options) : List (Text × Json) → Except OptionsError Options
  | [] => .ok o
  | member :: rest =>
    match o.assign member with
    | .ok o' => assignAll o' rest
    | .error e => .error e

def ofJson : Json → Except OptionsError Options
  | .object members => assignAll {} members
  | v => .error (.notAnObject v)

/-- Options as members of a document, under the names with underscores. -/
def toMembers (o : Options) : List (Text × Json) :=
  Switch.all.map fun w => (Text.ofString w.name, .bool (o.get w))

/-- The options that a document gives, listed again. A truth value for the name that asks for the
listing stands in its way, and then there is none. -/
def relisted (document : List (Text × Json)) :
    Except OptionsError (Option (List (Text × Json))) :=
  (assignAll {} document).map fun o =>
    if document.any fun member => member.1 == Text.ofString listingName then none
    else some o.toMembers

/-- The key of a property as it is written, before quotes and numbers. -/
def writtenName (o : Options) (key : Text) : Text :=
  if o.camelCase then Text.camelCase key else key

end Options

end TypeSketch
