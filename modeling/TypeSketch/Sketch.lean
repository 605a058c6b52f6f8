import TypeSketch.Declaration
import TypeSketch.Path
import TypeSketch.Json.Reader

/-!
# Sketches

From a document to the text of its declarations. A decoded document always has a sketch, and it is
an empty text if the document needs no declaration. A text or bytes may fail to decode, and a
wanted name that is no text may be refused. Decoding comes first.

**Root names.** The name of the interface for the whole document. A wanted name loses what a type
name cannot hold. When nothing is left, or when no name is wanted, the standard name is taken. A
document from a file gets its name from the stem of the path.

**The sample.** A small document to try a sketch on. It has every kind of value, an object inside an
object and one inside an array, an empty array, an array of strings and an array of several types.
-/

namespace TypeSketch

/-! ## Root names -/

namespace RootName

/-- The name of a document that has no other. -/
def standard : String := "RootObject"

/-- A name, or the standard name in place of an empty one. -/
def orStandard (name : String) : String := if name.isEmpty then standard else name

/-- The root name for a wanted name. -/
def ofText (s : Text) : String := orStandard (Text.typeName s)

/-- The root name for a wanted name of any kind: a blank value asks for the standard name, a text is
taken as it is, and nothing else can be a name. -/
def ofJson? (v : Json) : Option String :=
  if v.isBlank then some standard
  else
    match v with
    | .string s => some (ofText s)
    | _ => none

/-- The wording when a value cannot be a name. -/
def refusal (v : Json) : String :=
  "expected string or bytes-like object, got '" ++ v.kindName ++ "'"

/-- The path that stands for the standard input. -/
def standardInput : Text := "-"

/-- The wanted name of a document by the path it comes from. The sample and the standard input have
no path. -/
def ofPath (path : Text) (sample : Bool) : String :=
  if sample || path == standardInput then standard
  else orStandard (Text.pascalCase (Path.stem path))

end RootName

/-! ## The sample document -/

namespace Sample

def text : String :=
  "\x7b\n" ++
  "  \"id\": 1,\n" ++
  "  \"user_name\": \"john_doe\",\n" ++
  "  \"email\": \"john@example.com\",\n" ++
  "  \"is_active\": true,\n" ++
  "  \"roles\": [\"admin\", \"user\"],\n" ++
  "  \"profile\": \x7b\n" ++
  "    \"first_name\": \"John\",\n" ++
  "    \"last_name\": \"Doe\",\n" ++
  "    \"age\": 30,\n" ++
  "    \"avatar_url\": null\n" ++
  "  \x7d,\n" ++
  "  \"addresses\": [\n" ++
  "    \x7b\n" ++
  "      \"street\": \"123 Main St\",\n" ++
  "      \"city\": \"New York\",\n" ++
  "      \"zip_code\": \"10001\"\n" ++
  "    \x7d\n" ++
  "  ],\n" ++
  "  \"tags\": [],\n" ++
  "  \"scores\": [98.5, 87, \"n/a\"],\n" ++
  "  \"metadata\": null\n" ++
  "\x7d\n"

def document (depth : Nat) : Except Json.DecodeError Json := Json.ofText depth text

end Sample

/-! ## Declarations of a document -/

/-- The declarations of a document whose root name is settled. -/
def declare (o : Options) (root : String) (value : Json) : Text :=
  (typeOf o value root {}).2.text o

/-- The declarations of a document under a wanted name. -/
def sketch (o : Options) (name : Text) (value : Json) : Text :=
  declare o (RootName.ofText name) value

/-- The declarations of a document under a wanted name of any kind. -/
def sketchNamed? (o : Options) (name : Json) (value : Json) : Option Text :=
  (RootName.ofJson? name).map fun root => declare o root value

/-- Why there is no sketch. -/
inductive SketchError where
  | unreadable (error : Json.DecodeError)
  | refusedName (name : Json)
deriving Inhabited

/-- The wording of an error. A number with too many digits is reported as it is. -/
def SketchError.message : SketchError → String
  | .unreadable (.tooManyDigits count) => (Json.DecodeError.tooManyDigits count).message
  | .unreadable error => "Invalid JSON: " ++ error.message
  | .refusedName _ => "Failed to generate types from JSON"

/-- The declarations of what was decoded, under a wanted name of any kind. -/
def sketchDecoded (o : Options) (name : Json) :
    Except Json.DecodeError Json → Except SketchError Text
  | .error error => .error (.unreadable error)
  | .ok value =>
    match sketchNamed? o name value with
    | some text => .ok text
    | none => .error (.refusedName name)

/-- The declarations of a text, read with room for `depth` containers inside each other. -/
def sketchText (depth : Nat) (o : Options) (name : Json) (text : Text) : Except SketchError Text :=
  sketchDecoded o name (Json.ofText depth text)

def sketchBytes (depth : Nat) (o : Options) (name : Json) (bytes : List UInt8) :
    Except SketchError Text :=
  sketchDecoded o name (Json.ofBytes depth bytes)

end TypeSketch
