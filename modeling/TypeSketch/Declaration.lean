import TypeSketch.Walk
import TypeSketch.Text.Quoted

/-!
# Declarations

A catalog as TypeScript text: the enums first, if enums are wanted, and then the interfaces, each
kind in the order of the catalog. A blank line stands between two declarations.

**Keys.** Camel case can give two keys of one interface the same name, and two values of one enum
can have the same member name. The later one is then told apart by a number. A property key that is
no bare name is quoted afterwards.
-/

namespace TypeSketch

namespace Declaration

/-- The members of an enum for its values: different names, in the order of the values. -/
def members (values : List Text) : List (String × Text) :=
  (Fresh.assign [] (values.map Text.memberKey)).zip values

/-- A property name as it stands in an interface: bare if it can be, else quoted. -/
def writtenKey (name : Text) : Text := if Text.isBare name then name else Text.quote name

/-- A key on its own as it stands in an interface. -/
def propertyKey (o : Options) (key : Text) : Text := writtenKey (o.writtenName key)

/-- The properties of an interface: different keys, in the order of the properties. -/
def properties (o : Options) (entries : List (Text × TypeExpr)) : List (Text × TypeExpr) :=
  ((Fresh.assign [] (entries.map fun e => o.writtenName e.1)).map writtenKey).zip
    (entries.map Prod.snd)

/-- A declaration: its head, the lines inside it and the closing brace. -/
def block (head : String) (lines : List Text) : Text :=
  head ++ " \x7b\n" ++ lines.flatten ++ "\x7d"

/-- The line of an enum member, with a comma unless it is the last. -/
def memberLine (member : String × Text) (comma : String) : Text :=
  "  " ++ member.1 ++ " = " ++ Text.quote member.2 ++ comma ++ "\n"

def memberLines : List (String × Text) → List Text
  | [] => []
  | [member] => [memberLine member ""]
  | member :: rest => memberLine member "," :: memberLines rest

def enum (name : String) (values : List Text) : Text :=
  block ("enum " ++ name) (memberLines (members values))

def propertyLine (o : Options) (property : Text × TypeExpr) : Text :=
  "  " ++ property.1 ++ (if o.markOptional then "?" else "") ++ ": " ++ property.2.text ++ ";\n"

/-- The declaration of an interface. -/
def interface (o : Options) (name : String) (entries : List (Text × TypeExpr)) : Text :=
  block ("interface " ++ name) ((properties o entries).map (propertyLine o))

end Declaration

namespace Catalog

/-- The declarations of a catalog in their order. -/
def declarations (c : Catalog) (o : Options) : List Text :=
  (if o.detectEnums then c.enums.entries.map fun e => Declaration.enum e.1 e.2 else []) ++
    c.interfaces.entries.map fun e => Declaration.interface o e.1 e.2.entries

def text (c : Catalog) (o : Options) : Text := ("\n\n" : Text).intercalate (c.declarations o)

end Catalog

end TypeSketch
