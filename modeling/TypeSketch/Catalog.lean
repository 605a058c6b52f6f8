import TypeSketch.Table
import TypeSketch.Fresh
import TypeSketch.TypeExpr

/-!
# The catalog of declarations

A walk through a document fills a catalog: the interfaces and enums found so far, in the order in
which they were first met.

**Places** (`place`). A place is the sequence of steps from the root of the document, without the
index of an array item, so all items of an array share one place. Places are numbered: the root is
`0`, and the step at index `i` of the list leads to place `i + 1`. A step from a parent is entered
once, and is found again afterwards.

**Names** (`nameFor`). A place takes at most one name as an interface and one as an enum, and keeps
it from then on. A place without a name gets the candidate, or the candidate with a number behind it
when the candidate is taken.
-/

namespace TypeSketch

/-- The way from a place to one below it. -/
inductive Step where
  | item
  | member (key : Text)
deriving DecidableEq, Inhabited, Repr

/-- What a name stands for. -/
inductive Kind where
  | interface
  | enum
deriving DecidableEq, Inhabited, Repr

/-- The properties of an interface with their types. -/
abbrev Properties := Table Text TypeExpr

/-- The declarations found so far, with the places and names behind them. -/
structure Catalog where
  interfaces : Table String Properties := ∅
  enums : Table String (List Text) := ∅
  places : List (Int × Step) := []
  names : Table (Kind × Int) String := ∅
  taken : List String := []
deriving DecidableEq, Inhabited

/-- The place of the whole document. -/
def rootPlace : Int := 0

namespace Catalog

/-- The place one step below a parent, entered if it is new. -/
def place (c : Catalog) (parent : Int) (step : Step) : Int × Catalog :=
  match c.places.findIdx? (· = (parent, step)) with
  | some i => (i + 1, c)
  | none => (c.places.length + 1, { c with places := c.places ++ [(parent, step)] })

/-- The name of a place, made from a candidate if it has none yet. -/
def nameFor (c : Catalog) (kind : Kind) (place : Int) (candidate : String) : String × Catalog :=
  match c.names.find? (kind, place) with
  | some name => (name, c)
  | none =>
    let name := Fresh.name c.taken candidate
    (name, { c with names := c.names.put (kind, place) name, taken := name :: c.taken })

/-- Names an interface and reserves its position. -/
def openInterface (c : Catalog) (place : Int) (candidate : String) : String × Catalog :=
  let (name, c) := c.nameFor .interface place candidate
  (name, { c with interfaces := c.interfaces.putNew name ∅ })

/-- Gives an interface its properties, in place of those it had. -/
def setProperties (c : Catalog) (name : String) (properties : Properties) : Catalog :=
  { c with interfaces := c.interfaces.put name properties }

/-- Names an enum and adds the values that it does not hold yet. -/
def addEnum (c : Catalog) (place : Int) (candidate : String) (values : List Text) :
    String × Catalog :=
  let (name, c) := c.nameFor .enum place candidate
  let members := Distinct.addAll id ((c.enums.find? name).getD []) values
  (name, { c with enums := c.enums.put name members })

/-! ## What an operation changes -/

section

variable (c : Catalog) (kind : Kind) (place : Int) (candidate : String) (values : List Text)

theorem place_interfaces (step : Step) : (c.place place step).2.interfaces = c.interfaces := by
  unfold Catalog.place
  split <;> rfl

theorem place_enums (step : Step) : (c.place place step).2.enums = c.enums := by
  unfold Catalog.place
  split <;> rfl

@[simp] theorem nameFor_places : (c.nameFor kind place candidate).2.places = c.places := by
  unfold nameFor
  split <;> rfl

@[simp] theorem nameFor_interfaces :
    (c.nameFor kind place candidate).2.interfaces = c.interfaces := by
  unfold nameFor
  split <;> rfl

@[simp] theorem nameFor_enums : (c.nameFor kind place candidate).2.enums = c.enums := by
  unfold nameFor
  split <;> rfl

@[simp] theorem openInterface_fst :
    (c.openInterface place candidate).1 = (c.nameFor .interface place candidate).1 := rfl

theorem openInterface_snd : (c.openInterface place candidate).2 =
    { (c.nameFor .interface place candidate).2 with
      interfaces := c.interfaces.putNew (c.nameFor .interface place candidate).1 ∅ } := by
  rw [← nameFor_interfaces c .interface place candidate]
  rfl

@[simp] theorem addEnum_fst :
    (c.addEnum place candidate values).1 = (c.nameFor .enum place candidate).1 := rfl

theorem addEnum_snd : (c.addEnum place candidate values).2 =
    { (c.nameFor .enum place candidate).2 with
      enums := c.enums.put (c.nameFor .enum place candidate).1
        (Distinct.addAll id ((c.enums.find? (c.nameFor .enum place candidate).1).getD [])
          values) } := by
  rw [← nameFor_enums c .enum place candidate]
  rfl

theorem openInterface_enums : (c.openInterface place candidate).2.enums = c.enums :=
  nameFor_enums c .interface place candidate

theorem addEnum_interfaces : (c.addEnum place candidate values).2.interfaces = c.interfaces :=
  nameFor_interfaces c .enum place candidate

end

end Catalog

end TypeSketch
