import TypeSketch.Catalog
import TypeSketch.Options
import TypeSketch.Text.Name

/-!
# The walk through a document

The walk finds the type of a document and enters into a catalog every declaration that the type
needs. It keeps the containers it is inside of as a list of frames, the innermost first, so its
depth is bounded by memory alone.

**Leaves.** Null, truth values, numbers and strings have built-in types. An empty array is an array
of anything. With enum detection an array of nothing but strings is an array of its enum.

**Arrays** (`Frame.array`). The items are visited in order at one place. The type of the array
comes from their types.

**Objects** (`Frame.object`). The name is taken before the members are visited, so an enclosing
interface stands before those inside it. Each member has a place and a name of its own, made of the
name of the interface and the key. When all members have been visited, the interface gets its
properties.

**End of the walk.** Every value of the document takes at most two turns, one to visit it and one
to close its frame. So the number of turns that are left shrinks with every turn (`pending`).
-/

namespace TypeSketch

namespace Walk

/-- A value to visit, with its place and the name that its declarations begin with. -/
structure Child where
  value : Json
  name : String
  place : Int
deriving Inhabited

/-- A container that is being walked: the values that wait, and the types of those already
visited, the last one first. An array knows the place of its items once it has given the first. -/
inductive Frame where
  | array (name : String) (place : Int) (below : Option Int) (waiting : List Json)
      (types : List TypeExpr)
  | object (name : String) (place : Int) (keys : List Text) (waiting : List (Text × Json))
      (types : List TypeExpr)
deriving Inhabited

/-- What a visit comes to: a type, or a container to walk first. -/
inductive Visit where
  | done (type : TypeExpr)
  | opened (frame : Frame)
deriving Inhabited

/-- The name for what stands under a key of an interface. -/
def memberName (o : Options) (interface : String) (key : Text) : String :=
  interface ++ (Text.upperFirst (o.writtenName key)).legible

namespace Frame

/-- The place of the items of an array, entered if the array has given none yet. -/
def itemPlace (c : Catalog) (place : Int) : Option Int → Int × Catalog
  | some below => (below, c)
  | none => c.place place .item

/-- Takes the next child out of a frame. The place of a member, and that of all items, is entered
only now. -/
def next? (o : Options) (c : Catalog) : Frame → Option (Child × Frame × Catalog)
  | .array _ _ _ [] _ => none
  | .array name place below (value :: waiting) types =>
    let (below, c) := itemPlace c place below
    some (⟨value, name, below⟩, .array name place (some below) waiting types, c)
  | .object _ _ _ [] _ => none
  | .object name place keys ((key, value) :: waiting) types =>
    let (below, c) := c.place place (.member key)
    some (⟨value, memberName o name key, below⟩, .object name place keys waiting types, c)

/-- A frame with the type of one more child. -/
def gather : Frame → TypeExpr → Frame
  | .array name place below waiting types, t => .array name place below waiting (t :: types)
  | .object name place keys waiting types, t => .object name place keys waiting (t :: types)

/-- The type of a container whose children have all been visited. -/
def close (c : Catalog) : Frame → TypeExpr × Catalog
  | .array _ _ _ _ types => (.ofItems types.reverse, c)
  | .object name _ keys _ types =>
    (.atom name, c.setProperties name (Table.ofList (keys.zip types.reverse)))

/-- The turns that a frame still takes at most: one to close it, and for every value inside what
waits one to visit it and one to close it. -/
def pending : Frame → Nat
  | .array _ _ _ waiting _ => 1 + 2 * Json.sizeItems waiting
  | .object _ _ _ waiting _ => 1 + 2 * Json.sizeMembers waiting

@[simp] theorem pending_gather (f : Frame) (t : TypeExpr) : (f.gather t).pending = f.pending := by
  cases f <;> rfl

theorem pending_pos (f : Frame) : 0 < f.pending := by
  cases f <;> simp only [pending] <;> omega

theorem pending_of_next? {o : Options} {c c' : Catalog} {f f' : Frame} {child : Child}
    (h : f.next? o c = some (child, f', c')) :
    f.pending = 2 * child.value.size + f'.pending := by
  unfold next? at h
  split at h <;> simp only [Option.some.injEq, Prod.mk.injEq, reduceCtorEq] at h
  all_goals
    obtain ⟨rfl, rfl, -⟩ := h
    simp only [pending, Json.sizeItems, Json.sizeMembers]
    omega

end Frame

def strings? : List Json → Option (List Text)
  | [] => some []
  | .string s :: rest => (strings? rest).map (s :: ·)
  | _ :: _ => none

/-- The strings that make an enum, if enums are wanted and the items are all strings. -/
def enumValues? (o : Options) (items : List Json) : Option (List Text) :=
  if o.detectEnums then strings? items else none

/-- Looks at one value: a leaf has its type at once, and a container becomes a frame. -/
def visit (o : Options) (child : Child) (c : Catalog) : Visit × Catalog :=
  match child.value with
  | .null => (.done (if o.strictNulls then .null else .any), c)
  | .bool _ => (.done .boolean, c)
  | .number _ => (.done .number, c)
  | .string _ => (.done .string, c)
  | .array [] => (.done (.array .any), c)
  | .array items =>
    match enumValues? o items with
    | some values =>
      let (enum, c) := c.addEnum child.place (Text.typeName (child.name ++ "Enum")) values
      (.done (.array (.atom enum)), c)
    | none => (.opened (.array (child.name ++ "Item") child.place none items []), c)
  | .object members =>
    let (interface, c) := c.openInterface child.place (Text.typeName child.name)
    (.opened (.object interface child.place (members.map Prod.fst) members []), c)
  | .other => (.done .any, c)

/-- The turns that a stack of frames still takes at most. -/
def pending : List Frame → Nat
  | [] => 0
  | frame :: outside => frame.pending + pending outside

theorem pending_of_visit {o : Options} {child : Child} {c c' : Catalog} {f : Frame}
    (h : visit o child c = (.opened f, c')) : f.pending < 2 * child.value.size := by
  unfold visit at h
  split at h <;> try (simp at h; done)
  · split at h
    · simp at h
    · next items hv _ _ =>
      simp only [Prod.mk.injEq, Visit.opened.injEq] at h
      obtain ⟨rfl, -⟩ := h
      simp only [Frame.pending, hv, Json.size]
      omega
  · next members hv =>
    simp only [Prod.mk.injEq, Visit.opened.injEq] at h
    obtain ⟨rfl, -⟩ := h
    simp only [Frame.pending, hv, Json.size]
    omega

/-- How the walk stands after a turn. -/
inductive Turn where
  | walking (frame : Frame) (outside : List Frame) (c : Catalog)
  | finished (type : TypeExpr) (c : Catalog)
deriving Inhabited

/-- One turn: the innermost frame gives its next child, or it is closed and its type goes to the
frame outside it. -/
def turn (o : Options) (frame : Frame) (outside : List Frame) (c : Catalog) : Turn :=
  match frame.next? o c with
  | some (child, frame, c) =>
    match visit o child c with
    | (.done t, c) => .walking (frame.gather t) outside c
    | (.opened inner, c) => .walking inner (frame :: outside) c
  | none =>
    match frame.close c, outside with
    | (t, c), [] => .finished t c
    | (t, c), outer :: outside => .walking (outer.gather t) outside c

theorem pending_of_turn {o : Options} {frame frame' : Frame} {outside outside' : List Frame}
    {c c' : Catalog} (h : turn o frame outside c = .walking frame' outside' c') :
    pending (frame' :: outside') < pending (frame :: outside) := by
  rw [pending, pending]
  unfold turn at h
  split at h
  · next child rest _ hn =>
    have := Frame.pending_of_next? hn
    have := child.value.size_pos
    split at h
    · simp only [Turn.walking.injEq] at h
      obtain ⟨rfl, rfl, -⟩ := h
      rw [Frame.pending_gather]
      omega
    · next hv =>
      have := pending_of_visit hv
      simp only [Turn.walking.injEq] at h
      obtain ⟨rfl, rfl, -⟩ := h
      rw [pending]
      omega
  · have := frame.pending_pos
    split at h
    · simp at h
    · simp only [Turn.walking.injEq] at h
      obtain ⟨rfl, rfl, -⟩ := h
      rw [Frame.pending_gather, pending]
      omega

/-- Walks the innermost frame and then those outside it, to the type of the outermost. -/
def run (o : Options) (frame : Frame) (outside : List Frame) (c : Catalog) :
    TypeExpr × Catalog :=
  match _h : turn o frame outside c with
  | .finished t c => (t, c)
  | .walking frame outside c => run o frame outside c
termination_by pending (frame :: outside)
decreasing_by exact pending_of_turn _h

end Walk

/-- The type of a document, with the declarations that it needs entered into a catalog. The name
is the one for the document itself if it is an object, and every other name begins with it. -/
def typeOf (o : Options) (value : Json) (name : String) (c : Catalog) : TypeExpr × Catalog :=
  match Walk.visit o ⟨value, name, rootPlace⟩ c with
  | (.done t, c) => (t, c)
  | (.opened frame, c) => Walk.run o frame [] c

end TypeSketch
