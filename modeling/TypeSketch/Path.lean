import TypeSketch.Path.Bytes
import TypeSketch.Text.Fields

/-!
# Paths

The text of a path, without a look at any file. The parts of a path stand between slashes. Empty
parts and single dots say nothing. Two dots lead one level up, and a path that is followed part by
part goes back there.

**Stem** (`stem`). The last part without its last dot and what follows, if something stands before
the dot and behind it.
-/

namespace TypeSketch.Path

/-! ## Parts -/

def isAbsolute (path : Text) : Bool := path.head? == some (.char '/')

/-- Whether a part of a path says nothing. -/
def isIdle (part : Text) : Bool := part.isEmpty || part == "."

/-- The parts of a path that say something. -/
def parts (path : Text) : List Text :=
  (Text.fields (.char '/') path).filter fun part => !isIdle part

/-- The last part of a path, empty if there is none. -/
def lastPart (path : Text) : Text := (parts path).getLast?.getD []

/-- What stands before the parts of a path. Exactly two slashes at its beginning are two, and any
other number of them is one. -/
def root (path : Text) : Text :=
  match (path.takeWhile (· == .char '/')).length with
  | 0 => []
  | 2 => "//"
  | _ => "/"

/-- A path without the parts that say nothing. -/
def tidy (path : Text) : Text :=
  let body := root path ++ ("/" : Text).intercalate (parts path)
  if body.isEmpty then "." else body

/-- The parts of a path after one step more. Two dots lead back, or further up where nothing is left
to go back from. -/
def stepAlong (absolute : Bool) (behind : List Text) (part : Text) : List Text :=
  if part != ".." then behind ++ [part]
  else if behind.isEmpty || behind.getLast? == some (Text.ofString "..") then
    if absolute then behind else behind ++ [part]
  else behind.dropLast

/-- Why a path cannot be followed from part to part behind those followed so far, if a part makes it
unusable. -/
def unusableOnWay? (absolute : Bool) (behind : List Text) : List Text → Option Unusable
  | [] => none
  | part :: rest =>
    let way := stepAlong absolute behind part
    match unusable? ((if absolute then [.char '/'] else []) ++ ("/" : Text).intercalate way) with
    | some reason => some reason
    | none => unusableOnWay? absolute way rest

/-- A name up to its last dot, or all of it unless something stands before that dot and behind
it. -/
def beforeDot (name : Text) : Text :=
  let ending := (name.reverse.takeWhile (· != .char '.')).reverse
  let before := (name.reverse.dropWhile (· != .char '.')).drop 1
  if ending.isEmpty || before.isEmpty then name else before.reverse

/-- The last part of a path without its ending. -/
def stem (path : Text) : Text := beforeDot (lastPart path)

end TypeSketch.Path
