import TypeSketch.Table
import TypeSketch.Path

/-!
# Workspaces

The files that a command can see: the location of the working directory, the files with their bytes,
and the directories. A location is the list of names from the root down.

**Directories** (`isDirectory`). Everything above the working directory, above a file or above a
directory is a directory too.

**Following a path** (`follow`). A path is followed part by part. Every part but the last has to
lead to a directory, and so has the last one if a slash comes behind it.

**Names** (`settle`). A name is found by its bytes, so what is in a workspace stands under settled
names, however a path to it is written.
-/

namespace TypeSketch

/-- The names from the root down to a file or directory. -/
abbrev Location := List Text

/-- What stands at a location. -/
inductive Entry where
  | directory
  | file (bytes : List UInt8)
deriving DecidableEq, Inhabited, Repr

/-- Why a path leads nowhere. -/
inductive Obstacle where
  | missing
  | notADirectory
  | isADirectory
  | nameTooLong
  | unusable (reason : Path.Unusable)
deriving DecidableEq, Inhabited, Repr

def numberedMessage (number : Nat) (what : String) (path : Text) : String :=
  "[Errno " ++ toString number ++ "] " ++ what ++ ": " ++ Text.shown path

def Obstacle.message (path : Text) : Obstacle → String
  | .missing => numberedMessage 2 "No such file or directory" path
  | .notADirectory => numberedMessage 20 "Not a directory" path
  | .isADirectory => numberedMessage 21 "Is a directory" path
  | .nameTooLong => numberedMessage 36 "File name too long" path
  | .unusable reason => reason.message

/-- The files that a command can see. -/
structure Workspace where
  /-- The location of the working directory. -/
  here : Location
  files : Table Location (List UInt8) := ∅
  directories : List Location := []
deriving DecidableEq, Inhabited

namespace Workspace

/-- A location with settled names. -/
def settle (l : Location) : Location := l.map Path.settled

/-- The most bytes that a part of a path may have. -/
def maxPart : Nat := 255

/-- The most bytes that a path may have. -/
def maxPath : Nat := 4095

def isDirectory (w : Workspace) (l : Location) : Bool :=
  l.isPrefixOf w.here || w.directories.any l.isPrefixOf ||
    w.files.keys.any fun file => l.isPrefixOf file.dropLast

def at? (w : Workspace) (l : Location) : Option Entry :=
  match w.files.find? l with
  | some bytes => some (.file bytes)
  | none => if w.isDirectory l then some .directory else none

/-- Follows the parts of a path from a location where an entry stands. -/
def followParts (w : Workspace) (l : Location) (e : Entry) :
    List Text → Except Obstacle Entry
  | [] => .ok e
  | part :: rest =>
    match e with
    | .file _ => .error .notADirectory
    | .directory =>
      if Path.isIdle part then followParts w l .directory rest
      else if part == ".." then followParts w l.dropLast .directory rest
      else if maxPart < Path.byteSize part then .error .nameTooLong
      else
        let next := l ++ [Path.settled part]
        match w.at? next with
        | some e => followParts w next e rest
        | none => .error .missing

/-- What stands at the end of a path. -/
def follow (w : Workspace) (path : Text) : Except Obstacle Entry :=
  match Path.unusable? path with
  | some reason => .error (.unusable reason)
  | none =>
    if path.isEmpty then .error .missing
    else if maxPath < Path.byteSize path then .error .nameTooLong
    else
      followParts w (if Path.isAbsolute path then [] else w.here) .directory
        (Text.fields (.char '/') path)

/-- Whether something stands at the end of a path, unless the path is too long to tell. -/
def follows? (w : Workspace) (path : Text) : Except Obstacle Bool :=
  match w.follow path with
  | .ok _ => .ok true
  | .error .nameTooLong => .error .nameTooLong
  | .error _ => .ok false

/-- One step of a path on a location, whether anything stands there or not. -/
def stepTo (l : Location) (part : Text) : Location :=
  if part == ".." then l.dropLast else l ++ [part]

/-- The location that a path speaks of. -/
def locate (w : Workspace) (path : Text) : Location :=
  (Path.parts path).foldl stepTo (if Path.isAbsolute path then [] else w.here)

/-- The absolute path of a location. -/
def pathOf (l : Location) : Text := "/" ++ ("/" : Text).intercalate l

/-- What keeps a file from being written at a location, if anything does. A file that is not there
is made if its directory is. -/
def obstacle? (w : Workspace) (l : Location) : Option Obstacle :=
  if maxPath < Path.byteSize (pathOf l) then some .nameTooLong
  else
    match w.follow (pathOf l.dropLast) with
    | .error obstacle => some obstacle
    | .ok (.file _) => some .notADirectory
    | .ok .directory =>
      if maxPart < Path.byteSize (l.getLast?.getD []) then some .nameTooLong
      else if w.isDirectory (settle l) then some .isADirectory
      else none

def put (w : Workspace) (l : Location) (bytes : List UInt8) : Workspace :=
  { w with files := w.files.put (settle l) bytes }

end Workspace

end TypeSketch
