import TypeSketch.CommandLine.Recall
import TypeSketch.Sketch
import TypeSketch.Text.ControlSequence

/-!
# A run of the command

A run reads its arguments, the options file and the document, and ends with the text of the
declarations on the standard output or in a file.

**Host** (`Host`). What a run finds below it and does not set itself: how deep the two documents
that it reads may be nested, and the help page.

**Preparation** (`prepare`). Everything that can go wrong before something is written happens here:
first the arguments are read, then the files they name are looked at, then the options file is read,
then the document, and last the comment is put together. Nothing is written yet. If the arguments
ask for help, the help page is ready at once and nothing else is looked at.

**Delivery** (`run`). Only a text that is ready goes to its target. So a run that fails leaves the
files and the standard output as they were, unless the text is ready and cannot be encoded. That is
noticed behind the opening of the target, which empties it.
-/

namespace TypeSketch.CommandLine

/-- What a run is given by the system below it. -/
structure Host where
  /-- How many containers may stand inside each other in an options file. -/
  optionsDepth : Nat
  /-- The same for a document. There may be less room for one of them than for the other. -/
  documentDepth : Nat
  helpPage : String
deriving DecidableEq, Inhabited, Repr

/-- A host as the program finds it. Nine hundred containers inside each other are always read, and
fifteen hundred never. -/
def Host.usual : Host where
  optionsDepth := 950
  documentDepth := 950
  helpPage :=
    "Usage: json-to-ts [OPTIONS] [PATH] [OUTPUT]\n" ++
    "\n" ++
    "Options:\n" ++
    "  -n, --name TEXT                 Root interface name (default: file name in\n" ++
    "                                  PascalCase)\n" ++
    "  -c, --config FILE\n" ++
    "  --detect-enums / --no-detect-enums\n" ++
    "                                  Turn arrays of strings into enums\n" ++
    "  --camel-case / --no-camel-case  Rewrite snake_case property names to\n" ++
    "                                  camelCase\n" ++
    "  --mark-optional / --no-mark-optional\n" ++
    "                                  Mark every property as optional\n" ++
    "  --strict-null-checks / --no-strict-null-checks\n" ++
    "                                  Type null values as null instead of any\n" ++
    "  --sample                        Convert the built-in sample document\n" ++
    "  --add-generation-comment        Start the output with a comment naming the\n" ++
    "                                  command that produced it\n" ++
    "  --help                          Show this message and exit."

/-! ## What can go wrong -/

/-- Why a command cannot be run as it was given. -/
inductive UsageError where
  | badArgument (error : ArgumentError)
  | noFile (parameter : Parameter) (path : Text)
  | notAFile (parameter : Parameter) (path : Text)
  | extraOperands (operands : List Text)
  | badOptions (reason : String)
deriving DecidableEq, Inhabited, Repr

/-- How usage errors speak of a parameter. -/
def Parameter.hint : Parameter → String
  | .config => "'--config' / '-c'"
  | .path => "'[PATH]'"
  | .output => "'[OUTPUT]'"
  | p => Text.shown p.option

def shownPath (path : Text) : String := Text.shown (Text.ofString (Path.legible path))

def UsageError.message : UsageError → String
  | .badArgument e => e.message
  | .noFile p path =>
    "Invalid value for " ++ p.hint ++ ": File " ++ shownPath path ++ " does not exist."
  | .notAFile p path =>
    "Invalid value for " ++ p.hint ++ ": File " ++ shownPath path ++ " is a directory."
  | .extraOperands operands =>
    "Got unexpected extra argument" ++ (if operands.length = 1 then "" else "s") ++ " (" ++
      Text.spelled (Text.withoutControls ((" " : Text).intercalate operands)) ++ ")"
  | .badOptions reason => "Invalid value for '--config': invalid options file: " ++ reason

/-- The lines that say how the command is used. -/
def usage : String :=
  "Usage: json-to-ts [OPTIONS] [PATH] [OUTPUT]\nTry 'json-to-ts --help' for help.\n\n"

/-- Whether a usage error is shown with the lines on usage. An option with a value too many or too
few is shown without them. -/
def UsageError.showsUsage : UsageError → Bool
  | .badArgument (.missingValue _) => false
  | .badArgument (.unwantedValue _) => false
  | _ => true

/-- A failure that the command does not report but passes on. -/
inductive Escape where
  | tooManyDigits (count : Nat)
  | tooDeep (container : Json.Container)
  | unreachable (error : PathError)
  | unencodable (error : Text.Encoding.Unencodable)
deriving DecidableEq, Inhabited, Repr

def Escape.message : Escape → String
  | .tooManyDigits count => (Json.DecodeError.tooManyDigits count).message
  | .tooDeep .array =>
    "maximum recursion depth exceeded while decoding a JSON array from a unicode string"
  | .tooDeep .object =>
    "maximum recursion depth exceeded while decoding a JSON object from a unicode string"
  | .unreachable e => e.message
  | .unencodable e => e.message

/-- Why a run stops before it delivers. -/
inductive Stop where
  | misused (error : UsageError)
  | failed (message : String)
  | escaped (escape : Escape)
deriving DecidableEq, Inhabited, Repr

/-! ## Looking at files -/

/-- How a run stops at a file that cannot be used. That no file can have the path is passed on, and
everything else is a usage error. -/
def Stop.ofObstacle (path : Text) (error : UsageError) : Obstacle → Stop
  | .unusable reason => .escaped (.unreachable ⟨.unusable reason, path⟩)
  | _ => .misused error

/-- Refuses a file to be read that is not there or is a directory. The path that is followed may
differ from the one that is shown. -/
def checkInput (w : Workspace) (p : Parameter) (followed shown : Text) : Except Stop Unit :=
  match w.follow followed with
  | .ok (.file _) => .ok ()
  | .ok .directory => .error (.misused (.notAFile p shown))
  | .error obstacle => .error (.ofObstacle followed (.noFile p shown) obstacle)

/-- The absolute path of a file, which is found part by part. -/
def absolutePath (w : Workspace) (path : Text) : Except Stop Text :=
  match Path.unusableOnWay? (Path.isAbsolute path) [] (Path.parts path) with
  | some reason => .error (.escaped (.unreachable ⟨.unusable reason, path⟩))
  | none => .ok (Workspace.pathOf (w.locate path))

/-- Refuses a file to be written that is a directory. -/
def checkOutput (w : Workspace) (path : Text) : Except Stop Unit := do
  match w.follow (← absolutePath w path) with
  | .ok .directory => .error (.misused (.notAFile .output path))
  | _ => .ok ()

/-- Refuses arguments that name files which cannot be used, and operands that are too many. -/
def check (w : Workspace) (a : Arguments) : Except Stop Unit := do
  match a.config? with
  | some path => checkInput w .config (← absolutePath w path) path
  | none => pure ()
  if a.path ≠ RootName.standardInput then checkInput w .path a.path a.path
  match a.output? with
  | some path => checkOutput w path
  | none => pure ()
  if !a.extra.isEmpty then throw (.misused (.extraOperands a.extra))

/-- The bytes of a file, none if there is no file. -/
def bytesAt (w : Workspace) (path : Text) : List UInt8 :=
  match w.follow path with
  | .ok (.file bytes) => bytes
  | _ => []

/-! ## Reading -/

/-- A text with a line feed for every end of a line. -/
def plainLines : Text → Text
  | .char '\r' :: .char '\n' :: rest => '\n' :: plainLines rest
  | .char '\r' :: rest => '\n' :: plainLines rest
  | p :: rest => p :: plainLines rest
  | [] => []

def readOptions (depth : Nat) (bytes : List UInt8) : Except Stop Options :=
  let refuse (reason : String) : Stop := .misused (.badOptions reason)
  match Text.Encoding.decodeStrict bytes with
  | .error e => .error (refuse e.message)
  | .ok text =>
    match Json.ofText depth (plainLines text) with
    | .error (.tooManyDigits count) => .error (.escaped (.tooManyDigits count))
    | .error (.tooDeep container) => .error (.escaped (.tooDeep container))
    | .error e => .error (refuse e.message)
    | .ok value => (Options.ofJson value).mapError fun e => refuse e.message

/-- The options of a run: those of the file, if there is one, with the flags put over them. -/
def optionsOf (host : Host) (w : Workspace) (a : Arguments) : Except Stop Options :=
  match a.config? with
  | none => .ok (a.options {})
  | some path =>
    (readOptions host.optionsDepth (bytesAt w (Workspace.pathOf (w.locate path)))).map a.options

def nameOf (a : Arguments) : Text := a.name?.getD (RootName.ofPath a.path a.sample)

/-- The document of a run: the sample, the standard input or a file. -/
def documentOf (host : Host) (w : Workspace) (input : List UInt8) (a : Arguments) :
    Except Json.DecodeError Json :=
  if a.sample then Sample.document host.documentDepth
  else if a.path = RootName.standardInput then Json.ofBytes host.documentDepth input
  else Json.ofBytes host.documentDepth (bytesAt w a.path)

def definitions (host : Host) (w : Workspace) (input : List UInt8) (a : Arguments) (o : Options) :
    Except Stop Text :=
  match sketchDecoded o (.string (nameOf a)) (documentOf host w input a) with
  | .ok text => .ok text
  | .error (.unreadable (.tooManyDigits count)) => .error (.escaped (.tooManyDigits count))
  | .error e => .error (.failed e.message)

/-! ## The comment -/

/-- The version that the comment names. -/
def version : String := "0.3.0"

/-- The values of the parameters as the command recalls them. Options files and outputs have
absolute paths. -/
def parameterValues (w : Workspace) (a : Arguments) (p : Parameter) : Option Json :=
  let absolute (path : Text) : Json := .string (Workspace.pathOf (w.locate path))
  match p with
  | .name => (a.name?).map .string
  | .config => (a.config?).map absolute
  | .switch s => some (.bool ((a.switch? s).getD (({} : Options).get s)))
  | .sample => some (.bool a.sample)
  | .comment => some (.bool a.comment)
  | .path => some (.string a.path)
  | .output => (a.output?).map absolute

/-- The comment with the command. -/
def header (w : Workspace) (a : Arguments) : Except Stop Text :=
  match recalled w (parameterValues w a) with
  | .ok line => .ok ("// Generated by " ++ program ++ " " ++ version ++ "\n// " ++ line)
  | .error e => .error (.escaped (.unreachable e))

/-- The text of a run: the declarations, behind the comment and a blank line if it is asked for. -/
def emitted (w : Workspace) (a : Arguments) (definitions : Text) : Except Stop Text :=
  if a.comment then
    (header w a).map fun comment =>
      comment ++ (if definitions.isEmpty then [] else ("\n\n" : Text) ++ definitions)
  else .ok definitions

/-! ## The run -/

/-- A text that is ready, and where it goes: to a file, or to the standard output. -/
structure Emission where
  text : Text
  target : Option Location
deriving DecidableEq, Inhabited, Repr

/-- All of a run but the writing, once its arguments are read and do not ask for help. -/
def prepareSketch (host : Host) (w : Workspace) (input : List UInt8) (a : Arguments) :
    Except Stop Emission := do
  check w a
  let options ← optionsOf host w a
  let definitions ← definitions host w input a options
  let text ← emitted w a definitions
  pure ⟨text ++ "\n", (a.output?).map w.locate⟩

/-- The help page is for the standard output, whatever target the arguments name. -/
def Host.help (host : Host) : Emission := ⟨Text.ofString host.helpPage ++ "\n", none⟩

/-- All of a run but the writing. -/
def prepare (host : Host) (w : Workspace) (input : List UInt8) (args : List Text) :
    Except Stop Emission := do
  let a ← (readArguments {} args).mapError fun e => .misused (.badArgument e)
  if a.help then pure host.help else prepareSketch host w input a

inductive Ending where
  | exit (code : Nat)
  | escaped (escape : Escape)
deriving DecidableEq, Inhabited, Repr

/-- What a run leaves behind. -/
structure Outcome where
  ending : Ending
  stdout : String := ""
  stderr : String := ""
  workspace : Workspace
deriving DecidableEq, Inhabited

def Stop.outcome (w : Workspace) : Stop → Outcome
  | .misused e =>
    { ending := .exit 2, workspace := w
      stderr := (if e.showsUsage then usage else "") ++ "Error: " ++ e.message ++ "\n" }
  | .failed message => { ending := .exit 1, stderr := "Error: " ++ message ++ "\n", workspace := w }
  | .escaped e => { ending := .escaped e, workspace := w }

/-- Shows a text on the standard output, without control sequences. -/
def display (w : Workspace) (text : Text) : Outcome :=
  match Text.Encoding.encode (Text.withoutControls text) with
  | .ok s => { ending := .exit 0, stdout := s, workspace := w }
  | .error error => { ending := .escaped (.unencodable error), workspace := w }

/-- Writes a text to a file. The file is opened first, and is empty then. -/
def write (w : Workspace) (l : Location) (text : Text) : Outcome :=
  match w.obstacle? l with
  | some obstacle =>
    { ending := .escaped (.unreachable ⟨obstacle, Workspace.pathOf l⟩), workspace := w }
  | none =>
    match Text.Encoding.encode text with
    | .ok s => { ending := .exit 0, workspace := w.put l s.toUTF8.data.toList }
    | .error error => { ending := .escaped (.unencodable error), workspace := w.put l [] }

/-- Brings a text to its target. -/
def Emission.deliver (w : Workspace) (e : Emission) : Outcome :=
  match e.target with
  | none => display w e.text
  | some l => write w l e.text

/-- Runs the command with a standard input. -/
def run (host : Host) (w : Workspace) (input : List UInt8) (args : List Text) : Outcome :=
  match prepare host w input args with
  | .ok e => e.deliver w
  | .error stop => stop.outcome w

end TypeSketch.CommandLine
