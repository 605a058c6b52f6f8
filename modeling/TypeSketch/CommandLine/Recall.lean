import TypeSketch.CommandLine.Arguments
import TypeSketch.Workspace
import TypeSketch.Json.PlainText

/-!
# The command recalled

The generation comment shows a command that makes the same text. It is put together from the values
of the parameters, not from the arguments that were typed.

**Order.** The operands come first and then the options, both in the order in which the command
lists them, whatever the order of the values.

**Omissions.** A parameter without a value, with an empty text or at its default is left out. A
switch shows the flag that turns it on or off.

**Paths.** A text that is the path of something that exists shows its last part only.
-/

namespace TypeSketch.CommandLine

/-- A parameter of the command. -/
inductive Parameter where
  | name
  | config
  | switch (which : Switch)
  | sample
  | comment
  | path
  | output
deriving DecidableEq, Inhabited, Repr

namespace Parameter

/-- The options, in the order in which the command lists them. -/
def options : List Parameter :=
  [.name, .config] ++ Switch.all.map .switch ++ [.sample, .comment]

def operands : List Parameter := [.path, .output]

/-- The word by which a parameter goes. -/
def key : Parameter → String
  | .name => "name"
  | .config => "config"
  | .switch w => w.name
  | .sample => "sample"
  | .comment => "add_generation_comment"
  | .path => "path"
  | .output => "output"

def option : Parameter → String
  | .name => "--name"
  | .config => "--config"
  | .switch w => "--" ++ w.flag
  | .sample => "--sample"
  | .comment => "--add-generation-comment"
  | .path => "--path"
  | .output => "--output"

def offOption? : Parameter → Option String
  | .switch w => some ("--no-" ++ w.flag)
  | _ => none

/-- The truth value at which a parameter is left out, if it has one. -/
def default? : Parameter → Option Bool
  | .switch w => some (({} : Options).get w)
  | .sample => some false
  | .comment => some false
  | _ => none

def isFlag (p : Parameter) : Bool := p.default?.isSome

end Parameter

/-! ## The command line -/

/-- A path that cannot be looked at. -/
structure PathError where
  obstacle : Obstacle
  path : Text
deriving DecidableEq, Inhabited, Repr

def PathError.message (e : PathError) : String := e.obstacle.message e.path

/-- The value of a parameter in a command line. -/
def shownValue (w : Workspace) : Json → Except PathError Text
  | .string s =>
    match w.follows? (Path.tidy s) with
    | .error obstacle => .error ⟨obstacle, Path.tidy s⟩
    | .ok found =>
      .ok (if found && !(Path.lastPart s).isEmpty then Path.lastPart s else s)
  | v => .ok v.plainText

/-- Whether a value is a truth value or the number that counts as it. -/
def countsAs (v : Json) (b : Bool) : Bool :=
  match v with
  | .bool b' => b' == b
  | .number n => if b then n.isOne else n.isZero
  | _ => false

/-- Whether a parameter with a value is left out. -/
def isLeftOut (p : Parameter) (v : Json) : Bool :=
  match v with
  | .null => true
  | .string s => s.isEmpty
  | v =>
    match p.default? with
    | some b => countsAs v b
    | none => false

/-- The words that set an option to a value. -/
def optionWords (w : Workspace) (p : Parameter) (v : Json) : Except PathError (List Text) :=
  if p.isFlag then
    .ok (if v.isBlank then p.offOption?.toList.map Text.ofString else [Text.ofString p.option])
  else
    match shownValue w v with
    | .ok text => .ok [Text.ofString p.option, text]
    | .error e => .error e

/-- The words of a parameter in a command line. -/
def words (w : Workspace) (values : Parameter → Option Json) (p : Parameter) :
    Except PathError (List Text) :=
  match values p with
  | none => .ok []
  | some v =>
    if isLeftOut p v then .ok []
    else if p ∈ Parameter.operands then (shownValue w v).map fun text => [text]
    else optionWords w p v

/-- The name by which the command goes in a comment. -/
def program : String := "json_to_ts"

/-- A command line that gives the parameters their values. The options are looked at before the
operands, although they stand behind them. -/
def recalled (w : Workspace) (values : Parameter → Option Json) : Except PathError Text := do
  let options ← Parameter.options.mapM (words w values)
  let operands ← Parameter.operands.mapM (words w values)
  pure ((" " : Text).intercalate (Text.ofString program :: (operands.flatten ++ options.flatten)))

end TypeSketch.CommandLine
