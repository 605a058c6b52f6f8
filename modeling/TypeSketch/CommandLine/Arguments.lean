import TypeSketch.Options
import TypeSketch.Path
import TypeSketch.Text.Quoted
import TypeSketch.Text.Similarity

/-!
# Arguments of the command

The command takes options and up to two operands, in any order. An argument that begins with a dash
and has something behind it is an option, and after two dashes alone everything is an operand. A
long option may carry its value behind an equals sign, and a short one directly behind its letter.
Otherwise the next argument is the value, whatever it looks like. Of an option given several times
the last one counts.

**Names.** Every option has a long name, which begins with two dashes. A name that no option has is
answered with those that may have been meant, at most three.

**Help.** The wish for help is no setting. It is read like one, so arguments that cannot be read are
refused even with it.
-/

namespace TypeSketch

/-- The flag that turns a switch on, without its dashes. -/
def Switch.flag : Switch → String
  | .detectEnums => "detect-enums"
  | .camelCase => "camel-case"
  | .markOptional => "mark-optional"
  | .strictNulls => "strict-null-checks"

namespace CommandLine

/-! ## Names of options -/

def switchOn (w : Switch) : String := "--" ++ w.flag

def switchOff (w : Switch) : String := "--no-" ++ w.flag

def helpName : String := "--help"

def optionNames : List String :=
  ["--name", "--config"] ++ Switch.all.flatMap (fun w => [switchOn w, switchOff w]) ++
    ["--sample", "--add-generation-comment", helpName]

def possiblyMeant (option : Text) : List String := Text.mostSimilar 3 optionNames option

/-- The hint at names that may have been meant. -/
def hintAt (names : List String) : String :=
  match names.map fun name => Text.shown (Text.ofString name) with
  | [] => ""
  | [name] => " Did you mean " ++ name ++ "?"
  | names => " (Did you mean one of: " ++ ", ".intercalate names ++ "?)"

/-! ## Settings -/

/-- What one option asks for. -/
inductive Setting where
  | name (value : Text)
  | config (path : Text)
  | switch (which : Switch) (on : Bool)
  | sample
  | comment
deriving DecidableEq, Inhabited, Repr

/-- Why arguments cannot be read. -/
inductive ArgumentError where
  | unknownOption (option : Text)
  | missingValue (option : Text)
  | unwantedValue (option : Text)
deriving DecidableEq, Inhabited, Repr

def ArgumentError.message : ArgumentError → String
  | .unknownOption option =>
    "No such option " ++ Text.shown option ++ "." ++ hintAt (possiblyMeant option)
  | .missingValue option => "Option " ++ Text.shown option ++ " requires an argument."
  | .unwantedValue option => "Option " ++ Text.shown option ++ " does not take a value."

/-! ## Options -/

/-- An option as it is understood: a setting, one that still needs a value, or the wish for help. -/
inductive Meaning where
  | plain (setting : Setting)
  | valued (make : Text → Setting)
  | help

/-- The meaning of a switch's flags. -/
def switchFlag? (option : Text) : Option Setting :=
  Switch.all.findSome? fun w =>
    if option = switchOn w then some (.switch w true)
    else if option = switchOff w then some (.switch w false)
    else none

def longOption? (option : Text) : Option Meaning :=
  if option = "--name" then some (.valued .name)
  else if option = "--config" then some (.valued .config)
  else if option = "--sample" then some (.plain .sample)
  else if option = "--add-generation-comment" then some (.plain .comment)
  else if option = helpName then some .help
  else (switchFlag? option).map .plain

/-- The meaning of the letter of a short option, which always takes a value. -/
def shortOption? (letter : CodePoint) : Option (Text → Setting) :=
  if letter = 'n' then some .name
  else if letter = 'c' then some .config
  else none

/-- A text before and behind its first equals sign. -/
def splitValue (s : Text) : Text × Option Text :=
  let before := s.takeWhile (· != .char '=')
  match s.drop before.length with
  | [] => (s, none)
  | _ :: value => (before, some value)

/-- What an argument that is an option comes to: a setting, an option waiting for its value, or the
wish for help. -/
inductive Reading where
  | settled (setting : Setting)
  | waiting (option : Text) (make : Text → Setting)
  | help

/-- Reads a short option: one dash and a letter, possibly with the value behind it. -/
def readShort (letter : CodePoint) (value : Text) : Except ArgumentError Reading :=
  let option : Text := ['-', letter]
  match shortOption? letter with
  | none => .error (.unknownOption option)
  | some make =>
    if value.isEmpty then .ok (.waiting option make)
    else .ok (.settled (make value))

def readOption (arg : Text) : Except ArgumentError Reading :=
  let (option, value?) := splitValue arg
  match longOption? option, value? with
  | some (.plain setting), none => .ok (.settled setting)
  | some (.plain _), some _ => .error (.unwantedValue option)
  | some (.valued make), some value => .ok (.settled (make value))
  | some (.valued make), none => .ok (.waiting option make)
  | some .help, none => .ok .help
  | some .help, some _ => .error (.unwantedValue option)
  | none, _ =>
    match arg with
    | .char '-' :: .char '-' :: _ => .error (.unknownOption option)
    | _ :: letter :: value => readShort letter value
    | _ => .error (.unknownOption option)

/-! ## All arguments -/

/-- The options and the operands of a command, each in their order, and whether it asks for help. -/
structure Arguments where
  settings : List Setting := []
  operands : List Text := []
  help : Bool := false
deriving DecidableEq, Inhabited, Repr

def isOption : Text → Bool
  | .char '-' :: _ :: _ => true
  | _ => false

def Arguments.addSetting (a : Arguments) (s : Setting) : Arguments :=
  { a with settings := a.settings ++ [s] }

def Arguments.addOperands (a : Arguments) (operands : List Text) : Arguments :=
  { a with operands := a.operands ++ operands }

def Arguments.addHelp (a : Arguments) : Arguments := { a with help := true }

/-- Reads arguments, behind some that were read already. -/
def readArguments (a : Arguments) : List Text → Except ArgumentError Arguments
  | [] => .ok a
  | arg :: rest =>
    if arg = "--" then .ok (a.addOperands rest)
    else if !isOption arg then readArguments (a.addOperands [arg]) rest
    else
      match readOption arg with
      | .error e => .error e
      | .ok (.settled s) => readArguments (a.addSetting s) rest
      | .ok .help => readArguments a.addHelp rest
      | .ok (.waiting option make) =>
        match rest with
        | value :: rest => readArguments (a.addSetting (make value)) rest
        | [] => .error (.missingValue option)

/-! ## What is asked for -/

/-- The last of some settings that a function picks out. -/
def Arguments.last? {α : Type} (a : Arguments) (pick : Setting → Option α) : Option α :=
  a.settings.reverse.findSome? pick

def Arguments.name? (a : Arguments) : Option Text :=
  a.last? fun
    | .name value => some value
    | _ => none

def Arguments.config? (a : Arguments) : Option Text :=
  a.last? fun
    | .config path => some path
    | _ => none

/-- What the flags say about a switch. -/
def Arguments.switch? (a : Arguments) (w : Switch) : Option Bool :=
  a.last? fun
    | .switch w' on => if w' = w then some on else none
    | _ => none

def Arguments.sample (a : Arguments) : Bool := a.settings.contains .sample

def Arguments.comment (a : Arguments) : Bool := a.settings.contains .comment

/-- The path of the document, which is the standard input if it is not given. -/
def Arguments.path (a : Arguments) : Text := a.operands.head?.getD "-"

def Arguments.output? (a : Arguments) : Option Text := a.operands[1]?

def Arguments.extra (a : Arguments) : List Text := a.operands.drop 2

/-- The options of a file with the flags put over them. -/
def Arguments.options (a : Arguments) (base : Options) : Options :=
  Switch.all.foldl (fun o w => o.set w ((a.switch? w).getD (o.get w))) base

end CommandLine

end TypeSketch
