/-!
# Command lines

A command line names one of four commands and may set options. The options for settings and
logging may stand before or behind the command. A value follows its option as the next argument,
or in the same argument; of an option set twice the later value holds.
-/

namespace Cloze.Command

inductive Action where
  /-- Runs a script and writes what it made. -/
  | run (script format : String) (onlyPlaced : Bool)
  /-- Runs a script and lists what may come next. -/
  | alternatives (script : String)
  /-- Runs a script and lists the names suggested next. -/
  | hints (script : String)
  | listFormats
deriving DecidableEq

structure Line where
  /-- The file with the settings. -/
  config : Option String := none
  logFilter : Option String := none
  action : Action
deriving DecidableEq

/-- The options that take a value. -/
inductive Key where
  | config
  | logFilter
  | format
deriving DecidableEq

/-- What has been found in the arguments so far. -/
structure Arguments where
  config : Option String := none
  logFilter : Option String := none
  format : Option String := none
  onlyPlaced : Bool := false
  words : List String := []

def Arguments.set (a : Arguments) (key : Key) (value : String) : Arguments :=
  match key with
  | .config => { a with config := some value }
  | .logFilter => { a with logFilter := some value }
  | .format => { a with format := some value }

def longKey? (name : List Char) : Option Key :=
  if name = "config".toList then some .config
  else if name = "log-level".toList then some .logFilter
  else if name = "format".toList then some .format
  else none

def shortKey? (c : Char) : Option Key :=
  if c = 'c' then some .config else if c = 'f' then some .format else none

/-- What one argument is. -/
inductive Token where
  | word (text : String)
  /-- An option with its value in the same argument. -/
  | setting (key : Key) (value : String)
  /-- An option whose value is the next argument. -/
  | pending (key : Key)
  | onlyPlaced
  /-- All that follows is words. -/
  | endOfOptions
  | unknown

def classifyLong (name : List Char) : Token :=
  if name.isEmpty then
    .endOfOptions
  else if name = "only-chosen".toList then
    .onlyPlaced
  else
    match longKey? (name.takeWhile (· != '=')), name.dropWhile (· != '=') with
    | none, _ => .unknown
    | some key, [] => .pending key
    | some key, _ :: value => .setting key (String.ofList value)

def classify (argument : String) : Token :=
  match argument.toList with
  | '-' :: '-' :: name => classifyLong name
  | '-' :: c :: rest =>
    match shortKey? c, rest with
    | none, _ => .unknown
    | some key, [] => .pending key
    | some key, '=' :: value => .setting key (String.ofList value)
    | some key, value => .setting key (String.ofList value)
  | _ => .word argument

/-- Reads the arguments in order; none if one of them makes no sense. `pending` is an option that
waits for its value. -/
def readArguments? : (pending : Option Key) → Arguments → List String → Option Arguments
  | none, a, [] => some a
  | some _, _, [] => none
  | some key, a, value :: rest => readArguments? none (a.set key value) rest
  | none, a, argument :: rest =>
    match classify argument with
    | .word text => readArguments? none { a with words := a.words ++ [text] } rest
    | .setting key value => readArguments? none (a.set key value) rest
    | .pending key => readArguments? (some key) a rest
    | .onlyPlaced => readArguments? none { a with onlyPlaced := true } rest
    | .endOfOptions => some { a with words := a.words ++ rest }
    | .unknown => none

def Arguments.action? (a : Arguments) : Option Action :=
  match a.words with
  | ["run", script] => some (.run script (a.format.getD "source") a.onlyPlaced)
  | ["alternatives", script] => some (.alternatives script)
  | ["hints", script] => some (.hints script)
  | ["list-formats"] => some .listFormats
  | _ => none

/-- The command line that arguments write; none if they write none. -/
def Line.read? (arguments : List String) : Option Line := do
  let a ← readArguments? none {} arguments
  let action ← a.action?
  pure { config := a.config, logFilter := a.logFilter, action }

end Cloze.Command
