import Cloze.Command.Line
import Cloze.Command.LogFilter
import Cloze.Grammar.Offside
import Cloze.Script
import Cloze.Settings.Load
import Cloze.View.Catalog

/-!
# Executing commands

A command first checks its log filter, then loads its settings, then does its work. The first of
these to fail ends it. Files are given as a function from their names, so that what a command
prints is a value.
-/

namespace Cloze.Command

/-- What a command prints and the code it ends with. -/
structure Outcome where
  code : Nat
  output : String
  errors : String
deriving DecidableEq

/-- The content of a file, or why it cannot be read. -/
abbrev Files := String → Except String String

def succeed (output : String) : Outcome := ⟨0, output, ""⟩

def fail (message : String) : Outcome := ⟨1, "", s!"Error: {message}\n"⟩

/-- The settings file of that name, or of that name with `.toml` behind it. -/
def settingsFile (files : Files) (name : String) : Settings.File :=
  match files name with
  | .ok text => ⟨name, some text, true⟩
  | .error _ =>
    match files (name ++ ".toml") with
    | .ok text => ⟨name ++ ".toml", some text, true⟩
    | .error _ => ⟨name, none, true⟩

def loadSettings (files : Files) (config : Option String) : Except String Settings :=
  match Settings.load (config.toList.map (settingsFile files)) [] with
  | .ok settings => .ok settings
  | .error e => .error e.message

/-- An editor on which a script has been run. -/
def replay (files : Files) (settings : Settings) (script : String) : Except String Editor :=
  match files script with
  | .error reason => .error s!"reading {script}: {reason}"
  | .ok text =>
    match Grammar.Offside.grammar with
    | .error e => .error e.message
    | .ok grammar =>
      match (Editor.start grammar settings []).runScript text with
      | (.ok _, e) => .ok e
      | (.error failure, _) => .error failure.message

/-- A text with spaces behind it up to the width. -/
def padRight (width : Nat) (text : String) : String :=
  text ++ String.ofList (List.replicate (width - text.length) ' ')

/-- A text with spaces before it up to the width. -/
def padLeft (width : Nat) (text : String) : String :=
  String.ofList (List.replicate (width - text.length) ' ') ++ text

def offerLine (d : Draft) (n : Draft.NodeId) (index : Nat) : String :=
  let value := if (d.role? n).any Role.needsInput then "  (needs value)" else ""
  s!"{padLeft 3 (Nat.repr index)}  {padRight 12 (d.caption n)} {(d.tag n).name}{value}\n"

def suggestionLine (s : Draft.Suggestion) : String :=
  s!"{padRight 12 s.text} {s.tag.name}\n"

def formatLines (f : View.Format) : String :=
  s!"  {f.name}\n    {f.description}\n"

def listFormats : String :=
  "Available formats:\n\n"
    ++ String.join ((View.Catalog.complete false).sorted.map formatLines)

/-- What an action prints. -/
def act (files : Files) (settings : Settings) : Action → Except String String
  | .run script format onlyPlaced => do
    let e ← replay files settings script
    match (View.Catalog.complete onlyPlaced).render e.draft format with
    | .ok text => .ok (text ++ "\n")
    | .error e => .error e.message
  | .alternatives script => do
    let e ← replay files settings script
    match Editor.displayedOffers e with
    | .ok found e =>
      .ok (String.join (found.zipIdx.map fun (n, index) => offerLine e.draft n index))
    | .error r _ => .error r.message
  | .hints script => do
    let e ← replay files settings script
    match Editor.suggestions e with
    | .ok found _ => .ok (String.join (found.map suggestionLine))
    | .error r _ => .error r.message
  | .listFormats => .ok listFormats

def checkLogFilter : Option String → Except String Unit
  | none => .ok ()
  | some text =>
    match LogFilter.check text with
    | .ok _ => .ok ()
    | .error e => .error e.message

/-- Executes a command line. -/
def execute (files : Files) (line : Line) : Outcome :=
  let result : Except String String := do
    checkLogFilter line.logFilter
    let settings ← loadSettings files line.config
    act files settings line.action
  match result with
  | .ok output => succeed output
  | .error message => fail message

end Cloze.Command
