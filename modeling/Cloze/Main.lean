import Cloze.Command.Execute

/-!
# The program

Reads the files a command line names, executes the command, and prints what comes of it.
-/

namespace Cloze.Command

def usage : String :=
  "usage: run <script> [--format <format>] [--only-chosen]\n"
    ++ "       alternatives <script>\n"
    ++ "       hints <script>\n"
    ++ "       list-formats\n"
    ++ "options: --config <file>, --log-level <filter>\n"

/-- The files whose content a command line may ask for. -/
def Line.files (line : Line) : List String :=
  let scripts := match line.action with
    | .run script _ _ | .alternatives script | .hints script => [script]
    | .listFormats => []
  line.config.toList ++ line.config.toList.map (· ++ ".toml") ++ scripts

def readFile (name : String) : IO (Except String String) := do
  try
    pure (.ok (← IO.FS.readFile name))
  catch
    | .noFileOrDirectory .. => pure (.error "No such file or directory (os error 2)")
    | e => pure (.error (toString e))

end Cloze.Command

open Cloze.Command in
def main (arguments : List String) : IO UInt32 := do
  match Line.read? arguments with
  | none =>
    IO.eprint usage
    pure 2
  | some line =>
    let contents ← line.files.mapM fun name => do pure (name, ← readFile name)
    let outcome := execute
      (fun name => (contents.lookup name).getD (.error "No such file or directory (os error 2)"))
      line
    IO.print outcome.output
    IO.eprint outcome.errors
    pure (UInt32.ofNat outcome.code)
