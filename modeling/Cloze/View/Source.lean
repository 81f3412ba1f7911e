import Cloze.Draft.Basic
import Cloze.Text.White

/-!
# Program text

The filled leaves written out. A newline starts a line, and its token is the indentation there.
The other tokens follow each other with one space behind each; then a parenthesis takes away the
spaces on both sides of it, first every opening one and then every closing one; then the white space at
the end of the line go. Leaves with the empty token leave no trace.
-/

namespace Cloze.View

open Draft

/-- Writes `p` for each `p` between two spaces, from left to right. A space taken away on one side
counts no more on another. `skip` characters at the front have been dealt with. -/
def closeUpFrom (p : Char) : (skip : Nat) → List Char → List Char
  | _, [] => []
  | skip + 1, _ :: cs => closeUpFrom p skip cs
  | 0, c :: cs =>
    if [' ', p, ' '].isPrefixOf (c :: cs) then p :: closeUpFrom p 2 cs
    else c :: closeUpFrom p 0 cs

/-- Takes away the spaces around each `p` that has one on either side. -/
def closeUp (p : Char) (cs : List Char) : List Char :=
  closeUpFrom p 0 cs

/-- A line of a program: its indentation and its tokens. -/
structure Line where
  indent : String := ""
  tokens : List String := []
deriving DecidableEq

/-- The tokens with a space behind each. -/
def Line.spaced (l : Line) : List Char :=
  l.tokens.flatMap fun token => token.toList ++ [' ']

def Line.render (l : Line) : String :=
  String.ofList <| Text.trimEnd <|
    l.indent.toList ++ closeUp ')' (closeUp '(' l.spaced)

/-- The text a leaf adds to its line. -/
def leafText? (d : Draft) (n : NodeId) : Option String :=
  (d.token? n).filter fun token => token != ""

/-- The lines that the leaves go on with, the first of which has been begun. -/
def linesFrom (d : Draft) : Line → List NodeId → List Line
  | line, [] => [line]
  | line, n :: ns =>
    if d.role? n = some .newline then
      line :: linesFrom d { indent := (d.token? n).getD "" } ns
    else
      linesFrom d { line with tokens := line.tokens ++ (leafText? d n).toList } ns

def lines (d : Draft) : List Line :=
  linesFrom d {} d.leaves

/-- The text of a draft. -/
def source (d : Draft) : String :=
  "\n".intercalate ((lines d).map Line.render)

end Cloze.View
