import Cloze.Number.Double

/-!
# Values of TOML

What a TOML document holds, and the readers that take such values off the front of a text. A
reader that finds no value of its kind fails; a document is either read in full or not at all.
-/

namespace Cloze.Toml

open Number

inductive Value where
  | text (value : String)
  | integer (value : Int)
  | float (value : Double)
  | boolean (value : Bool)
  /-- A date, a time or both, in normal form. -/
  | date (text : String)
  | array (items : List Value)
  | table (entries : List (String × Value))

/-- Takes a value off the front of a text, or fails. -/
abbrev Reader := StateT (List Char) Option

namespace Reader

/-- The next character, left where it is. -/
def peek? : Reader (Option Char) := do
  pure (← get).head?

/-- Takes the given character. -/
def expect (c : Char) : Reader Unit := fun cs =>
  match cs with
  | [] => none
  | x :: rest => if x = c then some ((), rest) else none

/-- Takes the given text if it comes next, and says whether it did. -/
def accept (text : List Char) : Reader Bool := fun cs =>
  if text.isPrefixOf cs then some (true, cs.drop text.length) else some (false, cs)

/-- Takes characters of a class as long as there are any. -/
def takeWhile (p : Char → Bool) : Reader (List Char) := fun cs =>
  some (cs.takeWhile p, cs.dropWhile p)

end Reader

/-- White space within a line. -/
def isSpace (c : Char) : Bool :=
  c == ' ' || c == '\t'

def skipSpaces : Reader Unit := do
  let _ ← Reader.takeWhile isSpace

/-- A character that may stand in a comment or in quotes. Of the control characters only the tab
is one. -/
def isPrintable (c : Char) : Bool :=
  c == '\t' || (32 ≤ c.toNat && c.toNat != 127)

/-- Takes a comment if there is one. -/
def skipComment : Reader Unit := do
  if ← Reader.accept ['#'] then
    let _ ← Reader.takeWhile isPrintable

/-- Takes a line end if there is one, and says whether there was. -/
def acceptLineEnd : Reader Bool := do
  if ← Reader.accept ['\n'] then pure true else Reader.accept ['\r', '\n']

/-- Takes white space, comments and line ends, at most `bound` lines of them. -/
def skipLines : (bound : Nat) → Reader Unit
  | 0 => pure ()
  | bound + 1 => do
    skipSpaces
    skipComment
    if ← acceptLineEnd then skipLines bound

/-- Takes white space, comments and line ends. -/
def skipLayout : Reader Unit := do
  skipLines ((← get).length + 1)

end Cloze.Toml
