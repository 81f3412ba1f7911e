/-!
# Roles

A role is the meaning a position of a grammar has beyond "a text goes here": a line break, the
start or end of a block, an assignment sign, a name, a number, a quoted text, a statement. Roles
decide which values a leaf accepts and what happens once it is filled.
-/

namespace Cloze

inductive Role where
  | newline
  | indent
  | dedent
  | assign
  | name
  | number
  | text
  /-- Belongs to references to a statement rule, not to leaves. -/
  | statement
deriving DecidableEq

namespace Role

def label : Role → String
  | newline => "Newline"
  | indent => "Indent"
  | dedent => "Dedent"
  | assign => "Assign"
  | name => "Name"
  | number => "Number"
  | text => "Str"
  | statement => "Statement"

def isLetter (c : Char) : Bool :=
  ('a' ≤ c && c ≤ 'z') || ('A' ≤ c && c ≤ 'Z') || c == '_' || c == '$'

def isDigit (c : Char) : Bool :=
  '0' ≤ c && c ≤ '9'

/-- A letter, `_` or `$`, then letters, digits, `_` and `$`; all of them ASCII. -/
def isName : List Char → Bool
  | [] => false
  | c :: cs => isLetter c && cs.all fun c => isLetter c || isDigit c

/-- One or more ASCII digits. -/
def isNumber (cs : List Char) : Bool :=
  !cs.isEmpty && cs.all isDigit

/-- The text between two `q` at its ends, on one line. The text itself may hold `q`. -/
def isQuotedBy (q : Char) : List Char → Bool
  | [] => false
  | c :: cs => c == q && cs.getLast? == some q && cs.dropLast.all (· != '\n')

def isQuoted (cs : List Char) : Bool :=
  isQuotedBy '"' cs || isQuotedBy '\'' cs

/-- Whether a leaf of this role takes the value. Only names, numbers and quoted texts choose. -/
def accepts (r : Role) (value : String) : Bool :=
  match r with
  | name => isName value.toList
  | number => isNumber value.toList
  | text => isQuoted value.toList
  | newline | indent | dedent | assign | statement => true

/-- What a leaf of this role holds when it is filled without a value. -/
def defaultToken? : Role → Option String
  | newline | indent | dedent => some ""
  | assign | name | number | text | statement => none

/-- Whether a writer has to be asked for the value. -/
def needsInput : Role → Bool
  | name | number | text => true
  | newline | indent | dedent | assign | statement => false

/-- Block starts and ends are layout: they are filled like any leaf, but a writer never sees them. -/
def isLayout : Role → Bool
  | indent | dedent => true
  | newline | assign | name | number | text | statement => false

end Role

end Cloze
