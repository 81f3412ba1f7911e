import Cloze.Toml.Value

/-!
# Texts and keys of TOML

Texts stand in double quotes, where a backslash starts an escape, or in single quotes, where
nothing does. Three quotes open a text that may run over several lines. A key is a sequence of
bare words and quoted texts with dots between them.
-/

namespace Cloze.Toml

open Number

/-- The character with the number that the given hexadecimal digits write. -/
def unicode? (digits : List Char) : Option Char := do
  let n ← natural? 16 digits
  if h : n.isValidChar then some (Char.ofNatAux n h) else none

/-- The character an escape stands for, and the text behind it. -/
def readEscape : List Char → Option (Char × List Char)
  | 'b' :: cs => some ('\x08', cs)
  | 't' :: cs => some ('\t', cs)
  | 'n' :: cs => some ('\n', cs)
  | 'f' :: cs => some ('\x0c', cs)
  | 'r' :: cs => some ('\r', cs)
  | '"' :: cs => some ('"', cs)
  | '\\' :: cs => some ('\\', cs)
  | 'u' :: cs => if cs.length < 4 then none else (unicode? (cs.take 4)).map (·, cs.drop 4)
  | 'U' :: cs => if cs.length < 8 then none else (unicode? (cs.take 8)).map (·, cs.drop 8)
  | _ => none

/-- A text on one line, up to and with the closing quote. Each turn takes a character or an
escape, so the length of the text bounds the turns. -/
def readInline (q : Char) : (bound : Nat) → List Char → Option (List Char × List Char)
  | 0, _ => none
  | _, [] => none
  | bound + 1, c :: cs =>
    if c = q then
      some ([], cs)
    else if q = '"' && c = '\\' then do
      let (e, rest) ← readEscape cs
      let (more, rest) ← readInline q bound rest
      pure (e :: more, rest)
    else if isPrintable c then do
      let (more, rest) ← readInline q bound cs
      pure (c :: more, rest)
    else
      none

/-- The text behind a backslash at the end of a line, without the white space and line ends that
follow; none if there is more on the line. -/
def skipLineEnd? (cs : List Char) : Option (List Char) :=
  match cs.dropWhile isSpace with
  | '\n' :: rest | '\r' :: '\n' :: rest =>
    some (rest.dropWhile fun c => isSpace c || c == '\n' || c == '\r')
  | _ => none

/-- A text over several lines, up to and with the three closing quotes. One or two more quotes
right before these belong to the text, and every line end in it is a line feed. -/
def readBlock (q : Char) : (bound : Nat) → List Char → Option (List Char × List Char)
  | 0, _ => none
  | bound + 1, cs =>
    if [q, q, q].isPrefixOf cs then
      let extra := ((cs.drop 3).takeWhile (· == q)).length
      if extra ≤ 2 then some (List.replicate extra q, cs.drop (3 + extra)) else none
    else
      match cs with
      | [] => none
      | '\r' :: '\n' :: rest => do
        let (more, rest) ← readBlock q bound rest
        pure ('\n' :: more, rest)
      | c :: rest =>
        if q = '"' && c = '\\' then
          match skipLineEnd? rest with
          | some rest => readBlock q bound rest
          | none => do
            let (e, rest) ← readEscape rest
            let (more, rest) ← readBlock q bound rest
            pure (e :: more, rest)
        else if isPrintable c || c = '\n' then do
          let (more, rest) ← readBlock q bound rest
          pure (c :: more, rest)
        else
          none

/-- A text between quotes `q`, from the opening quote on. -/
def quotedInline (q : Char) : Reader String := do
  Reader.expect q
  let cs ← get
  let (text, rest) ← (readInline q (cs.length + 1) cs : Option _)
  set rest
  pure (String.ofList text)

/-- A text between quotes `q`, on one line or over several. -/
def quoted (q : Char) : Reader String := do
  if ← Reader.accept [q, q, q] then
    let _ ← acceptLineEnd
    let cs ← get
    let (text, rest) ← (readBlock q (cs.length + 1) cs : Option _)
    set rest
    pure (String.ofList text)
  else
    quotedInline q

def isBareChar (c : Char) : Bool :=
  ('a' ≤ c && c ≤ 'z') || ('A' ≤ c && c ≤ 'Z') || isDigit c || c == '_' || c == '-'

/-- One part of a key. -/
def simpleKey : Reader String := do
  match ← Reader.peek? with
  | some '"' => quotedInline '"'
  | some '\'' => quotedInline '\''
  | _ =>
    let bare ← Reader.takeWhile isBareChar
    if bare.isEmpty then failure else pure (String.ofList bare)

/-- The parts of a key behind the first. -/
def keyRest : (bound : Nat) → Reader (List String)
  | 0 => failure
  | bound + 1 => do
    skipSpaces
    if ← Reader.accept ['.'] then
      skipSpaces
      let part ← simpleKey
      let rest ← keyRest bound
      pure (part :: rest)
    else
      pure []

/-- The parts of a key, and the white space around them. -/
def key : Reader (String × List String) := do
  skipSpaces
  let first ← simpleKey
  let rest ← keyRest ((← get).length + 1)
  pure (first, rest)

end Cloze.Toml
