import Cloze.Editor

/-!
# Scripts

A script replays what a writer does: choose a literal by its text, choose a category with or
without a value, move the cursor left or right. It is read as a whole before its first step is
taken, and ends at the first step that is refused.

Steps stand one behind the other; spaces, tabs and line ends may lie between them, and so may
comments from `#` to the end of the line.

    'if' NAME:x '==' NUMBER:1 ':' NEWLINE   # literals and categories
    INDENT NAME:print '(' STRING:"hi" ')'
    <  >

A value runs to the next space. If it starts with a quote and there is a space before the next
quote of the same kind, it ends with that quote instead.
-/

namespace Cloze

namespace Script

inductive Step where
  | literal (text : String)
  | category (name : String) (value : Option String)
  | left
  | right
deriving DecidableEq

/-- The step as it is written in a script. -/
def Step.text : Step → String
  | literal text => s!"'{text}'"
  | category name (some value) => s!"{name}:{value}"
  | category name none => name
  | left => "<"
  | right => ">"

/-- Why a script was not run to its end. -/
inductive Failure where
  /-- The text, at an offset in bytes, is no step. -/
  | unreadable (offset : Nat) (text : String)
  | refused (index : Nat) (step : String) (reason : Draft.Refusal)
deriving DecidableEq

def Failure.message : Failure → String
  | unreadable offset text => s!"unrecognized input '{text}' at offset {offset}"
  | refused index step reason => s!"step {index} ({step}) failed: {reason.message}"

/-! ### Reading a step -/

/-- The characters that part steps. -/
def isSpace (c : Char) : Bool :=
  c == ' ' || c == '\t' || c == '\r' || c == '\n' || c == '\x0c'

/-- The text from the next step on; `comment` says that a comment has begun. -/
def skipLayout : (comment : Bool) → List Char → List Char
  | _, [] => []
  | true, c :: cs => skipLayout (c != '\n') cs
  | false, c :: cs =>
    if isSpace c then skipLayout false cs
    else if c = '#' then skipLayout true cs
    else c :: cs

def isCapital (c : Char) : Bool :=
  'A' ≤ c && c ≤ 'Z'

/-- What the name of a category goes on with. -/
def isNameChar (c : Char) : Bool :=
  isCapital c || c == '_' || ('0' ≤ c && c ≤ '9')

/-- What stands at the start of a text. -/
inductive Reading where
  | step (step : Step) (rest : List Char)
  /-- No step; `text` is what was taken for one. -/
  | fault (text : List Char)

/-- The value of a category, and the rest. A quoted value that meets a space and is never closed
is none. -/
def readValue (cs : List Char) : Option (List Char × List Char) :=
  let unquoted := some (cs.takeWhile (!isSpace ·), cs.dropWhile (!isSpace ·))
  match cs with
  | [] => unquoted
  | q :: inner =>
    if q = '"' || q = '\'' then
      let quoted := inner.takeWhile (· != q)
      if quoted.any isSpace then
        match inner.dropWhile (· != q) with
        | [] => none
        | _ :: rest => some (q :: (quoted ++ [q]), rest)
      else
        unquoted
    else
      unquoted

/-- A category, with the value behind its colon if there is one. -/
def readCategory (cs : List Char) : Reading :=
  let name := cs.takeWhile isNameChar
  let bare (rest : List Char) := Reading.step (.category (String.ofList name) none) rest
  match cs.dropWhile isNameChar with
  | ':' :: c :: rest =>
    if isSpace c then
      bare (':' :: c :: rest)
    else
      match readValue (c :: rest) with
      | none => .fault cs
      | some (value, rest) =>
        .step (.category (String.ofList name) (some (String.ofList value))) rest
  | rest => bare rest

/-- A literal, from behind its opening quote. -/
def readLiteral (cs : List Char) : Reading :=
  match cs.dropWhile (· != '\'') with
  | [] => .fault ('\'' :: cs)
  | _ :: rest => .step (.literal (String.ofList (cs.takeWhile (· != '\'')))) rest

/-- The step at the start of a text. -/
def readStep (c : Char) (cs : List Char) : Reading :=
  if c = '\'' then readLiteral cs
  else if c = '<' then .step .left cs
  else if c = '>' then .step .right cs
  else if isCapital c then readCategory (c :: cs)
  else .fault [c]

/-! ### What is left stands at the end of the text -/

theorem skipLayout_suffix (comment : Bool) (cs : List Char) : skipLayout comment cs <:+ cs := by
  fun_induction skipLayout comment cs with
  | case1 => exact List.suffix_refl _
  | case2 c cs ih => exact ih.trans (List.suffix_cons _ _)
  | case3 c cs _ ih => exact ih.trans (List.suffix_cons _ _)
  | case4 cs _ ih => exact ih.trans (List.suffix_cons _ _)
  | case5 => exact List.suffix_refl _

theorem readLiteral_suffix {cs rest : List Char} {s : Step}
    (h : readLiteral cs = .step s rest) : rest <:+ cs := by
  unfold readLiteral at h
  split at h
  · cases h
  · next c rest hd =>
    cases h
    exact (List.suffix_cons c _).trans (hd ▸ List.dropWhile_suffix _)

theorem readValue_suffix {cs v rest : List Char} (h : readValue cs = some (v, rest)) :
    rest <:+ cs := by
  have hword := List.dropWhile_suffix (l := cs) (!isSpace ·)
  unfold readValue at h
  split at h
  · cases h
    exact hword
  · next q inner =>
    dsimp only at h
    split at h
    · split at h
      · split at h
        · cases h
        · next c rest hd =>
          cases h
          have hin := (List.suffix_cons c _).trans (hd ▸ List.dropWhile_suffix (l := inner) _)
          exact hin.trans (List.suffix_cons _ _)
      · cases h
        exact hword
    · cases h
      exact hword

/-- The first letter of a category is part of its name. -/
theorem readCategory_suffix {c : Char} {cs rest : List Char} {s : Step} (hc : isCapital c)
    (h : readCategory (c :: cs) = .step s rest) : rest <:+ cs := by
  have hname : isNameChar c = true := by simp [isNameChar, hc]
  have hdrop := List.dropWhile_suffix (l := cs) isNameChar
  unfold readCategory at h
  rw [List.dropWhile_cons_of_pos hname] at h
  dsimp only at h
  split at h
  · next x after hd =>
    split at h
    · cases h
      exact hd ▸ hdrop
    · split at h
      · cases h
      · next v rest hv =>
        cases h
        have hin := (readValue_suffix hv).trans (List.suffix_cons ':' _)
        exact hin.trans (hd ▸ hdrop)
  · cases h
    exact hdrop

/-- A step takes at least its first character. -/
theorem readStep_suffix {c : Char} {cs rest : List Char} {s : Step}
    (h : readStep c cs = .step s rest) : rest <:+ cs := by
  unfold readStep at h
  split at h
  · exact readLiteral_suffix h
  split at h
  · cases h
    exact List.suffix_refl _
  split at h
  · cases h
    exact List.suffix_refl _
  split at h
  · next hc => exact readCategory_suffix hc h
  · cases h

/-- A step leaves less to be read. -/
theorem length_lt_of_readStep {c : Char} {cs inner rest : List Char} {s : Step}
    (hs : skipLayout false cs = c :: inner) (hr : readStep c inner = .step s rest) :
    rest.length < cs.length := by
  have hinner := (readStep_suffix hr).length_le
  have houter := (hs ▸ skipLayout_suffix false cs).length_le
  exact Nat.lt_of_le_of_lt hinner houter

/-! ### Whole scripts -/

/-- Where and why reading stopped: the text not read yet, and what was taken for a step there. -/
structure Fault where
  unread : List Char
  text : List Char
deriving DecidableEq

set_option linter.unusedVariables false in
/-- The steps of a text. -/
def readAll (cs : List Char) : Except Fault (List Step) :=
  match hs : skipLayout false cs with
  | [] => .ok []
  | c :: rest =>
    match hr : readStep c rest with
    | .fault text => .error ⟨c :: rest, text⟩
    | .step step rest' => do
      let steps ← readAll rest'
      pure (step :: steps)
termination_by cs.length
decreasing_by exact length_lt_of_readStep hs hr

/-- The number of bytes of a text in UTF-8. -/
def byteLength : List Char → Nat
  | [] => 0
  | c :: cs => c.utf8Size + byteLength cs

/-- The steps of a script, or the first place where there is none. -/
def read (source : String) : Except Failure (List Step) :=
  let cs := source.toList
  match readAll cs with
  | .ok steps => .ok steps
  | .error fault =>
    .error (.unreadable (byteLength cs - byteLength fault.unread) (String.ofList fault.text))

end Script

/-! ### Running scripts -/

namespace Editor

open Script

def apply : Step → Editing Unit
  | .left => modify moveLeft
  | .right => modify moveRight
  | .literal text => do choose (← findOffer text) none
  | .category name value => do choose (← findOffer name) value

/-- Takes the steps in order; `index` is the number of the first. -/
def applyAll (e : Editor) : (index : Nat) → List Step → Except Failure Unit × Editor
  | _, [] => (.ok (), e)
  | index, step :: steps =>
    match apply step e with
    | .ok _ e => applyAll e (index + 1) steps
    | .error reason e => (.error (.refused index step.text reason), e)

/-- Runs a script. The steps before a refused one stay taken. -/
def runScript (e : Editor) (source : String) : Except Failure Unit × Editor :=
  match read source with
  | .error failure => (.error failure, e)
  | .ok steps => e.applyAll 0 steps

end Editor

end Cloze
