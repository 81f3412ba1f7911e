import Cloze.Draft.Fill
import Cloze.Draft.Offer
import Cloze.Draft.Suggestion
import Cloze.View.Source

/-!
# Editors

An editor is a draft with a cursor: the leaf behind which the writer stands, or none before
everything. The chain lists the filled leaves as the writer sees them. Block starts and ends are
filled without entering the chain or moving the cursor; to the writer they are part of the newline
they belong to. So the search goes on from the last of them when the cursor is on that newline.
-/

namespace Cloze

open Draft

structure Editor where
  draft : Draft
  cursor : Option NodeId := none
  chain : List NodeId := []

/-- An action of the writer, which may be refused. -/
abbrev Editing := EStateM Refusal Editor

namespace Editor

/-- An editor over an empty draft. -/
def start (grammar : Grammar) (settings : Settings) (unskippable : List Grammar.SymbolId) :
    Editor where
  draft := Draft.start grammar settings unskippable

/-- Runs an edit of the draft. -/
def edit {α : Type} (act : Edit α) : Editing α := fun e =>
  match act e.draft with
  | .ok a d => .ok a { e with draft := d }
  | .error r d => .error r { e with draft := d }

/-- Where the search goes on: at the cursor, or behind the blocks that belong to it. -/
def trueCursor (e : Editor) : Option NodeId :=
  e.cursor.map fun n =>
    if e.draft.role? n = some .newline then
      ((e.draft.blocks? n).bind Blocks.last?).getD n
    else
      n

/-- What may be filled next, in the order it is found. -/
def offers : Editing (List NodeId) := do
  let e ← get
  edit (Draft.offers e.trueCursor)

/-- What may be filled next, in the order it is shown. -/
def displayedOffers : Editing (List NodeId) := do
  let found ← offers
  let e ← get
  pure (e.draft.sortForDisplay found)

/-- The first offer with that literal text or of that category. -/
def findOffer (text : String) : Editing NodeId := do
  let found ← offers
  let d := (← get).draft
  match found.find? fun n => d.literal? n == some text || d.category? n == some text with
  | some n => pure n
  | none => throw (.noSuchOffer text)

def cursorIndex? (e : Editor) : Option Nat :=
  e.cursor.bind fun n => e.chain.idxOf? n

/-- Takes a leaf into the chain behind the cursor, and the cursor to it. -/
def advance (e : Editor) (n : NodeId) : Editor :=
  let index := match e.cursorIndex? with
    | none => 0
    | some i => i + 1
  { e with chain := e.chain.insertIdx index n, cursor := some n }

/-- Fills a leaf and moves the cursor there. Layout leaves the cursor where it is. -/
def choose (n : NodeId) (value : Option String) : Editing Unit := do
  edit (fillWith n value)
  modify fun e => if (e.draft.role? n).any Role.isLayout then e else e.advance n

/-- From the first leaf the cursor moves before everything. -/
def moveLeft (e : Editor) : Editor :=
  { e with
    cursor := match e.cursorIndex? with
      | some (i + 1) => e.chain[i]?
      | some 0 | none => none }

/-- At the last leaf the cursor stays. -/
def moveRight (e : Editor) : Editor :=
  let next := match e.cursorIndex? with
    | none => 0
    | some i => i + 1
  { e with cursor := e.chain[next]? <|> e.cursor }

/-- Suggestions for the first name on offer. -/
def suggestions : Editing (List Suggestion) := do
  let found ← offers
  let d := (← get).draft
  match found.find? fun n => d.role? n == some .name with
  | none => pure []
  | some n =>
    match d.suggestions n with
    | .ok list => pure list
    | .error r => throw r

/-- The mark that shows the cursor. -/
def cursorMark : String := "___ "

/-- A leaf of the chain as the writer sees it. -/
def chainText (e : Editor) (n : NodeId) : String :=
  let lineBreak := if e.draft.role? n = some .newline then "\n" else ""
  let mark := if e.cursor = some n then cursorMark else ""
  lineBreak ++ (View.leafText? e.draft n).getD (e.draft.caption n) ++ " " ++ mark

/-- The chain as the writer sees it, with a mark at the cursor. -/
def view (e : Editor) : String :=
  let start := if e.cursor.isNone then cursorMark else ""
  String.ofList (Text.trimEnd (start ++ String.join (e.chain.map e.chainText)).toList)

end Editor

end Cloze
