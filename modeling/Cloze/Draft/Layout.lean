import Cloze.Draft.Refusal
import Cloze.Draft.Walk

/-!
# What filling a leaf sets off

A newline's token is the indentation of the line it starts:

    indent unit * ((statements above - 1) + block starts - block ends)

with differences cut off at zero. A block start or end joins the nearest newline before it, whose
token is then written anew. An assignment sign binds the name before it in the statement around
that name.
-/

namespace Cloze.Draft

/-- Writes the token of a leaf, whatever it was. -/
def writeToken (d : Draft) (n : NodeId) (value : String) : Draft :=
  d.modifyNode n fun node =>
    match node.body with
    | .leaf _ => { node with body := .leaf (some value) }
    | .group _ | .rule _ _ => node

/-- The block starts and ends that joined a newline. -/
def blocks? (d : Draft) (n : NodeId) : Option Blocks :=
  match (d.node n).note with
  | some (.newline blocks) => some blocks
  | some (.statement _) | none => none

/-- The name bound in a statement. -/
def binding? (d : Draft) (n : NodeId) : Option String :=
  match (d.node n).note with
  | some (.statement binding) => binding
  | some (.newline _) | none => none

/-- The statements above a node, from the bottom up. -/
def statementsAbove (d : Draft) (n : NodeId) : List NodeId :=
  (d.ancestors n).filter fun m => d.role? m == some .statement

/-- How many levels the line behind a newline is indented. -/
def indentCount (d : Draft) (n : NodeId) : Nat :=
  let blocks := (d.blocks? n).getD {}
  ((d.statementsAbove n).length - 1 + blocks.starts.length) - blocks.ends.length

def indentation (d : Draft) (n : NodeId) : String :=
  String.join (List.replicate (d.indentCount n) d.settings.indentUnit)

/-- The blocks of a newline; a newline that has none yet starts with the empty ones. -/
def blocksAt (d : Draft) (n : NodeId) : Except Refusal Blocks :=
  match d.role? n, (d.node n).note with
  | some .newline, none => .ok {}
  | some .newline, some (.newline blocks) => .ok blocks
  | _, _ => .error (.wrongNote n .newline)

/-- Notes the blocks of a newline and writes its token anew. -/
def indentLine (d : Draft) (n : NodeId) (blocks : Blocks) : Draft :=
  let d := d.modifyNode n fun node => { node with note := some (.newline blocks) }
  d.writeToken n (d.indentation n)

def fillNewline (d : Draft) (n : NodeId) : Except Refusal Draft := do
  pure (d.indentLine n (← d.blocksAt n))

def Blocks.add (b : Blocks) (n : NodeId) : (role : Role) → Blocks
  | .indent => { b with starts := b.starts ++ [n] }
  | _ => { b with ends := b.ends ++ [n] }

/-- Joins a block start or end to the nearest newline before it. -/
def fillBlock (d : Draft) (n : NodeId) (role : Role) : Except Refusal Draft :=
  match (d.walkTo n .leafBefore .newline).head? with
  | none => .error (.missingContext n role .newlineBefore)
  | some newline => do
    let blocks ← d.blocksAt newline
    pure (d.indentLine newline (blocks.add n role))

/-- Notes the name bound in a statement. -/
def bindIn (d : Draft) (n : NodeId) (name : Option String) : Except Refusal Draft :=
  match d.role? n, (d.node n).note with
  | some .statement, none | some .statement, some (.statement _) =>
    .ok (d.modifyNode n fun node => { node with note := some (.statement name) })
  | _, _ => .error (.wrongNote n .statement)

/-- Binds the name before an assignment sign, if nothing stands between the two. -/
def fillAssign (d : Draft) (n : NodeId) : Except Refusal Draft :=
  match (d.leafBefore n).filter fun m => d.role? m == some .name with
  | none => .error (.missingContext n .assign .nameBefore)
  | some name =>
    if (d.leafAfter name).map d.role? != some (some .assign) then
      .ok d
    else
      match (d.statementsAbove name).head? with
      | none => .error (.missingContext n .assign .statementAboveName)
      | some statement => d.bindIn statement (d.token? name)

/-- What the role of a leaf does once the leaf is placed. -/
def onFill (d : Draft) (n : NodeId) : Except Refusal Draft :=
  match d.role? n with
  | some .newline => d.fillNewline n
  | some .indent => d.fillBlock n .indent
  | some .dedent => d.fillBlock n .dedent
  | some .assign => d.fillAssign n
  | some .name | some .number | some .text | some .statement | none => .ok d

end Cloze.Draft
