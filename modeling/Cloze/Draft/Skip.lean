import Cloze.Draft.Growth

/-!
# What can be left out

A node can be skipped if a sentence may go on as though its place were empty: a further
occurrence in a repeated slot, an option, or a node with a branch whose slots can all be skipped.
Finding out may lay out choices and gaps. A symbol found impossible to skip is remembered for
good, unless the answer hung on its slot still being empty.
-/

namespace Cloze.Draft

/-- Every slot of a branch can be skipped; `inside` decides for a gap. -/
def everySlot (inside : NodeId → Edit Bool) : List SlotId → Edit Bool
  | [] => pure true
  | s :: rest => do
    let d ← get
    if !(d.slot s).content.isEmpty then
      pure false
    else if d.isFree s then
      everySlot inside rest
    else if ← inside (← gap s 0) then
      everySlot inside rest
    else
      pure false

/-- Some branch can be skipped as a whole. -/
def someBranch (inside : NodeId → Edit Bool) : List (List SlotId) → Edit Bool
  | [] => pure false
  | branch :: rest => do
    if ← everySlot inside branch then pure true else someBranch inside rest

/-- What is known of a node without looking into it. -/
def skipAtSight? (d : Draft) (n : NodeId) : Option Bool :=
  let node := d.node n
  if node.placed then
    some false
  else if d.settings.memoize && d.unskippable.contains node.symbol then
    some false
  else if (d.grammar.symbol node.symbol).isOption
      || (d.multiplicity node.slot == .plus && !(d.slot node.slot).content.isEmpty)
      || d.multiplicity node.slot == .star then
    some true
  else
    none

/-- Remembers that the symbol of a node cannot be skipped, unless its slot must get a first
occurrence yet. -/
def settle (d : Draft) (n : NodeId) : Draft :=
  let node := d.node n
  if d.settings.memoize && d.multiplicity node.slot != .plus then
    { d with unskippable := node.symbol :: d.unskippable }
  else
    d

/-- Whether a node can be skipped, looking at most `bound` levels down. -/
def canSkipWithin : (bound : Nat) → NodeId → Edit Bool
  | 0, _ => pure false
  | bound + 1, n => do
    match (← get).skipAtSight? n with
    | some answer => pure answer
    | none =>
      match ← reveal n with
      | none => pure false
      | some c =>
        if ← someBranch (canSkipWithin bound) ((← get).choice c).branches then
          pure true
        else
          modify (·.settle n)
          pure false

/-- Whether a node can be skipped. -/
def canSkip (n : NodeId) : Edit Bool := do
  canSkipWithin (← get).levels n

/-- Whether a slot can be skipped. -/
def canSkipSlot (s : SlotId) : Edit Bool := do
  let d ← get
  if !(d.slot s).content.isEmpty then
    pure false
  else if d.isFree s then
    pure true
  else
    canSkip (← gap s 0)

end Cloze.Draft
