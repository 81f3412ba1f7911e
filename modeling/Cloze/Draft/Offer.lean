import Cloze.Draft.Skip

/-!
# Offers

The offers at a cursor are the leaves that may be filled next. The cursor is the leaf filled last,
or nothing. The search takes up the draft at the leftmost leaf behind the cursor and climbs from
there to the root. On each level it adds, as far as everything before can be skipped, the first
leaves of what follows, and, where the level is still untouched, the first leaves of the other
branches. Offers come in the order in which they are found, and one leaf may come twice.
-/

namespace Cloze.Draft

/-! ### Going down -/

/-- The first slot of the first branch. -/
def firstSlot (d : Draft) (c : ChoiceId) : SlotId :=
  ((d.choice c).branches.headD []).headD default

/-- The leaf reached by first branches and first slots, at most `bound` levels down. -/
def leftmostWithin : (bound : Nat) → NodeId → Edit NodeId
  | 0, n => pure n
  | bound + 1, n => do
    match ← reveal n with
    | none => pure n
    | some c => leftmostWithin bound (← firstIn ((← get).firstSlot c))

/-- The leftmost leaf under a node. -/
def leftmost (n : NodeId) : Edit NodeId := do
  leftmostWithin (← get).levels n

/-- The first leaves of a branch: those of its slots up to the first that cannot be skipped.
`inside` finds the first leaves under a gap. -/
def firstOfSlots (inside : NodeId → Edit (List NodeId)) : List SlotId → Edit (List NodeId)
  | [] => pure []
  | s :: rest => do
    if (← get).isFull s then
      pure []
    else
      let found ← inside (← gap s 0)
      if ← canSkipSlot s then
        let more ← firstOfSlots inside rest
        pure (found ++ more)
      else
        pure found

/-- The first leaves of several branches, branch by branch. -/
def firstOfBranches (inside : NodeId → Edit (List NodeId)) :
    List (List SlotId) → Edit (List NodeId)
  | [] => pure []
  | branch :: rest => do
    let found ← firstOfSlots inside branch
    let more ← firstOfBranches inside rest
    pure (found ++ more)

/-- The first leaves under a node, at most `bound` levels down. -/
def firstLeavesWithin : (bound : Nat) → NodeId → Edit (List NodeId)
  | 0, _ => pure []
  | bound + 1, n => do
    match ← reveal n with
    | none => pure [n]
    | some c => firstOfBranches (firstLeavesWithin bound) ((← get).choice c).branches

/-- The first leaves under a node. -/
def firstLeaves (n : NodeId) : Edit (List NodeId) := do
  firstLeavesWithin (← get).levels n

/-- The first leaves of some branches of a choice. -/
def firstLeavesOf (branches : List (List SlotId)) : Edit (List NodeId) := do
  firstOfBranches (firstLeavesWithin (← get).levels) branches

/-! ### Going on -/

/-- What may come right behind a node in its own slot, and whether the node is the last there. -/
def againAfter (n : NodeId) : Edit (List NodeId × Bool) := do
  let d ← get
  let node := d.node n
  let length := (d.slot node.slot).content.length
  if node.placed then
    if d.isFull node.slot then
      pure ([], node.position + 1 == length)
    else
      let found ← firstLeaves (← gap node.slot (node.position + 1))
      pure (found, node.position + 1 == length)
  else
    pure ([], node.position == length)

/-- The first leaves of slots up to the first that cannot be skipped, and whether all can. -/
def onwardOver : List SlotId → Edit (List NodeId × Bool)
  | [] => pure ([], true)
  | s :: rest => do
    if ← canSkipSlot s then
      let found ← firstLeaves (← gap s 0)
      let (more, through) ← onwardOver rest
      pure (found ++ more, through)
    else if (← get).isFull s then
      pure ([], false)
    else
      let found ← firstLeaves (← gap s 0)
      pure (found, false)

/-- What may follow a node in its branch, and whether the branch may end behind it. -/
def onward (n : NodeId) : Edit (List NodeId × Bool) := do
  let (again, last) ← againAfter n
  if last then
    let d ← get
    let (next, through) ← onwardOver (d.slotsAfter (d.node n).slot)
    pure (again ++ next, through)
  else
    pure (again, false)

/-- The other branches of the choice around a node, if nothing stands before the node. -/
def otherBranches (d : Draft) (n : NodeId) : List (List SlotId) :=
  let node := d.node n
  let slot := d.slot node.slot
  if node.position == 0 && !node.placed && slot.position == 0 then
    (d.choice slot.choice).branches.eraseIdx slot.branch
  else
    []

/-- The offers found on the way up a lineage. `passed` says that all below could be skipped. -/
def climb : List NodeId → (passed : Bool) → Edit (List NodeId)
  | [], _ => pure []
  | n :: above, passed => do
    let own := if (← get).isLeaf n then [n] else []
    let skip ← if passed then pure true else canSkip n
    let (following, through) ← if skip then onward n else pure ([], false)
    let others ← firstLeavesOf ((← get).otherBranches n)
    let higher ← climb above through
    pure (own ++ following ++ others ++ higher)

/-! ### Offers at a cursor -/

/-- Where the search goes on behind the first node of a lineage; none if something placed follows
there or nothing can. -/
def resumeAlong : List NodeId → Edit (Option NodeId)
  | [] => pure none
  | n :: above => do
    let d ← get
    let node := d.node n
    if !node.placed then
      throw (.notPlaced n)
    else if !d.isFull node.slot then
      some <$> (leftmost (← gap node.slot (node.position + 1)))
    else
      match d.slotsAfter node.slot with
      | s :: _ =>
        let first ← firstIn s
        if (← get).isPlaced first then pure none else some <$> leftmost first
      | [] => resumeAlong above

/-- The leaf where the search goes on behind a placed node. -/
def resume (n : NodeId) : Edit (Option NodeId) := do
  resumeAlong ((← get).lineage n)

/-- The leftmost leaf of the whole draft. -/
def firstLeaf : Edit NodeId := do
  leftmost (← firstIn ((← get).firstSlot ⟨0⟩))

/-- The leaves that may be filled next. -/
def offers (cursor : Option NodeId) : Edit (List NodeId) := do
  let start ← match cursor with
    | none => some <$> firstLeaf
    | some n => resume n
  match start with
  | none => pure []
  | some n => climb ((← get).lineage n) false

/-- The order in which offers are shown: by tag, and as found within a tag. -/
def sortForDisplay (d : Draft) (ns : List NodeId) : List NodeId :=
  ns.mergeSort fun a b => (d.tag a).le (d.tag b)

end Cloze.Draft
