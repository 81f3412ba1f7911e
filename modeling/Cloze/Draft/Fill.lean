import Cloze.Draft.Layout

/-!
# Filling leaves

A leaf is filled by placing it together with the gaps above it. On every level the node goes to
its position in its slot, the nodes behind it move on by one, and the choice takes the node's
branch; that ends at the first choice that has taken its branch before. Whether a node may be
placed is checked in full before anything changes. What the leaf's role does comes last.
-/

namespace Cloze.Draft

/-- An edit that only looks at the draft. -/
def check (f : Draft → Except Refusal Unit) : Edit Unit := do
  match f (← get) with
  | .ok _ => pure ()
  | .error e => throw e

/-- An edit that leaves the draft as it was when it is refused. -/
def update (f : Draft → Except Refusal Draft) : Edit Unit := do
  match f (← get) with
  | .ok d => set d
  | .error e => throw e

/-! ### Tokens -/

/-- Whether a leaf takes a value. -/
def checkToken (d : Draft) (n : NodeId) (value : String) : Except Refusal Unit :=
  if !d.isLeaf n then
    .error (.notALeaf n)
  else if (d.literal? n).isSome then
    .error (.fixedToken n)
  else if (d.token? n).isSome then
    .error (.tokenAlreadySet n)
  else if (d.role? n).all (·.accepts value) then
    .ok ()
  else
    .error (.tokenRejected (d.caption n) value)

/-- Gives a leaf its value without placing it. -/
def giveToken (n : NodeId) (value : String) : Edit Unit := do
  check (·.checkToken n value)
  modify (·.writeToken n value)

/-- Gives a leaf that has no token the one its role has for this case. -/
def completeToken (n : NodeId) : Edit Unit := do
  let d ← get
  match d.token? n, (d.role? n).bind Role.defaultToken? with
  | some _, _ => pure ()
  | none, some token => set (d.writeToken n token)
  | none, none => throw (.missingToken (d.caption n))

/-! ### Places -/

/-- Whether the gaps of a lineage may be placed, from the bottom up. -/
def checkPlaceAlong (d : Draft) : List NodeId → Except Refusal Unit
  | [] => .ok ()
  | n :: above =>
    let node := d.node n
    let slot := d.slot node.slot
    if node.placed then
      .ok ()
    else if d.isFull node.slot then
      .error (.slotFull node.slot)
    else if node.position > slot.content.length then
      .error (.outOfOrder n node.position slot.content.length)
    else
      match (d.choice slot.choice).chosen with
      | some chosen =>
        if chosen = slot.branch then .ok () else .error (.branchConflict n slot.branch chosen)
      | none => checkPlaceAlong d above

def checkPlace (d : Draft) (n : NodeId) : Except Refusal Unit :=
  d.checkPlaceAlong (d.lineage n)

/-- The draft in which the given nodes stand one position further on. -/
def moveOn (d : Draft) (ns : List NodeId) : Draft :=
  ns.foldl (fun d n => d.modifyNode n fun node => { node with position := node.position + 1 }) d

/-- Puts a node at its position in its slot. -/
def insert (d : Draft) (n : NodeId) : Draft :=
  let node := d.node n
  let later := (d.slot node.slot).content.drop node.position
  let d := d.modifySlot node.slot fun slot =>
    { slot with content := slot.content.insertIdx node.position n }
  (d.moveOn later).modifyNode n fun node => { node with placed := true }

/-- Places the gaps of a lineage, from the bottom up, to the first choice that is settled. -/
def placeAlong (d : Draft) : List NodeId → Draft
  | [] => d
  | n :: above =>
    if d.isPlaced n then
      d
    else
      let slot := d.slot (d.node n).slot
      let d := d.insert n
      if (d.choice slot.choice).chosen.isSome then
        d
      else
        placeAlong (d.modifyChoice slot.choice fun c => { c with chosen := some slot.branch }) above

def place (d : Draft) (n : NodeId) : Draft :=
  d.placeAlong (d.lineage n)

/-! ### Leaves -/

/-- Fills a leaf that has a token or needs none. A placed leaf is left alone. -/
def fill (n : NodeId) : Edit Unit := do
  let d ← get
  if !d.isLeaf n then
    throw (.notALeaf n)
  else if d.isPlaced n then
    pure ()
  else
    check (·.checkPlace n)
    completeToken n
    modify (·.place n)
    update (·.onFill n)

/-- Fills a leaf, with a value if one is given. -/
def fillWith (n : NodeId) : (value : Option String) → Edit Unit
  | none => fill n
  | some value => do
    check (·.checkToken n value)
    check (·.checkPlace n)
    modify (·.writeToken n value)
    fill n

end Cloze.Draft
