import Cloze.Draft.Refusal

/-!
# How drafts grow

A draft grows by three moves: a choice is laid out with empty slots, a slot gets a gap, and a
reference to a rule gets the choice of its rule. Nothing made is ever removed, and none of the
moves places a node.
-/

namespace Cloze.Draft

/-- The slots of branches with the given lengths, counted on from `next`. -/
def numberSlots : (next : Nat) → (lengths : List Nat) → List (List SlotId)
  | _, [] => []
  | next, n :: lengths => (List.range' next n).map SlotId.mk :: numberSlots (next + n) lengths

/-- Empty slots for the branches of a choice, in order. -/
def freshSlots (c : ChoiceId) (branches : List (List Grammar.SlotId)) : List Slot :=
  branches.zipIdx.flatMap fun (branch, b) =>
    branch.zipIdx.map fun (shape, position) => { shape, choice := c, branch := b, position }

/-- The draft with one more choice, none of its branches taken. -/
def withChoice (d : Draft) (shape : Grammar.ChoiceId) (holder : Option NodeId)
    (rule : Grammar.RuleId) (depth : Nat) : Draft :=
  let branches := d.grammar.branchesOf shape
  { d with
    choices := d.choices.push {
      shape, holder, rule, depth
      branches := numberSlots d.slots.size (branches.map List.length)
      chosen := none }
    slots := d.slots ++ (freshSlots ⟨d.choices.size⟩ branches).toArray }

/-- The empty draft: the start rule's choice and nothing in it. -/
def start (grammar : Grammar) (settings : Settings)
    (unskippable : List Grammar.SymbolId) : Draft :=
  let empty : Draft :=
    { grammar, settings, unskippable, choices := #[], slots := #[], nodes := #[] }
  empty.withChoice (grammar.rule grammar.start).body none grammar.start 0

/-- The draft with one more gap, at the given position of a slot. -/
def withGap (d : Draft) (s : SlotId) (position : Nat) : Draft :=
  let n : NodeId := ⟨d.nodes.size⟩
  let symbol := d.slotSymbol s
  let around := d.choice (d.slot s).choice
  let add (d : Draft) (body : Body) : Draft :=
    { d with
      nodes := d.nodes.push { symbol, slot := s, position, placed := false, body, note := none }
      slots := d.slots.modify s.index fun slot => { slot with gap := some n } }
  match (d.grammar.symbol symbol).kind with
  | .literal _ | .category _ => add d (.leaf none)
  | .rule r => add d (.rule r none)
  | .group body | .option body =>
    add (d.withChoice body (some n) around.rule around.depth) (.group ⟨d.choices.size⟩)

/-- The slot's gap, if it is still one and wants the position. -/
def reusableGap? (d : Draft) (s : SlotId) (position : Nat) : Option NodeId :=
  (d.slot s).gap.filter fun n => !d.isPlaced n && (d.node n).position == position

/-- A gap at the given position of a slot. -/
def gap (s : SlotId) (position : Nat) : Edit NodeId := do
  let d ← get
  if d.isFull s then
    throw (.slotFull s)
  else
    match d.reusableGap? s position with
    | some n => pure n
    | none =>
      set (d.withGap s position)
      pure ⟨d.nodes.size⟩

/-- The draft with the choice of rule `r` laid out under the reference `n`. -/
def withExpansion (d : Draft) (n : NodeId) (r : Grammar.RuleId) (depth : Nat) : Draft :=
  (d.withChoice (d.grammar.rule r).body (some n) r depth).modifyNode n fun node =>
    { node with body := .rule r (some ⟨d.choices.size⟩) }

/-- The choice a node stands for, laid out if it is not there yet; none for a leaf. -/
def reveal (n : NodeId) : Edit (Option ChoiceId) := do
  let d ← get
  match (d.node n).body with
  | .leaf _ => pure none
  | .group c => pure (some c)
  | .rule _ (some c) => pure (some c)
  | .rule r none =>
    let depth := (d.choice (d.choiceAround n)).depth + 1
    if depth > d.settings.recursionLimit then
      throw (.tooDeep (d.grammar.rule r).name d.settings.recursionLimit)
    else
      set (d.withExpansion n r depth)
      pure (some ⟨d.choices.size⟩)

/-- The first node placed in a slot, or a gap there. -/
def firstIn (s : SlotId) : Edit NodeId := do
  match ((← get).slot s).content with
  | n :: _ => pure n
  | [] => gap s 0

/-- More levels than a search can go down. Going down, a rule is entered at most
`recursionLimit + 1` times, and between two rules lie groups nested in one rule's body, of which
there are fewer than choices. -/
def levels (d : Draft) : Nat :=
  (d.settings.recursionLimit + 2) * (d.grammar.choices.size + 1)

end Cloze.Draft
