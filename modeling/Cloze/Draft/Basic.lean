import Cloze.Grammar.Basic

/-!
# Drafts

A draft is a program under construction, shaped like its grammar. A choice has one list of slots
per branch; a slot holds the nodes placed in it so far; a node is a leaf, which carries a token,
or stands for a choice of its own. The branch of a choice is settled by the first node placed in
it and never changes.

Beside its content a slot remembers one gap: a node that is not placed yet, made for the position
where the next occurrence would go. Gaps given up are never removed, so the number of a node is
the number of nodes made before it. A reference to a rule gets its choice when that is first
needed; a group or option gets it at once. A node is made after the node that holds it, hence
numbers fall on the way up.
-/

namespace Cloze

/-- What a user may change: how a draft is laid out and searched, and what is suggested where a
name is wanted. -/
structure Settings where
  /-- Written once per level of indentation. -/
  indentUnit : String := "    "
  /-- Rules nested deeper than this are not expanded. -/
  recursionLimit : Nat := 2000
  /-- Whether symbols found unskippable are remembered. -/
  memoize : Bool := true
  functionNames : List String := ["print", "len", "int", "input", "float"]
  variableNames : List String := ["self", "lst", "result", "some_var"]
  variableColor : UInt32 := 0xFF6A8759
  functionColor : UInt32 := 0xFFFFC66D
deriving DecidableEq

namespace Draft

structure NodeId where
  index : Nat
deriving DecidableEq, Inhabited

structure SlotId where
  index : Nat
deriving DecidableEq, Inhabited

structure ChoiceId where
  index : Nat
deriving DecidableEq, Inhabited

def NodeId.label (n : NodeId) : String := s!"e{n.index}"

def SlotId.label (s : SlotId) : String := s!"p{s.index}"

def ChoiceId.label (c : ChoiceId) : String := s!"a{c.index}"

/-- The block starts and ends that belong to a newline, in the order they were filled. -/
structure Blocks where
  starts : List NodeId := []
  ends : List NodeId := []
deriving DecidableEq

/-- The last block start, or the last block end if there is no start. -/
def Blocks.last? (b : Blocks) : Option NodeId :=
  b.starts.getLast? <|> b.ends.getLast?

/-- What a role keeps at a node. -/
inductive Note where
  | newline (blocks : Blocks)
  /-- The name an assignment in the statement binds. -/
  | statement (binding : Option String)
deriving DecidableEq

inductive Body where
  | leaf (token : Option String)
  | group (choice : ChoiceId)
  /-- A reference to a rule, with its choice once that was needed. -/
  | rule (rule : Grammar.RuleId) (choice : Option ChoiceId)
deriving DecidableEq, Inhabited

structure Node where
  symbol : Grammar.SymbolId
  slot : SlotId
  /-- The place in the slot: taken if the node is placed, wanted if it is a gap. -/
  position : Nat
  placed : Bool
  body : Body
  note : Option Note
deriving DecidableEq, Inhabited

structure Slot where
  shape : Grammar.SlotId
  choice : ChoiceId
  /-- The branch of the choice it stands in. -/
  branch : Nat
  /-- Its place in the branch. -/
  position : Nat
  content : List NodeId := []
  gap : Option NodeId := none
deriving DecidableEq, Inhabited

structure Choice where
  shape : Grammar.ChoiceId
  /-- The node it belongs to; none for the root. -/
  holder : Option NodeId
  /-- The rule whose expansion it is part of. -/
  rule : Grammar.RuleId
  /-- How many references to rules lie above it. -/
  depth : Nat
  branches : List (List SlotId)
  chosen : Option Nat
deriving DecidableEq, Inhabited

end Draft

open Draft in
/-- A program under construction. Choice 0 is the root. -/
structure Draft where
  grammar : Grammar
  settings : Settings
  /-- Symbols that a search has found impossible to skip. -/
  unskippable : List Grammar.SymbolId
  choices : Array Choice
  slots : Array Draft.Slot
  nodes : Array Node

namespace Draft

variable (d : Draft)

def node (n : NodeId) : Node :=
  d.nodes.getD n.index default

def slot (s : SlotId) : Slot :=
  d.slots.getD s.index default

def choice (c : ChoiceId) : Choice :=
  d.choices.getD c.index default

def root : Choice :=
  d.choice ⟨0⟩

def modifyNode (n : NodeId) (f : Node → Node) : Draft :=
  { d with nodes := d.nodes.modify n.index f }

def modifySlot (s : SlotId) (f : Slot → Slot) : Draft :=
  { d with slots := d.slots.modify s.index f }

def modifyChoice (c : ChoiceId) (f : Choice → Choice) : Draft :=
  { d with choices := d.choices.modify c.index f }

/-! ### Slots -/

def multiplicity (s : SlotId) : Grammar.Multiplicity :=
  (d.grammar.slot (d.slot s).shape).multiplicity

def slotSymbol (s : SlotId) : Grammar.SymbolId :=
  (d.grammar.slot (d.slot s).shape).symbol

/-- Nothing more goes into the slot. -/
def isFull (s : SlotId) : Bool :=
  d.multiplicity s == .once && !(d.slot s).content.isEmpty

/-- An empty slot that may stay empty whatever its symbol stands for. -/
def isFree (s : SlotId) : Bool :=
  d.multiplicity s == .star || (d.grammar.symbol (d.slotSymbol s)).isOption

/-- The slots of its branch that stand before it, nearest first. -/
def slotsBefore (s : SlotId) : List SlotId :=
  let here := d.slot s
  (((d.choice here.choice).branches.getD here.branch []).take here.position).reverse

/-- The slots of its branch that stand behind it. -/
def slotsAfter (s : SlotId) : List SlotId :=
  let here := d.slot s
  ((d.choice here.choice).branches.getD here.branch []).drop (here.position + 1)

/-! ### Nodes -/

def symbol (n : NodeId) : Grammar.Symbol :=
  d.grammar.symbol (d.node n).symbol

def role? (n : NodeId) : Option Role :=
  (d.symbol n).role

def tag (n : NodeId) : Tag :=
  (d.symbol n).tag

/-- The text, category or rule name that a node is shown as. -/
def caption (n : NodeId) : String :=
  d.grammar.symbolText (d.node n).symbol

def category? (n : NodeId) : Option String :=
  (d.symbol n).category?

def literal? (n : NodeId) : Option String :=
  (d.symbol n).literal?

def isLeaf (n : NodeId) : Bool :=
  match (d.node n).body with
  | .leaf _ => true
  | .group _ | .rule _ _ => false

def isPlaced (n : NodeId) : Bool :=
  (d.node n).placed

/-- A literal has its own text; any other leaf has the value it was given. -/
def token? (n : NodeId) : Option String :=
  match d.literal? n, (d.node n).body with
  | some text, _ => some text
  | none, .leaf token => token
  | none, .group _ | none, .rule _ _ => none

/-- The choice a node stands for, if it is there already. -/
def inner? (n : NodeId) : Option ChoiceId :=
  match (d.node n).body with
  | .leaf _ => none
  | .group c => some c
  | .rule _ c => c

/-- The choice a node stands in. -/
def choiceAround (n : NodeId) : ChoiceId :=
  (d.slot (d.node n).slot).choice

/-- The node one level up. -/
def holder? (n : NodeId) : Option NodeId :=
  (d.choice (d.choiceAround n)).holder

/-- The node and at most `bound` nodes above it, from the bottom up. -/
def lineageWithin : (bound : Nat) → NodeId → List NodeId
  | 0, n => [n]
  | bound + 1, n =>
    match d.holder? n with
    | none => [n]
    | some h => n :: lineageWithin bound h

/-- The node and all nodes above it, from the bottom up. Numbers fall on the way up, so its own
number bounds how many there are. -/
def lineage (n : NodeId) : List NodeId :=
  d.lineageWithin n.index n

/-- The nodes above a node, from the bottom up. -/
def ancestors (n : NodeId) : List NodeId :=
  (d.lineage n).tail

/-- The name of the rule whose expansion the node is part of. -/
def ruleName (n : NodeId) : String :=
  (d.grammar.rule (d.choice (d.choiceAround n)).rule).name

def rootName : String :=
  (d.grammar.rule d.root.rule).name

/-! ### Content -/

/-- The slots of the branch taken. -/
def chosenSlots (c : ChoiceId) : List SlotId :=
  match (d.choice c).chosen with
  | none => []
  | some k => (d.choice c).branches.getD k []

/-- The nodes placed directly in a choice, in reading order. -/
def contentOf (c : ChoiceId) : List NodeId :=
  (d.chosenSlots c).flatMap fun s => (d.slot s).content

def top : List NodeId :=
  d.contentOf ⟨0⟩

/-- The nodes placed directly under a node, in reading order. -/
def children (n : NodeId) : List NodeId :=
  match d.inner? n with
  | none => []
  | some c => d.contentOf c

/-- The leaves under a node that are at most `bound` levels down. -/
def leavesWithin : (bound : Nat) → NodeId → List NodeId
  | 0, _ => []
  | bound + 1, n => if d.isLeaf n then [n] else (d.children n).flatMap (leavesWithin bound)

/-- The leaves placed so far, in reading order. -/
def leaves : List NodeId :=
  d.top.flatMap (d.leavesWithin d.nodes.size)

end Draft

end Cloze
