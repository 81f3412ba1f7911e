import Cloze.Grammar.Basic

/-!
# Definitions of grammars

A definition is a grammar as it is written down: bodies nested as they read, rules referred to by
name, roles and tags bound to the text of symbols. `Definition.build` numbers the parts and
resolves the names. It takes the parts in reading order and each part after those inside it.
-/

namespace Cloze

namespace Grammar

/-- One slot of a sequence as it is written down. -/
inductive Item where
  | literal (text : String) (times : Multiplicity)
  | category (name : String) (times : Multiplicity)
  | rule (name : String) (times : Multiplicity)
  | group (body : List (List Item)) (times : Multiplicity)
  | option (body : List (List Item)) (times : Multiplicity)

/-- The branches of a choice as they are written down. -/
abbrev Body := List (List Item)

/-- What makes a definition no grammar. -/
inductive DefinitionError where
  | noRules
  | duplicateRule (name : String)
  | unknownRule (rule name : String)
  | unknownStart (name : String)
  /-- A choice without branches or a branch without slots, somewhere in the rule. -/
  | emptyBranch (rule : String)
deriving DecidableEq

def DefinitionError.message : DefinitionError → String
  | noRules => "grammar has no rules"
  | duplicateRule name => s!"rule '{name}' is defined more than once"
  | unknownRule rule name => s!"rule '{rule}' references unknown rule '{name}'"
  | unknownStart name => s!"start rule '{name}' is not defined"
  | emptyBranch rule => s!"rule '{rule}' contains an empty alternation or sequence"

structure Definition where
  rules : List (String × Body) := []
  /-- Roles by symbol text; of two for one text the later holds. -/
  roles : List (String × Role) := []
  /-- Tags by symbol text; of two for one text the later holds. -/
  tags : List (String × Tag) := []
  /-- The first rule unless given. -/
  start : Option String := none

namespace Definition

def role? (d : Definition) (text : String) : Option Role :=
  d.roles.reverse.lookup text

def tag (d : Definition) (text : String) : Tag :=
  (d.tags.reverse.lookup text).getD Tag.plain

/-- The number of the rule of that name. -/
def ruleId? (d : Definition) (name : String) : Option RuleId :=
  (d.rules.findIdx? fun r => r.1 == name).map RuleId.mk

/-- The first name that also stands earlier in the list. -/
def firstRepeated : (seen names : List String) → Option String
  | _, [] => none
  | seen, name :: names =>
    if seen.contains name then some name else firstRepeated (name :: seen) names

/-- The parts numbered so far. -/
structure Parts where
  choices : Array (List BranchId) := #[]
  branches : Array (List SlotId) := #[]
  slots : Array Slot := #[]
  symbols : Array Symbol := #[]
deriving Inhabited

/-- Numbering: the parts grow, and the first fault ends it. -/
abbrev Numbering := StateT Parts (Except DefinitionError)

def addChoice (branches : List BranchId) : Numbering ChoiceId := fun p =>
  .ok (⟨p.choices.size⟩, { p with choices := p.choices.push branches })

def addBranch (slots : List SlotId) : Numbering BranchId := fun p =>
  .ok (⟨p.branches.size⟩, { p with branches := p.branches.push slots })

def addSlot (slot : Slot) : Numbering SlotId := fun p =>
  .ok (⟨p.slots.size⟩, { p with slots := p.slots.push slot })

def addSymbol (symbol : Symbol) : Numbering SymbolId := fun p =>
  .ok (⟨p.symbols.size⟩, { p with symbols := p.symbols.push symbol })

/-- A symbol that is bound by its text. -/
def addNamed (d : Definition) (text : String) (kind : Kind) : Numbering SymbolId :=
  addSymbol ⟨kind, d.tag text, d.role? text⟩

/-- A bracketed choice, which nothing is bound to. -/
def addBracketed (kind : Kind) : Numbering SymbolId :=
  addSymbol ⟨kind, Tag.plain, none⟩

mutual

/-- Numbers a slot and all inside it; `rule` is the name of the rule it stands in. -/
def numberItem (d : Definition) (rule : String) : Item → Numbering SlotId
  | .literal text times => do
    let symbol ← d.addNamed text (.literal text)
    addSlot ⟨times, symbol⟩
  | .category name times => do
    let symbol ← d.addNamed name (.category name)
    addSlot ⟨times, symbol⟩
  | .rule name times => do
    match d.ruleId? name with
    | none => throw (.unknownRule rule name)
    | some r =>
      let symbol ← d.addNamed name (.rule r)
      addSlot ⟨times, symbol⟩
  | .group body times => do
    let choice ← numberBody d rule body
    let symbol ← addBracketed (.group choice)
    addSlot ⟨times, symbol⟩
  | .option body times => do
    let choice ← numberBody d rule body
    let symbol ← addBracketed (.option choice)
    addSlot ⟨times, symbol⟩

def numberItems (d : Definition) (rule : String) : List Item → Numbering (List SlotId)
  | [] => pure []
  | item :: items => do
    let slot ← numberItem d rule item
    let slots ← numberItems d rule items
    pure (slot :: slots)

def numberBranch (d : Definition) (rule : String) : List Item → Numbering BranchId
  | [] => throw (.emptyBranch rule)
  | item :: items => do
    let slot ← numberItem d rule item
    let slots ← numberItems d rule items
    addBranch (slot :: slots)

def numberBranches (d : Definition) (rule : String) :
    List (List Item) → Numbering (List BranchId)
  | [] => pure []
  | branch :: branches => do
    let first ← numberBranch d rule branch
    let rest ← numberBranches d rule branches
    pure (first :: rest)

def numberBody (d : Definition) (rule : String) : List (List Item) → Numbering ChoiceId
  | [] => throw (.emptyBranch rule)
  | branch :: branches => do
    let first ← numberBranch d rule branch
    let rest ← numberBranches d rule branches
    addChoice (first :: rest)

end

def numberRules (d : Definition) : List (String × Body) → Numbering (List Rule)
  | [] => pure []
  | (name, body) :: rules => do
    let choice ← d.numberBody name body
    let rest ← numberRules d rules
    pure (⟨name, choice⟩ :: rest)

/-- The start rule's number, by its name if one is given. -/
def startId (d : Definition) : Except DefinitionError RuleId :=
  match d.start with
  | none => .ok ⟨0⟩
  | some name =>
    match d.ruleId? name with
    | none => .error (.unknownStart name)
    | some r => .ok r

/-- The grammar a definition describes, or the first fault found. -/
def build (d : Definition) : Except DefinitionError Grammar := do
  if d.rules.isEmpty then throw .noRules
  match firstRepeated [] (d.rules.map (·.1)) with
  | some name => throw (.duplicateRule name)
  | none =>
    let start ← d.startId
    let (rules, parts) ← (d.numberRules d.rules).run {}
    pure {
      rules := rules.toArray
      choices := parts.choices
      branches := parts.branches
      slots := parts.slots
      symbols := parts.symbols
      start
    }

end Definition

end Grammar

end Cloze
