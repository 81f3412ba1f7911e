import Cloze.Role
import Cloze.Tag

/-!
# Grammars

A grammar is a list of named rules. The body of a rule is a choice among branches, a branch is a
sequence of slots, and a slot is a symbol that occurs once, at least once, or any number of times.
Symbols are fixed texts, lexical categories, references to rules, and bracketed choices.

All parts are numbered, and kept in one table per kind. A part is entered after the parts inside
it, so a nested choice has a smaller number than the one around it.
-/

namespace Cloze

namespace Grammar

structure RuleId where
  index : Nat
deriving DecidableEq, Inhabited

structure ChoiceId where
  index : Nat
deriving DecidableEq, Inhabited

structure BranchId where
  index : Nat
deriving DecidableEq, Inhabited

structure SlotId where
  index : Nat
deriving DecidableEq, Inhabited

structure SymbolId where
  index : Nat
deriving DecidableEq, Inhabited

/-- How often the symbol of a slot may occur. -/
inductive Multiplicity where
  | once
  /-- One or more times. -/
  | plus
  /-- Any number of times. -/
  | star
deriving DecidableEq, Inhabited

/-- The mark written behind a symbol. -/
def Multiplicity.suffix : Multiplicity → String
  | once => ""
  | plus => "+"
  | star => "*"

inductive Kind where
  /-- A fixed text. -/
  | literal (text : String)
  /-- A lexical category, whose text is given when it is filled. -/
  | category (name : String)
  | rule (rule : RuleId)
  | group (body : ChoiceId)
  /-- A group that may be left out. -/
  | option (body : ChoiceId)
deriving DecidableEq, Inhabited

structure Symbol where
  kind : Kind
  tag : Tag
  role : Option Role
deriving DecidableEq, Inhabited

namespace Symbol

def isOption (s : Symbol) : Bool :=
  match s.kind with
  | .option _ => true
  | _ => false

/-- Whether the symbol stands for a choice of its own. -/
def isNode (s : Symbol) : Bool :=
  match s.kind with
  | .rule _ | .group _ | .option _ => true
  | .literal _ | .category _ => false

def isReference (s : Symbol) : Bool :=
  match s.kind with
  | .rule _ => true
  | _ => false

def literal? (s : Symbol) : Option String :=
  match s.kind with
  | .literal text => some text
  | _ => none

def category? (s : Symbol) : Option String :=
  match s.kind with
  | .category name => some name
  | _ => none

end Symbol

structure Rule where
  name : String
  body : ChoiceId
deriving DecidableEq, Inhabited

structure Slot where
  multiplicity : Multiplicity
  symbol : SymbolId
deriving DecidableEq, Inhabited

end Grammar

open Grammar in
/-- A grammar by its tables. -/
structure Grammar where
  rules : Array Rule
  choices : Array (List BranchId)
  branches : Array (List Grammar.SlotId)
  slots : Array Grammar.Slot
  symbols : Array Symbol
  start : RuleId
deriving Inhabited

namespace Grammar

def rule (g : Grammar) (r : RuleId) : Rule :=
  g.rules.getD r.index default

def slot (g : Grammar) (s : SlotId) : Slot :=
  g.slots.getD s.index default

def symbol (g : Grammar) (s : SymbolId) : Symbol :=
  g.symbols.getD s.index default

def branchIds (g : Grammar) (c : ChoiceId) : List BranchId :=
  g.choices.getD c.index []

def slotIds (g : Grammar) (b : BranchId) : List SlotId :=
  g.branches.getD b.index []

/-- The slots of each branch of a choice. -/
def branchesOf (g : Grammar) (c : ChoiceId) : List (List SlotId) :=
  (g.branchIds c).map g.slotIds

def ruleId? (g : Grammar) (name : String) : Option RuleId :=
  (g.rules.findIdx? fun r => r.name == name).map RuleId.mk

/-- The text shown for a symbol. -/
def symbolText (g : Grammar) (s : SymbolId) : String :=
  match (g.symbol s).kind with
  | .literal text => text
  | .category name => name
  | .rule r => (g.rule r).name
  | .group _ => "(...)"
  | .option _ => "[...]"

end Grammar

end Cloze
