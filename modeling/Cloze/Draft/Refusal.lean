import Cloze.Draft.Basic

/-!
# Refusals

The reasons for which an edit of a draft is refused, and the words in which it is said.
-/

namespace Cloze.Draft

/-- Something a role looks for around its node. -/
inductive Missing where
  | newlineBefore
  | nameBefore
  | statementAboveName
  | statementAbove
deriving DecidableEq

def Missing.message : Missing → String
  | newlineBefore => "newline on its left"
  | nameBefore => "name on its left"
  | statementAboveName => "statement above the assigned name"
  | statementAbove => "statement above it"

inductive Refusal where
  /-- The category does not accept the value. -/
  | tokenRejected (category value : String)
  | missingToken (category : String)
  | noSuchOffer (text : String)
  | notPlaced (node : NodeId)
  | notALeaf (node : NodeId)
  | slotFull (slot : SlotId)
  | missingContext (node : NodeId) (role : Role) (missing : Missing)
  | wrongNote (node : NodeId) (expected : Role)
  /-- The node lies in one branch of a choice that has taken another. -/
  | branchConflict (node : NodeId) (requested chosen : Nat)
  | tokenAlreadySet (node : NodeId)
  | fixedToken (node : NodeId)
  | outOfOrder (node : NodeId) (position length : Nat)
  | tooDeep (rule : String) (limit : Nat)
deriving DecidableEq

namespace Refusal

def message : Refusal → String
  | tokenRejected category value => s!"'{value}' is not a valid {category}"
  | missingToken category => s!"{category} needs a value before it can be committed"
  | noSuchOffer text => s!"no alternative matches '{text}'"
  | notPlaced node => s!"element {node.label} is not realized"
  | notALeaf node => s!"element {node.label} is not a leaf"
  | slotFull slot => s!"repetition {slot.label} is already full"
  | missingContext node role missing =>
    s!"{role.label} hook at element {node.label} found no {missing.message}"
  | wrongNote node expected => s!"element {node.label} does not carry {expected.label} state"
  | branchConflict node requested chosen =>
    s!"element {node.label} lies under concatenation {requested} but its alternation already chose {chosen}"
  | tokenAlreadySet node => s!"token of element {node.label} is already set"
  | fixedToken node => s!"element {node.label} is a literal, its token is fixed"
  | outOfOrder node position length =>
    s!"element {node.label} wants position {position} but its repetition holds {length}"
  | tooDeep rule limit => s!"rule nesting exceeded {limit} while expanding '{rule}'"

/-- The writer can mend it by another value or another choice. -/
def isRecoverable : Refusal → Bool
  | tokenRejected _ _ | missingToken _ | noSuchOffer _ => true
  | notPlaced _ | notALeaf _ | slotFull _ | missingContext _ _ _ | wrongNote _ _
  | branchConflict _ _ _ | tokenAlreadySet _ | fixedToken _ | outOfOrder _ _ _ | tooDeep _ _ =>
    false

end Refusal

end Cloze.Draft

namespace Cloze

/-- An edit changes the draft and yields a value, or is refused. What it changed before it was
refused stays. -/
abbrev Edit := EStateM Draft.Refusal Draft

end Cloze
