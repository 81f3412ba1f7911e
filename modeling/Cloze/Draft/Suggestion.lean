import Cloze.Draft.Layout

/-!
# Suggested names

Where a name is wanted, the names bound in earlier statements are suggested: first those before
the outermost statement around the place, then those before the next one in, and so on, each time
the nearest first. The functions and variables of the settings follow.
-/

namespace Cloze.Draft

structure Suggestion where
  text : String
  tag : Tag
deriving DecidableEq

/-- The names bound in the statements a walk leads over. -/
def boundOn (d : Draft) (n : NodeId) (direction : Direction) : List String :=
  (d.walkTo n direction .statement).filterMap d.binding?

/-- The names that can be used in the innermost of the given statements, outermost first. -/
def visibleNames (d : Draft) : List NodeId → List String
  | [] => []
  | outer :: inner => d.boundOn outer .levelBefore ++ inner.flatMap (d.boundOn · .left)

/-- The suggestions at a leaf. A leaf that wants no name has none. -/
def suggestions (d : Draft) (n : NodeId) : Except Refusal (List Suggestion) :=
  if d.role? n != some .name then
    .ok []
  else
    match d.statementsAbove n with
    | [] => .error (.missingContext n .name .statementAbove)
    | statements =>
      let settings := d.settings
      let names := (d.visibleNames statements.reverse).eraseDups
      .ok <|
        names.map (⟨·, ⟨"var", settings.variableColor, 1⟩⟩)
          ++ settings.functionNames.map (⟨·, ⟨"func", settings.functionColor, 2⟩⟩)
          ++ settings.variableNames.map (⟨·, Tag.plain⟩)

end Cloze.Draft
