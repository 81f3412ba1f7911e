import Cloze.Draft.Suggestion
import Cloze.Proofs.Walking
import Cloze.Proofs.Whitespace

/-!
# Suggestions keep to the scope

Where no branch has statements in two of its slots (`HasScopes`), a walk to the left from a
statement leads over the statements before it in its own slot, and over no other. A walk along a
level is such a walk for a statement with nothing above it, and the outermost statement around a
node is one.

In the language laid out by indentation the names suggested are therefore those bound before the
statements around the place (`suggestions_respect_scope`), never one that is bound only later, in
a statement around the place, or in the block of another statement.
-/

namespace Cloze

/-- The whole is made of statements, and no branch has statements in two of its slots. -/
@[mk_iff]
structure Grammar.HasScopes (g : Grammar) : Prop where
  whole : ∀ row ∈ g.branchesOf (g.rule g.start).body, ∀ s ∈ row, g.roleAt s = some .statement
  single : ∀ row ∈ g.branches.toList,
    row.Pairwise fun s t => g.roleAt t = some .statement → g.roleAt s ≠ some .statement

instance (g : Grammar) : Decidable g.HasScopes :=
  decidable_of_iff _ (Grammar.hasScopes_iff g).symm

theorem Grammar.Offside.hasScopes {g : Grammar} (hg : Offside.grammar = .ok g) : g.HasScopes :=
  of_all hg (by decide +kernel)

namespace Draft

variable {d : Draft} {g : Grammar} {n m s x : NodeId}

/-! ### Nodes and the slots they stand in -/

/-- A slot stands in a branch shaped as the grammar has it. -/
theorem Linked.map_shape_mem (h : d.Linked) {s : SlotId} (hs : d.HasSlot s) :
    ((d.slotsBefore s).reverse ++ s :: d.slotsAfter s).map (fun t => (d.slot t).shape)
      ∈ d.grammar.branchesOf (d.choice (d.slot s).choice).shape := by
  have hslot := h.slot s hs
  obtain ⟨row, hrow, -⟩ := itemAt?_eq_some.1 hslot.entry
  have heq := h.row_eq hs
  rw [List.getD_eq_getElem?_getD, hrow, Option.getD_some] at heq
  rw [← (h.choice _ hslot.choice).shapes, ← heq]
  exact List.mem_map_of_mem (List.mem_of_getElem? hrow)

theorem Linked.role?_eq (h : d.Linked) (hn : d.HasNode n) :
    d.role? n = d.grammar.roleAt (d.slot (d.node n).slot).shape := by
  rw [role?, symbol, (h.node n hn).symbol]
  rfl

/-- The statements that stand before a statement in its slot, the nearest first. -/
def earlier (d : Draft) (s : NodeId) : List NodeId :=
  ((d.slot (d.node s).slot).content.take (d.node s).position).reverse

theorem Sound.mem_earlier (h : d.Sound) : m ∈ d.earlier s ↔ (d.node m).placed = true ∧
    (d.node m).slot = (d.node s).slot ∧ (d.node m).position < (d.node s).position := by
  rw [earlier, List.mem_reverse, List.mem_take_iff_getElem]
  constructor
  · rintro ⟨i, hi, rfl⟩
    rw [Nat.lt_min] at hi
    obtain ⟨hp, hslot⟩ := (h.settled.content _ _).1 (List.getElem_mem hi.2)
    exact ⟨hp, hslot, by rw [h.settled.position _ i _ (List.getElem?_eq_getElem hi.2)]; exact hi.1⟩
  · rintro ⟨hp, hslot, hlt⟩
    obtain ⟨i, hi, rfl⟩ := List.mem_iff_getElem.1 ((h.settled.content _ m).2 ⟨hp, hslot⟩)
    rw [h.settled.position _ i _ (List.getElem?_eq_getElem hi)] at hlt
    exact ⟨i, Nat.lt_min.2 ⟨hlt, hi⟩, rfl⟩

theorem Sound.role?_of_mem_earlier (h : d.Sound) (hs : d.HasNode s) (hm : m ∈ d.earlier s) :
    d.role? m = d.role? s := by
  obtain ⟨hp, hslot, -⟩ := h.mem_earlier.1 hm
  rw [h.linked.role?_eq (hasNode_of_placed hp), hslot, ← h.linked.role?_eq hs]

/-- The statements that a walk to the left leads over are those before it in its slot. -/
theorem Sound.walkTo_left (h : d.Sound) (hg : d.grammar.HasScopes) (hs : d.HasNode s)
    (hr : d.role? s = some .statement) : d.walkTo s .left .statement = d.earlier s := by
  have hslot := (h.linked.node s hs).slot
  have hrow := h.linked.map_shape_mem hslot
  rw [List.map_append, List.map_cons] at hrow
  have hsingle := hg.single _ (Grammar.mem_branches hrow
    (List.mem_append_right _ List.mem_cons_self))
  -- The slot of the statement is the only one of its branch with statements in it.
  have hbefore : ∀ m ∈ (d.slotsBefore (d.node s).slot).reverse.flatMap
      (fun t => (d.slot t).content), d.role? m ≠ some .statement := by
    intro m hm
    obtain ⟨t, ht, hmt⟩ := List.mem_flatMap.1 hm
    obtain ⟨hp, rfl⟩ := (h.settled.content t m).1 hmt
    rw [h.linked.role?_eq (hasNode_of_placed hp)]
    refine (List.pairwise_append.1 hsingle).2.2 _ (List.mem_map_of_mem ht) _ List.mem_cons_self ?_
    rw [← h.linked.role?_eq hs, hr]
  have hbeside : ∀ m ∈ d.earlier s, d.role? m = some .statement := fun m hm =>
    (h.role?_of_mem_earlier hs hm).trans hr
  rw [walkTo, h.walk_left hs, leftOf, List.reverse_append, List.filter_append]
  rw [List.filter_eq_self.2 fun m hm => by simpa using hbeside m hm,
    List.filter_eq_nil_iff.2 fun m hm => by simpa using hbefore m (List.mem_reverse.1 hm),
    List.append_nil]
  rfl

/-! ### The outermost statement -/

/-- With nothing above it, the level of a node is the choice it stands in. -/
theorem levelBefore_of_top (hm : d.holder? n = none) : d.levelBefore n = d.left n := by
  rw [levelBefore, ancestors, lineage_of_top hm]
  rfl

theorem Sound.walkWithin_levelBefore_of_top (h : d.Sound) : ∀ (bound : Nat) {n : NodeId},
    d.HasNode n → d.holder? n = none →
    d.walkWithin .levelBefore bound n = d.walkWithin .left bound n
  | 0, _, _, _ => rfl
  | bound + 1, n, hn, hm => by
    rw [walkWithin, walkWithin, step, step, levelBefore_of_top hm]
    rcases hleft : d.left n with _ | m
    · rfl
    · rw [h.left_eq hn] at hleft
      obtain ⟨hp, hc, -⟩ := h.settled.mem_sides h.linked hn
        (List.mem_append_left _ (List.mem_of_getLast? hleft))
      have htop : d.holder? m = none := by rw [holder?, hc, ← holder?, hm]
      exact congrArg (m :: ·) (h.walkWithin_levelBefore_of_top bound (hasNode_of_placed hp) htop)

/-- Every node stands in a statement with nothing above it, or is one. -/
theorem Linked.exists_outermost (h : d.Linked) (hg : d.grammar.HasScopes) (hn : d.HasNode n) :
    ∃ inner s, (d.lineage n).filter (fun m => d.role? m == some .statement) = inner ++ [s] ∧
      d.holder? s = none := by
  induction n, hn using h.lineage_induction with
  | top n hn hm =>
    refine ⟨[], n, ?_, hm⟩
    have hrow := h.map_shape_mem (h.node n hn).slot
    have hroot : (d.slot (d.node n).slot).choice = ⟨0⟩ := h.root_of_holder?_eq_none hn hm
    rw [hroot, ← Draft.root, h.root_shape] at hrow
    have hr : d.role? n = some .statement := by
      rw [h.role?_eq hn]
      exact hg.whole _ hrow _ (List.mem_map_of_mem (List.mem_append_right _ List.mem_cons_self))
    simp [lineage_of_top hm, hr]
  | up n m hn hm hh ih =>
    obtain ⟨inner, s, heq, hs⟩ := ih
    rw [h.lineage_of_holder hn hh, List.filter_cons, heq]
    split
    · exact ⟨n :: inner, s, rfl, hs⟩
    · exact ⟨inner, s, rfl, hs⟩

theorem Linked.hasNode_of_statementsAbove (h : d.Linked) (hn : d.HasNode n)
    (hs : s ∈ d.statementsAbove n) : d.HasNode s ∧ d.role? s = some .statement := by
  obtain ⟨hmem, hr⟩ := List.mem_filter.1 hs
  exact ⟨(h.index_le_of_mem_lineage hn (List.mem_of_mem_tail hmem)).1, by simpa using hr⟩

/-- Around a place for a name there is a statement with nothing above it. -/
theorem Linked.exists_statementsAbove (h : d.Linked) (hg : d.grammar.HasScopes) (hx : d.HasNode x)
    (hr : d.role? x = some .name) :
    ∃ inner s, d.statementsAbove x = inner ++ [s] ∧ d.holder? s = none := by
  obtain ⟨rest, hrest⟩ := d.exists_lineage_eq_cons x
  obtain ⟨inner, s, heq, hs⟩ := h.exists_outermost hg hx
  rw [hrest, List.filter_cons_of_neg (by simp [hr])] at heq
  exact ⟨inner, s, by rw [statementsAbove, ancestors, hrest, List.tail_cons, heq], hs⟩

/-- What can be used in a place was bound in the statements before those around it. -/
theorem Sound.visibleNames_reverse (h : d.Sound) (hg : d.grammar.HasScopes) (hx : d.HasNode x)
    (hr : d.role? x = some .name) :
    d.visibleNames (d.statementsAbove x).reverse
      = (d.statementsAbove x).reverse.flatMap fun s => (d.earlier s).filterMap d.binding? := by
  have hnode : ∀ s ∈ d.statementsAbove x, d.walkTo s .left .statement = d.earlier s := fun s hs =>
    have ⟨hn, hrole⟩ := h.linked.hasNode_of_statementsAbove hx hs
    h.walkTo_left hg hn hrole
  obtain ⟨inner, s, heq, hs⟩ := h.linked.exists_statementsAbove hg hx hr
  rw [heq] at hnode
  have houter : d.walkTo s .levelBefore .statement = d.earlier s := by
    have hs' : s ∈ d.statementsAbove x := heq ▸ List.mem_append_right _ List.mem_cons_self
    rw [← hnode s (List.mem_append_right _ List.mem_cons_self), walkTo, walk,
      h.walkWithin_levelBefore_of_top _ (h.linked.hasNode_of_statementsAbove hx hs').1 hs]
    rfl
  rw [heq, List.reverse_append, List.reverse_singleton, List.singleton_append, visibleNames,
    boundOn, houter, List.flatMap_cons]
  refine congrArg _ (List.flatMap_congr fun m hm => ?_)
  rw [boundOn, hnode m (List.mem_append_left _ (List.mem_reverse.1 hm))]

/-- Where a name is wanted, the names bound in the statements before those around the place are
suggested, from the outermost inwards and each time the nearest first. -/
theorem suggestions_respect_scope (hg : Grammar.Offside.grammar = .ok g) (h : Reached g d)
    (hx : d.HasNode x) (hr : d.role? x = some .name) :
    ∃ names, d.suggestions x = .ok (
        names.map (⟨·, ⟨"var", d.settings.variableColor, 1⟩⟩)
          ++ d.settings.functionNames.map (⟨·, ⟨"func", d.settings.functionColor, 2⟩⟩)
          ++ d.settings.variableNames.map (⟨·, Tag.plain⟩)) ∧
      names = ((d.statementsAbove x).reverse.flatMap fun s =>
        (d.earlier s).filterMap d.binding?).eraseDups ∧
      ∀ name ∈ names, ∃ s ∈ d.statementsAbove x, ∃ m ∈ d.earlier s,
        d.binding? m = some name ∧ d.role? m = some .statement ∧ m ∉ d.statementsAbove x := by
  obtain ⟨hs, hgrammar⟩ := h.sound (Grammar.Definition.wellFormed_build hg)
  have hscopes := Grammar.Offside.hasScopes hg
  rw [← hgrammar] at hscopes
  obtain ⟨inner, top, habove, -⟩ := hs.linked.exists_statementsAbove hscopes hx hr
  refine ⟨_, ?_, rfl, fun name hname => ?_⟩
  · rw [← hs.visibleNames_reverse hscopes hx hr, suggestions, if_neg (by simp [hr])]
    split
    · rename_i hnil
      simp [hnil] at habove
    · rfl
  · obtain ⟨s, hsx, hname⟩ := List.mem_flatMap.1 (List.mem_eraseDups.1 hname)
    obtain ⟨m, hm, hbound⟩ := List.mem_filterMap.1 hname
    rw [List.mem_reverse] at hsx
    refine ⟨s, hsx, m, hm, hbound, ?_, fun hmx => ?_⟩
    · obtain ⟨hn, hrole⟩ := hs.linked.hasNode_of_statementsAbove hx hsx
      exact (hs.role?_of_mem_earlier hn hm).trans hrole
    · -- A lineage passes every choice once, so the two would be one statement.
      obtain ⟨hp, hslot, hlt⟩ := hs.mem_earlier.1 hm
      have hlineage : ∀ {k}, k ∈ d.statementsAbove x → k ∈ d.lineage x := fun hk =>
        List.mem_of_mem_tail (List.mem_filter.1 hk).1
      have heq := hs.linked.eq_of_choiceAround hx (hlineage hmx) (hlineage hsx)
        (by rw [choiceAround, choiceAround, hslot])
      exact absurd hlt (heq ▸ Nat.lt_irrefl _)

/-- A line that starts an assignment to `x`, and the search behind it. -/
def behindAssignment : List Call :=
  [.offers none, .fillWith ⟨11⟩ (some "x"), .offers (some ⟨11⟩), .fillWith ⟨53⟩ none,
    .fillWith ⟨54⟩ none, .offers (some ⟨54⟩)]

/-- A name in the next line may be `x`. -/
theorem suggestions_behindAssignment : ∃ g d, Grammar.Offside.grammar = .ok g ∧ Reached g d ∧
    d.HasNode ⟨66⟩ ∧ d.role? ⟨66⟩ = some .name ∧ d.suggestions ⟨66⟩ = .ok
      [⟨"x", ⟨"var", 0xFF6A8759, 1⟩⟩, ⟨"f", ⟨"func", 0xFFFFC66D, 2⟩⟩, ⟨"v", Tag.plain⟩] := by
  have hrun : Grammar.Offside.grammar.toOption.any (fun g =>
      ((Draft.start g { functionNames := ["f"], variableNames := ["v"] } []).callAll?
        behindAssignment).any fun d => d.HasNode ⟨66⟩ ∧ d.role? ⟨66⟩ = some .name ∧
          d.statementsAbove ⟨66⟩ = [⟨55⟩] ∧ (d.earlier ⟨55⟩).filterMap d.binding? = ["x"] ∧
          d.settings = { functionNames := ["f"], variableNames := ["v"] }) = true := by
    decide +kernel
  obtain ⟨g, hg, hrun⟩ := Grammar.Offside.exists_of_any hrun
  obtain ⟨d, hd, hrun⟩ := (Option.any_eq_true _ _).1 hrun
  obtain ⟨hx, hr, habove, hbound, hsettings⟩ := of_decide_eq_true hrun
  have h : Reached g d := Reached.callAll? (.start _) hd
  obtain ⟨_, hfound, rfl, -⟩ := suggestions_respect_scope hg h hx hr
  refine ⟨g, d, hg, h, hx, hr, ?_⟩
  rw [hfound, habove, hsettings, List.reverse_singleton, List.flatMap_singleton, hbound]
  rfl

end Draft

end Cloze
