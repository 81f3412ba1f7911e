import Cloze.Proofs.Changing

/-!
# Intact drafts

Every draft that is reached is intact (`intact_of_reached`): `Intact` lists what that means for its
numbers, for what is placed in it, and for the depth of its rules. A sound draft has all of it but
the numbers in notes. A note is written by a role, once a leaf is placed; that it names leaves only
is kept by each change to a draft (`Change.joined`).
-/

namespace Cloze.Draft

variable {d e : Draft} {g : Grammar}

/-- The nodes that a choice lies under, from the bottom up. -/
def holders (d : Draft) (c : ChoiceId) : List NodeId :=
  match (d.choice c).holder with
  | none => []
  | some n => d.lineage n

/-- What always holds of the parts of a draft. -/
structure Intact (d : Draft) : Prop where
  grammar : d.grammar.WellFormed
  root : d.HasChoice ⟨0⟩
  /-- A choice is built after one of the grammar, for a rule of the grammar. -/
  shape_of_choice : ∀ c, d.HasChoice c → (d.choice c).shape.index < d.grammar.choices.size ∧
    (d.choice c).rule.index < d.grammar.rules.size
  /-- A choice lists slots of the draft that know where they stand. -/
  slots_of_choice : ∀ c, d.HasChoice c → ∀ k j s, itemAt? (d.choice c).branches k j = some s →
    d.HasSlot s ∧ (d.slot s).choice = c ∧ (d.slot s).branch = k ∧ (d.slot s).position = j
  /-- A slot is listed where it says it stands. -/
  choice_of_slot : ∀ s, d.HasSlot s → d.HasChoice (d.slot s).choice ∧
    itemAt? (d.choice (d.slot s).choice).branches (d.slot s).branch (d.slot s).position = some s
  /-- The grammar has a slot where this one stands. -/
  shape_of_slot : ∀ s, d.HasSlot s → (d.slot s).shape.index < d.grammar.slots.size ∧
    itemAt? (d.grammar.branchesOf (d.choice (d.slot s).choice).shape) (d.slot s).branch
      (d.slot s).position = some (d.slot s).shape
  slot_of_node : ∀ n, d.HasNode n → d.HasSlot (d.node n).slot
  symbol_of_node : ∀ n, d.HasNode n → (d.node n).symbol.index < d.grammar.symbols.size
  rule_of_node : ∀ n r c, d.HasNode n → (d.node n).body = .rule r c →
    r.index < d.grammar.rules.size
  /-- A choice other than the root is the one that its holder stands for. -/
  holder_of_choice : ∀ c, d.HasChoice c → ((d.choice c).holder = none ↔ c = ⟨0⟩) ∧
    ∀ n, (d.choice c).holder = some n → d.HasNode n ∧ d.inner? n = some c
  choice_of_node : ∀ n c, d.HasNode n → d.inner? n = some c →
    d.HasChoice c ∧ (d.choice c).holder = some n
  gap_of_slot : ∀ s n, d.HasSlot s → (d.slot s).gap = some n → d.HasNode n ∧ (d.node n).slot = s
  /-- The blocks that joined a newline are leaves of the draft. -/
  blocks_of_node : ∀ n b, d.blocks? n = some b → ∀ m ∈ b.starts ++ b.ends, m ∈ d.leaves
  content_nodup : ∀ s, d.HasSlot s → (d.slot s).content.Nodup
  /-- A slot lists exactly the nodes placed in it. -/
  mem_content : ∀ s, d.HasSlot s → ∀ n, n ∈ (d.slot s).content ↔
    d.HasNode n ∧ d.isPlaced n = true ∧ (d.node n).slot = s
  position : ∀ s, d.HasSlot s → ∀ (i : Nat) n, (d.slot s).content[i]? = some n →
    (d.node n).position = i
  once : ∀ s, d.HasSlot s → d.multiplicity s = .once → (d.slot s).content.length ≤ 1
  /-- The branch taken is the one that holds a placed node. -/
  chosen_iff : ∀ c, d.HasChoice c → ∀ k, (d.choice c).chosen = some k ↔
    ∃ j s, itemAt? (d.choice c).branches k j = some s ∧ (d.slot s).content ≠ []
  chosen_only : ∀ c, d.HasChoice c → ∀ k, (d.choice c).chosen = some k → ∀ k' j s,
    itemAt? (d.choice c).branches k' j = some s → (d.slot s).content ≠ [] → k' = k
  /-- A group, option or reference is placed exactly if its choice has taken a branch. -/
  placed_iff : ∀ n, d.HasNode n → d.isLeaf n = false →
    (d.isPlaced n = true ↔ ∃ c k, d.inner? n = some c ∧ (d.choice c).chosen = some k)
  gap_position : ∀ n, d.HasNode n → d.isPlaced n = false →
    (d.node n).position ≤ (d.slot (d.node n).slot).content.length
  depth : ∀ c, d.HasChoice c →
    (d.choice c).depth = (d.holders c).countP fun n => (d.symbol n).isReference
  depth_le : ∀ c, d.HasChoice c → (d.choice c).depth ≤ d.settings.recursionLimit

/-! ### Numbers of the grammar -/

theorem Linked.shape_lt (h : d.Linked) {s : SlotId} (hs : d.HasSlot s) :
    (d.slot s).shape.index < d.grammar.slots.size := by
  obtain ⟨row, hrow, hmem⟩ := mem_of_itemAt? (h.itemAt?_shape (h.slot s hs).entry)
  exact h.grammar.slot _ row hrow _ hmem

theorem Linked.symbol_lt (h : d.Linked) {n : NodeId} (hn : d.HasNode n) :
    (d.node n).symbol.index < d.grammar.symbols.size := by
  have hs := h.shape_lt (h.node n hn).slot
  rw [(h.node n hn).symbol, slotSymbol, h.grammar.symbol _ hs, h.grammar.symbols]
  exact hs

/-! ### Depth -/

theorem Linked.depth_eq (h : d.Linked) {n : NodeId} (hn : d.HasNode n) {c : ChoiceId}
    (hc : d.inner? n = some c) :
    (d.choice c).depth = (d.lineage n).countP fun n => (d.symbol n).isReference := by
  induction n, hn using h.lineage_induction generalizing c with
  | top n hn hm =>
    have hroot : (d.choice (d.choiceAround n)).depth = 0 := by
      rw [h.root_of_holder?_eq_none hn hm]
      exact h.root_depth
    rw [(h.inner n c hn hc).depth, hroot, lineage_of_top hm, List.countP_singleton]
    simp
  | up n m hn hmn hm ih =>
    rw [(h.inner n c hn hc).depth, ih (h.inner?_holder hn hm), h.lineage_of_holder hn hm,
      List.countP_cons]

/-! ### Notes -/

/-- A change joins only leaves of the draft to a newline. -/
theorem Change.joined (hc : Change d e) (h : d.Sound) (hj : d.Joined) : e.Joined := by
  cases hc with
  | grow hk hw => exact hj.of_notes (fun m => (hw m).1) fun m hm => (hk.leaves h).symm ▸ hm
  | @token n value =>
    refine hj.of_notes (fun m => note_writeToken d n m value) fun m hm => ?_
    rwa [(retouches_writeToken d n value).leaves]
  | @place n hn hl hp hc =>
    refine hj.of_notes (fun m => ?_) ((fills_place hl hp hc).mem_leaves h hn).2
    obtain ⟨p, b, hmoved⟩ := moved_place d n m
    rw [hmoved]
  | act hn ha => exact hj.acts h hn ha

theorem Reached.joined (hg : g.WellFormed) (h : Reached g d) : d.Joined :=
  h.invariant hg (fun settings => joined_start g settings []) fun hd hc hj => hc.joined hd hj

/-! ### All drafts in use -/

theorem Sound.intact (h : d.Sound) (hj : d.Joined) : d.Intact where
  grammar := h.linked.grammar
  root := h.linked.root
  shape_of_choice := fun c hc => ⟨(h.linked.choice c hc).shape_lt, (h.linked.choice c hc).rule_lt⟩
  slots_of_choice := fun c hc => (h.linked.choice c hc).slots
  choice_of_slot := fun s hs => ⟨(h.linked.slot s hs).choice, (h.linked.slot s hs).entry⟩
  shape_of_slot := fun s hs => ⟨h.linked.shape_lt hs,
    h.linked.itemAt?_shape (h.linked.slot s hs).entry⟩
  slot_of_node := fun n hn => (h.linked.node n hn).slot
  symbol_of_node := fun n hn => h.linked.symbol_lt hn
  rule_of_node := fun n r c hn hb => h.linked.grammar.rule _ r (h.linked.kind_eq_rule hn hb)
  holder_of_choice := fun c hc => ⟨⟨(h.linked.choice c hc).root, fun hr => by
    rw [hr]
    exact h.linked.root_holder⟩, (h.linked.choice c hc).holder⟩
  choice_of_node := fun n c hn hc => ⟨(h.linked.inner n c hn hc).choice,
    (h.linked.inner n c hn hc).holder⟩
  gap_of_slot := fun s n _ hg => h.linked.gap s n hg
  blocks_of_node := hj
  content_nodup := fun s _ => h.settled.nodup s
  mem_content := fun s _ n => by
    rw [h.settled.content]
    exact ⟨fun hp => ⟨hasNode_of_placed hp.1, hp⟩, fun hp => hp.2⟩
  position := fun s _ => h.settled.position s
  once := fun s _ => h.settled.once s
  chosen_iff := fun c _ => h.settled.chosen c
  chosen_only := fun c _ k hk k' j s he hne => by
    have := (h.settled.chosen c k').2 ⟨j, s, he, hne⟩
    rw [hk] at this
    cases this
    rfl
  placed_iff := fun n hn hl => by
    rw [isPlaced, h.settled.inner n hn hl (by simp)]
    simp only [ne_eq, Option.ne_none_iff_exists', exists_and_left]
  gap_position := fun n hn hp => h.settled.gap n hn hp
  depth := fun c hc => by
    unfold holders
    rcases hh : (d.choice c).holder with _ | n
    · rw [(h.linked.choice c hc).root hh]
      exact h.linked.root_depth
    · obtain ⟨hn, hi⟩ := (h.linked.choice c hc).holder n hh
      exact h.linked.depth_eq hn hi
  depth_le := fun c hc => (h.linked.choice c hc).depth_le

/-- Whatever is done with a draft over a built grammar, it stays intact. -/
theorem intact_of_reached {definition : Grammar.Definition} (hg : definition.build = .ok g)
    (h : Reached g d) : d.Intact :=
  have hw := Grammar.Definition.wellFormed_build hg
  (h.sound hw).1.intact (h.joined hw)

theorem intact_oneItem : oneItem.leaves = [⟨0⟩, ⟨3⟩, ⟨6⟩] ∧ oneItem.Intact :=
  ⟨by decide +kernel, intact_of_reached build_lists reached_oneItem⟩

end Cloze.Draft
