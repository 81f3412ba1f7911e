import Cloze.Draft.Fill
import Cloze.Proofs.Growing

/-!
# What is placed in a draft

`Settled` says how the nodes placed in a draft lie: a slot lists exactly the nodes placed in it,
each at its position, at most one of them if the symbol occurs once; a choice has taken the branch
that holds a placed node; and a node that stands for a choice is placed exactly if that choice has
taken a branch. A gap wants a position that its slot can give it.

Growth keeps a draft settled (`Settled.of_grows`). Filling a leaf places the gaps above it one by
one, from the bottom up; between two of them the draft is settled but for the node that comes next
(`SettledBut`), and `SettledBut.enter` is the step.
-/

namespace Cloze.Draft

/-- A settled draft, but for a node that is still a gap although its choice has taken a branch. -/
structure SettledBut (next : Option NodeId) (d : Draft) : Prop where
  content : ∀ s n, n ∈ (d.slot s).content ↔ (d.node n).placed = true ∧ (d.node n).slot = s
  position : ∀ s (i : Nat) n, (d.slot s).content[i]? = some n → (d.node n).position = i
  once : ∀ s, d.multiplicity s = .once → (d.slot s).content.length ≤ 1
  chosen : ∀ c k, (d.choice c).chosen = some k ↔
    ∃ j s, itemAt? (d.choice c).branches k j = some s ∧ (d.slot s).content ≠ []
  inner : ∀ n, d.HasNode n → d.isLeaf n = false → next ≠ some n →
    ((d.node n).placed = true ↔ ∃ c, d.inner? n = some c ∧ (d.choice c).chosen ≠ none)
  next : ∀ n, next = some n → d.HasNode n ∧ (d.node n).placed = false ∧ d.isLeaf n = false ∧
    ∃ c, d.inner? n = some c ∧ (d.choice c).chosen ≠ none
  gap : ∀ n, d.HasNode n → (d.node n).placed = false →
    (d.node n).position ≤ (d.slot (d.node n).slot).content.length

/-- What is placed in a draft lies as it should. -/
abbrev Settled (d : Draft) : Prop := SettledBut none d

variable {d e : Draft}

/-- A placed node is found at its position. -/
theorem SettledBut.content_at {next : Option NodeId} (h : SettledBut next d) {n : NodeId}
    (hp : (d.node n).placed = true) :
    (d.slot (d.node n).slot).content[(d.node n).position]? = some n := by
  obtain ⟨i, hi⟩ := List.mem_iff_getElem?.1 ((h.content _ n).2 ⟨hp, rfl⟩)
  rw [h.position _ i n hi, hi]

theorem settled_start (g : Grammar) (settings : Settings) (u : List Grammar.SymbolId) :
    (start g settings u).Settled := by
  have hl := lays_start g settings u
  have hnode : ∀ n, ((start g settings u).node n).placed = false := fun n => by
    rw [node_of_not_has (by simp [HasNode, start, withChoice])]
    rfl
  have hnone : ∀ n, ¬ (start g settings u).HasNode n := fun n hn => by
    simp [HasNode, start, withChoice] at hn
  have hslot : ∀ s, ((start g settings u).slot s).content = [] := fun s =>
    (hl.slot_new s (by simp [HasSlot])).1
  have hchosen : ∀ c, ((start g settings u).choice c).chosen = none := fun c =>
    hl.chosen_new c (by simp [HasChoice])
  refine ⟨fun s n => ?_, fun s i n hi => ?_, fun s _ => ?_, fun c k => ?_,
    fun n hn => absurd hn (hnone n), by simp, fun n hn => absurd hn (hnone n)⟩
  · simp [hslot, hnode]
  · simp [hslot] at hi
  · simp [hslot]
  · simp [hslot, hchosen]

/-- The choice of a node in a draft that grew is the one it had, or is new and not taken. -/
theorem Linked.inner?_of_grows (h : d.Linked) (hg : Grows d e) (he : e.Linked) {n : NodeId}
    (hn : e.HasNode n) {c : ChoiceId} (hc : e.inner? n = some c) :
    (d.HasNode n ∧ d.inner? n = some c) ∨ (d.choice c).chosen = none := by
  have ho := he.inner n c hn hc
  by_cases hdc : d.HasChoice c
  · have hh := ho.holder
    rw [hg.choice c hdc] at hh
    exact Or.inl ((h.choice c hdc).holder n hh)
  · exact Or.inr (by rw [choice_of_not_has hdc]; rfl)

/-- Growth keeps a draft settled if new gaps want positions they can have. -/
theorem SettledBut.of_grows (hs : d.Settled) (h : d.Linked) (hg : Grows d e) (he : e.Linked)
    (hgap : ∀ n, ¬ d.HasNode n → e.HasNode n →
      (e.node n).position ≤ (e.slot (e.node n).slot).content.length) : e.Settled := by
  refine ⟨fun s n => ?_, fun s i n hi => ?_, fun s hm => ?_, fun c k => ?_, fun n hn hl _ => ?_,
    by simp, fun n hn hp => ?_⟩
  · rw [hg.content, hg.placed, hs.content]
    refine and_congr_right fun hp => ?_
    rw [(hg.node_eq (hasNode_of_placed hp)).2.1]
  · rw [hg.content] at hi
    have hp := ((hs.content s n).1 (List.mem_of_getElem? hi)).1
    rw [(hg.node_eq (hasNode_of_placed hp)).2.2.1]
    exact hs.position s i n hi
  · rw [hg.content]
    by_cases hds : d.HasSlot s
    · exact hs.once s (by rwa [← hg.multiplicity hds])
    · rw [slot_of_not_has hds]
      exact Nat.zero_le _
  · rw [hg.chosen, hs.chosen]
    by_cases hdc : d.HasChoice c
    · simp only [hg.choice c hdc, hg.content]
    · refine ⟨fun ⟨j, s, hk, _⟩ => absurd (hasChoice_of_itemAt? hk) hdc, fun ⟨j, s, hk, hne⟩ => ?_⟩
      exfalso
      rw [hg.content] at hne
      obtain ⟨n, hn⟩ := List.exists_mem_of_ne_nil _ hne
      have hds := hasSlot_of_mem hn
      have hsc := ((he.choice c (hasChoice_of_itemAt? hk)).slots k j s hk).2.1
      rw [(hg.slot_eq hds).2.1] at hsc
      exact hdc (hsc ▸ (h.slot s hds).choice)
  · rw [hg.placed]
    constructor
    · intro hp
      have hdn := hasNode_of_placed hp
      obtain ⟨c, hc, hne⟩ := (hs.inner n hdn (by rwa [← hg.isLeaf hdn]) (by simp)).1 hp
      exact ⟨c, hg.inner? hdn hc, by rwa [hg.chosen]⟩
    · rintro ⟨c, hc, hne⟩
      rw [hg.chosen] at hne
      rcases h.inner?_of_grows hg he hn hc with ⟨hdn, hdc⟩ | hnone
      · exact (hs.inner n hdn (by rwa [← hg.isLeaf hdn]) (by simp)).2 ⟨c, hdc, hne⟩
      · exact absurd hnone hne
  · by_cases hdn : d.HasNode n
    · rw [hg.placed] at hp
      rw [(hg.node_eq hdn).2.1, (hg.node_eq hdn).2.2.1, hg.content]
      exact hs.gap n hdn hp
    · exact hgap n hdn hn

/-! ### Changes that keep the links -/

/-- The parts and their links are the same; what is placed, tokens and notes may differ. -/
structure SameLinks (d e : Draft) : Prop where
  grammar : e.grammar = d.grammar
  settings : e.settings = d.settings
  choices : e.choices.size = d.choices.size
  slots : e.slots.size = d.slots.size
  nodes : e.nodes.size = d.nodes.size
  choice : ∀ c, ∃ k, e.choice c = { d.choice c with chosen := k }
  slot : ∀ s, ∃ l, e.slot s = { d.slot s with content := l }
  node : ∀ n, (e.node n).symbol = (d.node n).symbol ∧ (e.node n).slot = (d.node n).slot
  body : ∀ n, (e.node n).body = (d.node n).body ∨
    ∃ t t', (d.node n).body = .leaf t ∧ (e.node n).body = .leaf t'

namespace SameLinks

theorem refl (d : Draft) : SameLinks d d :=
  ⟨rfl, rfl, rfl, rfl, rfl, fun _ => ⟨_, rfl⟩, fun _ => ⟨_, rfl⟩, fun _ => ⟨rfl, rfl⟩,
    fun _ => Or.inl rfl⟩

theorem trans {d e f : Draft} (h : SameLinks d e) (h' : SameLinks e f) : SameLinks d f where
  grammar := h'.grammar.trans h.grammar
  settings := h'.settings.trans h.settings
  choices := h'.choices.trans h.choices
  slots := h'.slots.trans h.slots
  nodes := h'.nodes.trans h.nodes
  choice := fun c => by
    obtain ⟨k, hk⟩ := h.choice c
    obtain ⟨k', hk'⟩ := h'.choice c
    exact ⟨k', by rw [hk', hk]⟩
  slot := fun s => by
    obtain ⟨l, hl⟩ := h.slot s
    obtain ⟨l', hl'⟩ := h'.slot s
    exact ⟨l', by rw [hl', hl]⟩
  node := fun n => ⟨(h'.node n).1.trans (h.node n).1, (h'.node n).2.trans (h.node n).2⟩
  body := fun n => by
    rcases h.body n with hb | ⟨t, t', hb, hb'⟩ <;> rcases h'.body n with hc | ⟨u, u', hc, hc'⟩
    · exact Or.inl (hc.trans hb)
    · exact Or.inr ⟨u, u', hb ▸ hc, hc'⟩
    · exact Or.inr ⟨t, t', hb, hc ▸ hb'⟩
    · exact Or.inr ⟨t, u', hb, hc'⟩

variable (h : SameLinks d e)
include h

theorem hasChoice {c : ChoiceId} : e.HasChoice c ↔ d.HasChoice c := by
  rw [HasChoice, HasChoice, h.choices]

theorem hasSlot {s : SlotId} : e.HasSlot s ↔ d.HasSlot s := by
  rw [HasSlot, HasSlot, h.slots]

theorem hasNode {n : NodeId} : e.HasNode n ↔ d.HasNode n := by
  rw [HasNode, HasNode, h.nodes]

theorem choice_eq (c : ChoiceId) : (e.choice c).shape = (d.choice c).shape
    ∧ (e.choice c).holder = (d.choice c).holder ∧ (e.choice c).rule = (d.choice c).rule
    ∧ (e.choice c).depth = (d.choice c).depth ∧ (e.choice c).branches = (d.choice c).branches := by
  obtain ⟨k, hk⟩ := h.choice c
  simp [hk]

theorem slot_eq (s : SlotId) : (e.slot s).shape = (d.slot s).shape
    ∧ (e.slot s).choice = (d.slot s).choice ∧ (e.slot s).branch = (d.slot s).branch
    ∧ (e.slot s).position = (d.slot s).position ∧ (e.slot s).gap = (d.slot s).gap := by
  obtain ⟨l, hl⟩ := h.slot s
  simp [hl]

theorem symbol (n : NodeId) : e.symbol n = d.symbol n := by
  simp only [Draft.symbol, h.grammar, (h.node n).1]

theorem role? (n : NodeId) : e.role? n = d.role? n := by
  rw [Draft.role?, h.symbol, Draft.role?]

theorem isLeaf (n : NodeId) : e.isLeaf n = d.isLeaf n := by
  rcases h.body n with hb | ⟨t, t', hb, hb'⟩
  · simp only [Draft.isLeaf, hb]
  · simp only [Draft.isLeaf, hb, hb']

theorem inner? (n : NodeId) : e.inner? n = d.inner? n := by
  rcases h.body n with hb | ⟨t, t', hb, hb'⟩
  · simp only [Draft.inner?, hb]
  · simp only [Draft.inner?, hb, hb']

theorem multiplicity (s : SlotId) : e.multiplicity s = d.multiplicity s := by
  simp only [Draft.multiplicity, h.grammar, (h.slot_eq s).1]

theorem slotSymbol (s : SlotId) : e.slotSymbol s = d.slotSymbol s := by
  simp only [Draft.slotSymbol, h.grammar, (h.slot_eq s).1]

theorem choiceAround (n : NodeId) : e.choiceAround n = d.choiceAround n := by
  simp only [Draft.choiceAround, (h.node n).2, (h.slot_eq _).2.1]

theorem slotsBefore (s : SlotId) : e.slotsBefore s = d.slotsBefore s := by
  obtain ⟨-, h1, h2, h3, -⟩ := h.slot_eq s
  simp only [Draft.slotsBefore, h1, h2, h3, (h.choice_eq _).2.2.2.2]

theorem slotsAfter (s : SlotId) : e.slotsAfter s = d.slotsAfter s := by
  obtain ⟨-, h1, h2, h3, -⟩ := h.slot_eq s
  simp only [Draft.slotsAfter, h1, h2, h3, (h.choice_eq _).2.2.2.2]

theorem holder? (n : NodeId) : e.holder? n = d.holder? n := by
  simp only [Draft.holder?, h.choiceAround, (h.choice_eq _).2.1]

theorem lineageWithin : ∀ (bound : Nat) (n : NodeId),
    e.lineageWithin bound n = d.lineageWithin bound n
  | 0, _ => rfl
  | bound + 1, n => by
    simp only [Draft.lineageWithin, h.holder?]
    split
    · rfl
    · rw [lineageWithin bound]

theorem lineage (n : NodeId) : e.lineage n = d.lineage n :=
  h.lineageWithin n.index n

/-- Only tokens of leaves change. -/
theorem body_eq {n : NodeId} (hb : ∀ t, (d.node n).body ≠ .leaf t) :
    (e.node n).body = (d.node n).body := by
  rcases h.body n with heq | ⟨t, t', ht, -⟩
  · exact heq
  · exact absurd ht (hb t)

/-! Parts stay linked. -/

theorem choiceLinked {c : ChoiceId} (hl : d.ChoiceLinked c) : e.ChoiceLinked c := by
  obtain ⟨h1, h2, h3, h4, h5⟩ := h.choice_eq c
  refine ⟨by rw [h1, h.grammar]; exact hl.shape_lt, by rw [h3, h.grammar]; exact hl.rule_lt, ?_,
    fun k j s hk => ?_, by rw [h4, h.settings]; exact hl.depth_le, fun m hm => ?_,
    fun hm => hl.root (h2 ▸ hm)⟩
  · rw [h5, h1, h.grammar, ← hl.shapes]
    simp only [(h.slot_eq _).1]
  · obtain ⟨-, s2, s3, s4, -⟩ := h.slot_eq s
    rw [s2, s3, s4, h.hasSlot]
    exact hl.slots k j s (h5 ▸ hk)
  · rw [h.hasNode, h.inner?]
    exact hl.holder m (h2 ▸ hm)

theorem slotLinked {s : SlotId} (hl : d.SlotLinked s) : e.SlotLinked s := by
  obtain ⟨-, s2, s3, s4, -⟩ := h.slot_eq s
  refine ⟨by rw [s2, h.hasChoice]; exact hl.choice, ?_⟩
  rw [s2, s3, s4, (h.choice_eq _).2.2.2.2]
  exact hl.entry

theorem nodeLinked {n : NodeId} (hl : d.NodeLinked n) : e.NodeLinked n := by
  obtain ⟨n1, n2⟩ := h.node n
  refine ⟨by rw [n2, h.hasSlot]; exact hl.slot, by rw [n1, n2, h.slotSymbol]; exact hl.symbol,
    fun m hm => hl.holder_lt m (h.holder? n ▸ hm), fun hx => ?_, fun r hx => ?_, fun b hx => ?_⟩
  all_goals rw [h.symbol] at hx
  · obtain ⟨t, ht⟩ := hl.leaf hx
    rcases h.body n with hb | ⟨t, t', -, hb'⟩
    · exact ⟨t, hb.trans ht⟩
    · exact ⟨t', hb'⟩
  · obtain ⟨c, hc⟩ := hl.rule r hx
    exact ⟨c, (h.body_eq (by simp [hc])).trans hc⟩
  · obtain ⟨c, hc⟩ := hl.group b hx
    exact ⟨c, (h.body_eq (by simp [hc])).trans hc⟩

theorem opens {n : NodeId} {c : ChoiceId} (ho : d.Opens n c) : e.Opens n c := by
  obtain ⟨h1, h2, h3, h4⟩ := ho
  obtain ⟨c1, c2, -, c4, -⟩ := h.choice_eq c
  refine ⟨h.hasChoice.2 h1, c2.trans h2, by rw [h.grammar, h.symbol, c1]; exact h3, ?_⟩
  rw [c4, h.symbol, h.choiceAround, (h.choice_eq _).2.2.2.1]
  exact h4

theorem linked (hd : d.Linked) : e.Linked := by
  have hroot := h.choice_eq ⟨0⟩
  refine ⟨h.grammar ▸ hd.grammar, h.hasChoice.2 hd.root, hroot.2.1.trans hd.root_holder,
    by rw [h.grammar]; exact hroot.1.trans hd.root_shape,
    by rw [h.grammar]; exact hroot.2.2.1.trans hd.root_rule, hroot.2.2.2.1.trans hd.root_depth,
    fun c hc => h.choiceLinked (hd.choice c (h.hasChoice.1 hc)),
    fun s hs => h.slotLinked (hd.slot s (h.hasSlot.1 hs)),
    fun n hn => h.nodeLinked (hd.node n (h.hasNode.1 hn)), fun n c hn hc => ?_, fun s n hn => ?_⟩
  · exact h.opens (hd.inner n c (h.hasNode.1 hn) (h.inner? n ▸ hc))
  · rw [(h.slot_eq s).2.2.2.2] at hn
    obtain ⟨h1, h2⟩ := hd.gap s n hn
    exact ⟨h.hasNode.2 h1, (h.node n).2.trans h2⟩

end SameLinks

end Cloze.Draft
