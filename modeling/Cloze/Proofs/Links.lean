import Cloze.Draft.Growth
import Cloze.Proofs.Tables
import Mathlib.Data.List.Basic

/-!
# How the parts of a draft hang together

The choices, slots and nodes of a draft point at each other by number. `Linked` says that the
numbers are in range, that links up agree with links down, and that every part is shaped as the
grammar wants it. `Grows` says what a move that only makes room may change: there are more parts
afterwards, a slot may have another gap, a reference to a rule may have got its choice, and all
else is as it was. The three moves of growth grow a draft and keep it linked.
-/

namespace Cloze

namespace Grammar

/-- The choice a symbol stands for. -/
def bodyOf? (g : Grammar) : Kind → Option ChoiceId
  | .literal _ | .category _ => none
  | .rule r => some (g.rule r).body
  | .group body | .option body => some body

theorem bodyOf?_eq_none {g : Grammar} {x : Symbol} :
    g.bodyOf? x.kind = none ↔ x.isNode = false := by
  unfold bodyOf? Symbol.isNode
  cases x.kind <;> simp

/-- A bracketed symbol stands for the choice it encloses, and is no reference. -/
theorem of_bracketed {x : Symbol} {b : ChoiceId} (h : x.kind.bracketed? = some b) (g : Grammar) :
    x.isNode = true ∧ x.isReference = false ∧ g.bodyOf? x.kind = some b := by
  unfold bodyOf? Symbol.isNode Symbol.isReference
  generalize x.kind = kind at h
  cases kind with
  | literal | category | rule => cases h
  | group body | option body =>
    cases h
    exact ⟨rfl, rfl, rfl⟩

theorem bodyOf?_lt {g : Grammar} (hg : g.WellFormed) {s : SymbolId} {c : ChoiceId}
    (h : g.bodyOf? (g.symbol s).kind = some c) : c.index < g.choices.size := by
  have hr := hg.rule s
  have hb := hg.bracketed s
  generalize (g.symbol s).kind = kind at h hr hb
  cases kind with
  | literal | category => cases h
  | rule r =>
    cases h
    exact hg.body r (hr r rfl)
  | group body | option body =>
    cases h
    exact hb _ rfl

end Grammar

namespace Draft

/-- The `j`-th entry of the `k`-th row. -/
def itemAt? {α : Type} (rows : List (List α)) (k j : Nat) : Option α :=
  rows[k]?.bind (·[j]?)

theorem itemAt?_map {α β : Type} (f : α → β) (rows : List (List α)) (k j : Nat) :
    itemAt? (rows.map (·.map f)) k j = (itemAt? rows k j).map f := by
  unfold itemAt?
  rw [List.getElem?_map]
  cases rows[k]? <;> simp

theorem itemAt?_eq_some {α : Type} {rows : List (List α)} {k j : Nat} {x : α} :
    itemAt? rows k j = some x ↔ ∃ row, rows[k]? = some row ∧ row[j]? = some x := by
  simp [itemAt?, Option.bind_eq_some_iff]

theorem mem_of_itemAt? {α : Type} {rows : List (List α)} {k j : Nat} {x : α}
    (h : itemAt? rows k j = some x) : ∃ row ∈ rows, x ∈ row := by
  obtain ⟨row, hrow, hx⟩ := itemAt?_eq_some.1 h
  exact ⟨row, List.mem_of_getElem? hrow, List.mem_of_getElem? hx⟩

variable (d : Draft)

/-- The number is one of a choice of the draft. -/
def HasChoice (c : ChoiceId) : Prop := c.index < d.choices.size

/-- The number is one of a slot of the draft. -/
def HasSlot (s : SlotId) : Prop := s.index < d.slots.size

/-- The number is one of a node of the draft. -/
def HasNode (n : NodeId) : Prop := n.index < d.nodes.size

instance (c : ChoiceId) : Decidable (d.HasChoice c) := Nat.decLt _ _

instance (s : SlotId) : Decidable (d.HasSlot s) := Nat.decLt _ _

instance (n : NodeId) : Decidable (d.HasNode n) := Nat.decLt _ _

/-! One part changed. -/

theorem getD_modify {α : Type} (xs : Array α) (i j : Nat) (f : α → α) (x : α) :
    (xs.modify i f).getD j x
      = if i = j ∧ j < xs.size then f (xs.getD j x) else xs.getD j x := by
  simp only [Array.getD_eq_getD_getElem?]
  by_cases hj : j < xs.size
  · by_cases hij : i = j <;> simp [hj, hij, Array.getElem_modify]
  · simp [hj]

theorem node_modifyNode (n m : NodeId) (f : Node → Node) :
    (d.modifyNode n f).node m = if n = m ∧ d.HasNode m then f (d.node m) else d.node m := by
  obtain ⟨i⟩ := n
  obtain ⟨j⟩ := m
  simp only [modifyNode, node, HasNode, getD_modify, NodeId.mk.injEq]

theorem slot_modifySlot (s t : SlotId) (f : Slot → Slot) :
    (d.modifySlot s f).slot t = if s = t ∧ d.HasSlot t then f (d.slot t) else d.slot t := by
  obtain ⟨i⟩ := s
  obtain ⟨j⟩ := t
  simp only [modifySlot, slot, HasSlot, getD_modify, SlotId.mk.injEq]

theorem choice_modifyChoice (b c : ChoiceId) (f : Choice → Choice) :
    (d.modifyChoice b f).choice c
      = if b = c ∧ d.HasChoice c then f (d.choice c) else d.choice c := by
  obtain ⟨i⟩ := b
  obtain ⟨j⟩ := c
  simp only [modifyChoice, choice, HasChoice, getD_modify, ChoiceId.mk.injEq]

/-- The slots of a choice are those of its shape, and know where they stand. -/
structure ChoiceLinked (c : ChoiceId) : Prop where
  shape_lt : (d.choice c).shape.index < d.grammar.choices.size
  rule_lt : (d.choice c).rule.index < d.grammar.rules.size
  shapes : (d.choice c).branches.map (·.map fun s => (d.slot s).shape)
    = d.grammar.branchesOf (d.choice c).shape
  slots : ∀ k j s, itemAt? (d.choice c).branches k j = some s →
    d.HasSlot s ∧ (d.slot s).choice = c ∧ (d.slot s).branch = k ∧ (d.slot s).position = j
  depth_le : (d.choice c).depth ≤ d.settings.recursionLimit
  holder : ∀ h, (d.choice c).holder = some h → d.HasNode h ∧ d.inner? h = some c
  root : (d.choice c).holder = none → c = ⟨0⟩

/-- A slot is found where it says it stands. -/
structure SlotLinked (s : SlotId) : Prop where
  choice : d.HasChoice (d.slot s).choice
  entry : itemAt? (d.choice (d.slot s).choice).branches (d.slot s).branch (d.slot s).position
    = some s

/-- A node is of the kind its slot asks for, and was made after the node that holds it. -/
structure NodeLinked (n : NodeId) : Prop where
  slot : d.HasSlot (d.node n).slot
  symbol : (d.node n).symbol = d.slotSymbol (d.node n).slot
  holder_lt : ∀ h, d.holder? n = some h → h.index < n.index
  leaf : (d.symbol n).isNode = false → ∃ token, (d.node n).body = .leaf token
  rule : ∀ r, (d.symbol n).kind = .rule r → ∃ c, (d.node n).body = .rule r c
  group : ∀ b, (d.symbol n).kind.bracketed? = some b → ∃ c, (d.node n).body = .group c

/-- The choice `c` is the one that the node `n` stands for. -/
structure Opens (n : NodeId) (c : ChoiceId) : Prop where
  choice : d.HasChoice c
  holder : (d.choice c).holder = some n
  shape : d.grammar.bodyOf? (d.symbol n).kind = some (d.choice c).shape
  depth : (d.choice c).depth = (d.choice (d.choiceAround n)).depth
    + if (d.symbol n).isReference then 1 else 0

/-- The links between the parts of a draft agree with each other and with the grammar. -/
structure Linked : Prop where
  grammar : d.grammar.WellFormed
  root : d.HasChoice ⟨0⟩
  root_holder : d.root.holder = none
  root_shape : d.root.shape = (d.grammar.rule d.grammar.start).body
  root_rule : d.root.rule = d.grammar.start
  root_depth : d.root.depth = 0
  choice : ∀ c, d.HasChoice c → d.ChoiceLinked c
  slot : ∀ s, d.HasSlot s → d.SlotLinked s
  node : ∀ n, d.HasNode n → d.NodeLinked n
  inner : ∀ n c, d.HasNode n → d.inner? n = some c → d.Opens n c
  gap : ∀ s n, (d.slot s).gap = some n → d.HasNode n ∧ (d.node n).slot = s

variable {d}

/-- All the draft holds is as before, but for gaps and for references that got their choice. What
is new is not placed, not taken and empty. -/
structure Grows (d e : Draft) : Prop where
  grammar : e.grammar = d.grammar
  settings : e.settings = d.settings
  choices : d.choices.size ≤ e.choices.size
  slots : d.slots.size ≤ e.slots.size
  nodes : d.nodes.size ≤ e.nodes.size
  choice : ∀ c, d.HasChoice c → e.choice c = d.choice c
  slot : ∀ s, d.HasSlot s → ∃ g, e.slot s = { d.slot s with gap := g }
  node : ∀ n, d.HasNode n → ∃ b, e.node n = { d.node n with body := b } ∧
    (b = (d.node n).body ∨ ∃ r c, (d.node n).body = .rule r none ∧ b = .rule r (some c))
  chosen : ∀ c, (e.choice c).chosen = (d.choice c).chosen
  content : ∀ s, (e.slot s).content = (d.slot s).content
  placed : ∀ n, (e.node n).placed = (d.node n).placed

namespace Grows

theorem refl (d : Draft) : Grows d d where
  grammar := rfl
  settings := rfl
  choices := Nat.le_refl _
  slots := Nat.le_refl _
  nodes := Nat.le_refl _
  choice := fun _ _ => rfl
  slot := fun _ _ => ⟨_, rfl⟩
  node := fun _ _ => ⟨_, rfl, Or.inl rfl⟩
  chosen := fun _ => rfl
  content := fun _ => rfl
  placed := fun _ => rfl

variable {d e f : Draft}

theorem hasChoice (h : Grows d e) {c : ChoiceId} (hc : d.HasChoice c) : e.HasChoice c :=
  Nat.lt_of_lt_of_le hc h.choices

theorem hasSlot (h : Grows d e) {s : SlotId} (hs : d.HasSlot s) : e.HasSlot s :=
  Nat.lt_of_lt_of_le hs h.slots

theorem hasNode (h : Grows d e) {n : NodeId} (hn : d.HasNode n) : e.HasNode n :=
  Nat.lt_of_lt_of_le hn h.nodes

theorem trans (h : Grows d e) (h' : Grows e f) : Grows d f where
  grammar := h'.grammar.trans h.grammar
  settings := h'.settings.trans h.settings
  choices := Nat.le_trans h.choices h'.choices
  slots := Nat.le_trans h.slots h'.slots
  nodes := Nat.le_trans h.nodes h'.nodes
  choice := fun c hc => (h'.choice c (h.hasChoice hc)).trans (h.choice c hc)
  slot := fun s hs => by
    obtain ⟨g, hg⟩ := h.slot s hs
    obtain ⟨g', hg'⟩ := h'.slot s (h.hasSlot hs)
    exact ⟨g', by rw [hg', hg]⟩
  node := fun n hn => by
    obtain ⟨b, hb, hor⟩ := h.node n hn
    obtain ⟨b', hb', hor'⟩ := h'.node n (h.hasNode hn)
    refine ⟨b', by rw [hb', hb], ?_⟩
    rw [hb] at hor'
    rcases hor with rfl | ⟨r, c, hr, rfl⟩
    · exact hor'
    · rcases hor' with rfl | ⟨r', c', hr', rfl⟩
      · exact Or.inr ⟨r, c, hr, rfl⟩
      · cases hr'
  chosen := fun c => (h'.chosen c).trans (h.chosen c)
  content := fun s => (h'.content s).trans (h.content s)
  placed := fun n => (h'.placed n).trans (h.placed n)

theorem node_eq (h : Grows d e) {n : NodeId} (hn : d.HasNode n) :
    (e.node n).symbol = (d.node n).symbol ∧ (e.node n).slot = (d.node n).slot
      ∧ (e.node n).position = (d.node n).position ∧ (e.node n).note = (d.node n).note := by
  obtain ⟨b, hb, -⟩ := h.node n hn
  simp [hb]

theorem slot_eq (h : Grows d e) {s : SlotId} (hs : d.HasSlot s) :
    (e.slot s).shape = (d.slot s).shape ∧ (e.slot s).choice = (d.slot s).choice
      ∧ (e.slot s).branch = (d.slot s).branch ∧ (e.slot s).position = (d.slot s).position := by
  obtain ⟨g, hg⟩ := h.slot s hs
  simp [hg]

theorem symbol (h : Grows d e) {n : NodeId} (hn : d.HasNode n) : e.symbol n = d.symbol n := by
  simp only [Draft.symbol, h.grammar, (h.node_eq hn).1]

/-- Only a reference without a choice gets another body. -/
theorem body_eq (h : Grows d e) {n : NodeId} (hn : d.HasNode n)
    (hr : ∀ r, (d.node n).body ≠ .rule r none) : (e.node n).body = (d.node n).body := by
  obtain ⟨b, hb, rfl | ⟨r, c, hrule, -⟩⟩ := h.node n hn
  · rw [hb]
  · exact absurd hrule (hr r)

theorem body_rule (h : Grows d e) {n : NodeId} (hn : d.HasNode n) {r : Grammar.RuleId}
    {c : Option ChoiceId} (hr : (d.node n).body = .rule r c) :
    ∃ c', (e.node n).body = .rule r c' := by
  obtain ⟨b, hb, rfl | ⟨r', c', hrule, rfl⟩⟩ := h.node n hn
  · exact ⟨c, by rw [hb, hr]⟩
  · rw [hr] at hrule
    cases hrule
    exact ⟨some c', by rw [hb]⟩

theorem isLeaf (h : Grows d e) {n : NodeId} (hn : d.HasNode n) : e.isLeaf n = d.isLeaf n := by
  obtain ⟨b, hb, rfl | ⟨r, c, hr, rfl⟩⟩ := h.node n hn
  · simp [Draft.isLeaf, hb]
  · simp [Draft.isLeaf, hb, hr]

theorem inner? (h : Grows d e) {n : NodeId} (hn : d.HasNode n) {c : ChoiceId}
    (hc : d.inner? n = some c) : e.inner? n = some c := by
  obtain ⟨b, hb, rfl | ⟨r, c', hr, rfl⟩⟩ := h.node n hn
  · simpa [Draft.inner?, hb] using hc
  · simp [Draft.inner?, hr] at hc

theorem slotSymbol (h : Grows d e) {s : SlotId} (hs : d.HasSlot s) :
    e.slotSymbol s = d.slotSymbol s := by
  simp only [Draft.slotSymbol, h.grammar, (h.slot_eq hs).1]

theorem multiplicity (h : Grows d e) {s : SlotId} (hs : d.HasSlot s) :
    e.multiplicity s = d.multiplicity s := by
  simp only [Draft.multiplicity, h.grammar, (h.slot_eq hs).1]

theorem choiceAround (h : Grows d e) {n : NodeId} (hn : d.HasNode n)
    (hs : d.HasSlot (d.node n).slot) : e.choiceAround n = d.choiceAround n := by
  simp only [Draft.choiceAround, (h.node_eq hn).2.1, (h.slot_eq hs).2.1]

theorem holder? (h : Grows d e) {n : NodeId} (hn : d.HasNode n)
    (hs : d.HasSlot (d.node n).slot) (hc : d.HasChoice (d.choiceAround n)) :
    e.holder? n = d.holder? n := by
  simp only [Draft.holder?, h.choiceAround hn hs, h.choice _ hc]

/-! A part that was linked stays so. -/

theorem choiceLinked (h : Grows d e) {c : ChoiceId} (hc : d.HasChoice c) (hl : d.ChoiceLinked c) :
    e.ChoiceLinked c := by
  have heq := h.choice c hc
  refine ⟨by rw [heq, h.grammar]; exact hl.shape_lt, by rw [heq, h.grammar]; exact hl.rule_lt,
    ?_, fun k j s hk => ?_, by rw [heq, h.settings]; exact hl.depth_le, fun m hm => ?_,
    fun hm => hl.root (heq ▸ hm)⟩
  · rw [heq, h.grammar, ← hl.shapes]
    refine List.map_congr_left fun row hrow => List.map_congr_left fun s hs => ?_
    obtain ⟨k, hk⟩ := List.mem_iff_getElem?.1 hrow
    obtain ⟨j, hj⟩ := List.mem_iff_getElem?.1 hs
    exact (h.slot_eq (hl.slots k j s (itemAt?_eq_some.2 ⟨row, hk, hj⟩)).1).1
  · rw [heq] at hk
    obtain ⟨h1, h2, h3, h4⟩ := hl.slots k j s hk
    obtain ⟨-, e2, e3, e4⟩ := h.slot_eq h1
    exact ⟨h.hasSlot h1, by rw [e2, h2], by rw [e3, h3], by rw [e4, h4]⟩
  · rw [heq] at hm
    obtain ⟨h1, h2⟩ := hl.holder m hm
    exact ⟨h.hasNode h1, h.inner? h1 h2⟩

theorem slotLinked (h : Grows d e) {s : SlotId} (hs : d.HasSlot s) (hl : d.SlotLinked s) :
    e.SlotLinked s := by
  obtain ⟨-, e2, e3, e4⟩ := h.slot_eq hs
  exact ⟨by rw [e2]; exact h.hasChoice hl.choice,
    by rw [e2, e3, e4, h.choice _ hl.choice]; exact hl.entry⟩

theorem nodeLinked (h : Grows d e) {n : NodeId} (hn : d.HasNode n)
    (ha : d.HasChoice (d.choiceAround n)) (hl : d.NodeLinked n) : e.NodeLinked n := by
  obtain ⟨e1, e2, -⟩ := h.node_eq hn
  refine ⟨by rw [e2]; exact h.hasSlot hl.slot,
    by rw [e1, e2, h.slotSymbol hl.slot]; exact hl.symbol, fun m hm => ?_, ?_, ?_, ?_⟩
  · rw [h.holder? hn hl.slot ha] at hm
    exact hl.holder_lt m hm
  · intro hx
    rw [h.symbol hn] at hx
    obtain ⟨token, ht⟩ := hl.leaf hx
    exact ⟨token, (h.body_eq hn (by simp [ht])).trans ht⟩
  · intro r hx
    rw [h.symbol hn] at hx
    obtain ⟨c, hc⟩ := hl.rule r hx
    exact h.body_rule hn hc
  · intro b hx
    rw [h.symbol hn] at hx
    obtain ⟨c, hc⟩ := hl.group b hx
    exact ⟨c, (h.body_eq hn (by simp [hc])).trans hc⟩

theorem opens (h : Grows d e) {n : NodeId} {c : ChoiceId} (hn : d.HasNode n)
    (hs : d.HasSlot (d.node n).slot) (ha : d.HasChoice (d.choiceAround n)) (ho : d.Opens n c) :
    e.Opens n c := by
  have heq := h.choice c ho.choice
  refine ⟨h.hasChoice ho.choice, heq ▸ ho.holder, ?_, ?_⟩
  · rw [heq, h.symbol hn, h.grammar]
    exact ho.shape
  · rw [heq, h.symbol hn, h.choiceAround hn hs, h.choice _ ha]
    exact ho.depth

end Grows

/-! ### Parts of a linked draft -/

namespace Linked

variable {d e : Draft}

theorem hasChoice_around (h : d.Linked) {n : NodeId} (hn : d.HasNode n) :
    d.HasChoice (d.choiceAround n) :=
  (h.slot _ (h.node n hn).slot).choice

theorem holder_lt (h : d.Linked) {n m : NodeId} (hn : d.HasNode n) (hm : d.holder? n = some m) :
    m.index < n.index :=
  (h.node n hn).holder_lt m hm

theorem hasNode_holder (h : d.Linked) {n m : NodeId} (hn : d.HasNode n)
    (hm : d.holder? n = some m) : d.HasNode m :=
  ((h.choice _ (h.hasChoice_around hn)).holder m hm).1

/-- What a holder stands for is the choice its nodes stand in. -/
theorem inner?_holder (h : d.Linked) {n m : NodeId} (hn : d.HasNode n)
    (hm : d.holder? n = some m) : d.inner? m = some (d.choiceAround n) :=
  ((h.choice _ (h.hasChoice_around hn)).holder m hm).2

theorem root_of_holder?_eq_none (h : d.Linked) {n : NodeId} (hn : d.HasNode n)
    (hm : d.holder? n = none) : d.choiceAround n = ⟨0⟩ :=
  (h.choice _ (h.hasChoice_around hn)).root hm

/-- A draft that grew out of a linked one is linked if its new parts are. -/
theorem of_grows (h : d.Linked) (hg : Grows d e)
    (hc : ∀ c, ¬ d.HasChoice c → e.HasChoice c → e.ChoiceLinked c)
    (hs : ∀ s, ¬ d.HasSlot s → e.HasSlot s → e.SlotLinked s)
    (hn : ∀ n, ¬ d.HasNode n → e.HasNode n → e.NodeLinked n)
    (hi : ∀ n c, e.HasNode n → e.inner? n = some c → ¬ (d.HasNode n ∧ d.inner? n = some c) →
      e.Opens n c)
    (hp : ∀ s n, (e.slot s).gap = some n → e.HasNode n ∧ (e.node n).slot = s) : e.Linked := by
  have hr : e.root = d.root := hg.choice _ h.root
  refine ⟨hg.grammar ▸ h.grammar, hg.hasChoice h.root, hr ▸ h.root_holder,
    by rw [hr, hg.grammar]; exact h.root_shape, by rw [hr, hg.grammar]; exact h.root_rule,
    hr ▸ h.root_depth, fun c hec => ?_, fun s hes => ?_, fun n hen => ?_,
    fun n c hen hec => ?_, hp⟩
  · by_cases hdc : d.HasChoice c
    · exact hg.choiceLinked hdc (h.choice c hdc)
    · exact hc c hdc hec
  · by_cases hds : d.HasSlot s
    · exact hg.slotLinked hds (h.slot s hds)
    · exact hs s hds hes
  · by_cases hdn : d.HasNode n
    · exact hg.nodeLinked hdn (h.hasChoice_around hdn) (h.node n hdn)
    · exact hn n hdn hen
  · by_cases hdn : d.HasNode n ∧ d.inner? n = some c
    · obtain ⟨h1, h2⟩ := hdn
      exact hg.opens h1 (h.node n h1).slot (h.hasChoice_around h1) (h.inner n c h1 h2)
    · exact hi n c hen hec hdn

end Linked

end Draft

end Cloze
