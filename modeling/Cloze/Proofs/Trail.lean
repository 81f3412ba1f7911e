import Cloze.Draft.Offer
import Cloze.Proofs.Placing
import Cloze.Proofs.Sentence
import Mathlib.Data.List.InsertIdx

/-!
# Where a node stands

A search reads little of a draft: of a choice its shape, its depth and how many nodes each slot
holds (`Frame`), and of a node its place in the choice around it (`Level`), on its own level and on
the levels above. These are the node's `trail`. It names no numbers of the draft, and it stays when
the draft grows. A node that is not placed and stands for a choice has an empty frame inside.
-/

namespace Cloze.Draft

/-- A slot by its shape and the number of nodes placed in it. -/
structure Cell where
  shape : Grammar.SlotId
  count : Nat
deriving DecidableEq, Inhabited

/-- A choice by its shape, its depth and the slots of its branches. -/
structure Frame where
  shape : Grammar.ChoiceId
  depth : Nat
  rows : List (List Cell)
deriving DecidableEq, Inhabited

/-- The place of a node in the choice around it. -/
structure Level where
  frame : Frame
  branch : Nat
  slot : Nat
  position : Nat
  placed : Bool
deriving DecidableEq, Inhabited

/-- The places of a node and of the nodes above it, from the bottom up. -/
abbrev Trail := List Level

namespace Frame

/-- A choice in which nothing is placed. -/
def empty (g : Grammar) (shape : Grammar.ChoiceId) (depth : Nat) : Frame :=
  ⟨shape, depth, (g.branchesOf shape).map (·.map (⟨·, 0⟩))⟩

/-- The place of a gap at the front of a slot. -/
def gap (f : Frame) (branch slot : Nat) : Level :=
  ⟨f, branch, slot, 0, false⟩

/-- The gaps at the fronts of the slots of a branch. -/
def gaps (f : Frame) (branch : Nat) : List Level :=
  (List.range (f.rows.getD branch []).length).map (f.gap branch)

/-- The gaps at the fronts of all slots, branch by branch. -/
def allGaps (f : Frame) : List (List Level) :=
  (List.range f.rows.length).map f.gaps

end Frame

namespace Level

variable (g : Grammar) (l : Level)

def cell : Cell :=
  (itemAt? l.frame.rows l.branch l.slot).getD default

def symbol : Grammar.SymbolId :=
  (g.slot l.cell.shape).symbol

def multiplicity : Grammar.Multiplicity :=
  (g.slot l.cell.shape).multiplicity

def isFull : Bool :=
  l.multiplicity g == .once && l.cell.count != 0

def isLeaf : Bool :=
  !(g.symbol (l.symbol g)).isNode

/-- A node that can be left out: a further occurrence, or one that can stand for nothing. -/
def CanSkip : Prop :=
  l.placed = false ∧ (l.multiplicity g = .star ∨ l.multiplicity g = .plus ∧ l.cell.count ≠ 0
    ∨ g.Nullable (l.symbol g))

/-- Its slot is empty and can stay so. -/
def CanPass : Prop :=
  l.cell.count = 0 ∧ g.Skippable l.cell.shape

/-- The gaps at the fronts of the slots behind it in its branch. -/
def later : List Level :=
  (l.frame.gaps l.branch).drop (l.slot + 1)

/-- The gaps of the other branches, if it is the first gap of its own. -/
def others : List (List Level) :=
  if l.position = 0 ∧ l.placed = false ∧ l.slot = 0 then l.frame.allGaps.eraseIdx l.branch else []

/-- What a gap stands for: nothing further for a leaf, an empty frame for any other symbol, unless
that is too deep. -/
def inside (limit : Nat) : Option (Option Frame) :=
  match (g.symbol (l.symbol g)).kind with
  | .literal _ | .category _ => some none
  | .rule r =>
    if l.frame.depth + 1 > limit then none
    else some (some (Frame.empty g (g.rule r).body (l.frame.depth + 1)))
  | .group body | .option body => some (some (Frame.empty g body l.frame.depth))

end Level

section Draft

variable (d : Draft)

def cellOf (s : SlotId) : Cell :=
  ⟨(d.slot s).shape, (d.slot s).content.length⟩

def frame (c : ChoiceId) : Frame :=
  ⟨(d.choice c).shape, (d.choice c).depth, (d.choice c).branches.map (·.map d.cellOf)⟩

/-- A place in a slot. -/
def spot (s : SlotId) (position : Nat) (placed : Bool) : Level :=
  ⟨d.frame (d.slot s).choice, (d.slot s).branch, (d.slot s).position, position, placed⟩

def level (n : NodeId) : Level :=
  d.spot (d.node n).slot (d.node n).position (d.node n).placed

def trail (n : NodeId) : Trail :=
  (d.lineage n).map d.level

/-- The branch, the slot in it and the position in the slot where a node stands. -/
def site (n : NodeId) : Nat × Nat × Nat :=
  ((d.slot (d.node n).slot).branch, (d.slot (d.node n).slot).position, (d.node n).position)

/-- The sites of a node and of the nodes above it, from the bottom up. -/
def path (n : NodeId) : List (Nat × Nat × Nat) :=
  (d.lineage n).map d.site

/-- The trail of the node that holds a choice. -/
def above (c : ChoiceId) : Trail :=
  match (d.choice c).holder with
  | none => []
  | some h => d.trail h

end Draft

variable {d e : Draft}

theorem above_of_top {n : NodeId} (hm : d.holder? n = none) : d.above (d.choiceAround n) = [] := by
  simp only [above, show (d.choice (d.choiceAround n)).holder = none from hm]

theorem above_of_holder {n m : NodeId} (hm : d.holder? n = some m) :
    d.above (d.choiceAround n) = d.trail m := by
  simp only [above, show (d.choice (d.choiceAround n)).holder = some m from hm]

theorem path_of_top {n : NodeId} (hm : d.holder? n = none) : d.path n = [d.site n] := by
  rw [path, lineage_of_top hm]
  rfl

theorem Linked.path_of_holder (h : d.Linked) {n m : NodeId} (hn : d.HasNode n)
    (hm : d.holder? n = some m) : d.path n = d.site n :: d.path m := by
  rw [path, h.lineage_of_holder hn hm]
  rfl

theorem path_ne_nil (d : Draft) (n : NodeId) : d.path n ≠ [] := by
  obtain ⟨rest, hrest⟩ := d.exists_lineage_eq_cons n
  simp [path, hrest]

theorem path_of_trail {n m : NodeId} (h : d.trail n = e.trail m) : d.path n = e.path m := by
  have hmap : ∀ (d : Draft) n, d.path n = (d.trail n).map fun l => (l.branch, l.slot, l.position) :=
    fun d n => by
      rw [path, trail, List.map_map]
      rfl
  rw [hmap, hmap, h]

theorem Linked.trail_eq (h : d.Linked) {n : NodeId} (hn : d.HasNode n) :
    d.trail n = d.level n :: d.above (d.choiceAround n) := by
  rcases hh : d.holder? n with _ | m
  · rw [above_of_top hh, trail, lineage_of_top hh]
    rfl
  · rw [above_of_holder hh, trail, h.lineage_of_holder hn hh]
    rfl

theorem Linked.cell_spot (h : d.Linked) {s : SlotId} (hs : d.HasSlot s) (p : Nat) (b : Bool) :
    (d.spot s p b).cell = d.cellOf s := by
  simp only [Level.cell, spot, frame, itemAt?_map, (h.slot s hs).entry]
  rfl

theorem Linked.multiplicity_spot (h : d.Linked) {s : SlotId} (hs : d.HasSlot s) (p : Nat)
    (b : Bool) : (d.spot s p b).multiplicity d.grammar = d.multiplicity s := by
  rw [Level.multiplicity, h.cell_spot hs]
  rfl

theorem Linked.symbol_spot (h : d.Linked) {s : SlotId} (hs : d.HasSlot s) (p : Nat) (b : Bool) :
    (d.spot s p b).symbol d.grammar = d.slotSymbol s := by
  rw [Level.symbol, h.cell_spot hs]
  rfl

theorem Linked.isFull_spot (h : d.Linked) {s : SlotId} (hs : d.HasSlot s) (p : Nat) (b : Bool) :
    (d.spot s p b).isFull d.grammar = d.isFull s := by
  rw [Level.isFull, isFull, h.multiplicity_spot hs, h.cell_spot hs, cellOf]
  cases (d.slot s).content <;> simp

theorem Linked.symbol_level (h : d.Linked) {n : NodeId} (hn : d.HasNode n) :
    (d.level n).symbol d.grammar = (d.node n).symbol := by
  rw [level, h.symbol_spot (h.node n hn).slot, (h.node n hn).symbol]

theorem Linked.isLeaf_level (h : d.Linked) {n : NodeId} (hn : d.HasNode n) :
    (d.level n).isLeaf d.grammar = d.isLeaf n := by
  have hl := h.node n hn
  rw [Level.isLeaf, h.symbol_level hn]
  unfold isLeaf Grammar.Symbol.isNode
  rcases hk : (d.symbol n).kind with t | t | r | b | b <;>
    simp only [show (d.grammar.symbol (d.node n).symbol).kind = (d.symbol n).kind from rfl, hk]
  · obtain ⟨t, ht⟩ := hl.leaf (by simp [Grammar.Symbol.isNode, hk])
    rw [ht]
    rfl
  · obtain ⟨t, ht⟩ := hl.leaf (by simp [Grammar.Symbol.isNode, hk])
    rw [ht]
    rfl
  · obtain ⟨c, hc⟩ := hl.rule r hk
    rw [hc]
    rfl
  · obtain ⟨c, hc⟩ := hl.group b (by rw [hk]; rfl)
    rw [hc]
    rfl
  · obtain ⟨c, hc⟩ := hl.group b (by rw [hk]; rfl)
    rw [hc]
    rfl

/-! ### The slots of a choice -/

theorem Linked.spot_of_itemAt? (h : d.Linked) {c : ChoiceId} {k j : Nat} {s : SlotId}
    (hk : itemAt? (d.choice c).branches k j = some s) : d.spot s 0 false = (d.frame c).gap k j := by
  obtain ⟨-, h1, h2, h3⟩ := (h.choice c (hasChoice_of_itemAt? hk)).slots k j s hk
  rw [spot, h1, h2, h3, Frame.gap]

/-- The gaps of a branch in its frame are those at the fronts of its slots. -/
theorem Linked.gaps_eq (h : d.Linked) {c : ChoiceId} {k : Nat} {row : List SlotId}
    (hk : (d.choice c).branches[k]? = some row) :
    (d.frame c).gaps k = row.map (d.spot · 0 false) := by
  have hrow : ((d.frame c).rows.getD k []).length = row.length := by
    simp [frame, hk]
  rw [Frame.gaps, hrow]
  refine List.ext_getElem? fun j => ?_
  rw [List.getElem?_map, List.getElem?_map]
  by_cases hj : j < row.length
  · rw [List.getElem?_range hj, List.getElem?_eq_getElem hj]
    exact congrArg some
      (h.spot_of_itemAt? (itemAt?_eq_some.2 ⟨row, hk, List.getElem?_eq_getElem hj⟩)).symm
  · simp [hj]

theorem Linked.allGaps_eq (h : d.Linked) (c : ChoiceId) :
    (d.frame c).allGaps = (d.choice c).branches.map (·.map (d.spot · 0 false)) := by
  have hlen : (d.frame c).rows.length = (d.choice c).branches.length := by simp [frame]
  rw [Frame.allGaps, hlen]
  refine List.ext_getElem? fun k => ?_
  rw [List.getElem?_map, List.getElem?_map]
  by_cases hk : k < (d.choice c).branches.length
  · rw [List.getElem?_range hk, List.getElem?_eq_getElem hk]
    exact congrArg some (h.gaps_eq (List.getElem?_eq_getElem hk))
  · simp [hk]

theorem Linked.later_spot (h : d.Linked) {s : SlotId} (hs : d.HasSlot s) (p : Nat) (b : Bool) :
    (d.spot s p b).later = (d.slotsAfter s).map (d.spot · 0 false) := by
  obtain ⟨row, hrow, -⟩ := itemAt?_eq_some.1 (h.slot s hs).entry
  simp only [Level.later, spot, h.gaps_eq hrow, slotsAfter, List.map_drop]
  simp [hrow]

theorem Linked.others_level (h : d.Linked) (n : NodeId) :
    (d.level n).others = (d.otherBranches n).map (·.map (d.spot · 0 false)) := by
  unfold otherBranches
  dsimp only
  by_cases hc : (d.level n).position = 0 ∧ (d.level n).placed = false ∧ (d.level n).slot = 0
  · obtain ⟨h1, h2, h3⟩ := id hc
    have h1' : (d.node n).position = 0 := h1
    have h2' : (d.node n).placed = false := h2
    have h3' : (d.slot (d.node n).slot).position = 0 := h3
    rw [Level.others, if_pos hc, if_pos (by simp [h1', h2', h3']), ← List.eraseIdx_map,
      ← h.allGaps_eq]
    rfl
  · have hc' : ¬ ((d.node n).position = 0 ∧ (d.node n).placed = false
        ∧ (d.slot (d.node n).slot).position = 0) := hc
    rw [Level.others, if_neg hc, if_neg (by simpa [and_assoc] using hc')]
    rfl

theorem Linked.hasSlot_of_mem_row (h : d.Linked) {c : ChoiceId} {row : List SlotId} {s : SlotId}
    (hrow : row ∈ (d.choice c).branches) (hs : s ∈ row) : d.HasSlot s ∧ (d.slot s).choice = c := by
  obtain ⟨k, hk⟩ := List.mem_iff_getElem?.1 hrow
  obtain ⟨j, hj⟩ := List.mem_iff_getElem?.1 hs
  have hent := itemAt?_eq_some.2 ⟨row, hk, hj⟩
  obtain ⟨h1, h2, -⟩ := (h.choice c (hasChoice_of_itemAt? hent)).slots k j s hent
  exact ⟨h1, h2⟩

theorem Linked.hasSlot_of_mem_branch (h : d.Linked) {c : ChoiceId} {k : Nat} {s : SlotId}
    (hs : s ∈ (d.choice c).branches.getD k []) : d.HasSlot s ∧ (d.slot s).choice = c := by
  rw [List.getD_eq_getElem?_getD] at hs
  rcases hrow : (d.choice c).branches[k]? with _ | row
  · simp [hrow] at hs
  · rw [hrow] at hs
    exact h.hasSlot_of_mem_row (List.mem_of_getElem? hrow) hs

theorem Linked.branch_of_mem (h : d.Linked) {c : ChoiceId} {k : Nat} {s : SlotId}
    (hs : s ∈ (d.choice c).branches.getD k []) : (d.slot s).branch = k := by
  rw [List.getD_eq_getElem?_getD] at hs
  rcases hrow : (d.choice c).branches[k]? with _ | row
  · simp [hrow] at hs
  · rw [hrow] at hs
    obtain ⟨j, hj⟩ := List.mem_iff_getElem?.1 hs
    have hk := itemAt?_eq_some.2 ⟨row, hrow, hj⟩
    exact ((h.choice c (hasChoice_of_itemAt? hk)).slots k j s hk).2.2.1

theorem Linked.mem_slotsAfter (h : d.Linked) {s t : SlotId} (ht : t ∈ d.slotsAfter s) :
    d.HasSlot t ∧ (d.slot t).choice = (d.slot s).choice :=
  h.hasSlot_of_mem_branch (List.mem_of_mem_drop ht)

theorem Linked.mem_slotsBefore (h : d.Linked) {s t : SlotId} (ht : t ∈ d.slotsBefore s) :
    d.HasSlot t ∧ (d.slot t).choice = (d.slot s).choice :=
  h.hasSlot_of_mem_branch (List.mem_of_mem_take (List.mem_reverse.1 ht))

/-! ### Growth keeps trails -/

namespace Grows

theorem cellOf (h : Grows d e) {s : SlotId} (hs : d.HasSlot s) : e.cellOf s = d.cellOf s := by
  rw [Draft.cellOf, Draft.cellOf, (h.slot_eq hs).1, h.content]

theorem frame (h : Grows d e) (hd : d.Linked) {c : ChoiceId} (hc : d.HasChoice c) :
    e.frame c = d.frame c := by
  simp only [Draft.frame, h.choice c hc, Frame.mk.injEq, true_and]
  refine List.map_congr_left fun row hrow => List.map_congr_left fun s hs => ?_
  exact h.cellOf (hd.hasSlot_of_mem_row hrow hs).1

theorem spot (h : Grows d e) (hd : d.Linked) {s : SlotId} (hs : d.HasSlot s) (p : Nat) (b : Bool) :
    e.spot s p b = d.spot s p b := by
  obtain ⟨-, h1, h2, h3⟩ := h.slot_eq hs
  rw [Draft.spot, Draft.spot, h1, h2, h3, h.frame hd (hd.slot s hs).choice]

theorem level (h : Grows d e) (hd : d.Linked) {n : NodeId} (hn : d.HasNode n) :
    e.level n = d.level n := by
  obtain ⟨-, h2, h3, -⟩ := h.node_eq hn
  rw [Draft.level, Draft.level, h2, h3, h.placed, h.spot hd (hd.node n hn).slot]

theorem lineage (h : Grows d e) (hd : d.Linked) (he : e.Linked) {n : NodeId} (hn : d.HasNode n) :
    e.lineage n = d.lineage n := by
  induction n, hn using hd.lineage_induction with
  | top n hn hm =>
    have hm' := h.holder? hn (hd.node n hn).slot (hd.hasChoice_around hn)
    rw [lineage_of_top hm, lineage_of_top (hm'.trans hm)]
  | up n m hn hm hh ih =>
    have hm' := h.holder? hn (hd.node n hn).slot (hd.hasChoice_around hn)
    rw [hd.lineage_of_holder hn hh, he.lineage_of_holder (h.hasNode hn) (hm'.trans hh), ih]

theorem trail (h : Grows d e) (hd : d.Linked) (he : e.Linked) {n : NodeId} (hn : d.HasNode n) :
    e.trail n = d.trail n := by
  rw [Draft.trail, Draft.trail, h.lineage hd he hn]
  exact List.map_congr_left fun m hm => h.level hd (hd.index_le_of_mem_lineage hn hm).1

theorem above (h : Grows d e) (hd : d.Linked) (he : e.Linked) {c : ChoiceId} (hc : d.HasChoice c) :
    e.above c = d.above c := by
  unfold Draft.above
  rw [h.choice c hc]
  split
  · rfl
  · rename_i m hm
    exact h.trail hd he ((hd.choice c hc).holder m hm).1

end Grows

/-! ### Gaps stand for empty frames -/

/-- A choice that has taken no branch holds nothing. -/
theorem SettledBut.content_eq_nil (h : d.Settled) (hl : d.Linked) {s : SlotId} (hs : d.HasSlot s)
    (hc : (d.choice (d.slot s).choice).chosen = none) : (d.slot s).content = [] := by
  by_contra hne
  have := (h.chosen _ _).2 ⟨_, s, (hl.slot s hs).entry, hne⟩
  rw [hc] at this
  cases this

theorem SettledBut.frame_eq_empty (h : d.Settled) (hl : d.Linked) {c : ChoiceId}
    (hc : d.HasChoice c) (hchosen : (d.choice c).chosen = none) :
    d.frame c = Frame.empty d.grammar (d.choice c).shape (d.choice c).depth := by
  simp only [frame, Frame.empty, Frame.mk.injEq, true_and, ← (hl.choice c hc).shapes, List.map_map]
  refine List.map_congr_left fun row hrow => ?_
  simp only [Function.comp_apply, List.map_map]
  refine List.map_congr_left fun s hs => ?_
  obtain ⟨h1, h2⟩ := hl.hasSlot_of_mem_row hrow hs
  rw [cellOf, h.content_eq_nil hl h1 (by rw [h2, hchosen])]
  rfl

/-- The choice of a node that is not placed has taken no branch. -/
theorem SettledBut.chosen_inner (h : d.Settled) {n : NodeId} (hn : d.HasNode n)
    (hp : (d.node n).placed = false) {c : ChoiceId} (hc : d.inner? n = some c) :
    (d.choice c).chosen = none := by
  by_contra hne
  have := (h.inner n hn (isLeaf_of_inner? hc) (by simp)).2 ⟨c, hc, hne⟩
  rw [hp] at this
  cases this

end Cloze.Draft
