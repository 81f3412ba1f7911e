import Cloze.Proofs.Appending
import Mathlib.Tactic.MkIffOfInductiveProp

/-!
# Grammars of nested blocks

In a grammar of blocks (`NestsBlocks`) a text is made of statements, a block start comes right
behind a newline and before statements, a block end right behind statements, and a statement ends
with a newline or a block end. All of this is read off the branches, slot by slot.

A statement or a block start is one level further in than what it stands in, and the levels of a
leaf that are so are its `load`. The load goes up by one at a block start, comes down by one at a
block end and stays at every other leaf (`Next.load`).
-/

namespace Cloze

/-- What has the role is one level further in than what it stands in. -/
def Role.deepens : Role → Bool
  | statement | indent => true
  | newline | dedent | assign | name | number | text => false

theorem Role.ne_some_of_not_layout {role : Option Role} (h : role.any Role.isLayout = false)
    {r : Role} (hr : r.isLayout = true) : role ≠ some r := by
  rintro rfl
  rw [Option.any_some, hr] at h
  cases h

namespace Grammar

section Rows

variable (g : Grammar)

/-- The role of the symbol of a slot. -/
def roleAt (s : SlotId) : Option Role :=
  (g.symbol (g.slot s).symbol).role

/-- A slot that may stay empty whatever its symbol stands for. -/
def isFree (s : SlotId) : Bool :=
  (g.slot s).multiplicity == .star || (g.symbol (g.slot s).symbol).isOption

/-- The slots of a row up to the first that has to be filled. -/
def fronts : List SlotId → List SlotId
  | [] => []
  | s :: row => s :: if g.isFree s then fronts row else []

/-- The pairs of slots of a row that may be filled one right behind the other. -/
def neighbours : List SlotId → List (SlotId × SlotId)
  | [] => []
  | s :: row => (g.fronts row).map (s, ·) ++ neighbours row

/-- The branches of the choice that a symbol stands for. -/
def rowsOf (x : Symbol) : List (List SlotId) :=
  ((g.bodyOf? x.kind).map g.branchesOf).getD []

/-- Whatever a slot is filled with ends with a newline or a block end, found at most `bound`
levels down. -/
def endsLine : (bound : Nat) → SlotId → Bool
  | 0, _ => false
  | bound + 1, s =>
    if (g.symbol (g.slot s).symbol).isNode then
      (g.rowsOf (g.symbol (g.slot s).symbol)).all fun row =>
        (g.fronts row.reverse).all (endsLine bound)
    else
      g.roleAt s == some .newline || g.roleAt s == some .dedent

end Rows

/-- What may stand right behind what in a branch. -/
structure Adjoins (left right : Option Role) : Prop where
  indent : right = some .indent → left = some .newline
  dedent : right = some .dedent → left = some .statement
  other : right.any Role.isLayout = false → right.any Role.deepens = left.any Role.deepens

instance (left right : Option Role) : Decidable (Adjoins left right) :=
  decidable_of_iff ((right = some .indent → left = some .newline)
      ∧ (right = some .dedent → left = some .statement)
      ∧ (right.any Role.isLayout = false → right.any Role.deepens = left.any Role.deepens))
    ⟨fun h => ⟨h.1, h.2.1, h.2.2⟩, fun h => ⟨h.indent, h.dedent, h.other⟩⟩

/-- A block start weighs as much as the statements behind it, a block end as little as what stands
around the block. -/
theorem Adjoins.balance {left right : Option Role} (h : Adjoins left right) :
    (if right.any Role.deepens then 1 else 0) + (if right = some .dedent then 1 else 0)
      = (if left.any Role.deepens then 1 else 0) + (if right = some .indent then 1 else 0) := by
  rcases hl : right.any Role.isLayout with _ | _
  · rw [h.other hl, if_neg (Role.ne_some_of_not_layout hl rfl),
      if_neg (Role.ne_some_of_not_layout hl rfl)]
  · rcases right with _ | r
    · cases hl
    · cases r with
      | indent => simp [h.indent rfl, Role.deepens]
      | dedent => simp [h.dedent rfl, Role.deepens]
      | newline | assign | name | number | text | statement => cases hl

/-- A grammar of statements that nest in blocks. -/
@[mk_iff]
structure NestsBlocks (g : Grammar) : Prop where
  /-- Only options stand for nothing. -/
  firm : ∀ x ∈ g.symbols.toList, x.isOption = false → ∀ row ∈ g.rowsOf x,
    ∃ s ∈ row, g.isFree s = false
  leaf : ∀ x ∈ g.symbols.toList, (x.role = some .newline ∨ x.role.any Role.isLayout = true) →
    x.isNode = false
  /-- The text of a newline is not fixed. -/
  written : ∀ x ∈ g.symbols.toList, x.role = some .newline → x.literal? = none
  once : ∀ row ∈ g.branches.toList, ∀ s ∈ row, (g.roleAt s).any Role.isLayout = true →
    (g.slot s).multiplicity = .once
  /-- The whole is made of statements. -/
  whole : ∀ row ∈ g.branchesOf (g.rule g.start).body, ∀ s ∈ row, g.roleAt s = some .statement
  first : ∀ x ∈ g.symbols.toList, ∀ row ∈ g.rowsOf x, ∀ s ∈ g.fronts row,
    (g.roleAt s).any Role.isLayout = false ∧ (g.roleAt s).any Role.deepens = false
  last : ∀ x ∈ g.symbols.toList, ∀ row ∈ g.rowsOf x, ∀ s ∈ g.fronts row.reverse,
    (g.roleAt s).any Role.deepens = false
  adjoins : ∀ row ∈ g.branches.toList, ∀ p ∈ g.neighbours row, Adjoins (g.roleAt p.1) (g.roleAt p.2)
  /-- Statements end with a newline or a block end. -/
  ends : ∀ row ∈ g.branches.toList, ∀ s ∈ row, g.roleAt s = some .statement →
    g.endsLine g.choices.size s = true

instance (g : Grammar) : Decidable g.NestsBlocks :=
  decidable_of_iff _ (nestsBlocks_iff g).symm

variable {g : Grammar} {s k : SlotId}

/-! ### Rows -/

theorem mem_fronts : ∀ {xs ys : List SlotId}, (∀ x ∈ xs, g.isFree x = true) →
    s ∈ g.fronts (xs ++ s :: ys)
  | [], _, _ => List.mem_cons_self
  | x :: xs, ys, h => by
    obtain ⟨hx, hxs⟩ := List.forall_mem_cons.1 h
    rw [List.cons_append, fronts, if_pos hx]
    exact List.mem_cons_of_mem _ (mem_fronts hxs)

theorem mem_fronts_reverse {xs ys : List SlotId} (h : ∀ x ∈ ys, g.isFree x = true) :
    s ∈ g.fronts (xs ++ s :: ys).reverse := by
  rw [List.reverse_append, List.reverse_cons, List.append_assoc]
  exact mem_fronts fun x hx => h x (List.mem_reverse.1 hx)

theorem mem_neighbours {mid ys : List SlotId} (h : ∀ x ∈ mid, g.isFree x = true) :
    ∀ xs : List SlotId, (s, k) ∈ g.neighbours (xs ++ s :: (mid ++ k :: ys))
  | [] => List.mem_append_left _ (List.mem_map_of_mem (mem_fronts h))
  | _ :: xs => List.mem_append_right _ (mem_neighbours h xs)

theorem mem_branches {c : ChoiceId} {row : List SlotId} (h : row ∈ g.branchesOf c) (hs : s ∈ row) :
    row ∈ g.branches.toList := by
  obtain ⟨b, -, rfl⟩ := List.mem_map.1 h
  rw [slotIds, Array.getD_eq_getD_getElem?] at hs ⊢
  rcases hb : g.branches[b.index]? with _ | row
  · simp [hb] at hs
  · exact Array.mem_toList_iff.2 (Array.mem_of_getElem? hb)

/-- A number beyond the table is no symbol's; it reads as an empty text without a role. -/
theorem symbol_mem_or (g : Grammar) (x : SymbolId) :
    g.symbol x ∈ g.symbols.toList ∨ g.symbol x = default := by
  rw [symbol, Array.getD_eq_getD_getElem?]
  rcases hx : g.symbols[x.index]? with _ | y
  · exact Or.inr rfl
  · exact Or.inl (Array.mem_toList_iff.2 (Array.mem_of_getElem? hx))

theorem mem_rowsOf {x : SymbolId} {c : ChoiceId} {row : List SlotId}
    (hc : g.bodyOf? (g.symbol x).kind = some c) (hrow : row ∈ g.branchesOf c) :
    row ∈ g.rowsOf (g.symbol x) ∧ g.symbol x ∈ g.symbols.toList := by
  have hmem : row ∈ g.rowsOf (g.symbol x) := by rwa [rowsOf, hc]
  refine ⟨hmem, (g.symbol_mem_or x).resolve_right fun hx => ?_⟩
  rw [hx] at hmem
  cases hmem

namespace NestsBlocks

theorem isOption_of_nullable (h : g.NestsBlocks) {x : SymbolId} (hx : g.Nullable x) :
    (g.symbol x).isOption = true := by
  induction hx with
  | option hx => exact hx
  | @branch x c b hc hb _ ih =>
    by_contra ho
    obtain ⟨hrow, hmem⟩ := mem_rowsOf hc hb
    obtain ⟨s, hs, hfree⟩ := h.firm _ hmem (by simpa using ho) b hrow
    rw [isFree, Bool.or_eq_false_iff, beq_eq_false_iff_ne] at hfree
    rw [ih s hs hfree.1] at hfree
    cases hfree.2

theorem isFree_of_skippable (h : g.NestsBlocks) (hs : g.Skippable s) : g.isFree s = true := by
  rcases hs with hs | hs
  · simp [isFree, hs]
  · simp [isFree, h.isOption_of_nullable hs]

end NestsBlocks

end Grammar

namespace Draft

variable {g : Grammar} {l : Level} {t u gap above : Trail}

/-! ### Loads -/

/-- The role of the node that a place is for. -/
def Level.role? (g : Grammar) (l : Level) : Option Role :=
  g.roleAt l.cell.shape

/-- How many levels of a trail are one further in than the level above. -/
def load (g : Grammar) (t : Trail) : Nat :=
  t.countP fun l => (l.role? g).any Role.deepens

/-- The role of the leaf that a trail leads to. -/
def leafRole? (g : Grammar) : Trail → Option Role
  | [] => none
  | l :: _ => l.role? g

/-- Every level stands in what the next one stands for. -/
def Nested (g : Grammar) (t : Trail) : Prop :=
  t.IsChain fun l k => g.bodyOf? (g.symbol (k.symbol g)).kind = some l.frame.shape

theorem load_cons (g : Grammar) (l : Level) (above : Trail) :
    load g (l :: above) = load g above + if (l.role? g).any Role.deepens then 1 else 0 :=
  List.countP_cons ..

theorem load_cons_of_not (h : (l.role? g).any Role.deepens = false) :
    load g (l :: above) = load g above := by
  simp [load_cons, h]

/-- The slots of a place and behind it are the last ones of a branch. -/
theorem Level.Fits.exists_row (h : l.Fits g) :
    ∃ xs, xs ++ l.cell.shape :: l.laterShapes ∈ g.branchesOf l.frame.shape := by
  obtain ⟨row, hrow, hs⟩ := itemAt?_eq_some.1 h.entry
  have hlater : l.laterShapes = row.drop (l.slot + 1) := by
    rw [Level.laterShapes, Level.later, List.map_drop, h.shaped.map_gaps,
      List.getD_eq_getElem?_getD, hrow, Option.getD_some]
  refine ⟨row.take l.slot, ?_⟩
  rw [hlater, ← (List.getElem?_eq_some_iff.1 hs).2, List.getElem_cons_drop, List.take_append_drop]
  exact List.mem_of_getElem? hrow

/-- Newlines, block starts and block ends are leaves. -/
theorem Level.isLeaf_of_role? (h : g.NestsBlocks)
    (hr : l.role? g = some .newline ∨ (l.role? g).any Role.isLayout = true) :
    l.isLeaf g = true := by
  rw [Level.isLeaf, Bool.not_eq_true']
  rcases g.symbol_mem_or (l.symbol g) with hx | hx
  · exact h.leaf _ hx hr
  · rw [hx]
    rfl

/-- Under a gap the load stays, and a block start or end is the gap itself. -/
theorem Descends.load (hd : Descends g gap u) (h : g.NestsBlocks) : load g u = load g gap ∧
    (u = gap ∨ (leafRole? g u).any Role.isLayout = false
      ∧ (leafRole? g gap).any Role.isLayout = false) := by
  induction hd with
  | leaf => exact ⟨rfl, Or.inl rfl⟩
  | @into l above f before k after u hopen hrow hs _ ih =>
    obtain ⟨hload, hrole⟩ := ih
    have hnode := hopen.isLeaf_eq_false
    have hbranch := hopen.shaped.mem_branchesOf hrow
    obtain ⟨c, hc, rfl⟩ := hopen
    rw [List.map_append, List.map_cons] at hbranch
    obtain ⟨hrow', hx⟩ := Grammar.mem_rowsOf hc hbranch
    have hfront : k.cell.shape ∈ g.fronts (before.map (fun m => m.cell.shape)
        ++ k.cell.shape :: after.map fun m => m.cell.shape) := Grammar.mem_fronts fun r hr => by
      obtain ⟨m, hm, rfl⟩ := List.mem_map.1 hr
      exact h.isFree_of_skippable (hs m hm).2
    obtain ⟨hlay, hdeep⟩ := h.first _ hx _ hrow' _ hfront
    refine ⟨hload.trans (load_cons_of_not hdeep), Or.inr ⟨?_, ?_⟩⟩
    · rcases hrole with rfl | ⟨hu, -⟩
      · exact hlay
      · exact hu
    · by_contra hne
      rw [Level.isLeaf_of_role? h (Or.inr (Bool.not_eq_false _ ▸ hne))] at hnode
      cases hnode

/-- What a branch may end with does not deepen, and ends a line if the node it stands in does. -/
theorem Nested.last {k : Level} (hn : Nested g (l :: k :: above)) (h : g.NestsBlocks)
    (hl : l.Fits g) (hs : ∀ m ∈ l.later, m.CanPass g) : (l.role? g).any Role.deepens = false ∧
      ∀ bound, g.endsLine (bound + 1) k.cell.shape = true → k.isLeaf g = false →
        g.endsLine bound l.cell.shape = true := by
  obtain ⟨xs, hrow⟩ := hl.exists_row
  obtain ⟨hmem, hx⟩ := Grammar.mem_rowsOf (List.isChain_cons_cons.1 hn).1 hrow
  have hfront : l.cell.shape ∈ g.fronts (xs ++ l.cell.shape :: l.laterShapes).reverse :=
    Grammar.mem_fronts_reverse fun r hr => by
      obtain ⟨m, hm, rfl⟩ := List.mem_map.1 hr
      exact h.isFree_of_skippable (hs m hm).2
  refine ⟨h.last _ hx _ hmem _ hfront, fun bound hends hk => ?_⟩
  have hnode : (g.symbol (g.slot k.cell.shape).symbol).isNode = true := by
    rwa [Level.isLeaf, Bool.not_eq_false'] at hk
  rw [Grammar.endsLine, if_pos hnode, List.all_eq_true] at hends
  exact List.all_eq_true.1 (hends _ hmem) _ hfront

/-- Behind a node the load goes up by one at a block start and down by one at a block end. A block
start comes right behind a newline, a block end behind what ends a line. -/
theorem Follows.load (hf : Follows g t gap) (h : g.NestsBlocks) : Standing g t → Nested g t →
    load g gap + (if leafRole? g gap = some .dedent then 1 else 0)
        = load g t + (if leafRole? g gap = some .indent then 1 else 0)
      ∧ (leafRole? g gap = some .indent → leafRole? g t = some .newline)
      ∧ (leafRole? g gap = some .dedent →
        ∀ l ∈ t.head?, ∃ bound, g.endsLine bound l.cell.shape = true) := by
  induction hf with
  | @again l above hf =>
    intro ht _
    have hl := ht.taken l List.mem_cons_self
    have hlay : (l.role? g).any Role.isLayout = false := by
      by_contra hne
      obtain ⟨row, hrow, hs⟩ := mem_of_itemAt? hl.fits.entry
      refine hl.isFull_eq_false_iff.1 hf ?_
      exact h.once row (Grammar.mem_branches hrow hs) _ hs (Bool.not_eq_false _ ▸ hne)
    have hrole : leafRole? g (l.next :: above) = l.role? g := rfl
    have hload : Draft.load g (l.next :: above) = Draft.load g (l :: above) := rfl
    have hindent : l.role? g ≠ some .indent := Role.ne_some_of_not_layout hlay rfl
    have hdedent : l.role? g ≠ some .dedent := Role.ne_some_of_not_layout hlay rfl
    rw [hrole, hload, if_neg hindent, if_neg hdedent]
    exact ⟨rfl, fun hr => absurd hr hindent, fun hr => absurd hr hdedent⟩
  | @later l above before k after hl hrow hs hf =>
    intro ht _
    obtain ⟨xs, hbranch⟩ := (ht.taken l List.mem_cons_self).fits.exists_row
    have hmem := Grammar.mem_branches hbranch (List.mem_append_right xs List.mem_cons_self)
    rw [Level.laterShapes, hrow, List.map_append, List.map_cons] at hmem
    have hadj : Grammar.Adjoins (l.role? g) (k.role? g) :=
      h.adjoins _ hmem _ (Grammar.mem_neighbours (fun r hr => by
        obtain ⟨m, hm, rfl⟩ := List.mem_map.1 hr
        exact h.isFree_of_skippable (hs m hm).2) xs)
    refine ⟨?_, hadj.indent, fun hr m hm => ⟨g.choices.size, ?_⟩⟩
    · have hbalance := hadj.balance
      rw [load_cons, load_cons]
      change _ + (if k.role? g = some .dedent then 1 else 0)
        = _ + (if k.role? g = some .indent then 1 else 0)
      omega
    · obtain rfl : l = m := by simpa using hm
      exact h.ends _ hmem _ (List.mem_append_right xs List.mem_cons_self) (hadj.dedent hr)
  | @up l above gap hl hs hf ih =>
    intro ht hn
    obtain ⟨k, above, rfl⟩ : ∃ k rest, above = k :: rest := by
      cases hf <;> exact ⟨_, _, rfl⟩
    obtain ⟨hdeep, hends⟩ := hn.last h (ht.taken l List.mem_cons_self).fits hs
    have hk : k.isLeaf g = false := ht.node k List.mem_cons_self
    obtain ⟨h1, h2, h3⟩ := ih ht.of_cons (List.isChain_cons_cons.1 hn).2
    refine ⟨by rw [load_cons_of_not hdeep, h1], fun hr => ?_, fun hr m hm => ?_⟩
    · rw [Level.isLeaf_of_role? h (Or.inl (h2 hr))] at hk
      cases hk
    · obtain rfl : l = m := by simpa using hm
      obtain ⟨bound, hb⟩ := h3 hr k rfl
      cases bound with
      | zero => cases hb
      | succ bound => exact ⟨bound, hends bound hb hk⟩

/-- How a leaf's load and role go on from those of the leaf before it. -/
structure Continues (load load' : Nat) (role role' : Option Role) : Prop where
  load : load' + (if role' = some .dedent then 1 else 0)
    = load + (if role' = some .indent then 1 else 0)
  indent : role' = some .indent → role = some .newline
  dedent : role' = some .dedent → role = some .newline ∨ role = some .dedent

theorem leaf_of_endsLine {bound : Nat} (hl : l.isLeaf g = true)
    (h : g.endsLine bound l.cell.shape = true) :
    l.role? g = some .newline ∨ l.role? g = some .dedent := by
  cases bound with
  | zero => cases h
  | succ bound =>
    have hnode : (g.symbol (g.slot l.cell.shape).symbol).isNode = false := by
      rwa [Level.isLeaf, Bool.not_eq_true'] at hl
    rw [Grammar.endsLine, if_neg (by simp [hnode]), Bool.or_eq_true] at h
    exact h.imp beq_iff_eq.1 beq_iff_eq.1

/-- What may come next goes on from the leaf before it. -/
theorem Next.continues (hu : Next g t u) (h : g.NestsBlocks) (ht : Standing g t) (hn : Nested g t)
    (hl : ∀ l ∈ t.head?, l.isLeaf g = true) :
    Continues (load g t) (load g u) (leafRole? g t) (leafRole? g u) := by
  obtain ⟨gap, hf, hd⟩ := hu
  obtain ⟨h1, h2, h3⟩ := hf.load h ht hn
  obtain ⟨hload, hrole⟩ := hd.load h
  have hlast : leafRole? g gap = some .dedent →
      leafRole? g t = some .newline ∨ leafRole? g t = some .dedent := fun hr => by
    cases t with
    | nil => cases hf
    | cons l above =>
      obtain ⟨bound, hb⟩ := h3 hr l rfl
      exact leaf_of_endsLine (hl l rfl) hb
  rcases hrole with rfl | ⟨hu, hgap⟩
  · exact ⟨h1, h2, hlast⟩
  · have hindent : leafRole? g u ≠ some .indent := Role.ne_some_of_not_layout hu rfl
    have hdedent : leafRole? g u ≠ some .dedent := Role.ne_some_of_not_layout hu rfl
    rw [if_neg (Role.ne_some_of_not_layout hgap rfl),
      if_neg (Role.ne_some_of_not_layout hgap rfl)] at h1
    refine ⟨?_, fun hr => absurd hr hindent, fun hr => absurd hr hdedent⟩
    rw [if_neg hindent, if_neg hdedent, hload, h1]

/-- What may come first is one level in and no block start or end. -/
theorem Frame.Opening.load (hu : (Frame.empty g (g.rule g.start).body 0).Opening g u)
    (h : g.NestsBlocks) : load g u = 1 ∧ (leafRole? g u).any Role.isLayout = false := by
  obtain ⟨before, k, after, hrow, -, hd⟩ := hu
  have hbranch := (Frame.shaped_empty g (g.rule g.start).body 0).mem_branchesOf hrow
  have hk : k.role? g = some .statement :=
    h.whole _ hbranch _ (List.mem_map_of_mem (List.mem_append_right before List.mem_cons_self))
  obtain ⟨hload, hrole⟩ := hd.load h
  refine ⟨?_, ?_⟩
  · rw [hload, load_cons, hk]
    rfl
  · rcases hrole with rfl | ⟨hu, -⟩
    · simp [leafRole?, hk, Role.isLayout]
    · exact hu

/-! ### Loads of nodes -/

variable {d e : Draft} {n m : NodeId}

theorem Linked.nested (h : d.Linked) (hn : d.HasNode n) : Nested d.grammar (d.trail n) := by
  induction n, hn using h.lineage_induction with
  | top n hn hm =>
    rw [trail, lineage_of_top hm]
    exact .singleton _
  | up n m hn hm hh ih =>
    obtain ⟨rest, hrest⟩ := d.exists_lineage_eq_cons m
    rw [trail, hrest, List.map_cons] at ih
    rw [trail, h.lineage_of_holder hn hh, hrest, List.map_cons, List.map_cons]
    refine List.isChain_cons_cons.2 ⟨?_, ih⟩
    obtain ⟨-, hinner⟩ := (h.choice _ (h.hasChoice_around hn)).holder m hh
    rw [h.symbol_level hm]
    exact (h.inner m _ hm hinner).shape

theorem Linked.role?_level (h : d.Linked) (hn : d.HasNode n) :
    (d.level n).role? d.grammar = d.role? n := by
  rw [Level.role?, Grammar.roleAt, role?, symbol, ← h.symbol_level hn]
  rfl

theorem Linked.leafRole?_trail (h : d.Linked) (hn : d.HasNode n) :
    leafRole? d.grammar (d.trail n) = d.role? n := by
  rw [h.trail_eq hn, leafRole?, h.role?_level hn]

theorem Linked.load_trail (h : d.Linked) (hn : d.HasNode n) : load d.grammar (d.trail n)
    = (d.lineage n).countP fun m => (d.role? m).any Role.deepens := by
  rw [load, trail, List.countP_map]
  refine List.countP_congr fun m hm => ?_
  rw [Function.comp_apply, h.role?_level (h.index_le_of_mem_lineage hn hm).1]

/-- Filling leaves the loads as they are. -/
theorem SameLinks.load (h : SameLinks d e) (hl : d.Linked) (hn : d.HasNode n) :
    load e.grammar (e.trail n) = load d.grammar (d.trail n) := by
  rw [(h.linked hl).load_trail (h.hasNode.2 hn), hl.load_trail hn, h.lineage]
  simp only [h.role?]

/-- Every node stands in a statement of the whole, or is one. -/
theorem Linked.load_pos (h : d.Linked) (hg : d.grammar.NestsBlocks) (hn : d.HasNode n) :
    0 < load d.grammar (d.trail n) := by
  induction n, hn using h.lineage_induction with
  | top n hn hm =>
    have hroot := h.root_of_holder?_eq_none hn hm
    obtain ⟨row, hrow, hs⟩ := mem_of_itemAt? (h.fits_level hn).entry
    have hshape : (d.level n).frame.shape = (d.grammar.rule d.grammar.start).body := by
      rw [← h.root_shape, Draft.root, ← hroot]
      rfl
    rw [hshape] at hrow
    rw [h.trail_eq hn, load_cons, show (d.level n).role? d.grammar = _ from hg.whole row hrow _ hs]
    exact Nat.succ_pos _
  | up n m hn hm hh ih =>
    rw [h.trail_eq hn, above_of_holder hh, load_cons]
    exact Nat.lt_of_lt_of_le ih (Nat.le_add_right _ _)

/-- The load of a leaf that is no block start counts the statements above it. -/
theorem Linked.length_statementsAbove (h : d.Linked) (hg : d.grammar.NestsBlocks)
    (hn : d.HasNode n) (hr : (d.role? n).any Role.deepens = false) :
    (d.statementsAbove n).length = load d.grammar (d.trail n) := by
  obtain ⟨rest, hrest⟩ := d.exists_lineage_eq_cons n
  rw [h.load_trail hn, statementsAbove, ancestors, hrest, List.tail_cons,
    List.countP_cons_of_neg (by simp [hr]), ← List.countP_eq_length_filter]
  refine List.countP_congr fun m hm => ?_
  have hmn := (h.index_le_of_mem_lineage hn (hrest ▸ List.mem_cons_of_mem _ hm)).1
  have hne : d.role? m ≠ some .indent := fun heq => by
    have hleaf := Level.isLeaf_of_role? hg (l := d.level m)
      (Or.inr (by rw [h.role?_level hmn, heq]; rfl))
    rw [h.isLeaf_level hmn, h.isLeaf_ancestors hn m (by rw [ancestors, hrest]; exact hm)] at hleaf
    cases hleaf
  rcases hm : d.role? m with _ | r
  · simp
  · rw [hm] at hne
    cases r <;> simp_all [Role.deepens]

end Draft

end Cloze
