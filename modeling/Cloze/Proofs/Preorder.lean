import Cloze.Proofs.Landing
import Mathlib.Data.List.Nodup
import Mathlib.Data.List.Perm.Subperm

/-!
# The placed nodes in preorder

`preorder` lists what is placed in a draft from its top down: each node before those under it, and
the nodes of a choice in reading order. Every placed node stands in it once (`mem_preorder`,
`nodup_preorder`), and its leaves are the leaves of the draft (`leaves_eq_filter`).
-/

namespace Cloze.Draft

/-- A node and the placed nodes under it, at most `bound` levels down, each before those under it. -/
def subtreeWithin (d : Draft) : (bound : Nat) → NodeId → List NodeId
  | 0, _ => []
  | bound + 1, n => n :: (d.children n).flatMap (d.subtreeWithin bound)

/-- A node and the placed nodes under it. -/
def subtree (d : Draft) (n : NodeId) : List NodeId :=
  d.subtreeWithin d.nodes.size n

/-- The placed nodes, each before those under it. -/
def preorder (d : Draft) : List NodeId :=
  d.top.flatMap d.subtree

variable {d : Draft} {n m x : NodeId}

/-! ### Children -/

theorem children_of_leaf (hl : d.isLeaf n = true) : d.children n = [] := by
  rcases hc : d.inner? n with _ | c
  · rw [children, hc]
  · rw [isLeaf_of_inner? hc] at hl
    cases hl

theorem Sound.children_ne_nil (h : d.Sound) (hp : (d.node n).placed = true)
    (hl : d.isLeaf n = false) : d.children n ≠ [] := by
  have hn := hasNode_of_placed hp
  obtain ⟨c, hc, hne⟩ := (h.settled.inner n hn hl (by simp)).1 hp
  obtain ⟨k, hk⟩ := Option.ne_none_iff_exists'.1 hne
  obtain ⟨j, s, hs, hcont⟩ := (h.settled.chosen c k).1 hk
  obtain ⟨m, hm⟩ := List.exists_mem_of_ne_nil _ hcont
  obtain ⟨hpm, hslot⟩ := (h.settled.content s m).1 hm
  have hchoice := (h.linked.choice c (hasChoice_of_itemAt? hs)).slots k j s hs
  refine List.ne_nil_of_mem ((h.settled.mem_children h.linked hn).2 ⟨hpm, ?_⟩)
  rw [holder?, choiceAround, hslot, hchoice.2.1]
  exact (h.linked.inner n c hn hc).holder

theorem Sound.placed_children (h : d.Sound) (hp : (d.node n).placed = true) :
    ∀ m ∈ d.children n, (d.node m).placed = true := fun _ hm =>
  ((h.settled.mem_children h.linked (hasNode_of_placed hp)).1 hm).1

theorem Sound.index_lt_of_mem_children (h : d.Sound) (hn : d.HasNode n) (hm : m ∈ d.children n) :
    d.HasNode m ∧ n.index < m.index := by
  obtain ⟨hp, hh⟩ := (h.settled.mem_children h.linked hn).1 hm
  exact ⟨hasNode_of_placed hp, h.linked.holder_lt (hasNode_of_placed hp) hh⟩

/-- Induction from what is placed under a node. -/
theorem Sound.children_induction (h : d.Sound) {motive : ∀ n, (d.node n).placed = true → Prop}
    (step : ∀ n hp, (∀ m ∈ d.children n, ∀ hm, motive m hm) → motive n hp) (n : NodeId)
    (hp : (d.node n).placed = true) : motive n hp := by
  refine step n hp fun m hm hpm => ?_
  have hlt := h.index_lt_of_mem_children (hasNode_of_placed hp) hm
  exact h.children_induction step m hpm
termination_by d.nodes.size - n.index
decreasing_by
  obtain ⟨hm, hlt⟩ := hlt
  have : m.index < d.nodes.size := hm
  omega

/-- Induction from the leaves up over what is placed. -/
theorem Sound.placed_induction (h : d.Sound) {motive : ∀ n, (d.node n).placed = true → Prop}
    (leaf : ∀ n hp, d.isLeaf n = true → motive n hp)
    (inner : ∀ n hp, d.isLeaf n = false → (∀ m ∈ d.children n, ∀ hm, motive m hm) → motive n hp)
    (n : NodeId) (hp : (d.node n).placed = true) : motive n hp := by
  induction n, hp using h.children_induction with
  | step n hp ih =>
    rcases hl : d.isLeaf n with _ | _
    · exact inner n hp hl ih
    · exact leaf n hp hl

/-- There are no more placed nodes than nodes. -/
theorem length_le_size {ns : List NodeId} (hn : ns.Nodup)
    (hp : ∀ n ∈ ns, (d.node n).placed = true) : ns.length ≤ d.nodes.size := by
  have hsub : ns.map NodeId.index ⊆ List.range d.nodes.size := by
    intro i hi
    obtain ⟨m, hm, rfl⟩ := List.mem_map.1 hi
    exact List.mem_range.2 (hasNode_of_placed (hp m hm))
  have hinj : Function.Injective NodeId.index := fun a b hab => by
    cases a
    cases b
    simpa using hab
  simpa using (List.Nodup.subperm (hn.map hinj) hsub).length_le

/-! ### Subtrees -/

theorem Sound.subtreeWithin_eq (h : d.Sound) : ∀ {a b : Nat} {n : NodeId}, d.HasNode n →
    d.nodes.size ≤ n.index + a → d.nodes.size ≤ n.index + b →
    d.subtreeWithin a n = d.subtreeWithin b n
  | 0, _, n, hn, ha, _ => absurd hn (Nat.not_lt.2 ha)
  | _, 0, n, hn, _, hb => absurd hn (Nat.not_lt.2 hb)
  | a + 1, b + 1, n, hn, ha, hb => by
    refine congrArg (n :: ·) (List.flatMap_congr fun m hm => ?_)
    obtain ⟨hm, hlt⟩ := h.index_lt_of_mem_children hn hm
    exact h.subtreeWithin_eq hm (by omega) (by omega)

theorem Sound.subtree_eq (h : d.Sound) (hn : d.HasNode n) :
    d.subtree n = n :: (d.children n).flatMap d.subtree := by
  rw [subtree, h.subtreeWithin_eq (b := d.nodes.size + 1) hn (by omega) (by omega)]
  rfl

theorem Linked.exists_holder_eq (h : d.Linked) (hx : d.HasNode x) :
    n ∈ d.lineage x → n ≠ x → ∃ m ∈ d.lineage x, d.holder? m = some n := by
  induction x, hx using h.lineage_induction with
  | top x hx hh =>
    rw [lineage_of_top hh, List.mem_singleton]
    exact fun heq hne => absurd heq hne
  | up x k hx hk hh ih =>
    rw [h.lineage_of_holder hx hh, List.mem_cons]
    rintro hmem hne
    have hmem := hmem.resolve_left hne
    by_cases hnk : n = k
    · exact ⟨x, List.mem_cons_self, hnk ▸ hh⟩
    · obtain ⟨m, hm, hmn⟩ := ih hmem hnk
      exact ⟨m, List.mem_cons_of_mem _ hm, hmn⟩

/-- Under a placed node are the placed nodes that it stands above. -/
theorem Sound.mem_subtree (h : d.Sound) (hp : (d.node n).placed = true) :
    x ∈ d.subtree n ↔ (d.node x).placed = true ∧ n ∈ d.lineage x := by
  induction n, hp using h.children_induction with
  | step n hp ih =>
    have hn := hasNode_of_placed hp
    rw [h.subtree_eq hn, List.mem_cons, List.mem_flatMap]
    constructor
    · rintro (rfl | ⟨m, hm, hxm⟩)
      · exact ⟨hp, d.mem_lineage_self x⟩
      · obtain ⟨hpm, hh⟩ := (h.settled.mem_children h.linked hn).1 hm
        obtain ⟨hpx, hmem⟩ := (ih m hm hpm).1 hxm
        exact ⟨hpx, h.linked.mem_lineage_holder (hasNode_of_placed hpx) hmem hh⟩
    · rintro ⟨hpx, hmem⟩
      refine or_iff_not_imp_left.2 fun hne => ?_
      have hx := hasNode_of_placed hpx
      obtain ⟨m, hm, hh⟩ := h.linked.exists_holder_eq hx hmem (Ne.symm hne)
      have hpm := h.placed_of_mem_lineage hx hpx hm
      have hchild := (h.settled.mem_children h.linked hn).2 ⟨hpm, hh⟩
      exact ⟨m, hchild, (ih m hchild hpm).2 ⟨hpx, hm⟩⟩

theorem Linked.nodup_row (h : d.Linked) {c : ChoiceId} (k : Nat) :
    ((d.choice c).branches.getD k []).Nodup := by
  rw [List.getD_eq_getElem?_getD]
  rcases hrow : (d.choice c).branches[k]? with _ | row
  · exact List.nodup_nil
  · refine List.nodup_iff_injective_get.2 fun i j hij => Fin.ext ?_
    have hat : ∀ i : Fin row.length, (d.slot (row.get i)).position = i := fun i => by
      have hent := itemAt?_eq_some.2 ⟨row, hrow, List.getElem?_eq_getElem i.2⟩
      exact ((h.choice c (hasChoice_of_itemAt? hent)).slots k i _ hent).2.2.2
    rw [← hat i, ← hat j]
    exact congrArg (fun s => (d.slot s).position) hij

theorem Sound.nodup_contentOf (h : d.Sound) (c : ChoiceId) : (d.contentOf c).Nodup := by
  rw [contentOf, List.nodup_flatMap]
  refine ⟨fun s _ => h.settled.nodup s, ?_⟩
  have hrow : (d.chosenSlots c).Nodup := by
    unfold chosenSlots
    split
    · exact List.nodup_nil
    · exact h.linked.nodup_row _
  refine hrow.imp fun {s t} hne => ?_
  simp only [Function.onFun, List.disjoint_left]
  intro n hs ht
  exact hne (((h.settled.content s n).1 hs).2.symm.trans ((h.settled.content t n).1 ht).2)

theorem Sound.nodup_children (h : d.Sound) (n : NodeId) : (d.children n).Nodup := by
  rw [children]
  split
  · exact List.nodup_nil
  · exact h.nodup_contentOf _

/-- What is listed in a choice is listed once if it is so under each of its nodes. -/
theorem Sound.nodup_flatMap_subtree (h : d.Sound) (c : ChoiceId)
    (hu : ∀ n ∈ d.contentOf c, (d.subtree n).Nodup) :
    ((d.contentOf c).flatMap d.subtree).Nodup := by
  rw [List.nodup_flatMap]
  refine ⟨hu, List.Pairwise.imp_of_mem ?_ (h.nodup_contentOf c)⟩
  intro n m hn hm hne
  simp only [Function.onFun, List.disjoint_left]
  intro x hxn hxm
  obtain ⟨hpn, hcn⟩ := (h.settled.mem_contentOf h.linked).1 hn
  obtain ⟨hpm, hcm⟩ := (h.settled.mem_contentOf h.linked).1 hm
  obtain ⟨hpx, hnx⟩ := (h.mem_subtree hpn).1 hxn
  obtain ⟨-, hmx⟩ := (h.mem_subtree hpm).1 hxm
  exact hne (h.linked.eq_of_choiceAround (hasNode_of_placed hpx) hnx hmx (hcn.trans hcm.symm))

theorem Sound.nodup_subtree (h : d.Sound) (hp : (d.node n).placed = true) :
    (d.subtree n).Nodup := by
  induction n, hp using h.children_induction with
  | step n hp ih =>
    have hn := hasNode_of_placed hp
    rw [h.subtree_eq hn, List.nodup_cons]
    constructor
    · intro hmem
      obtain ⟨m, hm, hnm⟩ := List.mem_flatMap.1 hmem
      -- A node lies above those under it, so it is not among them.
      have hlt := (h.index_lt_of_mem_children hn hm).2
      have hle := h.linked.index_le_of_mem_lineage hn
        ((h.mem_subtree (h.placed_children hp m hm)).1 hnm).2
      omega
    · have hu := fun m hm => ih m hm (h.placed_children hp m hm)
      rw [children] at hu ⊢
      split
      · simp
      · rename_i c hc
        exact h.nodup_flatMap_subtree c (by simpa [hc] using hu)

/-! ### The whole draft -/

theorem Linked.exists_top (h : d.Linked) (hx : d.HasNode x) :
    ∃ m ∈ d.lineage x, d.holder? m = none := by
  induction x, hx using h.lineage_induction with
  | top x hx hh => exact ⟨x, d.mem_lineage_self x, hh⟩
  | up x k hx hk hh ih =>
    obtain ⟨m, hm, hnone⟩ := ih
    exact ⟨m, by rw [h.lineage_of_holder hx hh]; exact List.mem_cons_of_mem _ hm, hnone⟩

/-- What is listed is what is placed. -/
theorem Sound.mem_preorder (h : d.Sound) : x ∈ d.preorder ↔ (d.node x).placed = true := by
  rw [preorder, List.mem_flatMap]
  constructor
  · rintro ⟨n, hn, hx⟩
    exact ((h.mem_subtree ((h.settled.mem_contentOf h.linked).1 hn).1).1 hx).1
  · intro hp
    have hx := hasNode_of_placed hp
    obtain ⟨m, hm, hnone⟩ := h.linked.exists_top hx
    have hpm := h.placed_of_mem_lineage hx hp hm
    refine ⟨m, (h.settled.mem_contentOf h.linked).2 ⟨hpm, ?_⟩, (h.mem_subtree hpm).2 ⟨hp, hm⟩⟩
    exact h.linked.root_of_holder?_eq_none (hasNode_of_placed hpm) hnone

/-- Nothing is listed twice. -/
theorem Sound.nodup_preorder (h : d.Sound) : d.preorder.Nodup :=
  h.nodup_flatMap_subtree _ fun _ hn => h.nodup_subtree ((h.settled.mem_contentOf h.linked).1 hn).1

/-! ### Leaves -/

theorem leavesWithin_eq_filter (d : Draft) : ∀ (bound : Nat) (n : NodeId),
    d.leavesWithin bound n = (d.subtreeWithin bound n).filter d.isLeaf
  | 0, _ => rfl
  | bound + 1, n => by
    rw [leavesWithin, subtreeWithin, List.filter_cons]
    split
    · rename_i hl
      simp [children_of_leaf hl]
    · rw [List.filter_flatMap]
      exact List.flatMap_congr fun m _ => d.leavesWithin_eq_filter bound m

theorem under_eq_filter (d : Draft) (n : NodeId) : d.under n = (d.subtree n).filter d.isLeaf :=
  d.leavesWithin_eq_filter _ n

/-- The leaves are the leaves among what is listed, in the same order. -/
theorem leaves_eq_filter (d : Draft) : d.leaves = d.preorder.filter d.isLeaf := by
  rw [preorder, List.filter_flatMap]
  exact List.flatMap_congr fun n _ => d.under_eq_filter n

theorem Sound.under_ne_nil (h : d.Sound) (hp : (d.node n).placed = true) : d.under n ≠ [] := by
  induction n, hp using h.placed_induction with
  | leaf n hp hl =>
    rw [under_of_leaf (hasNode_of_placed hp) hl]
    simp
  | inner n hp hl ih =>
    obtain ⟨m, hm⟩ := List.exists_mem_of_ne_nil _ (h.children_ne_nil hp hl)
    rw [h.settled.under_of_inner h.linked (hasNode_of_placed hp) hl, ne_eq, List.flatMap_eq_nil_iff]
    exact fun hall => ih m hm (h.placed_children hp m hm) (hall m hm)

/-- The leaves of a draft are the placed ones. -/
theorem Sound.mem_leaves (h : d.Sound) :
    x ∈ d.leaves ↔ (d.node x).placed = true ∧ d.isLeaf x = true := by
  rw [leaves_eq_filter, List.mem_filter, h.mem_preorder]

/-- No leaf is read twice. -/
theorem Sound.nodup_leaves (h : d.Sound) : d.leaves.Nodup := by
  rw [leaves_eq_filter]
  exact h.nodup_preorder.filter _

end Cloze.Draft
