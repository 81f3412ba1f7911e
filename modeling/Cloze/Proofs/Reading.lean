import Cloze.Proofs.Filling

/-!
# Reading order

The leaves of a draft are read branch by branch and slot by slot. `before` are the leaves read
before a node, on its own level and on the levels above; `under` are those below it. A leaf that is
filled stands right behind the leaves before it, and no other leaf moves (`Places.leaves`).
-/

namespace Cloze.Draft

variable {d e : Draft} {n m : NodeId} {next : Option NodeId}

/-! ### Content -/

/-- The nodes placed before a node in its choice. -/
def leftOf (d : Draft) (n : NodeId) : List NodeId :=
  (d.slotsBefore (d.node n).slot).reverse.flatMap (fun s => (d.slot s).content)
    ++ (d.slot (d.node n).slot).content.take (d.node n).position

/-- The nodes placed behind a node in its choice. -/
def rightOf (d : Draft) (n : NodeId) : List NodeId :=
  (d.slot (d.node n).slot).content.drop
      (if (d.node n).placed then (d.node n).position + 1 else (d.node n).position)
    ++ (d.slotsAfter (d.node n).slot).flatMap fun s => (d.slot s).content

theorem Linked.row_eq (hl : d.Linked) {s : SlotId} (hs : d.HasSlot s) :
    (d.choice (d.slot s).choice).branches.getD (d.slot s).branch []
      = (d.slotsBefore s).reverse ++ s :: d.slotsAfter s := by
  obtain ⟨row, hrow, hj⟩ := itemAt?_eq_some.1 (hl.slot s hs).entry
  obtain ⟨hlt, hget⟩ := List.getElem?_eq_some_iff.1 hj
  simp only [slotsBefore, slotsAfter, List.getD_eq_getElem?_getD, hrow, Option.getD_some,
    List.reverse_reverse]
  conv_lhs => rw [← List.take_append_drop (d.slot s).position row, List.drop_eq_getElem_cons hlt, hget]

theorem SettledBut.mem_contentOf (h : SettledBut next d) (hl : d.Linked) {c : ChoiceId} :
    n ∈ d.contentOf c ↔ (d.node n).placed = true ∧ d.choiceAround n = c := by
  unfold contentOf chosenSlots
  constructor
  · intro hn
    obtain ⟨s, hs, hns⟩ := List.mem_flatMap.1 hn
    obtain ⟨hp, rfl⟩ := (h.content s n).1 hns
    refine ⟨hp, ?_⟩
    rcases hk : (d.choice c).chosen with _ | k
    · simp [hk] at hs
    · rw [hk] at hs
      exact (hl.hasSlot_of_mem_branch hs).2
  · rintro ⟨hp, rfl⟩
    have hs := (hl.node n (hasNode_of_placed hp)).slot
    have hmem := (h.content _ n).2 ⟨hp, rfl⟩
    have hk := (h.chosen _ _).2 ⟨_, _, (hl.slot _ hs).entry, List.ne_nil_of_mem hmem⟩
    rw [choiceAround, hk]
    simp only [hl.row_eq hs]
    exact List.mem_flatMap.2 ⟨_, by simp, hmem⟩

theorem SettledBut.mem_children (h : SettledBut next d) (hl : d.Linked) (hm : d.HasNode m) :
    n ∈ d.children m ↔ (d.node n).placed = true ∧ d.holder? n = some m := by
  unfold children
  constructor
  · intro hn
    rcases hc : d.inner? m with _ | c
    · simp [hc] at hn
    · rw [hc] at hn
      obtain ⟨hp, hcn⟩ := (h.mem_contentOf hl).1 hn
      exact ⟨hp, by rw [holder?, hcn, (hl.inner m c hm hc).holder]⟩
  · rintro ⟨hp, hh⟩
    rw [hl.inner?_holder (hasNode_of_placed hp) hh]
    exact (h.mem_contentOf hl).2 ⟨hp, rfl⟩

/-- The nodes of a choice around a place in the branch taken. -/
theorem Linked.contentOf_eq (hl : d.Linked) {s : SlotId} (hs : d.HasSlot s)
    (hk : (d.choice (d.slot s).choice).chosen = some (d.slot s).branch) :
    d.contentOf (d.slot s).choice = (d.slotsBefore s).reverse.flatMap (fun s => (d.slot s).content)
      ++ (d.slot s).content ++ (d.slotsAfter s).flatMap fun s => (d.slot s).content := by
  simp only [contentOf, chosenSlots, hk, hl.row_eq hs, List.flatMap_append, List.flatMap_cons,
    List.append_assoc]

theorem SettledBut.chosen_of_placed (h : SettledBut next d) (hl : d.Linked)
    (hp : (d.node n).placed = true) :
    (d.choice (d.choiceAround n)).chosen = some (d.slot (d.node n).slot).branch :=
  (h.chosen _ _).2 ⟨_, _, (hl.slot _ (hl.node n (hasNode_of_placed hp)).slot).entry,
    List.ne_nil_of_mem ((h.content _ n).2 ⟨hp, rfl⟩)⟩

theorem SettledBut.contentOf_of_placed (h : SettledBut next d) (hl : d.Linked)
    (hp : (d.node n).placed = true) :
    d.contentOf (d.choiceAround n) = d.leftOf n ++ n :: d.rightOf n := by
  have hn := hasNode_of_placed hp
  obtain ⟨hlt, hget⟩ := List.getElem?_eq_some_iff.1 (h.content_at hp)
  rw [choiceAround, hl.contentOf_eq (hl.node n hn).slot (h.chosen_of_placed hl hp)]
  conv_lhs => rw [← List.take_append_drop (d.node n).position (d.slot (d.node n).slot).content,
    List.drop_eq_getElem_cons hlt, hget]
  simp [leftOf, rightOf, hp]

/-- Nothing stands beside a node whose choice has taken no branch. -/
theorem SettledBut.sides_eq_nil (h : SettledBut next d) (hl : d.Linked) (hn : d.HasNode n)
    (hc : (d.choice (d.choiceAround n)).chosen = none) : d.leftOf n = [] ∧ d.rightOf n = [] := by
  have hs := (hl.node n hn).slot
  have hrow : ∀ t ∈ (d.choice (d.choiceAround n)).branches.getD (d.slot (d.node n).slot).branch [],
      (d.slot t).content = [] := by
    intro t ht
    obtain ⟨h1, h2⟩ := hl.hasSlot_of_mem_branch ht
    by_contra hne
    have := (h.chosen _ _).2 ⟨_, t, (hl.slot t h1).entry, hne⟩
    rw [h2, hc] at this
    cases this
  rw [choiceAround, hl.row_eq hs] at hrow
  have h1 : (d.slotsBefore (d.node n).slot).reverse.flatMap (fun s => (d.slot s).content) = [] :=
    List.flatMap_eq_nil_iff.2 fun t ht => hrow t (List.mem_append_left _ ht)
  have h2 : (d.slotsAfter (d.node n).slot).flatMap (fun s => (d.slot s).content) = [] :=
    List.flatMap_eq_nil_iff.2 fun t ht =>
      hrow t (List.mem_append_right _ (List.mem_cons_of_mem _ ht))
  rw [leftOf, rightOf, h1, h2, hrow _ (by simp)]
  simp

theorem SettledBut.contentOf_of_gap (h : SettledBut next d) (hl : d.Linked) (hn : d.HasNode n)
    (hp : (d.node n).placed = false)
    (hk : ∀ k, (d.choice (d.choiceAround n)).chosen = some k → k = (d.slot (d.node n).slot).branch) :
    d.contentOf (d.choiceAround n) = d.leftOf n ++ d.rightOf n := by
  rcases hc : (d.choice (d.choiceAround n)).chosen with _ | k
  · obtain ⟨h1, h2⟩ := h.sides_eq_nil hl hn hc
    simp [h1, h2, contentOf, chosenSlots, hc]
  · rw [hk k hc] at hc
    rw [choiceAround, hl.contentOf_eq (hl.node n hn).slot hc]
    conv_lhs => rw [← List.take_append_drop (d.node n).position (d.slot (d.node n).slot).content]
    simp only [leftOf, rightOf, hp, Bool.false_eq_true, if_false, List.append_assoc]

/-! ### Leaves -/

/-- The leaves under a node. -/
def under (d : Draft) (n : NodeId) : List NodeId :=
  d.leavesWithin d.nodes.size n

/-- A bound on the number of levels that is large enough makes no difference. -/
theorem SettledBut.leavesWithin_eq (h : SettledBut next d) (hl : d.Linked) :
    ∀ {a b : Nat} {n : NodeId}, d.HasNode n → d.nodes.size ≤ n.index + a →
      d.nodes.size ≤ n.index + b → d.leavesWithin a n = d.leavesWithin b n
  | 0, _, n, hn, ha, _ => absurd hn (Nat.not_lt.2 ha)
  | _, 0, n, hn, _, hb => absurd hn (Nat.not_lt.2 hb)
  | a + 1, b + 1, n, hn, ha, hb => by
    simp only [leavesWithin]
    split
    · rfl
    · refine List.flatMap_congr fun m hm => ?_
      obtain ⟨hp, hh⟩ := (h.mem_children hl hn).1 hm
      have hlt := hl.holder_lt (hasNode_of_placed hp) hh
      exact h.leavesWithin_eq hl (hasNode_of_placed hp) (by omega) (by omega)

theorem SettledBut.under_of_inner (h : SettledBut next d) (hl : d.Linked) (hn : d.HasNode n)
    (hleaf : d.isLeaf n = false) : d.under n = (d.children n).flatMap d.under := by
  obtain ⟨k, hk⟩ : ∃ k, d.nodes.size = k + 1 := ⟨d.nodes.size - 1, by
    have : n.index < d.nodes.size := hn
    omega⟩
  rw [under, hk, leavesWithin, if_neg (by simp [hleaf])]
  refine List.flatMap_congr fun m hm => ?_
  obtain ⟨hp, hh⟩ := (h.mem_children hl hn).1 hm
  have hlt := hl.holder_lt (hasNode_of_placed hp) hh
  exact h.leavesWithin_eq hl (hasNode_of_placed hp) (by omega) (by omega)

theorem under_of_leaf (hn : d.HasNode n) (hleaf : d.isLeaf n = true) : d.under n = [n] := by
  obtain ⟨k, hk⟩ : ∃ k, d.nodes.size = k + 1 := ⟨d.nodes.size - 1, by
    have : n.index < d.nodes.size := hn
    omega⟩
  rw [under, hk, leavesWithin, if_pos hleaf]

theorem leaves_eq (d : Draft) : d.leaves = (d.contentOf ⟨0⟩).flatMap d.under := rfl

/-- Two drafts have the same leaves under a node if all that is met on the way down is the same. -/
theorem leavesWithin_congr {P : NodeId → Prop} (hP : ∀ x, P x → e.isLeaf x = d.isLeaf x ∧
    e.children x = d.children x ∧ ∀ y ∈ d.children x, P y) :
    ∀ (bound : Nat) {x : NodeId}, P x → e.leavesWithin bound x = d.leavesWithin bound x
  | 0, _, _ => rfl
  | bound + 1, x, hx => by
    obtain ⟨h1, h2, h3⟩ := hP x hx
    simp only [leavesWithin, h1, h2]
    split
    · rfl
    · exact List.flatMap_congr fun y hy => leavesWithin_congr hP bound (h3 y hy)

theorem Retouches.contentOf (h : Retouches d e) (c : ChoiceId) : e.contentOf c = d.contentOf c := by
  simp only [Draft.contentOf, chosenSlots, h.choice, h.slot]

theorem Retouches.children (h : Retouches d e) (n : NodeId) : e.children n = d.children n := by
  simp only [Draft.children, h.links.inner?, h.contentOf]

theorem Retouches.under (h : Retouches d e) (n : NodeId) : e.under n = d.under n := by
  rw [Draft.under, Draft.under, h.links.nodes]
  exact leavesWithin_congr (P := fun _ => True)
    (fun x _ => ⟨h.links.isLeaf x, h.children x, fun _ _ => trivial⟩) _ trivial

/-- Tokens and notes do not matter for the order. -/
theorem Retouches.leaves (h : Retouches d e) : e.leaves = d.leaves := by
  rw [leaves_eq, leaves_eq, h.contentOf]
  exact List.flatMap_congr fun n _ => h.under n

theorem Grows.contentOf (h : Grows d e) {c : ChoiceId} (hc : d.HasChoice c) :
    e.contentOf c = d.contentOf c := by
  simp only [Draft.contentOf, chosenSlots, h.choice c hc, h.content]

theorem Grows.children (h : Grows d e) (hl : d.Linked) (hs : d.Settled)
    (hp : (d.node n).placed = true) : e.children n = d.children n := by
  have hn := hasNode_of_placed hp
  unfold Draft.children
  rcases hleaf : d.isLeaf n with _ | _
  · obtain ⟨c, hc, -⟩ := (hs.inner n hn hleaf (by simp)).1 hp
    rw [hc, h.inner? hn hc]
    exact h.contentOf (hl.inner n c hn hc).choice
  · have hnone : ∀ f : Draft, f.isLeaf n = true → f.inner? n = none := fun f hf => by
      rcases hc : f.inner? n with _ | c
      · rfl
      · rw [isLeaf_of_inner? hc] at hf
        cases hf
    rw [hnone d hleaf, hnone e ((h.isLeaf hn).trans hleaf)]

/-- Growth moves no leaf. -/
theorem Keeps.leaves (h : Keeps d e) (hd : d.Sound) : e.leaves = d.leaves := by
  have hstep : ∀ x, (d.node x).placed = true → e.isLeaf x = d.isLeaf x ∧
      e.children x = d.children x ∧ ∀ y ∈ d.children x, (d.node y).placed = true := fun x hx =>
    ⟨h.grows.isLeaf (hasNode_of_placed hx), h.grows.children hd.linked hd.settled hx, fun y hy =>
      ((hd.settled.mem_children hd.linked (hasNode_of_placed hx)).1 hy).1⟩
  rw [leaves_eq, leaves_eq, h.grows.contentOf hd.linked.root]
  refine List.flatMap_congr fun x hx => ?_
  have hp := ((hd.settled.mem_contentOf hd.linked).1 hx).1
  rw [under, leavesWithin_congr hstep _ hp]
  exact hd.settled.leavesWithin_eq hd.linked (hasNode_of_placed hp)
    (Nat.le_trans h.grows.nodes (Nat.le_add_left ..)) (Nat.le_add_left ..)

/-! ### Leaves before a node -/

/-- The leaves read before a node. -/
def before (d : Draft) (n : NodeId) : List NodeId :=
  (d.lineage n).reverse.flatMap fun m => (d.leftOf m).flatMap d.under

theorem before_of_top (hm : d.holder? n = none) : d.before n = (d.leftOf n).flatMap d.under := by
  simp [before, lineage_of_top hm]

theorem Linked.before_of_holder (hl : d.Linked) (hn : d.HasNode n) (hm : d.holder? n = some m) :
    d.before n = d.before m ++ (d.leftOf n).flatMap d.under := by
  simp [before, hl.lineage_of_holder hn hm]

theorem Retouches.before (h : Retouches d e) (n : NodeId) : e.before n = d.before n := by
  have hleft : ∀ m, e.leftOf m = d.leftOf m := fun m => by
    simp only [leftOf, slotsBefore, (h.node_eq m).2.2, (h.node_eq m).2.1, h.slot, h.choice]
  rw [Draft.before, Draft.before, h.links.lineage]
  refine List.flatMap_congr fun m _ => ?_
  rw [hleft]
  exact List.flatMap_congr fun x _ => h.under x

/-- A lineage passes every choice once. -/
theorem Linked.eq_of_choiceAround (hl : d.Linked) (hn : d.HasNode n) {x y : NodeId}
    (hx : x ∈ d.lineage n) (hy : y ∈ d.lineage n) (h : d.choiceAround x = d.choiceAround y) :
    x = y := by
  induction n, hn using hl.lineage_induction with
  | top n hn hm =>
    rw [lineage_of_top hm, List.mem_singleton] at hx hy
    rw [hx, hy]
  | up n m hn hm hh ih =>
    rw [hl.lineage_of_holder hn hh, List.mem_cons] at hx hy
    rcases hx with rfl | hx <;> rcases hy with rfl | hy
    · rfl
    · exact absurd h.symm (hl.choiceAround_ne hn hh hy)
    · exact absurd h (hl.choiceAround_ne hn hh hx)
    · exact ih hx hy

/-- A lineage goes on to its end. -/
theorem Linked.mem_lineage_holder (hl : d.Linked) (hn : d.HasNode n) {x y : NodeId}
    (hx : x ∈ d.lineage n) (hy : d.holder? x = some y) : y ∈ d.lineage n := by
  induction n, hn using hl.lineage_induction with
  | top n hn hm =>
    rw [lineage_of_top hm, List.mem_singleton] at hx
    rw [hx, hm] at hy
    cases hy
  | up n m hn hm hh ih =>
    rw [hl.lineage_of_holder hn hh, List.mem_cons] at hx ⊢
    rcases hx with rfl | hx
    · rw [hh] at hy
      cases hy
      exact Or.inr (d.mem_lineage_self y)
    · exact Or.inr (ih hx)

theorem Linked.not_mem_slots (hl : d.Linked) {s : SlotId} (hs : d.HasSlot s) :
    s ∉ (d.slotsBefore s).reverse ∧ s ∉ d.slotsAfter s := by
  obtain ⟨row, hrow, -⟩ := itemAt?_eq_some.1 (hl.slot s hs).entry
  have hat : ∀ i : Nat, row[i]? = some s → (d.slot s).position = i := fun i hi =>
    ((hl.choice _ (hl.slot s hs).choice).slots _ i s (itemAt?_eq_some.2 ⟨row, hrow, hi⟩)).2.2.2
  simp only [slotsBefore, slotsAfter, List.getD_eq_getElem?_getD, hrow, Option.getD_some,
    List.reverse_reverse]
  constructor
  · intro hmem
    obtain ⟨i, hi⟩ := List.mem_iff_getElem?.1 hmem
    rw [List.getElem?_take] at hi
    split at hi
    · have := hat i hi
      omega
    · cases hi
  · intro hmem
    obtain ⟨i, hi⟩ := List.mem_iff_getElem?.1 hmem
    rw [List.getElem?_drop] at hi
    have := hat _ hi
    omega

/-- What stands beside a node is placed in the same choice, and is not the node itself. -/
theorem SettledBut.mem_sides (h : SettledBut next d) (hl : d.Linked) (hn : d.HasNode n)
    {x : NodeId} (hx : x ∈ d.leftOf n ++ d.rightOf n) :
    (d.node x).placed = true ∧ d.choiceAround x = d.choiceAround n ∧ x ≠ n := by
  have hs := (hl.node n hn).slot
  obtain ⟨hb, ha⟩ := hl.not_mem_slots hs
  have hslots : ∀ t, t ∈ (d.slotsBefore (d.node n).slot).reverse ∨ t ∈ d.slotsAfter (d.node n).slot →
      x ∈ (d.slot t).content →
      (d.node x).placed = true ∧ d.choiceAround x = d.choiceAround n ∧ x ≠ n := by
    intro t ht hxt
    obtain ⟨hp, rfl⟩ := (h.content t x).1 hxt
    refine ⟨hp, ?_, ?_⟩
    · rcases ht with ht | ht
      · exact (hl.mem_slotsBefore (List.mem_reverse.1 ht)).2
      · exact (hl.mem_slotsAfter ht).2
    · rintro rfl
      exact ht.elim hb ha
  have hcontent : ∀ i : Nat, (d.slot (d.node n).slot).content[i]? = some x →
      ((d.node n).placed = true → i ≠ (d.node n).position) →
      (d.node x).placed = true ∧ d.choiceAround x = d.choiceAround n ∧ x ≠ n := by
    intro i hi hne
    obtain ⟨hp, hslot⟩ := (h.content _ x).1 (List.mem_of_getElem? hi)
    refine ⟨hp, by rw [choiceAround, hslot, choiceAround], ?_⟩
    rintro rfl
    exact hne hp (h.position _ i x hi).symm
  simp only [leftOf, rightOf, List.mem_append, List.mem_flatMap] at hx
  rcases hx with (⟨t, ht, hxt⟩ | hx) | (hx | ⟨t, ht, hxt⟩)
  · exact hslots t (Or.inl ht) hxt
  · obtain ⟨i, hi⟩ := List.mem_iff_getElem?.1 hx
    rw [List.getElem?_take] at hi
    split at hi
    · exact hcontent i hi fun _ => by omega
    · cases hi
  · obtain ⟨i, hi⟩ := List.mem_iff_getElem?.1 hx
    rw [List.getElem?_drop] at hi
    refine hcontent _ hi fun hp => ?_
    rw [hp, if_pos rfl]
    omega
  · exact hslots t (Or.inr ht) hxt

/-- The draft `e` reads like `d` beside a node. -/
structure Beside (d : Draft) (y : NodeId) (e : Draft) : Prop where
  content : e.contentOf (d.choiceAround y) = d.contentOf (d.choiceAround y)
  under : ∀ x ∈ d.leftOf y ++ d.rightOf y, e.under x = d.under x

theorem Beside.flatMap (hb : Beside d n e) (h : SettledBut next d) (hl : d.Linked)
    (hp : (d.node n).placed = true) : (e.contentOf (d.choiceAround n)).flatMap e.under =
      (d.leftOf n).flatMap d.under ++ e.under n ++ (d.rightOf n).flatMap d.under := by
  rw [hb.content, h.contentOf_of_placed hl hp, List.flatMap_append, List.flatMap_cons,
    List.append_assoc,
    List.flatMap_congr fun x hx => hb.under x (List.mem_append_left _ hx),
    List.flatMap_congr fun x hx => hb.under x (List.mem_append_right _ hx)]

/-- The leaves around a placed node are those before it, those under it, and others. -/
theorem SettledBut.exists_leaves_around (h : SettledBut next d) (hl : d.Linked) (hn : d.HasNode n)
    (hp : ∀ m ∈ d.lineage n, (d.node m).placed = true) : ∃ after, ∀ e next', SameLinks d e →
      SettledBut next' e → (∀ y ∈ d.lineage n, Beside d y e) →
      e.leaves = d.before n ++ e.under n ++ after := by
  have hpn := hp n (d.mem_lineage_self n)
  induction n, hn using hl.lineage_induction with
  | top n hn hm =>
    refine ⟨(d.rightOf n).flatMap d.under, fun e next' hsl he hbe => ?_⟩
    rw [leaves_eq, ← hl.root_of_holder?_eq_none hn hm,
      (hbe n (d.mem_lineage_self n)).flatMap h hl hpn, before_of_top hm]
  | up n m hn hm hh ih =>
    rw [hl.lineage_of_holder hn hh] at hp ⊢
    obtain ⟨hpn, hpm⟩ := List.forall_mem_cons.1 hp
    obtain ⟨after, hafter⟩ := ih hpm (hpm m (d.mem_lineage_self m))
    refine ⟨(d.rightOf n).flatMap d.under ++ after, fun e next' hsl he hbe => ?_⟩
    obtain ⟨hbn, hbm⟩ := List.forall_mem_cons.1 hbe
    have hin := hl.inner?_holder hn hh
    have hunder : e.under m = (e.contentOf (d.choiceAround n)).flatMap e.under := by
      rw [he.under_of_inner (hsl.linked hl) (hsl.hasNode.2 hm)
        ((hsl.isLeaf m).trans (isLeaf_of_inner? hin)), children, hsl.inner?, hin]
    rw [hafter e next' hsl he hbm, hunder, hbn.flatMap h hl hpn, hl.before_of_holder hn hh]
    simp only [List.append_assoc]

/-! ### Entering a node -/

section Enter

variable (h : SettledBut next d) (hl : d.Linked) (hn : d.HasNode n)
  (hp : (d.node n).placed = false)

include h hn hp

include hl in
theorem contentOf_enter_of_ne {c : ChoiceId} (hc : c ≠ d.choiceAround n) :
    (d.enter n).contentOf c = d.contentOf c := by
  have hsl := sameLinks_enter h hn hp
  have hslots : (d.enter n).chosenSlots c = d.chosenSlots c := by
    rw [chosenSlots, chosen_enter_of_ne hc, (hsl.choice_eq c).2.2.2.2, chosenSlots]
  rw [contentOf, hslots, contentOf]
  refine List.flatMap_congr fun s hs => content_enter_of_ne ?_
  rintro rfl
  unfold chosenSlots at hs
  split at hs
  · cases hs
  · exact hc (hl.hasSlot_of_mem_branch hs).2.symm

include hl in
/-- Entering a node changes nothing under nodes it does not lie under. -/
theorem under_enter {x : NodeId} (hx : d.HasNode x)
    (hne : ∀ m, d.holder? n = some m → x ∉ d.lineage m) : (d.enter n).under x = d.under x := by
  have hsl := sameLinks_enter h hn hp
  rw [under, under, hsl.nodes]
  refine leavesWithin_congr (P := fun x => d.HasNode x ∧ ∀ m, d.holder? n = some m →
    x ∉ d.lineage m) (fun x ⟨hx, hne⟩ => ⟨hsl.isLeaf x, ?_, fun y hy => ?_⟩) _ ⟨hx, hne⟩
  · unfold children
    rw [hsl.inner?]
    split
    · rfl
    · rename_i c hc
      refine contentOf_enter_of_ne h hl hn hp ?_
      rintro rfl
      exact hne x (hl.inner x _ hx hc).holder (d.mem_lineage_self x)
  · obtain ⟨hpy, hhy⟩ := (h.mem_children hl hx).1 hy
    refine ⟨hasNode_of_placed hpy, fun m hm hmem => hne m hm ?_⟩
    exact hl.mem_lineage_holder (hl.hasNode_holder hn hm) hmem hhy

include hl in
/-- Entering a node under a gap changes nothing that can be read. -/
theorem leaves_enter_of_gap (hm : d.holder? n = some m) (hpm : (d.node m).placed = false) :
    (d.enter n).leaves = d.leaves := by
  have hsl := sameLinks_enter h hn hp
  have hroot : (⟨0⟩ : ChoiceId) ≠ d.choiceAround n := fun heq => by
    have := hl.root_holder
    rw [root, heq, show (d.choice (d.choiceAround n)).holder = some m from hm] at this
    cases this
  rw [leaves_eq, leaves_eq, contentOf_enter_of_ne h hl hn hp hroot]
  refine List.flatMap_congr fun x hx => ?_
  rw [under, under, hsl.nodes]
  refine leavesWithin_congr (P := fun x => (d.node x).placed = true)
    (fun x hx => ⟨hsl.isLeaf x, ?_, fun y hy => ?_⟩) _ ((h.mem_contentOf hl).1 hx).1
  · unfold children
    rw [hsl.inner?]
    split
    · rfl
    · rename_i c hc
      refine contentOf_enter_of_ne h hl hn hp ?_
      rintro rfl
      have := (hl.inner x _ (hasNode_of_placed hx) hc).holder
      rw [show (d.choice (d.choiceAround n)).holder = some m from hm] at this
      cases this
      rw [hpm] at hx
      cases hx
  · exact ((h.mem_children hl (hasNode_of_placed hx)).1 hy).1

include hl in
/-- Entering a node leaves what stands beside it. -/
theorem sides_enter : (d.enter n).leftOf n = d.leftOf n ∧ (d.enter n).rightOf n = d.rightOf n := by
  have hslot := ((sameLinks_enter h hn hp).node n).2
  have hpos : ((d.enter n).node n).position = (d.node n).position := by
    rw [position_enter h hn hp, if_neg (h.not_mem_laterThan hp n)]
  have hpl : ((d.enter n).node n).placed = true := by
    rw [placed_enter h hn hp, if_pos rfl]
  have hs := hl.not_mem_slots (hl.node n hn).slot
  have hother : ∀ slots : List SlotId, (d.node n).slot ∉ slots →
      slots.flatMap (fun s => ((d.enter n).slot s).content)
        = slots.flatMap fun s => (d.slot s).content := fun slots hns =>
    List.flatMap_congr fun s hmem => content_enter_of_ne fun heq => hns (heq ▸ hmem)
  have hle := h.gap n hn hp
  constructor
  · rw [leftOf, leftOf, hslot, hpos, (sameLinks_enter h hn hp).slotsBefore, hother _ hs.1, content_enter hl hn,
      List.take_insertIdx_eq_take_of_le _ _ _ _ (Nat.le_refl _)]
  · rw [rightOf, rightOf, hslot, hpos, hpl, hp, (sameLinks_enter h hn hp).slotsAfter, hother _ hs.2,
      content_enter hl hn, if_pos rfl, if_neg Bool.false_ne_true]
    refine congrArg (· ++ _) (List.ext_getElem? fun i => ?_)
    rw [List.getElem?_drop, List.getElem?_drop, List.getElem?_insertIdx, if_neg (by omega),
      if_neg (by omega)]
    exact congrArg _ (by omega)

include hl in
/-- Nothing moves beside a node of another choice. -/
theorem sides_enter_of_ne {y : NodeId} (hne : d.choiceAround y ≠ d.choiceAround n) :
    (d.enter n).leftOf y = d.leftOf y ∧ (d.enter n).rightOf y = d.rightOf y := by
  have hsl := sameLinks_enter h hn hp
  have hslot := (hsl.node y).2
  have hpos : ((d.enter n).node y).position = (d.node y).position := by
    rw [position_enter h hn hp, if_neg]
    rw [h.mem_laterThan, h.content]
    exact fun hx => hne (by rw [choiceAround, hx.1.2, choiceAround])
  have hpl : ((d.enter n).node y).placed = (d.node y).placed := by
    rw [placed_enter h hn hp, if_neg]
    rintro rfl
    exact hne rfl
  have hs : ∀ t, (d.slot t).choice = d.choiceAround y →
      ((d.enter n).slot t).content = (d.slot t).content := fun t ht =>
    content_enter_of_ne fun heq => hne (by rw [← ht, heq, choiceAround])
  constructor
  · rw [leftOf, leftOf, hslot, hpos, hsl.slotsBefore, hs _ rfl,
      List.flatMap_congr fun t ht => hs t (hl.mem_slotsBefore (List.mem_reverse.1 ht)).2]
  · rw [rightOf, rightOf, hslot, hpos, hpl, hsl.slotsAfter, hs _ rfl,
      List.flatMap_congr fun t ht => hs t (hl.mem_slotsAfter ht).2]

include hl in
theorem before_enter (hm : d.holder? n = some m) : (d.enter n).before m = d.before m := by
  have hhas := hl.hasNode_holder hn hm
  have hsl := sameLinks_enter h hn hp
  rw [before, before, hsl.lineage]
  refine List.flatMap_congr fun y hy => ?_
  rw [List.mem_reverse] at hy
  have hyn := (hl.index_le_of_mem_lineage hhas hy).1
  rw [(sides_enter_of_ne h hl hn hp (hl.choiceAround_ne hn hm hy)).1]
  refine List.flatMap_congr fun x hx => ?_
  obtain ⟨hpx, hcx, hxy⟩ := h.mem_sides hl hyn (List.mem_append_left _ hx)
  refine under_enter h hl hn hp (hasNode_of_placed hpx) fun k hk hmem => hxy ?_
  rw [hm] at hk
  cases hk
  exact hl.eq_of_choiceAround hhas hmem hy hcx

include hl in
theorem contentOf_enter {next' : Option NodeId} (he : SettledBut next' (d.enter n)) :
    (d.enter n).contentOf (d.choiceAround n) = d.leftOf n ++ n :: d.rightOf n := by
  have hsl := sameLinks_enter h hn hp
  obtain ⟨h1, h2⟩ := sides_enter h hl hn hp
  have := he.contentOf_of_placed (n := n) (hsl.linked hl) (by rw [placed_enter h hn hp, if_pos rfl])
  rwa [hsl.choiceAround, h1, h2] at this

omit h hp in
include hl in
theorem Linked.not_mem_lineage_holder (hm : d.holder? n = some m) : n ∉ d.lineage m := fun hmem =>
  absurd (hl.holder_lt hn hm)
    (Nat.not_lt.2 (hl.index_le_of_mem_lineage (hl.hasNode_holder hn hm) hmem).2)

include hl in
/-- What is read in the choice of a node once it is entered. -/
theorem flatMap_contentOf_enter {next' : Option NodeId} (he : SettledBut next' (d.enter n)) :
    ((d.enter n).contentOf (d.choiceAround n)).flatMap (d.enter n).under =
      (d.leftOf n).flatMap d.under ++ d.under n ++ (d.rightOf n).flatMap d.under := by
  have hside : ∀ x ∈ d.leftOf n ++ d.rightOf n, (d.enter n).under x = d.under x := fun x hx => by
    obtain ⟨hpx, hcx, -⟩ := h.mem_sides hl hn hx
    refine under_enter h hl hn hp (hasNode_of_placed hpx) fun m hm => ?_
    exact hl.not_mem_lineage_holder (hasNode_of_placed hpx) (by rw [holder?, hcx]; exact hm)
  have hself : (d.enter n).under n = d.under n :=
    under_enter h hl hn hp hn fun m hm => hl.not_mem_lineage_holder hn hm
  rw [contentOf_enter h hl hn hp he, List.flatMap_append, List.flatMap_cons, hself,
    List.append_assoc,
    List.flatMap_congr fun x hx => hside x (List.mem_append_left _ hx),
    List.flatMap_congr fun x hx => hside x (List.mem_append_right _ hx)]

include hl in
theorem beside_enter (hm : d.holder? n = some m) {y : NodeId} (hy : y ∈ d.lineage m) :
    Beside d y (d.enter n) := by
  have hhas := hl.hasNode_holder hn hm
  refine ⟨contentOf_enter_of_ne h hl hn hp (hl.choiceAround_ne hn hm hy), fun x hx => ?_⟩
  obtain ⟨hpx, hcx, hxy⟩ := h.mem_sides hl (hl.index_le_of_mem_lineage hhas hy).1 hx
  refine under_enter h hl hn hp (hasNode_of_placed hpx) fun k hk hmem => hxy ?_
  rw [hm] at hk
  cases hk
  exact hl.eq_of_choiceAround hhas hmem hy hcx

end Enter

/-- Entering a node whose choice has taken its branch puts what is under it behind the leaves
before it. -/
theorem SettledBut.leaves_enter (h : SettledBut next d) (hl : d.Linked) (hn : d.HasNode n)
    (hp : (d.node n).placed = false) (hnext : Awaits next d n)
    (hfull : d.isFull (d.node n).slot = false)
    (hk : (d.choice (d.choiceAround n)).chosen = some (d.slot (d.node n).slot).branch ∨
      (d.choice (d.choiceAround n)).chosen = none ∧ d.holder? n = none) :
    ∃ after, d.leaves = d.before n ++ after ∧
      (d.enter n).leaves = d.before n ++ d.under n ++ after := by
  have he := h.enter_stop hl hn hp hnext hfull hk
  have hsl := sameLinks_enter h hn hp
  have hread := flatMap_contentOf_enter h hl hn hp he
  have hgap : d.contentOf (d.choiceAround n) = d.leftOf n ++ d.rightOf n :=
    h.contentOf_of_gap hl hn hp (by rcases hk with hk | ⟨hk, -⟩ <;> simp [hk])
  rcases hm : d.holder? n with _ | m
  · have hroot := hl.root_of_holder?_eq_none hn hm
    refine ⟨(d.rightOf n).flatMap d.under, ?_, ?_⟩
    · rw [leaves_eq, ← hroot, hgap, before_of_top hm, List.flatMap_append]
    · rw [leaves_eq, ← hroot, hread, before_of_top hm]
  · have hhas := hl.hasNode_holder hn hm
    have hin := hl.inner?_holder hn hm
    have hleaf := isLeaf_of_inner? hin
    have hne : ∀ y ∈ d.lineage m, next ≠ some y := by
      rintro y hy rfl
      rcases hnext with hx | ⟨hx, -⟩
      · cases hx
        exact hl.not_mem_lineage_holder hn hm hy
      · cases hx
    have hpm : (d.node m).placed = true := by
      refine (h.inner m hhas hleaf (hne m (d.mem_lineage_self m))).2 ⟨_, hin, ?_⟩
      rcases hk with hk | ⟨-, hk⟩
      · simp [hk]
      · rw [hm] at hk
        cases hk
    obtain ⟨after, hafter⟩ := h.exists_leaves_around hl hhas
      (h.placed_of_mem_lineage hl hhas hpm hne)
    have hd := hafter d next (.refl d) h fun y _ => ⟨rfl, fun _ _ => rfl⟩
    have hd' := hafter _ none hsl he fun y hy => beside_enter h hl hn hp hm hy
    rw [h.under_of_inner hl hhas hleaf, children, hin] at hd
    rw [he.under_of_inner (hsl.linked hl) (hsl.hasNode.2 hhas) ((hsl.isLeaf m).trans hleaf),
      children, hsl.inner?, hin] at hd'
    refine ⟨(d.rightOf n).flatMap d.under ++ after, ?_, ?_⟩
    · rw [hd, hl.before_of_holder hn hm]
      simp only [hgap, List.flatMap_append, List.append_assoc]
    · rw [hd', hl.before_of_holder hn hm]
      simp only [hread, List.append_assoc]

/-- A gap that is filled stands behind the leaves before it, and no other leaf moves. -/
theorem Places.leaves {l : NodeId} (h : Places d n e) : ∀ {next : Option NodeId}, d.Linked →
    SettledBut next d → d.HasNode n → Awaits next d n → d.under n = [l] →
    ∃ after, d.leaves = d.before n ++ after ∧ e.leaves = d.before n ++ l :: after := by
  induction h with
  | stop hp hfull hk =>
    intro next hl h hn hnext hu
    obtain ⟨after, h1, h2⟩ := h.leaves_enter hl hn hp hnext hfull hk
    exact ⟨after, h1, by rw [h2, hu, List.append_assoc]; rfl⟩
  | @up d e n m hp hfull hk hm _ ih =>
    intro next hl h hn hnext hu
    have hsl := sameLinks_enter h hn hp
    have he := h.enter_up hl hn hp hnext hfull hk hm
    have hhas := hl.hasNode_holder hn hm
    have hin := hl.inner?_holder hn hm
    obtain ⟨hleft, hright⟩ := h.sides_eq_nil hl hn hk
    have hum : (d.enter n).under m = [l] := by
      rw [he.under_of_inner (hsl.linked hl) (hsl.hasNode.2 hhas)
        ((hsl.isLeaf m).trans (isLeaf_of_inner? hin)), children, hsl.inner?, hin]
      simp only [flatMap_contentOf_enter h hl hn hp he, hleft, hright, hu, List.flatMap_nil,
        List.nil_append, List.append_nil]
    obtain ⟨after, h1, h2⟩ := ih (hsl.linked hl) he (hsl.hasNode.2 hhas) (Or.inl rfl) hum
    have hpm : (d.node m).placed = false := by
      have := (he.next m rfl).2.1
      rwa [placed_enter h hn hp, if_neg] at this
      rintro rfl
      exact hl.not_mem_lineage_holder hn hm (d.mem_lineage_self _)
    rw [leaves_enter_of_gap h hl hn hp hm hpm] at h1
    rw [before_enter h hl hn hp hm] at h1 h2
    rw [hl.before_of_holder hn hm, hleft, List.flatMap_nil, List.append_nil]
    exact ⟨after, h1, h2⟩

/-- A leaf that is filled stands behind the leaves before it, and no other leaf moves. -/
theorem Fills.leaves (hf : Fills d n e) (h : d.Sound) (hn : d.HasNode n) :
    ∃ after, d.leaves = d.before n ++ after ∧ e.leaves = d.before n ++ n :: after := by
  obtain ⟨mid, h1, hm, hp, h2⟩ := hf.exists_places h hn
  have hleaf : mid.isLeaf n = true := (h1.links.isLeaf n).trans hf.leaf
  have hnm := h1.links.hasNode.2 hn
  obtain ⟨after, h3, h4⟩ := hp.leaves hm.linked hm.settled hnm (Or.inr ⟨rfl, hleaf⟩)
    (under_of_leaf hnm hleaf)
  rw [h1.before] at h3 h4
  exact ⟨after, h1.leaves.symm.trans h3, h2.leaves.trans h4⟩

end Cloze.Draft
