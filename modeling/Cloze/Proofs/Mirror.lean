import Cloze.Proofs.Moves
import Cloze.Proofs.Walking
import Mathlib.Data.List.Forall2

/-!
# Two drafts with the same content

Two drafts over one grammar may have made their nodes in different order, and gaps that the other
has not made. What they hold is the same if their nodes can be paired so that paired nodes stand at
the same place and the slots of choices that face each other hold paired nodes (`Mirror`). Then
paired nodes have the same trail, so a search finds the same on both sides (`Mirror.sameOffers`).

That the placed nodes of both have the same paths is enough for this (`mirror_of_sameContent`).
-/

namespace Cloze.Draft

open Edit

variable {R S : NodeId → NodeId → Prop} {d e : Draft} {n m : NodeId} {c c' : ChoiceId}

/-- The choices that face each other: the roots and those of paired nodes. -/
inductive Facing (R : NodeId → NodeId → Prop) (d e : Draft) : ChoiceId → ChoiceId → Prop
  | root : Facing R d e ⟨0⟩ ⟨0⟩
  | inner {n m : NodeId} {c c' : ChoiceId} (h : R n m) (hc : d.inner? n = some c)
      (hc' : e.inner? m = some c') : Facing R d e c c'

/-- Paired nodes stand in corresponding slots of choices that face each other. -/
structure Pairs (R : NodeId → NodeId → Prop) (d e : Draft) : Prop where
  grammar : e.grammar = d.grammar
  left : d.Linked
  right : e.Linked
  unique : Relator.BiUnique R
  has : ∀ {n m}, R n m → d.HasNode n ∧ e.HasNode m
  holder : ∀ {n m}, R n m → Option.Rel R (d.holder? n) (e.holder? m)
  branch : ∀ {n m}, R n m → (d.slot (d.node n).slot).branch = (e.slot (e.node m).slot).branch
  place : ∀ {n m}, R n m → (d.slot (d.node n).slot).position = (e.slot (e.node m).slot).position

theorem optionRel_cases {α β : Type} {P : α → β → Prop} {a : Option α} {b : Option β}
    (h : Option.Rel P a b) : a = none ∧ b = none ∨ ∃ x y, a = some x ∧ b = some y ∧ P x y := by
  cases h with
  | none => exact Or.inl ⟨rfl, rfl⟩
  | some hxy => exact Or.inr ⟨_, _, rfl, rfl, hxy⟩

namespace Pairs

theorem holder_cases (h : Pairs R d e) (hR : R n m) :
    (d.holder? n = none ∧ e.holder? m = none) ∨
      ∃ k k', d.holder? n = some k ∧ e.holder? m = some k' ∧ R k k' :=
  optionRel_cases (h.holder hR)

/-- Induction up the lineages of paired nodes. -/
theorem lineage_induction (h : Pairs R d e) {motive : ∀ n m, R n m → Prop}
    (top : ∀ n m hR, d.holder? n = none → e.holder? m = none → motive n m hR)
    (up : ∀ n m k k' hR hR', d.holder? n = some k → e.holder? m = some k' → motive k k' hR' →
      motive n m hR) (n m : NodeId) (hR : R n m) : motive n m hR := by
  obtain ⟨hn, -⟩ := h.has hR
  induction n, hn using h.left.lineage_induction generalizing m with
  | top n hn hh =>
    rcases h.holder_cases hR with ⟨-, hh'⟩ | ⟨k, k', hk, -, -⟩
    · exact top n m hR hh hh'
    · rw [hh] at hk
      cases hk
  | up n k hn hk hh ih =>
    rcases h.holder_cases hR with ⟨hh', -⟩ | ⟨k₁, k', hk₁, hk', hR'⟩
    · rw [hh] at hh'
      cases hh'
    · obtain rfl : k = k₁ := Option.some.inj (hh.symm.trans hk₁)
      exact up n m k k' hR hR' hh hk' (ih k' hR')

theorem facing (h : Pairs R d e) (hR : R n m) :
    Facing R d e (d.choiceAround n) (e.choiceAround m) := by
  obtain ⟨hn, hm⟩ := h.has hR
  rcases h.holder_cases hR with ⟨hk, hk'⟩ | ⟨k, k', hk, hk', hR'⟩
  · rw [h.left.root_of_holder?_eq_none hn hk, h.right.root_of_holder?_eq_none hm hk']
    exact .root
  · exact .inner hR' (h.left.inner?_holder hn hk) (h.right.inner?_holder hm hk')

end Pairs

namespace Pairs

variable (h : Pairs R d e)
include h

theorem symbol_of_shape (hR : R n m)
    (hs : (e.choice (e.choiceAround m)).shape = (d.choice (d.choiceAround n)).shape) :
    (e.node m).symbol = (d.node n).symbol := by
  obtain ⟨hn, hm⟩ := h.has hR
  have h1 := h.left.itemAt?_shape (h.left.slot _ (h.left.node n hn).slot).entry
  have h2 := h.right.itemAt?_shape (h.right.slot _ (h.right.node m hm).slot).entry
  rw [← h.branch hR, ← h.place hR, h.grammar] at h2
  have hshape : some (e.slot (e.node m).slot).shape = some (d.slot (d.node n).slot).shape := by
    rw [← h1, ← h2, show (e.slot (e.node m).slot).choice = e.choiceAround m from rfl, hs]
    rfl
  rw [(h.left.node n hn).symbol, (h.right.node m hm).symbol, slotSymbol, slotSymbol, h.grammar,
    Option.some.inj hshape]

/-- Choices of paired nodes have the same shape and depth if those around the nodes have. -/
theorem inner_eq (hR : R n m) (hc : d.inner? n = some c) (hc' : e.inner? m = some c')
    (hs : (e.choice (e.choiceAround m)).shape = (d.choice (d.choiceAround n)).shape)
    (hd : (e.choice (e.choiceAround m)).depth = (d.choice (d.choiceAround n)).depth) :
    (e.choice c').shape = (d.choice c).shape ∧ (e.choice c').depth = (d.choice c).depth := by
  obtain ⟨hn, hm⟩ := h.has hR
  have ho := h.left.inner n c hn hc
  have ho' := h.right.inner m c' hm hc'
  have hsym : e.symbol m = d.symbol n := by
    rw [symbol, symbol, h.grammar, h.symbol_of_shape hR hs]
  have hshape := ho'.shape
  rw [hsym, h.grammar, ho.shape] at hshape
  refine ⟨(Option.some.inj hshape).symm, ?_⟩
  rw [ho'.depth, ho.depth, hsym, hd]

theorem root_eq : (e.choice ⟨0⟩).shape = (d.choice ⟨0⟩).shape ∧
    (e.choice ⟨0⟩).depth = (d.choice ⟨0⟩).depth := by
  have hroot := h.right.root_shape
  rw [h.grammar, ← h.left.root_shape] at hroot
  exact ⟨hroot, h.right.root_depth.trans h.left.root_depth.symm⟩

theorem around_eq (hR : R n m) :
    (e.choice (e.choiceAround m)).shape = (d.choice (d.choiceAround n)).shape ∧
      (e.choice (e.choiceAround m)).depth = (d.choice (d.choiceAround n)).depth := by
  induction n, m, hR using h.lineage_induction with
  | top n m hR hh hh' =>
    rw [h.left.root_of_holder?_eq_none (h.has hR).1 hh,
      h.right.root_of_holder?_eq_none (h.has hR).2 hh']
    exact h.root_eq
  | up n m k k' hR hR' hk hk' ih =>
    exact h.inner_eq hR' (h.left.inner?_holder (h.has hR).1 hk)
      (h.right.inner?_holder (h.has hR).2 hk') ih.1 ih.2

theorem symbol_eq (hR : R n m) : (e.node m).symbol = (d.node n).symbol :=
  h.symbol_of_shape hR (h.around_eq hR).1

theorem role?_eq (hR : R n m) : e.role? m = d.role? n := by
  rw [role?, role?, symbol, symbol, h.grammar, h.symbol_eq hR]

theorem isLeaf_eq (hR : R n m) : e.isLeaf m = d.isLeaf n := by
  obtain ⟨hn, hm⟩ := h.has hR
  rw [← h.right.isLeaf_level hm, ← h.left.isLeaf_level hn, Level.isLeaf, Level.isLeaf,
    h.right.symbol_level hm, h.left.symbol_level hn, h.grammar, h.symbol_eq hR]

theorem facing_eq (hc : Facing R d e c c') :
    (e.choice c').shape = (d.choice c).shape ∧ (e.choice c').depth = (d.choice c).depth := by
  cases hc with
  | root => exact h.root_eq
  | inner hR hc hc' => exact h.inner_eq hR hc hc' (h.around_eq hR).1 (h.around_eq hR).2

theorem hasChoice (hc : Facing R d e c c') : d.HasChoice c ∧ e.HasChoice c' := by
  cases hc with
  | root => exact ⟨h.left.root, h.right.root⟩
  | inner hR hc hc' =>
    exact ⟨(h.left.inner _ _ (h.has hR).1 hc).choice, (h.right.inner _ _ (h.has hR).2 hc').choice⟩

/-- The branches of choices that face each other have the same shapes. -/
theorem shapes_eq (hc : Facing R d e c c') :
    (d.choice c).branches.map (·.map fun s => (d.slot s).shape) =
      (e.choice c').branches.map (·.map fun s => (e.slot s).shape) := by
  obtain ⟨h1, h2⟩ := h.hasChoice hc
  rw [(h.left.choice c h1).shapes, (h.right.choice c' h2).shapes, h.grammar, (h.facing_eq hc).1]

theorem itemAt?_isSome (hc : Facing R d e c c') (k j : Nat) :
    (itemAt? (d.choice c).branches k j).isSome = (itemAt? (e.choice c').branches k j).isSome := by
  have hshapes := congrArg (fun rows => (itemAt? rows k j).isSome) (h.shapes_eq hc)
  simpa [itemAt?_map] using hshapes

theorem exists_itemAt?_right (hc : Facing R d e c c') {k j : Nat} {s : SlotId}
    (hs : itemAt? (d.choice c).branches k j = some s) :
    ∃ t, itemAt? (e.choice c').branches k j = some t := by
  rw [← Option.isSome_iff_exists, ← h.itemAt?_isSome hc, hs]
  rfl

/-- The slot of a node is found in the choice that faces the one around its partner. -/
theorem slot_of_facing (hR : R n m) :
    itemAt? (d.choice (d.choiceAround n)).branches (d.slot (d.node n).slot).branch
        (d.slot (d.node n).slot).position = some (d.node n).slot ∧
      itemAt? (e.choice (e.choiceAround m)).branches (d.slot (d.node n).slot).branch
        (d.slot (d.node n).slot).position = some (e.node m).slot := by
  obtain ⟨hn, hm⟩ := h.has hR
  refine ⟨(h.left.slot _ (h.left.node n hn).slot).entry, ?_⟩
  rw [h.branch hR, h.place hR]
  exact (h.right.slot _ (h.right.node m hm).slot).entry

theorem lineage (hR : R n m) : List.Forall₂ R (d.lineage n) (e.lineage m) := by
  induction n, m, hR using h.lineage_induction with
  | top n m hR hh hh' =>
    rw [lineage_of_top hh, lineage_of_top hh']
    exact .cons hR .nil
  | up n m k k' hR hR' hk hk' ih =>
    rw [h.left.lineage_of_holder (h.has hR).1 hk, h.right.lineage_of_holder (h.has hR).2 hk']
    exact .cons hR ih

end Pairs

/-! ### Content -/

/-- Paired nodes are placed alike, and slots that correspond hold paired nodes in order. -/
structure Mirror (R : NodeId → NodeId → Prop) (d e : Draft) : Prop extends Pairs R d e where
  position : ∀ {n m}, R n m → (d.node n).position = (e.node m).position
  placed : ∀ {n m}, R n m → (d.node n).placed = (e.node m).placed
  chosen : ∀ {c c'}, Facing R d e c c' → (d.choice c).chosen = (e.choice c').chosen
  content : ∀ {c c' k j s t}, Facing R d e c c' → itemAt? (d.choice c).branches k j = some s →
    itemAt? (e.choice c').branches k j = some t →
    List.Forall₂ R (d.slot s).content (e.slot t).content

/-- Tables of the same shape whose corresponding entries are mapped alike are mapped alike. -/
theorem map_map_eq_of_itemAt? {α β γ δ : Type} {rows : List (List α)} {rows' : List (List β)}
    {f : α → γ} {f' : β → γ} {g : α → δ} {g' : β → δ}
    (hg : rows.map (·.map g) = rows'.map (·.map g'))
    (hf : ∀ k j x y, itemAt? rows k j = some x → itemAt? rows' k j = some y → f x = f' y) :
    rows.map (·.map f) = rows'.map (·.map f') := by
  refine List.ext_getElem? fun k => ?_
  have hk := congrArg (fun l => l[k]?) hg
  simp only [List.getElem?_map] at hk ⊢
  rcases hrow : rows[k]? with _ | row <;> rcases hrow' : rows'[k]? with _ | row' <;>
    rw [hrow, hrow'] at hk
  · rfl
  · cases hk
  · cases hk
  · simp only [Option.map_some, Option.some.injEq] at hk ⊢
    refine List.ext_getElem? fun j => ?_
    have hj := congrArg (fun l => l[j]?) hk
    simp only [List.getElem?_map] at hj ⊢
    rcases hx : row[j]? with _ | x <;> rcases hy : row'[j]? with _ | y <;> rw [hx, hy] at hj
    · rfl
    · cases hj
    · cases hj
    · rw [Option.map_some, Option.map_some, hf k j x y (itemAt?_eq_some.2 ⟨row, hrow, hx⟩)
        (itemAt?_eq_some.2 ⟨row', hrow', hy⟩)]

theorem length_getD_map {α β : Type} (rows : List (List α)) (f : α → β) (k : Nat) :
    ((rows.map (·.map f)).getD k []).length = (rows.getD k []).length := by
  rw [List.getD_eq_getElem?_getD, List.getD_eq_getElem?_getD, List.getElem?_map]
  cases rows[k]? <;> simp

theorem itemAt?_of_lt_getD {α : Type} {rows : List (List α)} {k j : Nat}
    (h : j < (rows.getD k []).length) : itemAt? rows k j = some ((rows.getD k []).get ⟨j, h⟩) := by
  revert h
  rw [List.getD_eq_getElem?_getD]
  rcases hrow : rows[k]? with _ | row
  · intro h
    cases h
  · intro h
    exact itemAt?_eq_some.2 ⟨row, hrow, List.getElem?_eq_getElem h⟩

theorem forall₂_exists_left {α β : Type} {R : α → β → Prop} {xs : List α} {ys : List β}
    (h : List.Forall₂ R xs ys) {x : α} (hx : x ∈ xs) : ∃ y ∈ ys, R x y := by
  induction h with
  | nil => cases hx
  | cons hR _ ih =>
    rcases List.mem_cons.1 hx with rfl | hx
    · exact ⟨_, List.mem_cons_self, hR⟩
    · obtain ⟨y, hy, hxy⟩ := ih hx
      exact ⟨y, List.mem_cons_of_mem _ hy, hxy⟩

theorem forall₂_getElem?_left {α β : Type} {R : α → β → Prop} {xs : List α} {ys : List β}
    (h : List.Forall₂ R xs ys) {i : Nat} {x : α} (hx : xs[i]? = some x) :
    ∃ y, ys[i]? = some y ∧ R x y := by
  induction h generalizing i with
  | nil => cases hx
  | cons hR _ ih =>
    cases i with
    | zero =>
      cases hx
      exact ⟨_, rfl, hR⟩
    | succ i => exact ih hx

/-- Between sound drafts whose paired nodes are placed the content decides the rest. -/
theorem Pairs.mirror (h : Pairs R d e) (hd : d.Sound) (he : e.Sound)
    (hp : ∀ {n m}, R n m → (d.node n).placed = true ∧ (e.node m).placed = true)
    (hcont : ∀ {c c' k j s t}, Facing R d e c c' → itemAt? (d.choice c).branches k j = some s →
      itemAt? (e.choice c').branches k j = some t →
      List.Forall₂ R (d.slot s).content (e.slot t).content) : Mirror R d e := by
  refine ⟨h, fun {n m} hR => ?_, fun hR => (hp hR).1.trans (hp hR).2.symm,
    fun {c c'} hc => Option.ext fun k => ?_, hcont⟩
  · obtain ⟨h1, h2⟩ := h.slot_of_facing hR
    obtain ⟨y, hy, hR'⟩ := forall₂_getElem?_left (hcont (h.facing hR) h1 h2)
      (hd.settled.content_at (hp hR).1)
    obtain rfl := h.unique.2 hR hR'
    exact (he.settled.position _ _ _ hy).symm
  · rw [hd.settled.chosen, he.settled.chosen]
    constructor
    · rintro ⟨j, s, hs, hne⟩
      obtain ⟨t, ht⟩ := h.exists_itemAt?_right hc hs
      refine ⟨j, t, ht, fun hnil => hne ?_⟩
      have hst := hcont hc hs ht
      rwa [hnil, List.forall₂_nil_right_iff] at hst
    · rintro ⟨j, t, ht, hne⟩
      obtain ⟨s, hs⟩ : ∃ s, itemAt? (d.choice c).branches k j = some s := by
        rw [← Option.isSome_iff_exists, h.itemAt?_isSome hc, ht]
        rfl
      refine ⟨j, s, hs, fun hnil => hne ?_⟩
      have hst := hcont hc hs ht
      rwa [hnil, List.forall₂_nil_left_iff] at hst

namespace Mirror

variable (h : Mirror R d e)
include h

theorem frame (hc : Facing R d e c c') : e.frame c' = d.frame c := by
  obtain ⟨h1, h2⟩ := h.facing_eq hc
  have hshapes := h.shapes_eq hc
  have hrows : (d.choice c).branches.map (·.map d.cellOf)
      = (e.choice c').branches.map (·.map e.cellOf) := by
    refine map_map_eq_of_itemAt? hshapes fun k j s t hs ht => ?_
    have hshape := congrArg (fun rows => itemAt? rows k j) hshapes
    simp only [itemAt?_map, hs, ht, Option.map_some, Option.some.injEq] at hshape
    rw [cellOf, cellOf, hshape, (h.content hc hs ht).length_eq]
  rw [Draft.frame, Draft.frame, h1, h2, ← hrows]

theorem level (hR : R n m) : e.level m = d.level n := by
  have hframe := h.frame (h.facing hR)
  rw [choiceAround, choiceAround] at hframe
  rw [Draft.level, Draft.level, spot, spot, hframe, h.branch hR, h.place hR, h.position hR,
    h.placed hR]

/-- Paired nodes have the same trail. -/
theorem trail (hR : R n m) : e.trail m = d.trail n := by
  induction n, m, hR using h.lineage_induction with
  | top n m hR hh hh' =>
    rw [h.left.trail_eq (h.has hR).1, h.right.trail_eq (h.has hR).2, above_of_top hh,
      above_of_top hh', h.level hR]
  | up n m k k' hR hR' hk hk' ih =>
    rw [h.left.trail_eq (h.has hR).1, h.right.trail_eq (h.has hR).2, above_of_holder hk,
      above_of_holder hk', h.level hR, ih]

theorem above (hc : Facing R d e c c') : e.above c' = d.above c := by
  cases hc with
  | root =>
    rw [Draft.above, Draft.above, show (d.choice ⟨0⟩).holder = none from h.left.root_holder,
      show (e.choice ⟨0⟩).holder = none from h.right.root_holder]
  | inner hR hc hc' =>
    rw [Draft.above, Draft.above, (h.left.inner _ _ (h.has hR).1 hc).holder,
      (h.right.inner _ _ (h.has hR).2 hc').holder]
    exact h.trail hR

/-- The content of paired nodes' slots is paired. -/
theorem content_around (hR : R n m) :
    List.Forall₂ R (d.slot (d.node n).slot).content (e.slot (e.node m).slot).content := by
  obtain ⟨h1, h2⟩ := h.slot_of_facing hR
  exact h.content (h.facing hR) h1 h2

/-- A paired node that is placed has its choice on both sides. -/
theorem exists_inner (he : e.Sound) (hR : R n m) (hp : (d.node n).placed = true)
    (hc : d.inner? n = some c) : ∃ c', e.inner? m = some c' ∧ Facing R d e c c' := by
  have hleaf : e.isLeaf m = false := (h.isLeaf_eq hR).trans (isLeaf_of_inner? hc)
  obtain ⟨c', hc', -⟩ := (he.settled.inner m (h.has hR).2 hleaf (by simp)).1
    ((h.placed hR).symm.trans hp)
  exact ⟨c', hc', .inner hR hc hc'⟩

theorem exists_of_facing (hd : d.Sound) (hp : (d.node n).placed = true)
    (hc : Facing R d e (d.choiceAround n) c') : ∃ m, R n m := by
  have hslot := hd.linked.slot _ (hd.linked.node n (hasNode_of_placed hp)).slot
  obtain ⟨t, ht⟩ := h.exists_itemAt?_right hc hslot.entry
  obtain ⟨m, -, hR⟩ := forall₂_exists_left (h.content hc hslot.entry ht)
    ((hd.settled.content _ n).2 ⟨hp, rfl⟩)
  exact ⟨m, hR⟩

/-- All that is placed is paired. -/
theorem exists_right (hd : d.Sound) (he : e.Sound) (hp : (d.node n).placed = true) :
    ∃ m, R n m := by
  have hn := hasNode_of_placed hp
  induction n, hn using hd.linked.lineage_induction with
  | top n hn hh =>
    have hface : Facing R d e (d.choiceAround n) ⟨0⟩ := by
      rw [hd.linked.root_of_holder?_eq_none hn hh]
      exact .root
    exact h.exists_of_facing hd hp hface
  | up n k hn hk hh ih =>
    have hpk := hd.placed_holder hp hh
    obtain ⟨k', hR⟩ := ih hpk
    obtain ⟨c', -, hface⟩ := h.exists_inner he hR hpk (hd.linked.inner?_holder hn hh)
    exact h.exists_of_facing hd hp hface

/-! ### Leaves -/

theorem contentOf (hc : Facing R d e c c') :
    List.Forall₂ R (d.contentOf c) (e.contentOf c') := by
  unfold Draft.contentOf chosenSlots
  rw [← h.chosen hc]
  rcases (d.choice c).chosen with _ | k
  · exact .nil
  · have hrow : List.Forall₂ (fun s t => List.Forall₂ R (d.slot s).content (e.slot t).content)
        ((d.choice c).branches.getD k []) ((e.choice c').branches.getD k []) := by
      have hlen := congrArg (fun rows => (rows.getD k []).length) (h.shapes_eq hc)
      simp only [length_getD_map] at hlen
      exact List.forall₂_iff_get.2 ⟨hlen, fun j hj hj' =>
        h.content hc (itemAt?_of_lt_getD hj) (itemAt?_of_lt_getD hj')⟩
    exact List.rel_flatMap hrow fun _ _ hst => hst

theorem under (hd : d.Sound) (he : e.Sound) (hR : R n m) (hp : (d.node n).placed = true) :
    List.Forall₂ R (d.under n) (e.under m) := by
  induction n, hp using hd.placed_induction generalizing m with
  | leaf n hp hl =>
    rw [under_of_leaf (h.has hR).1 hl, under_of_leaf (h.has hR).2 ((h.isLeaf_eq hR).trans hl)]
    exact .cons hR .nil
  | inner n hp hl ih =>
    rw [hd.settled.under_of_inner hd.linked (h.has hR).1 hl,
      he.settled.under_of_inner he.linked (h.has hR).2 ((h.isLeaf_eq hR).trans hl)]
    obtain ⟨c, hc, -⟩ := (hd.settled.inner n (h.has hR).1 hl (by simp)).1 hp
    obtain ⟨c', hc', hface⟩ := h.exists_inner he hR hp hc
    have hchildren : List.Forall₂ R (d.children n) (e.children m) := by
      rw [Draft.children, Draft.children, hc, hc']
      exact h.contentOf hface
    have hplaced := hd.placed_children hp
    have hboth : List.Forall₂ (fun x y => x ∈ d.children n ∧ R x y) (d.children n) (e.children m) :=
      (List.forall₂_and_left _ _).2 ⟨fun _ hx => hx, hchildren⟩
    exact List.rel_flatMap hboth fun x y hxy => ih x hxy.1 (hplaced x hxy.1) hxy.2

/-- The leaves of both drafts are paired in order. -/
theorem leaves (hd : d.Sound) (he : e.Sound) : List.Forall₂ R d.leaves e.leaves := by
  rw [leaves_eq, leaves_eq]
  have htop := h.contentOf (.root : Facing R d e ⟨0⟩ ⟨0⟩)
  have hboth : List.Forall₂ (fun x y => x ∈ d.contentOf ⟨0⟩ ∧ R x y) (d.contentOf ⟨0⟩)
      (e.contentOf ⟨0⟩) := (List.forall₂_and_left _ _).2 ⟨fun _ hx => hx, htop⟩
  refine List.rel_flatMap hboth fun x y hxy => h.under hd he hxy.2 ?_
  exact ((hd.settled.mem_contentOf hd.linked).1 hxy.1).1

end Mirror

/-! ### Searches -/

/-- Two searches end alike: they find nodes with the same trails, or a rule nested too deep. -/
inductive Agree (d e : Draft) : EStateM.Result Refusal Draft (List NodeId) →
    EStateM.Result Refusal Draft (List NodeId) → Prop
  | found {ns ms : List NodeId} {d' e' : Draft} (hd : Keeps d d') (he : Keeps e e')
      (hns : ∀ n ∈ ns, d'.HasNode n) (hms : ∀ m ∈ ms, e'.HasNode m)
      (ht : ns.map d'.trail = ms.map e'.trail) : Agree d e (.ok ns d') (.ok ms e')
  | tooDeep {rule rule' : String} {d' e' : Draft} (hd : Keeps d d') (he : Keeps e e') :
      Agree d e (.error (.tooDeep rule d.settings.recursionLimit) d')
        (.error (.tooDeep rule' e.settings.recursionLimit) e')

theorem Finds.agree {act act' : Edit (List NodeId)} {spec : Option (List Trail)}
    (h : Finds act d spec Shows) (h' : Finds act' e spec Shows) : Agree d e (act d) (act' e) := by
  unfold Finds Ensures at h h'
  generalize act d = result at h ⊢
  generalize act' e = result' at h' ⊢
  rcases result with ⟨ns, d'⟩ | ⟨r, d'⟩ <;> rcases result' with ⟨ms, e'⟩ | ⟨r', e'⟩
  · obtain ⟨hk, ts, hts, hns, hmap⟩ := h
    obtain ⟨hk', us, hus, hms, hmap'⟩ := h'
    obtain rfl : ts = us := Option.some.inj (hts.symm.trans hus)
    exact .found hk hk' hns hms (hmap.trans hmap'.symm)
  · obtain ⟨-, ts, hts, -⟩ := h
    cases hts.symm.trans h'.2.1
  · obtain ⟨-, ts, hts, -⟩ := h'
    cases hts.symm.trans h.2.1
  · obtain ⟨hk, -, rule, rfl⟩ := h
    obtain ⟨hk', -, rule', rfl⟩ := h'
    exact .tooDeep hk hk'

namespace Mirror

theorem corner (h : Mirror R d e) (hd : d.Sound) (he : e.Sound) {l : Level} {t : Trail}
    (hcor : Corner d c l t) : ∀ {c'}, Facing R d e c c' → Corner e c' l t := by
  induction hcor with
  | @gap c hnil =>
    intro c' hc
    obtain ⟨h1, h2⟩ := h.hasChoice hc
    have hs := h.left.itemAt?_firstSlot h1
    have ht := h.right.itemAt?_firstSlot h2
    have hcont := h.content hc hs ht
    rw [hnil, List.forall₂_nil_left_iff] at hcont
    rw [h.left.spot_of_itemAt? hs, ← h.above hc, ← h.frame hc, ← h.right.spot_of_itemAt? ht]
    exact .gap hcont
  | @leaf c n rest hcons hl =>
    intro c' hc
    obtain ⟨h1, h2⟩ := h.hasChoice hc
    have hcont := h.content hc (h.left.itemAt?_firstSlot h1) (h.right.itemAt?_firstSlot h2)
    rw [hcons, List.forall₂_cons_left_iff] at hcont
    obtain ⟨m, rest', hR, -, hcons'⟩ := hcont
    rw [← h.above hc, ← h.level hR]
    exact .leaf hcons' ((h.isLeaf_eq hR).trans hl)
  | @inner c n rest c₁ l t hcons hc₁ _ ih =>
    intro c' hc
    obtain ⟨h1, h2⟩ := h.hasChoice hc
    have hcont := h.content hc (h.left.itemAt?_firstSlot h1) (h.right.itemAt?_firstSlot h2)
    rw [hcons, List.forall₂_cons_left_iff] at hcont
    obtain ⟨m, rest', hR, -, hcons'⟩ := hcont
    have hp := ((hd.settled.content _ n).1 (hcons ▸ List.mem_cons_self)).1
    obtain ⟨c₂, hc₂, hface⟩ := h.exists_inner he hR hp hc₁
    exact .inner hcons' hc₂ (ih hface)

/-- In drafts with the same content a search at the same place ends alike. -/
theorem agree (h : Mirror R d e) (hd : d.Sound) (he : e.Sound)
    (hlimit : e.settings.recursionLimit = d.settings.recursionLimit)
    {cursor cursor' : Option NodeId} (hc : Option.Rel R cursor cursor')
    (hp : ∀ n ∈ cursor, (d.node n).placed = true) :
    Agree d e (offers cursor d) (offers cursor' e) := by
  have hover : Over d.grammar d.settings.recursionLimit e := ⟨he, h.grammar, hlimit⟩
  cases hc with
  | none =>
    obtain ⟨l, t, hcor⟩ := hd.over.exists_corner hd.linked.root
    exact (hd.over.finds_offers_none hcor).agree
      (hover.finds_offers_none (h.corner hd he hcor .root))
  | @some n m hR =>
    have hfinds := hover.finds_offers ((h.placed hR).symm.trans (hp n rfl))
    rw [h.trail hR] at hfinds
    exact (hd.over.finds_offers (hp n rfl)).agree hfinds

end Mirror

/-! ### Content by paths -/

/-- The placed nodes of both drafts stand at the same places. -/
def SameContent (d e : Draft) : Prop :=
  ∀ p, (∃ n, (d.node n).placed = true ∧ d.path n = p) ↔
    ∃ m, (e.node m).placed = true ∧ e.path m = p

/-- The paths of all placed nodes. -/
def placedPaths (d : Draft) : List (List (Nat × Nat × Nat)) :=
  (((List.range d.nodes.size).map NodeId.mk).filter d.isPlaced).map d.path

theorem mem_placedPaths {p : List (Nat × Nat × Nat)} :
    p ∈ d.placedPaths ↔ ∃ n, (d.node n).placed = true ∧ d.path n = p := by
  simp only [placedPaths, List.mem_map, List.mem_filter, isPlaced]
  constructor
  · rintro ⟨n, ⟨-, hp⟩, hpath⟩
    exact ⟨n, hp, hpath⟩
  · rintro ⟨n, hp, hpath⟩
    exact ⟨n, ⟨⟨n.index, List.mem_range.2 (hasNode_of_placed hp), rfl⟩, hp⟩, hpath⟩

instance (d e : Draft) : Decidable (SameContent d e) :=
  decidable_of_iff (d.placedPaths ⊆ e.placedPaths ∧ e.placedPaths ⊆ d.placedPaths) <| by
    simp only [SameContent, ← mem_placedPaths, List.subset_def, iff_def, forall_and]

/-- Placed nodes at the same place. -/
def SamePlace (d e : Draft) (n m : NodeId) : Prop :=
  (d.node n).placed = true ∧ (e.node m).placed = true ∧ d.path n = e.path m

/-- The path of the node that holds a choice. -/
def pathAbove (d : Draft) (c : ChoiceId) : List (Nat × Nat × Nat) :=
  match (d.choice c).holder with
  | none => []
  | some h => d.path h

theorem Linked.path_eq (h : d.Linked) (hn : d.HasNode n) :
    d.path n = d.site n :: d.pathAbove (d.choiceAround n) := by
  rcases hh : d.holder? n with _ | m
  · rw [path_of_top hh, pathAbove, show (d.choice (d.choiceAround n)).holder = none from hh]
  · rw [h.path_of_holder hn hh, pathAbove,
      show (d.choice (d.choiceAround n)).holder = some m from hh]

/-- A choice in placed nodes is known by the path to it. -/
theorem Sound.choiceAround_of_pathAbove (h : d.Sound) (hp : (d.node n).placed = true)
    (hc : d.HasChoice c) (hh : ∀ k, (d.choice c).holder = some k → (d.node k).placed = true)
    (hpath : d.pathAbove (d.choiceAround n) = d.pathAbove c) : d.choiceAround n = c := by
  have hn := hasNode_of_placed hp
  have hl := h.linked.choice c hc
  unfold pathAbove at hpath
  rcases hk : (d.choice (d.choiceAround n)).holder with _ | k <;>
    rcases hk' : (d.choice c).holder with _ | k' <;> rw [hk, hk'] at hpath
  · rw [h.linked.root_of_holder?_eq_none hn hk, hl.root hk']
  · exact absurd hpath.symm (d.path_ne_nil k')
  · exact absurd hpath (d.path_ne_nil k)
  · have hkn := h.linked.hasNode_holder hn hk
    obtain rfl := h.eq_of_path hkn (h.placed_holder hp hk) (hh k' hk') hpath
    have hinner := h.linked.inner?_holder hn hk
    rw [(hl.holder k hk').2] at hinner
    exact (Option.some.inj hinner).symm

theorem Sound.pairs_samePlace (hd : d.Sound) (he : e.Sound) (hg : e.grammar = d.grammar) :
    Pairs (SamePlace d e) d e := by
  have hsite : ∀ {n m}, SamePlace d e n m → d.site n = e.site m ∧
      d.pathAbove (d.choiceAround n) = e.pathAbove (e.choiceAround m) := by
    rintro n m ⟨hp, hp', hpath⟩
    rw [hd.linked.path_eq (hasNode_of_placed hp), he.linked.path_eq (hasNode_of_placed hp'),
      List.cons.injEq] at hpath
    exact hpath
  refine ⟨hg, hd.linked, he.linked, ⟨?_, ?_⟩, fun hR => ?_, fun {n m} hR => ?_, fun hR => ?_,
    fun hR => ?_⟩
  · rintro n n' m ⟨hp, -, hpath⟩ ⟨hp', -, hpath'⟩
    exact hd.eq_of_path (hasNode_of_placed hp) hp hp' (hpath.trans hpath'.symm)
  · rintro n m m' ⟨-, hp, hpath⟩ ⟨-, hp', hpath'⟩
    exact he.eq_of_path (hasNode_of_placed hp) hp hp' (hpath.symm.trans hpath')
  · exact ⟨hasNode_of_placed hR.1, hasNode_of_placed hR.2.1⟩
  · have habove := (hsite hR).2
    unfold pathAbove at habove
    unfold holder?
    rcases hk : (d.choice (d.choiceAround n)).holder with _ | k <;>
      rcases hk' : (e.choice (e.choiceAround m)).holder with _ | k' <;> rw [hk, hk'] at habove
    · exact .none
    · exact absurd habove.symm (e.path_ne_nil k')
    · exact absurd habove (d.path_ne_nil k)
    · exact .some ⟨hd.placed_holder hR.1 hk, he.placed_holder hR.2.1 hk', habove⟩
  · exact congrArg Prod.fst (hsite hR).1
  · exact congrArg (fun x => x.2.1) (hsite hR).1

/-- What stands in a slot stands at the same position of the slot at the same place. -/
theorem Sound.exists_samePlace (hd : d.Sound) (he : e.Sound)
    (hsub : ∀ n, (d.node n).placed = true → ∃ m, SamePlace d e n m) {k j : Nat} {s t : SlotId}
    (hs : itemAt? (d.choice c).branches k j = some s) (ht : itemAt? (e.choice c').branches k j = some t)
    (hh : ∀ k, (e.choice c').holder = some k → (e.node k).placed = true)
    (hpath : d.pathAbove c = e.pathAbove c') {i : Nat} (hi : (d.slot s).content[i]? = some n) :
    ∃ m, (e.slot t).content[i]? = some m ∧ SamePlace d e n m := by
  obtain ⟨-, hsc, hsb, hsp⟩ := (hd.linked.choice c (hasChoice_of_itemAt? hs)).slots k j s hs
  have hc' := hasChoice_of_itemAt? ht
  obtain ⟨hts, htc, htb, htp⟩ := (he.linked.choice c' hc').slots k j t ht
  obtain ⟨hp, hslot⟩ := (hd.settled.content s n).1 (List.mem_of_getElem? hi)
  obtain ⟨m, hR⟩ := hsub n hp
  obtain ⟨-, hp', hpathm⟩ := id hR
  have hm := hasNode_of_placed hp'
  rw [hd.linked.path_eq (hasNode_of_placed hp), he.linked.path_eq hm, List.cons.injEq] at hpathm
  have hround : e.choiceAround m = c' := by
    refine he.choiceAround_of_pathAbove hp' hc' hh ?_
    rw [← hpathm.2, choiceAround, hslot, hsc, hpath]
  have hsite := hpathm.1
  simp only [site, hslot, hsb, hsp, Prod.mk.injEq] at hsite
  have hmt : (e.node m).slot = t := by
    refine he.linked.slot_ext (he.linked.node m hm).slot hts ?_ ?_ ?_
    · rw [htc]
      exact hround
    · rw [htb, hsite.1]
    · rw [htp, hsite.2.1]
  refine ⟨m, ?_, hR⟩
  have hat := he.settled.content_at hp'
  rw [hmt, ← hsite.2.2, hd.settled.position s i n hi] at hat
  exact hat

/-- The choices of placed nodes at the same place have the same path, and placed holders. -/
theorem Sound.pathAbove_of_facing (hd : d.Sound) (he : e.Sound)
    (hc : Facing (SamePlace d e) d e c c') : d.pathAbove c = e.pathAbove c' ∧
      (∀ k, (d.choice c).holder = some k → (d.node k).placed = true) ∧
      ∀ k, (e.choice c').holder = some k → (e.node k).placed = true := by
  unfold pathAbove
  cases hc with
  | root =>
    rw [show (d.choice ⟨0⟩).holder = none from hd.linked.root_holder,
      show (e.choice ⟨0⟩).holder = none from he.linked.root_holder]
    exact ⟨rfl, by simp, by simp⟩
  | @inner n m _ _ hR hc hc' =>
    obtain ⟨hp, hp', hpath⟩ := hR
    rw [(hd.linked.inner _ _ (hasNode_of_placed hp) hc).holder,
      (he.linked.inner _ _ (hasNode_of_placed hp') hc').holder]
    refine ⟨hpath, ?_, ?_⟩
    · rintro k ⟨⟩
      exact hp
    · rintro k ⟨⟩
      exact hp'

theorem SamePlace.symm (h : SamePlace d e n m) : SamePlace e d m n := ⟨h.2.1, h.1, h.2.2.symm⟩

theorem SameContent.exists_right (h : SameContent d e) (hp : (d.node n).placed = true) :
    ∃ m, SamePlace d e n m := by
  obtain ⟨m, hm, hpath⟩ := (h (d.path n)).1 ⟨n, hp, rfl⟩
  exact ⟨m, hp, hm, hpath.symm⟩

theorem SameContent.exists_left (h : SameContent d e) (hp : (e.node m).placed = true) :
    ∃ n, SamePlace d e n m := by
  obtain ⟨n, hn, hpath⟩ := (h (e.path m)).2 ⟨m, hp, rfl⟩
  exact ⟨n, hn, hp, hpath⟩

theorem SameContent.content (h : SameContent d e) (hd : d.Sound) (he : e.Sound)
    (hc : Facing (SamePlace d e) d e c c') {k j : Nat} {s t : SlotId}
    (hs : itemAt? (d.choice c).branches k j = some s)
    (ht : itemAt? (e.choice c').branches k j = some t) :
    List.Forall₂ (SamePlace d e) (d.slot s).content (e.slot t).content := by
  obtain ⟨hpath, hh, hh'⟩ := hd.pathAbove_of_facing he hc
  have hright : ∀ i n, (d.slot s).content[i]? = some n →
      ∃ m, (e.slot t).content[i]? = some m ∧ SamePlace d e n m := fun i n hi =>
    hd.exists_samePlace he (fun n => h.exists_right) hs ht hh' hpath hi
  have hleft : ∀ i m, (e.slot t).content[i]? = some m →
      ∃ n, (d.slot s).content[i]? = some n ∧ SamePlace e d m n := fun i m hi =>
    he.exists_samePlace hd (fun m hm => (h.exists_left hm).imp fun n => SamePlace.symm) ht hs hh
      hpath.symm hi
  refine List.forall₂_iff_get.2 ⟨Nat.le_antisymm ?_ ?_, fun i hi hi' => ?_⟩
  · by_contra hlt
    obtain ⟨m, hm, -⟩ := hright _ _ (List.getElem?_eq_getElem (Nat.lt_of_not_le hlt))
    simp at hm
  · by_contra hlt
    obtain ⟨m, hm, -⟩ := hleft _ _ (List.getElem?_eq_getElem (Nat.lt_of_not_le hlt))
    simp at hm
  · obtain ⟨m, hm, hR⟩ := hright i _ (List.getElem?_eq_getElem hi)
    rw [List.getElem?_eq_getElem hi'] at hm
    cases hm
    exact hR

/-- Drafts whose placed nodes stand at the same places mirror each other. -/
theorem mirror_of_sameContent (h : SameContent d e) (hd : d.Sound) (he : e.Sound)
    (hg : e.grammar = d.grammar) : Mirror (SamePlace d e) d e :=
  (hd.pairs_samePlace he hg).mirror hd he (fun hR => ⟨hR.1, hR.2.1⟩)
    fun hc hs ht => h.content hd he hc hs ht

end Cloze.Draft
