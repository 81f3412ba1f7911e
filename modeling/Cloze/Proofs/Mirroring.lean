import Cloze.Proofs.Appending
import Cloze.Proofs.Mirror

/-!
# The same changes on both sides

What keeps two drafts a mirror of each other: growth and new tokens or notes on either side, and
placing a leaf on both. A leaf that was found at the same place on both sides is paired first,
together with the gaps above it (`Mirror.withGaps`). Then the check of its place ends alike
(`Mirror.checkPlace_iff`), and once it is placed all that is paired is placed (`Mirror.places`).
-/

namespace Cloze.Draft

open Edit

variable {R S : NodeId → NodeId → Prop} {d e d' e' : Draft} {n m x y : NodeId} {c c' : ChoiceId}

/-! ### Changes on both sides -/

theorem Pairs.links (h : Pairs R d e) (hd : SameLinks d d') (he : SameLinks e e') :
    Pairs R d' e' where
  grammar := by rw [hd.grammar, he.grammar, h.grammar]
  left := hd.linked h.left
  right := he.linked h.right
  unique := h.unique
  has := fun hR => ⟨hd.hasNode.2 (h.has hR).1, he.hasNode.2 (h.has hR).2⟩
  holder := fun hR => by
    rw [hd.holder?, he.holder?]
    exact h.holder hR
  branch := fun hR => by
    rw [(hd.node _).2, (he.node _).2, (hd.slot_eq _).2.2.1, (he.slot_eq _).2.2.1]
    exact h.branch hR
  place := fun hR => by
    rw [(hd.node _).2, (he.node _).2, (hd.slot_eq _).2.2.2.1, (he.slot_eq _).2.2.2.1]
    exact h.place hR

theorem Facing.of_links (hd : SameLinks d d') (he : SameLinks e e') (h : Facing R d' e' c c') :
    Facing R d e c c' := by
  cases h with
  | root => exact .root
  | inner hR hc hc' =>
    rw [hd.inner?] at hc
    rw [he.inner?] at hc'
    exact .inner hR hc hc'

/-- Tokens and notes do not matter for a mirror. -/
theorem Mirror.retouches (h : Mirror R d e) (hd : Retouches d d') (he : Retouches e e') :
    Mirror R d' e' where
  toPairs := h.toPairs.links hd.links he.links
  position := fun hR => by
    rw [hd.position, he.position]
    exact h.position hR
  placed := fun hR => by
    rw [hd.placed, he.placed]
    exact h.placed hR
  chosen := fun hc => by
    rw [hd.choice, he.choice]
    exact h.chosen (hc.of_links hd.links he.links)
  content := fun hc hs ht => by
    rw [hd.choice] at hs
    rw [he.choice] at ht
    rw [hd.slot, he.slot]
    exact h.content (hc.of_links hd.links he.links) hs ht

/-- The choice of a placed node is there before the draft grows. -/
theorem Keeps.inner?_of_placed (hk : Keeps d d') (h : d.Sound) (hp : (d.node n).placed = true)
    (hc : d'.inner? n = some c) : d.inner? n = some c := by
  have hn := hasNode_of_placed hp
  rcases hl : d.isLeaf n with _ | _
  · obtain ⟨c₁, hc₁, -⟩ := (h.settled.inner n hn hl (by simp)).1 hp
    rw [hk.grows.inner? hn hc₁] at hc
    rw [hc₁, hc]
  · rw [← hk.grows.isLeaf hn, isLeaf_of_inner? hc] at hl
    cases hl

/-- Growth on either side keeps a mirror of placed nodes. -/
theorem Mirror.keeps (h : Mirror R d e) (hd : d.Sound) (he : e.Sound)
    (hp : ∀ {n m}, R n m → (d.node n).placed = true) (hkd : Keeps d d') (hke : Keeps e e') :
    Mirror R d' e' := by
  have hslot : ∀ {n m}, R n m → d.HasSlot (d.node n).slot ∧ e.HasSlot (e.node m).slot := fun hR =>
    ⟨(h.left.node _ (h.has hR).1).slot, (h.right.node _ (h.has hR).2).slot⟩
  have hpairs : Pairs R d' e' := by
    refine ⟨by rw [hkd.grows.grammar, hke.grows.grammar, h.grammar], hkd.sound.linked,
      hke.sound.linked, h.unique, fun hR => ⟨hkd.grows.hasNode (h.has hR).1,
        hke.grows.hasNode (h.has hR).2⟩, fun {n m} hR => ?_, fun {n m} hR => ?_, fun {n m} hR => ?_⟩ <;>
      obtain ⟨hn, hm⟩ := h.has hR <;> obtain ⟨hs, ht⟩ := hslot hR
    · rw [hkd.grows.holder? hn hs (h.left.hasChoice_around hn),
        hke.grows.holder? hm ht (h.right.hasChoice_around hm)]
      exact h.holder hR
    · rw [(hkd.grows.node_eq hn).2.1, (hke.grows.node_eq hm).2.1, (hkd.grows.slot_eq hs).2.2.1,
        (hke.grows.slot_eq ht).2.2.1]
      exact h.branch hR
    · rw [(hkd.grows.node_eq hn).2.1, (hke.grows.node_eq hm).2.1, (hkd.grows.slot_eq hs).2.2.2,
        (hke.grows.slot_eq ht).2.2.2]
      exact h.place hR
  refine hpairs.mirror hkd.sound hke.sound (fun hR => ?_) fun {c c' k j s t} hc hs ht => ?_
  · rw [hkd.grows.placed, hke.grows.placed, ← h.placed hR]
    exact ⟨hp hR, hp hR⟩
  · have hface : Facing R d e c c' := by
      cases hc with
      | root => exact .root
      | inner hR hc hc' =>
        exact .inner hR (hkd.inner?_of_placed hd (hp hR) hc)
          (hke.inner?_of_placed he ((h.placed hR).symm.trans (hp hR)) hc')
    obtain ⟨h1, h2⟩ := h.hasChoice hface
    rw [hkd.grows.choice c h1] at hs
    rw [hke.grows.choice c' h2] at ht
    rw [hkd.grows.content, hke.grows.content]
    exact h.content hface hs ht

/-! ### Gaps found at the same place -/

/-- What stands above nodes with the same trail has the same trail. -/
theorem Linked.holder_of_trail (hd : d.Linked) (he : e.Linked) (hx : d.HasNode x)
    (hy : e.HasNode y) (ht : d.trail x = e.trail y) : d.level x = e.level y ∧
      (d.holder? x = none ∧ e.holder? y = none ∨
        ∃ k k', d.holder? x = some k ∧ e.holder? y = some k' ∧ d.trail k = e.trail k') := by
  rw [hd.trail_eq hx, he.trail_eq hy, List.cons.injEq] at ht
  have hne : ∀ (d : Draft) k, d.trail k ≠ [] := by
    intro d k
    obtain ⟨rest, hrest⟩ := d.exists_lineage_eq_cons k
    simp [trail, hrest]
  refine ⟨ht.1, ?_⟩
  rcases hk : d.holder? x with _ | k <;> rcases hk' : e.holder? y with _ | k'
  · exact Or.inl ⟨rfl, rfl⟩
  · rw [above_of_top hk, above_of_holder hk'] at ht
    exact absurd ht.2.symm (hne e k')
  · rw [above_of_holder hk, above_of_top hk'] at ht
    exact absurd ht.2 (hne d k)
  · rw [above_of_holder hk, above_of_holder hk'] at ht
    exact Or.inr ⟨k, k', rfl, rfl, ht.2⟩

theorem Linked.length_trail_le (h : d.Linked) (hn : d.HasNode n) :
    x ∈ d.lineage n → (d.trail x).length ≤ (d.trail n).length := by
  induction n, hn using h.lineage_induction with
  | top n hn hh =>
    rw [lineage_of_top hh, List.mem_singleton]
    rintro rfl
    exact Nat.le_refl _
  | up n k hn hk hh ih =>
    rw [h.lineage_of_holder hn hh, List.mem_cons]
    rintro (rfl | hx)
    · exact Nat.le_refl _
    · have hlen := ih hx
      rw [h.trail_eq hn, above_of_holder hh, List.length_cons]
      omega

/-- The nodes of a lineage have trails of different lengths. -/
theorem Linked.eq_of_mem_lineage_of_trail (h : d.Linked) (hn : d.HasNode n) :
    x ∈ d.lineage n → y ∈ d.lineage n → d.trail x = d.trail y → x = y := by
  induction n, hn using h.lineage_induction with
  | top n hn hh =>
    rw [lineage_of_top hh, List.mem_singleton, List.mem_singleton]
    rintro rfl rfl -
    rfl
  | up n k hn hk hh ih =>
    have hlt : ∀ {z}, z ∈ d.lineage k → d.trail z ≠ d.trail n := by
      intro z hz heq
      have hlen := h.length_trail_le hk hz
      rw [heq, h.trail_eq hn, above_of_holder hh, List.length_cons] at hlen
      omega
    rw [h.lineage_of_holder hn hh, List.mem_cons, List.mem_cons]
    rintro (rfl | hx) (rfl | hy) ht
    · rfl
    · exact absurd ht.symm (hlt hy)
    · exact absurd ht (hlt hx)
    · exact ih hx hy ht

/-- Nodes that are paired, or gaps of two lineages with the same trail. -/
def WithGaps (R : NodeId → NodeId → Prop) (d e : Draft) (n m x y : NodeId) : Prop :=
  R x y ∨ x ∈ d.lineage n ∧ y ∈ e.lineage m ∧ (d.node x).placed = false ∧ d.trail x = e.trail y

/-- A placed node is paired with the node that has the same trail. -/
theorem Mirror.of_trail (h : Mirror R d e) (hd : d.Sound) (he : e.Sound)
    (hp : (d.node x).placed = true) (hy : e.HasNode y) (ht : d.trail x = e.trail y) : R x y := by
  obtain ⟨z, hz⟩ := h.exists_right hd he hp
  have heq := he.eq_of_trail (h.has hz).2 hy ((h.placed hz).symm.trans hp)
    ((h.trail hz).trans ht)
  exact heq ▸ hz

section WithGaps

variable (h : Mirror R d e) (hd : d.Sound) (he : e.Sound)
  (hp : ∀ {n m}, R n m → (d.node n).placed = true) (hn : d.HasNode n) (hm : e.HasNode m)
include h hd he hp hn hm

theorem Mirror.pairs_withGaps : Pairs (WithGaps R d e n m) d e := by
  have hhas : ∀ {x y}, x ∈ d.lineage n → y ∈ e.lineage m → d.HasNode x ∧ e.HasNode y :=
    fun hx hy => ⟨(h.left.index_le_of_mem_lineage hn hx).1, (h.right.index_le_of_mem_lineage hm hy).1⟩
  have hlevel : ∀ {x y}, x ∈ d.lineage n → y ∈ e.lineage m → d.trail x = e.trail y →
      d.level x = e.level y := fun hx hy ht =>
    (h.left.holder_of_trail h.right (hhas hx hy).1 (hhas hx hy).2 ht).1
  refine ⟨h.grammar, h.left, h.right, ⟨?_, ?_⟩, ?_, ?_, ?_, ?_⟩
  · rintro x x' y (hR | ⟨hx, hy, hpx, ht⟩) (hR' | ⟨hx', hy', hpx', ht'⟩)
    · exact h.unique.1 hR hR'
    · have hpl := congrArg Level.placed (hlevel hx' hy' ht')
      cases hpx'.symm.trans (hpl.trans ((h.placed hR).symm.trans (hp hR)))
    · have hpl := congrArg Level.placed (hlevel hx hy ht)
      cases hpx.symm.trans (hpl.trans ((h.placed hR').symm.trans (hp hR')))
    · exact h.left.eq_of_mem_lineage_of_trail hn hx hx' (ht.trans ht'.symm)
  · rintro x y y' (hR | ⟨hx, hy, hpx, ht⟩) (hR' | ⟨hx', hy', hpx', ht'⟩)
    · exact h.unique.2 hR hR'
    · cases hpx'.symm.trans (hp hR)
    · cases hpx.symm.trans (hp hR')
    · exact h.right.eq_of_mem_lineage_of_trail hm hy hy' (ht.symm.trans ht')
  · rintro x y (hR | ⟨hx, hy, -, -⟩)
    · exact h.has hR
    · exact hhas hx hy
  · rintro x y (hR | ⟨hx, hy, hpx, ht⟩)
    · rcases h.holder_cases hR with ⟨hk, hk'⟩ | ⟨k, k', hk, hk', hR'⟩ <;> rw [hk, hk']
      · exact .none
      · exact .some (Or.inl hR')
    · obtain ⟨hxn, hyn⟩ := hhas hx hy
      rcases (h.left.holder_of_trail h.right hxn hyn ht).2 with ⟨hk, hk'⟩ | ⟨k, k', hk, hk', htk⟩
      · rw [hk, hk']
        exact .none
      · have hkl := h.left.mem_lineage_holder hn hx hk
        have hkl' := h.right.mem_lineage_holder hm hy hk'
        rw [hk, hk']
        refine .some ?_
        rcases hpk : (d.node k).placed with _ | _
        · exact Or.inr ⟨hkl, hkl', hpk, htk⟩
        · exact Or.inl (h.of_trail hd he hpk (hhas hkl hkl').2 htk)
  · rintro x y (hR | ⟨hx, hy, -, ht⟩)
    · exact h.branch hR
    · exact congrArg Level.branch (hlevel hx hy ht)
  · rintro x y (hR | ⟨hx, hy, -, ht⟩)
    · exact h.place hR
    · exact congrArg Level.slot (hlevel hx hy ht)

/-- Gaps at the same place may be paired: there is nothing in them. -/
theorem Mirror.withGaps : Mirror (WithGaps R d e n m) d e := by
  have hpairs := h.pairs_withGaps hd he hp hn hm
  have hlevel : ∀ {x y}, WithGaps R d e n m x y → d.level x = e.level y := by
    rintro x y (hR | hgap)
    · exact (h.level hR).symm
    · obtain ⟨hx, hy⟩ := hpairs.has (Or.inr hgap)
      exact (h.left.holder_of_trail h.right hx hy hgap.2.2.2).1
  have hplaced : ∀ {x y}, WithGaps R d e n m x y → (d.node x).placed = (e.node y).placed :=
    fun hR => congrArg Level.placed (hlevel hR)
  -- The choices of gaps that face each other have taken no branch.
  have hface : ∀ {c c'}, Facing (WithGaps R d e n m) d e c c' → Facing R d e c c' ∨
      (d.choice c).chosen = none ∧ (e.choice c').chosen = none := by
    intro c c' hc
    cases hc with
    | root => exact Or.inl .root
    | @inner x y _ _ hR hc hc' =>
      rcases hR with hR | hgap
      · exact Or.inl (.inner hR hc hc')
      · obtain ⟨hx, hy⟩ := hpairs.has (Or.inr hgap)
        have hpy := (hplaced (Or.inr hgap)).symm.trans hgap.2.2.1
        exact Or.inr ⟨hd.settled.chosen_inner hx hgap.2.2.1 hc, he.settled.chosen_inner hy hpy hc'⟩
  refine ⟨hpairs, fun hR => congrArg Level.position (hlevel hR), hplaced, fun hc => ?_,
    fun {c c' k j s t} hc hs ht => ?_⟩
  · rcases hface hc with hc | ⟨hc, hc'⟩
    · exact h.chosen hc
    · rw [hc, hc']
  · rcases hface hc with hc | ⟨hc, hc'⟩
    · exact (h.content hc hs ht).imp fun _ _ => Or.inl
    · obtain ⟨hss, hsc, -⟩ := (h.left.choice c (hasChoice_of_itemAt? hs)).slots k j s hs
      obtain ⟨hts, htc, -⟩ := (h.right.choice c' (hasChoice_of_itemAt? ht)).slots k j t ht
      rw [hd.settled.content_eq_nil hd.linked hss (by rw [hsc, hc]),
        he.settled.content_eq_nil he.linked hts (by rw [htc, hc'])]
      exact .nil

end WithGaps

/-! ### Placing on both sides -/

theorem Mirror.isFull_eq (h : Mirror R d e) (hR : R n m) :
    e.isFull (e.node m).slot = d.isFull (d.node n).slot := by
  obtain ⟨hn, hm⟩ := h.has hR
  rw [← h.left.isFull_spot (h.left.node n hn).slot (d.node n).position (d.node n).placed,
    ← h.right.isFull_spot (h.right.node m hm).slot (e.node m).position (e.node m).placed, h.grammar]
  exact congrArg (Level.isFull d.grammar) (h.level hR)

theorem Mirror.isOk_checkPlaceAlong (h : Mirror R d e) {ns ms : List NodeId}
    (hns : List.Forall₂ R ns ms) :
    (e.checkPlaceAlong ms).isOk = (d.checkPlaceAlong ns).isOk := by
  induction hns with
  | nil => rfl
  | @cons n m ns ms hR _ ih =>
    have hchosen := h.chosen (h.facing hR)
    rw [choiceAround, choiceAround] at hchosen
    simp only [checkPlaceAlong, ← h.placed hR, h.isFull_eq hR, ← h.position hR, ← h.branch hR,
      ← (h.content_around hR).length_eq, ← hchosen]
    split
    · rfl
    · split
      · rfl
      · split
        · rfl
        · split
          · split <;> rfl
          · exact ih

/-- The places of paired nodes are refused on both sides or on none. -/
theorem Mirror.checkPlace_iff (h : Mirror R d e) (hR : R n m) :
    e.checkPlace m = .ok () ↔ d.checkPlace n = .ok () := by
  have hok := h.isOk_checkPlaceAlong (h.lineage hR)
  rw [checkPlace, checkPlace]
  generalize d.checkPlaceAlong (d.lineage n) = r at hok ⊢
  generalize e.checkPlaceAlong (e.lineage m) = r' at hok ⊢
  cases r <;> cases r' <;> simp_all [Except.isOk, Except.toBool]

/-- Placing a node changes the slots of the gaps above it, and each of them by its gap. -/
theorem Places.content (h : Places d n e) : ∀ {next : Option NodeId}, d.Linked →
    SettledBut next d → d.HasNode n → Awaits next d n → ∀ s,
    (∃ x ∈ d.lineage n, (d.node x).placed = false ∧ (d.node x).slot = s ∧
      (e.slot s).content = (d.slot s).content.insertIdx (d.node x).position x) ∨
    (∀ x ∈ d.lineage n, (d.node x).placed = false → (d.node x).slot ≠ s) ∧
      (e.slot s).content = (d.slot s).content := by
  induction h with
  | @stop d n hp hfull hk =>
    intro next hl h hn hnext s
    by_cases hs : s = (d.node n).slot
    · exact Or.inl ⟨n, d.mem_lineage_self n, hp, hs.symm, hs ▸ content_enter hl hn⟩
    · refine Or.inr ⟨fun x hx hpx heq => ?_, content_enter_of_ne hs⟩
      rcases hh : d.holder? n with _ | k
      · rw [lineage_of_top hh, List.mem_singleton] at hx
        exact hs (hx ▸ heq.symm)
      · rw [hl.lineage_of_holder hn hh, List.mem_cons] at hx
        rcases hx with rfl | hx
        · exact hs heq.symm
        -- The branch is taken, so the node above is placed and all above it.
        · have hchosen := hk.resolve_right fun hk => by rw [hk.2] at hh; cases hh
          have hne : ∀ m ∈ d.lineage k, next ≠ some m := by
            rintro m hm rfl
            rcases hnext with hx | ⟨hx, -⟩ <;> cases hx
            exact Linked.not_mem_lineage_holder hl hn hh hm
          have hin := hl.inner?_holder hn hh
          have hkn := hl.hasNode_holder hn hh
          have hpk : (d.node k).placed = true :=
            (h.inner k hkn (isLeaf_of_inner? hin) (hne k (d.mem_lineage_self k))).2
              ⟨_, hin, by simp [hchosen]⟩
          rw [h.placed_of_mem_lineage hl hkn hpk hne x hx] at hpx
          cases hpx
  | @up d e n m hp hfull hk hm _ ih =>
    intro next hl h hn hnext s
    have hsl := sameLinks_enter h hn hp
    have hne : ∀ {x}, x ∈ d.lineage m → x ≠ n ∧ (d.node x).slot ≠ (d.node n).slot := by
      intro x hx
      have hround := hl.choiceAround_ne hn hm hx
      refine ⟨?_, fun heq => hround (by rw [choiceAround, heq]; rfl)⟩
      rintro rfl
      exact hround rfl
    have hplaced : ∀ {x}, x ∈ d.lineage m → ((d.enter n).node x).placed = (d.node x).placed := by
      intro x hx
      rw [placed_enter h hn hp, if_neg (hne hx).1]
    have hup := ih (hsl.linked hl) (h.enter_up hl hn hp hnext hfull hk hm)
      (Places.hasNode_up hl hn hm h hp) (Or.inl rfl) s
    rw [hsl.lineage] at hup
    rw [hl.lineage_of_holder hn hm]
    rcases hup with ⟨x, hx, hpx, hslot, hcont⟩ | ⟨hnone, hcont⟩
    · rw [hplaced hx] at hpx
      rw [(hsl.node x).2] at hslot
      rw [position_enter h hn hp, if_neg (h.not_mem_laterThan hpx n),
        content_enter_of_ne (hslot ▸ (hne hx).2)] at hcont
      exact Or.inl ⟨x, List.mem_cons_of_mem _ hx, hpx, hslot, hcont⟩
    · by_cases hs : s = (d.node n).slot
      · refine Or.inl ⟨n, List.mem_cons_self, hp, hs.symm, hcont.trans ?_⟩
        rw [hs, content_enter hl hn]
      · refine Or.inr ⟨fun x hx hpx => ?_, hcont.trans (content_enter_of_ne hs)⟩
        rcases List.mem_cons.1 hx with rfl | hx
        · exact fun heq => hs heq.symm
        · rw [← (hsl.node x).2]
          exact hnone x hx ((hplaced hx).trans hpx)

theorem Facing.symm (h : Facing R d e c c') : Facing (fun m n => R n m) e d c' c := by
  cases h with
  | root => exact .root
  | inner hR hc hc' => exact .inner hR hc' hc

theorem Pairs.symm (h : Pairs R d e) : Pairs (fun m n => R n m) e d where
  grammar := h.grammar.symm
  left := h.right
  right := h.left
  unique := ⟨fun _ _ _ h1 h2 => h.unique.2 h1 h2, fun _ _ _ h1 h2 => h.unique.1 h1 h2⟩
  has := fun hR => (h.has hR).symm
  holder := fun hR => by
    rcases h.holder_cases hR with ⟨hk, hk'⟩ | ⟨k, k', hk, hk', hR'⟩ <;> rw [hk, hk']
    · exact .none
    · exact .some hR'
  branch := fun hR => (h.branch hR).symm
  place := fun hR => (h.place hR).symm

/-- The nodes that hold choices which face each other are paired. -/
theorem Pairs.facing_holder (h : Pairs R d e) (hc : Facing R d e c c') :
    ((d.choice c).holder = none ∧ (e.choice c').holder = none) ∨
      ∃ n m, (d.choice c).holder = some n ∧ (e.choice c').holder = some m ∧ R n m := by
  cases hc with
  | root => exact Or.inl ⟨h.left.root_holder, h.right.root_holder⟩
  | inner hR hc hc' =>
    exact Or.inr ⟨_, _, (h.left.inner _ _ (h.has hR).1 hc).holder,
      (h.right.inner _ _ (h.has hR).2 hc').holder, hR⟩

/-- A choice faces one choice. -/
theorem Pairs.facing_unique (h : Pairs R d e) {c₁ c₂ : ChoiceId} (h₁ : Facing R d e c c₁)
    (h₂ : Facing R d e c c₂) : c₁ = c₂ := by
  have hl₁ := h.right.choice c₁ (h.hasChoice h₁).2
  have hl₂ := h.right.choice c₂ (h.hasChoice h₂).2
  rcases h.facing_holder h₁ with ⟨hn, hm₁⟩ | ⟨n, m₁, hn, hm₁, hR₁⟩ <;>
    rcases h.facing_holder h₂ with ⟨hn', hm₂⟩ | ⟨n', m₂, hn', hm₂, hR₂⟩
  · rw [hl₁.root hm₁, hl₂.root hm₂]
  · cases hn.symm.trans hn'
  · cases hn.symm.trans hn'
  · obtain rfl := Option.some.inj (hn.symm.trans hn')
    obtain rfl := h.unique.2 hR₁ hR₂
    exact Option.some.inj ((hl₁.holder m₁ hm₁).2.symm.trans (hl₂.holder m₁ hm₂).2)

/-- Paired nodes stand in corresponding slots. -/
theorem Pairs.slot_of_slot (h : Pairs R d e) (hR : R x y) (hc : Facing R d e c c') {k j : Nat}
    {s t : SlotId} (hs : itemAt? (d.choice c).branches k j = some s)
    (ht : itemAt? (e.choice c').branches k j = some t) (hx : (d.node x).slot = s) :
    (e.node y).slot = t := by
  obtain ⟨-, hsc, hsb, hsp⟩ := (h.left.choice c (hasChoice_of_itemAt? hs)).slots k j s hs
  have hcx : d.choiceAround x = c := by rw [choiceAround, hx, hsc]
  have hface := h.facing hR
  rw [hcx] at hface
  have hslot := (h.slot_of_facing hR).2
  rw [← h.facing_unique hc hface, hx, hsb, hsp, ht] at hslot
  exact (Option.some.inj hslot).symm

theorem forall₂_insertIdx {α β : Type} {R : α → β → Prop} {x : α} {y : β} (hxy : R x y)
    {xs : List α} {ys : List β} (h : List.Forall₂ R xs ys) (i : Nat) :
    List.Forall₂ R (xs.insertIdx i x) (ys.insertIdx i y) := by
  induction h generalizing i with
  | nil =>
    cases i with
    | zero => exact .cons hxy .nil
    | succ i => exact .nil
  | cons hR hrest ih =>
    cases i with
    | zero => exact .cons hxy (.cons hR hrest)
    | succ i => exact .cons hR (ih i)

/-- What goes into corresponding slots when a node is placed on both sides corresponds. -/
theorem Mirror.content_places (h : Mirror R d e) (hd : d.Sound) (he : e.Sound) (hR : R n m)
    (hl : d.isLeaf n = true) (hpd : Places d n d') (hpe : Places e m e') (hc : Facing R d e c c')
    {k j : Nat} {s t : SlotId} (hs : itemAt? (d.choice c).branches k j = some s)
    (ht : itemAt? (e.choice c').branches k j = some t) :
    List.Forall₂ R (d'.slot s).content (e'.slot t).content := by
  obtain ⟨hn, hm⟩ := h.has hR
  have hold := h.content hc hs ht
  have hlin := h.lineage hR
  rcases hpd.content hd.linked hd.settled hn (Or.inr ⟨rfl, hl⟩) s with
    ⟨x, hx, hpx, hxs, hcont⟩ | ⟨hnone, hcont⟩
  · obtain ⟨y, hy, hxy⟩ := forall₂_exists_left hlin hx
    have hyt := h.slot_of_slot hxy hc hs ht hxs
    have hpy := (h.placed hxy).symm.trans hpx
    rcases hpe.content he.linked he.settled hm (Or.inr ⟨rfl, (h.isLeaf_eq hR).trans hl⟩) t with
      ⟨z, hz, -, hzt, hcont'⟩ | ⟨hnone, -⟩
    · obtain rfl : z = y := he.linked.eq_of_choiceAround hm hz hy (by
        rw [choiceAround, hzt, choiceAround, hyt])
      rw [hcont, hcont', h.position hxy]
      exact forall₂_insertIdx hxy hold _
    · exact absurd hyt (hnone y hy hpy)
  · rcases hpe.content he.linked he.settled hm (Or.inr ⟨rfl, (h.isLeaf_eq hR).trans hl⟩) t with
      ⟨y, hy, hpy, hyt, -⟩ | ⟨-, hcont'⟩
    · obtain ⟨x, hx, hxy⟩ := forall₂_exists_left hlin.flip hy
      have hxs := h.toPairs.symm.slot_of_slot hxy hc.symm ht hs hyt
      exact absurd hxs (hnone x hx ((h.placed hxy).trans hpy))
    · rw [hcont, hcont']
      exact hold

/-- Placing paired leaves keeps a mirror, and then all that is paired is placed. -/
theorem Mirror.places (h : Mirror R d e) (hd : d.Sound) (he : e.Sound) (hR : R n m)
    (hl : d.isLeaf n = true)
    (hp : ∀ {x y}, R x y → (d.node x).placed = true ∨ x ∈ d.lineage n)
    (hpd : Places d n d') (hpe : Places e m e') :
    Mirror R d' e' ∧ ∀ {x y}, R x y → (d'.node x).placed = true := by
  obtain ⟨hn, hm⟩ := h.has hR
  have hl' : e.isLeaf m = true := (h.isLeaf_eq hR).trans hl
  obtain ⟨hsd, hlinks⟩ := hd.of_places hn hl hpd
  obtain ⟨hse, hlinks'⟩ := he.of_places hm hl' hpe
  obtain ⟨hpn, hmono⟩ := hpd.placed hd.linked hd.settled hn (Or.inr ⟨rfl, hl⟩)
  obtain ⟨hpm, hmono'⟩ := hpe.placed he.linked he.settled hm (Or.inr ⟨rfl, hl'⟩)
  have hplaced : ∀ {x y}, R x y → (d'.node x).placed = true ∧ (e'.node y).placed = true := by
    intro x y hxy
    rcases hp hxy with hpx | hx
    · exact ⟨hmono x hpx, hmono' y ((h.placed hxy).symm.trans hpx)⟩
    · obtain ⟨z, hz, hxz⟩ := forall₂_exists_left (h.lineage hR) hx
      obtain rfl := h.unique.2 hxy hxz
      rw [← hlinks.lineage] at hx
      rw [← hlinks'.lineage] at hz
      exact ⟨hsd.placed_of_mem_lineage (hlinks.hasNode.2 hn) hpn hx,
        hse.placed_of_mem_lineage (hlinks'.hasNode.2 hm) hpm hz⟩
  refine ⟨(h.toPairs.links hlinks hlinks').mirror hsd hse hplaced fun {c c' k j s t} hc hs ht => ?_,
    fun hxy => (hplaced hxy).1⟩
  rw [(hlinks.choice_eq c).2.2.2.2] at hs
  rw [(hlinks'.choice_eq c').2.2.2.2] at ht
  exact h.content_places hd he hR hl hpd hpe (hc.of_links hlinks hlinks') hs ht

end Cloze.Draft
