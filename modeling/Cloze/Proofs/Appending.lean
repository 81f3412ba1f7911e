import Cloze.Proofs.Landing
import Cloze.Proofs.Remainder

/-!
# Filling behind the last leaf

What may come next behind the last leaf stands behind everything that is placed, and once it is
filled it is the last leaf itself (`Fills.atEnd`). The words left to say behind a leaf are the same
before and after it is filled (`Fills.rest`).
-/

namespace Cloze.Draft

variable {d e : Draft} {n m : NodeId} {g : Grammar} {next : Option NodeId}

/-! ### What comes next stands at the end -/

theorem Level.ends_of_empty {k : Level} (hp : k.placed = false) (hpos : k.position = 0)
    (h : ∀ m : Level, m.frame = k.frame → m.cell.count = 0) : k.Ends := by
  refine ⟨?_, fun m hm => h m ?_⟩
  · rw [Level.IsLast, hp, hpos, h k rfl]
    rfl
  · obtain ⟨j, -, rfl, -⟩ := Frame.mem_gaps (List.mem_of_mem_drop hm)
    rfl

theorem Frame.ends_of_mem_allGaps {f : Frame} (h : ∀ m : Level, m.frame = f → m.cell.count = 0)
    {row : List Level} (hrow : row ∈ f.allGaps) : ∀ k ∈ row, k.Ends := by
  intro k hk
  obtain ⟨i, rfl⟩ := Frame.mem_allGaps hrow
  obtain ⟨j, -, rfl, -⟩ := Frame.mem_gaps hk
  exact Level.ends_of_empty rfl rfl h

theorem Descends.ends {gap u : Trail} (h : Descends g gap u) (hgap : ∀ l ∈ gap, l.Ends) :
    ∀ l ∈ u, l.Ends := by
  induction h with
  | leaf => exact hgap
  | into hopen hrow _ _ ih =>
    refine ih (List.forall_mem_cons.2 ⟨?_, hgap⟩)
    exact Frame.ends_of_mem_allGaps (fun _ hm => hopen.count_eq_zero hm) hrow _ (by simp)

theorem Follows.ends {t gap : Trail} (h : Follows g t gap) (ht : AtEnd g t) :
    ∀ l ∈ gap, l.Ends := by
  induction h with
  | @again l above _ =>
    obtain ⟨hl, hrest⟩ := List.forall_mem_cons.1 ht.ends
    refine List.forall_mem_cons.2 ⟨⟨?_, hl.empty⟩, hrest⟩
    have hlast := hl.last
    rwa [Level.IsLast, if_pos (ht.taken l List.mem_cons_self).placed] at hlast
  | @later l above before k after _ hrow _ _ =>
    obtain ⟨hl, hrest⟩ := List.forall_mem_cons.1 ht.ends
    have hmem : k ∈ l.later := by simp [hrow]
    obtain ⟨j, -, hk, -⟩ := Frame.mem_gaps (List.mem_of_mem_drop hmem)
    refine List.forall_mem_cons.2 ⟨⟨?_, fun m hm => hl.empty m ?_⟩, hrest⟩
    · rw [Level.IsLast, hl.empty k hmem, hk]
      rfl
    · rw [Level.later_of_later hrow] at hm
      simp [hrow, hm]
  | up _ _ _ ih => exact ih ht.of_cons

theorem Next.ends {t u : Trail} (h : Next g t u) (ht : AtEnd g t) : ∀ l ∈ u, l.Ends := by
  obtain ⟨gap, hf, hd⟩ := h
  exact hd.ends (hf.ends ht)

theorem Frame.Opening.ends {f : Frame} {u : Trail} (h : f.Opening g u)
    (hf : ∀ m : Level, m.frame = f → m.cell.count = 0) : ∀ l ∈ u, l.Ends := by
  obtain ⟨before, k, after, hrow, -, hd⟩ := h
  refine hd.ends fun l hl => ?_
  rw [List.mem_singleton.1 hl]
  exact Frame.ends_of_mem_allGaps hf hrow k (by simp)

/-! ### Filling keeps what stands behind -/

/-- Placing a node leaves what stands behind the nodes of its lineage, and behind those of other
choices. -/
theorem Places.rightOf (h : Places d n e) : ∀ {next : Option NodeId}, d.Linked →
    SettledBut next d → d.HasNode n → Awaits next d n → ∀ {y : NodeId},
    (∀ x ∈ d.lineage n, d.choiceAround x = d.choiceAround y → x = y) →
    e.rightOf y = d.rightOf y := by
  have hstep : ∀ {d : Draft} {n : NodeId} {next : Option NodeId}, d.Linked → SettledBut next d →
      d.HasNode n → (d.node n).placed = false → ∀ {y : NodeId},
      (∀ x ∈ d.lineage n, d.choiceAround x = d.choiceAround y → x = y) →
      (d.enter n).rightOf y = d.rightOf y := by
    intro d n next hl h hn hp y hy
    by_cases hc : d.choiceAround y = d.choiceAround n
    · obtain rfl := hy n (d.mem_lineage_self n) hc.symm
      exact (sides_enter h hl hn hp).2
    · exact (sides_enter_of_ne h hl hn hp hc).2
  induction h with
  | stop hp =>
    intro next hl h hn _ y hy
    exact hstep hl h hn hp hy
  | @up d e n m hp hfull hk hm _ ih =>
    intro next hl h hn hnext y hy
    have hsl := sameLinks_enter h hn hp
    have he := h.enter_up hl hn hp hnext hfull hk hm
    refine (ih (hsl.linked hl) he (hsl.hasNode.2 (hl.hasNode_holder hn hm)) (Or.inl rfl)
      fun x hx hc => hy x ?_ ?_).trans (hstep hl h hn hp hy)
    · rw [hsl.lineage] at hx
      rw [hl.lineage_of_holder hn hm]
      exact List.mem_cons_of_mem _ hx
    · rwa [hsl.choiceAround, hsl.choiceAround] at hc

theorem Places.placed (h : Places d n e) : ∀ {next : Option NodeId}, d.Linked →
    SettledBut next d → d.HasNode n → Awaits next d n →
    (e.node n).placed = true ∧ ∀ y, (d.node y).placed = true → (e.node y).placed = true := by
  have hstep : ∀ {d : Draft} {n : NodeId} {next : Option NodeId}, SettledBut next d →
      d.HasNode n → (d.node n).placed = false → ((d.enter n).node n).placed = true ∧
        ∀ y, (d.node y).placed = true → ((d.enter n).node y).placed = true := by
    intro d n next h hn hp
    refine ⟨by rw [placed_enter h hn hp, if_pos rfl], fun y hy => ?_⟩
    rw [placed_enter h hn hp]
    split
    · rfl
    · exact hy
  induction h with
  | stop hp =>
    intro next hl h hn _
    exact hstep h hn hp
  | @up d e n m hp hfull hk hm _ ih =>
    intro next hl h hn hnext
    have hsl := sameLinks_enter h hn hp
    have he := h.enter_up hl hn hp hnext hfull hk hm
    obtain ⟨h1, h2⟩ := hstep h hn hp
    obtain ⟨-, h3⟩ := ih (hsl.linked hl) he (hsl.hasNode.2 (hl.hasNode_holder hn hm)) (Or.inl rfl)
    exact ⟨h3 n h1, fun y hy => h3 y (h2 y hy)⟩

theorem Retouches.rightOf (h : Retouches d e) (n : NodeId) : e.rightOf n = d.rightOf n := by
  simp only [Draft.rightOf, h.links.slotsAfter, h.node_eq n, h.slot]

theorem Fills.rightOf (hf : Fills d n e) (h : d.Sound) (hn : d.HasNode n) (hm : m ∈ d.lineage n) :
    e.rightOf m = d.rightOf m := by
  obtain ⟨mid, h1, hs, hp, h2⟩ := hf.exists_places h hn
  have hleaf : mid.isLeaf n = true := (h1.links.isLeaf n).trans hf.leaf
  have hnm := h1.links.hasNode.2 hn
  rw [h2.rightOf, hp.rightOf hs.linked hs.settled hnm (Or.inr ⟨rfl, hleaf⟩), h1.rightOf]
  intro x hx hc
  rw [← h1.links.lineage] at hm
  exact hs.linked.eq_of_choiceAround hnm hx hm hc

/-- The leaf is placed then, and so is all that was. -/
theorem Fills.isPlaced (hf : Fills d n e) (h : d.Sound) (hn : d.HasNode n) :
    (e.node n).placed = true ∧ ∀ m, (d.node m).placed = true → (e.node m).placed = true := by
  obtain ⟨mid, h1, hs, hp, h2⟩ := hf.exists_places h hn
  obtain ⟨hself, hmono⟩ := hp.placed hs.linked hs.settled (h1.links.hasNode.2 hn)
    (Or.inr ⟨rfl, (h1.links.isLeaf n).trans hf.leaf⟩)
  simp only [h2.placed, ← h1.placed]
  exact ⟨hself, hmono⟩

/-- A leaf filled behind everything is the last leaf. -/
theorem Fills.atEnd (hf : Fills d n e) (h : d.Sound) (hn : d.HasNode n)
    (hends : ∀ l ∈ d.trail n, l.Ends) : AtEnd e.grammar (e.trail n) := by
  obtain ⟨he, hsl⟩ := hf.sound h hn
  refine ⟨he.standing (hf.isPlaced h hn).1, fun l hl => ?_⟩
  obtain ⟨m, hm, rfl⟩ := List.mem_map.1 hl
  rw [hsl.lineage] at hm
  have hmn := (h.linked.index_le_of_mem_lineage hn hm).1
  rw [he.ends_level_iff (hsl.hasNode.2 hmn), hf.rightOf h hn hm, ← h.ends_level_iff hmn]
  exact hends _ (List.mem_map_of_mem hm)

/-! ### Filling keeps what is left to say -/

theorem SameLinks.level_eq (h : SameLinks d e) (hl : d.Linked) (hn : d.HasNode n) :
    (e.level n).cell.shape = (d.level n).cell.shape
      ∧ (e.level n).laterShapes = (d.level n).laterShapes
      ∧ (e.level n).frame.depth = (d.level n).frame.depth := by
  have hs := (hl.node n hn).slot
  have he := h.linked hl
  have hslot := (h.node n).2
  refine ⟨?_, ?_, ?_⟩
  · rw [level, level, he.cell_spot (hslot ▸ h.hasSlot.2 hs), hl.cell_spot hs, hslot]
    exact (h.slot_eq _).1
  · rw [level, level, Level.laterShapes, Level.laterShapes, he.later_spot (hslot ▸ h.hasSlot.2 hs),
      hl.later_spot hs, hslot, h.slotsAfter, List.map_map, List.map_map]
    refine List.map_congr_left fun t ht => ?_
    obtain ⟨hst, -⟩ := hl.mem_slotsAfter ht
    simp only [Function.comp_apply, he.cell_spot (h.hasSlot.2 hst), hl.cell_spot hst]
    exact (h.slot_eq t).1
  · simp only [level, spot, frame, hslot, (h.slot_eq _).2.1, (h.choice_eq _).2.2.2.1]

theorem SameLinks.rest (h : SameLinks d e) (hl : d.Linked) (hn : d.HasNode n) {w : List String} :
    Rest g (e.trail n) w ↔ Rest g (d.trail n) w := by
  have hmap : (e.trail n).map (fun l => (l.cell.shape, l.laterShapes))
      = (d.trail n).map (fun l => (l.cell.shape, l.laterShapes)) := by
    simp only [trail, h.lineage, List.map_map]
    refine List.map_congr_left fun m hm => ?_
    obtain ⟨h1, h2, -⟩ := h.level_eq hl (hl.index_le_of_mem_lineage hn hm).1
    simp only [Function.comp_apply, h1, h2]
  exact ⟨rest_congr hmap, rest_congr hmap.symm⟩

theorem SameLinks.depth_le (h : SameLinks d e) (hl : d.Linked) (hn : d.HasNode n) {depth : Nat}
    (hd : ∀ l ∈ d.trail n, l.frame.depth ≤ depth) : ∀ l ∈ e.trail n, l.frame.depth ≤ depth := by
  intro l hmem
  obtain ⟨m, hm, rfl⟩ := List.mem_map.1 hmem
  rw [h.lineage] at hm
  rw [(h.level_eq hl (hl.index_le_of_mem_lineage hn hm).1).2.2]
  exact hd _ (List.mem_map_of_mem hm)

end Cloze.Draft
