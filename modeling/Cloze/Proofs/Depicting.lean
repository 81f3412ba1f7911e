import Cloze.Proofs.Condensing
import Cloze.Proofs.Reached

/-!
# The full diagram contains that of the placed nodes

In the full diagram of a draft an edge is dotted at four levels, for a choice, a branch, a slot and a
node, and each for a reason of its own. In a sound draft the reasons agree: what hangs below a dotted
edge is not placed and holds nothing placed (`fades_sketchFull`), and what is left without the dotted
edges are the placed nodes (`condense_sketchFull`). So the full diagram, condensed to its boxes, is
the diagram of the placed nodes (`full_contains_placed`).
-/

namespace Cloze.Diagram

open Draft

variable {d : Draft} {n m : NodeId} {c : ChoiceId} {s : SlotId} {link above : Style}
  {inside inside' keep : NodeId → Sketch}

@[simp] theorem solidIf_eq_dotted {b : Bool} : Style.solidIf b = .dotted ↔ b = false := by
  cases b <;> simp [Style.solidIf]

theorem condenseAll_eq_flatMap (ss : List Sketch) :
    Sketch.condenseAll ss = ss.flatMap Sketch.condense := by
  induction ss with
  | nil => rw [Sketch.condenseAll, List.flatMap_nil]
  | cons s rest ih => rw [Sketch.condenseAll, ih, List.flatMap_cons]

theorem condense_vertex (look : Look) (link : Style) (below : List Sketch) :
    (Sketch.vertex look link below).condense =
      if link = .dotted then []
      else if look.shape = "box" then [.vertex look .solid (below.flatMap Sketch.condense)]
      else below.flatMap Sketch.condense := by
  rw [Sketch.condense, condenseAll_eq_flatMap]

/-- What is drawn in a slot was made for it. -/
theorem mem_slotNodes (h : d.Sound) (hm : m ∈ slotNodes d s) :
    d.HasNode m ∧ (d.node m).slot = s ∧ (d.isPlaced m = true ↔ m ∈ (d.slot s).content) := by
  have hcontent := h.settled.content s m
  rcases List.mem_append.1 hm with hm | hm
  · have hgap : (d.slot s).gap = some m ∧ d.isPlaced m = false := by
      split at hm
      · simp at hm
      · simpa [Option.filter_eq_some_iff] using hm
    obtain ⟨hn, hslot⟩ := h.linked.gap s m hgap.1
    exact ⟨hn, hslot, by rw [hcontent]; simp [isPlaced, hslot]⟩
  · obtain ⟨hp, hslot⟩ := hcontent.1 hm
    exact ⟨hasNode_of_placed hp, hslot, by rw [hcontent]; simp [isPlaced, hslot]⟩

theorem filter_slotNodes (h : d.Sound) (s : SlotId) :
    (slotNodes d s).filter d.isPlaced = (d.slot s).content := by
  have hplaced : ∀ m ∈ (d.slot s).content, d.isPlaced m = true := fun m hm =>
    ((h.settled.content s m).1 hm).1
  have hgap : ((if d.isFull s then none else (d.slot s).gap.filter fun n => !d.isPlaced n).toList).filter
      d.isPlaced = [] := by
    refine List.filter_eq_nil_iff.2 fun m hm => ?_
    split at hm
    · simp at hm
    · have hm : (d.slot s).gap = some m ∧ d.isPlaced m = false := by
        simpa [Option.filter_eq_some_iff] using hm
      simp [hm.2]
  rw [slotNodes, List.filter_append, List.filter_eq_self.2 hplaced, hgap, List.nil_append]

/-- What is drawn in a branch of a choice stands in that choice. -/
theorem choiceAround_of_branch (h : d.Sound) {k : Nat} {branch : List SlotId}
    (hk : (d.choice c).branches[k]? = some branch) (hs : s ∈ branch) (hm : m ∈ slotNodes d s) :
    d.HasNode m ∧ d.choiceAround m = c := by
  obtain ⟨j, hj⟩ := List.mem_iff_getElem?.1 hs
  have hitem := itemAt?_eq_some.2 ⟨branch, hk, hj⟩
  have hslot := (h.linked.choice c (hasChoice_of_itemAt? hitem)).slots k j s hitem
  obtain ⟨hn, hms, -⟩ := mem_slotNodes h hm
  exact ⟨hn, by rw [choiceAround, hms, hslot.2.1]⟩

/-! ### Condensed sketches -/

theorem flatMap_placed : ∀ ms : List NodeId,
    ms.flatMap (fun m => if d.isPlaced m = true then [keep m] else []) =
      (ms.filter d.isPlaced).map keep
  | [] => rfl
  | m :: ms => by
    rw [List.flatMap_cons, flatMap_placed ms, List.filter_cons]
    split <;> rfl

theorem condense_sketchSlot (h : d.Sound) (s : SlotId)
    (hin : ∀ m, d.HasNode m → (inside m).condense = if d.isPlaced m = true then [keep m] else []) :
    (sketchSlot d inside s).condense = (d.slot s).content.map keep := by
  have hbox : "oval" ≠ "box" := by decide
  rw [sketchSlot, condense_vertex, if_neg hbox, List.flatMap_map,
    List.flatMap_congr fun m hm => hin m (mem_slotNodes h hm).1, flatMap_placed, filter_slotNodes h]
  split
  · next hlink =>
    have hempty : (d.slot s).content = [] := by simpa using hlink
    rw [hempty, List.map_nil]
  · rfl

/-- Of numbered rows one is read. -/
theorem flatMap_zipIdx {α β : Type} (f : α → List β) : ∀ (rows : List α) (i k : Nat),
    ((rows.zipIdx i).flatMap fun p => if i + k = p.2 then f p.1 else []) =
      (rows[k]?).toList.flatMap f
  | [], _, _ => rfl
  | row :: rows, i, 0 => by
    have hlater : (rows.zipIdx (i + 1)).flatMap (fun p => if i + 0 = p.2 then f p.1 else []) = [] := by
      refine List.flatMap_eq_nil_iff.2 fun p hp => if_neg ?_
      have := List.le_snd_of_mem_zipIdx hp
      omega
    rw [List.zipIdx_cons, List.flatMap_cons, hlater]
    simp
  | row :: rows, i, k + 1 => by
    have ih := flatMap_zipIdx f rows (i + 1) k
    rw [List.zipIdx_cons, List.flatMap_cons, if_neg (by simp), List.nil_append,
      List.getElem?_cons_succ, ← ih]
    simp only [Nat.add_assoc, Nat.add_comm 1 k]

theorem condense_sketchChoice (h : d.Sound) (c : ChoiceId) (link : Style)
    (hin : ∀ m, d.HasNode m → (inside m).condense = if d.isPlaced m = true then [keep m] else []) :
    (sketchChoice d inside c link).condense =
      if link = .dotted then [] else (d.contentOf c).map keep := by
  have hbox : "oval" ≠ "box" := by decide
  have hbranch : ∀ (branch : List SlotId) (k : Nat),
      (Sketch.vertex { label := "conc" } (.solidIf ((d.choice c).chosen == some k))
        (branch.map (sketchSlot d inside))).condense =
      if (d.choice c).chosen = some k then
        (branch.flatMap fun s => (d.slot s).content).map keep else [] := by
    intro branch k
    rw [condense_vertex, if_neg hbox, List.flatMap_map,
      List.flatMap_congr fun s _ => condense_sketchSlot h s hin, List.map_flatMap]
    by_cases hk : (d.choice c).chosen = some k <;> simp [hk]
  rw [sketchChoice, condense_vertex, if_neg hbox, List.flatMap_map]
  simp only [hbranch]
  congr 1
  rw [contentOf, chosenSlots]
  rcases (d.choice c).chosen with _ | k
  · simp
  · have hread := flatMap_zipIdx
      (fun branch : List SlotId => (branch.flatMap fun s => (d.slot s).content).map keep)
      (d.choice c).branches 0 k
    simp only [Nat.zero_add] at hread
    simp only [Option.some.injEq, hread, List.getD_eq_getElem?_getD]
    cases (d.choice c).branches[k]? <;> simp

theorem condense_sketchFull (h : d.Sound) : ∀ (bound : Nat) (n : NodeId), d.HasNode n →
    (sketchFull d bound n).condense =
      if d.isPlaced n = true then [sketchPlaced d bound n] else []
  | 0, n, _ => by
    rw [sketchFull, sketchPlaced, condense_vertex]
    cases d.isPlaced n <;> rfl
  | bound + 1, n, hn => by
    have hin := condense_sketchFull h bound
    have hbox : (lookOf d n).shape = "box" := rfl
    rw [sketchFull, sketchPlaced, condense_vertex, if_pos hbox, List.flatMap_map,
      List.flatMap_congr fun c _ => condense_sketchChoice h c _ hin, children]
    rcases hp : d.isPlaced n with _ | _
    · rfl
    · cases d.inner? n <;> simp [Style.solidIf]

theorem condense_fullOf (h : d.Sound) : (fullOf d).condense = placedOf d := by
  rw [fullOf, condense_ofSketches, condenseAll_eq_flatMap, List.flatMap_singleton,
    condense_sketchChoice h _ _ (condense_sketchFull h _), placedOf, top]
  rcases hc : d.root.chosen with _ | k
  · have hempty : d.contentOf ⟨0⟩ = [] := by
      rw [contentOf, chosenSlots, show d.choice ⟨0⟩ = d.root from rfl, hc]
      rfl
    rw [hempty]
    rfl
  · rfl

/-! ### Faded sketches -/

theorem fades_sketchSlot (h : d.Sound) (hs : above = .dotted → (d.slot s).content = [])
    (hin : ∀ m link, d.HasNode m → (link = .dotted → d.isPlaced m = false) → (inside m).Fades link) :
    (sketchSlot d inside s).Fades above := by
  refine .vertex (fun ha => by simp [hs ha]) fun t ht => ?_
  obtain ⟨m, hm, rfl⟩ := List.mem_map.1 ht
  obtain ⟨hn, -, hplaced⟩ := mem_slotNodes h hm
  refine hin m _ hn fun hlink => ?_
  have hempty : (d.slot s).content = [] := by simpa using hlink
  rw [hempty] at hplaced
  simpa using hplaced

/-- A choice of which nothing is taken has nothing but dotted edges. -/
theorem fades_sketchChoice (h : d.Sound) (habove : above = .dotted → link = .dotted)
    (hc : link = .dotted → (d.choice c).chosen = none)
    (hin : ∀ m link, d.HasNode m → (link = .dotted → d.isPlaced m = false) → (inside m).Fades link) :
    (sketchChoice d inside c link).Fades above := by
  refine .vertex habove fun t ht => ?_
  obtain ⟨⟨branch, k⟩, hk, rfl⟩ := List.mem_map.1 ht
  refine .vertex (fun hlink => by simp [hc hlink]) fun t ht => ?_
  obtain ⟨s, hs, rfl⟩ := List.mem_map.1 ht
  refine fades_sketchSlot h (fun hlink => ?_) hin
  have hne : (d.choice c).chosen ≠ some k := by simpa using hlink
  obtain ⟨j, hj⟩ := List.mem_iff_getElem?.1 hs
  by_contra hcontent
  refine hne ((h.settled.chosen c k).2 ⟨j, s, itemAt?_eq_some.2 ⟨branch, ?_, hj⟩, hcontent⟩)
  exact List.mk_mem_zipIdx_iff_getElem?.1 hk

theorem fades_sketchFull (h : d.Sound) : ∀ (bound : Nat) (n : NodeId) (above : Style),
    d.HasNode n → (above = .dotted → d.isPlaced n = false) → (sketchFull d bound n).Fades above
  | 0, n, above, _, ha => by
    rw [sketchFull]
    exact .vertex (fun hd => by simp [ha hd]) nofun
  | bound + 1, n, above, hn, ha => by
    rw [sketchFull]
    refine .vertex (fun hd => by simp [ha hd]) fun t ht => ?_
    obtain ⟨c, hc, rfl⟩ := List.mem_map.1 ht
    have hc : d.inner? n = some c := by simpa using hc
    refine fades_sketchChoice h id (fun hlink => ?_) (fun m link hm => fades_sketchFull h bound m link hm)
    have hp : d.isPlaced n = false := by simpa using hlink
    by_contra hne
    have hplaced := (h.settled.inner n hn (isLeaf_of_inner? hc) (by simp)).2 ⟨c, hc, hne⟩
    rw [isPlaced, hplaced] at hp
    cases hp

theorem fades_fullOf (h : d.Sound) : (fullOf d).Fades := by
  refine fades_ofSketches _ fun t ht => ?_
  rw [List.mem_singleton.1 ht]
  refine fades_sketchChoice h (fun hroot => ?_) (fun hlink => ?_)
    (fun m link hm => fades_sketchFull h _ m link hm)
  · cases hroot
  · have hnone : d.root.chosen = none := by simpa using hlink
    exact hnone

/-! ### The bound -/

theorem sketchChoice_congr (h : d.Sound) (hin : ∀ m, d.HasNode m → d.choiceAround m = c →
    inside m = inside' m) : sketchChoice d inside c link = sketchChoice d inside' c link := by
  unfold sketchChoice
  dsimp only
  congr 1
  refine List.map_congr_left fun p hp => ?_
  obtain ⟨branch, k⟩ := p
  dsimp only
  congr 1
  refine List.map_congr_left fun s hs => ?_
  unfold sketchSlot
  dsimp only
  congr 1
  refine List.map_congr_left fun m hm => ?_
  obtain ⟨hn, hc⟩ := choiceAround_of_branch h (List.mk_mem_zipIdx_iff_getElem?.1 hp) hs hm
  exact hin m hn hc

/-- There are fewer levels under a node than nodes made after it. -/
theorem sketchFull_congr (h : d.Sound) : ∀ {a b : Nat} {n : NodeId}, d.HasNode n →
    d.nodes.size ≤ n.index + a → d.nodes.size ≤ n.index + b → sketchFull d a n = sketchFull d b n
  | 0, _, n, hn, ha, _ => absurd hn (Nat.not_lt.2 ha)
  | _, 0, n, hn, _, hb => absurd hn (Nat.not_lt.2 hb)
  | a + 1, b + 1, n, hn, ha, hb => by
    rw [sketchFull, sketchFull]
    congr 1
    refine List.map_congr_left fun c hc => sketchChoice_congr h fun m hm hcm => ?_
    have hc : d.inner? n = some c := by simpa using hc
    have hholder : d.holder? m = some n := by
      rw [holder?, hcm]
      exact (h.linked.inner n c hn hc).holder
    have hlt := h.linked.holder_lt hm hholder
    exact sketchFull_congr h hm (by omega) (by omega)

/-- The bound cuts nothing off. -/
theorem fullOf_eq (h : d.Sound) {bound : Nat} (hb : d.nodes.size ≤ bound) : fullOf d =
    ofSketches d.rootName
      [sketchChoice d (sketchFull d bound) ⟨0⟩ (.solidIf d.root.chosen.isSome)] := by
  have hsame : ∀ m, d.HasNode m → sketchFull d d.nodes.size m = sketchFull d bound m :=
    fun m hm => sketchFull_congr h hm (by omega) (by omega)
  rw [fullOf, sketchChoice_congr h fun m hm _ => hsame m hm]

/-- The full diagram is a tree, everything below its dotted edges is dotted, and condensed to its
boxes it is the diagram of the placed nodes. -/
theorem full_contains_placed {definition : Grammar.Definition} {g : Grammar}
    (hg : definition.build = .ok g) (h : Reached g d) :
    (fullOf d).IsTree ∧ (fullOf d).Fades ∧ (fullOf d).condense = placedOf d ∧
      ∀ bound, d.nodes.size ≤ bound → fullOf d = ofSketches d.rootName
        [sketchChoice d (sketchFull d bound) ⟨0⟩ (.solidIf d.root.chosen.isSome)] := by
  have hs := (h.sound (Grammar.Definition.wellFormed_build hg)).1
  exact ⟨isTree_ofSketches _ _, fades_fullOf hs, condense_fullOf hs, fun _ => fullOf_eq hs⟩

/-- Of the diagram of a list with an item in it, with all that was laid out for more, the root and
five boxes are left. -/
theorem oneItem_contains_placed : (fullOf oneItem).IsTree ∧ (fullOf oneItem).Fades ∧
    (fullOf oneItem).condense = placedOf oneItem ∧ (fullOf oneItem).vertices.size = 33 ∧
    (placedOf oneItem).vertices.size = 6 := by
  obtain ⟨htree, hfades, hcondense, -⟩ := full_contains_placed build_lists reached_oneItem
  exact ⟨htree, hfades, hcondense, by decide +kernel, by decide +kernel⟩

end Cloze.Diagram
