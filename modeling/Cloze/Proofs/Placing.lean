import Cloze.Proofs.Integrity
import Mathlib.Data.List.Nodup

/-!
# Placing nodes

`enter` is what placing does on one level: the node goes into its slot, the nodes behind it move
on, and the choice takes the node's branch. A leaf whose place has been checked is placed by
entering its gaps from the bottom up, and the draft is settled again afterwards
(`settled_place`).
-/

namespace Cloze.Draft

variable {d e : Draft}

theorem moveOn_frame : ∀ (ns : List NodeId) (d : Draft),
    (d.moveOn ns).grammar = d.grammar ∧ (d.moveOn ns).settings = d.settings
      ∧ (d.moveOn ns).unskippable = d.unskippable ∧ (d.moveOn ns).choices = d.choices
      ∧ (d.moveOn ns).slots = d.slots ∧ (d.moveOn ns).nodes.size = d.nodes.size
  | [], d => ⟨rfl, rfl, rfl, rfl, rfl, rfl⟩
  | n :: ns, d => by
    obtain ⟨h1, h2, h3, h4, h5, h6⟩ := moveOn_frame ns
      (d.modifyNode n fun node => { node with position := node.position + 1 })
    exact ⟨h1, h2, h3, h4, h5, h6.trans (by simp [modifyNode])⟩

theorem node_moveOn : ∀ (ns : List NodeId) (d : Draft), ns.Nodup → ∀ m,
    (d.moveOn ns).node m = if m ∈ ns ∧ d.HasNode m
      then { d.node m with position := (d.node m).position + 1 } else d.node m
  | [], d, _, m => by simp [moveOn]
  | n :: ns, d, hd, m => by
    obtain ⟨hn, hns⟩ := List.nodup_cons.1 hd
    have ih := node_moveOn ns (d.modifyNode n fun node => { node with position := node.position + 1 })
      hns m
    have hhas : (d.modifyNode n fun node => { node with position := node.position + 1 }).HasNode m
        ↔ d.HasNode m := by
      simp [HasNode, modifyNode]
    show (moveOn _ ns).node m = _
    simp only [ih, node_modifyNode, hhas]
    by_cases hm : d.HasNode m
    · by_cases hnm : n = m
      · subst hnm
        simp [hn, hm]
      · simp [hnm, hm, Ne.symm hnm]
    · simp [hm]

/-- Puts a node into its slot, and has its choice take its branch. -/
def enter (d : Draft) (n : NodeId) : Draft :=
  (d.insert n).modifyChoice (d.choiceAround n) fun c =>
    { c with chosen := some (d.slot (d.node n).slot).branch }

theorem insert_frame (d : Draft) (n : NodeId) :
    (d.insert n).grammar = d.grammar ∧ (d.insert n).settings = d.settings
      ∧ (d.insert n).unskippable = d.unskippable ∧ (d.insert n).choices = d.choices
      ∧ (d.insert n).slots = (d.modifySlot (d.node n).slot fun slot =>
          { slot with content := slot.content.insertIdx (d.node n).position n }).slots
      ∧ (d.insert n).nodes.size = d.nodes.size := by
  obtain ⟨h1, h2, h3, h4, h5, h6⟩ := moveOn_frame
    ((d.slot (d.node n).slot).content.drop (d.node n).position)
    (d.modifySlot (d.node n).slot fun slot =>
      { slot with content := slot.content.insertIdx (d.node n).position n })
  exact ⟨h1, h2, h3, h4, h5, (Array.size_modify ..).trans h6⟩

theorem choice_insert (n : NodeId) (c : ChoiceId) : (d.insert n).choice c = d.choice c := by
  rw [choice, (insert_frame d n).2.2.2.1]
  rfl

theorem slot_insert (n : NodeId) (s : SlotId) : (d.insert n).slot s =
    if (d.node n).slot = s ∧ d.HasSlot s
    then { d.slot s with content := (d.slot s).content.insertIdx (d.node n).position n }
    else d.slot s := by
  rw [slot, (insert_frame d n).2.2.2.2.1]
  exact slot_modifySlot d (d.node n).slot s _

/-- The nodes of a slot from a position on. -/
def laterThan (d : Draft) (n : NodeId) : List NodeId :=
  (d.slot (d.node n).slot).content.drop (d.node n).position

theorem SettledBut.nodup {next : Option NodeId} (h : SettledBut next d) (s : SlotId) :
    (d.slot s).content.Nodup := by
  rw [List.nodup_iff_getElem?_ne_getElem?]
  intro i j hij hj heq
  obtain ⟨n, hn⟩ : ∃ n, (d.slot s).content[j]? = some n := ⟨_, List.getElem?_eq_getElem hj⟩
  have h1 := h.position s j n hn
  have h2 := h.position s i n (heq.trans hn)
  omega

theorem SettledBut.nodup_laterThan {next : Option NodeId} (h : SettledBut next d) (n : NodeId) :
    (d.laterThan n).Nodup :=
  (h.nodup _).sublist (List.drop_sublist _ _)

/-- A gap is in no slot's content. -/
theorem SettledBut.not_mem {next : Option NodeId} (h : SettledBut next d) {n : NodeId}
    (hp : (d.node n).placed = false) (s : SlotId) : n ∉ (d.slot s).content := by
  rw [h.content, hp]
  simp

theorem SettledBut.not_mem_laterThan {next : Option NodeId} (h : SettledBut next d) {m : NodeId}
    (hp : (d.node m).placed = false) (n : NodeId) : m ∉ d.laterThan n :=
  fun hx => h.not_mem hp _ (List.mem_of_mem_drop hx)

theorem node_insert {next : Option NodeId} (h : SettledBut next d) {n : NodeId} (hn : d.HasNode n)
    (hp : (d.node n).placed = false) (m : NodeId) : (d.insert n).node m =
      if m = n then { d.node n with placed := true }
      else if m ∈ d.laterThan n then { d.node m with position := (d.node m).position + 1 }
      else d.node m := by
  have hlater := h.not_mem_laterThan hp n
  have hmem : m ∈ d.laterThan n → d.HasNode m := fun hx =>
    hasNode_of_placed ((h.content _ m).1 (List.mem_of_mem_drop hx)).1
  set s := d.modifySlot (d.node n).slot fun slot =>
    { slot with content := slot.content.insertIdx (d.node n).position n } with hs
  have hm := node_moveOn (d.laterThan n) s (h.nodup_laterThan n) m
  have hhas : ∀ m, (s.moveOn (d.laterThan n)).HasNode m ↔ d.HasNode m := fun m => by
    rw [HasNode, (moveOn_frame _ _).2.2.2.2.2]
    rfl
  show ((s.moveOn (d.laterThan n)).modifyNode n fun node => { node with placed := true }).node m = _
  have hsn : s.node m = d.node m := rfl
  have hsh : s.HasNode m ↔ d.HasNode m := Iff.rfl
  simp only [node_modifyNode, hhas, hm, hsn, hsh]
  by_cases hmn : m = n
  · subst hmn
    simp [hlater, hn]
  · by_cases hml : m ∈ d.laterThan n
    · simp [hmn, hml, hmem hml, Ne.symm hmn]
    · simp [hmn, hml, Ne.symm hmn]

theorem slot_enter (n : NodeId) (s : SlotId) : (d.enter n).slot s =
    if (d.node n).slot = s ∧ d.HasSlot s
    then { d.slot s with content := (d.slot s).content.insertIdx (d.node n).position n }
    else d.slot s :=
  slot_insert n s

theorem choice_enter (n : NodeId) (c : ChoiceId) : (d.enter n).choice c =
    if d.choiceAround n = c ∧ d.HasChoice c
    then { d.choice c with chosen := some (d.slot (d.node n).slot).branch } else d.choice c := by
  have hhas : (d.insert n).HasChoice c ↔ d.HasChoice c := by
    rw [HasChoice, HasChoice, (insert_frame d n).2.2.2.1]
  simp only [enter, choice_modifyChoice, choice_insert, hhas]

theorem node_enter {next : Option NodeId} (h : SettledBut next d) {n : NodeId} (hn : d.HasNode n)
    (hp : (d.node n).placed = false) (m : NodeId) : (d.enter n).node m =
      if m = n then { d.node n with placed := true }
      else if m ∈ d.laterThan n then { d.node m with position := (d.node m).position + 1 }
      else d.node m :=
  node_insert h hn hp m

theorem sameLinks_enter {next : Option NodeId} (h : SettledBut next d) {n : NodeId}
    (hn : d.HasNode n) (hp : (d.node n).placed = false) : SameLinks d (d.enter n) := by
  obtain ⟨h1, h2, -, h4, h5, h6⟩ := insert_frame d n
  refine ⟨h1, h2, ?_, ?_, h6, fun c => ?_, fun s => ?_, fun m => ?_, fun m => ?_⟩
  · exact (Array.size_modify ..).trans (congrArg Array.size h4)
  · exact (congrArg Array.size h5).trans (Array.size_modify ..)
  · rw [choice_enter]
    split <;> exact ⟨_, rfl⟩
  · rw [slot_enter]
    split <;> exact ⟨_, rfl⟩
  · rw [node_enter h hn hp]
    split
    · rename_i hmn
      exact ⟨by rw [hmn], by rw [hmn]⟩
    · split <;> exact ⟨rfl, rfl⟩
  · rw [node_enter h hn hp]
    split
    · rename_i hmn
      exact Or.inl (by rw [hmn])
    · split <;> exact Or.inl rfl

theorem SettledBut.mem_laterThan {next : Option NodeId} (h : SettledBut next d) {n m : NodeId} :
    m ∈ d.laterThan n ↔ m ∈ (d.slot (d.node n).slot).content
      ∧ (d.node n).position ≤ (d.node m).position := by
  rw [laterThan, List.mem_iff_getElem?, List.mem_iff_getElem?]
  constructor
  · rintro ⟨i, hi⟩
    rw [List.getElem?_drop] at hi
    exact ⟨⟨_, hi⟩, by rw [h.position _ _ m hi]; omega⟩
  · rintro ⟨⟨i, hi⟩, hle⟩
    rw [h.position _ i m hi] at hle
    exact ⟨i - (d.node n).position, by rw [List.getElem?_drop, Nat.add_sub_cancel' hle, hi]⟩

/-- A node that stands for a choice is no leaf. -/
theorem isLeaf_of_inner? {m : NodeId} {c : ChoiceId} (h : d.inner? m = some c) :
    d.isLeaf m = false := by
  unfold isLeaf
  unfold inner? at h
  split at h <;> simp_all

section Enter

variable {next : Option NodeId} {n : NodeId} (hl : d.Linked) (h : SettledBut next d)
  (hn : d.HasNode n) (hp : (d.node n).placed = false)

include h hn hp

theorem placed_enter (m : NodeId) :
    ((d.enter n).node m).placed = if m = n then true else (d.node m).placed := by
  rw [node_enter h hn hp]
  by_cases hm : m = n
  · simp [hm]
  · simp only [hm, if_false]
    split <;> rfl

theorem position_enter (m : NodeId) : ((d.enter n).node m).position =
    if m ∈ d.laterThan n then (d.node m).position + 1 else (d.node m).position := by
  have hlater := h.not_mem_laterThan hp n
  rw [node_enter h hn hp]
  by_cases hm : m = n
  · subst hm
    simp [hlater]
  · simp only [hm, if_false]
    split <;> rfl

omit h hn hp in
theorem content_enter_of_ne {t : SlotId} (ht : t ≠ (d.node n).slot) :
    ((d.enter n).slot t).content = (d.slot t).content := by
  rw [slot_enter, if_neg (fun hx => ht hx.1.symm)]

omit h hp in
include hl in
theorem content_enter : ((d.enter n).slot (d.node n).slot).content
    = (d.slot (d.node n).slot).content.insertIdx (d.node n).position n := by
  rw [slot_enter, if_pos ⟨rfl, (hl.node n hn).slot⟩]

omit h hn hp in
theorem chosen_enter_of_ne {c : ChoiceId} (hc : c ≠ d.choiceAround n) :
    ((d.enter n).choice c).chosen = (d.choice c).chosen := by
  rw [choice_enter, if_neg (fun hx => hc hx.1.symm)]

omit h hp in
include hl in
theorem chosen_enter : ((d.enter n).choice (d.choiceAround n)).chosen
    = some (d.slot (d.node n).slot).branch := by
  rw [choice_enter, if_pos ⟨rfl, hl.hasChoice_around hn⟩]

include hl in
theorem mem_content_enter (t : SlotId) (m : NodeId) : m ∈ ((d.enter n).slot t).content ↔
    ((d.enter n).node m).placed = true ∧ ((d.enter n).node m).slot = t := by
  rw [((sameLinks_enter h hn hp).node m).2, placed_enter h hn hp]
  by_cases ht : t = (d.node n).slot
  · subst ht
    rw [content_enter hl hn, List.mem_insertIdx (h.gap n hn hp), h.content]
    by_cases hmn : m = n <;> simp [hmn]
  · rw [content_enter_of_ne ht, h.content]
    by_cases hmn : m = n
    · subst hmn
      simp [hp, Ne.symm ht]
    · simp [hmn]

include hl in
theorem position_of_content_enter (t : SlotId) (i : Nat) (m : NodeId)
    (hi : ((d.enter n).slot t).content[i]? = some m) : ((d.enter n).node m).position = i := by
  rw [position_enter h hn hp]
  by_cases ht : t = (d.node n).slot
  · subst ht
    rw [content_enter hl hn, List.getElem?_insertIdx] at hi
    split at hi
    · have hpos := h.position _ i m hi
      rw [if_neg, hpos]
      rw [h.mem_laterThan]
      omega
    · split at hi
      · split at hi
        · cases hi
          rw [if_neg (h.not_mem_laterThan hp _)]
          omega
        · cases hi
      · have hpos := h.position _ _ m hi
        rw [if_pos, hpos]
        · omega
        · rw [h.mem_laterThan]
          exact ⟨List.mem_of_getElem? hi, by omega⟩
  · rw [content_enter_of_ne ht] at hi
    have hmem := (h.content t m).1 (List.mem_of_getElem? hi)
    rw [if_neg]
    · exact h.position t i m hi
    · rw [h.mem_laterThan, h.content]
      rintro ⟨⟨-, hx⟩, -⟩
      exact ht (hmem.2.symm.trans hx)

include hl in
theorem once_enter (hfull : d.isFull (d.node n).slot = false) (t : SlotId)
    (ht : (d.enter n).multiplicity t = .once) : ((d.enter n).slot t).content.length ≤ 1 := by
  rw [(sameLinks_enter h hn hp).multiplicity] at ht
  by_cases hts : t = (d.node n).slot
  · subst hts
    have hempty : (d.slot (d.node n).slot).content = [] := by
      simpa [isFull, ht] using hfull
    have hle := h.gap n hn hp
    rw [hempty, List.length_nil, Nat.le_zero] at hle
    rw [content_enter hl hn, hempty, hle]
    exact Nat.le_refl 1
  · rw [content_enter_of_ne hts]
    exact h.once t ht

include hl in
theorem chosen_enter_iff (hch : ∀ k, (d.choice (d.choiceAround n)).chosen = some k →
      k = (d.slot (d.node n).slot).branch) (c : ChoiceId) (k : Nat) :
    ((d.enter n).choice c).chosen = some k ↔
      ∃ j s, itemAt? ((d.enter n).choice c).branches k j = some s
        ∧ ((d.enter n).slot s).content ≠ [] := by
  have hslot := (hl.node n hn).slot
  rw [((sameLinks_enter h hn hp).choice_eq c).2.2.2.2]
  by_cases hc : c = d.choiceAround n
  · subst hc
    rw [chosen_enter hl hn]
    constructor
    · rintro ⟨⟩
      refine ⟨_, _, (hl.slot _ hslot).entry, ?_⟩
      rw [content_enter hl hn]
      exact List.ne_nil_of_mem ((List.mem_insertIdx (h.gap n hn hp)).2 (Or.inl rfl))
    · rintro ⟨j, t, hk, hne⟩
      by_cases ht : t = (d.node n).slot
      · subst ht
        rw [((hl.choice _ (hasChoice_of_itemAt? hk)).slots k j _ hk).2.2.1]
      · rw [content_enter_of_ne ht] at hne
        rw [hch k ((h.chosen _ k).2 ⟨j, t, hk, hne⟩)]
  · rw [chosen_enter_of_ne hc, h.chosen]
    refine exists_congr fun j => exists_congr fun t => and_congr_right fun hk => ?_
    rw [content_enter_of_ne]
    rintro rfl
    exact hc ((hl.choice _ (hasChoice_of_itemAt? hk)).slots k j _ hk).2.1.symm

/-- Entering a node settles it, and leaves the node above it as the one to come next if the choice
between them had taken no branch. -/
theorem SettledBut.enter (hl : d.Linked)
    (hnext : next = some n ∨ next = none ∧ d.isLeaf n = true)
    (hfull : d.isFull (d.node n).slot = false)
    (hch : ∀ k, (d.choice (d.choiceAround n)).chosen = some k →
      k = (d.slot (d.node n).slot).branch) :
    SettledBut (if (d.choice (d.choiceAround n)).chosen = none then d.holder? n else none)
      (d.enter n) := by
  have hsl := sameLinks_enter h hn hp
  have hnextne : ∀ m, m ≠ n → next ≠ some m := by
    rintro m hm rfl
    rcases hnext with hx | ⟨hx, -⟩ <;> cases hx
    exact hm rfl
  have hchosen_ne : ∀ c, (d.choice c).chosen ≠ none → ((d.enter n).choice c).chosen ≠ none := by
    intro c hc
    by_cases hca : c = d.choiceAround n
    · rw [hca, chosen_enter hl hn]
      simp
    · rwa [chosen_enter_of_ne hca]
  refine ⟨mem_content_enter hl h hn hp, position_of_content_enter hl h hn hp,
    once_enter hl h hn hp hfull, chosen_enter_iff hl h hn hp hch, fun m hm hleaf hne => ?_,
    fun m hm => ?_, fun m hm hpm => ?_⟩
  · rw [hsl.hasNode] at hm
    rw [hsl.isLeaf] at hleaf
    rw [hsl.inner?, placed_enter h hn hp]
    by_cases hmn : m = n
    · subst hmn
      simp only [if_true, true_iff]
      rcases hnext with hx | ⟨-, hx⟩
      · obtain ⟨-, -, -, c, hc, hcn⟩ := h.next _ hx
        exact ⟨c, hc, hchosen_ne c hcn⟩
      · rw [hleaf] at hx
        cases hx
    · rw [if_neg hmn, h.inner m hm hleaf (hnextne m hmn)]
      refine exists_congr fun c => and_congr_right fun hc => ⟨hchosen_ne c, fun hcn hx => ?_⟩
      by_cases hca : c = d.choiceAround n
      · subst hca
        rw [if_pos hx, show d.holder? n = some m from (hl.inner m _ hm hc).holder] at hne
        exact hne rfl
      · rw [chosen_enter_of_ne hca] at hcn
        exact hcn hx
  · split at hm
    · rename_i hx
      have hhas := hl.hasNode_holder hn hm
      have hin := hl.inner?_holder hn hm
      have hmn : m ≠ n := by
        rintro rfl
        exact Nat.lt_irrefl _ (hl.holder_lt hn hm)
      have hleaf := isLeaf_of_inner? hin
      refine ⟨hsl.hasNode.2 hhas, ?_, (hsl.isLeaf m).trans hleaf, _, (hsl.inner? m).trans hin,
        by simp [chosen_enter hl hn]⟩
      rw [placed_enter h hn hp, if_neg hmn, ← Bool.not_eq_true,
        h.inner m hhas hleaf (hnextne m hmn)]
      rintro ⟨c, hc, hcn⟩
      rw [hin] at hc
      cases hc
      exact hcn hx
    · cases hm
  · rw [hsl.hasNode] at hm
    rw [placed_enter h hn hp] at hpm
    split at hpm
    · cases hpm
    · have hg := h.gap m hm hpm
      rw [position_enter h hn hp, (hsl.node m).2,
        if_neg (h.not_mem_laterThan hpm n)]
      by_cases ht : (d.node m).slot = (d.node n).slot
      · rw [ht] at hg ⊢
        rw [content_enter hl hn, List.length_insertIdx_of_le_length (h.gap n hn hp)]
        omega
      · rw [content_enter_of_ne ht]
        exact hg

end Enter

/-! ### Lineages -/

/-- A bound on the number of levels that is large enough makes no difference. -/
theorem Linked.lineageWithin (hl : d.Linked) : ∀ (bound : Nat) {n : NodeId}, d.HasNode n →
    n.index ≤ bound → d.lineageWithin bound n = d.lineage n
  | 0, n, _, hle => by
    rw [lineage, Nat.le_zero.1 hle]
  | bound + 1, n, hn, hle => by
    rcases hi : n.index with _ | i
    · rw [lineage, hi]
      rcases hh : d.holder? n with _ | m
      · simp only [Draft.lineageWithin, hh]
      · have := hl.holder_lt hn hh
        omega
    · rw [lineage, hi]
      rcases hh : d.holder? n with _ | m
      · simp only [Draft.lineageWithin, hh]
      · have hlt := hl.holder_lt hn hh
        have hm := hl.hasNode_holder hn hh
        simp only [Draft.lineageWithin, hh]
        rw [hl.lineageWithin bound hm (by omega), hl.lineageWithin i hm (by omega)]

theorem Linked.lineage_of_holder (hl : d.Linked) {n m : NodeId} (hn : d.HasNode n)
    (hm : d.holder? n = some m) : d.lineage n = n :: d.lineage m := by
  have hlt := hl.holder_lt hn hm
  obtain ⟨i, hi⟩ : ∃ i, n.index = i + 1 := ⟨n.index - 1, by omega⟩
  rw [lineage, hi]
  simp only [Draft.lineageWithin, hm]
  rw [hl.lineageWithin i (hl.hasNode_holder hn hm) (by omega)]

theorem lineage_of_top {n : NodeId} (hm : d.holder? n = none) : d.lineage n = [n] := by
  unfold lineage
  cases n.index <;> simp [lineageWithin, hm]

theorem exists_lineage_eq_cons (d : Draft) (n : NodeId) : ∃ rest, d.lineage n = n :: rest := by
  rcases hi : n.index with _ | i
  · exact ⟨[], by rw [lineage, hi]; rfl⟩
  · rcases hh : d.holder? n with _ | m
    · exact ⟨[], by rw [lineage, hi, lineageWithin, hh]⟩
    · exact ⟨d.lineageWithin i m, by rw [lineage, hi, lineageWithin, hh]⟩

theorem mem_lineage_self (d : Draft) (n : NodeId) : n ∈ d.lineage n := by
  obtain ⟨rest, hrest⟩ := d.exists_lineage_eq_cons n
  simp [hrest]

/-- Induction up a lineage. -/
theorem Linked.lineage_induction (hl : d.Linked) {motive : ∀ n, d.HasNode n → Prop}
    (top : ∀ n hn, d.holder? n = none → motive n hn)
    (up : ∀ n m hn hm, d.holder? n = some m → motive m hm → motive n hn) (n : NodeId)
    (hn : d.HasNode n) : motive n hn := by
  rcases hm : d.holder? n with _ | m
  · exact top n hn hm
  · have hlt := hl.holder_lt hn hm
    exact up n m hn (hl.hasNode_holder hn hm) hm
      (hl.lineage_induction top up m (hl.hasNode_holder hn hm))
termination_by n.index

/-- What stands above a node was made before it. -/
theorem Linked.index_le_of_mem_lineage (hl : d.Linked) {n m : NodeId} (hn : d.HasNode n) :
    m ∈ d.lineage n → d.HasNode m ∧ m.index ≤ n.index := by
  induction n, hn using hl.lineage_induction with
  | top n hn hm =>
    rw [lineage_of_top hm, List.mem_singleton]
    rintro rfl
    exact ⟨hn, Nat.le_refl _⟩
  | up n h hn hh hm ih =>
    rw [hl.lineage_of_holder hn hm, List.mem_cons]
    rintro (rfl | hx)
    · exact ⟨hn, Nat.le_refl _⟩
    · have := hl.holder_lt hn hm
      exact ⟨(ih hx).1, by have := (ih hx).2; omega⟩

/-- The nodes above a node stand in other choices than the node. -/
theorem Linked.choiceAround_ne (hl : d.Linked) {n h m : NodeId} (hn : d.HasNode n)
    (hh : d.holder? n = some h) (hm : m ∈ d.lineage h) : d.choiceAround m ≠ d.choiceAround n := by
  intro heq
  obtain ⟨hhas, hle⟩ := hl.index_le_of_mem_lineage (hl.hasNode_holder hn hh) hm
  have : d.holder? m = some h := by rw [holder?, heq]; exact hh
  have := hl.holder_lt hhas this
  omega

theorem SettledBut.placed_holder {next : Option NodeId} (h : SettledBut next d) (hl : d.Linked)
    {n m : NodeId} (hp : (d.node n).placed = true) (hm : d.holder? n = some m)
    (hne : next ≠ some m) : (d.node m).placed = true := by
  have hn := hasNode_of_placed hp
  have hi := hl.inner?_holder hn hm
  refine (h.inner m (hl.hasNode_holder hn hm) (isLeaf_of_inner? hi) hne).2 ⟨_, hi, ?_⟩
  have hchosen := (h.chosen _ _).2 ⟨_, _, (hl.slot _ (hl.node n hn).slot).entry,
    List.ne_nil_of_mem ((h.content _ n).2 ⟨hp, rfl⟩)⟩
  rw [choiceAround, hchosen]
  simp

/-- What stands above a placed node is placed, but for the node that comes next. -/
theorem SettledBut.placed_of_mem_lineage {next : Option NodeId} (h : SettledBut next d)
    (hl : d.Linked) {n : NodeId} (hn : d.HasNode n) (hp : (d.node n).placed = true)
    (hne : ∀ m ∈ d.lineage n, next ≠ some m) : ∀ m ∈ d.lineage n, (d.node m).placed = true := by
  induction n, hn using hl.lineage_induction with
  | top n hn hm =>
    rw [lineage_of_top hm]
    exact List.forall_mem_singleton.2 hp
  | up n k hn hk hh ih =>
    rw [hl.lineage_of_holder hn hh] at hne ⊢
    obtain ⟨-, hne⟩ := List.forall_mem_cons.1 hne
    exact List.forall_mem_cons.2
      ⟨hp, ih (h.placed_holder hl hp hh (hne k (d.mem_lineage_self k))) hne⟩

/-! ### Places -/

/-- The check looks at the nodes of the lineage, their slots, and the branches taken. -/
theorem checkPlaceAlong_congr : ∀ (ns : List NodeId),
    (∀ n ∈ ns, e.node n = d.node n ∧ e.slot (d.node n).slot = d.slot (d.node n).slot
      ∧ e.isFull (d.node n).slot = d.isFull (d.node n).slot
      ∧ (e.choice (d.choiceAround n)).chosen = (d.choice (d.choiceAround n)).chosen) →
    e.checkPlaceAlong ns = d.checkPlaceAlong ns
  | [], _ => rfl
  | n :: ns, h => by
    obtain ⟨h1, h2, h3, h4⟩ := h n List.mem_cons_self
    rw [choiceAround] at h4
    simp only [checkPlaceAlong, h1, h2, h3, h4,
      checkPlaceAlong_congr ns fun m hm => h m (List.mem_cons_of_mem _ hm)]

/-- What the check of a gap has found, level by level. -/
theorem checkPlaceAlong_cons {n : NodeId} {ns : List NodeId} (hp : (d.node n).placed = false)
    (hc : d.checkPlaceAlong (n :: ns) = .ok ()) :
    d.isFull (d.node n).slot = false ∧
      ((d.choice (d.choiceAround n)).chosen = some (d.slot (d.node n).slot).branch ∨
        (d.choice (d.choiceAround n)).chosen = none ∧ d.checkPlaceAlong ns = .ok ()) := by
  simp only [checkPlaceAlong, hp] at hc
  rw [choiceAround]
  rcases hfull : d.isFull (d.node n).slot with _ | _
  · simp only [hfull] at hc
    refine ⟨rfl, ?_⟩
    split at hc
    · rename_i hx
      cases hx
    · split at hc
      · cases hc
      · split at hc
        · rename_i k hk
          split at hc
          · rename_i hkb
            exact Or.inl (by rw [hk, hkb])
          · cases hc
        · rename_i hk
          exact Or.inr ⟨hk, hc⟩
  · simp [hfull] at hc

/-- Entering leaves what stands above in other choices as it was. -/
theorem checkPlaceAlong_enter (hl : d.Linked) {next : Option NodeId} (h : SettledBut next d)
    {n m : NodeId} (hn : d.HasNode n) (hp : (d.node n).placed = false)
    (hm : d.holder? n = some m) :
    (d.enter n).checkPlaceAlong (d.lineage m) = d.checkPlaceAlong (d.lineage m) := by
  refine checkPlaceAlong_congr _ fun x hx => ?_
  have hne := hl.choiceAround_ne hn hm hx
  have hslot : (d.node x).slot ≠ (d.node n).slot := fun heq => hne (by rw [choiceAround, heq]; rfl)
  have hxn : x ≠ n := by
    rintro rfl
    exact hne rfl
  have hs : (d.enter n).slot (d.node x).slot = d.slot (d.node x).slot := by
    rw [slot_enter, if_neg (fun hy => hslot hy.1.symm)]
  refine ⟨?_, hs, ?_, chosen_enter_of_ne hne⟩
  · rw [node_enter h hn hp, if_neg hxn, if_neg]
    rw [h.mem_laterThan, h.content]
    exact fun hy => hslot hy.1.2
  · rw [isFull, isFull, hs, (sameLinks_enter h hn hp).multiplicity]

theorem insert_eq_enter {n : NodeId}
    (hk : (d.choice (d.choiceAround n)).chosen = some (d.slot (d.node n).slot).branch) :
    d.insert n = d.enter n := by
  have hid : (d.insert n).choices.modify (d.choiceAround n).index (fun c =>
      { c with chosen := some (d.slot (d.node n).slot).branch }) = (d.insert n).choices := by
    refine Array.ext (by simp) fun i h1 h2 => ?_
    rw [Array.getElem_modify]
    split
    · rename_i hi
      subst hi
      have hi : (d.insert n).choices[(d.choiceAround n).index] = d.choice (d.choiceAround n) := by
        rw [← choice_insert n, choice]
        simp [h2]
      rw [hi, ← hk]
    · rfl
  rw [enter, modifyChoice, hid]

/-- `e` is `d` after the gap `n` and the gaps above it have been entered, up to the first choice
that has taken its branch. -/
inductive Places : Draft → NodeId → Draft → Prop
  | stop {d : Draft} {n : NodeId} (hp : (d.node n).placed = false)
      (hfull : d.isFull (d.node n).slot = false)
      (hk : (d.choice (d.choiceAround n)).chosen = some (d.slot (d.node n).slot).branch ∨
        (d.choice (d.choiceAround n)).chosen = none ∧ d.holder? n = none) :
      Places d n (d.enter n)
  | up {d e : Draft} {n m : NodeId} (hp : (d.node n).placed = false)
      (hfull : d.isFull (d.node n).slot = false)
      (hk : (d.choice (d.choiceAround n)).chosen = none) (hm : d.holder? n = some m)
      (hup : Places (d.enter n) m e) : Places d n e

/-- The node to be entered next is the one the draft is waiting for, or a leaf to begin with. -/
def Awaits (next : Option NodeId) (d : Draft) (n : NodeId) : Prop :=
  next = some n ∨ next = none ∧ d.isLeaf n = true

theorem SettledBut.enter_up {next : Option NodeId} (h : SettledBut next d) (hl : d.Linked)
    {n m : NodeId} (hn : d.HasNode n) (hp : (d.node n).placed = false)
    (hnext : Awaits next d n) (hfull : d.isFull (d.node n).slot = false)
    (hk : (d.choice (d.choiceAround n)).chosen = none) (hm : d.holder? n = some m) :
    SettledBut (some m) (d.enter n) := by
  have := SettledBut.enter h hn hp hl hnext hfull (by simp [hk])
  rwa [if_pos hk, hm] at this

theorem SettledBut.enter_stop {next : Option NodeId} (h : SettledBut next d) (hl : d.Linked)
    {n : NodeId} (hn : d.HasNode n) (hp : (d.node n).placed = false)
    (hnext : Awaits next d n) (hfull : d.isFull (d.node n).slot = false)
    (hk : (d.choice (d.choiceAround n)).chosen = some (d.slot (d.node n).slot).branch ∨
      (d.choice (d.choiceAround n)).chosen = none ∧ d.holder? n = none) :
    (d.enter n).Settled := by
  have := SettledBut.enter h hn hp hl hnext hfull (by
    rcases hk with hk | ⟨hk, -⟩ <;> simp [hk])
  rcases hk with hk | ⟨hk, hm⟩
  · rwa [if_neg (by simp [hk])] at this
  · rwa [if_pos hk, hm] at this

/-- Placing enters the gaps of a lineage whose places have been checked. -/
theorem places_placeAlong {n : NodeId} : ∀ {d : Draft} {next : Option NodeId}, d.Linked →
    SettledBut next d → d.HasNode n → (d.node n).placed = false → Awaits next d n →
    d.checkPlaceAlong (d.lineage n) = .ok () → Places d n (d.placeAlong (d.lineage n)) := by
  obtain ⟨i⟩ := n
  induction i using Nat.strongRecOn with
  | _ i ih =>
    intro d next hl h hn hp hnext hc
    have hsl := sameLinks_enter h hn hp
    have hplace : ∀ above, d.placeAlong (⟨i⟩ :: above) =
        if (d.choice (d.choiceAround ⟨i⟩)).chosen.isSome then d.insert ⟨i⟩
        else (d.enter ⟨i⟩).placeAlong above := by
      intro above
      simp only [placeAlong, isPlaced, hp, choice_insert]
      rfl
    rcases hm : d.holder? ⟨i⟩ with _ | m
    · rw [lineage_of_top hm] at hc ⊢
      obtain ⟨hfull, hk | ⟨hk, -⟩⟩ := checkPlaceAlong_cons hp hc
      · rw [hplace, hk, Option.isSome_some, if_pos rfl, insert_eq_enter hk]
        exact .stop hp hfull (Or.inl hk)
      · rw [hplace, hk]
        exact .stop hp hfull (Or.inr ⟨hk, hm⟩)
    · rw [hl.lineage_of_holder hn hm] at hc ⊢
      obtain ⟨hfull, hk | ⟨hk, hc⟩⟩ := checkPlaceAlong_cons hp hc
      · rw [hplace, hk, Option.isSome_some, if_pos rfl, insert_eq_enter hk]
        exact .stop hp hfull (Or.inl hk)
      · rw [hplace, hk]
        have hset := h.enter_up hl hn hp hnext hfull hk hm
        obtain ⟨hhas, hpm, -⟩ := hset.next m rfl
        rw [← checkPlaceAlong_enter hl h hn hp hm, ← hsl.lineage] at hc
        refine .up hp hfull hk hm ?_
        rw [show (if (none : Option Nat).isSome = true then d.insert ⟨i⟩
          else (d.enter ⟨i⟩).placeAlong (d.lineage m)) = (d.enter ⟨i⟩).placeAlong (d.lineage m)
          from rfl, ← hsl.lineage]
        exact ih m.index (hl.holder_lt hn hm) (hsl.linked hl) hset hhas hpm (Or.inl rfl) hc

theorem Places.hasNode_up (hl : d.Linked) {n m : NodeId} (hn : d.HasNode n)
    (hm : d.holder? n = some m) {next : Option NodeId} (h : SettledBut next d)
    (hp : (d.node n).placed = false) : (d.enter n).HasNode m :=
  (sameLinks_enter h hn hp).hasNode.2 (hl.hasNode_holder hn hm)

/-- What has been placed lies as it should, and no link has changed. -/
theorem Places.settled {n : NodeId} (h : Places d n e) : ∀ {next : Option NodeId}, d.Linked →
    SettledBut next d → d.HasNode n → Awaits next d n → e.Settled ∧ SameLinks d e := by
  induction h with
  | stop hp hfull hk =>
    intro next hl h hn hnext
    exact ⟨h.enter_stop hl hn hp hnext hfull hk, sameLinks_enter h hn hp⟩
  | up hp hfull hk hm _ ih =>
    intro next hl h hn hnext
    have hsl := sameLinks_enter h hn hp
    obtain ⟨h1, h2⟩ := ih (hsl.linked hl) (h.enter_up hl hn hp hnext hfull hk hm)
      (Places.hasNode_up hl hn hm h hp) (Or.inl rfl)
    exact ⟨h1, hsl.trans h2⟩

/-- A leaf whose place has been checked is placed level by level. -/
theorem places_place (hl : d.Linked) (h : d.Settled) {n : NodeId} (hn : d.HasNode n)
    (hleaf : d.isLeaf n = true) (hp : (d.node n).placed = false)
    (hc : d.checkPlace n = .ok ()) : Places d n (d.place n) :=
  places_placeAlong hl h hn hp (Or.inr ⟨rfl, hleaf⟩) hc

/-! ### Tokens and notes -/

/-- Only tokens and notes differ. -/
structure Retouches (d e : Draft) : Prop where
  links : SameLinks d e
  unskippable : e.unskippable = d.unskippable
  choices : e.choices = d.choices
  slots : e.slots = d.slots
  placed : ∀ n, (e.node n).placed = (d.node n).placed
  position : ∀ n, (e.node n).position = (d.node n).position

namespace Retouches

theorem refl (d : Draft) : Retouches d d :=
  ⟨SameLinks.refl d, rfl, rfl, rfl, fun _ => rfl, fun _ => rfl⟩

theorem trans {f : Draft} (h : Retouches d e) (h' : Retouches e f) : Retouches d f :=
  ⟨h.links.trans h'.links, h'.unskippable.trans h.unskippable, h'.choices.trans h.choices,
    h'.slots.trans h.slots, fun n => (h'.placed n).trans (h.placed n),
    fun n => (h'.position n).trans (h.position n)⟩

theorem choice (h : Retouches d e) (c : ChoiceId) : e.choice c = d.choice c := by
  rw [Draft.choice, h.choices, Draft.choice]

theorem slot (h : Retouches d e) (s : SlotId) : e.slot s = d.slot s := by
  rw [Draft.slot, h.slots, Draft.slot]

theorem settled (h : Retouches d e) (hs : d.Settled) : e.Settled := by
  refine ⟨fun s n => ?_, fun s i n hi => ?_, fun s hm => ?_, fun c k => ?_, fun n hn hleaf _ => ?_,
    by simp, fun n hn hp => ?_⟩
  · rw [h.slot, h.placed, (h.links.node n).2]
    exact hs.content s n
  · rw [h.slot] at hi
    rw [h.position]
    exact hs.position s i n hi
  · rw [h.links.multiplicity] at hm
    rw [h.slot]
    exact hs.once s hm
  · simp only [h.choice, h.slot]
    exact hs.chosen c k
  · simp only [h.placed, h.links.inner?, h.choice]
    exact hs.inner n (h.links.hasNode.1 hn) ((h.links.isLeaf n).symm.trans hleaf) (by simp)
  · rw [h.placed] at hp
    rw [h.position, (h.links.node n).2, h.slot]
    exact hs.gap n (h.links.hasNode.1 hn) hp

end Retouches

/-- A change of one node that keeps all but its token and note. -/
theorem retouches_modifyNode (d : Draft) (n : NodeId) (f : Node → Node)
    (hf : ∀ x, (f x).symbol = x.symbol ∧ (f x).slot = x.slot ∧ (f x).placed = x.placed
      ∧ (f x).position = x.position ∧ ((f x).body = x.body ∨
        ∃ t t', x.body = .leaf t ∧ (f x).body = .leaf t')) :
    Retouches d (d.modifyNode n f) := by
  have hnode : ∀ m, (d.modifyNode n f).node m = d.node m
      ∨ (d.modifyNode n f).node m = f (d.node m) := by
    intro m
    rw [node_modifyNode]
    split
    · exact Or.inr rfl
    · exact Or.inl rfl
  refine ⟨⟨rfl, rfl, rfl, rfl, by simp [modifyNode], fun _ => ⟨_, rfl⟩, fun _ => ⟨_, rfl⟩,
    fun m => ?_, fun m => ?_⟩, rfl, rfl, rfl, fun m => ?_, fun m => ?_⟩ <;>
    rcases hnode m with hm | hm <;> rw [hm]
  · exact ⟨rfl, rfl⟩
  · exact ⟨(hf _).1, (hf _).2.1⟩
  · exact Or.inl rfl
  · exact (hf _).2.2.2.2
  · exact (hf _).2.2.1
  · exact (hf _).2.2.2.1

theorem retouches_writeToken (d : Draft) (n : NodeId) (value : String) :
    Retouches d (d.writeToken n value) := by
  refine retouches_modifyNode d n _ fun x => ?_
  split
  · rename_i t ht
    exact ⟨rfl, rfl, rfl, rfl, Or.inr ⟨t, _, ht, rfl⟩⟩
  · exact ⟨rfl, rfl, rfl, rfl, Or.inl rfl⟩
  · exact ⟨rfl, rfl, rfl, rfl, Or.inl rfl⟩

theorem retouches_note (d : Draft) (n : NodeId) (note : Option Note) :
    Retouches d (d.modifyNode n fun node => { node with note := note }) :=
  retouches_modifyNode d n _ fun _ => ⟨rfl, rfl, rfl, rfl, Or.inl rfl⟩

theorem retouches_indentLine (d : Draft) (n : NodeId) (blocks : Blocks) :
    Retouches d (d.indentLine n blocks) :=
  (retouches_note d n _).trans (retouches_writeToken _ n _)

/-- What a role does changes tokens and notes only. -/
theorem retouches_onFill {n : NodeId} (h : d.onFill n = .ok e) : Retouches d e := by
  have hbind : ∀ {m : NodeId} {name : Option String}, d.bindIn m name = .ok e → Retouches d e := by
    intro m name hm
    unfold bindIn at hm
    split at hm
    · cases hm
      exact retouches_note d m _
    · cases hm
      exact retouches_note d m _
    · cases hm
  have hblock : ∀ {role : Role}, d.fillBlock n role = .ok e → Retouches d e := by
    intro role hm
    unfold fillBlock at hm
    split at hm
    · cases hm
    · rename_i m _
      rcases hb : d.blocksAt m with r | b
      · simp [hb, bind, Except.bind] at hm
      · simp only [hb, bind, Except.bind, pure, Except.pure, Except.ok.injEq] at hm
        subst hm
        exact retouches_indentLine d m _
  unfold onFill at h
  split at h
  · unfold fillNewline at h
    rcases hb : d.blocksAt n with r | b
    · simp [hb, bind, Except.bind] at h
    · simp only [hb, bind, Except.bind, pure, Except.pure, Except.ok.injEq] at h
      subst h
      exact retouches_indentLine d n _
  · exact hblock h
  · exact hblock h
  · unfold fillAssign at h
    split at h
    · cases h
    · split at h
      · cases h
        exact Retouches.refl d
      · split at h
        · cases h
        · exact hbind h
  all_goals
    cases h
    exact Retouches.refl d

end Cloze.Draft
