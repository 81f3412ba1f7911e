import Cloze.Proofs.Continuation
import Cloze.Proofs.Reached
import Cloze.Proofs.Reading

/-!
# Where an offer lands

What is offered behind a filled leaf is a leaf that may be placed, and the leaves read before it are
those before the cursor and the cursor itself. So filling it puts it right behind the cursor, and
that cannot fail for want of a place (`offer_lands`).
-/

namespace Cloze.Draft

open Edit

variable {d e : Draft} {n m : NodeId}

/-! ### Placed nodes by their trails -/

theorem Sound.taken_level (h : d.Sound) (hp : (d.node n).placed = true) :
    (d.level n).Taken d.grammar := by
  have hn := hasNode_of_placed hp
  have hs := (h.linked.node n hn).slot
  refine ⟨h.linked.fits_level hn, hp, ?_, fun hm => ?_⟩
  · rw [level, h.linked.cell_spot hs]
    exact h.settled.position_lt hp
  · rw [level, h.linked.multiplicity_spot hs] at hm
    rw [level, h.linked.cell_spot hs]
    exact h.settled.once _ hm

/-- What stands above a node is no leaf. -/
theorem Linked.isLeaf_ancestors (h : d.Linked) (hn : d.HasNode n) :
    ∀ m ∈ d.ancestors n, d.isLeaf m = false := by
  induction n, hn using h.lineage_induction with
  | top n hn hm => simp [ancestors, lineage_of_top hm]
  | up n k hn hk hh ih =>
    obtain ⟨rest, hrest⟩ := d.exists_lineage_eq_cons k
    simp only [ancestors, hrest, List.tail_cons] at ih
    rw [ancestors, h.lineage_of_holder hn hh, List.tail_cons, hrest]
    exact List.forall_mem_cons.2 ⟨isLeaf_of_inner? (h.inner?_holder hn hh), ih⟩

theorem Sound.standing (h : d.Sound) (hp : (d.node n).placed = true) :
    Standing d.grammar (d.trail n) := by
  have hn := hasNode_of_placed hp
  refine ⟨fun l hl => ?_, fun l hl => ?_⟩
  · obtain ⟨m, hm, rfl⟩ := List.mem_map.1 hl
    exact h.taken_level (h.placed_of_mem_lineage hn hp hm)
  · rw [trail, ← List.map_tail] at hl
    obtain ⟨m, hm, rfl⟩ := List.mem_map.1 hl
    rw [h.linked.isLeaf_level (h.linked.index_le_of_mem_lineage hn (List.mem_of_mem_tail hm)).1]
    exact h.linked.isLeaf_ancestors hn m hm

/-- A slot is known by the choice, the branch and the position it stands in. -/
theorem Linked.slot_ext (h : d.Linked) {s t : SlotId} (hs : d.HasSlot s) (ht : d.HasSlot t)
    (hc : (d.slot s).choice = (d.slot t).choice) (hb : (d.slot s).branch = (d.slot t).branch)
    (hp : (d.slot s).position = (d.slot t).position) : s = t := by
  have he := (h.slot s hs).entry
  rw [hc, hb, hp, (h.slot t ht).entry] at he
  exact (Option.some.inj he).symm

/-- A choice is known by the node that holds it. -/
theorem Linked.choiceAround_iff (h : d.Linked) (hn : d.HasNode n) (hm : d.HasNode m) :
    d.choiceAround n = d.choiceAround m ↔ d.holder? n = d.holder? m := by
  refine ⟨fun hc => by rw [holder?, hc, holder?], fun hh => ?_⟩
  rcases hk : d.holder? n with _ | k
  · rw [h.root_of_holder?_eq_none hn hk, h.root_of_holder?_eq_none hm (hh ▸ hk)]
  · have hi := h.inner?_holder hn hk
    rw [h.inner?_holder hm (hh ▸ hk)] at hi
    exact (Option.some.inj hi).symm

/-- A path leads to one placed node. -/
theorem Sound.eq_of_path (h : d.Sound) (hn : d.HasNode n) : ∀ {m : NodeId},
    (d.node n).placed = true → (d.node m).placed = true → d.path n = d.path m → n = m := by
  have hstep : ∀ {n m : NodeId}, (d.node n).placed = true → (d.node m).placed = true →
      d.site n = d.site m → d.holder? n = d.holder? m → n = m := by
    intro n m hpn hpm hsite hh
    have hn := hasNode_of_placed hpn
    have hm := hasNode_of_placed hpm
    simp only [site, Prod.mk.injEq] at hsite
    have hslot := h.linked.slot_ext (h.linked.node n hn).slot (h.linked.node m hm).slot
      ((h.linked.choiceAround_iff hn hm).2 hh) hsite.1 hsite.2.1
    have h1 := h.settled.content_at hpn
    rw [hslot, hsite.2.2, h.settled.content_at hpm] at h1
    exact (Option.some.inj h1).symm
  induction n, hn using h.linked.lineage_induction with
  | top n hn hh =>
    intro m hpn hpm hp
    rcases hk : d.holder? m with _ | k
    · rw [path_of_top hh, path_of_top hk] at hp
      exact hstep hpn hpm (List.cons.inj hp).1 (hh.trans hk.symm)
    · rw [path_of_top hh, h.linked.path_of_holder (hasNode_of_placed hpm) hk] at hp
      exact absurd (List.cons.inj hp).2.symm (d.path_ne_nil k)
  | up n k hn hkn hh ih =>
    intro m hpn hpm hp
    rw [h.linked.path_of_holder hn hh] at hp
    rcases hk : d.holder? m with _ | j
    · rw [path_of_top hk] at hp
      exact absurd (List.cons.inj hp).2 (d.path_ne_nil k)
    · rw [h.linked.path_of_holder (hasNode_of_placed hpm) hk, List.cons.injEq] at hp
      have := ih (h.placed_holder hpn hh) (h.placed_holder hpm hk) hp.2
      exact hstep hpn hpm hp.1 (by rw [hh, hk, this])

/-- A trail leads to one placed node. -/
theorem Sound.eq_of_trail (h : d.Sound) (hn : d.HasNode n) (hm : d.HasNode m)
    (hp : (d.node n).placed = true) (ht : d.trail n = d.trail m) : n = m := by
  have hlev := ht
  rw [h.linked.trail_eq hn, h.linked.trail_eq hm, List.cons.injEq] at hlev
  exact h.eq_of_path hn hp ((congrArg Level.placed hlev.1).symm.trans hp) (path_of_trail ht)

theorem Sound.choiceAround_eq (h : d.Sound) (hn : d.HasNode n) (hp : (d.node n).placed = true)
    (hm : d.HasNode m) (ha : d.above (d.choiceAround n) = d.above (d.choiceAround m)) :
    d.choiceAround n = d.choiceAround m := by
  have hne : ∀ k, d.trail k ≠ [] := fun k => by
    obtain ⟨rest, hrest⟩ := d.exists_lineage_eq_cons k
    simp [trail, hrest]
  rw [h.linked.choiceAround_iff hn hm]
  rcases hhn : d.holder? n with _ | k <;> rcases hhm : d.holder? m with _ | k'
  · rfl
  · rw [above_of_top hhn, above_of_holder hhm] at ha
    exact absurd ha.symm (hne k')
  · rw [above_of_holder hhn, above_of_top hhm] at ha
    exact absurd ha (hne k)
  · rw [above_of_holder hhn, above_of_holder hhm] at ha
    rw [h.eq_of_trail (h.linked.hasNode_holder hn hhn) (h.linked.hasNode_holder hm hhm)
      (h.placed_holder hp hhn) ha]

/-! ### The leaves before an offer -/

/-- A further occurrence stands right behind the node it follows. -/
theorem Sound.leftOf_next (h : d.Sound) (hp : (d.node n).placed = true)
    (hslot : (d.node m).slot = (d.node n).slot)
    (hpos : (d.node m).position = (d.node n).position + 1) : d.leftOf m = d.leftOf n ++ [n] := by
  obtain ⟨hlt, hget⟩ := List.getElem?_eq_some_iff.1 (h.settled.content_at hp)
  rw [leftOf, leftOf, hslot, hpos, List.append_assoc, List.take_succ_eq_append_getElem hlt, hget]

theorem Linked.flatMap_content_eq_nil (h : d.Linked) {slots : List SlotId}
    (hhas : ∀ t ∈ slots, d.HasSlot t)
    (hs : ∀ l ∈ slots.map (d.spot · 0 false), l.cell.count = 0) :
    slots.flatMap (fun t => (d.slot t).content) = [] := by
  refine List.flatMap_eq_nil_iff.2 fun t ht => List.eq_nil_of_length_eq_zero ?_
  have := hs _ (List.mem_map_of_mem ht)
  rwa [h.cell_spot (hhas t ht)] at this

/-- The last node of a slot ends the slot. -/
theorem Sound.content_of_isLast (h : d.Sound) (hp : (d.node n).placed = true)
    (hlast : (d.level n).IsLast) : (d.slot (d.node n).slot).content
      = (d.slot (d.node n).slot).content.take (d.node n).position ++ [n] := by
  obtain ⟨hlt, hget⟩ := List.getElem?_eq_some_iff.1 (h.settled.content_at hp)
  have hn := hasNode_of_placed hp
  rw [Level.IsLast, level, h.linked.cell_spot (h.linked.node n hn).slot] at hlast
  have hlen : (d.node n).position + 1 = (d.slot (d.node n).slot).content.length := by
    simpa [spot, hp, cellOf] using hlast
  conv_lhs => rw [← List.take_length (l := (d.slot (d.node n).slot).content), ← hlen,
    List.take_succ_eq_append_getElem hlt, hget]

/-- Nothing is placed behind a node in its choice exactly if its level says so. -/
theorem Sound.ends_level_iff (h : d.Sound) (hn : d.HasNode n) :
    (d.level n).Ends ↔ d.rightOf n = [] := by
  have hs := (h.linked.node n hn).slot
  have hlater : (∀ l ∈ (d.level n).later, l.cell.count = 0) ↔
      (d.slotsAfter (d.node n).slot).flatMap (fun s => (d.slot s).content) = [] := by
    rw [level, h.linked.later_spot hs, List.flatMap_eq_nil_iff, List.forall_mem_map]
    refine forall₂_congr fun t ht => ?_
    rw [h.linked.cell_spot (h.linked.mem_slotsAfter ht).1, cellOf, List.length_eq_zero_iff]
  have hle : (if (d.node n).placed then (d.node n).position + 1 else (d.node n).position)
      ≤ (d.slot (d.node n).slot).content.length := by
    rcases hp : (d.node n).placed with _ | _
    · exact h.settled.gap n hn hp
    · exact h.settled.position_lt hp
  have hlast : (d.level n).IsLast ↔ (d.slot (d.node n).slot).content.drop
      (if (d.node n).placed then (d.node n).position + 1 else (d.node n).position) = [] := by
    rw [Level.IsLast, level, h.linked.cell_spot hs, List.drop_eq_nil_iff]
    exact ⟨fun heq => Nat.le_of_eq heq.symm, fun hge => Nat.le_antisymm hle hge⟩
  rw [rightOf, List.append_eq_nil_iff, ← hlast, ← hlater]
  exact ⟨fun he => ⟨he.last, he.empty⟩, fun he => ⟨he.1, he.2⟩⟩

/-- A gap in a later slot stands right behind a node that ends its slot, if the slots between are
empty. -/
theorem Sound.leftOf_later (h : d.Sound) (hp : (d.node n).placed = true) (hm : d.HasNode m)
    (hlast : (d.level n).IsLast) (hc : d.choiceAround n = d.choiceAround m)
    {ls ls' : List Level} (hrow : (d.level n).later = ls ++ d.level m :: ls')
    (hs : ∀ l ∈ ls, l.cell.count = 0) : d.leftOf m = d.leftOf n ++ [n] := by
  have hn := hasNode_of_placed hp
  have hsn := (h.linked.node n hn).slot
  have hsm := (h.linked.node m hm).slot
  rw [level, h.linked.later_spot hsn, List.map_eq_append_iff] at hrow
  obtain ⟨bs, ts, hslots, rfl, hts⟩ := hrow
  obtain ⟨t, as, rfl, htm, -⟩ := List.map_eq_cons_iff.1 hts
  have htmem : t ∈ d.slotsAfter (d.node n).slot := by simp [hslots]
  obtain ⟨hst, htc⟩ := h.linked.mem_slotsAfter htmem
  have htslot : t = (d.node m).slot := h.linked.slot_ext hst hsm (htc.trans hc)
    (congrArg Level.branch htm) (congrArg Level.slot htm)
  have hpos : (d.node m).position = 0 := (congrArg Level.position htm).symm
  subst htslot
  have hbranch : (d.slot (d.node m).slot).branch = (d.slot (d.node n).slot).branch :=
    h.linked.branch_of_mem (List.mem_of_mem_drop htmem)
  have hhas : ∀ t ∈ bs, d.HasSlot t := fun t ht =>
    (h.linked.mem_slotsAfter (hslots ▸ List.mem_append_left _ ht)).1
  obtain ⟨hb, ha⟩ := h.linked.not_mem_slots hsm
  have hrow := h.linked.row_eq hsm
  rw [htc, hbranch, h.linked.row_eq hsn, hslots, ← List.cons_append, ← List.append_assoc] at hrow
  obtain ⟨hbefore, -, -⟩ := (List.append_cons_inj_of_notMem hb ha).1 hrow.symm
  rw [leftOf, hpos, List.take_zero, List.append_nil, hbefore, List.flatMap_append,
    List.flatMap_cons, h.linked.flatMap_content_eq_nil hhas hs, h.content_of_isLast hp hlast,
    leftOf]
  simp only [List.append_nil, List.append_assoc]

theorem Sound.before_of_leftOf (h : d.Sound) (hp : (d.node n).placed = true) (hm : d.HasNode m)
    (hc : d.choiceAround n = d.choiceAround m) (hleft : d.leftOf m = d.leftOf n ++ [n]) :
    d.before m = d.before n ++ d.under n := by
  have hn := hasNode_of_placed hp
  have hh : d.holder? m = d.holder? n := by rw [holder?, ← hc, holder?]
  rcases hk : d.holder? n with _ | k
  · rw [before_of_top (hh.trans hk), before_of_top hk, hleft]
    simp
  · rw [h.linked.before_of_holder hm (hh.trans hk), h.linked.before_of_holder hn hk, hleft]
    simp

/-- A gap in a branch that holds a placed node may be placed if its slot is not full. -/
theorem Sound.checkPlace_beside (h : d.Sound) (hp : (d.node n).placed = true) (hm : d.HasNode m)
    (hpm : (d.node m).placed = false) (hc : d.choiceAround n = d.choiceAround m)
    (hb : (d.level n).branch = (d.level m).branch)
    (hfull : (d.level m).isFull d.grammar = false) : d.checkPlace m = .ok () := by
  obtain ⟨rest, hrest⟩ := d.exists_lineage_eq_cons m
  have hchosen := h.settled.chosen_of_placed h.linked hp
  rw [level, h.linked.isFull_spot (h.linked.node m hm).slot] at hfull
  rw [hc, show (d.slot (d.node n).slot).branch = (d.slot (d.node m).slot).branch from hb,
    choiceAround] at hchosen
  have hpos := Nat.not_lt.2 (h.settled.gap m hm hpm)
  simp [checkPlace, hrest, checkPlaceAlong, hpm, hfull, hpos, hchosen]

/-- The leaves before a gap that follows a placed node are those before the node and those under
it, and the gap may be placed. -/
theorem Sound.before_of_follows (h : d.Sound) {t gap : Trail} (hf : Follows d.grammar t gap) :
    ∀ {n m : NodeId}, (d.node n).placed = true → d.HasNode m → d.trail n = t → d.trail m = gap →
      (d.node m).placed = false →
      d.before m = d.before n ++ d.under n ∧ d.checkPlace m = .ok () := by
  induction hf with
  | @again l above hfull =>
    intro n m hp hm htn htm hpm
    have hn := hasNode_of_placed hp
    rw [h.linked.trail_eq hn, List.cons.injEq] at htn
    rw [h.linked.trail_eq hm, List.cons.injEq] at htm
    obtain ⟨rfl, han⟩ := htn
    obtain ⟨hlm, ham⟩ := htm
    have hc := h.choiceAround_eq hn hp hm (han.trans ham.symm)
    have hslot := h.linked.slot_ext (h.linked.node m hm).slot (h.linked.node n hn).slot hc.symm
      (congrArg Level.branch hlm) (congrArg Level.slot hlm)
    refine ⟨h.before_of_leftOf hp hm hc ?_, h.checkPlace_beside hp hm hpm hc ?_ ?_⟩
    · exact h.leftOf_next hp hslot (congrArg Level.position hlm)
    · rw [hlm, Level.next]
    · rw [hlm]
      exact hfull
  | @later l above ls k ls' hlast hrow hpass hfull =>
    intro n m hp hm htn htm hpm
    have hn := hasNode_of_placed hp
    rw [h.linked.trail_eq hn, List.cons.injEq] at htn
    rw [h.linked.trail_eq hm, List.cons.injEq] at htm
    obtain ⟨rfl, han⟩ := htn
    obtain ⟨rfl, ham⟩ := htm
    have hc := h.choiceAround_eq hn hp hm (han.trans ham.symm)
    have hbranch : (d.level m).branch = (d.level n).branch := by
      have hmem : d.level m ∈ (d.level n).later := by simp [hrow]
      obtain ⟨j, -, hj, -⟩ := Frame.mem_gaps (List.mem_of_mem_drop hmem)
      rw [hj, Frame.gap]
    refine ⟨h.before_of_leftOf hp hm hc ?_, h.checkPlace_beside hp hm hpm hc hbranch.symm hfull⟩
    exact h.leftOf_later hp hm hlast hc hrow fun l hl => (hpass l hl).1
  | @up l above t hlast hpass hf ih =>
    intro n m hp hm htn htm hpm
    have hn := hasNode_of_placed hp
    rw [h.linked.trail_eq hn, List.cons.injEq] at htn
    obtain ⟨rfl, han⟩ := htn
    rcases hk : d.holder? n with _ | k
    · rw [above_of_top hk] at han
      subst han
      cases hf
    · rw [above_of_holder hk] at han
      obtain ⟨hbefore, hcheck⟩ := ih (h.placed_holder hp hk) hm han htm hpm
      have hkn := h.linked.hasNode_holder hn hk
      have hin := h.linked.inner?_holder hn hk
      have hunder : d.under k = (d.leftOf n).flatMap d.under ++ d.under n := by
        rw [h.settled.under_of_inner h.linked hkn (isLeaf_of_inner? hin), children, hin]
        simp only [h.settled.contentOf_of_placed h.linked hp,
          (h.ends_level_iff hn).1 ⟨hlast, fun l hl => (hpass l hl).1⟩, List.flatMap_append,
          List.flatMap_cons, List.flatMap_nil, List.append_nil]
      refine ⟨?_, hcheck⟩
      rw [hbefore, hunder, h.linked.before_of_holder hn hk, List.append_assoc]

/-- The leaves before a leaf under a gap are those before the gap, and the leaf may be placed if
the gap may be. -/
theorem Sound.before_of_descends (h : d.Sound) {t gap : Trail} (hd : Descends d.grammar gap t) :
    ∀ {n : NodeId}, d.HasNode n → d.trail n = t → (∀ l ∈ gap.head?, l.placed = false) →
      ∃ m, d.HasNode m ∧ d.trail m = gap ∧ (d.node m).placed = false ∧ d.before n = d.before m ∧
        (d.checkPlace m = .ok () → d.checkPlace n = .ok ()) := by
  induction hd with
  | @leaf l above hleaf =>
    intro n hn ht hp
    rw [h.linked.trail_eq hn, List.cons.injEq] at ht
    refine ⟨n, hn, ?_, ?_, rfl, id⟩
    · rw [h.linked.trail_eq hn, ht.1, ht.2]
    · have := hp l (by simp)
      rwa [← ht.1] at this
  | @into l above f ls k ls' t hopen hrow hpass hd ih =>
    intro n hn ht hp
    have hk : k.frame = f ∧ k.placed = false := by
      obtain ⟨i, hi⟩ := Frame.mem_allGaps hrow
      obtain ⟨-, hkf, hkp⟩ := Frame.fits_of_mem (k := i) hopen.shaped (l := k) (hi ▸ by simp)
      exact ⟨hkf, hkp⟩
    obtain ⟨m, hm, htm, hpm, hbefore, hcheck⟩ := ih hn ht fun l hl => by
      cases hl
      exact hk.2
    rw [h.linked.trail_eq hm, List.cons.injEq] at htm
    obtain ⟨hlm, ham⟩ := htm
    rcases hj : d.holder? m with _ | j
    · rw [above_of_top hj] at ham
      cases ham
    · rw [above_of_holder hj] at ham
      have hjn := h.linked.hasNode_holder hm hj
      have hpj : (d.node j).placed = false := by
        have hl := hp l (by simp)
        rw [h.linked.trail_eq hjn, List.cons.injEq] at ham
        rwa [← ham.1] at hl
      have hnone := h.settled.chosen_inner hjn hpj (h.linked.inner?_holder hm hj)
      obtain ⟨hleft, -⟩ := h.settled.sides_eq_nil h.linked hm hnone
      refine ⟨j, hjn, ham, hpj, ?_, fun hc => hcheck ?_⟩
      · rw [hbefore, h.linked.before_of_holder hm hj, hleft, List.flatMap_nil, List.append_nil]
      · have hfull : d.isFull (d.node m).slot = false := by
          rw [← h.linked.isFull_spot (h.linked.node m hm).slot _ _, ← level, hlm, Level.isFull,
            hopen.count_eq_zero hk.1]
          simp
        have hpos := Nat.not_lt.2 (h.settled.gap m hm hpm)
        rw [choiceAround] at hnone
        simpa [checkPlace, h.linked.lineage_of_holder hm hj, checkPlaceAlong, hpm, hfull, hpos,
          hnone] using hc

theorem Follows.head_placed {g : Grammar} {t gap : Trail} (h : Follows g t gap) :
    ∀ l ∈ gap.head?, l.placed = false := by
  induction h with
  | again hf =>
    rintro l ⟨⟩
    rfl
  | @later l above ls k ls' hl hrow hs hf =>
    rintro m ⟨⟩
    have hmem : k ∈ l.later := by simp [hrow]
    obtain ⟨j, -, hj, -⟩ := Frame.mem_gaps (List.mem_of_mem_drop hmem)
    rw [hj, Frame.gap]
  | up hl hs h ih => exact ih

theorem Descends.head_leaf {g : Grammar} {t gap : Trail} (h : Descends g gap t) :
    (∀ l ∈ gap.head?, l.placed = false) →
      ∃ l above, t = l :: above ∧ l.isLeaf g = true ∧ l.placed = false := by
  induction h with
  | @leaf l above hl => exact fun hp => ⟨l, above, rfl, hl, hp l rfl⟩
  | @into l above f ls k ls' t hf hrow hs h ih =>
    refine fun hp => ih ?_
    rintro m ⟨⟩
    obtain ⟨i, hi⟩ := Frame.mem_allGaps hrow
    have hmem : k ∈ f.gaps i := by simp [← hi]
    obtain ⟨j, -, hj, -⟩ := Frame.mem_gaps hmem
    rw [hj, Frame.gap]

/-- What may come next behind a placed leaf is a leaf that may be placed, and the leaves before it
are those before the placed one and that one itself. -/
theorem Sound.offer_of_next (h : d.Sound) (hp : (d.node n).placed = true) (hl : d.isLeaf n = true)
    (hm : d.HasNode m) (hnext : Next d.grammar (d.trail n) (d.trail m)) :
    d.isLeaf m = true ∧ (d.node m).placed = false ∧ d.checkPlace m = .ok ()
      ∧ d.before m = d.before n ++ [n] := by
  obtain ⟨gap, hf, hd⟩ := hnext
  have hgap := hf.head_placed
  obtain ⟨k, hk, htk, hpk, hbefore, hcheck⟩ := h.before_of_descends hd hm rfl hgap
  obtain ⟨hbefore', hcheck'⟩ := h.before_of_follows hf hp hk rfl htk hpk
  obtain ⟨l, above, ht, hleaf, hpl⟩ := hd.head_leaf hgap
  rw [h.linked.trail_eq hm, List.cons.injEq] at ht
  refine ⟨?_, ?_, hcheck hcheck', ?_⟩
  · rw [← h.linked.isLeaf_level hm, ht.1, hleaf]
  · rw [← ht.1] at hpl
    exact hpl
  · rw [hbefore, hbefore', under_of_leaf (hasNode_of_placed hp) hl]

/-- What is offered behind a filled leaf is a leaf that may be placed right behind it. -/
theorem Sound.offer_of_offers (h : d.Sound) (hp : (d.node m).placed = true)
    (hl : d.isLeaf m = true) {found : List NodeId} (ho : offers (some m) d = .ok found e)
    (hn : n ∈ found) : Keeps d e ∧ e.HasNode n ∧ e.isLeaf n = true ∧ (e.node n).placed = false
      ∧ e.checkPlace n = .ok () ∧ e.before n = e.before m ++ [m] := by
  have hfinds := h.over.finds_offers hp
  rw [Finds, Ensures, ho] at hfinds
  obtain ⟨hk, ts, hts, hhas, hmap⟩ := hfinds
  have hm := hasNode_of_placed hp
  have hnext : Next d.grammar (d.trail m) (e.trail n) :=
    next_of_mem_prospect h.linked.grammar (h.standing hp) hts _ (hmap ▸ List.mem_map_of_mem hn)
  rw [← hk.trail h hm, ← hk.grows.grammar] at hnext
  exact ⟨hk, hhas n hn, hk.sound.offer_of_next ((hk.grows.placed _).trans hp)
    ((hk.grows.isLeaf hm).trans hl) (hhas n hn) hnext⟩

/-! ### Taking an offer -/

/-- The leaf can be filled with the value, or without one. -/
def Suits (d : Draft) (n : NodeId) : (value : Option String) → Prop
  | some value => d.checkToken n value = .ok ()
  | none => (d.token? n).isSome ∨ ((d.role? n).bind Role.defaultToken?).isSome

theorem Fills.after_fill (hl : d.isLeaf n = true) (hp : (d.node n).placed = false)
    (hc : d.checkPlace n = .ok ()) (hco : d.completed? n = some e) : Fills d n (after (fill n) d) := by
  rw [after, fill_eq]
  simp only [hl, isPlaced, hp, hc, hco, Bool.true_eq_false, Bool.false_eq_true, if_false]
  have hr := retouches_completed? hco
  cases hon : (e.place n).onFill n with
  | ok f => exact ⟨hl, hp, hc, e, hr, retouches_onFill hon⟩
  | error r => exact ⟨hl, hp, hc, e, hr, .refl _⟩

theorem token?_writeToken (hn : d.HasNode n) {value : String} (h : d.checkToken n value = .ok ()) :
    (d.writeToken n value).token? n = some value := by
  obtain ⟨hleaf, hlit⟩ : d.isLeaf n = true ∧ d.literal? n = none := by
    unfold checkToken at h
    rcases hleaf : d.isLeaf n with _ | _
    · simp [hleaf] at h
    · rcases hlit : d.literal? n with _ | t
      · exact ⟨rfl, rfl⟩
      · simp [hleaf, hlit] at h
  have hnode : (d.writeToken n value).node n = { d.node n with body := .leaf (some value) } := by
    rw [writeToken, node_modifyNode, if_pos ⟨rfl, hn⟩]
    rw [isLeaf] at hleaf
    cases hb : (d.node n).body with
    | leaf => rfl
    | group | rule =>
      rw [hb] at hleaf
      cases hleaf
  have hlit' : (d.writeToken n value).literal? n = none := by
    rw [literal?, symbol, hnode]
    exact hlit
  simp only [token?, hlit', hnode]

/-- A leaf that may be placed is filled with what suits it. -/
theorem Fills.after_fillWith (hn : d.HasNode n) (hl : d.isLeaf n = true)
    (hp : (d.node n).placed = false) (hc : d.checkPlace n = .ok ()) {value : Option String}
    (hv : d.Suits n value) : Fills d n (after (fillWith n value) d) := by
  cases value with
  | none =>
    have hco : ∃ e, d.completed? n = some e := by
      unfold completed?
      rcases ht : d.token? n with _ | t
      · rcases hr : (d.role? n).bind Role.defaultToken? with _ | t
        · simp [Suits, ht, hr] at hv
        · exact ⟨_, rfl⟩
      · exact ⟨_, rfl⟩
    obtain ⟨e, hco⟩ := hco
    exact .after_fill hl hp hc hco
  | some v =>
    have hr := retouches_writeToken d n v
    have hco : (d.writeToken n v).completed? n = some (d.writeToken n v) := by
      rw [completed?, token?_writeToken hn hv]
    have hf := Fills.after_fill ((hr.links.isLeaf n).trans hl) ((hr.placed n).trans hp)
      ((hr.checkPlace n).trans hc) hco
    rw [after, fillWith_some_eq, show d.checkToken n v = .ok () from hv, hc]
    exact hf.of_retouches hr

/-- Every offer behind a filled leaf can be taken, and lands right behind that leaf. -/
theorem offer_lands {g : Grammar} {definition : Grammar.Definition}
    (hg : definition.build = .ok g) (h : Reached g d) {cursor : NodeId}
    (hp : d.isPlaced cursor = true) (hl : d.isLeaf cursor = true) {found : List NodeId}
    (ho : offers (some cursor) d = .ok found e) :
    ∀ n ∈ found, e.isLeaf n = true ∧ e.isPlaced n = false ∧ ∀ value,
      Ensures (fillWith n value) e (fun _ _ => True) (fun r _ => ¬ r.IsPlacing) ∧
      (e.Suits n value → ∃ before behind, d.leaves = before ++ cursor :: behind ∧
        (after (fillWith n value) e).leaves = before ++ cursor :: n :: behind) := by
  intro n hn
  have hwf := Grammar.Definition.wellFormed_build hg
  have hover := h.over hwf
  have hfinds := hover.finds_offers hp
  rw [Finds, Ensures, ho] at hfinds
  obtain ⟨hk, ts, hts, hhas, hmap⟩ := hfinds
  have he := hover.keeps hk
  have hcur := hasNode_of_placed hp
  have hnext : Next g (d.trail cursor) (e.trail n) :=
    next_of_mem_prospect hwf (hover.grammar ▸ hover.sound.standing hp) hts _
      (hmap ▸ List.mem_map_of_mem hn)
  rw [← hk.trail hover.sound hcur, ← he.grammar] at hnext
  obtain ⟨hleaf, hgap, hcheck, hbefore⟩ := he.sound.offer_of_next ((hk.grows.placed _).trans hp)
    ((hk.grows.isLeaf hcur).trans hl) (hhas n hn) hnext
  refine ⟨hleaf, hgap, fun value => ⟨?_, fun hv => ?_⟩⟩
  · refine (ensures_fillWith n value e).mono (fun _ _ _ => trivial) fun r f hr => ?_
    rcases hr with ⟨-, hr⟩ | ⟨-, hr⟩
    · exact hr
    · intro hpl
      rw [hcheck] at hr
      cases hr hpl
  · obtain ⟨behind, h1, h2⟩ := (Fills.after_fillWith (hhas n hn) hleaf hgap hcheck hv).leaves
      he.sound (hhas n hn)
    rw [hk.leaves hover.sound, hbefore, List.append_assoc] at h1
    rw [hbefore, List.append_assoc] at h2
    exact ⟨e.before cursor, behind, h1, h2⟩

/-- A comma goes between the name and the bracket of a list. -/
theorem comma_lands : ∃ found e, offers (some ⟨3⟩) oneItem = .ok found e ∧ ⟨8⟩ ∈ found ∧
    ∃ before behind, oneItem.leaves = before ++ ⟨3⟩ :: behind ∧
      (after (fillWith ⟨8⟩ none) e).leaves = before ++ ⟨3⟩ :: ⟨8⟩ :: behind := by
  obtain ⟨found, e, ho, hmem, htoken⟩ : ∃ found e, offers (some ⟨3⟩) oneItem = .ok found e ∧
      ⟨8⟩ ∈ found ∧ (e.token? ⟨8⟩).isSome :=
    Ensures.exists_ok (by decide +kernel)
  obtain ⟨-, -, hland⟩ := offer_lands build_lists reached_oneItem (by decide +kernel)
    (by decide +kernel) ho ⟨8⟩ hmem
  exact ⟨found, e, ho, hmem, (hland none).2 (Or.inl htoken)⟩

end Cloze.Draft
