import Cloze.Proofs.Continuation

/-!
# What is left to say

Every level of a trail may go on with further occurrences in its slot and with the slots behind it;
the words that this yields, from the bottom up, are the trail's `Rest`. Behind a leaf behind which
nothing is placed, a word is left to say exactly if its first text is that of a leaf that may come
next, and the others are left to say behind that one (`rest_cons_iff`).
-/

namespace Cloze.Draft

/-- The slots behind a place. -/
def Level.laterShapes (l : Level) : List Grammar.SlotId :=
  l.later.map fun m => m.cell.shape

/-- The words that can be said behind a trail. -/
def Rest (g : Grammar) : Trail → List String → Prop
  | [], w => w = []
  | l :: above, w => ∃ u v v', w = u ++ v ++ v' ∧ g.Repeats l.cell.shape u
      ∧ g.Yields (.branch l.laterShapes) v ∧ Rest g above v'

/-- The text of the leaf that a trail leads to. -/
def leafText (g : Grammar) : Trail → String
  | [] => ""
  | l :: _ => g.symbolText (l.symbol g)

variable {g : Grammar} {l : Level} {above : Trail}

theorem rest_congr : ∀ {t t' : Trail}, t.map (fun l => (l.cell.shape, l.laterShapes))
    = t'.map (fun l => (l.cell.shape, l.laterShapes)) → ∀ {w : List String},
    Rest g t w → Rest g t' w
  | [], t', h, w, hr => by
    rw [List.map_nil, eq_comm, List.map_eq_nil_iff] at h
    rwa [h]
  | l :: above, t', h, w, ⟨u, v, v', hw, hu, hv, hv'⟩ => by
    obtain ⟨l', above', rfl, hl, ha⟩ := List.map_eq_cons_iff.1 h.symm
    rw [Prod.mk.injEq] at hl
    exact ⟨u, v, v', hw, hl.1 ▸ hu, hl.2 ▸ hv, rest_congr ha.symm hv'⟩

/-! ### Under a gap -/

theorem Frame.later_of_gaps {f : Frame} {i : Nat} {before after : List Level} {k : Level}
    (h : f.gaps i = before ++ k :: after) : k.later = after := by
  have hlt : before.length < (f.gaps i).length := by simp [h]
  have hk : (f.gaps i)[before.length]? = some k := by simp [h]
  rw [Frame.gaps, List.getElem?_map, List.getElem?_range (by simpa [Frame.gaps] using hlt)] at hk
  obtain rfl := Option.some.inj hk
  change (f.gaps i).drop (before.length + 1) = after
  simp [h]

/-- The slots of a branch of a frame are those of its shape. -/
theorem Frame.Shaped.map_gaps {f : Frame} (hf : f.Shaped g) (i : Nat) :
    (f.gaps i).map (fun m => m.cell.shape) = (g.branchesOf f.shape).getD i [] := by
  rw [← hf, List.getD_eq_getElem?_getD, List.getElem?_map]
  rcases hrow : f.rows[i]? with _ | row
  · simp [Frame.gaps, hrow]
  · refine List.ext_getElem? fun j => ?_
    simp only [Frame.gaps, List.getD_eq_getElem?_getD, hrow, Option.getD_some, Option.map_some,
      List.getElem?_map]
    by_cases hj : j < row.length
    · simp [Frame.gap, Level.cell, itemAt?, hrow, hj]
    · simp [hj]

theorem Frame.Shaped.mem_branchesOf {f : Frame} (hf : f.Shaped g) {row : List Level}
    (h : row ∈ f.allGaps) : row.map (fun m => m.cell.shape) ∈ g.branchesOf f.shape := by
  obtain ⟨i, hi, rfl⟩ := List.mem_map.1 h
  have hlt : i < (g.branchesOf f.shape).length := by
    rw [← hf, List.length_map]
    exact List.mem_range.1 hi
  rw [hf.map_gaps, List.getD_eq_getElem?_getD, List.getElem?_eq_getElem hlt]
  exact List.getElem_mem hlt

theorem Frame.Shaped.exists_gaps {f : Frame} (hf : f.Shaped g) {before after : List Grammar.SlotId}
    {s : Grammar.SlotId} (h : before ++ s :: after ∈ g.branchesOf f.shape) :
    ∃ ls k ls', ls ++ k :: ls' ∈ f.allGaps ∧ ls.map (fun m => m.cell.shape) = before
      ∧ k.cell.shape = s ∧ ls'.map (fun m => m.cell.shape) = after := by
  obtain ⟨i, hi⟩ := List.mem_iff_getElem?.1 h
  have hlt : i < f.rows.length := by
    have := (List.getElem?_eq_some_iff.1 hi).1
    rwa [← hf, List.length_map] at this
  have hrow := hf.map_gaps i
  rw [List.getD_eq_getElem?_getD, hi, Option.getD_some, List.map_eq_append_iff] at hrow
  obtain ⟨ls, ks, hrow, hls, hks⟩ := hrow
  obtain ⟨k, ls', rfl, hk, hls'⟩ := List.map_eq_cons_iff.1 hks
  exact ⟨ls, k, ls', hrow ▸ List.mem_map.2 ⟨i, List.mem_range.2 hlt, rfl⟩, hls, hk, hls'⟩

theorem begins_leaf (hl : l.isLeaf g = true) :
    g.Begins (l.symbol g) (g.symbolText (l.symbol g)) [] := by
  unfold Level.isLeaf Grammar.Symbol.isNode at hl
  unfold Grammar.symbolText
  rcases hk : (g.symbol (l.symbol g)).kind with t | t | r | c | c
  · exact .literal hk
  · exact .category hk
  all_goals simp [hk] at hl

/-- What is said from a leaf on that may come first under a gap is said by the gap's symbol and
then behind the gap. -/
theorem begins_of_descends {gap u : Trail} (h : Descends g gap u) : ∀ {l : Level} {above : Trail},
    gap = l :: above → ∀ {w : List String}, Rest g u w →
      ∃ a b, w = a ++ b ∧ g.Begins (l.symbol g) (leafText g u) a ∧ Rest g (l :: above) b := by
  induction h with
  | leaf hl =>
    rintro _ _ ⟨⟩ w hw
    exact ⟨[], w, rfl, begins_leaf hl, hw⟩
  | @into l above f before k after u hopen hrow hs _ ih =>
    rintro _ _ ⟨⟩ w hw
    obtain ⟨a, b, rfl, ha, v, v', b', rfl, hv, hv', hb'⟩ := ih rfl hw
    refine ⟨a ++ v ++ v', b', by simp, ?_, hb'⟩
    obtain ⟨i, hi⟩ := Frame.mem_allGaps hrow
    have hlater : k.laterShapes = after.map fun m => m.cell.shape := by
      rw [Level.laterShapes, Frame.later_of_gaps hi.symm]
    have hbranch := hopen.shaped.mem_branchesOf hrow
    obtain ⟨c, hc, rfl⟩ := hopen
    rw [List.map_append, List.map_cons] at hbranch
    refine .inner hc hbranch (fun r hr => ?_) ha hv (hlater ▸ hv')
    obtain ⟨m, hm, rfl⟩ := List.mem_map.1 hr
    exact (hs m hm).2

theorem Level.CanPass.of_opens {f : Frame} (h : l.Opens g f) {m : Level} (hm : m.frame = f)
    (hs : g.Skippable m.cell.shape) : m.CanPass g :=
  ⟨h.count_eq_zero hm, hs⟩

/-- What a gap's symbol and then the rest can say is said from a leaf on that may come first under
the gap. -/
theorem exists_descends {x : Grammar.SymbolId} {t : String} {a : List String}
    (h : g.Begins x t a) : ∀ {l : Level} {above : Trail}, l.symbol g = x → ∀ {b : List String},
      Rest g (l :: above) b →
      ∃ u, Descends g (l :: above) u ∧ leafText g u = t ∧ Rest g u (a ++ b) := by
  induction h with
  | @literal x t hx =>
    rintro l above rfl b hb
    exact ⟨l :: above, .leaf (by simp [Level.isLeaf, Grammar.Symbol.isNode, hx]),
      by simp [leafText, Grammar.symbolText, hx], hb⟩
  | @category x t hx =>
    rintro l above rfl b hb
    exact ⟨l :: above, .leaf (by simp [Level.isLeaf, Grammar.Symbol.isNode, hx]),
      by simp [leafText, Grammar.symbolText, hx], hb⟩
  | @inner x c before s after t u v w hc hbr hs _ hv hw ih =>
    rintro l above rfl b hb
    set f := Frame.empty g c (l.frame.depth + if (g.symbol (l.symbol g)).isReference then 1 else 0)
    have hopen : l.Opens g f := ⟨c, hc, rfl⟩
    obtain ⟨ls, k, ls', hrow, rfl, rfl, rfl⟩ := hopen.shaped.exists_gaps hbr
    obtain ⟨i, hi⟩ := Frame.mem_allGaps hrow
    have hmem : ∀ m ∈ ls, m.frame = f := fun m hm =>
      (Frame.fits_of_mem hopen.shaped (hi ▸ List.mem_append_left _ hm : m ∈ f.gaps i)).2.1
    have hrest : Rest g (k :: l :: above) (v ++ w ++ b) := by
      refine ⟨v, w, b, rfl, hv, ?_, hb⟩
      rw [Level.laterShapes, Frame.later_of_gaps hi.symm]
      exact hw
    obtain ⟨u', hd, ht, hu'⟩ := ih rfl hrest
    refine ⟨u', .into hopen hrow (fun m hm => ?_) hd, ht, by simpa using hu'⟩
    exact .of_opens hopen (hmem m hm) (hs _ (List.mem_map_of_mem hm))

/-! ### Behind a placed node -/

theorem Level.later_of_later {before after : List Level} {k : Level}
    (h : l.later = before ++ k :: after) : k.later = after := by
  have hgaps : l.frame.gaps l.branch =
      (l.frame.gaps l.branch).take (l.slot + 1) ++ before ++ k :: after := by
    rw [List.append_assoc, ← h, Level.later, List.take_append_drop]
  exact Frame.later_of_gaps hgaps

theorem Level.Taken.isFull_eq_false_iff (h : l.Taken g) :
    l.isFull g = false ↔ (g.slot l.cell.shape).multiplicity ≠ .once := by
  simp [Level.isFull, Level.multiplicity, h.count_ne_zero]

/-- What a gap that follows can say may be said behind the node it follows. -/
theorem rest_of_follows {t gap : Trail} (h : Follows g t gap) : Standing g t →
    ∀ {k : Level} {above : Trail}, gap = k :: above → ∀ {y b : List String},
      g.Yields (.symbol (k.symbol g)) y → Rest g gap b → Rest g t (y ++ b) := by
  induction h with
  | @again l above hf =>
    rintro hst _ _ ⟨⟩ y b hy ⟨a, v, v', rfl, ha, hv, hv'⟩
    have hm := (hst.taken l List.mem_cons_self).isFull_eq_false_iff.1 hf
    refine ⟨y ++ a, v, v', by simp, Or.inr ⟨hm, ?_⟩, hv, hv'⟩
    rcases ha with ⟨ho, -⟩ | ⟨-, ha⟩
    · exact absurd ho hm
    · exact .more hy ha
  | @later l above before k after hl hrow hs hf =>
    rintro hst _ _ ⟨⟩ y b hy ⟨a, v, v', rfl, ha, hv, hv'⟩
    refine ⟨[], y ++ a ++ v, v', by simp, g.repeats_nil _, ?_, hv'⟩
    rw [Level.laterShapes, Level.later_of_later hrow] at hv
    rw [Level.laterShapes, hrow, List.map_append, List.map_cons]
    refine Grammar.yields_branch_of_skippable (fun r hr => ?_) (Grammar.yields_slot hy ha) hv
    obtain ⟨m, hm, rfl⟩ := List.mem_map.1 hr
    exact (hs m hm).2
  | @up l above t hl hs _ ih =>
    intro hst k above' hgap y b hy hb
    refine ⟨[], [], y ++ b, rfl, g.repeats_nil _, Grammar.yields_branch_nil fun r hr => ?_,
      ih hst.of_cons hgap hy hb⟩
    obtain ⟨m, hm, rfl⟩ := List.mem_map.1 hr
    exact (hs m hm).2.yields

/-- What may be said behind the last node begins at a gap that follows. -/
theorem exists_follows : ∀ {t : Trail}, AtEnd g t → ∀ {x : String} {w : List String},
    Rest g t (x :: w) → ∃ k above a b, Follows g t (k :: above) ∧ w = a ++ b
      ∧ g.Begins (k.symbol g) x a ∧ Rest g (k :: above) b
  | [], _, x, w, hr => by cases hr
  | l :: above, hat, x, w, ⟨u, v, v', hw, hu, hv, hv'⟩ => by
    have hl := hat.taken l List.mem_cons_self
    obtain ⟨hlast, hempty⟩ := hat.ends l List.mem_cons_self
    rcases u with _ | ⟨x', u⟩
    · rcases v with _ | ⟨x', v⟩
      · -- This level ends here.
        obtain ⟨k, above', a, b, hf, hab, ha, hb⟩ := exists_follows hat.of_cons
          (show Rest g above (x :: w) from hw ▸ hv')
        refine ⟨k, above', a, b, .up hlast (fun m hm => ⟨hempty m hm, ?_⟩) hf, hab, ha, hb⟩
        exact hv.canBeEmpty rfl _ (List.mem_map_of_mem hm)
      · obtain ⟨rfl, rfl⟩ := List.cons.inj hw
        obtain ⟨before, s, after, a, b, b', hrow, hs, rfl, ha, hb, hb'⟩ := hv.starts rfl
        obtain ⟨ls, ks, hlater, rfl, hks⟩ := List.map_eq_append_iff.1 hrow
        obtain ⟨k, ls', rfl, rfl, rfl⟩ := List.map_eq_cons_iff.1 hks
        refine ⟨k, above, a, b ++ b' ++ v', .later hlast hlater (fun m hm => ?_) ?_, by simp, ha,
          b, b', v', rfl, hb, ?_, hv'⟩
        · exact ⟨hempty m (hlater ▸ List.mem_append_left _ hm), hs _ (List.mem_map_of_mem hm)⟩
        · simp [Level.isFull, hempty k (by simp [hlater])]
        · rwa [Level.laterShapes, Level.later_of_later hlater]
    · obtain ⟨rfl, rfl⟩ := List.cons.inj hw
      rcases hu with ⟨-, hu⟩ | ⟨hm, hu⟩
      · cases hu
      · obtain ⟨a, b, rfl, ha, hb⟩ := hu.starts rfl
        exact ⟨l.next, above, a, b ++ v ++ v', .again (hl.isFull_eq_false_iff.2 hm), by simp, ha,
          b, v, v', rfl, Or.inr ⟨hm, hb⟩, hv, hv'⟩

/-- A word is left to say behind the last node exactly if a leaf with its first text may come next
and the others are left to say behind that leaf. -/
theorem rest_cons_iff {t : Trail} (h : AtEnd g t) {x : String} {w : List String} :
    Rest g t (x :: w) ↔ ∃ u, Next g t u ∧ leafText g u = x ∧ Rest g u w := by
  constructor
  · intro hr
    obtain ⟨k, above, a, b, hf, rfl, ha, hb⟩ := exists_follows h hr
    obtain ⟨u, hd, hu, hrest⟩ := exists_descends ha rfl hb
    exact ⟨u, ⟨_, hf, hd⟩, hu, hrest⟩
  · rintro ⟨u, ⟨gap, hf, hd⟩, rfl, hr⟩
    obtain ⟨k, above, rfl⟩ : ∃ k above, gap = k :: above := by
      cases hd <;> exact ⟨_, _, rfl⟩
    obtain ⟨a, b, rfl, ha, hb⟩ := begins_of_descends hd rfl hr
    exact rest_of_follows hf h.toStanding rfl ha.yields hb

/-- A word is a sentence exactly if a leaf with its first text may come first and the others are
left to say behind that leaf. -/
theorem sentence_cons_iff {r : Grammar.RuleId} {x : String} {w : List String} :
    g.Sentence r (x :: w) ↔ ∃ u, (Frame.empty g (g.rule r).body 0).Opening g u
      ∧ leafText g u = x ∧ Rest g u w := by
  have hf := Frame.shaped_empty g (g.rule r).body 0
  constructor
  · rintro ⟨b, hb, h⟩
    obtain ⟨before, s, after, u, v, v', rfl, hs, rfl, hu, hv, hv'⟩ := h.starts rfl
    obtain ⟨ls, k, ls', hrow, rfl, rfl, rfl⟩ := hf.exists_gaps hb
    obtain ⟨i, hi⟩ := Frame.mem_allGaps hrow
    have hrest : Rest g [k] (v ++ v') := by
      refine ⟨v, v', [], by simp, hv, ?_, rfl⟩
      rwa [Level.laterShapes, Frame.later_of_gaps hi.symm]
    obtain ⟨t, hd, ht, hr⟩ := exists_descends hu rfl hrest
    refine ⟨t, ⟨ls, k, ls', hrow, fun m hm => ⟨?_, hs _ (List.mem_map_of_mem hm)⟩, hd⟩, ht, ?_⟩
    · have hm := (Frame.fits_of_mem hf (hi ▸ List.mem_append_left _ hm)).2.1
      exact Frame.count_empty hm
    · rwa [List.append_assoc]
  · rintro ⟨u, ⟨ls, k, ls', hrow, hs, hd⟩, rfl, hr⟩
    obtain ⟨i, hi⟩ := Frame.mem_allGaps hrow
    obtain ⟨a, b, rfl, ha, v, v', v'', rfl, hv, hv', rfl⟩ := begins_of_descends hd rfl hr
    have hbranch := hf.mem_branchesOf hrow
    rw [List.map_append, List.map_cons] at hbranch
    rw [Level.laterShapes, Frame.later_of_gaps hi.symm] at hv'
    refine ⟨_, hbranch, ?_⟩
    have := Grammar.yields_branch_of_skippable (fun r hr => by
      obtain ⟨m, hm, rfl⟩ := List.mem_map.1 hr
      exact (hs m hm).2) (Grammar.yields_slot ha.yields hv) hv'
    simpa using this

end Cloze.Draft
