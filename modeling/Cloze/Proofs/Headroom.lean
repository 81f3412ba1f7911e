import Cloze.Proofs.Remainder
import Mathlib.Data.Set.Card

/-!
# Room to search

A search fails only where it runs into a rule nested too deep. Going down from a gap through what
can come first enters no rule twice, unless a rule is left-recursive that can come first there
(`Clear`). So a frame's depth and the number of rules that can come first in it (`Frame.extent`)
together bound how deep that leads. A limit that leaves room for all rules below every level of a
trail lets the search from there succeed (`exists_prospect`), and what it finds lies no deeper than
that (`Next.depth_le`).
-/

namespace Cloze.Grammar

variable {g : Grammar} {c inner : ChoiceId} {r : RuleId} {before after : List SlotId} {s : SlotId}

/-- The rules that can come first in a choice, or first in a rule that can. -/
def Initials (g : Grammar) (c : ChoiceId) : Set RuleId :=
  {b | ∃ a, g.Heads c a ∧ Relation.ReflTransGen g.LeftReaches a b}

/-- No rule that can come first in a choice is left-recursive. -/
def Clear (g : Grammar) (c : ChoiceId) : Prop :=
  ∀ r ∈ g.Initials c, ¬ g.LeftRecursive r

/-- How many rules can come first in a choice. -/
noncomputable def height (g : Grammar) (c : ChoiceId) : Nat :=
  (g.Initials c).ncard

theorem Heads.lt (hg : g.WellFormed) (h : g.Heads c r) : r.index < g.rules.size := by
  induction h with
  | reference _ _ hr => exact hg.rule _ _ hr
  | bracket _ _ _ _ ih => exact ih

/-- The rules of a grammar. -/
def ruleIds (g : Grammar) : Set RuleId :=
  RuleId.mk '' (Finset.range g.rules.size : Set Nat)

theorem mem_ruleIds : r ∈ g.ruleIds ↔ r.index < g.rules.size := by
  constructor
  · rintro ⟨i, hi, rfl⟩
    simpa using hi
  · exact fun h => ⟨r.index, by simpa using h, rfl⟩

theorem finite_ruleIds (g : Grammar) : g.ruleIds.Finite :=
  (Finset.finite_toSet _).image _

theorem ncard_ruleIds_le (g : Grammar) : g.ruleIds.ncard ≤ g.rules.size :=
  calc g.ruleIds.ncard ≤ (Finset.range g.rules.size : Set Nat).ncard :=
        Set.ncard_image_le (Finset.finite_toSet _)
    _ = g.rules.size := by rw [Set.ncard_coe_finset, Finset.card_range]

theorem initials_subset (hg : g.WellFormed) (c : ChoiceId) : g.Initials c ⊆ g.ruleIds := by
  rintro b ⟨a, ha, hab⟩
  rw [mem_ruleIds]
  rcases Relation.ReflTransGen.cases_tail hab with rfl | ⟨a', -, hb⟩
  · exact ha.lt hg
  · exact Heads.lt hg hb

theorem finite_initials (hg : g.WellFormed) (c : ChoiceId) : (g.Initials c).Finite :=
  g.finite_ruleIds.subset (initials_subset hg c)

theorem height_le (hg : g.WellFormed) (c : ChoiceId) : g.height c ≤ g.rules.size :=
  (Set.ncard_le_ncard (initials_subset hg c) g.finite_ruleIds).trans g.ncard_ruleIds_le

theorem initials_bracket (hb : before ++ s :: after ∈ g.branchesOf c)
    (hs : ∀ t ∈ before, g.Skippable t)
    (hi : (g.symbol (g.slot s).symbol).kind.bracketed? = some inner) :
    g.Initials inner ⊆ g.Initials c := by
  rintro b ⟨a, ha, hab⟩
  exact ⟨a, .bracket hb hs hi ha, hab⟩

theorem initials_reference (hb : before ++ s :: after ∈ g.branchesOf c)
    (hs : ∀ t ∈ before, g.Skippable t) (hr : (g.symbol (g.slot s).symbol).kind = .rule r) :
    r ∈ g.Initials c ∧ g.Initials (g.rule r).body ⊆ g.Initials c := by
  refine ⟨⟨r, .reference hb hs hr, .refl⟩, ?_⟩
  rintro b ⟨a, ha, hab⟩
  exact ⟨r, .reference hb hs hr, .head ha hab⟩

/-- A rule can come first in itself if it is left-recursive. -/
theorem mem_initials_self : r ∈ g.Initials (g.rule r).body ↔ g.LeftRecursive r := by
  rw [LeftRecursive, Relation.TransGen.head'_iff]
  rfl

theorem height_bracket (hg : g.WellFormed) (hb : before ++ s :: after ∈ g.branchesOf c)
    (hs : ∀ t ∈ before, g.Skippable t)
    (hi : (g.symbol (g.slot s).symbol).kind.bracketed? = some inner) :
    g.height inner ≤ g.height c :=
  Set.ncard_le_ncard (initials_bracket hb hs hi) (finite_initials hg c)

/-- A rule that is not left-recursive cannot come first in itself. -/
theorem height_reference (hg : g.WellFormed) (hleft : ¬ g.LeftRecursive r)
    (hb : before ++ s :: after ∈ g.branchesOf c) (hs : ∀ t ∈ before, g.Skippable t)
    (hr : (g.symbol (g.slot s).symbol).kind = .rule r) :
    g.height (g.rule r).body < g.height c := by
  obtain ⟨hmem, hsub⟩ := initials_reference hb hs hr
  refine Set.ncard_lt_ncard ((Set.ssubset_iff_of_subset hsub).2 ⟨r, hmem, ?_⟩) (finite_initials hg c)
  rwa [mem_initials_self]

/-- In a rule that is not left-recursive, at most all others can come first. -/
theorem height_body_lt (hg : g.WellFormed) (hr : r.index < g.rules.size)
    (hleft : ¬ g.LeftRecursive r) : g.height (g.rule r).body < g.rules.size := by
  have hproper : g.Initials (g.rule r).body ⊂ g.ruleIds :=
    (Set.ssubset_iff_of_subset (initials_subset hg _)).2
      ⟨r, mem_ruleIds.2 hr, mem_initials_self.not.2 hleft⟩
  exact (Set.ncard_lt_ncard hproper g.finite_ruleIds).trans_le g.ncard_ruleIds_le

end Cloze.Grammar

namespace Cloze.Draft

variable {g : Grammar} {limit : Nat} {l : Level} {above : Trail}

/-- How deep going down from the gaps of a frame can lead. -/
noncomputable def Frame.extent (g : Grammar) (f : Frame) : Nat :=
  f.depth + g.height f.shape

/-- Going down from the gaps of a frame ends before the limit. -/
structure Frame.Bounded (g : Grammar) (limit : Nat) (f : Frame) : Prop where
  clear : g.Clear f.shape
  extent : f.extent g ≤ limit

/-- A place opens the body of a rule one deeper, or what a bracket encloses. -/
theorem Level.Opens.cases {f : Frame} (h : l.Opens g f) :
    (∃ r, (g.symbol (g.slot l.cell.shape).symbol).kind = .rule r ∧
      f = .empty g (g.rule r).body (l.frame.depth + 1)) ∨
    ∃ c, (g.symbol (g.slot l.cell.shape).symbol).kind.bracketed? = some c ∧
      f = .empty g c l.frame.depth := by
  obtain ⟨c, hc, rfl⟩ := h
  rw [Level.symbol] at hc
  rw [Grammar.Symbol.isReference, Level.symbol]
  rcases hk : (g.symbol (g.slot l.cell.shape).symbol).kind with t | t | r | b | b <;>
    rw [hk] at hc <;> cases hc
  · exact Or.inl ⟨r, rfl, rfl⟩
  · exact Or.inr ⟨_, rfl, rfl⟩
  · exact Or.inr ⟨_, rfl, rfl⟩

theorem Level.Opens.extent_le (hg : g.WellFormed) (hleft : ∀ r, ¬ g.LeftRecursive r) {f : Frame}
    (h : l.Opens g f) : f.extent g ≤ l.frame.depth + g.rules.size := by
  rcases h.cases with ⟨r, hr, rfl⟩ | ⟨c, -, rfl⟩
  · have := Grammar.height_body_lt hg (hg.rule _ r hr) (hleft r)
    simp only [Frame.extent, Frame.empty]
    omega
  · exact Nat.add_le_add_left (Grammar.height_le hg c) _

/-- A slot of a frame before which all can be passed, in the grammar. -/
theorem Frame.Shaped.first {f : Frame} (hf : f.Shaped g) {before after : List Level}
    (hrow : before ++ l :: after ∈ f.allGaps) (hs : ∀ m ∈ before, m.CanPass g) :
    l.frame = f ∧ ∃ ss ss', ss ++ l.cell.shape :: ss' ∈ g.branchesOf f.shape ∧
      ∀ t ∈ ss, g.Skippable t := by
  obtain ⟨i, hi⟩ := Frame.mem_allGaps hrow
  have hb := hf.mem_branchesOf hrow
  rw [List.map_append, List.map_cons] at hb
  refine ⟨(Frame.fits_of_mem hf (hi ▸ by simp : l ∈ f.gaps i)).2.1, _, _, hb, fun t ht => ?_⟩
  obtain ⟨m, hm, rfl⟩ := List.mem_map.1 ht
  exact (hs m hm).2

/-- Going down through what can come first leads no deeper. -/
theorem Level.Opens.bounded_of_first (hg : g.WellFormed) {f f' : Frame} (hf : f.Shaped g)
    {before after : List Level} (hrow : before ++ l :: after ∈ f.allGaps)
    (hs : ∀ m ∈ before, m.CanPass g) (h : l.Opens g f') (hb : f.Bounded g limit) :
    f'.Bounded g limit := by
  obtain ⟨hframe, ss, ss', hbranch, hskip⟩ := hf.first hrow hs
  have hextent := hb.extent
  rw [Frame.extent] at hextent
  rcases h.cases with ⟨r, hr, rfl⟩ | ⟨c, hc, rfl⟩
  · obtain ⟨hfirst, hsub⟩ := Grammar.initials_reference hbranch hskip hr
    refine ⟨fun a ha => hb.clear a (hsub ha), ?_⟩
    have := Grammar.height_reference hg (hb.clear r hfirst) hbranch hskip hr
    simp only [Frame.extent, Frame.empty, hframe]
    omega
  · refine ⟨fun a ha => hb.clear a (Grammar.initials_bracket hbranch hskip hc ha), ?_⟩
    have := Grammar.height_bracket hg hbranch hskip hc
    simp only [Frame.extent, Frame.empty, hframe]
    omega

/-! ### Searches that succeed -/

theorem exists_stretch {first : Level → Option (List Trail)} : ∀ {row : List Level},
    (∀ before k after, row = before ++ k :: after → (∀ m ∈ before, m.CanPass g) →
      ∃ us, first k = some us) → ∃ found, stretch g first row = some found
  | [], _ => ⟨_, rfl⟩
  | l :: row, h => by
    by_cases hf : l.isFull g = true
    · exact ⟨_, by simp only [stretch, hf, if_true]; rfl⟩
    · rw [Bool.not_eq_true] at hf
      obtain ⟨us, hus⟩ := h [] l row rfl (List.forall_mem_nil _)
      rcases @stretch_cons_of_not_full g first l row hf us hus with ⟨hs, -⟩ | ⟨hs, hp⟩
      · exact ⟨_, hs⟩
      · obtain ⟨more, hmore⟩ := @exists_stretch first row fun before k after heq hb =>
          h (l :: before) k after (by rw [heq]; rfl) (List.forall_mem_cons.2 ⟨hp, hb⟩)
        exact ⟨_, by rw [hs, hmore]; rfl⟩

theorem exists_spread {first : Level → Option (List Trail)} : ∀ {rows : List (List Level)},
    (∀ before k after, before ++ k :: after ∈ rows → (∀ m ∈ before, m.CanPass g) →
      ∃ us, first k = some us) → ∃ found, spread g first rows = some found
  | [], _ => ⟨_, rfl⟩
  | row :: rows, h => by
    obtain ⟨found, hfound⟩ := @exists_stretch g first row fun before k after heq =>
      h before k after (by simp [heq])
    obtain ⟨more, hmore⟩ := @exists_spread first rows fun before k after hmem =>
      h before k after (List.mem_cons_of_mem _ hmem)
    exact ⟨found.1 ++ more, by simp [spread, hfound, hmore]⟩

theorem exists_firsts (hg : g.WellFormed) : ∀ {bound : Nat} {l : Level} {above : Trail},
    (∀ f, l.Opens g f → f.Bounded g limit) →
      ∃ found, firsts g limit bound l above = some found
  | 0, _, _, _ => ⟨[], rfl⟩
  | bound + 1, l, above, h => by
    by_cases hl : l.isLeaf g = true
    · exact ⟨[l :: above], by simp [firsts, Level.inside_eq_leaf.2 hl]⟩
    · obtain ⟨c, hc⟩ : ∃ c, g.bodyOf? (g.symbol (l.symbol g)).kind = some c := by
        rw [← Option.ne_none_iff_exists', ne_eq, Grammar.bodyOf?_eq_none]
        simpa [Level.isLeaf] using hl
      have ho : l.Opens g _ := ⟨c, hc, rfl⟩
      have hin := Level.inside_of_opens ho (Nat.le_trans (Nat.le_add_right _ _) (h _ ho).extent)
      simp only [firsts, hin, Option.bind_eq_bind, Option.bind_some]
      exact exists_spread fun before k after hrow hs => exists_firsts hg fun f' hf' =>
        hf'.bounded_of_first hg ho.shaped hrow hs (h _ ho)

/-- The limit leaves room for all rules below the level. -/
def Level.Roomy (g : Grammar) (limit : Nat) (l : Level) : Prop :=
  l.frame.depth + g.rules.size ≤ limit

theorem Level.Roomy.of_frame (h : l.Roomy g limit) {m : Level} (hm : m.frame = l.frame) :
    m.Roomy g limit := by
  rwa [Level.Roomy, hm]

theorem Level.Roomy.exists_firsts (hg : g.WellFormed) (hleft : ∀ r, ¬ g.LeftRecursive r)
    (h : l.Roomy g limit) (bound : Nat) (above : Trail) :
    ∃ found, firsts g limit bound l above = some found :=
  Draft.exists_firsts hg fun _ hf => ⟨fun r _ => hleft r, (hf.extent_le hg hleft).trans h⟩

theorem Level.frame_of_mem_later {m : Level} (h : m ∈ l.later) : m.frame = l.frame := by
  obtain ⟨j, -, rfl, -⟩ := Frame.mem_gaps (List.mem_of_mem_drop h)
  rfl

theorem Level.frame_of_mem_others {m : Level} {row : List Level} (hrow : row ∈ l.others)
    (hm : m ∈ row) : m.frame = l.frame := by
  unfold Level.others at hrow
  split at hrow
  · obtain ⟨k, rfl⟩ := Frame.mem_allGaps (List.mem_of_mem_eraseIdx hrow)
    obtain ⟨j, -, rfl, -⟩ := Frame.mem_gaps hm
    rfl
  · cases hrow

section Roomy

variable (hg : g.WellFormed) (hleft : ∀ r, ¬ g.LeftRecursive r)
include hg hleft

theorem exists_ahead (h : l.Roomy g limit) (above : Trail) :
    ∃ r, ahead g limit l above = some r := by
  obtain ⟨found, hfound⟩ : ∃ found, again g limit l above = some found := by
    unfold again
    split
    · exact (h.of_frame rfl : l.next.Roomy g limit).exists_firsts hg hleft _ above
    · exact ⟨[], rfl⟩
  obtain ⟨next, hnext⟩ : ∃ next,
      stretch g (fun k => firsts g limit (reach g limit) k above) l.later = some next :=
    exists_stretch fun before k after hrow _ =>
      (h.of_frame (Level.frame_of_mem_later (hrow ▸ by simp))).exists_firsts hg hleft _ above
  by_cases hlast : l.IsLast
  · exact ⟨(found ++ next.1, next.2), by simp [ahead, hfound, hnext, hlast]⟩
  · exact ⟨(found, false), by simp [ahead, hfound, hlast]⟩

theorem exists_follow (h : l.Roomy g limit) (above : Trail) (passed : Bool) :
    ∃ r, follow g limit l above passed = some r := by
  unfold follow
  split
  · exact exists_ahead hg hleft h above
  · exact ⟨_, rfl⟩

theorem exists_others (h : l.Roomy g limit) (above : Trail) :
    ∃ r, spread g (fun k => firsts g limit (reach g limit) k above) l.others = some r :=
  exists_spread fun _ _ _ hrow _ =>
    (h.of_frame (Level.frame_of_mem_others hrow (by simp))).exists_firsts hg hleft _ above

theorem exists_ascend : ∀ {t : Trail}, (∀ l ∈ t, l.Roomy g limit) → ∀ (passed : Bool),
    ∃ found, ascend g limit t passed = some found
  | [], _, _ => ⟨[], rfl⟩
  | l :: above, h, passed => by
    obtain ⟨hl, hrest⟩ := List.forall_mem_cons.1 h
    obtain ⟨following, hf⟩ := exists_follow hg hleft hl above passed
    obtain ⟨others, ho⟩ := exists_others hg hleft hl above
    obtain ⟨higher, hh⟩ := exists_ascend hrest following.2
    exact ⟨_, by simp only [ascend, hf, ho, hh, Option.bind_eq_bind, Option.bind_some]; rfl⟩

theorem exists_fromGap (h : ∀ m ∈ l :: above, m.Roomy g limit) :
    ∃ found, fromGap g limit l above = some found := by
  obtain ⟨hl, hrest⟩ := List.forall_mem_cons.1 h
  obtain ⟨own, how⟩ := hl.exists_firsts hg hleft (reach g limit) above
  obtain ⟨following, hf⟩ := exists_follow hg hleft hl above false
  obtain ⟨others, ho⟩ := exists_others hg hleft hl above
  obtain ⟨higher, hh⟩ := exists_ascend hg hleft hrest following.2
  exact ⟨_, by
    simp only [fromGap, beyond, how, hf, ho, hh, Option.bind_eq_bind, Option.bind_some]; rfl⟩

/-- A search succeeds from where the limit leaves room. -/
theorem exists_prospect : ∀ {t : Trail}, (∀ l ∈ t, l.Taken g) → (∀ l ∈ t, l.Roomy g limit) →
    ∃ found, prospect g limit t = some found
  | [], _, _ => ⟨[], rfl⟩
  | l :: above, ht, h => by
    obtain ⟨hl, hrest⟩ := List.forall_mem_cons.1 h
    obtain ⟨htl, htrest⟩ := List.forall_mem_cons.1 ht
    rw [prospect_cons hg htl]
    split
    · exact exists_fromGap hg hleft (List.forall_mem_cons.2 ⟨hl.of_frame rfl, hrest⟩)
    · split
      · exact exists_prospect htrest hrest
      · rename_i k rest hlater
        split
        · have hk := hl.of_frame (Level.frame_of_mem_later (hlater ▸ List.mem_cons_self))
          exact exists_fromGap hg hleft (List.forall_mem_cons.2 ⟨hk, hrest⟩)
        · exact ⟨[], rfl⟩

end Roomy

/-! ### How deep offers lie -/

theorem Descends.depth_le (hg : g.WellFormed) {gap u : Trail} (h : Descends g gap u) :
    ∀ {l : Level} {above : Trail} {depth : Nat}, gap = l :: above →
      (∀ f, l.Opens g f → f.Bounded g depth) → (∀ m ∈ l :: above, m.frame.depth ≤ depth) →
      ∀ m ∈ u, m.frame.depth ≤ depth := by
  induction h with
  | leaf =>
    rintro _ _ depth ⟨⟩ - h
    exact h
  | @into l above f before k after u hopen hrow hs _ ih =>
    rintro _ _ depth ⟨⟩ hf h
    refine ih rfl (fun f' hf' => hf'.bounded_of_first hg hopen.shaped hrow hs (hf f hopen))
      (List.forall_mem_cons.2 ⟨?_, h⟩)
    rw [(hopen.shaped.first hrow hs).1]
    exact Nat.le_trans (Nat.le_add_right _ _) (hf f hopen).extent

theorem Follows.frame_eq {t gap : Trail} (h : Follows g t gap) :
    ∀ m ∈ gap, ∃ l ∈ t, m.frame = l.frame := by
  induction h with
  | @again l above _ =>
    intro m hm
    rcases List.mem_cons.1 hm with rfl | hm
    · exact ⟨l, List.mem_cons_self, rfl⟩
    · exact ⟨m, List.mem_cons_of_mem _ hm, rfl⟩
  | @later l above before k after _ hrow _ _ =>
    intro m hm
    rcases List.mem_cons.1 hm with rfl | hm
    · exact ⟨l, List.mem_cons_self, Level.frame_of_mem_later (hrow ▸ by simp)⟩
    · exact ⟨m, List.mem_cons_of_mem _ hm, rfl⟩
  | up _ _ _ ih =>
    intro m hm
    obtain ⟨l, hl, hml⟩ := ih m hm
    exact ⟨l, List.mem_cons_of_mem _ hl, hml⟩

/-- What comes first under a gap lies deeper by at most one for each rule, and one. -/
theorem Descends.depth_le_add (hg : g.WellFormed) (hleft : ∀ r, ¬ g.LeftRecursive r)
    {gap u : Trail} (h : Descends g gap u) {depth : Nat} (hd : ∀ m ∈ gap, m.frame.depth ≤ depth) :
    ∀ m ∈ u, m.frame.depth ≤ depth + (1 + g.rules.size) := by
  obtain ⟨l, above, rfl⟩ : ∃ l above, gap = l :: above := by
    cases h <;> exact ⟨_, _, rfl⟩
  refine h.depth_le hg rfl (fun f hf => ⟨fun r _ => hleft r, ?_⟩)
    fun m hm => Nat.le_trans (hd m hm) (by omega)
  have := hf.extent_le hg hleft
  have := hd l List.mem_cons_self
  omega

theorem Next.depth_le (hg : g.WellFormed) (hleft : ∀ r, ¬ g.LeftRecursive r) {t u : Trail}
    (h : Next g t u) {depth : Nat} (hd : ∀ m ∈ t, m.frame.depth ≤ depth) :
    ∀ m ∈ u, m.frame.depth ≤ depth + (1 + g.rules.size) := by
  obtain ⟨gap, hf, hdesc⟩ := h
  refine hdesc.depth_le_add hg hleft fun m hm => ?_
  obtain ⟨l, hl, hml⟩ := hf.frame_eq m hm
  exact hml ▸ hd l hl

theorem Frame.Opening.depth_le (hg : g.WellFormed) (hleft : ∀ r, ¬ g.LeftRecursive r) {f : Frame}
    {u : Trail} (h : f.Opening g u) :
    ∀ m ∈ u, m.frame.depth ≤ f.depth + (1 + g.rules.size) := by
  obtain ⟨before, k, after, hrow, -, hd⟩ := h
  obtain ⟨i, hi⟩ := Frame.mem_allGaps hrow
  obtain ⟨j, -, rfl, -⟩ := Frame.mem_gaps (hi ▸ by simp : k ∈ f.gaps i)
  refine hd.depth_le_add hg hleft fun m hm => ?_
  rw [List.mem_singleton.1 hm]
  rfl

end Cloze.Draft
