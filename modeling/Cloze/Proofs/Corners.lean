import Cloze.Proofs.Spelling
import Cloze.Proofs.Walking

/-!
# What runs into the limit

A search goes down through everything that can come first, and a left-recursive rule that can come
first leads back to itself there, one rule deeper every time. So where such a rule can come first,
the search ends only at the limit (`spread_eq_none`), and where none can, a limit of as many rules
as the grammar has is never reached. On an empty draft left recursion from the start rule on thus
decides alone whether the search succeeds (`too_deep_iff_leftRecursive`).
-/

namespace Cloze.Grammar

variable {g : Grammar}

/-- Whether a rule is clear shows on the rules it left-reaches. -/
theorem clear_body_iff {a : RuleId} : g.Clear (g.rule a).body ↔
    ¬ ∃ r, Relation.ReflTransGen g.LeftReaches a r ∧ g.LeftRecursive r := by
  constructor
  · rintro hclear ⟨r, har, hr⟩
    rcases Relation.ReflTransGen.cases_head har with rfl | ⟨b, hab, hbr⟩
    · exact hclear _ (mem_initials_self.2 hr) hr
    · exact hclear r ⟨b, hab, hbr⟩ hr
  · rintro hnone r ⟨b, hab, hbr⟩ hr
    exact hnone ⟨r, .head hab hbr, hr⟩

/-- Where a left-recursive rule can come first, it can in something that comes first. -/
theorem exists_of_not_clear {c : ChoiceId} (h : ¬ g.Clear c) :
    ∃ before s after inner, before ++ s :: after ∈ g.branchesOf c ∧
      (∀ t ∈ before, g.Skippable t) ∧
      g.bodyOf? (g.symbol (g.slot s).symbol).kind = some inner ∧ ¬ g.Clear inner := by
  obtain ⟨r, ⟨a, ha, har⟩, hr⟩ : ∃ r ∈ g.Initials c, g.LeftRecursive r := by
    simpa [Clear] using h
  cases ha with
  | reference hb hs hk =>
    refine ⟨_, _, _, _, hb, hs, by rw [hk]; rfl, fun hclear => ?_⟩
    exact clear_body_iff.1 hclear ⟨r, har, hr⟩
  | bracket hb hs hi ha =>
    exact ⟨_, _, _, _, hb, hs, (of_bracketed hi g).2.2, fun hclear => hclear r ⟨a, ha, har⟩ hr⟩

end Cloze.Grammar

namespace Cloze.Draft

open Edit

variable {d : Draft} {g : Grammar} {limit : Nat} {f : Frame}

/-! ### Searches that fail -/

/-- The branches of an empty frame cannot be searched if what can come first there cannot. -/
theorem spread_eq_none {first : Level → Option (List Trail)} (hf : f.Shaped g)
    (hzero : ∀ m : Level, m.frame = f → m.cell.count = 0) (hclear : ¬ g.Clear f.shape)
    (hfirst : ∀ i, ∀ k ∈ f.gaps i, ∀ f', k.Opens g f' → ¬ g.Clear f'.shape → first k = none) :
    spread g first f.allGaps = none := by
  obtain ⟨before, s, after, inner, hb, hs, hc, hinner⟩ := Grammar.exists_of_not_clear hclear
  obtain ⟨ls, k, ls', hrow, rfl, rfl, rfl⟩ := hf.exists_gaps hb
  obtain ⟨i, hi⟩ := Frame.mem_allGaps hrow
  have hframe : ∀ m ∈ ls ++ k :: ls', m.frame = f := fun m hm =>
    (Frame.fits_of_mem hf (hi ▸ hm)).2.1
  have hpass : ∀ m ∈ ls, m.CanPass g := fun m hm =>
    ⟨hzero m (hframe m (List.mem_append_left _ hm)), hs _ (List.mem_map_of_mem hm)⟩
  have hk : first k = none := hfirst i k (hi ▸ by simp) _ ⟨inner, hc, rfl⟩ hinner
  by_contra hne
  obtain ⟨found, hfound⟩ := Option.ne_none_iff_exists'.1 hne
  obtain ⟨us, hus⟩ := stretch_isSome_of_spread hfound _ hrow
  have hfull : k.isFull g = false := by
    simp [Level.isFull, hzero k (hframe k (by simp))]
  obtain ⟨vs, hvs⟩ := stretch_first_isSome hus hpass hfull
  rw [hk] at hvs
  cases hvs

/-- Under a gap where a left-recursive rule can come first, the search ends at the limit. -/
theorem firsts_eq_none_of_not_clear (hg : g.WellFormed) {l : Level} {above : Trail}
    (hl : l.Fits g) (ho : l.Opens g f) (hclear : ¬ g.Clear f.shape) :
    firsts g limit (reach g limit) l above = none := by
  -- Every rule entered takes a level off what is left to the limit.
  induction hn : l.frame.need g limit using Nat.strongRecOn generalizing l above f with
  | ind n ih =>
    rcases hi : l.inside g limit with _ | _ | f'
    · obtain ⟨m, hm⟩ := exists_reach_eq_succ g limit
      rw [hm, firsts_eq_none hi]
    · rw [Level.inside_eq_leaf, ho.isLeaf_eq_false] at hi
      cases hi
    · obtain rfl := ho.unique (Level.opens_of_inside hi)
      rw [firsts_of_inside hg hl hi]
      have hlt := Level.need_lt_of_inside hg hl hi
      refine spread_eq_none ho.shaped (fun m hm => ho.count_eq_zero hm) hclear
        fun i k hk f'' hf'' hclear' => ?_
      obtain ⟨hkf, hkframe, -⟩ := Frame.fits_of_mem ho.shaped hk
      exact ih _ (by rw [hkframe]; omega) hkf hf'' hclear' rfl

/-! ### How a search ends -/

theorem Finds.exists_ok {α β : Type} {act : Edit α} {b : β} {rel : α → Draft → β → Prop}
    (h : Finds act d (some b) rel) : ∃ a e, act d = .ok a e := by
  rcases ha : act d with ⟨a, e⟩ | ⟨r, e⟩
  · exact ⟨a, e, rfl⟩
  · obtain ⟨-, hnone, -⟩ := Ensures.of_error h ha
    cases hnone

theorem Finds.exists_tooDeep {α β : Type} {act : Edit α} {rel : α → Draft → β → Prop}
    (h : Finds act d (none : Option β) rel) :
    ∃ rule e, act d = .error (.tooDeep rule d.settings.recursionLimit) e := by
  rcases ha : act d with ⟨a, e⟩ | ⟨r, e⟩
  · obtain ⟨-, b, hb, -⟩ := Ensures.of_ok h ha
    cases hb
  · obtain ⟨-, -, rule, rfl⟩ := Ensures.of_error h ha
    exact ⟨rule, e, rfl⟩

/-- What can come first in a frame is found if it lies above the limit. -/
theorem Frame.Bounded.exists_spread (hg : g.WellFormed) (hf : f.Shaped g) (hb : f.Bounded g limit)
    (above : Trail) :
    ∃ found, spread g (fun k => firsts g limit (reach g limit) k above) f.allGaps = some found :=
  Draft.exists_spread fun _ _ _ hrow hs => exists_firsts hg fun _ ho =>
    ho.bounded_of_first hg hf hrow hs hb

/-- A search in an empty draft goes through everything that can come first in the start rule. -/
theorem Over.finds_spread (h : Over g limit d) (hempty : d.root.chosen = none) :
    Finds (offers none) d (spread g (fun k => firsts g limit (reach g limit) k [])
      (Frame.empty g (g.rule g.start).body 0).allGaps) Shows := by
  obtain ⟨⟨c, hc⟩, hfinds⟩ := h.finds_offers_empty hempty
  rwa [fromGap_first hc (Frame.count_empty rfl)] at hfinds

theorem Over.offers_empty (h : Over g limit d) (hempty : d.root.chosen = none)
    (hlimit : g.rules.size ≤ limit) (hclear : g.Clear (g.rule g.start).body) :
    ∃ found e, offers none d = .ok found e := by
  have hg := h.wellFormed
  have hheight := Grammar.height_le hg (g.rule g.start).body
  have hb : (Frame.empty g (g.rule g.start).body 0).Bounded g limit :=
    ⟨hclear, by simp only [Frame.extent, Frame.empty]; omega⟩
  obtain ⟨found, hfound⟩ := hb.exists_spread hg (Frame.shaped_empty g _ 0) []
  have hfinds := h.finds_spread hempty
  rw [hfound] at hfinds
  exact hfinds.exists_ok

theorem Over.offers_empty_too_deep (h : Over g limit d) (hempty : d.root.chosen = none)
    (hclear : ¬ g.Clear (g.rule g.start).body) :
    ∃ rule e, offers none d = .error (.tooDeep rule limit) e := by
  have hf := Frame.shaped_empty g (g.rule g.start).body 0
  have hfinds := h.finds_spread hempty
  rw [spread_eq_none hf (fun m hm => Frame.count_empty hm) hclear fun i k hk f' ho hclear' =>
    firsts_eq_none_of_not_clear h.wellFormed (Frame.fits_of_mem hf hk).1 ho hclear'] at hfinds
  rw [← h.limit]
  exact hfinds.exists_tooDeep

/-- The levels above a node are no deeper than the rule it stands in. -/
theorem Linked.depth_le_around (h : d.Linked) {n : NodeId} (hn : d.HasNode n) :
    ∀ l ∈ d.trail n, l.frame.depth ≤ (d.choice (d.choiceAround n)).depth := by
  induction n, hn using h.lineage_induction with
  | top n hn hm =>
    rw [h.trail_eq hn, above_of_top hm]
    exact List.forall_mem_singleton.2 le_rfl
  | up n m hn hm hh ih =>
    rw [h.trail_eq hn, above_of_holder hh]
    have hdepth := (h.inner m _ hm (h.inner?_holder hn hh)).depth
    exact List.forall_mem_cons.2 ⟨le_rfl, fun l hl => (ih l hl).trans (by omega)⟩

/-- A search behind a placed node succeeds if no rule is left-recursive and the limit leaves room
for all rules below the one that the node stands in. -/
theorem Over.exists_offers (h : Over g limit d) (hleft : ∀ r, ¬ g.LeftRecursive r) {n : NodeId}
    (hp : (d.node n).placed = true)
    (hlimit : (d.choice (d.choiceAround n)).depth + g.rules.size ≤ limit) :
    ∃ found e, offers (some n) d = .ok found e := by
  have hstanding : Standing g (d.trail n) := h.grammar ▸ h.sound.standing hp
  have hroomy : ∀ l ∈ d.trail n, l.Roomy g limit := fun l hl => by
    have := h.sound.linked.depth_le_around (hasNode_of_placed hp) l hl
    rw [Level.Roomy]
    omega
  obtain ⟨found, hfound⟩ := exists_prospect h.wellFormed hleft hstanding.taken hroomy
  have hfinds := h.finds_offers hp
  rw [hfound] at hfinds
  exact hfinds.exists_ok

/-- The limit is hit by left recursion and nothing else, if it is at least the number of rules. -/
theorem too_deep_iff_leftRecursive {definition : Grammar.Definition}
    (hg : definition.build = .ok g) :
    (∀ settings : Settings, g.rules.size ≤ settings.recursionLimit → ∀ shared, Reached g shared →
      ((∃ rule e, offers none (Draft.start g settings shared.unskippable) =
          .error (.tooDeep rule settings.recursionLimit) e) ↔
        ∃ r, Relation.ReflTransGen g.LeftReaches g.start r ∧ g.LeftRecursive r) ∧
      ((∃ found e, offers none (Draft.start g settings shared.unskippable) = .ok found e) ↔
        ¬ ∃ r, Relation.ReflTransGen g.LeftReaches g.start r ∧ g.LeftRecursive r)) ∧
    ((∀ r, ¬ g.LeftRecursive r) → ∀ d, Reached g d → ∀ n ∈ d.leaves,
      (d.choice (d.choiceAround n)).depth + g.rules.size ≤ d.settings.recursionLimit →
        ∃ found e, offers (some n) d = .ok found e) := by
  have hwf := Grammar.Definition.wellFormed_build hg
  refine ⟨fun settings hlimit shared hs => ?_, fun hleft d hd n hn hlimit => ?_⟩
  · have hover : Over g settings.recursionLimit (Draft.start g settings shared.unskippable) :=
      (Reached.share (.start settings) hs).over hwf
    have hiff := Grammar.clear_body_iff (g := g) (a := g.start)
    by_cases hclear : g.Clear (g.rule g.start).body
    · obtain ⟨found, e, ho⟩ := hover.offers_empty rfl hlimit hclear
      have hnone := hiff.1 hclear
      exact ⟨iff_of_false (by simp [ho]) hnone, iff_of_true ⟨found, e, ho⟩ hnone⟩
    · obtain ⟨rule, e, ho⟩ := hover.offers_empty_too_deep rfl hclear
      have hsome := not_not.1 (mt hiff.2 hclear)
      exact ⟨iff_of_true ⟨rule, e, ho⟩ hsome, iff_of_false (by simp [ho]) (not_not.2 hsome)⟩
  · have hover := hd.over hwf
    exact hover.exists_offers hleft (hover.sound.mem_leaves.1 hn).1 hlimit

/-- Calls that may begin with a call, behind marks that can be left out. -/
def calls : Grammar.Definition where
  rules := [
    ("call", [[.rule "marks" .once, .rule "target" .once, .literal "()" .once]]),
    ("marks", [[.literal "await" .star, .option [[.literal "new" .once]] .once]]),
    ("target", [[.category "name" .once], [.group [[.rule "call" .once]] .once]])]

def callGrammar : Grammar := calls.build.toOption.getD default

/-- A call left-reaches its target behind the marks, and the target the call in its group. -/
theorem leftRecursive_call : callGrammar.LeftRecursive ⟨0⟩ := by
  have hkinds : (callGrammar.symbol (callGrammar.slot ⟨1⟩).symbol).kind = .rule ⟨2⟩ ∧
      (callGrammar.symbol (callGrammar.slot ⟨8⟩).symbol).kind.bracketed? = some ⟨3⟩ ∧
      (callGrammar.symbol (callGrammar.slot ⟨7⟩).symbol).kind = .rule ⟨0⟩ := by decide +kernel
  have hmarks : callGrammar.Skippable ⟨0⟩ := by
    refine Or.inr (.branch (c := ⟨2⟩) (b := [⟨3⟩, ⟨5⟩]) (by decide +kernel) (by decide +kernel) ?_)
    intro s hs hm
    obtain rfl | rfl : s = ⟨3⟩ ∨ s = ⟨5⟩ := by simpa using hs
    · exact absurd (by decide +kernel) hm
    · exact .option (by decide +kernel)
  have hcall : callGrammar.LeftReaches ⟨0⟩ ⟨2⟩ :=
    @Grammar.Heads.reference _ _ [⟨0⟩] ⟨1⟩ [⟨2⟩] _ (by decide +kernel)
      (List.forall_mem_singleton.2 hmarks) hkinds.1
  have htarget : callGrammar.LeftReaches ⟨2⟩ ⟨0⟩ :=
    @Grammar.Heads.bracket _ _ [] ⟨8⟩ [] _ _ (by decide +kernel) (List.forall_mem_nil _) hkinds.2.1
      (@Grammar.Heads.reference _ _ [] ⟨7⟩ [] _ (by decide +kernel) (List.forall_mem_nil _)
        hkinds.2.2)
  exact .head hcall (.single htarget)

/-- Calls run into the limit, lists do not. -/
theorem call_too_deep : (∃ rule e, offers none (Draft.start callGrammar { recursionLimit := 3 } []) =
      .error (.tooDeep rule 3) e) ∧
    (∃ found e, offers none (Draft.start listGrammar { recursionLimit := 2 } []) = .ok found e) ∧
    ∃ found e, offers (some ⟨3⟩) oneItem = .ok found e := by
  obtain ⟨hcalls, -⟩ := too_deep_iff_leftRecursive (g := callGrammar)
    (Grammar.Definition.build_eq_ok (by decide +kernel))
  obtain ⟨hlists, hitem⟩ := too_deep_iff_leftRecursive build_lists
  refine ⟨?_, ?_, ?_⟩
  · exact (hcalls { recursionLimit := 3 } (by decide +kernel) _ (.start {})).1.2
      ⟨⟨0⟩, by rw [show callGrammar.start = ⟨0⟩ by decide +kernel], leftRecursive_call⟩
  · exact (hlists { recursionLimit := 2 } (by decide +kernel) _ (.start {})).2.2
      fun ⟨r, _, hr⟩ => not_leftRecursive_lists r hr
  · exact hitem not_leftRecursive_lists oneItem reached_oneItem ⟨3⟩ (by decide +kernel)
      (by decide +kernel)

end Cloze.Draft
