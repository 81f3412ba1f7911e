import Cloze.Proofs.Changing

/-!
# What a draft keeps for good

Whatever is called on a draft later, what it holds stays (`Lasts`): its leaves keep their order and
others only come in between, a branch that was taken stays taken, a reference keeps its choice, and a
token stays as it is, whether its leaf is placed or a gap. Newlines are the exception, for their token
is the indentation of a line, which changes with the blocks that join. And no token slips in
unchecked: every placed leaf has one, and every token is one that the role of its leaf accepts
(`Worded`). One change after the other, both come from what a change does to a token
(`Change.token?_eq`).
-/

namespace Cloze.Draft

open Edit

variable {d e f : Draft} {n m : NodeId} {g : Grammar}

/-! ### Tokens -/

theorem body_indentLine (d : Draft) (n m : NodeId) (b : Blocks) :
    ((d.indentLine n b).node m).body = (d.node m).body ∨
      m = n ∧ ∃ t, ((d.indentLine n b).node m).body = .leaf (some t) := by
  by_cases hmn : m = n
  · rw [indentLine, node_writeToken]
    split
    · exact Or.inr ⟨hmn, _, rfl⟩
    · rw [node_modifyNode]
      split <;> exact Or.inl rfl
  · rw [node_indentLine_of_ne hmn]
    exact Or.inl rfl

/-- A role writes the tokens of newlines only. -/
theorem Acts.body (ha : Acts d n e) (m : NodeId) : (e.node m).body = (d.node m).body ∨
    d.role? m = some .newline ∧ ∃ t, (e.node m).body = .leaf (some t) := by
  have hline : ∀ {k b b'}, d.blocksAt k = .ok b' → e = d.indentLine k b →
      (e.node m).body = (d.node m).body ∨
        d.role? m = some .newline ∧ ∃ t, (e.node m).body = .leaf (some t) := by
    rintro k b b' hb rfl
    refine (body_indentLine d k m b).imp id ?_
    rintro ⟨rfl, ht⟩
    exact ⟨(blocksAt_eq_ok hb).1, ht⟩
  cases ha with
  | newline _ hb => exact hline hb rfl
  | block _ _ _ hb => exact hline hb rfl
  | @binds k s =>
    rw [node_modifyNode]
    split <;> exact Or.inl rfl
  | idle => exact Or.inl rfl

/-- A token comes where there was none or on a newline, and is accepted. -/
theorem Change.token?_eq (hc : Change d e) (h : d.Sound) (hm : d.HasNode m) :
    e.token? m = d.token? m ∨ ∃ t, e.token? m = some t ∧ (d.role? m).all (·.accepts t) = true ∧
      (d.token? m = none ∨ d.role? m = some .newline) := by
  cases hc with
  | grow hk _ => exact Or.inl (hk.grows.token? hm)
  | @token n value hn hc =>
    by_cases hmn : m = n
    · subst hmn
      obtain ⟨-, -, ht, ha⟩ := checkToken_eq_ok.1 hc
      exact Or.inr ⟨value, token?_writeToken hn hc, ha, Or.inl ht⟩
    · exact Or.inl (token?_congr ((retouches_writeToken d n value).links.symbol m)
        (by rw [node_writeToken_of_ne hmn]))
  | @place n hn hl hp hc _ =>
    exact Or.inl (Moved.token? (((fills_place hl hp hc).sound h hn).2.symbol m) (moved_place d n m))
  | act _ ha =>
    have hs := (retouches_acts ha).links.symbol m
    rcases ha.body m with hb | ⟨hr, t, ht⟩
    · exact Or.inl (token?_congr hs hb)
    · rcases hlit : d.literal? m with _ | text
      · refine Or.inr ⟨t, ?_, by rw [hr]; rfl, Or.inr hr⟩
        simp only [token?, literal?, hs, ht] at hlit ⊢
        rw [hlit]
      · refine Or.inl ?_
        simp only [token?, literal?, hs] at hlit ⊢
        rw [hlit]

/-! ### What lasts -/

/-- All that the draft `d` holds is still there in `e`. -/
structure Lasts (d e : Draft) : Prop where
  leaves : d.leaves.Sublist e.leaves
  chosen : ∀ c k, (d.choice c).chosen = some k → (e.choice c).chosen = some k
  /-- But for the branch taken, a choice is as it was laid out. -/
  choice : ∀ c, d.HasChoice c → e.HasChoice c ∧ ∃ k, e.choice c = { d.choice c with chosen := k }
  reference : ∀ n r c, (d.node n).body = .rule r (some c) → (e.node n).body = .rule r (some c)
  node : ∀ n, d.HasNode n → e.HasNode n ∧ e.symbol n = d.symbol n
  token : ∀ n t, d.HasNode n → d.role? n ≠ some .newline → d.token? n = some t →
    e.token? n = some t

theorem Lasts.refl (d : Draft) : Lasts d d :=
  ⟨.refl _, fun _ _ hk => hk, fun _ hc => ⟨hc, _, rfl⟩, fun _ _ _ hb => hb, fun _ hn => ⟨hn, rfl⟩,
    fun _ _ _ _ ht => ht⟩

theorem Lasts.role? (h : Lasts d e) (hn : d.HasNode n) : e.role? n = d.role? n := by
  rw [Draft.role?, (h.node n hn).2, Draft.role?]

theorem Lasts.literal? (h : Lasts d e) (hn : d.HasNode n) : e.literal? n = d.literal? n := by
  rw [Draft.literal?, (h.node n hn).2, Draft.literal?]

theorem Lasts.trans (h : Lasts d e) (h' : Lasts e f) : Lasts d f where
  leaves := h.leaves.trans h'.leaves
  chosen := fun c k hk => h'.chosen c k (h.chosen c k hk)
  choice := fun c hc => by
    obtain ⟨hc', k, hk⟩ := h.choice c hc
    obtain ⟨hc'', k', hk'⟩ := h'.choice c hc'
    exact ⟨hc'', k', by rw [hk', hk]⟩
  reference := fun n r c hb => h'.reference n r c (h.reference n r c hb)
  node := fun n hn => by
    obtain ⟨hn', hs⟩ := h.node n hn
    exact ⟨(h'.node n hn').1, (h'.node n hn').2.trans hs⟩
  token := fun n t hn hr ht =>
    h'.token n t (h.node n hn).1 (by rwa [h.role? hn]) (h.token n t hn hr ht)

theorem Fills.sublist_leaves (hf : Fills d n e) (h : d.Sound) (hn : d.HasNode n) :
    d.leaves.Sublist e.leaves := by
  obtain ⟨behind, hd, he⟩ := hf.leaves h hn
  rw [hd, he]
  exact (List.sublist_cons_self n behind).append_left _

theorem SameLinks.reference (h : SameLinks d e) {r : Grammar.RuleId} {c : Option ChoiceId}
    (hb : (d.node n).body = .rule r c) : (e.node n).body = .rule r c := by
  rcases h.body n with heq | ⟨t, t', ht, -⟩
  · exact heq.trans hb
  · cases hb.symm.trans ht

/-- What has the same links lasts but for leaves, branches and tokens. -/
theorem SameLinks.lasts (h : SameLinks d e) (hl : d.leaves.Sublist e.leaves)
    (hk : ∀ c k, (d.choice c).chosen = some k → (e.choice c).chosen = some k)
    (ht : ∀ n t, d.HasNode n → d.role? n ≠ some .newline → d.token? n = some t →
      e.token? n = some t) : Lasts d e :=
  ⟨hl, hk, fun c hc => ⟨h.hasChoice.2 hc, h.choice c⟩, fun _ _ _ => h.reference,
    fun n hn => ⟨h.hasNode.2 hn, h.symbol n⟩, ht⟩

theorem Keeps.lasts (hk : Keeps d e) (h : d.Sound) : Lasts d e where
  leaves := by rw [hk.leaves h]
  chosen := fun c k hc => (hk.grows.chosen c).trans hc
  choice := fun c hc => ⟨hk.grows.hasChoice hc, _, hk.grows.choice c hc⟩
  reference := fun n r c hb => by
    have hn : d.HasNode n := by
      by_contra hn
      rw [node_of_not_has hn] at hb
      cases hb
    obtain ⟨b, hnode, rfl | ⟨r', c', hr, -⟩⟩ := hk.grows.node n hn
    · rw [hnode, hb]
    · cases hb.symm.trans hr
  node := fun n hn => ⟨hk.grows.hasNode hn, hk.grows.symbol hn⟩
  token := fun n t hn _ ht => (hk.grows.token? hn).trans ht

theorem Change.lasts (hc : Change d e) (h : d.Sound) : Lasts d e := by
  have htoken : ∀ n t, d.HasNode n → d.role? n ≠ some .newline → d.token? n = some t →
      e.token? n = some t := by
    intro n t hn hr ht
    rcases hc.token?_eq h hn with heq | ⟨-, -, -, hnone | hnew⟩
    · exact heq.trans ht
    · cases hnone.symm.trans ht
    · exact absurd hnew hr
  have hretouches : Retouches d e → Lasts d e := fun hr =>
    hr.links.lasts (by rw [hr.leaves]) (fun c k hk => by rw [hr.choice, hk]) htoken
  cases hc with
  | grow hk _ => exact hk.lasts h
  | token => exact hretouches (retouches_writeToken d _ _)
  | place hn hl hp hc _ =>
    have hf := fills_place hl hp hc
    exact (hf.sound h hn).2.lasts (hf.sublist_leaves h hn) (fun c k => hf.chosen h hn) htoken
  | act _ ha => exact hretouches (retouches_acts ha)

theorem Changes.lasts (h : d.Sound) (hc : Changes d e) : Lasts d e := by
  induction hc with
  | refl => exact .refl d
  | tail hcs hc ih => exact ih.trans (hc.lasts (Changes.sound h hcs))

/-- The drafts that further calls lead to from a draft. -/
inductive Leads (g : Grammar) (d : Draft) : Draft → Prop
  | refl : Leads g d d
  | call {e : Draft} {c : Call} (h : Leads g d e) (hc : c.On e) : Leads g d (c.after e)
  | share {e f : Draft} (h : Leads g d e) (h' : Reached g f) :
      Leads g d { e with unskippable := f.unskippable }

theorem Leads.reached (hl : Leads g d e) (h : Reached g d) : Reached g e := by
  induction hl with
  | refl => exact h
  | call _ hc ih => exact ih.call hc
  | share _ h' ih => exact ih.share h'

theorem Leads.lasts (hl : Leads g d e) (hg : g.WellFormed) (h : Reached g d) : Lasts d e := by
  induction hl with
  | refl => exact .refl d
  | call hl hc ih =>
    have hs := ((hl.reached h).sound hg).1
    exact ih.trans (Changes.lasts hs (changes_call hs hc))
  | share hl h' ih =>
    obtain ⟨hs, hge⟩ := (hl.reached h).sound hg
    obtain ⟨hs', hgf⟩ := h'.sound hg
    exact ih.trans ((change_remember hs hs' (hgf.trans hge.symm)).lasts hs)

/-! ### Words -/

/-- Every placed leaf has a token, and every token that was given is accepted. -/
structure Worded (d : Draft) : Prop where
  filled : ∀ n ∈ d.leaves, (d.token? n).isSome
  accepted : ∀ n role t, d.literal? n = none → d.role? n = some role → d.token? n = some t →
    role.accepts t = true

theorem body_of_token? {t : String} (hlit : d.literal? n = none) (ht : d.token? n = some t) :
    (d.node n).body = .leaf (some t) := by
  unfold token? at ht
  split at ht
  · rename_i hsome
    cases hlit.symm.trans hsome
  · rename_i hb
    rw [hb, ht]
  all_goals cases ht

theorem hasNode_of_token {t : String} (hb : (d.node n).body = .leaf (some t)) : d.HasNode n := by
  by_contra hn
  rw [node_of_not_has hn] at hb
  cases hb

/-- What has a token after a change was there before. -/
theorem Change.hasNode_of_token (hc : Change d e) (h : d.Sound) {t : String}
    (hb : (e.node n).body = .leaf (some t)) : d.HasNode n := by
  have hsame : SameLinks d e → d.HasNode n := fun hs =>
    hs.hasNode.1 (Draft.hasNode_of_token hb)
  cases hc with
  | grow _ hw => exact Draft.hasNode_of_token ((hw n).2 t hb)
  | token => exact hsame (retouches_writeToken d _ _).links
  | place hn hl hp hc _ => exact hsame ((fills_place hl hp hc).sound h hn).2
  | act _ ha => exact hsame (retouches_acts ha).links

theorem Worded.start (g : Grammar) (settings : Settings) (u : List Grammar.SymbolId) :
    (Draft.start g settings u).Worded where
  filled := fun n hn => by
    cases hn
  accepted := fun n role t hlit _ ht => by
    have hn : ¬ (Draft.start g settings u).HasNode n := by simp [HasNode, Draft.start, withChoice]
    exact absurd (body_of_token? hlit ht) ((blank_of_not_has hn).2 t)

theorem Worded.change (hw : d.Worded) (h : d.Sound) (hc : Change d e) : e.Worded where
  filled := by
    have hold : ∀ n ∈ d.leaves, (e.token? n).isSome := by
      intro n hn
      rcases hc.token?_eq h (hasNode_of_placed (h.mem_leaves.1 hn).1) with heq | ⟨t, ht, -⟩
      · rw [heq]
        exact hw.filled n hn
      · rw [ht]
        rfl
    intro n hn
    cases hc with
    | grow hk _ => exact hold n (by rwa [hk.leaves h] at hn)
    | token => exact hold n (by rwa [(retouches_writeToken d _ _).leaves] at hn)
    | @place k hk hl hp hc ht =>
      have hf := fills_place hl hp hc
      obtain ⟨behind, hd, he⟩ := hf.leaves h hk
      rw [he, List.mem_append, List.mem_cons] at hn
      rcases hn with hn | rfl | hn
      · exact hold n (by rw [hd]; exact List.mem_append_left _ hn)
      · rw [Moved.token? ((hf.sound h hk).2.symbol n) (moved_place d n n)]
        exact ht
      · exact hold n (by rw [hd]; exact List.mem_append_right _ hn)
    | act _ ha => exact hold n (by rwa [(retouches_acts ha).leaves] at hn)
  accepted := by
    intro n role t hlit hr ht
    have hn := hc.hasNode_of_token h (body_of_token? hlit ht)
    have hl := hc.lasts h
    rw [hl.literal? hn] at hlit
    rw [hl.role? hn] at hr
    rcases hc.token?_eq h hn with heq | ⟨t', ht', ha, -⟩
    · exact hw.accepted n role t hlit hr (heq.symm.trans ht)
    · cases ht'.symm.trans ht
      rwa [hr] at ha

theorem Reached.worded (hg : g.WellFormed) (h : Reached g d) : d.Worded :=
  h.invariant hg (Worded.start g · []) fun hs hc hw => hw.change hs hc

/-- Whatever is called on a draft, what it holds stays, and no token slips in unchecked. -/
theorem held_for_good {definition : Grammar.Definition} (hg : definition.build = .ok g)
    (h : Reached g d) (hl : Leads g d e) : Lasts d e ∧ e.Worded := by
  have hwf := Grammar.Definition.wellFormed_build hg
  exact ⟨hl.lasts hwf h, (hl.reached h).worded hwf⟩

/-- Lists of names that are checked. -/
def checkedLists : Grammar.Definition :=
  { lists with roles := [("name", .name)] }

def checkedGrammar : Grammar := checkedLists.build.toOption.getD default

/-- An open bracket, and behind it a gap for a name that was given the name `x`. -/
def namedGap : Draft :=
  [Call.offers none, .fillWith ⟨0⟩ none, .offers (some ⟨0⟩), .giveToken ⟨3⟩ "x"].foldl
    (fun d c => c.after d) (Draft.start checkedGrammar {} [])

/-- Neither another name for the gap nor filling it touches the name it was given. -/
theorem name_held_for_good : ∃ e, Leads checkedGrammar namedGap e ∧
    namedGap.leaves = [⟨0⟩] ∧ namedGap.token? ⟨3⟩ = some "x" ∧
    e.leaves = [⟨0⟩, ⟨3⟩] ∧ e.token? ⟨3⟩ = some "x" ∧ Lasts namedGap e ∧ e.Worded := by
  let refused := (Call.fillWith ⟨3⟩ (some "y")).after namedGap
  let filled := (Call.fill ⟨3⟩).after refused
  have hrun : (namedGap.HasNode ⟨3⟩ ∧ refused.HasNode ⟨3⟩) ∧
      (namedGap.leaves = [⟨0⟩] ∧ filled.leaves = [⟨0⟩, ⟨3⟩]) ∧
      namedGap.role? ⟨3⟩ ≠ some .newline ∧ namedGap.token? ⟨3⟩ = some "x" := by
    decide +kernel
  obtain ⟨⟨hn, hn'⟩, ⟨hleaves, hleaves'⟩, hrole, hname⟩ := hrun
  have hreached : Reached checkedGrammar namedGap := (Reached.start {}).foldl (by decide +kernel)
  have hrefused : Leads checkedGrammar namedGap refused := Leads.refl.call hn
  have hfill : Leads checkedGrammar namedGap filled := hrefused.call hn'
  obtain ⟨hlasts, hworded⟩ :=
    held_for_good (Grammar.Definition.build_eq_ok (by decide +kernel)) hreached hfill
  exact ⟨_, hfill, hleaves, hname, hleaves', hlasts.token ⟨3⟩ "x" hn hrole hname, hlasts, hworded⟩

end Cloze.Draft
