import Cloze.Proofs.Editing

/-!
# When a role refuses

A role acts after its leaf has been placed. So a leaf whose role does not find what it looks for is
refused and stays placed all the same: it is read among the leaves, and is not on offer any more.
The cursor and the chain do not know of it. All else is as before (`refused_leaf_stays`).
-/

namespace Cloze.Draft

variable {d : Draft} {n m : NodeId}

/-- A role that misses something says so of its own leaf. -/
theorem eq_of_onFill_missing {role : Role} {missing : Missing}
    (h : d.onFill n = .error (.missingContext m role missing)) :
    m = n ∧ d.role? n = some role := by
  obtain ⟨_, _, hrole, hr⟩ | ⟨_, _, _, -, -, -, hr⟩ := onFill_eq_error h
  · cases hr
    exact ⟨rfl, hrole⟩
  · cases hr

end Cloze.Draft

namespace Cloze.Editor

open Draft

variable {e e₁ e₂ : Editor} {n m : NodeId} {value : Option String} {g : Grammar}

/-- A leaf whose role misses something is placed, and nothing else has happened. -/
theorem stuck_of_choose (hn : e.draft.HasNode n) {role : Role} {missing : Missing}
    (hc : choose n value e = .error (.missingContext m role missing) e₂) :
    ∃ mid, Puts e.draft n mid ∧ e₂ = { e with draft := mid.place n } ∧
      (mid.place n).onFill n = .error (.missingContext m role missing) := by
  rw [choose_eq] at hc
  have hout := fillOutcome_fillWith hn value
  generalize fillWith n value e.draft = result at hc hout
  cases hout with
  | refused hr =>
    simp only [EStateM.Result.error.injEq] at hc
    exact absurd hc.1 (hr m role missing)
  | already hl hp hd => cases hc
  | filled hp ha => cases hc
  | @stuck mid r hp ha =>
    simp only [EStateM.Result.error.injEq] at hc
    obtain ⟨rfl, rfl⟩ := hc
    exact ⟨mid, hp, rfl, ha⟩

/-- What is filled is not offered behind a leaf. -/
theorem Orderly.not_mem_offers (h : e.Orderly) (hc : e.cursor ≠ none)
    (hn : n ∈ e.draft.leaves) {found : List NodeId} (ho : Editor.offers e = .ok found e₁) :
    n ∉ found := by
  intro hmem
  have hcursor : ∃ c, e.trueCursor = some c := by
    obtain ⟨c, hc⟩ := Option.ne_none_iff_exists'.1 hc
    exact ⟨_, by rw [Editor.trueCursor, hc]; rfl⟩
  obtain ⟨c, hc⟩ := hcursor
  obtain ⟨hp, hl⟩ := h.sound.mem_leaves.1 (h.trueCursor c hc)
  obtain ⟨hd, -⟩ := offers_eq_ok ho
  rw [hc] at hd
  obtain ⟨hk, -, -, hgap, -, -⟩ := h.sound.offer_of_offers hp hl hd hmem
  rw [hk.grows.placed, (h.sound.mem_leaves.1 hn).1] at hgap
  cases hgap

/-- A leaf that its role refuses for want of something around it stays filled. -/
theorem refused_leaf_stays {definition : Grammar.Definition} (hg : definition.build = .ok g)
    (h : Reached g e) {found : List NodeId} (ho : Editor.offers e = .ok found e₁) (hn : n ∈ found)
    {role : Role} {missing : Missing}
    (hc : choose n value e₁ = .error (.missingContext m role missing) e₂) :
    (m = n ∧ e₁.draft.role? n = some role) ∧ e₁.draft.isPlaced n = false ∧
    e₂.draft.isPlaced n = true ∧
    (∃ before behind, e₁.draft.leaves = before ++ behind ∧
      e₂.draft.leaves = before ++ n :: behind) ∧
    (∀ c k, (e₁.draft.choice c).chosen = some k → (e₂.draft.choice c).chosen = some k) ∧
    (∀ k, k ≠ n → e₂.draft.token? k = e₁.draft.token? k) ∧
    (∀ k, (e₂.draft.node k).note = (e₁.draft.node k).note) ∧
    e₂.cursor = e₁.cursor ∧ e₂.chain = e₁.chain ∧
    (e₂.cursor ≠ none → ∀ found' e₃, Editor.offers e₂ = .ok found' e₃ → n ∉ found') := by
  have hwf := Grammar.Definition.wellFormed_build hg
  have hr₁ := h.of_offers ho
  have h₁ := (hr₁.orderly hwf).1
  have hnode := (h.orderly hwf).1.hasNode_of_offers ho n hn
  have h₂ : e₂.Orderly := by
    have hr₂ : Reached g (after (choose n value) e₁) := hr₁.of_choose hnode
    rw [after, hc] at hr₂
    exact (hr₂.orderly hwf).1
  obtain ⟨mid, hp, rfl, ha⟩ := stuck_of_choose hnode hc
  have hf := hp.fills (.refl _)
  obtain ⟨hrole, hsame⟩ := eq_of_onFill_missing ha
  obtain ⟨hs, hlinks⟩ := hf.sound h₁.sound hnode
  have hleaf := (hf.mem_leaves h₁.sound hnode).1
  refine ⟨⟨hrole, ?_⟩, hp.gap, (hs.mem_leaves.1 hleaf).1, ?_, fun c k => hf.chosen h₁.sound hnode,
    fun k hk => ?_, fun k => ?_, rfl, rfl, fun hc _ _ => h₂.not_mem_offers hc hleaf⟩
  · rw [role?, hlinks.symbol] at hsame
    exact hsame
  · obtain ⟨behind, hb₁, hb₂⟩ := hf.leaves h₁.sound hnode
    exact ⟨_, behind, hb₁, hb₂⟩
  · obtain ⟨p, b, hmoved⟩ := moved_place mid n k
    refine token?_congr (hlinks.symbol k) ?_
    rw [hmoved, hp.given.node hk]
  · exact hp.note k

/-- A value and behind it an assignment sign, which looks for a name. -/
def assignment : Grammar.Definition where
  rules := [("line", [[.category "value" .once, .literal "=" .once]])]
  roles := [("=", .assign)]

/-- The value `1`, with the search behind it still to come. -/
def valueOnly : Editor :=
  [Action.search, .choose ⟨0⟩ (some "1")].foldl (fun e a => a.after e)
    (Editor.start (assignment.build.toOption.getD default) {} [])

/-- The sign is refused behind the value, and is one of the leaves from then on. -/
theorem refused_sign_stays : ∃ e₁ e₂, Editor.offers valueOnly = .ok [⟨1⟩] e₁ ∧
    choose ⟨1⟩ none e₁ = .error (.missingContext ⟨1⟩ .assign .nameBefore) e₂ ∧
    e₂.draft.isPlaced ⟨1⟩ = true ∧
    (∃ before behind, e₁.draft.leaves = before ++ behind ∧
      e₂.draft.leaves = before ++ ⟨1⟩ :: behind) ∧ e₂.chain = e₁.chain := by
  have hreached : Reached (assignment.build.toOption.getD default) valueOnly := by
    have h₁ := (Reached.start (g := assignment.build.toOption.getD default) {}).act
      (a := .search) trivial
    exact h₁.act (a := .choose ⟨0⟩ (some "1")) (by decide +kernel)
  have hrun : value? Editor.offers valueOnly = some [⟨1⟩] ∧
      refusal? (choose ⟨1⟩ none) (after Editor.offers valueOnly)
        = some (.missingContext ⟨1⟩ .assign .nameBefore) := by
    decide +kernel
  have ho := eq_ok_of_value? hrun.1
  have hc := eq_error_of_refusal? hrun.2
  obtain ⟨-, -, hplaced, hleaves, -, -, -, -, hchain, -⟩ := refused_leaf_stays
    (Grammar.Definition.build_eq_ok (by decide +kernel)) hreached ho (by simp) hc
  exact ⟨_, _, ho, hc, hplaced, hleaves, hchain⟩

/-- A refused leaf is among the leaves afterwards, and what was offered before is not offered. -/
theorem refused_leaf_not_undone : ∃ e₁ e₂ e₃, Editor.offers valueOnly = .ok [⟨1⟩] e₁ ∧
    choose ⟨1⟩ none e₁ = .error (.missingContext ⟨1⟩ .assign .nameBefore) e₂ ∧
    e₁.draft.leaves = [⟨0⟩] ∧ e₂.draft.leaves = [⟨0⟩, ⟨1⟩] ∧
    Editor.offers e₂ = .ok [] e₃ := by
  let e₁ := after Editor.offers valueOnly
  let e₂ := after (choose ⟨1⟩ none) e₁
  have hrun : value? Editor.offers valueOnly = some [⟨1⟩] ∧
      refusal? (choose ⟨1⟩ none) e₁ = some (.missingContext ⟨1⟩ .assign .nameBefore) ∧
      e₁.draft.leaves = [⟨0⟩] ∧ e₂.draft.leaves = [⟨0⟩, ⟨1⟩] ∧
      value? Editor.offers e₂ = some [] := by
    decide +kernel
  obtain ⟨ho, hc, hleaves, hleaves', hnone⟩ := hrun
  exact ⟨e₁, e₂, after Editor.offers e₂, eq_ok_of_value? ho, eq_error_of_refusal? hc, hleaves,
    hleaves', eq_ok_of_value? hnone⟩

end Cloze.Editor
