import Cloze.Proofs.Retrying

/-!
# The leaf that a step picks

A step that chooses names the kind of leaf it is meant for, a fixed text or a category. The search
goes by the text alone: it picks the first offer whose fixed text or whose category that is, and
fills it or is refused as that leaf is (`step_picks_first_fit`). So a step fills a leaf of the kind
it names wherever no offer of the other kind is spelled the same, and where one is it may fill that
one instead (`step_picks_other_kind`).
-/

namespace Cloze

open Draft

/-- The leaf is of the kind that the step names, with its text. -/
def Script.Step.names (d : Draft) (n : NodeId) : Script.Step → Bool
  | literal text => d.literal? n == some text
  | category name _ => d.category? n == some name
  | left | right => false

/-- The leaf has the text as its own or as its category. -/
def Draft.fits (d : Draft) (text : String) (n : NodeId) : Bool :=
  d.literal? n == some text || d.category? n == some text

namespace Editor

open Script

variable {e f e₁ : Editor} {n : NodeId} {g : Grammar} {step : Step} {found : List NodeId}
  {text : String} {value : Option String}

/-- Of what a search finds, the first that fits is chosen. -/
theorem apply_eq (hs : step.wish? = some (text, value)) (e : Editor) : apply step e =
    match Editor.offers e with
    | .ok found f =>
      match found.find? (f.draft.fits text) with
      | some n => choose n value f
      | none => .error (.noSuchOffer text) f
    | .error r f => .error r f := by
  rw [apply_of_wish hs]
  simp only [bind, EStateM.bind, findOffer_eq]
  cases Editor.offers e with
  | error r f => rfl
  | ok found f =>
    dsimp only
    unfold Draft.fits
    cases List.find? _ found <;> rfl

theorem apply_of_no_fit (hs : step.wish? = some (text, value))
    (ho : Editor.offers e = .ok found e₁) (h : ∀ n ∈ found, e₁.draft.fits text n = false) :
    apply step e = .error (.noSuchOffer text) e₁ := by
  have hfind : found.find? (e₁.draft.fits text) = none :=
    List.find?_eq_none.2 fun n hn => by simp [h n hn]
  rw [apply_eq hs, ho]
  simp only [hfind]

theorem apply_of_first_fit (hs : step.wish? = some (text, value))
    (ho : Editor.offers e = .ok found e₁) {xs ys : List NodeId} (hf : found = xs ++ n :: ys)
    (hxs : ∀ m ∈ xs, e₁.draft.fits text m = false) (hn : e₁.draft.fits text n = true) :
    apply step e = choose n value e₁ := by
  have hfind : found.find? (e₁.draft.fits text) = some n :=
    List.find?_eq_some_iff_append.2 ⟨hn, xs, ys, hf, fun m hm => by simp [hxs m hm]⟩
  rw [apply_eq hs, ho]
  simp only [hfind]

/-- Either no offer fits, or one is the first that does. -/
theorem fits_cases (d : Draft) (text : String) (found : List NodeId) :
    (∀ n ∈ found, d.fits text n = false) ∨ ∃ xs n ys, found = xs ++ n :: ys ∧
      (∀ m ∈ xs, d.fits text m = false) ∧ d.fits text n = true := by
  rcases hfind : found.find? (d.fits text) with _ | n
  · exact Or.inl fun n hn => by simpa using List.find?_eq_none.1 hfind n hn
  · obtain ⟨hn, xs, ys, hf, hxs⟩ := List.find?_eq_some_iff_append.1 hfind
    exact Or.inr ⟨xs, n, ys, hf, fun m hm => by simpa using hxs m hm, hn⟩

/-- What is of the kind that a step names has its text. -/
theorem names_eq_false (hs : step.wish? = some (text, value)) {d : Draft}
    (h : d.fits text n = false) : step.names d n = false := by
  obtain ⟨hlit, hcat⟩ := Bool.or_eq_false_iff.1 h
  cases step with
  | left | right => rfl
  | literal _ =>
    cases hs
    exact hlit
  | category _ _ =>
    cases hs
    exact hcat

/-- A leaf that is chosen joins the leaves, and no other does. -/
theorem Orderly.mem_leaves_of_choose (h : e.Orderly) (hn : e.draft.HasNode n)
    (hc : choose n value e = .ok () f) (m : NodeId) :
    m ∈ f.draft.leaves ↔ m = n ∨ m ∈ e.draft.leaves := by
  rw [choose_eq] at hc
  have hout := fillOutcome_fillWith hn value
  generalize fillWith n value e.draft = result at hc hout
  cases hout with
  | refused | stuck => cases hc
  | @already d hl hp hd =>
    obtain rfl : e.chosen n d = f := by simpa using hc
    have hmem := h.sound.mem_leaves.2 ⟨hp, hl⟩
    rw [draft_chosen, hd.retouches.leaves]
    exact ⟨Or.inr, fun hm => hm.elim (fun hm => hm ▸ hmem) id⟩
  | @filled mid d hp ha =>
    obtain rfl : e.chosen n d = f := by simpa using hc
    obtain ⟨behind, hold, hnew⟩ :=
      (hp.fills (retouches_acts (acts_onFill ha))).leaves h.sound hn
    rw [draft_chosen, hold, hnew, List.mem_append, List.mem_cons, List.mem_append]
    exact or_left_comm

/-- A step picks the first offer that has its text, as its own or as its category. Where that is
always the kind that the step names, it picks the first of that kind and is refused if there is
none. -/
theorem step_picks_first_fit {definition : Grammar.Definition} (hg : definition.build = .ok g)
    (h : Reached g e) (hs : step.wish? = some (text, value)) :
    (∀ r f, Editor.offers e = .error r f → apply step e = .error r f) ∧
    ∀ found e₁, Editor.offers e = .ok found e₁ →
      ((∀ n ∈ found, e₁.draft.fits text n = false) →
        apply step e = .error (.noSuchOffer text) e₁) ∧
      (∀ xs n ys, found = xs ++ n :: ys → (∀ m ∈ xs, e₁.draft.fits text m = false) →
        e₁.draft.fits text n = true → apply step e = choose n value e₁ ∧
          ∀ f, apply step e = .ok () f → ∀ m, m ∈ f.draft.leaves ↔ m = n ∨ m ∈ e.draft.leaves) ∧
      ((∀ n ∈ found, e₁.draft.fits text n = true → step.names e₁.draft n = true) →
        (∀ f, apply step e = .ok () f → ∃ xs n ys, found = xs ++ n :: ys ∧
          (∀ m ∈ xs, step.names e₁.draft m = false) ∧ step.names e₁.draft n = true ∧
          ∀ m, m ∈ f.draft.leaves ↔ m = n ∨ m ∈ e.draft.leaves) ∧
        ((∀ n ∈ found, step.names e₁.draft n = false) →
          apply step e = .error (.noSuchOffer text) e₁)) := by
  have hwf := Grammar.Definition.wellFormed_build hg
  have hord := (h.orderly hwf).1
  refine ⟨fun r f ho => by rw [apply_eq hs, ho], fun found e₁ ho => ?_⟩
  have hleaves : ∀ {n f}, n ∈ found → choose n value e₁ = .ok () f →
      ∀ m, m ∈ f.draft.leaves ↔ m = n ∨ m ∈ e.draft.leaves := fun hn hc m => by
    rw [((h.of_offers ho).orderly hwf).1.mem_leaves_of_choose (hord.hasNode_of_offers ho _ hn) hc,
      (hord.keeps_of_offers ho).leaves hord.sound]
  refine ⟨apply_of_no_fit hs ho, fun xs n ys hf hxs hn => ?_,
    fun hkind => ⟨fun f ha => ?_, fun hno => ?_⟩⟩
  · have hmem : n ∈ found := hf ▸ List.mem_append_right _ List.mem_cons_self
    have happly := apply_of_first_fit hs ho hf hxs hn
    exact ⟨happly, fun f ha => hleaves hmem (happly ▸ ha)⟩
  · rcases fits_cases e₁.draft text found with hno | ⟨xs, n, ys, hf, hxs, hn⟩
    · rw [apply_of_no_fit hs ho hno] at ha
      cases ha
    · have hmem : n ∈ found := hf ▸ List.mem_append_right _ List.mem_cons_self
      exact ⟨xs, n, ys, hf, fun m hm => names_eq_false hs (hxs m hm), hkind n hmem hn,
        hleaves hmem (apply_of_first_fit hs ho hf hxs hn ▸ ha)⟩
  · refine apply_of_no_fit hs ho fun n hn => Bool.eq_false_iff.2 fun hfit => ?_
    exact absurd (hkind n hn hfit) (by simp [hno n hn])

/-- A category and a fixed text that are spelled the same. -/
def spelledTwice : Grammar.Definition where
  rules := [("r", [[.literal "B" .once], [.category "A" .once], [.literal "A" .once]])]

def spelledTwiceGrammar : Grammar :=
  spelledTwice.build.toOption.getD default

/-- The editor once the offers of that grammar have been found. -/
def spelledTwiceFound : Editor :=
  after Editor.offers (Editor.start spelledTwiceGrammar {} [])

/-- The category stands first, so a step that names it fills it. -/
theorem category_picked_first : ∃ f,
    Editor.offers (Editor.start spelledTwiceGrammar {} []) =
      .ok [⟨0⟩, ⟨1⟩, ⟨2⟩] spelledTwiceFound ∧
    spelledTwiceFound.draft.category? ⟨1⟩ = some "A" ∧
    spelledTwiceFound.draft.literal? ⟨2⟩ = some "A" ∧
    apply (.category "A" (some "x")) (Editor.start spelledTwiceGrammar {} []) = .ok () f ∧
    f.draft.leaves = [⟨1⟩] := by
  have hg : spelledTwice.build = .ok spelledTwiceGrammar :=
    Grammar.Definition.build_eq_ok (by decide +kernel)
  have hrun : (value? Editor.offers (Editor.start spelledTwiceGrammar {} [])
          = some [⟨0⟩, ⟨1⟩, ⟨2⟩] ∧
        value? (choose ⟨1⟩ (some "x")) spelledTwiceFound = some ()) ∧
      (∀ n ∈ [⟨0⟩], spelledTwiceFound.draft.fits "A" n = false) ∧
      spelledTwiceFound.draft.fits "A" ⟨1⟩ = true ∧
      spelledTwiceFound.draft.category? ⟨1⟩ = some "A" ∧
      spelledTwiceFound.draft.literal? ⟨2⟩ = some "A" ∧
      (after (choose ⟨1⟩ (some "x")) spelledTwiceFound).draft.leaves = [⟨1⟩] := by
    decide +kernel
  obtain ⟨⟨hvalue, hchoose⟩, hfirst, hfit, hcategory, hliteral, hleaves⟩ := hrun
  have ho := eq_ok_of_value? hvalue
  have hs : (Step.category "A" (some "x")).wish? = some ("A", some "x") := rfl
  obtain ⟨-, hfound⟩ := step_picks_first_fit hg (.start {}) hs
  obtain ⟨happly, -⟩ := (hfound _ _ ho).2.1 [⟨0⟩] ⟨1⟩ [⟨2⟩] rfl hfirst hfit
  exact ⟨_, ho, hcategory, hliteral, happly.trans (eq_ok_of_value? hchoose), hleaves⟩

/-- A single fixed text. -/
def fixedText : Grammar.Definition where
  rules := [("r", [[.literal "A" .once]])]

def fixedTextGrammar : Grammar :=
  fixedText.build.toOption.getD default

/-- No offer is of the category that the step names, and a fixed text is filled. -/
theorem step_picks_other_kind : ∃ (e : Editor) (found : List NodeId) (e₁ f : Editor),
    fixedText.build = .ok fixedTextGrammar ∧ Reached fixedTextGrammar e ∧
    Editor.offers e = .ok found e₁ ∧ (∀ n ∈ found, e₁.draft.category? n ≠ some "A") ∧
    apply (.category "A" none) e = .ok () f ∧ f.draft.leaves = [⟨0⟩] ∧
    f.draft.literal? ⟨0⟩ = some "A" := by
  let e := Editor.start fixedTextGrammar {} []
  let f := after (apply (.category "A" none)) e
  have hrun : value? Editor.offers e = some [⟨0⟩] ∧
      (∀ n ∈ [⟨0⟩], (after Editor.offers e).draft.category? n ≠ some "A") ∧
      value? (apply (.category "A" none)) e = some () ∧ f.draft.leaves = [⟨0⟩] ∧
      f.draft.literal? ⟨0⟩ = some "A" := by
    decide +kernel
  obtain ⟨ho, hno, ha, hleaves, htext⟩ := hrun
  exact ⟨e, [⟨0⟩], _, f, Grammar.Definition.build_eq_ok (by decide +kernel), .start {},
    eq_ok_of_value? ho, hno, eq_ok_of_value? ha, hleaves, htext⟩

end Editor

end Cloze
