import Cloze.Proofs.Lasting
import Cloze.Proofs.Lines
import Cloze.Proofs.Spacing

/-!
# Block starts and ends in the text

A leaf that is no newline and has the empty token can be left out of a text (`sourceOf_filter`).
Block starts and ends get that token when they are chosen without a value. But they accept any value,
and then they hold it for good: the token of every block start and end is the value that it was chosen
with (`Performed.marksHold`), also where the choice was refused for want of a newline. So they leave no
trace in the text as long as none of them is chosen with a value, and otherwise those do that were
(`block_marks_add_their_values`, `given_value_shows`).
-/

namespace Cloze

namespace View

open Draft

variable {d : Draft}

/-- The text of some leaves on their own. -/
def sourceOf (d : Draft) (ns : List NodeId) : String :=
  "\n".intercalate ((linesFrom d {} ns).map Line.render)

theorem sourceOf_leaves (d : Draft) : sourceOf d d.leaves = source d :=
  rfl

/-- What starts no line and has no text can be left out. -/
theorem linesFrom_filter {p : NodeId → Bool} {ns : List NodeId} (line : Line)
    (h : ∀ n ∈ ns, p n = false → d.role? n ≠ some .newline ∧ leafText? d n = none) :
    linesFrom d line (ns.filter p) = linesFrom d line ns := by
  induction ns generalizing line with
  | nil => rfl
  | cons n ns ih =>
    obtain ⟨hn, hrest⟩ := List.forall_mem_cons.1 h
    rcases hp : p n with _ | _
    · obtain ⟨hrole, htext⟩ := hn hp
      rw [List.filter_cons_of_neg (by simp [hp]), linesFrom, if_neg hrole, htext,
        Option.toList_none, List.append_nil]
      exact ih line hrest
    · rw [List.filter_cons_of_pos hp, linesFrom, linesFrom]
      split
      · rw [ih _ hrest]
      · exact ih _ hrest

theorem sourceOf_filter {p : NodeId → Bool}
    (h : ∀ n ∈ d.leaves, p n = false → d.role? n ≠ some .newline ∧ leafText? d n = none) :
    sourceOf d (d.leaves.filter p) = source d := by
  rw [sourceOf, linesFrom_filter {} h, ← sourceOf_leaves, sourceOf]

theorem leafText?_eq_none_iff {n : NodeId} : leafText? d n = none ↔ (d.token? n).getD "" = "" := by
  unfold leafText?
  rcases d.token? n with _ | t
  · simp
  · simp [Option.filter_some]

end View

namespace Draft

open Edit

variable {d e : Draft} {n m : NodeId} {value : Option String}

/-! ### Block starts and ends -/

/-- A block start or end that has no text but what it is given. -/
def isBlockMark (d : Draft) (n : NodeId) : Bool :=
  d.isLayout n && (d.category? n).isSome

theorem Lasts.isBlockMark (h : Lasts d e) (hn : d.HasNode n) : e.isBlockMark n = d.isBlockMark n := by
  simp only [Draft.isBlockMark, isLayout, h.role? hn, category?, (h.node n hn).2]

theorem defaultToken?_of_isLayout (h : d.isLayout n = true) :
    (d.role? n).bind Role.defaultToken? = some "" := by
  rcases isLayout_iff.1 h with hr | hr <;> rw [hr] <;> rfl

/-- Without a value a leaf is filled as with the one that its role has for this case. -/
theorem fill_eq_fillWith_default {t : String} (hn : d.HasNode n) (hp : d.isPlaced n = false)
    (ht : d.token? n = none) (hr : (d.role? n).bind Role.defaultToken? = some t) :
    fill n d = fillWith n (some t) d := by
  rw [fillWith_some_eq]
  rcases hl : d.isLeaf n with _ | _
  · simp [fill_eq, checkToken, hl]
  · have hct : d.checkToken n t = .ok () := by
      obtain ⟨role, hrole, hdefault⟩ := Option.bind_eq_some_iff.1 hr
      refine checkToken_eq_ok.2 ⟨hl, literal?_of_token?_eq_none ht, ht, ?_⟩
      simpa [hrole] using Role.accepts_of_defaultToken? hdefault
    rw [hct, fill_eq, if_neg (by simp [hl]), if_neg (by simp [hp])]
    rcases hcp : d.checkPlace n with r | u
    · rfl
    · have hw := retouches_writeToken d n t
      have hlw : (d.writeToken n t).isLeaf n = true := (hw.links.isLeaf n).trans hl
      have hpw : (d.writeToken n t).isPlaced n = false := (hw.placed n).trans hp
      have hco : d.completed? n = some (d.writeToken n t) := by rw [completed?, ht, hr]
      have hcow : (d.writeToken n t).completed? n = some (d.writeToken n t) := by
        rw [completed?, token?_writeToken hn hct]
      simp only [fill_eq n (d.writeToken n t), hlw, hpw, hw.checkPlace, hcp, hco, hcow,
        Bool.true_eq_false, Bool.false_eq_true, if_false]

/-- A call to fill a leaf adds none but that leaf, and only if it was a gap. -/
theorem Sound.mem_leaves_after_fillWith (h : d.Sound) (hn : d.HasNode n)
    (hm : m ∈ (after (fillWith n value) d).leaves) :
    m ∈ d.leaves ∨ m = n ∧ d.isPlaced n = false := by
  have hputs : ∀ {mid e : Draft}, Puts d n mid → Retouches (mid.place n) e → m ∈ e.leaves →
      m ∈ d.leaves ∨ m = n ∧ d.isPlaced n = false := by
    intro mid e hp hr hme
    obtain ⟨behind, hold, hnew⟩ := (hp.fills hr).leaves h hn
    rw [hnew, List.mem_append, List.mem_cons] at hme
    rw [hold, List.mem_append]
    rcases hme with hfront | rfl | hbehind
    · exact .inl (.inl hfront)
    · exact .inr ⟨rfl, hp.gap⟩
    · exact .inl (.inr hbehind)
  have hout := fillOutcome_fillWith hn value
  rw [after] at hm
  generalize fillWith n value d = result at hm hout
  cases hout with
  | refused => exact .inl hm
  | already hl hp hd => exact .inl (by rwa [hd.retouches.leaves] at hm)
  | filled hp ha => exact hputs hp (retouches_acts (acts_onFill ha)) hm
  | stuck hp ha => exact hputs hp (.refl _) hm

/-- A leaf that comes to be placed with a value holds it. -/
theorem Sound.token?_of_fillWith (h : d.Sound) (hn : d.HasNode n) (hr : d.role? n ≠ some .newline)
    {t : String} (hold : n ∉ d.leaves) (hnew : n ∈ (after (fillWith n (some t)) d).leaves) :
    (after (fillWith n (some t)) d).token? n = some t := by
  rw [after, fillWith_some_eq] at hnew ⊢
  rcases hct : d.checkToken n t with r | u
  · rw [hct] at hnew
    exact absurd hnew hold
  · rcases hcp : d.checkPlace n with r | u'
    · rw [hct, hcp] at hnew
      exact absurd hnew hold
    · have hw := retouches_writeToken d n t
      have hsound := h.of_retouches hw
      have hnw : (d.writeToken n t).HasNode n := hw.links.hasNode.2 hn
      have hlasts : Lasts (d.writeToken n t) (after (fill n) (d.writeToken n t)) :=
        Changes.lasts hsound (changes_fill hsound hnw)
      exact hlasts.token n t hnw (by rwa [hw.links.role?]) (token?_writeToken hn hct)

/-- A block start or end that comes to be placed holds its value, and the empty text without one. -/
theorem Sound.token?_of_new_mark (h : d.Sound) (hb : d.Blank) (hn : d.HasNode n)
    (hmark : d.isBlockMark n = true) (hp : d.isPlaced n = false)
    (hnew : n ∈ (after (fillWith n value) d).leaves) :
    (after (fillWith n value) d).token? n = some (value.getD "") := by
  obtain ⟨hlay, hcat⟩ := Bool.and_eq_true_iff.1 hmark
  have hr := not_newline_of_isLayout hlay
  have hold : n ∉ d.leaves := fun hmem =>
    Bool.false_ne_true (hp.symm.trans (h.mem_leaves.1 hmem).1)
  cases value with
  | some t => exact h.token?_of_fillWith hn hr hold hnew
  | none =>
    obtain ⟨name, hname⟩ := Option.isSome_iff_exists.1 hcat
    have ht : d.token? n = none := (hb.token? hp).trans (literal?_of_category? hname)
    have hfill : fillWith n none d = fillWith n (some "") d :=
      fill_eq_fillWith_default hn hp ht (defaultToken?_of_isLayout hlay)
    have hafter : after (fillWith n none) d = after (fillWith n (some "")) d := by
      rw [after, hfill, after]
    rw [hafter] at hnew ⊢
    exact h.token?_of_fillWith hn hr hold hnew

/-- The tokens of block marks last, for marks are no newlines. -/
theorem Lasts.token?_of_mark {t : String} (h : Lasts d e) (hn : d.HasNode n)
    (hmark : d.isBlockMark n = true) (ht : d.token? n = some t) : e.token? n = some t :=
  h.token n t hn (not_newline_of_isLayout (Bool.and_eq_true_iff.1 hmark).1) ht

end Draft

namespace Editor

open Draft View

variable {e : Editor} {g : Grammar} {acts : List Action}

/-! ### Runs -/

/-- The editors that a writer comes to by the given actions, those that were refused among them. -/
inductive Performed (g : Grammar) : List Action → Editor → Prop
  | start (settings : Settings) : Performed g [] (Editor.start g settings [])
  | act {acts : List Action} {e : Editor} {a : Action} (h : Performed g acts e) (ha : a.On e) :
      Performed g (acts ++ [a]) (a.after e)
  | share {acts : List Action} {e : Editor} {d : Draft} (h : Performed g acts e)
      (h' : Draft.Reached g d) :
      Performed g acts { e with draft := { e.draft with unskippable := d.unskippable } }

theorem reached_iff_performed : Reached g e ↔ ∃ acts, Performed g acts e := by
  constructor
  · intro h
    induction h with
    | start settings => exact ⟨_, .start settings⟩
    | act _ ha ih =>
      obtain ⟨acts, h⟩ := ih
      exact ⟨_, h.act ha⟩
    | share _ h' ih =>
      obtain ⟨acts, h⟩ := ih
      exact ⟨_, h.share h'⟩
  · rintro ⟨acts, h⟩
    induction h with
    | start settings => exact .start settings
    | act _ ha ih => exact ih.act ha
    | share _ h' ih => exact ih.share h'

theorem Performed.reached (h : Performed g acts e) : Reached g e :=
  reached_iff_performed.2 ⟨acts, h⟩

/-- The editor after some actions, all of them on nodes that are there. -/
def perform? (e : Editor) : List Action → Option Editor
  | [] => some e
  | a :: more => if a.On e then (a.after e).perform? more else none

theorem Performed.perform? : ∀ {more acts : List Action} {e f : Editor}, Performed g acts e →
    e.perform? more = some f → Performed g (acts ++ more) f
  | [], acts, _, _, h, hf => by
    cases hf
    rwa [List.append_nil]
  | a :: more, acts, e, f, h, hf => by
    rw [Editor.perform?] at hf
    split at hf
    · rename_i ha
      have hmore := (h.act ha).perform? hf
      rwa [List.append_assoc] at hmore
    · cases hf

/-! ### Block starts and ends in a run -/

/-- The block starts and ends of a draft hold what the actions gave them. -/
def MarksHold (acts : List Action) (d : Draft) : Prop :=
  ∀ n ∈ d.leaves, d.isBlockMark n = true →
    ∃ value, Action.choose n value ∈ acts ∧ d.token? n = some (value.getD "")

/-- Block marks that stood before hold what they held, so only new ones matter. -/
theorem MarksHold.lasts {d f : Draft} {acts' : List Action} (hm : MarksHold acts d) (h : d.Sound)
    (hl : Lasts d f) (hsub : ∀ a ∈ acts, a ∈ acts')
    (hnew : ∀ n ∈ f.leaves, n ∉ d.leaves → f.isBlockMark n = true →
      ∃ value, Action.choose n value ∈ acts' ∧ f.token? n = some (value.getD "")) :
    MarksHold acts' f := by
  intro n hn hmark
  by_cases hold : n ∈ d.leaves
  · have hhas := hasNode_of_placed (h.mem_leaves.1 hold).1
    rw [hl.isBlockMark hhas] at hmark
    obtain ⟨value, hact, ht⟩ := hm n hold hmark
    exact ⟨value, hsub _ hact, hl.token?_of_mark hhas hmark ht⟩
  · exact hnew n hn hold hmark

theorem MarksHold.keeps {d f : Draft} {acts' : List Action} (hm : MarksHold acts d) (h : d.Sound)
    (hk : Keeps d f) (hsub : ∀ a ∈ acts, a ∈ acts') : MarksHold acts' f :=
  hm.lasts h (hk.lasts h) hsub fun _ hn hold => absurd (hk.leaves h ▸ hn) hold

theorem MarksHold.act (hm : MarksHold acts e.draft) (ho : e.Orderly) {a : Action} (ha : a.On e) :
    MarksHold (acts ++ [a]) (a.after e).draft := by
  have hsub : ∀ b ∈ acts, b ∈ acts ++ [a] := fun b hb => List.mem_append_left _ hb
  cases a with
  | search =>
    rw [Action.after, Editor.after_offers]
    exact hm.keeps ho.sound ho.keeps_offers hsub
  | choose k value =>
    rw [Action.after, draft_after_choose]
    have hl := Changes.lasts ho.sound (changes_fillWith ho.sound ha value)
    refine hm.lasts ho.sound hl hsub fun n hn hold hmark => ?_
    obtain ⟨rfl, hp⟩ := (ho.sound.mem_leaves_after_fillWith ha hn).resolve_left hold
    rw [hl.isBlockMark ha] at hmark
    exact ⟨value, List.mem_append_right _ List.mem_cons_self,
      ho.sound.token?_of_new_mark ho.blank ha hmark hp hn⟩
  | moveLeft | moveRight => exact hm.keeps ho.sound (.refl ho.sound) hsub

theorem Performed.marksHold (hg : g.WellFormed) (h : Performed g acts e) :
    MarksHold acts e.draft := by
  induction h with
  | start settings => exact fun _ hn => absurd hn List.not_mem_nil
  | act h ha ih => exact ih.act (h.reached.orderly hg).1 ha
  | share h h' ih =>
    obtain ⟨ho, hd⟩ := h.reached.orderly hg
    have hs := ((hd.share h').sound hg).1
    exact ih.keeps ho.sound (ho.sound.remember hs.honest) fun _ ha => ha

/-- Every block start and end holds the value that it was chosen with, and the empty text if it was
chosen without one. So the text of a draft is that of its leaves without the block starts and ends
that have no text, and without all of them if none was chosen with one. -/
theorem block_marks_add_their_values {definition : Grammar.Definition}
    (hg : definition.build = .ok g) (h : Performed g acts e) :
    (∀ n ∈ e.draft.leaves, e.draft.isBlockMark n = true →
      ∃ value, Action.choose n value ∈ acts ∧ e.draft.token? n = some (value.getD "")) ∧
    source e.draft = sourceOf e.draft (e.draft.leaves.filter fun n =>
      !e.draft.isBlockMark n || (leafText? e.draft n).isSome) ∧
    ((∀ n value, Action.choose n value ∈ acts → e.draft.isBlockMark n = true →
        value.getD "" = "") →
      (∀ n ∈ e.draft.leaves, e.draft.isBlockMark n = true → leafText? e.draft n = none) ∧
      source e.draft = sourceOf e.draft (e.draft.leaves.filter fun n => !e.draft.isBlockMark n)) := by
  have hmarks := h.marksHold (Grammar.Definition.wellFormed_build hg)
  have hline : ∀ n, e.draft.isBlockMark n = true → e.draft.role? n ≠ some .newline := fun n hn =>
    not_newline_of_isLayout (Bool.and_eq_true_iff.1 hn).1
  refine ⟨hmarks, (sourceOf_filter fun n _ hout => ?_).symm, fun hempty => ?_⟩
  · obtain ⟨hmark, htext⟩ := Bool.or_eq_false_iff.1 hout
    exact ⟨hline n (by simpa using hmark), by simpa using htext⟩
  · have htext : ∀ n ∈ e.draft.leaves, e.draft.isBlockMark n = true →
        leafText? e.draft n = none := fun n hn hmark => by
      obtain ⟨value, hact, ht⟩ := hmarks n hn hmark
      rw [leafText?_eq_none_iff, ht, Option.getD_some]
      exact hempty n value hact hmark
    refine ⟨htext, (sourceOf_filter fun n hn hout => ?_).symm⟩
    have hmark : e.draft.isBlockMark n = true := by simpa using hout
    exact ⟨hline n hmark, htext n hn hmark⟩

/-- A text in a block of its own. -/
def ownBlock : Grammar.Definition where
  rules := [("block", [[.category "NEWLINE" .once, .category "INDENT" .once, .literal "x" .once]])]
  roles := [("NEWLINE", .newline), ("INDENT", .indent)]

def ownBlockGrammar : Grammar := ownBlock.build.toOption.getD default

/-- The leaves are chosen one after the other, with a value for the block start or without. -/
def blockActions (value : Option String) : List Action :=
  [.search, .choose ⟨0⟩ none, .search, .choose ⟨1⟩ value, .search, .choose ⟨2⟩ none]

theorem exists_performed_block (value : Option String) {p : Editor → Bool}
    (h : ((Editor.start ownBlockGrammar {} []).perform? (blockActions value)).any p = true) :
    ∃ e, Performed ownBlockGrammar (blockActions value) e ∧ p e = true := by
  obtain ⟨e, he, hp⟩ := (Option.any_eq_true _ _).1 h
  exact ⟨e, (Performed.start {}).perform? he, hp⟩

/-- Chosen without a value, the block start leaves no trace but the indentation. -/
theorem empty_mark_left_out : ∃ e, Performed ownBlockGrammar (blockActions none) e ∧
    e.draft.leaves = [⟨0⟩, ⟨1⟩, ⟨2⟩] ∧ e.draft.token? ⟨1⟩ = some "" ∧
    source e.draft = sourceOf e.draft [⟨0⟩, ⟨2⟩] := by
  obtain ⟨e, h, hrun⟩ := exists_performed_block none (p := fun e =>
    e.draft.leaves = [⟨0⟩, ⟨1⟩, ⟨2⟩] ∧ e.draft.isBlockMark ⟨1⟩ = true ∧
      e.draft.leaves.filter (fun n => !e.draft.isBlockMark n) = [⟨0⟩, ⟨2⟩]) (by decide +kernel)
  obtain ⟨hleaves, hmark, hothers⟩ := of_decide_eq_true hrun
  have hnone : ∀ n value, Action.choose n value ∈ blockActions none → value = none := by
    grind [blockActions]
  obtain ⟨htokens, -, hempty⟩ :=
    block_marks_add_their_values (Grammar.Definition.build_eq_ok (by decide +kernel)) h
  obtain ⟨value, hact, ht⟩ := htokens ⟨1⟩ (by simp [hleaves]) hmark
  obtain ⟨-, hsource⟩ := hempty fun n value hact _ => by rw [hnone n value hact, Option.getD_none]
  rw [hnone _ value hact] at ht
  exact ⟨e, h, hleaves, ht, hothers ▸ hsource⟩

/-- Chosen with a value, it stands in the text with it. -/
theorem given_value_shows : ∃ e, ownBlock.build = .ok ownBlockGrammar ∧
    Reached ownBlockGrammar e ∧ ⟨1⟩ ∈ e.draft.leaves ∧ e.draft.isBlockMark ⟨1⟩ = true ∧
    leafText? e.draft ⟨1⟩ = some "foo" ∧ source e.draft = "\n    foo x" ∧
    sourceOf e.draft (e.draft.leaves.filter fun n => !e.draft.isBlockMark n) = "\n    x" := by
  obtain ⟨e, h, hrun⟩ := exists_performed_block (some "foo") (p := fun e =>
    ⟨1⟩ ∈ e.draft.leaves ∧ e.draft.isBlockMark ⟨1⟩ = true ∧ leafText? e.draft ⟨1⟩ = some "foo" ∧
      source e.draft = "\n    foo x" ∧
      sourceOf e.draft (e.draft.leaves.filter fun n => !e.draft.isBlockMark n) = "\n    x")
    (by decide +kernel)
  exact ⟨e, Grammar.Definition.build_eq_ok (by decide +kernel), h.reached, of_decide_eq_true hrun⟩

end Editor

end Cloze
