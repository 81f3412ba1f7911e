import Cloze.Proofs.Editing
import Cloze.Proofs.Lasting
import Cloze.Proofs.Repeating
import Cloze.Script

/-!
# Steps that can be retried

A step that chooses searches first, then looks for the leaf it names among the offers, then fills it.
If it is refused for a reason that the writer can mend, nothing has happened but the search: what is
left is the editor as a bare search leaves it (`Orderly.offers_of_apply`). A search does the same again
and changes nothing then, so the next step finds what it would have found without the refused one
(`refused_step_retried`).
-/

namespace Cloze

/-- The text that a step looks for among the offers, and the value it fills in. -/
def Script.Step.wish? : Script.Step → Option (String × Option String)
  | literal text => some (text, none)
  | category name value => some (name, value)
  | left | right => none

namespace Draft

variable {d e : Draft} {n : NodeId}

/-- What a role refuses, no other value can mend. -/
theorem not_isRecoverable_of_onFill {r : Refusal} (h : d.onFill n = .error r) :
    r.isRecoverable = false := by
  obtain ⟨role, missing, -, rfl⟩ | ⟨m, role, note, -, -, -, rfl⟩ := onFill_eq_error h
  · rfl
  · rfl

/-- A leaf that is refused for a reason that can be mended leaves the draft as it was. -/
theorem eq_of_fillWith_recoverable (hn : d.HasNode n) {value : Option String} {r : Refusal}
    (hr : r.isRecoverable = true) (h : fillWith n value d = .error r e) : e = d := by
  have hout := fillOutcome_fillWith hn value
  rw [h] at hout
  cases hout with
  | refused => rfl
  | stuck hp ha =>
    rw [not_isRecoverable_of_onFill ha] at hr
    cases hr

end Draft

namespace Editor

open Draft Script

variable {e f : Editor} {n : NodeId} {g : Grammar} {step : Step} {r : Refusal}

/-! ### What a step does -/

theorem apply_of_wish {text : String} {value : Option String} (h : step.wish? = some (text, value)) :
    apply step = findOffer text >>= fun n => choose n value := by
  cases step with
  | left | right => cases h
  | literal | category =>
    cases h
    rfl

/-- Only a step that chooses can be refused. -/
theorem exists_wish_of_apply (h : apply step e = .error r f) :
    ∃ text value, step.wish? = some (text, value) := by
  cases step with
  | left | right => cases h
  | literal | category => exact ⟨_, _, rfl⟩

/-- A leaf that cannot be chosen for a reason that can be mended leaves the editor as it was. -/
theorem eq_of_choose_recoverable (hn : e.draft.HasNode n) {value : Option String}
    (hr : r.isRecoverable = true) (h : choose n value e = .error r f) : f = e := by
  rw [choose_eq] at h
  rcases hf : fillWith n value e.draft with ⟨u, d⟩ | ⟨r', d⟩
  · rw [hf] at h
    cases h
  · rw [hf] at h
    cases h
    rw [eq_of_fillWith_recoverable hn hr hf]

/-- Of a step that is refused for a reason that can be mended, the search is all that happened. -/
theorem Orderly.offers_of_apply (h : e.Orderly) (hr : r.isRecoverable = true)
    (ha : apply step e = .error r f) : ∃ found, Editor.offers e = .ok found f := by
  obtain ⟨text, value, hwish⟩ := exists_wish_of_apply ha
  rw [apply_of_wish hwish] at ha
  simp only [bind, EStateM.bind, findOffer_eq] at ha
  rcases ho : Editor.offers e with ⟨found, e₁⟩ | ⟨r', e₁⟩
  · rw [ho] at ha
    dsimp only at ha
    refine ⟨found, ?_⟩
    split at ha
    · rename_i n f' hfind
      split at hfind
      · rename_i hn
        cases hfind
        have hnode := h.hasNode_of_offers ho n (List.mem_of_find?_eq_some hn)
        rw [eq_of_choose_recoverable hnode hr ha]
      · cases hfind
    · rename_i hfind
      cases ha
      split at hfind
      · cases hfind
      · cases hfind
        rfl
  · rw [ho] at ha
    cases ha
    rw [offers_eq] at ho
    rcases hd : Draft.offers e.trueCursor e.draft with ⟨found, d⟩ | ⟨r', d⟩
    · rw [hd] at ho
      cases ho
    · rw [hd] at ho
      cases ho
      obtain ⟨rule, rfl⟩ := h.sound.tooDeep_of_offers
        (fun n hn => (h.sound.mem_leaves.1 (h.trueCursor n hn)).1) hd
      cases hr

/-! ### The search once more -/

theorem trueCursor_congr (hc : f.cursor = e.cursor)
    (h : ∀ n ∈ e.cursor, f.draft.role? n = e.draft.role? n ∧
      (f.draft.node n).note = (e.draft.node n).note) : f.trueCursor = e.trueCursor := by
  rw [trueCursor, trueCursor, hc]
  rcases hcur : e.cursor with _ | n
  · rfl
  · obtain ⟨hrole, hnote⟩ := h n hcur
    simp only [Option.map_some, hrole, blocks?_congr hnote]

/-- A draft that only grows leaves the search where it goes on. -/
theorem Orderly.trueCursor_keeps (h : e.Orderly) (hc : f.cursor = e.cursor)
    (hk : Keeps e.draft f.draft) : f.trueCursor = e.trueCursor := by
  refine trueCursor_congr hc fun n hn => ?_
  have hnode := hasNode_of_placed (h.sound.mem_leaves.1 (h.chain n (h.cursor n hn))).1
  exact ⟨hk.grows.role? hnode, (hk.grows.node_eq hnode).2.2.2⟩

/-- A search that succeeds does so again, and changes nothing then. -/
theorem Orderly.offers_again (h : e.Orderly) {found : List NodeId}
    (ho : Editor.offers e = .ok found f) : Editor.offers f = .ok found f := by
  obtain ⟨hd, hf⟩ := offers_eq_ok ho
  have hplaced : ∀ n ∈ e.trueCursor, (e.draft.node n).placed = true :=
    fun n hn => (h.sound.mem_leaves.1 (h.trueCursor n hn)).1
  rw [offers_eq, h.trueCursor_keeps (by rw [hf]) (h.keeps_of_offers ho),
    h.sound.offers_again hplaced hd]

/-- A step that chooses does the same after the search it begins with. -/
theorem Orderly.apply_after_offers (h : e.Orderly) {found : List NodeId}
    (ho : Editor.offers e = .ok found f) (hs : step.wish? ≠ none) : apply step f = apply step e := by
  obtain ⟨⟨text, value⟩, hwish⟩ := Option.ne_none_iff_exists'.1 hs
  have hfind : findOffer text f = findOffer text e := by
    rw [findOffer_eq, findOffer_eq, ho, h.offers_again ho]
  rw [apply_of_wish hwish]
  simp only [bind, EStateM.bind, hfind]

/-- A step that is refused for a reason that can be mended leaves all as it was, and what comes next
goes as after a search alone. -/
theorem refused_step_retried {definition : Grammar.Definition} (hg : definition.build = .ok g)
    (h : Reached g e) (hr : r.isRecoverable = true) (ha : apply step e = .error r f) :
    f.cursor = e.cursor ∧ f.chain = e.chain ∧ f.draft.leaves = e.draft.leaves ∧
    (∀ c, (f.draft.choice c).chosen = (e.draft.choice c).chosen) ∧
    (∀ n, e.draft.HasNode n → f.draft.token? n = e.draft.token? n ∧
      (f.draft.node n).position = (e.draft.node n).position ∧
      f.draft.isPlaced n = e.draft.isPlaced n ∧ (f.draft.node n).note = (e.draft.node n).note) ∧
    (∃ found, Editor.offers e = .ok found f ∧ Editor.offers f = .ok found f) ∧
    (∀ other, apply other f = apply other (after Editor.offers e)) ∧
    ∀ other : Step, other.wish? ≠ none → apply other f = apply other e := by
  have ho := (h.orderly (Grammar.Definition.wellFormed_build hg)).1
  obtain ⟨found, hfound⟩ := ho.offers_of_apply hr ha
  have hafter : after Editor.offers e = f := by rw [after, hfound]
  have hk := ho.keeps_of_offers hfound
  refine ⟨by rw [(offers_eq_ok hfound).2], by rw [(offers_eq_ok hfound).2], hk.leaves ho.sound,
    hk.grows.chosen, fun n hn => ?_, ⟨found, hfound, ho.offers_again hfound⟩,
    fun other => by rw [hafter], fun other hother => ho.apply_after_offers hfound hother⟩
  obtain ⟨-, -, hposition, hnote⟩ := hk.grows.node_eq hn
  exact ⟨hk.grows.token? hn, hposition, hk.grows.placed n, hnote⟩

/-- The editor behind an open bracket, with the search there still to come. -/
def openBracket : Editor :=
  [Action.search, .choose ⟨0⟩ none].foldl (fun e a => a.after e)
    (Editor.start checkedGrammar {} [])

/-- A name that is refused leaves no trace, and another is taken in its place. -/
theorem name_retried : ∃ f f', apply (.category "name" (some "1x")) openBracket =
      .error (.tokenRejected "name" "1x") f ∧ f.draft.leaves = openBracket.draft.leaves ∧
    f.chain = [⟨0⟩] ∧ f.draft.token? ⟨3⟩ = none ∧
    apply (.category "name" (some "x")) f = .ok () f' ∧
    apply (.category "name" (some "x")) openBracket = .ok () f' ∧
    f'.chain = [⟨0⟩, ⟨3⟩] ∧ f'.draft.token? ⟨3⟩ = some "x" := by
  let f := after (apply (.category "name" (some "1x"))) openBracket
  let f' := after (apply (.category "name" (some "x"))) openBracket
  have hrun : (refusal? (apply (.category "name" (some "1x"))) openBracket
          = some (.tokenRejected "name" "1x") ∧
        value? (apply (.category "name" (some "x"))) openBracket = some ()) ∧
      (f.chain = [⟨0⟩] ∧ f.draft.token? ⟨3⟩ = none) ∧
      f'.chain = [⟨0⟩, ⟨3⟩] ∧ f'.draft.token? ⟨3⟩ = some "x" := by
    decide +kernel
  obtain ⟨⟨hrefusal, hvalue⟩, ⟨hchain, htoken⟩, hchain', htoken'⟩ := hrun
  have ha := eq_error_of_refusal? hrefusal
  have hx := eq_ok_of_value? hvalue
  have hreached : Reached checkedGrammar openBracket := by
    have h₁ := (Reached.start (g := checkedGrammar) {}).act (a := .search) trivial
    simp only [openBracket, List.foldl_cons, List.foldl_nil]
    exact h₁.act (by decide +kernel)
  obtain ⟨-, -, hleaves, -, -, -, -, hretry⟩ := refused_step_retried
    (Grammar.Definition.build_eq_ok (by decide +kernel)) hreached rfl ha
  exact ⟨f, f', ha, hleaves, hchain, htoken,
    (hretry _ (by simp [Step.wish?])).trans hx, hx, hchain', htoken'⟩

end Editor

end Cloze
