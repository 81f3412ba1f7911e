import Cloze.Proofs.Noting
import Mathlib.Logic.Relation

/-!
# What calls do to a draft

Whatever is called on a sound draft, and whether the call succeeds or is refused, all that happens
to the draft is a sequence of changes of four kinds (`changes_call`): it grows and nothing is written
in it, a leaf without a token gets one that its role accepts, a leaf with a token is placed, or the
role of a placed leaf acts. So what the four changes keep holds of every draft that calls lead to
(`Reached.invariant`).
-/

namespace Cloze

/-- A role accepts what it fills in by itself. -/
theorem Role.accepts_of_defaultToken? {role : Role} {token : String}
    (h : role.defaultToken? = some token) : role.accepts token = true := by
  cases role <;> first | rfl | cases h

namespace Draft

open Edit

variable {d e f : Draft} {n m : NodeId} {g : Grammar}

theorem checkToken_eq_ok {value : String} : d.checkToken n value = .ok () ↔
    d.isLeaf n = true ∧ d.literal? n = none ∧ d.token? n = none
      ∧ (d.role? n).all (·.accepts value) = true := by
  unfold checkToken
  cases hl : d.isLeaf n
  · simp
  · rcases hlit : d.literal? n with _ | text
    · rcases ht : d.token? n with _ | token
      · simp
      · simp
    · simp

theorem literal?_of_token?_eq_none (h : d.token? n = none) : d.literal? n = none := by
  unfold token? at h
  split at h
  · cases h
  · assumption
  · assumption
  · assumption

/-- What has a category has no text of its own. -/
theorem literal?_of_category? {name : String} (h : d.category? n = some name) :
    d.literal? n = none := by
  unfold category? Grammar.Symbol.category? at h
  unfold literal? Grammar.Symbol.literal?
  split at h
  · rename_i hkind
    rw [hkind]
  · cases h

/-- One change to a draft. -/
inductive Change (d : Draft) : Draft → Prop
  | grow {e : Draft} (hk : Keeps d e) (hw : Unwritten d e) : Change d e
  | token {n : NodeId} {value : String} (hn : d.HasNode n) (hc : d.checkToken n value = .ok ()) :
      Change d (d.writeToken n value)
  | place {n : NodeId} (hn : d.HasNode n) (hl : d.isLeaf n = true) (hp : (d.node n).placed = false)
      (hc : d.checkPlace n = .ok ()) (ht : (d.token? n).isSome) : Change d (d.place n)
  | act {n : NodeId} {e : Draft} (hn : n ∈ d.leaves) (ha : Acts d n e) : Change d e

/-- One change after the other. -/
abbrev Changes : Draft → Draft → Prop :=
  Relation.ReflTransGen Change

theorem fills_place (hl : d.isLeaf n = true) (hp : (d.node n).placed = false)
    (hc : d.checkPlace n = .ok ()) : Fills d n (d.place n) :=
  ⟨hl, hp, hc, d, .refl d, .refl _⟩

theorem Change.sound (h : d.Sound) (hc : Change d e) : e.Sound := by
  cases hc with
  | grow hk _ => exact hk.sound
  | token => exact h.of_retouches (retouches_writeToken d _ _)
  | place hn hl hp hc _ => exact ((fills_place hl hp hc).sound h hn).1
  | act _ ha => exact h.of_retouches (retouches_acts ha)

theorem Changes.sound (h : d.Sound) (hc : Changes d e) : e.Sound := by
  induction hc with
  | refl => exact h
  | tail _ hc ih => exact hc.sound ih

/-! ### Calls -/

theorem changes_completed? (hn : d.HasNode n) (hl : d.isLeaf n = true)
    (h : d.completed? n = some e) : Changes d e ∧ (e.token? n).isSome := by
  unfold completed? at h
  split at h
  · rename_i ht
    cases h
    exact ⟨.refl, by rw [ht]; rfl⟩
  · rename_i token ht hr
    cases h
    obtain ⟨role, hrole, hr⟩ := Option.bind_eq_some_iff.1 hr
    have hc : d.checkToken n token = .ok () := checkToken_eq_ok.2
      ⟨hl, literal?_of_token?_eq_none ht, ht, by
        rw [hrole]
        exact Role.accepts_of_defaultToken? hr⟩
    exact ⟨.single (.token hn hc), by rw [token?_writeToken hn hc]; rfl⟩
  · cases h

theorem changes_fill (h : d.Sound) (hn : d.HasNode n) : Changes d (after (fill n) d) := by
  rw [after, fill_eq]
  cases hl : d.isLeaf n with
  | false => exact .refl
  | true =>
    cases hp : d.isPlaced n with
    | true => exact .refl
    | false =>
      simp only [Bool.true_eq_false, if_false, Bool.false_eq_true]
      cases hc : d.checkPlace n with
      | error r => exact .refl
      | ok u =>
        rcases hco : d.completed? n with _ | mid
        · exact .refl
        · obtain ⟨hmid, ht⟩ := changes_completed? hn hl hco
          have hr := retouches_completed? hco
          have hn' : mid.HasNode n := hr.links.hasNode.2 hn
          have hl' : mid.isLeaf n = true := (hr.links.isLeaf n).trans hl
          have hp' : (mid.node n).placed = false := (hr.placed n).trans hp
          have hc' : mid.checkPlace n = .ok () := (hr.checkPlace n).trans hc
          have hplace := hmid.tail (.place hn' hl' hp' hc' ht)
          dsimp only
          cases hon : (mid.place n).onFill n with
          | error r => exact hplace
          | ok e =>
            have hmem := ((fills_place hl' hp' hc').mem_leaves (h.of_retouches hr) hn').1
            exact hplace.tail (.act hmem (acts_onFill hon))

theorem changes_fillWith (h : d.Sound) (hn : d.HasNode n) (value : Option String) :
    Changes d (after (fillWith n value) d) := by
  cases value with
  | none => exact changes_fill h hn
  | some value =>
    rw [after, fillWith_some_eq]
    cases hct : d.checkToken n value with
    | error r => exact .refl
    | ok u =>
      cases hcp : d.checkPlace n with
      | error r => exact .refl
      | ok u =>
        have hr := retouches_writeToken d n value
        exact .head (.token hn hct) (changes_fill (h.of_retouches hr) (hr.links.hasNode.2 hn))

theorem wanders_resume (n : NodeId) : Wanders (resume n) :=
  wanders_get.bind fun _ => wanders_resumeAlong _

/-- The call only looks for leaves. -/
def Call.isSearch : Call → Bool
  | .offers _ | .resume _ | .reveal _ => true
  | .giveToken _ _ | .fill _ | .fillWith _ _ => false

theorem unwritten_refl (d : Draft) : Unwritten d d := fun _ => ⟨rfl, fun _ ht => ht⟩

/-- A search lets the draft grow and writes nothing. -/
theorem Sound.grows_of_search (h : d.Sound) {c : Call} (hc : c.On d) (hs : c.isSearch = true) :
    Keeps d (c.after d) ∧ Unwritten d (c.after d) := by
  have hsearch : ∀ {α : Type} {act : Edit α}, Keeps d (after act d) → Wanders act →
      Keeps d (after act d) ∧ Unwritten d (after act d) :=
    fun hk hw => ⟨hk, (hw.moves d).unwritten⟩
  cases c with
  | offers cursor =>
    cases cursor with
    | none => exact hsearch (h.keeps_offers fun n hn => by cases hn) (wanders_offers none)
    | some n =>
      rcases hp : (d.node n).placed with _ | _
      · simp only [Call.after, Draft.after, offers_of_not_placed hp]
        exact ⟨.refl h, unwritten_refl d⟩
      · exact hsearch (h.over.finds_offers hp).keeps (wanders_offers _)
  | resume n =>
    rcases hp : (d.node n).placed with _ | _
    · simp only [Call.after, Draft.after, resume_of_not_placed hp]
      exact ⟨.refl h, unwritten_refl d⟩
    · exact hsearch (h.over.finds_resume hp).keeps (wanders_resume n)
  | reveal n => exact hsearch (h.keeps_reveal hc) (wanders_reveal n)
  | giveToken | fill | fillWith => cases hs

/-- A call does nothing but change the draft, one change after the other. -/
theorem changes_call (h : d.Sound) {c : Call} (hc : c.On d) : Changes d (c.after d) := by
  cases hs : c.isSearch with
  | true =>
    obtain ⟨hk, hw⟩ := h.grows_of_search hc hs
    exact .single (.grow hk hw)
  | false =>
    cases c with
    | offers | resume | reveal => cases hs
    | giveToken n value =>
      simp only [Call.after, Draft.after, giveToken_eq]
      cases hct : d.checkToken n value with
      | error r => exact .refl
      | ok u => exact .single (.token hc hct)
    | fill n => exact changes_fill h hc
    | fillWith n value => exact changes_fillWith h hc value

/-- Another draft's memory comes in. -/
theorem change_remember (h : d.Sound) (he : e.Sound) (hg : e.grammar = d.grammar) :
    Change d { d with unskippable := e.unskippable } :=
  .grow (h.remember (by rw [← hg]; exact he.honest)) fun _ => ⟨rfl, fun _ ht => ht⟩

/-- What every change to a sound draft keeps, and the empty draft has, all drafts in use have. -/
theorem Reached.invariant {P : Draft → Prop} (hg : g.WellFormed)
    (hstart : ∀ settings, P (Draft.start g settings []))
    (hstep : ∀ {d e}, d.Sound → Change d e → P d → P e) (h : Reached g d) : P d := by
  have hsteps : ∀ {d e}, d.Sound → Changes d e → P d → P e := by
    intro d e hd hc hP
    induction hc with
    | refl => exact hP
    | tail hcs hc ih => exact hstep (Changes.sound hd hcs) hc ih
  induction h with
  | start settings => exact hstart settings
  | call h hc ih => exact hsteps (h.sound hg).1 (changes_call (h.sound hg).1 hc) ih
  | share h h' ih _ =>
    obtain ⟨hd, hgd⟩ := h.sound hg
    obtain ⟨he, hge⟩ := h'.sound hg
    exact hstep hd (change_remember hd he (hge.trans hgd.symm)) ih

end Draft

end Cloze
