import Cloze.Editor
import Cloze.Proofs.Noting

/-!
# Editors in use

An editor is reached from an empty one by whatever a writer does: searching, choosing any leaf of
the draft with any value, moving, in any order, and whether it succeeds or is refused. Its draft is
then one that calls lead to, its cursor is none or a leaf of the chain, the leaves of the chain and
the blocks that joined newlines are filled, and nothing is written on what is not placed
(`Orderly`).
-/

namespace Cloze

namespace Editor

open Draft

variable {e f : Editor} {d : Draft} {n m : NodeId} {value : Option String} {g : Grammar}

/-- The editor that an action leaves, whether it succeeds or is refused. -/
def after {α : Type} (act : Editing α) (e : Editor) : Editor :=
  match act e with
  | .ok _ f | .error _ f => f

/-- The value that an action gives if it succeeds. -/
def value? {α : Type} (act : Editing α) (e : Editor) : Option α :=
  match act e with
  | .ok a _ => some a
  | .error _ _ => none

/-- The reason for which an action is refused. -/
def refusal? {α : Type} (act : Editing α) (e : Editor) : Option Refusal :=
  match act e with
  | .ok _ _ => none
  | .error r _ => some r

theorem eq_ok_of_value? {α : Type} {act : Editing α} {a : α} (h : value? act e = some a) :
    act e = .ok a (after act e) := by
  unfold value? at h
  unfold after
  split at h <;> simp_all

theorem eq_error_of_refusal? {α : Type} {act : Editing α} {r : Refusal}
    (h : refusal? act e = some r) : act e = .error r (after act e) := by
  unfold refusal? at h
  unfold after
  split at h <;> simp_all

/-- What a writer does. -/
inductive Action where
  | search
  | choose (n : NodeId) (value : Option String)
  | moveLeft
  | moveRight
deriving DecidableEq

def Action.after : Action → Editor → Editor
  | .search => Editor.after Editor.offers
  | .choose n value => Editor.after (Editor.choose n value)
  | .moveLeft => Editor.moveLeft
  | .moveRight => Editor.moveRight

/-- What is chosen is a node of the draft. -/
def Action.On (e : Editor) : Action → Prop
  | .choose n _ => e.draft.HasNode n
  | .search | .moveLeft | .moveRight => True

instance (e : Editor) : (a : Action) → Decidable (a.On e)
  | .choose n _ => inferInstanceAs (Decidable (n.index < e.draft.nodes.size))
  | .search | .moveLeft | .moveRight => .isTrue trivial

/-- The editors over a grammar that a writer can come to. Another draft's memory may come in. -/
inductive Reached (g : Grammar) : Editor → Prop
  | start (settings : Settings) : Reached g (Editor.start g settings [])
  | act {e : Editor} {a : Action} (h : Reached g e) (ha : a.On e) : Reached g (a.after e)
  | share {e : Editor} {d : Draft} (h : Reached g e) (h' : Draft.Reached g d) :
      Reached g { e with draft := { e.draft with unskippable := d.unskippable } }

/-! ### What actions do -/

theorem offers_eq (e : Editor) : Editor.offers e =
    match Draft.offers e.trueCursor e.draft with
    | .ok found d => .ok found { e with draft := d }
    | .error r d => .error r { e with draft := d } := by
  simp only [Editor.offers, edit, bind, EStateM.bind, Edit.run_get]
  cases Draft.offers e.trueCursor e.draft <;> rfl

theorem findOffer_eq (text : String) (e : Editor) : findOffer text e =
    match Editor.offers e with
    | .ok found f =>
      match found.find? fun n => f.draft.literal? n == some text
          || f.draft.category? n == some text with
      | some n => .ok n f
      | none => .error (.noSuchOffer text) f
    | .error r f => .error r f := by
  simp only [findOffer, bind, EStateM.bind]
  cases Editor.offers e with
  | error r f => rfl
  | ok found f =>
    simp only [Edit.run_get]
    cases found.find? _ <;> rfl

theorem after_offers (e : Editor) :
    after Editor.offers e = { e with draft := Draft.after (Draft.offers e.trueCursor) e.draft } := by
  rw [after, offers_eq, Draft.after]
  cases Draft.offers e.trueCursor e.draft <;> rfl

/-- The editor once a leaf has been filled. -/
def chosen (e : Editor) (n : NodeId) (d : Draft) : Editor :=
  if (d.role? n).any Role.isLayout then { e with draft := d } else { e with draft := d }.advance n

theorem choose_eq (n : NodeId) (value : Option String) (e : Editor) : choose n value e =
    match fillWith n value e.draft with
    | .ok _ d => .ok () (e.chosen n d)
    | .error r d => .error r { e with draft := d } := by
  simp only [choose, edit, bind, EStateM.bind]
  cases fillWith n value e.draft <;> rfl

@[simp] theorem draft_advance (e : Editor) (n : NodeId) : (e.advance n).draft = e.draft := rfl

@[simp] theorem cursor_advance (e : Editor) (n : NodeId) : (e.advance n).cursor = some n := rfl

theorem cursorIndex?_lt {i : Nat} (h : e.cursorIndex? = some i) : i < e.chain.length := by
  obtain ⟨c, -, hi⟩ := Option.bind_eq_some_iff.1 h
  exact (List.idxOf?_eq_some_iff.1 hi).1

theorem mem_chain_advance (e : Editor) (n : NodeId) :
    m ∈ (e.advance n).chain ↔ m = n ∨ m ∈ e.chain := by
  refine List.mem_insertIdx ?_
  split
  · exact Nat.zero_le _
  · rename_i i hi
    exact cursorIndex?_lt hi

@[simp] theorem draft_chosen (e : Editor) (n : NodeId) (d : Draft) : (e.chosen n d).draft = d := by
  unfold chosen
  split <;> rfl

theorem draft_after_choose (e : Editor) (n : NodeId) (value : Option String) :
    (after (choose n value) e).draft = Draft.after (fillWith n value) e.draft := by
  rw [after, choose_eq, Draft.after]
  cases fillWith n value e.draft with
  | ok u d => exact draft_chosen e n d
  | error r d => rfl

theorem mem_chain_of_moveLeft (h : e.moveLeft.cursor = some n) : n ∈ e.chain := by
  unfold moveLeft at h
  dsimp only at h
  split at h
  · exact List.mem_of_getElem? h
  · cases h
  · cases h

theorem mem_chain_of_moveRight (h : e.moveRight.cursor = some n) :
    n ∈ e.chain ∨ e.cursor = some n := by
  have hor : ∀ i : Nat, (e.chain[i]? <|> e.cursor) = some n → n ∈ e.chain ∨ e.cursor = some n := by
    intro i hi
    rcases hc : e.chain[i]? with _ | m
    · rw [hc] at hi
      exact Or.inr hi
    · rw [hc] at hi
      cases hi
      exact Or.inl (List.mem_of_getElem? hc)
  exact hor _ h

/-! ### Editors in order -/

/-- An editor in order. -/
structure Orderly (e : Editor) : Prop where
  sound : e.draft.Sound
  blank : e.draft.Blank
  joined : e.draft.Joined
  chain : ∀ n ∈ e.chain, n ∈ e.draft.leaves
  cursor : ∀ n ∈ e.cursor, n ∈ e.chain

theorem orderly_start (hg : g.WellFormed) (settings : Settings) :
    (Editor.start g settings []).Orderly where
  sound := sound_start hg settings
  blank := blank_start g settings []
  joined := joined_start g settings []
  chain := fun n hn => by cases hn
  cursor := fun n hn => by cases hn

/-- The search goes on behind a filled leaf. -/
theorem Orderly.trueCursor (h : e.Orderly) : ∀ n ∈ e.trueCursor, n ∈ e.draft.leaves := by
  intro n hn
  rw [Editor.trueCursor, Option.mem_def, Option.map_eq_some_iff] at hn
  obtain ⟨c, hc, hn⟩ := hn
  have hcl := h.chain c (h.cursor c hc)
  split at hn
  · rcases hb : e.draft.blocks? c with _ | b
    · simp only [hb, Option.bind_none, Option.getD_none] at hn
      exact hn ▸ hcl
    · rcases hlast : b.last? with _ | k
      · simp only [hb, Option.bind_some, hlast, Option.getD_none] at hn
        exact hn ▸ hcl
      · simp only [hb, Option.bind_some, hlast, Option.getD_some] at hn
        subst hn
        refine h.joined c b hb k ?_
        unfold Blocks.last? at hlast
        rcases hs : b.starts.getLast? with _ | x
        · rw [hs] at hlast
          exact List.mem_append_right _ (List.mem_of_getLast? hlast)
        · rw [hs] at hlast
          cases hlast
          exact List.mem_append_left _ (List.mem_of_getLast? hs)
  · exact hn ▸ hcl

theorem Orderly.keeps (h : e.Orderly) (hk : Keeps e.draft d) (hb : d.Blank) :
    Orderly { e with draft := d } where
  sound := hk.sound
  blank := hb
  joined := h.joined.keeps h.sound hk hb
  chain := fun n hn => by
    rw [hk.leaves h.sound]
    exact h.chain n hn
  cursor := h.cursor

theorem Orderly.keeps_offers (h : e.Orderly) :
    Keeps e.draft (Draft.after (Draft.offers e.trueCursor) e.draft) :=
  h.sound.keeps_offers fun n hn => (h.sound.mem_leaves.1 (h.trueCursor n hn)).1

theorem Orderly.after_offers (h : e.Orderly) : (after Editor.offers e).Orderly := by
  rw [Editor.after_offers]
  exact h.keeps h.keeps_offers (h.blank.moves ((wanders_offers _).moves _))

/-- What an editor offers are leaves that its draft has after the search. -/
theorem offers_eq_ok {found : List NodeId} (ho : Editor.offers e = .ok found f) :
    Draft.offers e.trueCursor e.draft = .ok found f.draft ∧ f = { e with draft := f.draft } := by
  rw [offers_eq] at ho
  rcases hd : Draft.offers e.trueCursor e.draft with ⟨found', d⟩ | ⟨r, d⟩
  · rw [hd] at ho
    simp only [EStateM.Result.ok.injEq] at ho
    obtain ⟨rfl, rfl⟩ := ho
    exact ⟨rfl, rfl⟩
  · rw [hd] at ho
    cases ho

theorem Orderly.keeps_of_offers (h : e.Orderly) {found : List NodeId}
    (ho : Editor.offers e = .ok found f) : Keeps e.draft f.draft := by
  have hk := h.keeps_offers
  rwa [Draft.after, (offers_eq_ok ho).1] at hk

theorem Orderly.hasNode_of_offers (h : e.Orderly) {found : List NodeId}
    (ho : Editor.offers e = .ok found f) : ∀ n ∈ found, f.draft.HasNode n :=
  h.sound.hasNode_of_offers (fun n hn => (h.sound.mem_leaves.1 (h.trueCursor n hn)).1)
    (offers_eq_ok ho).1

/-- The chain and the cursor may be brought up to date once a leaf is filled. -/
theorem orderly_chosen (hd : Orderly { e with draft := d }) (hn : n ∈ d.leaves) :
    (e.chosen n d).Orderly := by
  unfold Editor.chosen
  split
  · exact hd
  · refine ⟨hd.sound, hd.blank, hd.joined, fun m hm => ?_, fun m hm => ?_⟩
    · rcases (mem_chain_advance _ n).1 hm with rfl | hm
      · exact hn
      · exact hd.chain m hm
    · rw [cursor_advance, Option.mem_some] at hm
      exact (mem_chain_advance _ n).2 (Or.inl hm.symm)

theorem Orderly.fills {mid : Draft} (h : e.Orderly) (hn : e.draft.HasNode n)
    (hp : Puts e.draft n mid) (ha : d = mid.place n ∨ Acts (mid.place n) n d) :
    Orderly { e with draft := d } ∧ n ∈ d.leaves := by
  have hr : Retouches (mid.place n) d := by
    rcases ha with rfl | ha
    · exact .refl _
    · exact retouches_acts ha
  have hf := hp.fills hr
  refine ⟨⟨(hf.sound h.sound hn).1, h.blank.fills h.sound hn hp ha, h.joined.fills h.sound hn hp ha,
    fun m hm => ?_, h.cursor⟩, (hf.mem_leaves h.sound hn).1⟩
  exact (hf.mem_leaves h.sound hn).2 m (h.chain m hm)

theorem Orderly.given (h : e.Orderly) (hp : (e.draft.node n).placed = true)
    (hd : Given e.draft n d) : Orderly { e with draft := d } := by
  have hr := hd.retouches
  refine ⟨h.sound.of_retouches hr, fun m hm => ?_, ?_, fun m hm => ?_, h.cursor⟩
  · rw [hr.placed] at hm
    rw [hd.node]
    · exact h.blank m hm
    · rintro rfl
      rw [hp] at hm
      cases hm
  · exact h.joined.of_notes hd.note fun m hm => by
      rw [hr.leaves]
      exact hm
  · rw [hr.leaves]
    exact h.chain m hm

theorem Orderly.after_choose (h : e.Orderly) (hn : e.draft.HasNode n) (value : Option String) :
    (after (Editor.choose n value) e).Orderly := by
  rw [after, choose_eq]
  have hout := fillOutcome_fillWith hn value
  generalize fillWith n value e.draft = result at hout
  cases hout with
  | refused => exact h
  | @already d hl hp hd =>
    refine orderly_chosen (h.given hp hd) ?_
    rw [hd.retouches.leaves]
    exact h.sound.mem_leaves.2 ⟨hp, hl⟩
  | @filled mid d hp ha =>
    obtain ⟨hd, hl⟩ := h.fills hn hp (Or.inr (acts_onFill ha))
    exact orderly_chosen hd hl
  | @stuck mid r hp ha => exact (h.fills hn hp (Or.inl rfl)).1

theorem Orderly.after_act (h : e.Orderly) {a : Action} (ha : a.On e) : (a.after e).Orderly := by
  cases a with
  | search => exact h.after_offers
  | choose n value => exact h.after_choose ha value
  | moveLeft =>
    exact ⟨h.sound, h.blank, h.joined, h.chain, fun n hn =>
      mem_chain_of_moveLeft (e := e) hn⟩
  | moveRight =>
    refine ⟨h.sound, h.blank, h.joined, h.chain, fun n hn => ?_⟩
    exact (mem_chain_of_moveRight hn).elim id fun hc => h.cursor n hc

/-- Whatever a writer does, the editor stays in order, and its draft is one that calls lead to. -/
theorem Reached.orderly (hg : g.WellFormed) (h : Reached g e) :
    e.Orderly ∧ Draft.Reached g e.draft := by
  induction h with
  | start settings => exact ⟨orderly_start hg settings, .start settings⟩
  | @act e a h ha ih =>
    obtain ⟨ho, hd⟩ := ih
    refine ⟨ho.after_act ha, ?_⟩
    cases a with
    | search =>
      have hcall : (Call.offers e.trueCursor).On e.draft := by
        rcases hc : e.trueCursor with _ | n
        · trivial
        · exact hasNode_of_placed (ho.sound.mem_leaves.1 (ho.trueCursor n hc)).1
      rw [Action.after, Editor.after_offers]
      exact hd.call hcall
    | choose n value =>
      rw [Action.after, draft_after_choose]
      exact hd.call (c := .fillWith n value) ha
    | moveLeft => exact hd
    | moveRight => exact hd
  | @share e d h h' ih =>
    obtain ⟨ho, hd⟩ := ih
    have hshare := Draft.Reached.share hd h'
    exact ⟨ho.keeps (ho.sound.remember (hshare.sound hg).1.honest) ho.blank, hshare⟩

theorem Reached.of_offers (h : Reached g e) {found : List NodeId}
    (ho : Editor.offers e = .ok found f) : Reached g f := by
  have hf := h.act (a := .search) trivial
  rwa [Action.after, after, ho] at hf

theorem Reached.of_choose (h : Reached g e) (hn : e.draft.HasNode n) :
    Reached g (after (choose n value) e) :=
  h.act (a := .choose n value) hn

end Editor

end Cloze
