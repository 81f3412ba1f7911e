import Cloze.Proofs.Editing
import Cloze.Proofs.Spelling

/-!
# The chain reads like the draft

Over a grammar without roles a writer moves and chooses what is offered. As long as every choice is
made behind a leaf, or in an empty draft, the chain lists the leaves of the draft in reading order,
and every offer can be taken (`chain_reads_leaves`).

It is not so before a first leaf. There the search sets out as in an empty draft, along first
branches and first slots, and comes to a leaf that is placed, or to one in a branch that was not
taken (`placed_leaf_chosen_twice`, `offer_in_conflict`).
-/

namespace Cloze.Editor

open Draft

variable {e e₁ f : Editor} {n : NodeId} {value : Option String} {g : Grammar}
  {allowed : Editor → Prop}

/-- The editors that a writer comes to by moves and by choosing offers. `allowed` says where a
choice may be made. -/
inductive Run (g : Grammar) (allowed : Editor → Prop) : Editor → Prop
  | start (settings : Settings) {shared : Draft} (h : Draft.Reached g shared) :
      Run g allowed (Editor.start g settings shared.unskippable)
  | moveLeft {e : Editor} (h : Run g allowed e) : Run g allowed e.moveLeft
  | moveRight {e : Editor} (h : Run g allowed e) : Run g allowed e.moveRight
  | choose {e e₁ : Editor} {found : List NodeId} {n : NodeId} {value : Option String}
      (h : Run g allowed e) (ha : allowed e) (ho : Editor.offers e = .ok found e₁)
      (hn : n ∈ found) : Run g allowed (after (Editor.choose n value) e₁)

/-- The cursor is behind a leaf, or there is none yet. -/
def Ready (e : Editor) : Prop :=
  e.cursor ≠ none ∨ e.chain = []

theorem Run.reached (hg : g.WellFormed) (h : Run g allowed e) : Reached g e := by
  induction h with
  | @start settings shared h => exact Reached.share (d := shared) (.start settings) h
  | moveLeft _ ih => exact ih.act (a := .moveLeft) trivial
  | moveRight _ ih => exact ih.act (a := .moveRight) trivial
  | choose _ _ ho hn ih => exact (ih.of_offers ho).of_choose ((ih.orderly hg).1.hasNode_of_offers ho _ hn)

/-! ### Behind the cursor -/

theorem insertIdx_length_append {α : Type} (xs ys : List α) (x : α) :
    (xs ++ ys).insertIdx xs.length x = xs ++ x :: ys := by
  induction xs with
  | nil => rfl
  | cons y xs ih => simp [ih]

/-- A leaf enters the chain behind the cursor. -/
theorem chain_advance {xs ys : List NodeId} (hc : e.chain = xs ++ ys)
    (hx : xs.getLast? = e.cursor) (hnodup : e.chain.Nodup) :
    (e.advance n).chain = xs ++ n :: ys := by
  rcases List.eq_nil_or_concat xs with rfl | ⟨zs, c, rfl⟩
  · rw [List.getLast?_nil] at hx
    simp [advance, cursorIndex?, ← hx, hc]
  · rw [List.concat_eq_append, List.getLast?_concat] at hx
    rw [List.concat_eq_append] at hc ⊢
    have hidx : e.cursorIndex? = some zs.length := by
      have hnot : c ∉ zs := by
        rw [hc, List.append_assoc] at hnodup
        exact fun hmem => (List.nodup_append.1 hnodup).2.2 c hmem c (by simp) rfl
      rw [cursorIndex?, ← hx, Option.bind_some, hc, List.idxOf?_eq_some_iff]
      refine ⟨by simp, by simp, fun j hj heq => hnot ?_⟩
      have hget : zs[j] = c := by simpa [hj] using heq
      exact List.mem_of_getElem hget
    have hins := insertIdx_length_append (zs ++ [c]) ys n
    rw [List.length_append] at hins
    simp only [advance, hidx, hc]
    exact hins

theorem trueCursor_of_roles (hroles : ∀ x, (e.draft.grammar.symbol x).role = none) :
    e.trueCursor = e.cursor := by
  have hrole : ∀ n, e.draft.role? n = none := fun n => hroles _
  simp [Editor.trueCursor, hrole]

/-! ### Offers where a choice may be made -/

/-- The chain of the editor lists the leaves of its draft. -/
structure InStep (g : Grammar) (e : Editor) : Prop where
  reached : Reached g e
  chain : e.chain = e.draft.leaves

theorem root_chosen_eq_none {d : Draft} (h : d.Sound) (hl : d.leaves = []) : d.root.chosen = none := by
  by_contra hne
  obtain ⟨k, hk⟩ := Option.ne_none_iff_exists'.1 hne
  obtain ⟨j, s, hs, hcont⟩ := (h.settled.chosen ⟨0⟩ k).1 hk
  obtain ⟨m, hm⟩ := List.exists_mem_of_ne_nil _ hcont
  obtain ⟨hp, hslot⟩ := (h.settled.content s m).1 hm
  have hroot := ((h.linked.choice ⟨0⟩ h.linked.root).slots k j s hs).2.1
  have hmem : m ∈ d.contentOf ⟨0⟩ :=
    (h.settled.mem_contentOf h.linked).2 ⟨hp, by rw [choiceAround, hslot, hroot]⟩
  rw [leaves_eq, List.flatMap_eq_nil_iff] at hl
  exact h.under_ne_nil hp (hl m hmem)

/-- In an empty draft an offer may be placed before everything. -/
theorem offer_of_empty {d d₁ : Draft} (h : d.Sound) (hl : d.leaves = []) {found : List NodeId}
    (ho : Draft.offers none d = .ok found d₁) (hn : n ∈ found) : d₁.isLeaf n = true
      ∧ (d₁.node n).placed = false ∧ d₁.checkPlace n = .ok () ∧ d₁.before n = [] := by
  have hfront : Front d.grammar d none := root_chosen_eq_none h hl
  obtain ⟨spec, hfinds, hmem, -⟩ := h.over.finds_front hfront
  obtain ⟨hk, ts, hts, hhas, hmap⟩ := Edit.Ensures.of_ok hfinds ho
  obtain ⟨hfront₁, hcome⟩ := hfront.keeps h hk
  have hm := (hcome _).2 ((hmem ts hts _).1 (hmap ▸ List.mem_map_of_mem hn))
  obtain ⟨hleaf, hgap, hok, -⟩ := (h.over.keeps hk).offer_of_mayCome hfront₁ (hhas n hn) hm
  have hfills : Fills d₁ n (d₁.place n) := ⟨hleaf, hgap, hok, d₁, .refl d₁, .refl _⟩
  obtain ⟨behind, hb, -⟩ := hfills.leaves hk.sound (hhas n hn)
  rw [hk.leaves h, hl] at hb
  exact ⟨hleaf, hgap, hok, (List.append_eq_nil_iff.1 hb.symm).1⟩

/-- An offer made behind a leaf or in an empty draft may be placed right behind the cursor. -/
theorem InStep.offer (h : InStep g e) (hg : g.WellFormed) (hroles : ∀ x, (g.symbol x).role = none)
    (hr : e.Ready) {found : List NodeId} (ho : Editor.offers e = .ok found e₁) (hn : n ∈ found) :
    e₁.draft.isLeaf n = true ∧ (e₁.draft.node n).placed = false
      ∧ e₁.draft.checkPlace n = .ok () ∧ (e₁.draft.before n).getLast? = e₁.cursor := by
  obtain ⟨hord, hd⟩ := h.reached.orderly hg
  obtain ⟨hfound, he₁⟩ := offers_eq_ok ho
  have hcursor : e₁.cursor = e.cursor := by rw [he₁]
  rw [trueCursor_of_roles (by rw [(hd.sound hg).2]; exact hroles)] at hfound
  rw [hcursor]
  rcases hc : e.cursor with _ | c
  · have hchain : e.chain = [] := hr.resolve_left (by simp [hc])
    rw [hc] at hfound
    obtain ⟨h1, h2, h3, h4⟩ := offer_of_empty hord.sound (h.chain.symm.trans hchain) hfound hn
    exact ⟨h1, h2, h3, by rw [h4, List.getLast?_nil]⟩
  · obtain ⟨hp, hl⟩ := hord.sound.mem_leaves.1 (hord.chain c (hord.cursor c hc))
    rw [hc] at hfound
    obtain ⟨-, -, h1, h2, h3, h4⟩ := hord.sound.offer_of_offers hp hl hfound hn
    exact ⟨h1, h2, h3, by rw [h4, List.getLast?_concat]⟩

theorem InStep.offers (h : InStep g e) (hg : g.WellFormed) {found : List NodeId}
    (ho : Editor.offers e = .ok found e₁) : InStep g e₁ := by
  have hord := (h.reached.orderly hg).1
  refine ⟨h.reached.of_offers ho, ?_⟩
  rw [(hord.keeps_of_offers ho).leaves hord.sound, ← h.chain, (offers_eq_ok ho).2]

/-- A role that there is not does nothing. -/
theorem onFill_of_role {d : Draft} (hr : d.role? n = none) : d.onFill n = .ok d := by
  rw [onFill, hr]

theorem Run.inStep (hg : g.WellFormed) (hroles : ∀ x, (g.symbol x).role = none)
    (h : Run g Ready e) : InStep g e := by
  have hreached := h.reached hg
  refine ⟨hreached, ?_⟩
  induction h with
  | start => rfl
  | moveLeft h ih => exact ih (h.reached hg)
  | moveRight h ih => exact ih (h.reached hg)
  | @choose e e₁ found n value h ha ho hn ih =>
    have hin : InStep g e := ⟨h.reached hg, ih (h.reached hg)⟩
    have hin₁ := hin.offers hg ho
    obtain ⟨hord, hd⟩ := hin₁.reached.orderly hg
    obtain ⟨hleaf, hgap, hok, hbefore⟩ := hin.offer hg hroles ha ho hn
    have hnode := (hin.reached.orderly hg).1.hasNode_of_offers ho n hn
    have hrole : ∀ d : Draft, SameLinks e₁.draft d → d.role? n = none := fun d hsl => by
      rw [role?, hsl.symbol, symbol, (hd.sound hg).2]
      exact hroles _
    rw [after, choose_eq]
    have hout := fillOutcome_fillWith hnode value
    generalize fillWith n value e₁.draft = result at hout
    cases hout with
    | refused => exact hin₁.chain
    | already hl hp hd =>
      rw [hp] at hgap
      cases hgap
    | @filled mid d hp ha =>
      have hf := hp.fills (retouches_onFill ha)
      obtain ⟨hs, hsl⟩ := hf.sound hord.sound hnode
      obtain ⟨behind, hb₁, hb₂⟩ := hf.leaves hord.sound hnode
      rw [draft_chosen, hb₂]
      simp only [Editor.chosen, hrole d hsl, Option.any_none, Bool.false_eq_true, if_false]
      refine chain_advance (e := { e₁ with draft := d }) (hin₁.chain.trans hb₁) hbefore ?_
      rw [show Editor.chain { e₁ with draft := d } = e₁.draft.leaves from hin₁.chain]
      exact hord.sound.nodup_leaves
    | @stuck mid r hp ha =>
      have hsl := ((hp.fills (.refl _)).sound hord.sound hnode).2
      rw [onFill_of_role (hrole _ hsl)] at ha
      cases ha

/-- A leaf without a role that may be placed is chosen with what suits it. -/
theorem choose_of_suits (h : e.draft.Sound) (hn : e.draft.HasNode n) (hl : e.draft.isLeaf n = true)
    (hp : (e.draft.node n).placed = false) (hok : e.draft.checkPlace n = .ok ())
    (hr : e.draft.role? n = none) (hv : e.draft.Suits n value) :
    ∃ f, choose n value e = .ok () f := by
  have hfills := Fills.after_fillWith hn hl hp hok hv
  rw [choose_eq]
  have hout := fillOutcome_fillWith hn value
  rw [Draft.after] at hfills
  generalize fillWith n value e.draft = result at hfills hout
  cases hout with
  | refused =>
    have hplaced := (hfills.isPlaced h hn).1
    rw [hp] at hplaced
    cases hplaced
  | already => exact ⟨_, rfl⟩
  | filled => exact ⟨_, rfl⟩
  | @stuck mid r hputs ha =>
    have hsl := ((hputs.fills (.refl _)).sound h hn).2
    rw [onFill_of_role (by rw [role?, hsl.symbol]; exact hr)] at ha
    cases ha

/-- Over a grammar without roles the chain lists the leaves of the draft, each once, as long as
every choice is made behind a leaf or in an empty draft, and what is offered there can be taken. -/
theorem chain_reads_leaves {definition : Grammar.Definition} (hg : definition.build = .ok g)
    (hroles : ∀ x, (g.symbol x).role = none) (h : Run g Ready e) :
    e.chain = e.draft.leaves ∧ e.chain.Nodup ∧ (∀ n ∈ e.cursor, n ∈ e.chain) ∧
    (e.Ready → ∀ found e₁, Editor.offers e = .ok found e₁ → ∀ n ∈ found,
      e₁.draft.isPlaced n = false ∧ (∃ value f, choose n value e₁ = .ok () f) ∧
      ∀ value, e₁.draft.Suits n value → ∃ f, choose n value e₁ = .ok () f) := by
  have hwf := Grammar.Definition.wellFormed_build hg
  have hin := h.inStep hwf hroles
  obtain ⟨hord, hd⟩ := hin.reached.orderly hwf
  refine ⟨hin.chain, hin.chain ▸ hord.sound.nodup_leaves, hord.cursor,
    fun hr found e₁ ho n hn => ?_⟩
  obtain ⟨hleaf, hgap, hok, -⟩ := hin.offer hwf hroles hr ho hn
  have hnode := hord.hasNode_of_offers ho n hn
  obtain ⟨hord₁, hd₁⟩ := (hin.offers hwf ho).reached.orderly hwf
  have hrole : e₁.draft.role? n = none := by
    rw [role?, symbol, (hd₁.sound hwf).2]
    exact hroles _
  refine ⟨hgap, ?_, fun value => choose_of_suits hord₁.sound hnode hleaf hgap hok hrole⟩
  obtain ⟨value, d, hfill⟩ := hord₁.sound.exists_fillWith hnode hleaf hgap hok hrole
  exact ⟨value, _, by rw [choose_eq, hfill]⟩

/-! ### Before a first leaf -/

/-- Two texts, one behind the other. -/
def pair : Grammar.Definition where
  rules := [("pair", [[.literal "a" .once, .literal "b" .once]])]

/-- One of two texts. -/
def either : Grammar.Definition where
  rules := [("either", [[.literal "a" .once], [.literal "b" .once]])]

def pairGrammar : Grammar := pair.build.toOption.getD default

def eitherGrammar : Grammar := either.build.toOption.getD default

theorem role_pair (x : Grammar.SymbolId) : (pairGrammar.symbol x).role = none := by
  have h : ∀ s ∈ pairGrammar.symbols, s.role = none := by decide +kernel
  rw [Grammar.symbol, Array.getD_eq_getD_getElem?]
  rcases hx : pairGrammar.symbols[x.index]? with _ | s
  · rfl
  · exact h s (Array.mem_of_getElem? hx)

/-- The editor once the offers have been looked at and one of them has been chosen. -/
def pick (n : NodeId) (e : Editor) : Editor :=
  after (choose n none) (after Editor.offers e)

theorem Run.pick (h : Run g allowed e) (n : NodeId) (found : List NodeId) (ha : allowed e)
    (ho : value? Editor.offers e = some found) (hn : n ∈ found) : Run g allowed (e.pick n) :=
  h.choose ha (eq_ok_of_value? ho) hn

/-- The first text is chosen, and both stand in the chain in the end. -/
theorem chain_of_pair : ∃ e, Run pairGrammar Ready e ∧ e.draft.leaves = [⟨0⟩, ⟨1⟩] ∧
    e.chain = e.draft.leaves := by
  have h₀ : Run pairGrammar Ready (Editor.start pairGrammar {} []) := .start {} (.start {})
  have h₁ := h₀.pick ⟨0⟩ [⟨0⟩] (Or.inr rfl) (by decide +kernel) (by simp)
  have h₂ := h₁.pick ⟨1⟩ [⟨1⟩] (Or.inl (by decide +kernel)) (by decide +kernel) (by simp)
  refine ⟨_, h₂, by decide +kernel, ?_⟩
  exact (chain_reads_leaves (Grammar.Definition.build_eq_ok (by decide +kernel)) role_pair h₂).1

/-- Before the first leaf that leaf is offered once more, and stands in the chain twice then. -/
theorem placed_leaf_chosen_twice : ∃ e, Run pairGrammar (fun _ => True) e ∧
    e.chain = [⟨0⟩, ⟨0⟩] ∧ e.draft.leaves = [⟨0⟩] := by
  have h₀ : Run pairGrammar (fun _ => True) (Editor.start pairGrammar {} []) := .start {} (.start {})
  have h₁ := h₀.pick ⟨0⟩ [⟨0⟩] trivial (by decide +kernel) (by simp)
  have h₂ := h₁.moveLeft.pick ⟨0⟩ [⟨0⟩] trivial (by decide +kernel) (by simp)
  exact ⟨_, h₂, by decide +kernel, by decide +kernel⟩

/-- Before a leaf of the second branch a leaf of the first is offered, which cannot be placed. -/
theorem offer_in_conflict : ∃ e e₁ r f, Run eitherGrammar (fun _ => True) e ∧
    e.draft.leaves = [⟨1⟩] ∧ Editor.offers e = .ok [⟨0⟩] e₁ ∧ choose ⟨0⟩ none e₁ = .error r f := by
  have h₀ : Run eitherGrammar (fun _ => True) (Editor.start eitherGrammar {} []) :=
    .start {} (.start {})
  have h₁ := h₀.pick ⟨1⟩ [⟨0⟩, ⟨1⟩] trivial (by decide +kernel) (by simp)
  exact ⟨_, _, .branchConflict ⟨0⟩ 0 1, _, h₁.moveLeft, by decide +kernel,
    eq_ok_of_value? (by decide +kernel), eq_error_of_refusal? (by decide +kernel)⟩

end Cloze.Editor
