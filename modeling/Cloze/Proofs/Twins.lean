import Cloze.Proofs.Alike
import Cloze.Proofs.Editing

/-!
# Offers depend on the content alone

What a search finds depends on what has been filled, and not on what earlier searches left behind:
gaps, choices of references, symbols remembered as unskippable. So two drafts with the same content
offer the same symbols in the same order, and two editors in which the same has been chosen by its
number among the offers show the same at every turn, whether they remember anything or not
(`offers_depend_on_content`).
-/

namespace Cloze

open Draft

namespace Editor

variable {R : NodeId → NodeId → Prop} {e f e₁ f₁ : Editor} {n m : NodeId} {g : Grammar}

/-! ### Editors that are alike -/

/-- Editors over drafts that are alike, with paired chains and cursors. -/
structure Twins (R : NodeId → NodeId → Prop) (e f : Editor) : Prop where
  alike : AlikeFull R e.draft f.draft
  chain : List.Forall₂ R e.chain f.chain
  cursor : Option.Rel R e.cursor f.cursor
  orderly : e.Orderly
  orderly' : f.Orderly

theorem lastBlock_rel {b b' : Blocks} (hb : SameBlocks R b b') :
    Option.Rel R b.last? b'.last? := by
  rw [Blocks.last?, Blocks.last?]
  rcases optionRel_cases (forall₂_getLast? hb.1) with ⟨h1, h2⟩ | ⟨x, y, h1, h2, hxy⟩ <;> rw [h1, h2]
  · exact forall₂_getLast? hb.2
  · exact .some hxy

theorem Twins.trueCursor (h : Twins R e f) : Option.Rel R e.trueCursor f.trueCursor := by
  obtain ⟨ha, -⟩ := h.alike
  rw [Editor.trueCursor, Editor.trueCursor]
  rcases optionRel_cases h.cursor with ⟨h1, h2⟩ | ⟨n, m, h1, h2, hR⟩ <;> rw [h1, h2]
  · exact .none
  · refine .some ?_
    dsimp only
    rw [ha.role?_eq hR]
    split
    · rcases optionRel_cases (ha.blocks? hR) with ⟨h1, h2⟩ | ⟨b, b', h1, h2, hb⟩ <;> rw [h1, h2]
      · exact hR
      · rw [Option.bind_some, Option.bind_some]
        rcases optionRel_cases (lastBlock_rel hb) with ⟨h1, h2⟩ | ⟨x, y, h1, h2, hxy⟩ <;> rw [h1, h2]
        · exact hR
        · exact hxy
    · exact hR

/-- Growth of the drafts keeps editors alike. -/
theorem Twins.keeps (h : Twins R e f) {d d' : Draft} (hd : Keeps e.draft d) (hd' : Keeps f.draft d')
    (hb : d.Blank) (hb' : d'.Blank) : Twins R { e with draft := d } { f with draft := d' } where
  alike := ⟨h.alike.1.keeps h.alike.2 hd hd', fun hR => by
    rw [hd.grows.placed]
    exact h.alike.2 hR⟩
  chain := h.chain
  cursor := h.cursor
  orderly := h.orderly.keeps hd hb
  orderly' := h.orderly'.keeps hd' hb'

/-- Searches in editors that are alike end alike. -/
theorem Twins.offers (h : Twins R e f) : Twins R (after Editor.offers e) (after Editor.offers f) ∧
    ((∃ found found', Editor.offers e = .ok found (after Editor.offers e) ∧
        Editor.offers f = .ok found' (after Editor.offers f) ∧
        found.map (after Editor.offers e).draft.trail
          = found'.map (after Editor.offers f).draft.trail) ∨
      ∃ rule rule', Editor.offers e
          = .error (.tooDeep rule e.draft.settings.recursionLimit) (after Editor.offers e) ∧
        Editor.offers f
          = .error (.tooDeep rule' f.draft.settings.recursionLimit) (after Editor.offers f)) := by
  obtain ⟨ha, hfull⟩ := h.alike
  have hagree := ha.agree ha.sound ha.sound' ha.limit h.trueCursor
    fun n hn => (ha.sound.mem_leaves.1 (h.orderly.trueCursor n hn)).1
  have hblank : ∀ {e : Editor}, e.Orderly →
      (Draft.after (Draft.offers e.trueCursor) e.draft).Blank := fun ho =>
    ho.blank.moves ((wanders_offers _).moves _)
  constructor
  · rw [after_offers, after_offers]
    exact h.keeps h.orderly.keeps_offers h.orderly'.keeps_offers (hblank h.orderly)
      (hblank h.orderly')
  · rw [after, after, offers_eq, offers_eq]
    generalize Draft.offers e.trueCursor e.draft = result at hagree ⊢
    generalize Draft.offers f.trueCursor f.draft = result' at hagree ⊢
    cases hagree with
    | found hd he hns hms ht => exact Or.inl ⟨_, _, rfl, rfl, ht⟩
    | tooDeep => exact Or.inr ⟨_, _, rfl, rfl⟩

theorem forall₂_getElem? {xs ys : List NodeId} (h : List.Forall₂ R xs ys) (i : Nat) :
    Option.Rel R xs[i]? ys[i]? := by
  rcases hx : xs[i]? with _ | x
  · rw [List.getElem?_eq_none_iff, h.length_eq, ← List.getElem?_eq_none_iff] at hx
    rw [hx]
    exact .none
  · obtain ⟨y, hy, hxy⟩ := forall₂_getElem?_left h hx
    rw [hy]
    exact .some hxy

theorem forall₂_idxOf? {xs ys : List NodeId} (h : List.Forall₂ R xs ys) (hu : Relator.BiUnique R)
    (hR : R n m) : ys.idxOf? m = xs.idxOf? n := by
  induction h with
  | nil => rfl
  | @cons x y xs ys hxy _ ih =>
    have heq : y = m ↔ x = n := by
      constructor
      · rintro rfl
        exact hu.1 hxy hR
      · rintro rfl
        exact hu.2 hxy hR
    simp only [List.idxOf?_cons, ih, beq_iff_eq, heq]

theorem Twins.cursorIndex?_eq (h : Twins R e f) : f.cursorIndex? = e.cursorIndex? := by
  rw [cursorIndex?, cursorIndex?]
  rcases optionRel_cases h.cursor with ⟨h1, h2⟩ | ⟨n, m, h1, h2, hR⟩ <;> rw [h1, h2]
  · rfl
  · exact forall₂_idxOf? h.chain h.alike.1.unique hR

theorem Twins.moveLeft (h : Twins R e f) : Twins R e.moveLeft f.moveLeft := by
  refine ⟨h.alike, h.chain, ?_, h.orderly.after_act (a := .moveLeft) trivial,
    h.orderly'.after_act (a := .moveLeft) trivial⟩
  simp only [Editor.moveLeft, h.cursorIndex?_eq]
  split
  · exact forall₂_getElem? h.chain _
  · exact .none
  · exact .none

theorem Twins.moveRight (h : Twins R e f) : Twins R e.moveRight f.moveRight := by
  refine ⟨h.alike, h.chain, ?_, h.orderly.after_act (a := .moveRight) trivial,
    h.orderly'.after_act (a := .moveRight) trivial⟩
  have hnext : ∀ i : Nat, Option.Rel R (e.chain[i]? <|> e.cursor) (f.chain[i]? <|> f.cursor) := by
    intro i
    rcases optionRel_cases (forall₂_getElem? h.chain i) with ⟨h1, h2⟩ | ⟨x, y, h1, h2, hxy⟩ <;>
      rw [h1, h2]
    · exact h.cursor
    · exact .some hxy
  simp only [Editor.moveRight, h.cursorIndex?_eq]
  exact hnext _

/-- A leaf enters both chains at the same place. -/
theorem Twins.chain_advance (h : Twins R e f) {S : NodeId → NodeId → Prop}
    (hRS : ∀ x y, R x y → S x y) (hS : S n m) :
    List.Forall₂ S (e.advance n).chain (f.advance m).chain := by
  simp only [Editor.advance, h.cursorIndex?_eq]
  exact forall₂_insertIdx hS (h.chain.imp hRS) _

/-- Choosing what was found at the same place ends alike. -/
theorem Twins.choose (h : Twins R e f) (hn : e.draft.HasNode n) (hm : f.draft.HasNode m)
    (ht : e.draft.trail n = f.draft.trail m) (value : Option String) :
    ∃ S, Twins S (after (Editor.choose n value) e) (after (Editor.choose m value) f) := by
  have ho := h.orderly.after_choose hn value
  have ho' := h.orderly'.after_choose hm value
  have hend := h.alike.fillWith h.orderly.blank h.orderly'.blank hn hm ht value
  rw [after, choose_eq] at ho ho' ⊢
  rw [after, choose_eq]
  generalize fillWith n value e.draft = result at hend ho ⊢
  generalize fillWith m value f.draft = result' at hend ho' ⊢
  have hcursor : ∀ {S : NodeId → NodeId → Prop}, (∀ x y, R x y → S x y) →
      Option.Rel S e.cursor f.cursor := by
    intro S hRS
    rcases optionRel_cases h.cursor with ⟨h1, h2⟩ | ⟨x, y, h1, h2, hxy⟩ <;> rw [h1, h2]
    · exact .none
    · exact .some (hRS x y hxy)
  cases hend with
  | error hbad =>
    obtain ⟨S, hRS, hbad⟩ := hbad
    exact ⟨S, hbad, h.chain.imp hRS, hcursor hRS, ho, ho'⟩
  | @ok d d' hgood =>
    obtain ⟨S, hRS, hgood, hS⟩ := hgood
    refine ⟨S, by simpa using hgood, ?_, ?_, ho, ho'⟩
    all_goals
      simp only [Editor.chosen, hgood.1.role?_eq hS]
      split
    · exact h.chain.imp hRS
    · exact h.chain_advance hRS hS
    · exact hcursor hRS
    · exact .some hS

/-! ### What is shown -/

/-- The symbols on offer, in the order they are found; none if the search is refused. -/
def offered (e : Editor) : Option (List Grammar.SymbolId) :=
  match Editor.offers e with
  | .ok found f => some (found.map fun n => (f.draft.node n).symbol)
  | .error _ _ => none

theorem symbols_of_trails {d d' : Draft} (hl : d.Linked) (hl' : d'.Linked)
    (hg : d'.grammar = d.grammar) {ns ms : List NodeId} (hns : ∀ n ∈ ns, d.HasNode n)
    (hms : ∀ m ∈ ms, d'.HasNode m) (ht : ns.map d.trail = ms.map d'.trail) :
    ns.map (fun n => (d.node n).symbol) = ms.map fun m => (d'.node m).symbol := by
  have hsymbol : ∀ {d : Draft}, d.Linked → ∀ {ns : List NodeId}, (∀ n ∈ ns, d.HasNode n) →
      ns.map (fun n => (d.node n).symbol)
        = (ns.map d.trail).map fun t => (t.headD default).symbol d.grammar := by
    intro d hl ns hns
    rw [List.map_map]
    refine List.map_congr_left fun n hn => ?_
    rw [Function.comp_apply, hl.trail_eq (hns n hn), List.headD_cons, hl.symbol_level (hns n hn)]
  rw [hsymbol hl hns, hsymbol hl' hms, ht, hg]

theorem Twins.offered_eq (h : Twins R e f) : f.offered = e.offered := by
  obtain ⟨hafter, hend⟩ := h.offers
  obtain ⟨ha, -⟩ := hafter.alike
  rcases hend with ⟨found, found', ho, ho', ht⟩ | ⟨rule, rule', ho, ho'⟩
  · have hsym := symbols_of_trails ha.left ha.right ha.grammar (h.orderly.hasNode_of_offers ho)
      (h.orderly'.hasNode_of_offers ho') ht
    simp only [offered, ho, ho', hsym]
  · simp only [offered, ho, ho']

theorem leafText?_eq {d d' : Draft} (h : Alike R d d') (hR : R n m) :
    View.leafText? d' m = View.leafText? d n := by
  rw [View.leafText?, View.leafText?, h.token hR]

theorem linesFrom_eq {d d' : Draft} (h : Alike R d d') {ns ms : List NodeId}
    (hns : List.Forall₂ R ns ms) (line : View.Line) :
    View.linesFrom d' line ms = View.linesFrom d line ns := by
  induction hns generalizing line with
  | nil => rfl
  | cons hR _ ih => simp only [View.linesFrom, h.role?_eq hR, h.token hR, leafText?_eq h hR, ih]

theorem source_eq {d d' : Draft} (h : Alike R d d') : View.source d' = View.source d := by
  rw [View.source, View.source, View.lines, View.lines,
    linesFrom_eq h (h.leaves h.sound h.sound') {}]

theorem Twins.chainText_eq (h : Twins R e f) (hR : R n m) : f.chainText m = e.chainText n := by
  obtain ⟨ha, -⟩ := h.alike
  have hcaption : f.draft.caption m = e.draft.caption n := by
    rw [caption, caption, ha.grammar, ha.symbol_eq hR]
  have hcursor : f.cursor = some m ↔ e.cursor = some n := by
    rcases optionRel_cases h.cursor with ⟨h1, h2⟩ | ⟨x, y, h1, h2, hxy⟩ <;> rw [h1, h2]
    · simp
    · rw [Option.some.injEq, Option.some.injEq]
      exact ha.eq_iff hxy hR
  simp only [chainText, ha.role?_eq hR, leafText?_eq ha hR, hcaption, hcursor]

theorem map_eq_of_forall₂ {α β γ : Type} {P : α → β → Prop} {xs : List α} {ys : List β} {k : α → γ}
    {k' : β → γ} (h : List.Forall₂ P xs ys) (hk : ∀ x y, P x y → k' y = k x) :
    ys.map k' = xs.map k := by
  induction h with
  | nil => rfl
  | cons hxy _ ih => rw [List.map_cons, List.map_cons, hk _ _ hxy, ih]

theorem Twins.view_eq (h : Twins R e f) : f.view = e.view := by
  have htexts : f.chain.map f.chainText = e.chain.map e.chainText :=
    map_eq_of_forall₂ h.chain fun _ _ hR => h.chainText_eq hR
  have hcursor : f.cursor.isNone = e.cursor.isNone := by
    rcases optionRel_cases h.cursor with ⟨h1, h2⟩ | ⟨x, y, h1, h2, -⟩
    · rw [h1, h2]
    · rw [h1, h2]
      rfl
  rw [view, view, htexts, hcursor]

/-! ### Turns -/

/-- What a writer does in a turn: choose an offer by its number, with a value or without, or
move. -/
inductive Turn where
  | pick (index : Nat) (value : Option String)
  | left
  | right

/-- A number that is not on offer chooses nothing. -/
def Turn.after : Turn → Editor → Editor
  | .pick index value, e =>
    match Editor.offers e with
    | .ok found f =>
      match found[index]? with
      | some n => Editor.after (Editor.choose n value) f
      | none => f
    | .error _ f => f
  | .left, e => e.moveLeft
  | .right, e => e.moveRight

/-- Editors that are alike stay so if the same turn is taken in both. -/
theorem Twins.turn (h : Twins R e f) (t : Turn) : ∃ S, Twins S (t.after e) (t.after f) := by
  cases t with
  | pick index value =>
    obtain ⟨hafter, hend⟩ := h.offers
    rcases hend with ⟨found, found', ho, ho', ht⟩ | ⟨rule, rule', ho, ho'⟩
    · have hat := congrArg (fun ts => ts[index]?) ht
      simp only [List.getElem?_map] at hat
      simp only [Turn.after, ho, ho']
      rcases hx : found[index]? with _ | n <;> rcases hy : found'[index]? with _ | m <;>
        rw [hx, hy] at hat
      · exact ⟨R, hafter⟩
      · cases hat
      · cases hat
      · exact hafter.choose (h.orderly.hasNode_of_offers ho n (List.mem_of_getElem? hx))
          (h.orderly'.hasNode_of_offers ho' m (List.mem_of_getElem? hy)) (Option.some.inj hat) value
    · simp only [Turn.after, ho, ho']
      exact ⟨R, hafter⟩
  | left => exact ⟨R, h.moveLeft⟩
  | right => exact ⟨R, h.moveRight⟩

/-- The editors that a writer comes to by the given turns. Between two turns the writer may have
looked at what is on offer elsewhere, and another draft's memory may have come in. -/
inductive Session (g : Grammar) (settings : Settings) : List Turn → Editor → Prop
  | start {shared : Draft} (h : Draft.Reached g shared) :
      Session g settings [] (Editor.start g settings shared.unskippable)
  | turn {turns : List Turn} {e : Editor} (h : Session g settings turns e) (t : Turn) :
      Session g settings (turns ++ [t]) (t.after e)
  | search {turns : List Turn} {e : Editor} {c : Option NodeId} (h : Session g settings turns e)
      (hc : ∀ n ∈ c, n ∈ e.draft.leaves) :
      Session g settings turns { e with draft := Draft.after (Draft.offers c) e.draft }
  | share {turns : List Turn} {e : Editor} {d : Draft} (h : Session g settings turns e)
      (h' : Draft.Reached g d) :
      Session g settings turns { e with draft := { e.draft with unskippable := d.unskippable } }

/-- The editor after the given turns, with nothing in between. -/
def played (g : Grammar) (settings : Settings) (turns : List Turn) : Editor :=
  turns.foldl (fun e t => t.after e) (Editor.start g settings [])

theorem Reached.turn (hg : g.WellFormed) (h : Reached g e) (t : Turn) : Reached g (t.after e) := by
  cases t with
  | pick index value =>
    rcases ho : Editor.offers e with ⟨found, f⟩ | ⟨r, f⟩
    · rcases hn : found[index]? with _ | n
      · simpa only [Turn.after, ho, hn] using h.of_offers ho
      · have hc : Reached g (after (choose n value) f) := (h.of_offers ho).of_choose
          ((h.orderly hg).1.hasNode_of_offers ho n (List.mem_of_getElem? hn))
        simpa only [Turn.after, ho, hn] using hc
    · have hf := h.act (a := .search) trivial
      simpa only [Action.after, after, Turn.after, ho] using hf
  | left => exact h.act (a := .moveLeft) trivial
  | right => exact h.act (a := .moveRight) trivial

theorem reached_played (hg : g.WellFormed) (settings : Settings) (turns : List Turn) :
    Reached g (played g settings turns) := by
  have hfold : ∀ (turns : List Turn) (e : Editor), Reached g e →
      Reached g (turns.foldl (fun e t => t.after e) e) := by
    intro turns
    induction turns with
    | nil => exact fun e h => h
    | cons t turns ih => exact fun e h => ih _ (h.turn hg t)
  exact hfold turns _ (.start settings)

theorem twins_start (hg : g.WellFormed) {settings settings' : Settings}
    (hlimit : settings'.recursionLimit = settings.recursionLimit)
    (hunit : settings'.indentUnit = settings.indentUnit) {shared : Draft}
    (h : Draft.Reached g shared) : ∃ R, Twins R (Editor.start g settings [])
      (Editor.start g settings' shared.unskippable) := by
  have ho := orderly_start hg settings
  have ho' := (Reached.share (d := shared) (.start settings') h).orderly hg |>.1
  have hempty : ∀ (settings : Settings) (u : List Grammar.SymbolId) (n : NodeId),
      ((Editor.start g settings u).draft.node n).placed ≠ true := by
    intro settings u n hp
    have hn := hasNode_of_placed hp
    simp [HasNode, Editor.start, Draft.start, withChoice] at hn
  have hsame : SameContent (Editor.start g settings []).draft
      (Editor.start g settings' shared.unskippable).draft := by
    intro p
    constructor
    · rintro ⟨n, hp, -⟩
      exact absurd hp (hempty _ _ n)
    · rintro ⟨n, hp, -⟩
      exact absurd hp (hempty _ _ n)
  have hmirror := mirror_of_sameContent hsame ho.sound ho'.sound rfl
  refine ⟨_, ⟨⟨hmirror, ho.sound, ho'.sound, fun hR => ?_, fun hR => ?_, hlimit, hunit⟩,
    fun hR => hR.1⟩, .nil, .none, ho, ho'⟩
  · exact absurd hR.1 (hempty _ _ _)
  · exact absurd hR.1 (hempty _ _ _)

/-- Whatever happens between the turns, an editor is alike one in which only the turns are taken. -/
theorem Session.twins (hg : g.WellFormed) {settings settings' : Settings} {turns : List Turn}
    (h : Session g settings' turns e)
    (hlimit : settings'.recursionLimit = settings.recursionLimit)
    (hunit : settings'.indentUnit = settings.indentUnit) :
    ∃ R, Twins R (played g settings turns) e := by
  induction h with
  | start h => exact twins_start hg hlimit hunit h
  | turn h t ih =>
    obtain ⟨R, ih⟩ := ih
    rw [played, List.foldl_append]
    exact ih.turn t
  | @search turns e cursor h hc ih =>
    obtain ⟨R, ih⟩ := ih
    have hk := ih.orderly'.sound.keeps_offers fun n hn =>
      (ih.orderly'.sound.mem_leaves.1 (hc n hn)).1
    exact ⟨R, ih.keeps (.refl ih.orderly.sound) hk ih.orderly.blank
      (ih.orderly'.blank.moves ((wanders_offers _).moves _))⟩
  | @share turns e d h h' ih =>
    obtain ⟨R, ih⟩ := ih
    have hplayed := ((reached_played hg settings turns).orderly hg).2
    have hgram : d.grammar = e.draft.grammar := by
      rw [(h'.sound hg).2, ih.alike.1.grammar, (hplayed.sound hg).2]
    have hk := ih.orderly'.sound.remember (hgram ▸ (h'.sound hg).1.honest)
    exact ⟨R, ih.keeps (.refl ih.orderly.sound) hk ih.orderly.blank ih.orderly'.blank⟩

/-- What is on offer depends on the content alone. Two drafts with the same content offer the same
symbols in the same order, or both searches come to a rule nested too deep; and two editors in which
the same turns are taken show the same offers and the same text, whatever is remembered and whatever
happens between the turns. -/
theorem offers_depend_on_content {definition : Grammar.Definition} (hg : definition.build = .ok g) :
    (∀ d e : Draft, Draft.Reached g d → Draft.Reached g e → SameContent d e →
      e.settings.recursionLimit = d.settings.recursionLimit → ∀ cursor cursor' : Option NodeId,
      Option.Rel (SamePlace d e) cursor cursor' →
      (∃ found found' d' e', Draft.offers cursor d = .ok found d' ∧
        Draft.offers cursor' e = .ok found' e' ∧
        found.map (fun n => (d'.node n).symbol) = found'.map fun n => (e'.node n).symbol) ∨
      ∃ rule rule' d' e',
        Draft.offers cursor d = .error (.tooDeep rule d.settings.recursionLimit) d' ∧
        Draft.offers cursor' e = .error (.tooDeep rule' d.settings.recursionLimit) e') ∧
    ∀ (settings settings' : Settings) (turns : List Turn) (e f : Editor),
      settings'.recursionLimit = settings.recursionLimit →
      settings'.indentUnit = settings.indentUnit →
      Session g settings turns e → Session g settings' turns f →
      f.offered = e.offered ∧ View.source f.draft = View.source e.draft ∧ f.view = e.view := by
  have hwf := Grammar.Definition.wellFormed_build hg
  constructor
  · intro d e hd he hsame hlimit cursor cursor' hcursor
    obtain ⟨hs, hgd⟩ := hd.sound hwf
    obtain ⟨hs', hge⟩ := he.sound hwf
    have hagree := (mirror_of_sameContent hsame hs hs' (hge.trans hgd.symm)).agree hs hs' hlimit
      hcursor (by
        rintro n ⟨⟩
        cases hcursor with
        | some hR => exact hR.1)
    generalize Draft.offers cursor d = result at hagree ⊢
    generalize Draft.offers cursor' e = result' at hagree ⊢
    cases hagree with
    | @found ns ms d' e' hkd hke hns hms ht =>
      refine Or.inl ⟨ns, ms, d', e', rfl, rfl, ?_⟩
      refine symbols_of_trails hkd.sound.linked hke.sound.linked ?_ hns hms ht
      rw [hkd.grows.grammar, hke.grows.grammar, hgd, hge]
    | tooDeep => exact Or.inr ⟨_, _, _, _, rfl, by rw [hlimit]⟩
  · intro settings settings' turns e f hlimit hunit he hf
    obtain ⟨R, hR⟩ : ∃ R, Twins R (played g settings turns) e := he.twins hwf rfl rfl
    obtain ⟨S, hS⟩ := hf.twins hwf hlimit hunit
    exact ⟨hS.offered_eq.trans hR.offered_eq.symm,
      (source_eq hS.alike.1).trans (source_eq hR.alike.1).symm, hS.view_eq.trans hR.view_eq.symm⟩

/-- An open bracket and a name, and searches before and behind the name. -/
def openName (settings : Settings) (searches : List Call) : Draft :=
  ([Call.offers none, .fillWith ⟨0⟩ none, .offers (some ⟨0⟩), .fillWith ⟨3⟩ (some "x")]
    ++ searches).foldl (fun d c => c.after d) (Draft.start listGrammar settings [])

/-- Behind the name the same is on offer, however much has been searched and remembered before. -/
theorem offers_behind_name :
    (openName {} []).nodes.size = 7 ∧
    (openName { memoize := false } [.offers (some ⟨0⟩), .offers (some ⟨3⟩)]).nodes.size = 9 ∧
    (∃ found found' d' e', Draft.offers (some ⟨3⟩) (openName {} []) = .ok found d' ∧
      Draft.offers (some ⟨3⟩)
        (openName { memoize := false } [.offers (some ⟨0⟩), .offers (some ⟨3⟩)]) = .ok found' e' ∧
      found.map (fun n => (d'.node n).symbol) = found'.map fun n => (e'.node n).symbol) ∧
    ∃ e f, Session listGrammar {} [.pick 0 none, .pick 0 (some "x"), .left] e ∧
      Session listGrammar { memoize := false } [.pick 0 none, .pick 0 (some "x"), .left] f ∧
      f.offered = e.offered ∧ View.source f.draft = View.source e.draft := by
  obtain ⟨hdrafts, hturns⟩ := offers_depend_on_content build_lists
  generalize hd : openName {} [] = d
  generalize he : openName { memoize := false } [.offers (some ⟨0⟩), .offers (some ⟨3⟩)] = e
  have hrun : (d.nodes.size = 7 ∧ e.nodes.size = 9 ∧ SameContent d e) ∧
      ((d.node ⟨3⟩).placed = true ∧ (e.node ⟨3⟩).placed = true ∧ d.path ⟨3⟩ = e.path ⟨3⟩) ∧
      e.settings.recursionLimit = d.settings.recursionLimit ∧
      Edit.Ensures (Draft.offers (some ⟨3⟩)) d (fun found _ => found ≠ []) fun _ _ => False := by
    subst hd he
    decide +kernel
  obtain ⟨⟨hsize, hsize', hsame⟩, hplace, hlimit, hfinds⟩ := hrun
  refine ⟨hsize, hsize', ?_, ?_⟩
  · have hreached : Draft.Reached listGrammar d ∧ Draft.Reached listGrammar e := by
      subst hd he
      exact ⟨.foldl (.start _) (by decide +kernel), .foldl (.start _) (by decide +kernel)⟩
    refine (hdrafts _ _ hreached.1 hreached.2 hsame hlimit _ _ (.some hplace)).resolve_right ?_
    rintro ⟨rule, rule', d', e', ho, -⟩
    obtain ⟨found, f, hok, -⟩ := Edit.Ensures.exists_ok hfinds
    rw [hok] at ho
    cases ho
  · have hstart : ∀ settings : Settings, Session listGrammar settings []
        (Editor.start listGrammar settings []) := fun settings => .start (.start settings)
    have he := (((hstart {}).turn (.pick 0 none)).turn (.pick 0 (some "x"))).turn .left
    -- The other writer looks at the start again before the name is chosen.
    have hlook := ((hstart { memoize := false }).turn (.pick 0 none)).search (c := none) (by simp)
    have hf := (hlook.turn (.pick 0 (some "x"))).turn .left
    obtain ⟨hoffered, hsource, -⟩ := hturns {} { memoize := false } _ _ _ rfl rfl he hf
    exact ⟨_, _, he, hf, hoffered, hsource⟩

end Editor

end Cloze
