import Cloze.Proofs.Mirroring
import Cloze.Proofs.Noting

/-!
# Filling leaves on both sides

Two drafts are alike if they mirror each other and have the same written on paired nodes. A leaf
found at the same place on both sides is filled, with or without a value, with the same outcome:
both calls succeed or both are refused, and the drafts are alike afterwards (`Alike.fillWith`).
-/

namespace Cloze.Draft

open Edit

variable {R : NodeId → NodeId → Prop} {d e d' e' : Draft} {n m x y : NodeId} {b b' : Blocks}

/-- Blocks that list paired leaves. -/
def SameBlocks (R : NodeId → NodeId → Prop) (b b' : Blocks) : Prop :=
  List.Forall₂ R b.starts b'.starts ∧ List.Forall₂ R b.ends b'.ends

inductive SameNote (R : NodeId → NodeId → Prop) : Note → Note → Prop
  | newline {b b' : Blocks} (h : SameBlocks R b b') : SameNote R (.newline b) (.newline b')
  | statement (name : Option String) : SameNote R (.statement name) (.statement name)

/-- Drafts that mirror each other, with the same tokens and notes. -/
structure Alike (R : NodeId → NodeId → Prop) (d e : Draft) : Prop extends Mirror R d e where
  sound : d.Sound
  sound' : e.Sound
  token : ∀ {n m}, R n m → e.token? m = d.token? n
  note : ∀ {n m}, R n m → Option.Rel (SameNote R) (d.node n).note (e.node m).note
  limit : e.settings.recursionLimit = d.settings.recursionLimit
  unit : e.settings.indentUnit = d.settings.indentUnit

/-- All that is paired is placed. -/
def Full (R : NodeId → NodeId → Prop) (d : Draft) : Prop :=
  ∀ {n m}, R n m → (d.node n).placed = true

/-! ### Related lists and options -/

theorem forall₂_head? {α β : Type} {P : α → β → Prop} {xs : List α} {ys : List β}
    (h : List.Forall₂ P xs ys) : Option.Rel P xs.head? ys.head? := by
  cases h with
  | nil => exact .none
  | cons hxy _ => exact .some hxy

theorem forall₂_getLast? {α β : Type} {P : α → β → Prop} {xs : List α} {ys : List β}
    (h : List.Forall₂ P xs ys) : Option.Rel P xs.getLast? ys.getLast? := by
  rw [List.getLast?_eq_head?_reverse, List.getLast?_eq_head?_reverse]
  exact forall₂_head? (List.forall₂_reverse_iff.2 h)

theorem forall₂_filter {α β : Type} {P : α → β → Prop} {p : α → Bool} {q : β → Bool} {xs : List α}
    {ys : List β} (h : List.Forall₂ P xs ys) (hpq : ∀ x y, P x y → q y = p x) :
    List.Forall₂ P (xs.filter p) (ys.filter q) := by
  induction h with
  | nil => exact .nil
  | @cons x y xs ys hxy _ ih =>
    rw [List.filter_cons, List.filter_cons, hpq x y hxy]
    split
    · exact .cons hxy ih
    · exact ih

/-! ### What is read on both sides -/

namespace Mirror

theorem literal?_eq (h : Mirror R d e) (hR : R n m) : e.literal? m = d.literal? n := by
  rw [literal?, literal?, symbol, symbol, h.grammar, h.symbol_eq hR]

theorem statementsAbove (h : Mirror R d e) (hR : R n m) :
    List.Forall₂ R (d.statementsAbove n) (e.statementsAbove m) := by
  have htail : List.Forall₂ R (d.ancestors n) (e.ancestors m) := by
    rw [ancestors, ancestors, ← List.drop_one, ← List.drop_one]
    exact List.forall₂_drop 1 (h.lineage hR)
  exact forall₂_filter htail fun x y hxy => by rw [h.role?_eq hxy]

/-- Before and behind paired leaves stand paired leaves. -/
theorem around (h : Mirror R d e) (hd : d.Sound) (he : e.Sound) (hR : R n m) (hn : n ∈ d.leaves) :
    List.Forall₂ R (d.before n) (e.before m) ∧ List.Forall₂ R (d.behind n) (e.behind m) := by
  obtain ⟨hp, hl⟩ := hd.mem_leaves.1 hn
  have hleaves := h.leaves hd he
  rw [hd.leaves_eq_around hp hl] at hleaves
  have hsplit := List.take_append_drop (d.before n).length e.leaves
  have hfront := List.forall₂_take (d.before n).length hleaves
  have hrest := List.forall₂_drop (d.before n).length hleaves
  rw [List.take_left] at hfront
  rw [List.drop_left, List.forall₂_cons_left_iff] at hrest
  obtain ⟨m', behind, hR', hbehind, hdrop⟩ := hrest
  obtain rfl := h.unique.2 hR hR'
  rw [hdrop] at hsplit
  obtain ⟨h1, h2⟩ := he.around_of_leaves hsplit.symm
  rw [h1, h2]
  exact ⟨hfront, hbehind⟩

theorem mem_leaves (h : Mirror R d e) (hd : d.Sound) (he : e.Sound) (hR : R n m)
    (hn : n ∈ d.leaves) : m ∈ e.leaves := by
  obtain ⟨hp, hl⟩ := hd.mem_leaves.1 hn
  exact he.mem_leaves.2 ⟨(h.placed hR).symm.trans hp, (h.isLeaf_eq hR).trans hl⟩

theorem leafBefore (h : Mirror R d e) (hd : d.Sound) (he : e.Sound) (hR : R n m)
    (hn : n ∈ d.leaves) : Option.Rel R (d.leafBefore n) (e.leafBefore m) := by
  rw [hd.leafBefore_eq (h.has hR).1, he.leafBefore_eq (h.has hR).2]
  exact forall₂_getLast? (h.around hd he hR hn).1

theorem leafAfter (h : Mirror R d e) (hd : d.Sound) (he : e.Sound) (hR : R n m)
    (hn : n ∈ d.leaves) : Option.Rel R (d.leafAfter n) (e.leafAfter m) := by
  rw [hd.leafAfter_eq (h.has hR).1, he.leafAfter_eq (h.has hR).2]
  exact forall₂_head? (h.around hd he hR hn).2

theorem walkTo_leafBefore (h : Mirror R d e) (hd : d.Sound) (he : e.Sound) (hR : R n m)
    (hn : n ∈ d.leaves) (role : Role) :
    List.Forall₂ R (d.walkTo n .leafBefore role) (e.walkTo m .leafBefore role) := by
  rw [walkTo, walkTo, hd.walk_leafBefore hn, he.walk_leafBefore (h.mem_leaves hd he hR hn)]
  exact forall₂_filter (List.forall₂_reverse_iff.2 (h.around hd he hR hn).1) fun x y hxy => by
    rw [h.role?_eq hxy]

end Mirror

theorem blocksAt_of_role (hr : d.role? n ≠ some .newline) :
    d.blocksAt n = .error (.wrongNote n .newline) := by
  unfold blocksAt
  split
  · rename_i h _
    exact absurd h hr
  · rename_i h _
    exact absurd h hr
  · rfl

namespace Alike

variable (h : Alike R d e)
include h

theorem blocks? (hR : R n m) : Option.Rel (SameBlocks R) (d.blocks? n) (e.blocks? m) := by
  rw [Draft.blocks?, Draft.blocks?]
  rcases optionRel_cases (h.note hR) with ⟨h1, h2⟩ | ⟨x, y, h1, h2, hxy⟩ <;> rw [h1, h2]
  · exact .none
  · cases hxy with
    | newline hb => exact .some hb
    | statement => exact .none

theorem indentation_eq (hR : R n m) : e.indentation m = d.indentation n := by
  rw [indentation, indentation, h.unit, indentCount, indentCount,
    (h.statementsAbove hR).length_eq]
  rcases optionRel_cases (h.blocks? hR) with ⟨h1, h2⟩ | ⟨b, b', h1, h2, hb⟩
  · rw [h1, h2]
  · rw [h1, h2, Option.getD_some, Option.getD_some, hb.1.length_eq, hb.2.length_eq]

/-- A newline has its blocks on both sides or on none. -/
theorem blocksAt (hR : R n m) :
    (∃ b b', d.blocksAt n = .ok b ∧ e.blocksAt m = .ok b' ∧ SameBlocks R b b') ∨
      ∃ r r', d.blocksAt n = .error r ∧ e.blocksAt m = .error r' := by
  by_cases hr : d.role? n = some .newline
  · simp only [Draft.blocksAt, h.role?_eq hR, hr]
    rcases optionRel_cases (h.note hR) with ⟨h1, h2⟩ | ⟨x, y, h1, h2, hxy⟩
    · rw [h1, h2]
      exact Or.inl ⟨_, _, rfl, rfl, .nil, .nil⟩
    · rw [h1, h2]
      cases hxy with
      | newline hb => exact Or.inl ⟨_, _, rfl, rfl, hb⟩
      | statement => exact Or.inr ⟨_, _, rfl, rfl⟩
  · rw [blocksAt_of_role hr, blocksAt_of_role fun hr' => hr ((h.role?_eq hR).symm.trans hr')]
    exact Or.inr ⟨_, _, rfl, rfl⟩

end Alike

/-! ### Writing on both sides -/

theorem token?_writeToken_eq (d : Draft) (n x : NodeId) (value : String) :
    (d.writeToken n value).token? x =
      if n = x ∧ d.HasNode x ∧ d.isLeaf x = true then (d.literal? x).or (some value)
      else d.token? x := by
  have hsym := (retouches_writeToken d n value).links.symbol x
  split
  · rename_i hx
    rw [token?, literal?, hsym, node_writeToken, if_pos hx, ← literal?]
    cases d.literal? x <;> rfl
  · rename_i hx
    exact token?_congr hsym (by rw [node_writeToken, if_neg hx])

namespace Alike

variable (h : Alike R d e)
include h

theorem of_retouches (hd : Retouches d d') (he : Retouches e e')
    (ht : ∀ {n m}, R n m → e'.token? m = d'.token? n)
    (hnote : ∀ {n m}, R n m → Option.Rel (SameNote R) (d'.node n).note (e'.node m).note) :
    Alike R d' e' where
  toMirror := h.toMirror.retouches hd he
  sound := h.sound.of_retouches hd
  sound' := h.sound'.of_retouches he
  token := ht
  note := hnote
  limit := by rw [hd.links.settings, he.links.settings, h.limit]
  unit := by rw [hd.links.settings, he.links.settings, h.unit]

theorem eq_iff (hR : R n m) (hxy : R x y) : m = y ↔ n = x := by
  constructor
  · rintro rfl
    exact h.unique.1 hR hxy
  · rintro rfl
    exact h.unique.2 hR hxy

theorem writeToken (hR : R n m) (value : String) :
    Alike R (d.writeToken n value) (e.writeToken m value) := by
  refine h.of_retouches (retouches_writeToken d n value) (retouches_writeToken e m value)
    (fun {x y} hxy => ?_) fun {x y} hxy => ?_
  · obtain ⟨hx, hy⟩ := h.has hxy
    simp only [token?_writeToken_eq, h.eq_iff hR hxy, hx, hy, h.isLeaf_eq hxy, h.token hxy,
      h.literal?_eq hxy]
  · rw [note_writeToken, note_writeToken]
    exact h.note hxy

theorem withNote (hR : R n m) {a a' : Note} (ha : SameNote R a a') :
    Alike R (d.modifyNode n fun node => { node with note := some a })
      (e.modifyNode m fun node => { node with note := some a' }) := by
  have htoken : ∀ (d : Draft) (n x : NodeId) (a : Note),
      (d.modifyNode n fun node => { node with note := some a }).token? x = d.token? x := by
    intro d n x a
    refine token?_congr ((retouches_note d n _).links.symbol x) ?_
    rw [node_modifyNode]
    split <;> rfl
  refine h.of_retouches (retouches_note d n _) (retouches_note e m _) (fun hxy => ?_)
    fun {x y} hxy => ?_
  · rw [htoken, htoken, h.token hxy]
  · obtain ⟨hx, hy⟩ := h.has hxy
    simp only [node_modifyNode, h.eq_iff hR hxy, hx, hy, and_true]
    split
    · exact .some ha
    · exact h.note hxy

/-- A line gets the same indentation on both sides. -/
theorem indentLine (hR : R n m) (hb : SameBlocks R b b') :
    Alike R (d.indentLine n b) (e.indentLine m b') := by
  have hnote := h.withNote hR (.newline hb)
  rw [Draft.indentLine, Draft.indentLine, hnote.indentation_eq hR]
  exact hnote.writeToken hR _

end Alike

/-! ### Roles on both sides -/

/-- Both end in drafts that are so related, or both are refused. -/
inductive SameEnd (P : Draft → Draft → Prop) : Except Refusal Draft → Except Refusal Draft → Prop
  | ok {d e : Draft} (h : P d e) : SameEnd P (.ok d) (.ok e)
  | error (r r' : Refusal) : SameEnd P (.error r) (.error r')

theorem SameBlocks.add (hb : SameBlocks R b b') (hR : R n m) (role : Role) :
    SameBlocks R (b.add n role) (b'.add m role) := by
  have hone : List.Forall₂ R [n] [m] := .cons hR .nil
  unfold Blocks.add
  split
  · exact ⟨List.rel_append hb.1 hone, hb.2⟩
  · exact ⟨hb.1, List.rel_append hb.2 hone⟩

theorem bindIn_of_role {name : Option String} (hr : d.role? n ≠ some .statement) :
    d.bindIn n name = .error (.wrongNote n .statement) := by
  unfold bindIn
  split
  · rename_i h _
    exact absurd h hr
  · rename_i h _
    exact absurd h hr
  · rfl

namespace Alike

variable (h : Alike R d e)
include h

theorem fillNewline (hR : R n m) : SameEnd (Alike R) (d.fillNewline n) (e.fillNewline m) := by
  rw [Draft.fillNewline, Draft.fillNewline]
  rcases h.blocksAt hR with ⟨b, b', h1, h2, hb⟩ | ⟨r, r', h1, h2⟩ <;> rw [h1, h2]
  · exact .ok (h.indentLine hR hb)
  · exact .error r r'

theorem fillBlock (hR : R n m) (hn : n ∈ d.leaves) (role : Role) :
    SameEnd (Alike R) (d.fillBlock n role) (e.fillBlock m role) := by
  rw [Draft.fillBlock, Draft.fillBlock]
  rcases optionRel_cases (forall₂_head? (h.walkTo_leafBefore h.sound h.sound' hR hn .newline))
    with ⟨h1, h2⟩ | ⟨x, y, h1, h2, hxy⟩ <;> rw [h1, h2]
  · exact .error _ _
  · dsimp only
    rcases h.blocksAt hxy with ⟨b, b', h1, h2, hb⟩ | ⟨r, r', h1, h2⟩ <;> rw [h1, h2]
    · exact .ok (h.indentLine hxy (hb.add hR role))
    · exact .error r r'

theorem bindIn (hR : R n m) (name : Option String) :
    SameEnd (Alike R) (d.bindIn n name) (e.bindIn m name) := by
  by_cases hr : d.role? n = some .statement
  · simp only [Draft.bindIn, h.role?_eq hR, hr]
    have hok := h.withNote hR (.statement name)
    rcases optionRel_cases (h.note hR) with ⟨h1, h2⟩ | ⟨a, a', h1, h2, ha⟩
    · rw [h1, h2]
      exact .ok hok
    · rw [h1, h2]
      cases ha with
      | newline => exact .error _ _
      | statement => exact .ok hok
  · rw [bindIn_of_role hr, bindIn_of_role fun hr' => hr ((h.role?_eq hR).symm.trans hr')]
    exact .error _ _

theorem fillAssign (hR : R n m) (hn : n ∈ d.leaves) :
    SameEnd (Alike R) (d.fillAssign n) (e.fillAssign m) := by
  have hbefore : Option.Rel R ((d.leafBefore n).filter fun x => d.role? x == some .name)
      ((e.leafBefore m).filter fun x => e.role? x == some .name) := by
    rcases optionRel_cases (h.leafBefore h.sound h.sound' hR hn) with
      ⟨h1, h2⟩ | ⟨x, y, h1, h2, hxy⟩ <;> rw [h1, h2]
    · exact .none
    · rw [Option.filter_some, Option.filter_some, h.role?_eq hxy]
      split
      · exact .some hxy
      · exact .none
  rw [Draft.fillAssign, Draft.fillAssign]
  rcases optionRel_cases hbefore with ⟨h1, h2⟩ | ⟨x, y, h1, h2, hxy⟩ <;> rw [h1, h2]
  · exact .error _ _
  · have hx := h.sound.mem_leaves_of_leafBefore hn (Option.filter_eq_some_iff.1 h1).1
    have hafter : (e.leafAfter y).map e.role? = (d.leafAfter x).map d.role? := by
      rcases optionRel_cases (h.leafAfter h.sound h.sound' hxy hx) with
        ⟨h1, h2⟩ | ⟨z, w, h1, h2, hzw⟩ <;> rw [h1, h2]
      · rfl
      · rw [Option.map_some, Option.map_some, h.role?_eq hzw]
    dsimp only
    rw [hafter]
    split
    · exact .ok h
    · rcases optionRel_cases (forall₂_head? (h.statementsAbove hxy)) with
        ⟨h1, h2⟩ | ⟨z, w, h1, h2, hzw⟩ <;> rw [h1, h2]
      · exact .error _ _
      · dsimp only
        rw [h.token hxy]
        exact h.bindIn hzw _

/-- What the role of a leaf does ends alike. -/
theorem onFill (hR : R n m) (hn : n ∈ d.leaves) : SameEnd (Alike R) (d.onFill n) (e.onFill m) := by
  rw [Draft.onFill, Draft.onFill, h.role?_eq hR]
  split
  · exact h.fillNewline hR
  · exact h.fillBlock hR hn .indent
  · exact h.fillBlock hR hn .dedent
  · exact h.fillAssign hR hn
  all_goals exact .ok h

end Alike

/-! ### Filling on both sides -/

theorem SameNote.mono {S : NodeId → NodeId → Prop} (hRS : ∀ x y, R x y → S x y) {a a' : Note}
    (h : SameNote R a a') : SameNote S a a' := by
  cases h with
  | newline hb => exact .newline ⟨hb.1.imp hRS, hb.2.imp hRS⟩
  | statement name => exact .statement name

namespace Alike

variable (h : Alike R d e)
include h

/-- Growth keeps drafts alike. -/
theorem keeps (hp : Full R d) (hd : Keeps d d') (he : Keeps e e') : Alike R d' e' where
  toMirror := h.toMirror.keeps h.sound h.sound' hp hd he
  sound := hd.sound
  sound' := he.sound
  token := fun hR => by
    rw [hd.grows.token? (h.has hR).1, he.grows.token? (h.has hR).2, h.token hR]
  note := fun hR => by
    rw [(hd.grows.node_eq (h.has hR).1).2.2.2, (he.grows.node_eq (h.has hR).2).2.2.2]
    exact h.note hR
  limit := by rw [hd.grows.settings, he.grows.settings, h.limit]
  unit := by rw [hd.grows.settings, he.grows.settings, h.unit]

/-- Gaps found at the same place are paired: nothing is written on them. -/
theorem extend (hp : Full R d) (hb : d.Blank) (hb' : e.Blank) (hn : d.HasNode n)
    (hm : e.HasNode m) : Alike (WithGaps R d e n m) d e := by
  have hmirror := h.toMirror.withGaps h.sound h.sound' hp hn hm
  have hgap : ∀ {x y}, x ∈ d.lineage n ∧ y ∈ e.lineage m ∧ (d.node x).placed = false ∧
      d.trail x = e.trail y → (d.node x).placed = false ∧ (e.node y).placed = false :=
    fun hxy => ⟨hxy.2.2.1, (hmirror.placed (Or.inr hxy)).symm.trans hxy.2.2.1⟩
  refine ⟨hmirror, h.sound, h.sound', ?_, ?_, h.limit, h.unit⟩
  · rintro x y (hR | hxy)
    · exact h.token hR
    · rw [hb.token? (hgap hxy).1, hb'.token? (hgap hxy).2]
      exact hmirror.literal?_eq (Or.inr hxy)
  · rintro x y (hR | hxy)
    · rcases optionRel_cases (h.note hR) with ⟨h1, h2⟩ | ⟨a, a', h1, h2, ha⟩ <;> rw [h1, h2]
      · exact .none
      · exact .some (ha.mono fun _ _ => Or.inl)
    · rw [(hb x (hgap hxy).1).1, (hb' y (hgap hxy).2).1]
      exact .none

/-- Placing paired leaves keeps drafts alike. -/
theorem places (hR : R n m) (hl : d.isLeaf n = true) (hg : (d.node n).placed = false)
    (hc : d.checkPlace n = .ok ())
    (hp : ∀ {x y}, R x y → (d.node x).placed = true ∨ x ∈ d.lineage n) :
    Alike R (d.place n) (e.place m) ∧ Full R (d.place n) := by
  obtain ⟨hn, hm⟩ := h.has hR
  have hl' : e.isLeaf m = true := (h.isLeaf_eq hR).trans hl
  have hpd := h.sound.places hn hl hg hc
  have hpe := h.sound'.places hm hl' ((h.placed hR).symm.trans hg) ((h.checkPlace_iff hR).2 hc)
  obtain ⟨hs, hlinks⟩ := h.sound.of_places hn hl hpd
  obtain ⟨hs', hlinks'⟩ := h.sound'.of_places hm hl' hpe
  obtain ⟨hmirror, hfull⟩ := h.toMirror.places h.sound h.sound' hR hl hp hpd hpe
  refine ⟨⟨hmirror, hs, hs', fun {x y} hxy => ?_, fun {x y} hxy => ?_, ?_, ?_⟩, hfull⟩
  · rw [(moved_place d n x).token? (hlinks.symbol x), (moved_place e m y).token? (hlinks'.symbol y),
      h.token hxy]
  · obtain ⟨p, b, hx⟩ := moved_place d n x
    obtain ⟨p', b', hy⟩ := moved_place e m y
    rw [hx, hy]
    exact h.note hxy
  · rw [hlinks.settings, hlinks'.settings, h.limit]
  · rw [hlinks.settings, hlinks'.settings, h.unit]

end Alike

/-- Two calls end alike: both succeed or both are refused, with drafts so related. -/
inductive Together (good bad : Draft → Draft → Prop) :
    EStateM.Result Refusal Draft Unit → EStateM.Result Refusal Draft Unit → Prop
  | ok {d e : Draft} (h : good d e) : Together good bad (.ok () d) (.ok () e)
  | error {r r' : Refusal} {d e : Draft} (h : bad d e) :
      Together good bad (.error r d) (.error r' e)

theorem Together.imp {good bad good' bad' : Draft → Draft → Prop}
    {p q : EStateM.Result Refusal Draft Unit} (h : Together good bad p q)
    (hg : ∀ d e, good d e → good' d e) (hb : ∀ d e, bad d e → bad' d e) :
    Together good' bad' p q := by
  cases h with
  | ok h => exact .ok (hg _ _ h)
  | error h => exact .error (hb _ _ h)

/-- Drafts that are alike, with only placed nodes paired. -/
def AlikeFull (R : NodeId → NodeId → Prop) (d e : Draft) : Prop :=
  Alike R d e ∧ Full R d

namespace Alike

variable (h : Alike R d e)
include h

theorem full_of_placed (hn : (d.node n).placed = true)
    (hp : ∀ {x y}, R x y → (d.node x).placed = true ∨ x ∈ d.lineage n) : Full R d := fun hxy =>
  (hp hxy).elim id (h.sound.placed_of_mem_lineage (hasNode_of_placed hn) hn)

/-- A leaf that needs a token gets one on both sides or on none. -/
theorem completed? (hR : R n m) : d.completed? n = none ∧ e.completed? m = none ∨
    ∃ mid mid', d.completed? n = some mid ∧ e.completed? m = some mid' ∧ Alike R mid mid' := by
  rw [Draft.completed?, Draft.completed?, h.token hR, h.role?_eq hR]
  split
  · exact Or.inr ⟨d, e, rfl, rfl, h⟩
  · exact Or.inr ⟨_, _, rfl, rfl, h.writeToken hR _⟩
  · exact Or.inl ⟨rfl, rfl⟩

theorem checkToken_iff (hR : R n m) (value : String) :
    e.checkToken m value = .ok () ↔ d.checkToken n value = .ok () := by
  rw [checkToken, checkToken, h.isLeaf_eq hR, h.literal?_eq hR, h.token hR, h.role?_eq hR]
  split
  · simp
  · split
    · simp
    · split
      · simp
      · split <;> simp

/-- Leaves whose place has been checked are placed on both sides, and their roles act alike. -/
theorem fill_of_completed (hR : R n m) (hl : d.isLeaf n = true) (hc : d.checkPlace n = .ok ())
    (hp : ∀ {x y}, R x y → (d.node x).placed = true ∨ x ∈ d.lineage n) {mid mid' : Draft}
    (hmid : d.completed? n = some mid) (hmid' : e.completed? m = some mid')
    (ha : Alike R mid mid') : Together (AlikeFull R) (AlikeFull R) (fill n d) (fill m e) := by
  have hr := retouches_completed? hmid
  have hplaced : e.isPlaced m = d.isPlaced n := (h.placed hR).symm
  rw [fill_eq, fill_eq, h.isLeaf_eq hR, hl, hplaced, (h.checkPlace_iff hR).2 hc, hc, hmid, hmid']
  simp only [Bool.true_eq_false, if_false]
  split
  · rename_i hpl
    exact .ok ⟨h, h.full_of_placed hpl hp⟩
  · rename_i hpl
    have hg : (mid.node n).placed = false := by simpa [isPlaced, hr.placed] using hpl
    have hlm := (hr.links.isLeaf n).trans hl
    have hcm := (hr.checkPlace n).trans hc
    obtain ⟨hput, hfull⟩ := ha.places hR hlm hg hcm fun {x y} hxy => by
      rw [hr.placed, hr.links.lineage]
      exact hp hxy
    have hfills : Fills mid n (mid.place n) := ⟨hlm, hg, hcm, mid, .refl mid, .refl _⟩
    have hend := hput.onFill hR (hfills.mem_leaves ha.sound (ha.has hR).1).1
    rcases hf : (mid.place n).onFill n with r | f <;> rcases hf' : (mid'.place m).onFill m with r' | f'
      <;> rw [hf, hf'] at hend <;> cases hend
    · exact .error ⟨hput, hfull⟩
    · rename_i hff
      refine .ok ⟨hff, fun hxy => ?_⟩
      rw [(retouches_onFill hf).placed]
      exact hfull hxy

/-- Filling paired leaves ends alike. -/
theorem fill (hR : R n m) (hp : ∀ {x y}, R x y → (d.node x).placed = true ∨ x ∈ d.lineage n) :
    Together (AlikeFull R) (fun d' e' => d' = d ∧ e' = e ∨ AlikeFull R d' e')
      (Draft.fill n d) (Draft.fill m e) := by
  have hplaced : e.isPlaced m = d.isPlaced n := (h.placed hR).symm
  by_cases hready : d.isLeaf n = true ∧ d.checkPlace n = .ok ()
  · rcases h.completed? hR with ⟨hmid, hmid'⟩ | ⟨mid, mid', hmid, hmid', ha⟩
    · rw [fill_eq, fill_eq, h.isLeaf_eq hR, hready.1, hplaced, (h.checkPlace_iff hR).2 hready.2,
        hready.2, hmid, hmid']
      simp only [Bool.true_eq_false, if_false]
      split
      · rename_i hpl
        exact .ok ⟨h, h.full_of_placed hpl hp⟩
      · exact .error (Or.inl ⟨rfl, rfl⟩)
    · exact (h.fill_of_completed hR hready.1 hready.2 hp hmid hmid' ha).imp (fun _ _ => id)
        fun _ _ => Or.inr
  · rw [fill_eq, fill_eq, h.isLeaf_eq hR, hplaced]
    split
    · exact .error (Or.inl ⟨rfl, rfl⟩)
    · rename_i hl
      have hc : d.checkPlace n ≠ .ok () := fun hc => hready ⟨by simpa using hl, hc⟩
      have hc' : e.checkPlace m ≠ .ok () := fun hc' => hc ((h.checkPlace_iff hR).1 hc')
      split
      · rename_i hpl
        exact .ok ⟨h, h.full_of_placed hpl hp⟩
      · rcases hr : d.checkPlace n with r | u
        · rcases hr' : e.checkPlace m with r' | u'
          · exact .error (Or.inl ⟨rfl, rfl⟩)
          · exact absurd hr' hc'
        · exact absurd hr hc

/-- Filling paired leaves with the same value, or both without, ends alike. -/
theorem fillWith (hR : R n m)
    (hp : ∀ {x y}, R x y → (d.node x).placed = true ∨ x ∈ d.lineage n) (value : Option String) :
    Together (AlikeFull R) (fun d' e' => d' = d ∧ e' = e ∨ AlikeFull R d' e')
      (Draft.fillWith n value d) (Draft.fillWith m value e) := by
  cases value with
  | none => exact h.fill hR hp
  | some value =>
    have htok := h.checkToken_iff hR value
    have hplace := h.checkPlace_iff hR
    rw [fillWith_some_eq, fillWith_some_eq]
    rcases ht : d.checkToken n value with r | u
    · rcases ht' : e.checkToken m value with r' | u'
      · exact .error (Or.inl ⟨rfl, rfl⟩)
      · rw [htok.1 ht'] at ht
        cases ht
    · have ht' := htok.2 ht
      rw [ht']
      rcases hc : d.checkPlace n with r | u
      · rcases hc' : e.checkPlace m with r' | u'
        · exact .error (Or.inl ⟨rfl, rfl⟩)
        · rw [hplace.1 hc'] at hc
          cases hc
      · have hc' := hplace.2 hc
        rw [hc']
        have hr := retouches_writeToken d n value
        have hw := h.writeToken hR value
        have hl : d.isLeaf n = true := by
          by_contra hl
          rw [checkToken, if_pos (by simpa using hl)] at ht
          cases ht
        have hco : (d.writeToken n value).completed? n = some (d.writeToken n value) := by
          rw [Draft.completed?, token?_writeToken (h.has hR).1 ht]
        have hco' : (e.writeToken m value).completed? m = some (e.writeToken m value) := by
          rw [Draft.completed?, token?_writeToken (h.has hR).2 ht']
        refine (hw.fill_of_completed hR ((hr.links.isLeaf n).trans hl) ((hr.checkPlace n).trans hc)
          (fun {x y} hxy => ?_) hco hco' hw).imp (fun _ _ => id) fun _ _ => Or.inr
        rw [hr.placed, hr.links.lineage]
        exact hp hxy

end Alike

/-- A leaf found at the same place on both sides is filled with the same outcome. -/
theorem AlikeFull.fillWith (h : AlikeFull R d e) (hb : d.Blank) (hb' : e.Blank) (hn : d.HasNode n)
    (hm : e.HasNode m) (ht : d.trail n = e.trail m) (value : Option String) :
    Together (fun d' e' => ∃ S, (∀ x y, R x y → S x y) ∧ AlikeFull S d' e' ∧ S n m)
      (fun d' e' => ∃ S, (∀ x y, R x y → S x y) ∧ AlikeFull S d' e')
      (Draft.fillWith n value d) (Draft.fillWith m value e) := by
  obtain ⟨ha, hfull⟩ := h
  rcases hp : (d.node n).placed with _ | _
  · have hR : WithGaps R d e n m n m := Or.inr ⟨d.mem_lineage_self n, e.mem_lineage_self m, hp, ht⟩
    have hsub : ∀ x y, R x y → WithGaps R d e n m x y := fun _ _ => Or.inl
    refine ((ha.extend hfull hb hb' hn hm).fillWith hR ?_ value).imp
      (fun d' e' hgood => ⟨_, hsub, hgood, hR⟩) fun d' e' hbad => ?_
    · rintro x y (hxy | hxy)
      · exact Or.inl (hfull hxy)
      · exact Or.inr hxy.1
    · rcases hbad with ⟨rfl, rfl⟩ | hbad
      · exact ⟨R, fun _ _ => id, ha, hfull⟩
      · exact ⟨_, hsub, hbad⟩
  · have hR := ha.of_trail ha.sound ha.sound' hp hm ht
    refine (ha.fillWith hR (fun hxy => Or.inl (hfull hxy)) value).imp
      (fun d' e' hgood => ⟨R, fun _ _ => id, hgood, hR⟩) fun d' e' hbad => ?_
    rcases hbad with ⟨rfl, rfl⟩ | hbad
    · exact ⟨R, fun _ _ => id, ha, hfull⟩
    · exact ⟨R, fun _ _ => id, hbad⟩

end Cloze.Draft
