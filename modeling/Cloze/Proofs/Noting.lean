import Cloze.Proofs.Appending
import Cloze.Proofs.Moves
import Cloze.Proofs.Walking

/-!
# What filling writes

Placing a leaf moves nodes and takes branches; tokens and notes are written only on the leaf itself
and by its role. `onFill_cases` says all that a role can do, and `fillOutcome` all that a call to
fill a leaf can end in: it is refused and nothing has changed, it finds the leaf placed already, or
the leaf is placed and its role has acted or has refused. What is not placed stays blank.
-/

namespace Cloze.Draft

open Edit

variable {d e mid : Draft} {n m k : NodeId}

/-! ### Placing writes nothing -/

/-- The node is the same but for its position and for being placed. -/
def Moved (x y : Node) : Prop :=
  ∃ p b, y = { x with position := p, placed := b }

theorem Moved.trans {x y z : Node} (h : Moved x y) (h' : Moved y z) : Moved x z := by
  obtain ⟨p, b, rfl⟩ := h
  obtain ⟨p', b', rfl⟩ := h'
  exact ⟨p', b', rfl⟩

theorem moved_modifyNode {f : Node → Node} (hf : ∀ x, Moved x (f x)) (d : Draft) (n m : NodeId) :
    Moved (d.node m) ((d.modifyNode n f).node m) := by
  rw [node_modifyNode]
  split
  · exact hf _
  · exact ⟨_, _, rfl⟩

theorem moved_moveOn : ∀ (ns : List NodeId) (d : Draft) (m : NodeId),
    Moved (d.node m) ((d.moveOn ns).node m)
  | [], _, _ => ⟨_, _, rfl⟩
  | n :: ns, d, m =>
    (moved_modifyNode (fun _ => ⟨_, _, rfl⟩) d n m).trans (moved_moveOn ns _ m)

theorem moved_insert (d : Draft) (n m : NodeId) : Moved (d.node m) ((d.insert n).node m) := by
  unfold insert
  dsimp only
  refine Moved.trans ?_ (moved_modifyNode (fun _ => ⟨_, _, rfl⟩) _ n m)
  exact moved_moveOn _ (d.modifySlot _ _) m

theorem moved_placeAlong (m : NodeId) : ∀ (ns : List NodeId) (d : Draft),
    Moved (d.node m) ((d.placeAlong ns).node m)
  | [], d => ⟨_, _, rfl⟩
  | n :: ns, d => by
    unfold placeAlong
    dsimp only
    split
    · exact ⟨_, _, rfl⟩
    · split
      · exact moved_insert d n m
      · exact (moved_insert d n m).trans (moved_placeAlong m ns _)

/-- Placing a node keeps the tokens and notes of all nodes. -/
theorem moved_place (d : Draft) (n m : NodeId) : Moved (d.node m) ((d.place n).node m) :=
  moved_placeAlong m _ d

theorem Places.chosen (h : Places d n e) : ∀ c k, (d.choice c).chosen = some k →
    (e.choice c).chosen = some k := by
  induction h with
  | @stop d n hp hfull hk =>
    intro c k hc
    rw [choice_enter]
    split
    · rename_i h
      obtain ⟨rfl, -⟩ := h
      rcases hk with hk | ⟨hk, -⟩
      · exact hk.symm.trans hc
      · cases hk.symm.trans hc
    · exact hc
  | @up d e n m hp hfull hk hm _ ih =>
    intro c k hc
    refine ih c k ?_
    rw [choice_enter, if_neg, hc]
    rintro ⟨rfl, -⟩
    cases hk.symm.trans hc

/-- A branch that was taken stays taken. -/
theorem Fills.chosen (hf : Fills d n e) (h : d.Sound) (hn : d.HasNode n) {c : ChoiceId} {k : Nat}
    (hc : (d.choice c).chosen = some k) : (e.choice c).chosen = some k := by
  obtain ⟨mid, h1, -, hp, h2⟩ := hf.exists_places h hn
  rw [h2.choice]
  exact hp.chosen c k (by rw [h1.choice, hc])

theorem Fills.mem_leaves (hf : Fills d n e) (h : d.Sound) (hn : d.HasNode n) :
    n ∈ e.leaves ∧ ∀ m ∈ d.leaves, m ∈ e.leaves := by
  obtain ⟨after, h1, h2⟩ := hf.leaves h hn
  rw [h1, h2]
  refine ⟨by simp, fun m hm => ?_⟩
  rcases List.mem_append.1 hm with hm | hm <;> simp [hm]

/-! ### Tokens and notes -/

theorem token?_congr (hs : e.symbol n = d.symbol n) (hb : (e.node n).body = (d.node n).body) :
    e.token? n = d.token? n := by
  simp only [token?, literal?, hs, hb]

theorem Moved.token? (hs : e.symbol n = d.symbol n) (h : Moved (d.node n) (e.node n)) :
    e.token? n = d.token? n := by
  obtain ⟨p, b, hn⟩ := h
  exact token?_congr hs (by rw [hn])

theorem node_writeToken (d : Draft) (n m : NodeId) (value : String) :
    (d.writeToken n value).node m =
      if n = m ∧ d.HasNode m ∧ d.isLeaf m = true then { d.node m with body := .leaf (some value) }
      else d.node m := by
  rw [writeToken, node_modifyNode]
  unfold isLeaf
  by_cases hn : d.HasNode m
  · by_cases hnm : n = m
    · rcases (d.node m).body with t | c | ⟨r, c⟩ <;> simp [hnm, hn]
    · simp [hnm]
  · simp [hn]

theorem node_writeToken_of_ne (hne : m ≠ n) (value : String) :
    (d.writeToken n value).node m = d.node m := by
  rw [node_writeToken, if_neg fun h => hne h.1.symm]

theorem note_writeToken (d : Draft) (n m : NodeId) (value : String) :
    ((d.writeToken n value).node m).note = (d.node m).note := by
  rw [node_writeToken]
  split <;> rfl

theorem node_indentLine_of_ne (hne : m ≠ n) (b : Blocks) :
    (d.indentLine n b).node m = d.node m := by
  rw [indentLine, node_writeToken_of_ne hne, node_modifyNode, if_neg fun h => hne h.1.symm]

theorem note_indentLine (hn : d.HasNode n) (b : Blocks) :
    ((d.indentLine n b).node n).note = some (.newline b) := by
  rw [indentLine, note_writeToken, node_modifyNode, if_pos ⟨rfl, hn⟩]

/-- What has no token yet and was not placed is as it was made. -/
def Blank (d : Draft) : Prop :=
  ∀ n, (d.node n).placed = false → (d.node n).note = none ∧ ∀ t, (d.node n).body ≠ .leaf (some t)

theorem blank_of_not_has (hn : ¬ d.HasNode n) :
    (d.node n).note = none ∧ ∀ t, (d.node n).body ≠ .leaf (some t) := by
  rw [node_of_not_has hn]
  exact ⟨rfl, fun t h => by cases h⟩

/-- A gap has no token but the text of its symbol. -/
theorem Blank.token? (hb : d.Blank) (hp : (d.node n).placed = false) :
    d.token? n = d.literal? n := by
  have hbody := (hb n hp).2
  unfold Draft.token?
  generalize d.literal? n = text
  generalize (d.node n).body = body at hbody
  cases text with
  | some t => rfl
  | none =>
    rcases body with (_ | t) | c | ⟨r, c⟩
    · rfl
    · exact absurd rfl (hbody t)
    · rfl
    · rfl

theorem blank_start (g : Grammar) (settings : Settings) (u : List Grammar.SymbolId) :
    (start g settings u).Blank := fun _ _ =>
  blank_of_not_has (by simp [HasNode, start, withChoice])

/-- No node has got a token or a note. -/
def Unwritten (d e : Draft) : Prop :=
  ∀ n, (e.node n).note = (d.node n).note ∧
    ∀ t, (e.node n).body = .leaf (some t) → (d.node n).body = .leaf (some t)

theorem Unwritten.trans {f : Draft} (h : Unwritten d e) (h' : Unwritten e f) : Unwritten d f :=
  fun n => ⟨(h' n).1.trans (h n).1, fun t ht => (h n).2 t ((h' n).2 t ht)⟩

theorem unwritten_withGap (d : Draft) (s : SlotId) (p : Nat) : Unwritten d (d.withGap s p) := by
  intro n
  by_cases hn : d.HasNode n
  · rw [node_withGap_of_has _ _ _ hn]
    exact ⟨rfl, fun _ ht => ht⟩
  · rw [node_of_not_has hn]
    by_cases hn' : (d.withGap s p).HasNode n
    · obtain rfl := ((d.hasNode_withGap s p).1 hn').resolve_left hn
      obtain ⟨body, hnew, hbody⟩ := d.node_withGap_new s p
      rw [hnew]
      refine ⟨rfl, fun t ht => ?_⟩
      rcases hbody with ⟨-, rfl⟩ | ⟨r, -, rfl⟩ | ⟨b, -, rfl⟩ <;> cases ht
    · rw [node_of_not_has hn']
      exact ⟨rfl, fun _ ht => ht⟩

theorem unwritten_withExpansion (d : Draft) (k : NodeId) (r : Grammar.RuleId) (depth : Nat) :
    Unwritten d (d.withExpansion k r depth) := by
  intro n
  rw [node_withExpansion]
  split
  · exact ⟨rfl, fun t ht => by cases ht⟩
  · exact ⟨rfl, fun _ ht => ht⟩

/-- A search writes nothing. -/
theorem Moves.unwritten (h : Moves d e) : Unwritten d e := by
  induction h with
  | refl => exact fun _ => ⟨rfl, fun _ ht => ht⟩
  | gap _ ih => exact ih.trans (unwritten_withGap _ _ _)
  | expansion _ _ ih => exact ih.trans (unwritten_withExpansion _ _ _ _)
  | @settle e k _ ih =>
    obtain ⟨u, hu⟩ := e.settle_eq k
    rw [hu]
    exact ih

theorem Moves.placed (h : Moves d e) : (e.node n).placed = (d.node n).placed := by
  induction h with
  | refl => rfl
  | gap _ ih => exact ((grows_withGap _ _ _).placed n).trans ih
  | expansion _ hb ih => exact ((grows_withExpansion hb).placed n).trans ih
  | @settle e k _ ih =>
    obtain ⟨u, hu⟩ := e.settle_eq k
    rw [hu]
    exact ih

/-- A search leaves no token and no note. -/
theorem Blank.moves (hb : d.Blank) (h : Moves d e) : e.Blank := by
  intro n hp
  rw [h.placed] at hp
  obtain ⟨hnote, hbody⟩ := h.unwritten n
  rw [hnote]
  exact ⟨(hb n hp).1, fun t ht => (hb n hp).2 t (hbody t ht)⟩

/-! ### Roles -/

/-- The blocks of a newline, and none yet for one without a note. -/
theorem blocksAt_eq_ok {b : Blocks} (h : d.blocksAt n = .ok b) :
    d.role? n = some .newline ∧ ((d.node n).note = none ∧ b = {} ∨ d.blocks? n = some b) := by
  unfold blocksAt at h
  split at h
  · rename_i hr hnote
    cases h
    exact ⟨hr, Or.inl ⟨hnote, rfl⟩⟩
  · rename_i b' hr hnote
    cases h
    exact ⟨hr, Or.inr (by rw [blocks?, hnote])⟩
  · cases h

/-- What a role does once its leaf is placed. -/
inductive Acts (d : Draft) (n : NodeId) : Draft → Prop
  | newline {b : Blocks} (hr : d.role? n = some .newline) (hb : d.blocksAt n = .ok b) :
      Acts d n (d.indentLine n b)
  | block {role : Role} {m : NodeId} {b : Blocks} (hrole : role = .indent ∨ role = .dedent)
      (hr : d.role? n = some role) (hm : (d.walkTo n .leafBefore .newline).head? = some m)
      (hb : d.blocksAt m = .ok b) : Acts d n (d.indentLine m (b.add n role))
  | binds {m s : NodeId} (hr : d.role? n = some .assign) (hm : d.leafBefore n = some m)
      (hname : d.role? m = some .name) (hs : (d.statementsAbove m).head? = some s) :
      Acts d n (d.modifyNode s fun node => { node with note := some (.statement (d.token? m)) })
  | idle (hr : ∀ role, d.role? n = some role →
      role ≠ .newline ∧ role ≠ .indent ∧ role ≠ .dedent) : Acts d n d

theorem acts_onFill (h : d.onFill n = .ok e) : Acts d n e := by
  have hblock : ∀ {role : Role}, role = .indent ∨ role = .dedent → d.role? n = some role →
      d.fillBlock n role = .ok e → Acts d n e := by
    intro role hrole hr hf
    unfold fillBlock at hf
    split at hf
    · cases hf
    · rename_i m hm
      rcases hb : d.blocksAt m with r | b
      · simp [hb, bind, Except.bind] at hf
      · simp only [hb, bind, Except.bind, pure, Except.pure, Except.ok.injEq] at hf
        exact hf ▸ .block hrole hr hm hb
  unfold onFill at h
  split at h
  · rename_i hr
    unfold fillNewline at h
    rcases hb : d.blocksAt n with r | b
    · simp [hb, bind, Except.bind] at h
    · simp only [hb, bind, Except.bind, pure, Except.pure, Except.ok.injEq] at h
      exact h ▸ .newline hr hb
  · rename_i hr
    exact hblock (Or.inl rfl) hr h
  · rename_i hr
    exact hblock (Or.inr rfl) hr h
  · rename_i hr
    have hidle : Acts d n d := .idle fun role hrole => by
      cases hr.symm.trans hrole
      simp
    unfold fillAssign at h
    split at h
    · cases h
    · rename_i m hm
      obtain ⟨hm, hname⟩ := Option.filter_eq_some_iff.1 hm
      split at h
      · cases h
        exact hidle
      · split at h
        · cases h
        · rename_i s hs
          unfold bindIn at h
          split at h
          · cases h
            exact .binds hr hm (by simpa using hname) hs
          · cases h
            exact .binds hr hm (by simpa using hname) hs
          · cases h
  all_goals
    rename_i hr
    cases h
    refine .idle fun role hrole => ?_
    cases hr.symm.trans hrole
  all_goals simp

theorem Sound.mem_leaves_of_leafBefore (h : d.Sound) (hn : n ∈ d.leaves)
    (hm : d.leafBefore n = some m) : m ∈ d.leaves := by
  obtain ⟨hp, hl⟩ := h.mem_leaves.1 hn
  rw [h.leafBefore_eq (hasNode_of_placed hp)] at hm
  rw [h.leaves_eq_around hp hl]
  exact List.mem_append_left _ (List.mem_of_getLast? hm)

theorem Sound.mem_leaves_of_walkTo (h : d.Sound) (hn : n ∈ d.leaves) {role : Role}
    (hm : (d.walkTo n .leafBefore role).head? = some m) : m ∈ d.before n ∧ d.role? m = some role := by
  have hmem := List.mem_of_head? hm
  rw [walkTo, h.walk_leafBefore hn, List.mem_filter, List.mem_reverse] at hmem
  exact ⟨hmem.1, by simpa using hmem.2⟩

/-- A role writes on one placed node. -/
theorem Acts.exists_written (ha : Acts d n e) (h : d.Sound) (hn : n ∈ d.leaves) :
    ∃ k, (d.node k).placed = true ∧ ∀ m, m ≠ k → e.node m = d.node m := by
  obtain ⟨hp, hl⟩ := h.mem_leaves.1 hn
  cases ha with
  | newline hr hb => exact ⟨n, hp, fun m hm => node_indentLine_of_ne hm _⟩
  | @block role k b _ _ hk _ =>
    obtain ⟨hmem, -⟩ := h.mem_leaves_of_walkTo hn hk
    have hk : k ∈ d.leaves := by
      rw [h.leaves_eq_around hp hl]
      exact List.mem_append_left _ hmem
    exact ⟨k, (h.mem_leaves.1 hk).1, fun m hm => node_indentLine_of_ne hm _⟩
  | @binds k s _ hk _ hs =>
    have hpk := (h.mem_leaves.1 (h.mem_leaves_of_leafBefore hn hk)).1
    have hs := List.mem_of_head? hs
    rw [statementsAbove, List.mem_filter, ancestors] at hs
    refine ⟨s, h.placed_of_mem_lineage (hasNode_of_placed hpk) hpk (List.mem_of_mem_tail hs.1),
      fun m hm => ?_⟩
    rw [node_modifyNode, if_neg fun heq => hm heq.1.symm]
  | idle => exact ⟨n, hp, fun _ _ => rfl⟩

theorem retouches_acts (ha : Acts d n e) : Retouches d e := by
  cases ha with
  | newline => exact retouches_indentLine d n _
  | block => exact retouches_indentLine d _ _
  | binds => exact retouches_note d _ _
  | idle => exact .refl d

/-! ### What a call to fill a leaf ends in -/

/-- The draft is the same, but for a token that the node may have been given. -/
def Given (d : Draft) (n : NodeId) (mid : Draft) : Prop :=
  mid = d ∨ ∃ t, mid = d.writeToken n t

theorem Given.retouches (h : Given d n mid) : Retouches d mid := by
  rcases h with rfl | ⟨t, rfl⟩
  · exact .refl mid
  · exact retouches_writeToken d n t

theorem Given.node (h : Given d n mid) (hne : m ≠ n) : mid.node m = d.node m := by
  rcases h with rfl | ⟨t, rfl⟩
  · rfl
  · exact node_writeToken_of_ne hne t

theorem Given.note (h : Given d n mid) (m : NodeId) : (mid.node m).note = (d.node m).note := by
  rcases h with rfl | ⟨t, rfl⟩
  · rfl
  · exact note_writeToken d n m t

theorem given_completed? (h : d.completed? n = some mid) : Given d n mid := by
  unfold completed? at h
  split at h
  · cases h
    exact Or.inl rfl
  · cases h
    exact Or.inr ⟨_, rfl⟩
  · cases h

/-- The leaf may be placed, and stands placed with its token in `mid.place n`. -/
structure Puts (d : Draft) (n : NodeId) (mid : Draft) : Prop where
  leaf : d.isLeaf n = true
  gap : (d.node n).placed = false
  ok : d.checkPlace n = .ok ()
  given : Given d n mid

theorem Puts.fills (h : Puts d n mid) (hr : Retouches (mid.place n) e) : Fills d n e :=
  ⟨h.leaf, h.gap, h.ok, mid, h.given.retouches, hr⟩

theorem Puts.note (h : Puts d n mid) (m : NodeId) : ((mid.place n).node m).note = (d.node m).note := by
  obtain ⟨p, b, hmoved⟩ := moved_place mid n m
  rw [hmoved, ← h.given.note]

/-- The ways in which a call to fill a leaf ends. -/
inductive FillOutcome (d : Draft) (n : NodeId) : EStateM.Result Refusal Draft Unit → Prop
  | refused {r : Refusal} (hr : ∀ m role missing, r ≠ .missingContext m role missing) :
      FillOutcome d n (.error r d)
  | already {e : Draft} (hl : d.isLeaf n = true) (hp : (d.node n).placed = true)
      (he : Given d n e) : FillOutcome d n (.ok () e)
  | filled {mid e : Draft} (hp : Puts d n mid) (ha : (mid.place n).onFill n = .ok e) :
      FillOutcome d n (.ok () e)
  | stuck {mid : Draft} {r : Refusal} (hp : Puts d n mid)
      (ha : (mid.place n).onFill n = .error r) : FillOutcome d n (.error r (mid.place n))

theorem checkPlaceAlong_ne_missingContext (ns : List NodeId) {m : NodeId} {role : Role}
    {missing : Missing} : d.checkPlaceAlong ns ≠ .error (.missingContext m role missing) := fun h => by
  obtain ⟨_, hr⟩ | ⟨_, _, _, hr⟩ | ⟨_, -, -, -, hr⟩ := checkPlaceAlong_eq_error h <;> cases hr

theorem checkToken_ne_missingContext {value : String} {role : Role} {missing : Missing} :
    d.checkToken n value ≠ .error (.missingContext m role missing) := fun h => by
  rcases checkToken_eq_error h with hr | hr | hr | hr <;> cases hr

theorem fillOutcome_fill (d : Draft) (n : NodeId) : FillOutcome d n (fill n d) := by
  rw [fill_eq]
  split
  · exact .refused (by simp)
  · rename_i hl
    rw [Bool.not_eq_false] at hl
    split
    · rename_i hp
      exact .already hl hp (Or.inl rfl)
    · rename_i hp
      have hp : (d.node n).placed = false := by simpa [isPlaced] using hp
      split
      · rename_i r hc
        refine .refused fun m role missing hr => ?_
        exact checkPlaceAlong_ne_missingContext _ (hc.trans (by rw [hr]))
      · rename_i hc
        split
        · exact .refused (by simp)
        · rename_i mid hco
          have hputs : Puts d n mid := ⟨hl, hp, hc, given_completed? hco⟩
          split
          · rename_i ha
            exact .filled hputs ha
          · rename_i ha
            exact .stuck hputs ha

/-- A leaf that was given its value first is filled, or was placed before. -/
theorem fillOutcome_writeToken {value : String} (hn : d.HasNode n)
    (ht : d.checkToken n value = .ok ()) (hc : d.checkPlace n = .ok ()) :
    FillOutcome d n (fill n (d.writeToken n value)) := by
  have hr := retouches_writeToken d n value
  have hl : d.isLeaf n = true := by
    unfold checkToken at ht
    rcases hl : d.isLeaf n with _ | _
    · simp [hl] at ht
    · rfl
  have hco : (d.writeToken n value).completed? n = some (d.writeToken n value) := by
    rw [completed?, token?_writeToken hn ht]
  rw [fill_eq, if_neg (by rw [hr.links.isLeaf, hl]; simp)]
  split
  · rename_i hp
    exact .already hl ((hr.placed n).symm.trans hp) (Or.inr ⟨value, rfl⟩)
  · rename_i hp
    rw [hr.checkPlace, hc, hco]
    have hputs : Puts d n (d.writeToken n value) :=
      ⟨hl, by simpa [isPlaced, hr.placed] using hp, hc, Or.inr ⟨value, rfl⟩⟩
    dsimp only
    split
    · rename_i ha
      exact .filled hputs ha
    · rename_i ha
      exact .stuck hputs ha

/-- Filling a leaf, with or without a value, ends in one of the ways. -/
theorem fillOutcome_fillWith (hn : d.HasNode n) (value : Option String) :
    FillOutcome d n (fillWith n value d) := by
  cases value with
  | none => exact fillOutcome_fill d n
  | some value =>
    rw [fillWith_some_eq]
    split
    · rename_i r ht
      refine .refused fun m role missing hr => ?_
      exact checkToken_ne_missingContext (ht.trans (by rw [hr]))
    · rename_i ht
      split
      · rename_i r hc
        refine .refused fun m role missing hr => ?_
        exact checkPlaceAlong_ne_missingContext _ (hc.trans (by rw [hr]))
      · rename_i hc
        exact fillOutcome_writeToken hn ht hc

/-! ### Notes of a draft in use -/

/-- The blocks that joined newlines are leaves of the draft. -/
def Joined (d : Draft) : Prop :=
  ∀ n b, d.blocks? n = some b → ∀ m ∈ b.starts ++ b.ends, m ∈ d.leaves

theorem blocks?_congr (h : (e.node n).note = (d.node n).note) : e.blocks? n = d.blocks? n := by
  rw [blocks?, h, blocks?]

theorem blocks?_eq_some {b : Blocks} :
    d.blocks? n = some b ↔ (d.node n).note = some (.newline b) := by
  unfold blocks?
  split <;> simp_all

theorem Joined.of_notes (hj : d.Joined) (hnote : ∀ m, (e.node m).note = (d.node m).note)
    (hl : ∀ m ∈ d.leaves, m ∈ e.leaves) : e.Joined := fun n b hb m hm =>
  hl m (hj n b ((blocks?_congr (hnote n)).symm.trans hb) m hm)

theorem joined_start (g : Grammar) (settings : Settings) (u : List Grammar.SymbolId) :
    (start g settings u).Joined := fun n b hb => by
  have hnone := (blank_of_not_has (d := start g settings u) (n := n)
    (by simp [HasNode, start, withChoice])).1
  rw [blocks?_eq_some, hnone] at hb
  cases hb

/-- A search joins no blocks. -/
theorem Joined.keeps (hj : d.Joined) (h : d.Sound) (hk : Keeps d e) (hb : e.Blank) : e.Joined := by
  intro n b hn m hm
  rw [hk.leaves h]
  have hnote := blocks?_eq_some.1 hn
  have hhas : d.HasNode n := by
    by_contra hnot
    have hp : (e.node n).placed = false := by
      rw [hk.grows.placed, node_of_not_has hnot]
      rfl
    rw [(hb n hp).1] at hnote
    cases hnote
  rw [(hk.grows.node_eq hhas).2.2.2] at hnote
  exact hj n b (blocks?_eq_some.2 hnote) m hm

theorem Blocks.mem_add {b : Blocks} {role : Role} (hm : m ∈ (b.add n role).starts ++ (b.add n role).ends) :
    m ∈ b.starts ++ b.ends ∨ m = n := by
  unfold Blocks.add at hm
  split at hm <;> simp at hm ⊢ <;> tauto

/-- A role joins at most its own leaf. -/
theorem Joined.acts (hj : d.Joined) (h : d.Sound) (hn : n ∈ d.leaves) (ha : Acts d n e) :
    e.Joined := by
  have hleaves := (retouches_acts ha).leaves
  have hline : ∀ {k b}, k ∈ d.leaves → (∀ m ∈ b.starts ++ b.ends, m ∈ d.leaves) →
      e = d.indentLine k b → e.Joined := by
    intro k b hk hb he x b' hx m hm
    rw [hleaves]
    rw [he] at hx
    have hhas := hasNode_of_placed (h.mem_leaves.1 hk).1
    by_cases hxk : x = k
    · rw [hxk, blocks?_eq_some, note_indentLine hhas, Option.some.injEq, Note.newline.injEq] at hx
      exact hb m (hx ▸ hm)
    · rw [blocks?_congr (congrArg Node.note (node_indentLine_of_ne hxk b))] at hx
      exact hj x b' hx m hm
  have hat : ∀ {k b}, d.blocksAt k = .ok b → ∀ m ∈ b.starts ++ b.ends, m ∈ d.leaves := by
    intro k b hb m hm
    rcases (blocksAt_eq_ok hb).2 with ⟨-, rfl⟩ | hb
    · simp at hm
    · exact hj k b hb m hm
  cases ha with
  | newline hr hb => exact hline hn (hat hb) rfl
  | @block role k b _ _ hk hb =>
    obtain ⟨hmem, -⟩ := h.mem_leaves_of_walkTo hn hk
    obtain ⟨hp, hl⟩ := h.mem_leaves.1 hn
    refine hline ?_ (fun m hm => ?_) rfl
    · rw [h.leaves_eq_around hp hl]
      exact List.mem_append_left _ hmem
    · rcases Blocks.mem_add hm with hm | rfl
      · exact hat hb m hm
      · exact hn
  | @binds k s =>
    intro x b hx m hm
    rw [hleaves]
    refine hj x b ?_ m hm
    rw [blocks?_eq_some, node_modifyNode] at hx
    split at hx
    · cases hx
    · exact blocks?_eq_some.2 hx
  | idle => exact hj

/-- What is filled keeps the rest blank. -/
theorem Blank.fills (hb : d.Blank) (h : d.Sound) (hn : d.HasNode n) (hp : Puts d n mid)
    (ha : e = mid.place n ∨ Acts (mid.place n) n e) : e.Blank := by
  have hr : Retouches (mid.place n) e := by
    rcases ha with rfl | ha
    · exact .refl _
    · exact retouches_acts ha
  have hf := hp.fills hr
  have hfp := hp.fills (.refl _)
  intro m hm
  have hmn : m ≠ n := by
    rintro rfl
    rw [(hf.isPlaced h hn).1] at hm
    cases hm
  have hmd : (d.node m).placed = false := by
    by_contra hmd
    rw [(hf.isPlaced h hn).2 m (by simpa using hmd)] at hm
    cases hm
  have hnode : e.node m = (mid.place n).node m := by
    rcases ha with rfl | ha
    · rfl
    · obtain ⟨k, hk, hne⟩ := ha.exists_written (hfp.sound h hn).1 (hfp.mem_leaves h hn).1
      refine hne m ?_
      rintro rfl
      rw [← hr.placed, hm] at hk
      cases hk
  obtain ⟨p, b, hmoved⟩ := moved_place mid n m
  rw [hnode, hmoved, hp.given.node hmn]
  exact hb m hmd

theorem Joined.fills (hj : d.Joined) (h : d.Sound) (hn : d.HasNode n) (hp : Puts d n mid)
    (ha : e = mid.place n ∨ Acts (mid.place n) n e) : e.Joined := by
  have hf := hp.fills (.refl _)
  have hplace : (mid.place n).Joined := hj.of_notes hp.note (hf.mem_leaves h hn).2
  rcases ha with rfl | ha
  · exact hplace
  · exact hplace.acts (hf.sound h hn).1 (hf.mem_leaves h hn).1 ha

end Cloze.Draft
