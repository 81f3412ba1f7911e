import Cloze.Proofs.Outcome
import Cloze.Proofs.Sound

/-!
# What filling a leaf does

A leaf is filled in one go: if its place is checked and it has a token, it is placed, and then its
role acts on tokens and notes alone (`fill_eq`, `Fills`). A refusal before that leaves the draft as
it was, but for the token the leaf was given; a refusal by the role leaves the leaf placed. Either
way a sound draft stays sound.
-/

namespace Cloze.Draft

open Edit

variable {d e : Draft} {n : NodeId}

/-- The draft in which a leaf has the token it can be filled with. -/
def completed? (d : Draft) (n : NodeId) : Option Draft :=
  match d.token? n, (d.role? n).bind Role.defaultToken? with
  | some _, _ => some d
  | none, some token => some (d.writeToken n token)
  | none, none => none

theorem fill_eq (n : NodeId) (d : Draft) : fill n d =
    if d.isLeaf n = false then .error (.notALeaf n) d
    else if d.isPlaced n = true then .ok () d
    else match d.checkPlace n with
      | .error r => .error r d
      | .ok _ => match d.completed? n with
        | none => .error (.missingToken (d.caption n)) d
        | some e => match (e.place n).onFill n with
          | .ok f => .ok () f
          | .error r => .error r (e.place n) := by
  simp only [fill, bind, EStateM.bind, Edit.run_get]
  cases hl : d.isLeaf n with
  | false => rfl
  | true =>
    cases hp : d.isPlaced n with
    | true => rfl
    | false =>
      simp only [Bool.not_true, Bool.false_eq_true, if_false, check, bind, EStateM.bind, Edit.run_get,
        Bool.true_eq_false]
      cases hc : d.checkPlace n with
      | error r => rfl
      | ok u =>
        simp only [pure, EStateM.pure, completeToken, completed?, bind, EStateM.bind, Edit.run_get]
        rcases d.token? n with _ | token
        · rcases (d.role? n).bind Role.defaultToken? with _ | token
          · rfl
          · simp only [Edit.run_set, Edit.run_modify, update, bind, EStateM.bind, Edit.run_get]
            cases ((d.writeToken n token).place n).onFill n <;> rfl
        · simp only [EStateM.pure, Edit.run_modify, update, bind, EStateM.bind, Edit.run_get]
          cases (d.place n).onFill n <;> rfl

theorem fillWith_some_eq (n : NodeId) (value : String) (d : Draft) : fillWith n (some value) d =
    match d.checkToken n value with
    | .error r => .error r d
    | .ok _ => match d.checkPlace n with
      | .error r => .error r d
      | .ok _ => fill n (d.writeToken n value) := by
  simp only [fillWith, check, bind, EStateM.bind, Edit.run_get]
  cases d.checkToken n value with
  | error r => rfl
  | ok u =>
    simp only [pure, EStateM.pure]
    cases d.checkPlace n <;> rfl

theorem giveToken_eq (n : NodeId) (value : String) (d : Draft) : giveToken n value d =
    match d.checkToken n value with
    | .error r => .error r d
    | .ok _ => .ok () (d.writeToken n value) := by
  simp only [giveToken, check, bind, EStateM.bind, Edit.run_get]
  cases d.checkToken n value <;> rfl

/-- The reasons for which a place is refused. -/
def Refusal.IsPlacing : Refusal → Prop
  | .slotFull _ | .outOfOrder _ _ _ | .branchConflict _ _ _ => True
  | _ => False

/-- The leaf has been placed, and but for that only tokens and notes differ. -/
structure Fills (d : Draft) (n : NodeId) (e : Draft) : Prop where
  leaf : d.isLeaf n = true
  gap : (d.node n).placed = false
  ok : d.checkPlace n = .ok ()
  placed : ∃ mid, Retouches d mid ∧ Retouches (mid.place n) e

theorem retouches_completed? (h : d.completed? n = some e) : Retouches d e := by
  unfold completed? at h
  split at h
  · cases h
    exact .refl d
  · cases h
    exact retouches_writeToken d n _
  · cases h

theorem Retouches.node_eq (h : Retouches d e) (n : NodeId) :
    (e.node n).placed = (d.node n).placed ∧ (e.node n).position = (d.node n).position
      ∧ (e.node n).slot = (d.node n).slot :=
  ⟨h.placed n, h.position n, (h.links.node n).2⟩

theorem Retouches.isFull (h : Retouches d e) (s : SlotId) : e.isFull s = d.isFull s := by
  rw [Draft.isFull, Draft.isFull, h.links.multiplicity, h.slot]

/-- Tokens and notes do not matter for places. -/
theorem Retouches.checkPlaceAlong (h : Retouches d e) : ∀ ns : List NodeId,
    e.checkPlaceAlong ns = d.checkPlaceAlong ns
  | [] => rfl
  | n :: ns => by
    obtain ⟨h1, h2, h3⟩ := h.node_eq n
    simp only [Draft.checkPlaceAlong, h1, h2, h3, h.slot, h.choice, h.isFull,
      Retouches.checkPlaceAlong h ns]

theorem Retouches.checkPlace (h : Retouches d e) (n : NodeId) :
    e.checkPlace n = d.checkPlace n := by
  rw [Draft.checkPlace, Draft.checkPlace, h.links.lineage, h.checkPlaceAlong]

theorem Fills.of_retouches {f : Draft} (h : Retouches d e) (hf : Fills e n f) : Fills d n f := by
  obtain ⟨mid, h1, h2⟩ := hf.placed
  exact ⟨(h.links.isLeaf n).symm.trans hf.leaf, (h.placed n).symm.trans hf.gap,
    (h.checkPlace n).symm.trans hf.ok, mid, h.trans h1, h2⟩

theorem checkToken_eq_error {value : String} {r : Refusal} (h : d.checkToken n value = .error r) :
    r = .notALeaf n ∨ r = .fixedToken n ∨ r = .tokenAlreadySet n ∨
      r = .tokenRejected (d.caption n) value := by
  unfold checkToken at h
  split at h
  · cases h
    exact Or.inl rfl
  · split at h
    · cases h
      exact Or.inr (Or.inl rfl)
    · split at h
      · cases h
        exact Or.inr (Or.inr (Or.inl rfl))
      · split at h
        · cases h
        · cases h
          exact Or.inr (Or.inr (Or.inr rfl))

/-- A place is refused for a slot that is full, a gap that wants a place beyond the end of its slot,
or another branch taken. -/
theorem checkPlaceAlong_eq_error : ∀ {ns : List NodeId} {r : Refusal},
    d.checkPlaceAlong ns = .error r → (∃ s, r = .slotFull s) ∨ (∃ m b k, r = .branchConflict m b k) ∨
      ∃ m ∈ ns, (d.node m).placed = false ∧
        (d.slot (d.node m).slot).content.length < (d.node m).position ∧
        r = .outOfOrder m (d.node m).position (d.slot (d.node m).slot).content.length
  | [], r, h => by cases h
  | m :: ns, r, h => by
    unfold checkPlaceAlong at h
    dsimp only at h
    split at h
    · cases h
    · rename_i hp
      split at h
      · cases h
        exact Or.inl ⟨_, rfl⟩
      · split at h
        · rename_i hlt
          cases h
          exact Or.inr (Or.inr ⟨m, List.mem_cons_self, by simpa using hp, hlt, rfl⟩)
        · split at h
          · split at h
            · cases h
            · cases h
              exact Or.inr (Or.inl ⟨_, _, _, rfl⟩)
          · obtain hr | hr | ⟨k, hk, hr⟩ := checkPlaceAlong_eq_error h
            · exact Or.inl hr
            · exact Or.inr (Or.inl hr)
            · exact Or.inr (Or.inr ⟨k, List.mem_cons_of_mem _ hk, hr⟩)

/-- The role that keeps such a note. -/
def Note.role : Note → Role
  | .newline _ => .newline
  | .statement _ => .statement

theorem blocksAt_eq_error {r : Refusal} (hr : d.role? n = some .newline)
    (h : d.blocksAt n = .error r) : r = .wrongNote n .newline ∧
      ∃ note, (d.node n).note = some note ∧ note.role ≠ .newline := by
  rcases hnote : (d.node n).note with _ | note
  · simp [blocksAt, hr, hnote] at h
  · cases note with
    | newline b => simp [blocksAt, hr, hnote] at h
    | statement name =>
      simp only [blocksAt, hr, hnote, Except.error.injEq] at h
      exact ⟨h.symm, _, rfl, by simp [Note.role]⟩

theorem bindIn_eq_error {r : Refusal} {name : Option String} (hr : d.role? n = some .statement)
    (h : d.bindIn n name = .error r) : r = .wrongNote n .statement ∧
      ∃ note, (d.node n).note = some note ∧ note.role ≠ .statement := by
  rcases hnote : (d.node n).note with _ | note
  · simp [bindIn, hr, hnote] at h
  · cases note with
    | statement name => simp [bindIn, hr, hnote] at h
    | newline b =>
      simp only [bindIn, hr, hnote, Except.error.injEq] at h
      exact ⟨h.symm, _, rfl, by simp [Note.role]⟩

theorem role?_of_mem_head {direction : Direction} {role : Role} {m : NodeId}
    (h : (d.walkTo n direction role).head? = some m) : d.role? m = some role := by
  simpa using (List.mem_filter.1 (List.mem_of_head? h)).2

theorem role?_of_statementsAbove {m : NodeId} (h : (d.statementsAbove n).head? = some m) :
    d.role? m = some .statement := by
  simpa using (List.mem_filter.1 (List.mem_of_head? h)).2

/-- A role refuses because it misses something around its leaf, or because a node has a note of
another role. -/
theorem onFill_eq_error {r : Refusal} (h : d.onFill n = .error r) :
    (∃ role missing, d.role? n = some role ∧ r = .missingContext n role missing) ∨
    ∃ m role note, d.role? m = some role ∧ (d.node m).note = some note ∧ note.role ≠ role ∧
      r = .wrongNote m role := by
  have hblocks : ∀ {m}, d.role? m = some .newline → d.blocksAt m = .error r →
      ∃ m role note, d.role? m = some role ∧ (d.node m).note = some note ∧ note.role ≠ role ∧
        r = .wrongNote m role := by
    intro m hm hb
    obtain ⟨hr, note, hnote, hne⟩ := blocksAt_eq_error hm hb
    exact ⟨m, .newline, note, hm, hnote, hne, hr⟩
  have hblock : ∀ {role}, d.role? n = some role → d.fillBlock n role = .error r →
      (∃ role missing, d.role? n = some role ∧ r = .missingContext n role missing) ∨
      ∃ m role note, d.role? m = some role ∧ (d.node m).note = some note ∧ note.role ≠ role ∧
        r = .wrongNote m role := by
    intro role hrole hf
    unfold fillBlock at hf
    split at hf
    · cases hf
      exact Or.inl ⟨role, _, hrole, rfl⟩
    · rename_i m hm
      rcases hb : d.blocksAt m with r' | b
      · simp only [hb, bind, Except.bind, Except.error.injEq] at hf
        exact Or.inr (hblocks (role?_of_mem_head hm) (hf ▸ hb))
      · simp [hb, bind, Except.bind, pure, Except.pure] at hf
  unfold onFill at h
  split at h
  · rename_i hrole
    unfold fillNewline at h
    rcases hb : d.blocksAt n with r' | b
    · simp only [hb, bind, Except.bind, Except.error.injEq] at h
      exact Or.inr (hblocks hrole (h ▸ hb))
    · simp [hb, bind, Except.bind, pure, Except.pure] at h
  · rename_i hrole
    exact hblock hrole h
  · rename_i hrole
    exact hblock hrole h
  · rename_i hrole
    unfold fillAssign at h
    split at h
    · cases h
      exact Or.inl ⟨_, _, hrole, rfl⟩
    · split at h
      · cases h
      · split at h
        · cases h
          exact Or.inl ⟨_, _, hrole, rfl⟩
        · rename_i s hs
          obtain ⟨hr, note, hnote, hne⟩ := bindIn_eq_error (role?_of_statementsAbove hs) h
          exact Or.inr ⟨s, .statement, note, role?_of_statementsAbove hs, hnote, hne, hr⟩
  all_goals cases h

/-- What a role refuses is not the place. -/
theorem not_isPlacing_of_onFill {r : Refusal} (h : d.onFill n = .error r) : ¬ r.IsPlacing := by
  obtain ⟨role, missing, -, rfl⟩ | ⟨m, role, note, -, -, -, rfl⟩ := onFill_eq_error h
  · exact id
  · exact id

/-- Filling a leaf fills it, or leaves the draft as it was. -/
theorem ensures_fill (n : NodeId) (d : Draft) : Ensures (fill n) d
    (fun _ e => Fills d n e ∨ e = d ∧ d.isPlaced n = true)
    fun r e => Fills d n e ∧ ¬ r.IsPlacing
      ∨ e = d ∧ (r.IsPlacing → d.checkPlace n = .error r) := by
  rw [Ensures, fill_eq]
  cases hl : d.isLeaf n with
  | false => exact Or.inr ⟨rfl, False.elim⟩
  | true =>
    cases hp : d.isPlaced n with
    | true => exact Or.inr ⟨rfl, rfl⟩
    | false =>
      simp only [Bool.true_eq_false, if_false, Bool.false_eq_true]
      cases hc : d.checkPlace n with
      | error r => exact Or.inr ⟨rfl, fun _ => rfl⟩
      | ok u =>
        rcases hco : d.completed? n with _ | mid
        · exact Or.inr ⟨rfl, False.elim⟩
        · have hmid := retouches_completed? hco
          dsimp only
          cases hon : (mid.place n).onFill n with
          | ok f => exact Or.inl ⟨hl, hp, hc, mid, hmid, retouches_onFill hon⟩
          | error r =>
            exact Or.inl ⟨⟨hl, hp, hc, mid, hmid, .refl _⟩, not_isPlacing_of_onFill hon⟩

theorem not_isPlacing_of_checkToken {value : String} {r : Refusal}
    (h : d.checkToken n value = .error r) : ¬ r.IsPlacing := by
  rcases checkToken_eq_error h with rfl | rfl | rfl | rfl <;> exact id

/-- Filling a leaf with or without a value fills it, or changes tokens at most. -/
theorem ensures_fillWith (n : NodeId) (value : Option String) (d : Draft) :
    Ensures (fillWith n value) d (fun _ e => Fills d n e ∨ Retouches d e ∧ d.isPlaced n = true)
      fun r e => (Fills d n e ∧ ¬ r.IsPlacing)
        ∨ Retouches d e ∧ (r.IsPlacing → d.checkPlace n = .error r) := by
  cases value with
  | none =>
    refine (ensures_fill n d).mono (fun _ e h => h.imp id ?_) fun r e h => h.imp id ?_
    · rintro ⟨rfl, hp⟩
      exact ⟨.refl e, hp⟩
    · rintro ⟨rfl, hr⟩
      exact ⟨.refl e, hr⟩
  | some v =>
    rw [Ensures, fillWith_some_eq]
    cases hct : d.checkToken n v with
    | error r => exact Or.inr ⟨.refl d, fun hp => absurd hp (not_isPlacing_of_checkToken hct)⟩
    | ok u =>
      cases hcp : d.checkPlace n with
      | error r => exact Or.inr ⟨.refl d, fun _ => rfl⟩
      | ok u' =>
        have hr := retouches_writeToken d n v
        refine (ensures_fill n (d.writeToken n v)).mono (fun _ e h => ?_) fun r e h => ?_
        · rcases h with h | ⟨rfl, hp⟩
          · exact Or.inl (h.of_retouches hr)
          · exact Or.inr ⟨hr, (hr.placed n).symm.trans hp⟩
        · rcases h with ⟨h, hnp⟩ | ⟨rfl, hpl⟩
          · exact Or.inl ⟨h.of_retouches hr, hnp⟩
          · refine Or.inr ⟨hr, fun hp => ?_⟩
            have := hpl hp
            rw [hr.checkPlace, hcp] at this
            cases this

/-! ### Filling keeps a draft sound -/

theorem Sound.of_retouches (h : d.Sound) (hr : Retouches d e) : e.Sound :=
  ⟨hr.links.linked h.linked, hr.settled h.settled, by
    rw [hr.links.grammar, hr.unskippable]
    exact h.honest⟩

theorem Places.unskippable (h : Places d n e) : e.unskippable = d.unskippable := by
  induction h with
  | stop hp hfull hk => exact (insert_frame _ _).2.2.1
  | up hp hfull hk hm _ ih => exact ih.trans (insert_frame _ _).2.2.1

theorem Sound.places (h : d.Sound) (hn : d.HasNode n) (hl : d.isLeaf n = true)
    (hp : (d.node n).placed = false) (hc : d.checkPlace n = .ok ()) : Places d n (d.place n) :=
  places_place h.linked h.settled hn hl hp hc

theorem Sound.of_places (h : d.Sound) (hn : d.HasNode n) (hl : d.isLeaf n = true)
    (hp : Places d n e) : e.Sound ∧ SameLinks d e := by
  obtain ⟨hs, hlinks⟩ := hp.settled h.linked h.settled hn (Or.inr ⟨rfl, hl⟩)
  refine ⟨⟨hlinks.linked h.linked, hs, ?_⟩, hlinks⟩
  rw [hlinks.grammar, hp.unskippable]
  exact h.honest

/-- A leaf is filled level by level. -/
theorem Fills.exists_places (hf : Fills d n e) (h : d.Sound) (hn : d.HasNode n) :
    ∃ mid, Retouches d mid ∧ mid.Sound ∧ Places mid n (mid.place n) ∧ Retouches (mid.place n) e := by
  obtain ⟨mid, h1, h2⟩ := hf.placed
  have hm := h.of_retouches h1
  exact ⟨mid, h1, hm, hm.places (h1.links.hasNode.2 hn) ((h1.links.isLeaf n).trans hf.leaf)
    ((h1.placed n).trans hf.gap) ((h1.checkPlace n).trans hf.ok), h2⟩

theorem Fills.sound (hf : Fills d n e) (h : d.Sound) (hn : d.HasNode n) :
    e.Sound ∧ SameLinks d e := by
  obtain ⟨mid, h1, hm, hp, h2⟩ := hf.exists_places h hn
  obtain ⟨hs, hl⟩ := hm.of_places (h1.links.hasNode.2 hn) ((h1.links.isLeaf n).trans hf.leaf) hp
  exact ⟨hs.of_retouches h2, (h1.links.trans hl).trans h2.links⟩

end Cloze.Draft
