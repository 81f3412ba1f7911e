import Cloze.Proofs.Ending

/-!
# What can be left out, weighed turn by turn

To tell whether a node can be skipped, its branches are gone through slot by slot, and a gap in a
slot raises the same question again. A weighing does not call itself for that. The nodes whose
branches are being gone through are inquiries on a stack: the answer about a gap is told to the one
on top, which then goes on with its next slot or its next branch (`weigh`). Nothing bounds how many
turns are taken.

Whatever waits on the stack, a weighing goes on from a node with the answer that the search has, so
it ends as the search does (`Over.weighs_canSkipWithin`). The answer is yes if the node is not placed
and is a further occurrence in its slot or its symbol can stand for nothing, whatever earlier searches
have laid out and remembered (`weighing_tells_nullable`).
-/

namespace Cloze

open Draft

namespace Quest

/-- A node whose branches are gone through for one that can be skipped. -/
structure Inquiry where
  symbol : Grammar.SymbolId
  /-- The slot of the node must get a first occurrence yet. -/
  unmet : Bool
  rows : List (List SlotId)
  /-- The branch at hand. -/
  row : Nat := 0
  /-- The place of the slot at hand in that branch. -/
  slot : Nat := 0

namespace Inquiry

/-- The inquiry into a node with the given branches, about to begin. -/
def about (d : Draft) (n : NodeId) (rows : List (List SlotId)) : Inquiry where
  symbol := (d.node n).symbol
  unmet := d.multiplicity (d.node n).slot == .plus && (d.slot (d.node n).slot).content.isEmpty
  rows

def nextSlot (i : Inquiry) : Inquiry :=
  { i with slot := i.slot + 1 }

def nextRow (i : Inquiry) : Inquiry :=
  { i with row := i.row + 1, slot := 0 }

/-- The inquiry once it is told whether the slot at hand can be skipped. -/
def told (i : Inquiry) : (answer : Option Bool) → Inquiry
  | none => i
  | some true => i.nextSlot
  | some false => i.nextRow

/-- Remembers that the symbol cannot be skipped, unless the slot is unmet. -/
def close (i : Inquiry) (d : Draft) : Draft :=
  if d.settings.memoize && !i.unmet then
    { d with unskippable := i.symbol :: d.unskippable }
  else
    d

end Inquiry

/-- The inquiries that are open, each waiting for the one on top of it. -/
abbrev Stack := List Inquiry

/-- What is known of a node at sight, or else the inquiry into its branches. -/
def inquire (n : NodeId) : Edit (Bool ⊕ Inquiry) := do
  let d ← get
  match d.skipAtSight? n with
  | some answer => pure (.inl answer)
  | none =>
    match ← reveal n with
    | none => pure (.inl false)
    | some c => pure (.inr (.about d n ((← get).choice c).branches))

/-- One turn of the inquiry on top: what is on the stack then, and what its top is to be told. -/
def turn (i : Inquiry) (waiting : Stack) : Edit (Stack × Option Bool) := do
  match i.rows[i.row]? with
  | none =>
    modify i.close
    pure (waiting, some false)
  | some row =>
    match row[i.slot]? with
    | none => pure (waiting, some true)
    | some s =>
      let d ← get
      if !(d.slot s).content.isEmpty then
        pure (i.nextRow :: waiting, none)
      else if d.isFree s then
        pure (i.nextSlot :: waiting, none)
      else
        match ← inquire (← gap s 0) with
        | .inl answer => pure (i :: waiting, some answer)
        | .inr j => pure (j :: i :: waiting, none)

/-- Takes turns until nothing waits any more. -/
def Stack.weigh : Stack → (answer : Option Bool) → Quest Bool
  | [], answer => pure (answer.getD false)
  | i :: waiting, answer => do
    let (stack, answer) ← lift (turn (i.told answer) waiting)
    stack |>.weigh answer
partial_fixpoint

open Stack

/-- Whether a node can be skipped. -/
def canSkip (n : NodeId) : Quest Bool := do
  match ← lift (inquire n) with
  | .inl answer => pure answer
  | .inr i => weigh [i] none

/-! ### Edits that a quest begins with -/

section

variable {α β γ : Type} {d e : Draft}

theorem run_lift_bind (act : Edit α) (k : α → Quest β) (d : Draft) : (lift act >>= k) d =
    match act d with
    | .ok a e => k a e
    | .error r e => some (.error r, e) := by
  simp only [Bind.bind, ExceptT.bind, StateT.bind, ExceptT.mk, lift]
  cases act d <;> rfl

theorem lift_bind_congr {act : Edit α} {k k' : α → Quest β}
    (h : ∀ a e, act d = .ok a e → k a e = k' a e) : (lift act >>= k) d = (lift act >>= k') d := by
  rw [run_lift_bind, run_lift_bind]
  cases hr : act d with
  | ok a e => exact h a e hr
  | error r e => rfl

theorem lift_bind_assoc (act : Edit α) (k : α → Edit β) (k' : β → Quest γ) :
    (lift (act >>= k) >>= k') = lift act >>= fun a => lift (k a) >>= k' := by
  funext d
  rw [run_lift_bind, run_lift_bind]
  simp only [Bind.bind, EStateM.bind]
  cases act d with
  | ok a e => exact (run_lift_bind (k a) k' e).symm
  | error r e => rfl

end

/-! ### Turns -/

variable {i : Inquiry} {waiting : Stack} {answer : Option Bool}

theorem weigh_nil : weigh [] answer = pure (answer.getD false) := by
  rw [weigh]

theorem weigh_cons : weigh (i :: waiting) answer =
    lift (turn (i.told answer) waiting) >>= fun p => weigh p.1 p.2 := by
  rw [weigh]

/-- An answer may be told before the turn. -/
theorem weigh_told : weigh (i :: waiting) answer = weigh (i.told answer :: waiting) none := by
  rw [weigh_cons, weigh_cons, Inquiry.told]

/-- The question about a node while inquiries wait for the answer. -/
def ask (waiting : Stack) (n : NodeId) : Quest Bool := do
  match ← lift (inquire n) with
  | .inl answer => weigh waiting (some answer)
  | .inr i => weigh (i :: waiting) none

theorem weigh_of_rows_done (h : i.rows[i.row]? = none) : weigh (i :: waiting) none =
    lift (modify i.close) >>= fun _ => weigh waiting (some false) := by
  rw [weigh_cons, Inquiry.told, turn, h]
  exact lift_bind_assoc _ _ _

theorem weigh_of_row_done {row : List SlotId} (h : i.rows[i.row]? = some row)
    (hs : row[i.slot]? = none) : weigh (i :: waiting) none = weigh waiting (some true) := by
  rw [weigh_cons, Inquiry.told, turn, h]
  simp only [hs]
  rfl

theorem weigh_of_slot {d : Draft} {row : List SlotId} {s : SlotId} (h : i.rows[i.row]? = some row)
    (hs : row[i.slot]? = some s) : weigh (i :: waiting) none d =
      (if !(d.slot s).content.isEmpty then weigh (i.nextRow :: waiting) none
      else if d.isFree s then weigh (i.nextSlot :: waiting) none
      else lift (gap s 0) >>= ask (i :: waiting)) d := by
  rw [weigh_cons, Inquiry.told, turn, h]
  simp only [hs, lift_bind_assoc]
  rw [run_lift_bind]
  simp only [Edit.run_get]
  split
  · rfl
  · split
    · rfl
    · rw [lift_bind_assoc]
      refine lift_bind_congr fun n e _ => ?_
      rw [lift_bind_assoc]
      refine lift_bind_congr fun answer f _ => ?_
      cases answer <;> rfl

theorem ask_of_seen {d : Draft} {n : NodeId} {b : Bool} (h : d.skipAtSight? n = some b) :
    ask waiting n d = weigh waiting (some b) d := by
  rw [ask, inquire, lift_bind_assoc, run_lift_bind]
  simp only [Edit.run_get, h]
  rfl

theorem ask_of_unseen {d : Draft} {n : NodeId} (h : d.skipAtSight? n = none) :
    ask waiting n d = (lift (reveal n) >>= fun c => match c with
      | none => weigh waiting (some false)
      | some c => lift get >>= fun e =>
        weigh (.about d n (e.choice c).branches :: waiting) none) d := by
  rw [ask, inquire, lift_bind_assoc, run_lift_bind]
  simp only [Edit.run_get, h]
  rw [lift_bind_assoc]
  refine lift_bind_congr fun c e _ => ?_
  cases c <;> rfl

theorem canSkip_eq_ask (n : NodeId) : canSkip n = ask [] n := by
  unfold canSkip ask
  simp only [weigh_nil, Option.getD_some]

end Quest

namespace Draft

open Edit Quest Stack

variable {α β γ : Type} {g : Grammar} {limit : Nat} {d e : Draft} {n : NodeId}

/-- On the draft the quest begins with the edit and goes on with its value, and the draft has only
grown if the edit succeeds. -/
structure GoesOn (q : Quest β) (act : Edit α) (k : α → Quest β) (d : Draft) : Prop where
  same : q d = (lift act >>= k) d
  keeps : ∀ a e, act d = .ok a e → Keeps d e

theorem GoesOn.same_bind {q : Quest γ} {act : Edit α} {k : α → Quest γ} {next : α → Edit β}
    {k' : β → Quest γ} (h : GoesOn q act k d)
    (hk : ∀ a e, act d = .ok a e → Keeps d e → k a e = (lift (next a) >>= k') e) :
    q d = (lift (act >>= next) >>= k') d := by
  rw [h.same, lift_bind_assoc]
  exact lift_bind_congr fun a e ha => hk a e ha (h.keeps a e ha)

theorem GoesOn.bind {q : Quest γ} {act : Edit α} {k : α → Quest γ} {next : α → Edit β}
    {k' : β → Quest γ} (h : GoesOn q act k d)
    (hk : ∀ a e, act d = .ok a e → Keeps d e → GoesOn (k a) (next a) k' e) :
    GoesOn q (act >>= next) k' d := by
  refine ⟨h.same_bind fun a e ha hke => (hk a e ha hke).same, fun b f hb => ?_⟩
  obtain ⟨a, e, ha, hb⟩ := exists_of_run_bind hb
  exact (h.keeps a e ha).trans ((hk a e ha (h.keeps a e ha)).keeps b f hb)

theorem goesOn_pure (h : d.Sound) {a : α} {q : Quest β} {k : α → Quest β} (hq : q = k a) :
    GoesOn q (pure a) k d :=
  ⟨by rw [hq]; rfl, fun b e hb => by
    cases hb
    exact .refl h⟩

theorem goesOn_lift {act : Edit α} (k : α → Quest β) (h : ∀ a e, act d = .ok a e → Keeps d e) :
    GoesOn (lift act >>= k) act k d :=
  ⟨rfl, h⟩

/-- The quest and the edit look at the draft first. -/
theorem GoesOn.of_look {q q' : Quest β} {next : Draft → Edit α} {k : α → Quest β}
    (h : GoesOn q' (next d) k d) (hq : q d = q' d) : GoesOn q (get >>= next) k d :=
  ⟨hq.trans h.same, h.keeps⟩

/-- With any inquiries waiting, the question about the node goes on with the answer of the search. -/
def Weighs (inside : NodeId → Edit Bool) (d : Draft) (n : NodeId) : Prop :=
  ∀ waiting, GoesOn (ask waiting n) (inside n) (fun b => weigh waiting (some b)) d

/-- So do the questions about the gaps of the slots, now and later. -/
def WeighsIn (inside : NodeId → Edit Bool) (d : Draft) (slots : List SlotId) : Prop :=
  ∀ s ∈ slots, d.HasSlot s ∧ ∀ e n, Keeps d e → GapAt e s 0 n → Weighs inside e n

theorem WeighsIn.keeps {inside : NodeId → Edit Bool} {slots : List SlotId}
    (h : WeighsIn inside d slots) (hk : Keeps d e) : WeighsIn inside e slots :=
  fun s hs => ⟨hk.grows.hasSlot (h s hs).1, fun f n hk' hn => (h s hs).2 f n (hk.trans hk') hn⟩

/-- An inquiry goes through what is left of the branch at hand. -/
theorem Sound.weigh_everySlot {inside : NodeId → Edit Bool} {row : List SlotId}
    (waiting : Stack) : ∀ {rest : List SlotId} {i : Inquiry} {d : Draft}, d.Sound →
    i.rows[i.row]? = some row → row.drop i.slot = rest → WeighsIn inside d rest →
    GoesOn (weigh (i :: waiting) none) (everySlot inside rest)
      (fun b => if b then weigh waiting (some true) else weigh (i.nextRow :: waiting) none) d
  | [], i, d, h, hrow, hrest, _ => by
    rw [weigh_of_row_done hrow (by simpa using hrest)]
    exact goesOn_pure h rfl
  | s :: rest, i, d, h, hrow, hrest, hin => by
    have hs : row[i.slot]? = some s := by
      rw [← List.head?_drop, hrest, List.head?_cons]
    have hnext : row.drop i.nextSlot.slot = rest := by
      rw [Inquiry.nextSlot, ← List.drop_drop, hrest, List.drop_one, List.tail_cons]
    obtain ⟨hslot, hgap⟩ := hin s List.mem_cons_self
    have hrest : WeighsIn inside d rest := fun t ht => hin t (List.mem_cons_of_mem _ ht)
    refine GoesOn.of_look ?_ (weigh_of_slot hrow hs)
    split
    · exact goesOn_pure h rfl
    · rename_i hc
      split
      · exact h.weigh_everySlot waiting (i := i.nextSlot) hrow hnext hrest
      · have hg := h.ensures_gap hslot (isFull_eq_false (by simpa using hc)) (Nat.zero_le _)
        refine (goesOn_lift _ fun n e hn => (Ensures.of_ok hg hn).1).bind fun n e hn hk => ?_
        refine (hgap e n hk (Ensures.of_ok hg hn).2 (i :: waiting)).bind fun b f _ hkf => ?_
        rw [weigh_told]
        cases b with
        | true =>
          exact hkf.sound.weigh_everySlot waiting (i := i.nextSlot) hrow hnext
            ((hrest.keeps hk).keeps hkf)
        | false => exact goesOn_pure hkf.sound rfl

/-- An inquiry goes through what is left of the branches. -/
theorem Sound.weigh_someBranch {inside : NodeId → Edit Bool} (waiting : Stack) :
    ∀ {rest : List (List SlotId)} {i : Inquiry} {d : Draft}, d.Sound →
    i.rows.drop i.row = rest → i.slot = 0 → (∀ row ∈ rest, WeighsIn inside d row) →
    GoesOn (weigh (i :: waiting) none) (someBranch inside rest)
      (fun b => if b then weigh waiting (some true)
        else lift (modify i.close) >>= fun _ => weigh waiting (some false)) d
  | [], i, d, h, hrest, _, _ => by
    rw [weigh_of_rows_done (by simpa using hrest)]
    exact goesOn_pure h rfl
  | row :: rest, i, d, h, hrest, hslot, hin => by
    obtain ⟨hrow, hin⟩ := List.forall_mem_cons.1 hin
    have hat : i.rows[i.row]? = some row := by
      rw [← List.head?_drop, hrest, List.head?_cons]
    have hnext : i.rows.drop i.nextRow.row = rest := by
      rw [Inquiry.nextRow, ← List.drop_drop, hrest, List.drop_one, List.tail_cons]
    refine (h.weigh_everySlot waiting hat (by rw [hslot, List.drop_zero]) hrow).bind
      fun b e _ hk => ?_
    cases b with
    | true => exact goesOn_pure hk.sound rfl
    | false =>
      exact hk.sound.weigh_someBranch waiting (i := i.nextRow) hnext rfl fun r hr =>
        (hin r hr).keeps hk

/-- Where sight does not tell, a slot that takes one or more has none yet. -/
theorem content_of_unseen (hs : d.skipAtSight? n = none)
    (hm : d.multiplicity (d.node n).slot = .plus) : (d.slot (d.node n).slot).content = [] := by
  by_contra hne
  unfold skipAtSight? at hs
  dsimp only at hs
  split at hs
  · cases hs
  · split at hs
    · cases hs
    · rw [if_pos (by simp [hm, hne])] at hs
      cases hs

/-- An inquiry remembers what the search does. -/
theorem close_about (h : d.Linked) (hn : d.HasNode n) (hs : d.skipAtSight? n = none)
    (hg : Grows d e) (rows : List (List SlotId)) :
    (Inquiry.about d n rows).close e = e.settle n := by
  obtain ⟨hsymbol, hslot, -⟩ := hg.node_eq hn
  have hmult := hg.multiplicity (h.node n hn).slot
  have hunmet : (Inquiry.about d n rows).unmet = (d.multiplicity (d.node n).slot == .plus) := by
    cases hm : d.multiplicity (d.node n).slot with
    | once | star => simp [Inquiry.about, hm]
    | plus => simp [Inquiry.about, hm, content_of_unseen hs hm]
  have hsym : (Inquiry.about d n rows).symbol = (e.node n).symbol := hsymbol.symm
  rw [Inquiry.close, settle, hunmet, hsym, hslot, hmult]
  rfl

/-- With anything waiting, a weighing goes on from a node with the answer of the search. -/
theorem Over.weighs_canSkipWithin : ∀ {bound : Nat} {d : Draft} {n : NodeId}, Over g limit d →
    d.HasNode n → (d.level n).frame.need g limit ≤ bound → Weighs (canSkipWithin bound) d n
  | 0, d, n, _, _, hb => by
    unfold Frame.need at hb
    omega
  | bound + 1, d, n, h, hn, hb => by
    refine fun waiting => ⟨?_, fun b e hrun => (Ensures.of_ok (h.decides_canSkipWithin hn hb) hrun).1⟩
    unfold canSkipWithin
    rw [lift_bind_assoc, run_lift_bind]
    simp only [Edit.run_get]
    rcases hs : d.skipAtSight? n with _ | answer
    · rw [ask_of_unseen hs, lift_bind_assoc]
      refine lift_bind_congr fun c e hr => ?_
      obtain ⟨hk, hc⟩ := Ensures.of_ok (h.sound.ensures_reveal hn) hr
      cases c with
      | none => rfl
      | some c =>
        have he := h.keeps hk
        have hne := hk.grows.hasNode hn
        have hin : ∀ row ∈ (e.choice c).branches, WeighsIn (canSkipWithin bound) e row := by
          intro row hrow s hsr
          obtain ⟨hslot, hsc⟩ := he.sound.linked.hasSlot_of_mem_row hrow hsr
          refine ⟨hslot, fun f m hk' hm => ?_⟩
          refine (he.keeps hk').weighs_canSkipWithin hm.has (he.need_le_of_inner hne hc ?_ hk' ?_ ?_)
          · rwa [hk.level h.sound hn]
          · rwa [hm.slot]
          · rwa [hm.slot]
        have hsome : GoesOn (weigh (.about d n (e.choice c).branches :: waiting) none)
            (someBranch (canSkipWithin bound) (e.choice c).branches) _ e :=
          he.sound.weigh_someBranch waiting rfl rfl hin
        refine hsome.same_bind fun b f _ hkf => ?_
        cases b with
        | true => rfl
        | false =>
          have hclose := close_about h.sound.linked hn hs (hk.trans hkf).grows (e.choice c).branches
          show weigh waiting (some false) ((Inquiry.about d n (e.choice c).branches).close f) = _
          rw [hclose]
          rfl
    · rw [ask_of_seen hs]
      rfl

theorem Over.weighing_eq (h : Over g limit d) (hn : d.HasNode n) :
    Quest.canSkip n d = lift (canSkip n) d := by
  have hrun : canSkip n d = canSkipWithin d.levels n d := by
    rw [canSkip]
    exact run_bind_of_ok (run_get d)
  rw [canSkip_eq_ask, (h.weighs_canSkipWithin hn (h.need_le_levels hn) []).same, run_lift_bind,
    lift, hrun]
  simp only [weigh_nil, Option.getD_some]
  cases canSkipWithin d.levels n d <;> rfl

/-- A weighing ends, in an answer or at a rule that would be nested too deep, and its answer is the
one that the search has: whatever has been laid out and remembered, a node can be skipped if it is not
placed and its slot takes any number, or one or more and has one, or its symbol can stand for
nothing. -/
theorem weighing_tells_nullable {definition : Grammar.Definition} (hg : definition.build = .ok g)
    (h : Reached g d) (hn : d.HasNode n) :
    Quest.canSkip n d = lift (canSkip n) d ∧ EndsInDepth (Quest.canSkip n) d ∧
    ∀ b e, Quest.canSkip n d = some (.ok b, e) →
      (b = true ↔ d.isPlaced n = false ∧ (d.multiplicity (d.node n).slot = .star ∨
        d.multiplicity (d.node n).slot = .plus ∧ (d.slot (d.node n).slot).content ≠ [] ∨
        g.Nullable (d.node n).symbol)) := by
  have ho := h.over (Grammar.Definition.wellFormed_build hg)
  have hsame := ho.weighing_eq hn
  refine ⟨hsame, endsInDepth_of_same hsame fun r e hr =>
    (Ensures.of_error (ho.decides_canSkip hn) hr).2.2, fun b e hb => ?_⟩
  have hrun : canSkip n d = .ok b e := by
    rw [hsame, lift] at hb
    split at hb <;> cases hb
    assumption
  have hlevel := ho.sound.linked.canSkip_level hn
  rw [ho.grammar] at hlevel
  exact (Ensures.of_ok (ho.decides_canSkip hn) hrun).2.trans hlevel

/-- Phrases with a filler that may stay empty and an ending that may not. -/
def phrases : Grammar.Definition where
  rules := [
    ("phrase", [[.literal "a" .once, .rule "filler" .once, .rule "ending" .once]]),
    ("filler", [[.literal "b" .once],
      [.rule "blank" .once, .group [[.option [[.literal "c" .once]] .once]] .plus]]),
    ("blank", [[.category "space" .star]]),
    ("ending", [[.literal "!" .plus]])]

def phraseGrammar : Grammar := phrases.build.toOption.getD default

/-- A phrase that has begun, and behind whose beginning was searched. -/
def begunPhrase : Draft :=
  [Call.offers none, .fillWith ⟨0⟩ none, .offers (some ⟨0⟩)].foldl (fun d c => c.after d)
    (Draft.start phraseGrammar {} [])

/-- The filler is found to be one that may stay empty, by its second branch, and the ending is known
not to be. -/
theorem filler_weighed : ∃ e f, Quest.canSkip ⟨1⟩ begunPhrase = some (.ok true, e) ∧
    phraseGrammar.Nullable (begunPhrase.node ⟨1⟩).symbol ∧
    Quest.canSkip ⟨8⟩ begunPhrase = some (.ok false, f) ∧
    (begunPhrase.node ⟨8⟩).symbol ∈ begunPhrase.unskippable ∧
    ¬ phraseGrammar.Nullable (begunPhrase.node ⟨8⟩).symbol := by
  have hg : phrases.build = .ok phraseGrammar := Grammar.Definition.build_eq_ok (by decide +kernel)
  have hreached : Reached phraseGrammar begunPhrase := (Reached.start {}).foldl (by decide +kernel)
  have hrun : (begunPhrase.HasNode ⟨1⟩ ∧ begunPhrase.HasNode ⟨8⟩) ∧
      begunPhrase.multiplicity (begunPhrase.node ⟨1⟩).slot = .once ∧
      begunPhrase.isPlaced ⟨8⟩ = false ∧
      (begunPhrase.node ⟨8⟩).symbol ∈ begunPhrase.unskippable := by
    decide +kernel
  obtain ⟨⟨hn, hn'⟩, honce, hplaced, hknown⟩ := hrun
  obtain ⟨hfiller, -, hyes⟩ := weighing_tells_nullable hg hreached hn
  obtain ⟨hending, -, hno⟩ := weighing_tells_nullable hg hreached hn'
  obtain ⟨b, e, he, rfl⟩ : ∃ b e, canSkip ⟨1⟩ begunPhrase = .ok b e ∧ b = true :=
    Ensures.exists_ok (by decide +kernel)
  obtain ⟨b, f, hf, rfl⟩ : ∃ b f, canSkip ⟨8⟩ begunPhrase = .ok b f ∧ b = false :=
    Ensures.exists_ok (by decide +kernel)
  rw [lift, he] at hfiller
  rw [lift, hf] at hending
  refine ⟨e, f, hfiller, ?_, hending, hknown, fun hnull => ?_⟩
  · have hnull := ((hyes true e hfiller).1 rfl).2
    simpa [honce] using hnull
  · exact Bool.false_ne_true ((hno false f hending).2 ⟨hplaced, Or.inr (Or.inr hnull)⟩)

end Draft

end Cloze
