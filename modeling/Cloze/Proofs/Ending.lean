import Cloze.Proofs.Lasting
import Cloze.Proofs.Unbounded

/-!
# How calls end

A search ends even if nothing bounds it, and it is refused only because it was asked about a node that
is not placed, or because a rule would be nested deeper than the limit. To fill a leaf is never
refused for a reason of that kind, for a place out of order, or for the note of another role: a gap
never wants a place beyond the end of its slot, and only newlines and statements have notes, each of
its own kind (`Fitting`).
-/

namespace Cloze.Draft

open Edit
open Quest (Aim)

variable {d e : Draft} {n m : NodeId} {g : Grammar}

/-! ### Notes -/

/-- Every note is one of the role of its node. -/
def Fitting (d : Draft) : Prop :=
  ∀ n note, (d.node n).note = some note → d.role? n = some note.role

theorem hasNode_of_note {note : Note} (h : (d.node n).note = some note) : d.HasNode n := by
  by_contra hn
  rw [node_of_not_has hn] at h
  cases h

theorem fitting_start (g : Grammar) (settings : Settings) (u : List Grammar.SymbolId) :
    (start g settings u).Fitting := fun n note h => by
  have hn := hasNode_of_note h
  simp [HasNode, start, withChoice] at hn

/-- A role leaves notes of its own kind. -/
theorem Acts.note (ha : Acts d n e) (m : NodeId) : (e.node m).note = (d.node m).note ∨
    ∃ note, (e.node m).note = some note ∧ d.role? m = some note.role := by
  have hline : ∀ {k b b'}, d.blocksAt k = .ok b' → e = d.indentLine k b →
      (e.node m).note = (d.node m).note ∨
        ∃ note, (e.node m).note = some note ∧ d.role? m = some note.role := by
    rintro k b b' hb rfl
    by_cases hmk : m = k
    · subst hmk
      by_cases hm : d.HasNode m
      · exact Or.inr ⟨_, note_indentLine hm b, (blocksAt_eq_ok hb).1⟩
      · refine Or.inl ?_
        rw [node_of_not_has hm, node_of_not_has]
        rwa [(retouches_indentLine d m b).links.hasNode]
    · exact Or.inl (congrArg Node.note (node_indentLine_of_ne hmk b))
  cases ha with
  | newline _ hb => exact hline hb rfl
  | block _ _ _ hb => exact hline hb rfl
  | @binds k s _ _ _ hs =>
    rw [node_modifyNode]
    split
    · rename_i hsm
      exact Or.inr ⟨_, rfl, hsm.1 ▸ role?_of_statementsAbove hs⟩
    · exact Or.inl rfl
  | idle => exact Or.inl rfl

theorem Fitting.change (hf : d.Fitting) (h : d.Sound) (hc : Change d e) : e.Fitting := by
  have hold : ∀ n note, (d.node n).note = some note → e.role? n = some note.role :=
    fun n note hn => (hc.lasts h).role? (hasNode_of_note hn) ▸ hf n note hn
  intro n note hn
  cases hc with
  | grow _ hw => exact hold n note ((hw n).1.symm.trans hn)
  | token => exact hold n note ((note_writeToken d _ n _).symm.trans hn)
  | @place k hk hl hp hc ht =>
    obtain ⟨p, b, hmoved⟩ := moved_place d k n
    rw [hmoved] at hn
    exact hold n note hn
  | act hk ha =>
    rcases ha.note n with heq | ⟨note', hnote, hrole⟩
    · exact hold n note (heq.symm.trans hn)
    · cases hnote.symm.trans hn
      rwa [(retouches_acts ha).links.role?]

theorem Fitting.changes (hf : d.Fitting) (h : d.Sound) (hc : Changes d e) : e.Fitting := by
  induction hc with
  | refl => exact hf
  | tail hcs hc ih => exact ih.change (Changes.sound h hcs) hc

theorem Reached.fitting (hg : g.WellFormed) (h : Reached g d) : d.Fitting :=
  h.invariant hg (fitting_start g · []) fun hs hc hf => hf.change hs hc

/-! ### Refusals -/

/-- The reasons for which leaves are never refused. -/
def Refusal.IsForeign : Refusal → Prop
  | .outOfOrder _ _ _ | .wrongNote _ _ | .notPlaced _ | .tooDeep _ _ => True
  | _ => False

theorem not_isForeign_of_onFill (hf : d.Fitting) {r : Refusal} (h : d.onFill n = .error r) :
    ¬ r.IsForeign := by
  obtain ⟨role, missing, -, rfl⟩ | ⟨m, role, note, hrole, hnote, hne, rfl⟩ := onFill_eq_error h
  · exact id
  · rw [hf m note hnote] at hrole
    cases hrole
    exact absurd rfl hne

theorem not_isForeign_of_checkToken {value : String} {r : Refusal}
    (h : d.checkToken n value = .error r) : ¬ r.IsForeign := by
  rcases checkToken_eq_error h with rfl | rfl | rfl | rfl <;> exact id

/-- No gap wants a place beyond the end of its slot. -/
theorem Sound.not_isForeign_of_checkPlace (h : d.Sound) (hn : d.HasNode n) {r : Refusal}
    (hc : d.checkPlace n = .error r) : ¬ r.IsForeign := by
  obtain ⟨s, rfl⟩ | ⟨m, b, k, rfl⟩ | ⟨m, hm, hp, hlt, -⟩ := checkPlaceAlong_eq_error hc
  · exact id
  · exact id
  · have hle := h.settled.gap m (h.linked.index_le_of_mem_lineage hn hm).1 hp
    omega

theorem Sound.not_isForeign_of_fill (h : d.Sound) (hf : d.Fitting) (hn : d.HasNode n) {r : Refusal}
    (hr : fill n d = .error r e) : ¬ r.IsForeign := by
  have hafter := changes_fill h hn
  rw [after, hr] at hafter
  rw [fill_eq] at hr
  split at hr
  · cases hr
    exact id
  · split at hr
    · cases hr
    · split at hr
      · rename_i hc
        cases hr
        exact h.not_isForeign_of_checkPlace hn hc
      · split at hr
        · cases hr
          exact id
        · split at hr
          · cases hr
          · rename_i ha
            cases hr
            exact not_isForeign_of_onFill (hf.changes h hafter) ha

theorem Sound.not_isForeign_of_fillWith (h : d.Sound) (hf : d.Fitting) (hn : d.HasNode n)
    {value : Option String} {r : Refusal} (hr : fillWith n value d = .error r e) :
    ¬ r.IsForeign := by
  cases value with
  | none => exact h.not_isForeign_of_fill hf hn hr
  | some value =>
    rw [fillWith_some_eq] at hr
    split at hr
    · rename_i ht
      cases hr
      exact not_isForeign_of_checkToken ht
    · rename_i ht
      split at hr
      · rename_i hc
        cases hr
        exact h.not_isForeign_of_checkPlace hn hc
      · have hw := retouches_writeToken d n value
        exact (h.of_retouches hw).not_isForeign_of_fill (hf.change h (.token hn ht))
          (hw.links.hasNode.2 hn) hr

theorem not_isForeign_of_giveToken {value : String} {r : Refusal}
    (hr : giveToken n value d = .error r e) : ¬ r.IsForeign := by
  rw [giveToken_eq] at hr
  split at hr
  · rename_i ht
    cases hr
    exact not_isForeign_of_checkToken ht
  · cases hr

/-! ### Searches -/

/-- The quest ends, in a value or at a rule that would be nested too deep. -/
def EndsInDepth {α : Type} (q : Quest α) (d : Draft) : Prop :=
  ∃ e, (∃ a, q d = some (.ok a, e)) ∨
    ∃ rule, q d = some (.error (.tooDeep rule d.settings.recursionLimit), e)

theorem endsInDepth_of_same {α : Type} {q : Quest α} {act : Edit α} (hs : q d = Quest.lift act d)
    (hr : ∀ r e, act d = .error r e → ∃ rule, r = .tooDeep rule d.settings.recursionLimit) :
    EndsInDepth q d := by
  rw [EndsInDepth, hs, Quest.lift]
  rcases ha : act d with ⟨a, e⟩ | ⟨r, e⟩
  · exact ⟨e, Or.inl ⟨a, rfl⟩⟩
  · obtain ⟨rule, rfl⟩ := hr r e ha
    exact ⟨e, Or.inr ⟨rule, rfl⟩⟩

theorem quest_resume_of_not_placed (hp : (d.node n).placed = false) :
    (Aim.resume n).pursue d = some (.error (.notPlaced n), d) := by
  rw [Aim.pursue]
  show (if (!(d.node n).placed) = true then Quest.lift (throw (.notPlaced n)) else _ : Quest _) d = _
  rw [hp]
  rfl

theorem quest_offers_of_not_placed (hp : (d.node n).placed = false) :
    Quest.offers (some n) d = some (.error (.notPlaced n), d) := by
  simp only [Quest.offers, Bind.bind, ExceptT.bind, StateT.bind, ExceptT.mk,
    quest_resume_of_not_placed hp]
  rfl

/-- Without any bound a search ends as it does within its bounds, and it ends in offers unless it is
asked about a node that is not placed or a rule would be nested too deep. Filling a leaf ends in none
of the refusals that are foreign to it. -/
theorem calls_end {definition : Grammar.Definition} (hg : definition.build = .ok g)
    (h : Reached g d) :
    (∀ cursor, Quest.offers cursor d = Quest.lift (offers cursor) d) ∧
    (∀ n, (Aim.resume n).pursue d = Quest.lift (resume n) d) ∧
    EndsInDepth (Quest.offers none) d ∧
    (∀ n, d.isPlaced n = true →
      EndsInDepth (Quest.offers (some n)) d ∧ EndsInDepth (Aim.resume n).pursue d) ∧
    (∀ n, d.isPlaced n = false → Quest.offers (some n) d = some (.error (.notPlaced n), d) ∧
      (Aim.resume n).pursue d = some (.error (.notPlaced n), d)) ∧
    ∀ n, d.HasNode n → ∀ r e, fill n d = .error r e ∨ (∃ value, fillWith n value d = .error r e) ∨
      (∃ value, giveToken n value d = .error r e) → ¬ r.IsForeign := by
  have hwf := Grammar.Definition.wellFormed_build hg
  have ho := h.over hwf
  have hs := ho.sound
  have hf := h.fitting hwf
  have hnone : Quest.offers none d = Quest.lift (offers none) d :=
    (ho.ends_offers fun n hn => by cases hn).same
  have hsome : ∀ n, (d.node n).placed = true →
      Quest.offers (some n) d = Quest.lift (offers (some n)) d := fun n hp =>
    (ho.ends_offers fun m hm => by
      cases hm
      exact hp).same
  refine ⟨fun cursor => ?_, fun n => ?_, endsInDepth_of_same hnone fun r e hr =>
    hs.tooDeep_of_offers (fun n hn => by cases hn) hr, fun n hp => ⟨?_, ?_⟩,
    fun n hp => ⟨quest_offers_of_not_placed hp, quest_resume_of_not_placed hp⟩,
    fun n hn r e hr => ?_⟩
  · rcases cursor with _ | n
    · exact hnone
    · cases hp : (d.node n).placed with
      | true => exact hsome n hp
      | false => rw [quest_offers_of_not_placed hp, Quest.lift, offers_of_not_placed hp]
  · cases hp : (d.node n).placed with
    | true => exact (ho.ends_resume hp).same
    | false => rw [quest_resume_of_not_placed hp, Quest.lift, resume_of_not_placed hp]
  · refine endsInDepth_of_same (hsome n hp) fun r e hr => hs.tooDeep_of_offers (fun m hm => ?_) hr
    cases hm
    exact hp
  · exact endsInDepth_of_same (ho.ends_resume hp).same fun r e hr =>
      (Ensures.of_error (ho.finds_resume hp) hr).2.2
  · rcases hr with hr | ⟨value, hr⟩ | ⟨value, hr⟩
    · exact hs.not_isForeign_of_fill hf hn hr
    · exact hs.not_isForeign_of_fillWith hf hn hr
    · exact not_isForeign_of_giveToken hr

/-- Sums that begin with a sum. -/
def sums : Grammar.Definition where
  rules := [("sum", [[.rule "sum" .once, .literal "+" .once, .category "number" .once],
    [.category "number" .once]])]
  roles := [("number", .number)]

def sumGrammar : Grammar := sums.build.toOption.getD default

/-- A sum with nothing in it yet, where rules are nested three deep at most. -/
def emptySum : Draft := Draft.start sumGrammar { recursionLimit := 3 } []

/-- A search for the beginning of a sum ends at the limit, for it goes into the same rule forever. -/
theorem sum_search_ends : ∃ e, Quest.offers none emptySum = some (.error (.tooDeep "sum" 3), e) := by
  obtain ⟨hsame, -⟩ := calls_end (g := sumGrammar) (Grammar.Definition.build_eq_ok (by decide +kernel))
    (.start { recursionLimit := 3 })
  obtain ⟨r, e, hr, rfl⟩ : ∃ r e, offers none emptySum = .error r e ∧ r = .tooDeep "sum" 3 :=
    Ensures.exists_error (by decide +kernel)
  refine ⟨e, (hsame none).trans ?_⟩
  show Quest.lift (offers none) emptySum = _
  rw [Quest.lift, hr]

end Cloze.Draft
