import Cloze.Proofs.Filling
import Cloze.Proofs.Offering

/-!
# Drafts in use

A draft is reached from the empty one by calls, each on nodes that the draft has, in any order and
whether they succeed or are refused. Drafts over one grammar share what they remember as
unskippable, so another draft's memory may come in between any two calls.

Every draft that is reached is sound (`Reached.sound`).
-/

namespace Cloze.Draft

open Edit

/-- The draft that an edit leaves, whether it succeeds or is refused. -/
def after {α : Type} (act : Edit α) (d : Draft) : Draft :=
  match act d with
  | .ok _ e | .error _ e => e

/-- What a user of a draft can do with it. -/
inductive Call where
  | offers (cursor : Option NodeId)
  | resume (n : NodeId)
  | reveal (n : NodeId)
  | giveToken (n : NodeId) (value : String)
  | fill (n : NodeId)
  | fillWith (n : NodeId) (value : Option String)

def Call.after : Call → Draft → Draft
  | .offers cursor => Draft.after (Draft.offers cursor)
  | .resume n => Draft.after (Draft.resume n)
  | .reveal n => Draft.after (Draft.reveal n)
  | .giveToken n value => Draft.after (Draft.giveToken n value)
  | .fill n => Draft.after (Draft.fill n)
  | .fillWith n value => Draft.after (Draft.fillWith n value)

/-- The draft has the node that the call is on. -/
def Call.On (d : Draft) : Call → Prop
  | .offers none => True
  | .offers (some n) | .resume n | .reveal n | .giveToken n _ | .fill n | .fillWith n _ => d.HasNode n

instance (d : Draft) : (c : Call) → Decidable (c.On d)
  | .offers none => .isTrue trivial
  | .offers (some n) | .resume n | .reveal n | .giveToken n _ | .fill n | .fillWith n _ =>
    inferInstanceAs (Decidable (n.index < d.nodes.size))

/-- The drafts over a grammar that any calls lead to. -/
inductive Reached (g : Grammar) : Draft → Prop
  | start (settings : Settings) : Reached g (Draft.start g settings [])
  | call {d : Draft} {c : Call} (h : Reached g d) (hc : c.On d) : Reached g (c.after d)
  | share {d e : Draft} (h : Reached g d) (h' : Reached g e) :
      Reached g { d with unskippable := e.unskippable }

variable {d e : Draft} {g : Grammar}

/-- The draft that calls lead to, unless the node of one is missing. -/
def callAll? (d : Draft) : List Call → Option Draft
  | [] => some d
  | c :: cs => if c.On d then (c.after d).callAll? cs else none

theorem Reached.callAll? : ∀ {cs : List Call} {d : Draft}, Reached g d →
    d.callAll? cs = some e → Reached g e
  | [], _, h, he => by
    cases he
    exact h
  | c :: cs, d, h, he => by
    unfold Draft.callAll? at he
    split at he
    · rename_i hc
      exact (h.call hc).callAll? he
    · cases he

theorem callAll?_eq_some : ∀ (cs : List Call) {d : Draft}, d.callAll? cs = some e →
    e = cs.foldl (fun d c => c.after d) d
  | [], _, he => (Option.some.inj he).symm
  | c :: cs, d, he => by
    unfold Draft.callAll? at he
    split at he
    · exact callAll?_eq_some cs he
    · cases he

/-- Calls on nodes that are there when they are made lead to a draft over the grammar. -/
theorem Reached.foldl (h : Reached g d) {cs : List Call} (hon : (d.callAll? cs).isSome) :
    Reached g (cs.foldl (fun d c => c.after d) d) := by
  obtain ⟨e, he⟩ := Option.isSome_iff_exists.1 hon
  rw [← callAll?_eq_some cs he]
  exact h.callAll? he

theorem after_of_ensures {α : Type} {act : Edit α} {P : Draft → Prop}
    (h : Ensures act d (fun _ e => P e) fun _ e => P e) : P (after act d) := by
  unfold Ensures at h
  unfold after
  split at h <;> simp_all

theorem resumeAlong_of_not_placed {n : NodeId} {rest : List NodeId}
    (hp : (d.node n).placed = false) : resumeAlong (n :: rest) d = .error (.notPlaced n) d := by
  simp [resumeAlong, bind, EStateM.bind, Edit.run_get, hp, Edit.run_throw]

theorem resume_of_not_placed {n : NodeId} (hp : (d.node n).placed = false) :
    resume n d = .error (.notPlaced n) d := by
  obtain ⟨rest, hrest⟩ := d.exists_lineage_eq_cons n
  have hr : resumeAlong (n :: rest) d = _ := resumeAlong_of_not_placed hp
  simp only [resume, bind, EStateM.bind, Edit.run_get, hrest]
  exact hr

theorem offers_of_not_placed {n : NodeId} (hp : (d.node n).placed = false) :
    offers (some n) d = .error (.notPlaced n) d := by
  simp only [offers, bind, EStateM.bind, resume_of_not_placed hp]

theorem Finds.keeps {α β : Type} {act : Edit α} {spec : Option β} {rel : α → Draft → β → Prop}
    (h : Finds act d spec rel) : Keeps d (after act d) :=
  after_of_ensures (Ensures.mono h (fun _ _ h => h.1) fun _ _ h => h.1)

theorem Sound.keeps_reveal (h : d.Sound) {n : NodeId} (hn : d.HasNode n) :
    Keeps d (after (reveal n) d) := by
  rcases hp : (d.node n).placed with _ | _
  · exact (h.finds_reveal hn hp).keeps
  · rcases hl : d.isLeaf n with _ | _
    · obtain ⟨c, hi, -⟩ := (h.settled.inner n hn hl (by simp)).1 hp
      rw [after, reveal_of_inner? hi]
      exact .refl h
    · rw [after, reveal_of_leaf hl]
      exact .refl h

/-- A call keeps a draft sound. -/
theorem Sound.call (h : d.Sound) {c : Call} (hc : c.On d) :
    (c.after d).Sound ∧ (c.after d).grammar = d.grammar := by
  have hkeeps : ∀ {e}, Keeps d e → e.Sound ∧ e.grammar = d.grammar :=
    fun hk => ⟨hk.sound, hk.grows.grammar⟩
  have hretouches : ∀ {e}, Retouches d e → e.Sound ∧ e.grammar = d.grammar :=
    fun hr => ⟨h.of_retouches hr, hr.links.grammar⟩
  have hfills : ∀ {n e}, d.HasNode n → Fills d n e → e.Sound ∧ e.grammar = d.grammar :=
    fun hn hf => ⟨(hf.sound h hn).1, (hf.sound h hn).2.grammar⟩
  cases c with
  | offers cursor =>
    cases cursor with
    | none =>
      obtain ⟨l, t, hcor⟩ := h.over.exists_corner h.linked.root
      exact hkeeps (h.over.finds_offers_none hcor).keeps
    | some n =>
      rcases hp : (d.node n).placed with _ | _
      · simp only [Call.after, Draft.after, offers_of_not_placed hp]
        exact ⟨h, trivial⟩
      · exact hkeeps (h.over.finds_offers hp).keeps
  | resume n =>
    rcases hp : (d.node n).placed with _ | _
    · simp only [Call.after, Draft.after, resume_of_not_placed hp]
      exact ⟨h, trivial⟩
    · exact hkeeps (h.over.finds_resume hp).keeps
  | reveal n => exact hkeeps (h.keeps_reveal hc)
  | giveToken n value =>
    simp only [Call.after, Draft.after, giveToken_eq]
    cases d.checkToken n value with
    | error r => exact hkeeps (.refl h)
    | ok u => exact hretouches (retouches_writeToken d n value)
  | fill n =>
    refine after_of_ensures (P := fun e => e.Sound ∧ e.grammar = d.grammar)
      ((ensures_fill n d).mono (fun _ e hf => ?_) fun r e hf => ?_)
    · rcases hf with hf | ⟨rfl, -⟩
      · exact hfills hc hf
      · exact hkeeps (.refl h)
    · rcases hf with ⟨hf, -⟩ | ⟨rfl, -⟩
      · exact hfills hc hf
      · exact hkeeps (.refl h)
  | fillWith n value =>
    refine after_of_ensures (P := fun e => e.Sound ∧ e.grammar = d.grammar)
      ((ensures_fillWith n value d).mono (fun _ e hf => ?_) fun r e hf => ?_)
    · exact hf.elim (hfills hc) fun hf => hretouches hf.1
    · exact hf.elim (fun hf => hfills hc hf.1) fun hf => hretouches hf.1

/-- A draft that any calls lead to is sound. -/
theorem Reached.sound (hg : g.WellFormed) (h : Reached g d) : d.Sound ∧ d.grammar = g := by
  induction h with
  | start settings => exact ⟨sound_start hg settings, rfl⟩
  | call h hc ih =>
    obtain ⟨hs, hgr⟩ := ih.1.call hc
    exact ⟨hs, hgr.trans ih.2⟩
  | share h h' ih ih' =>
    refine ⟨(ih.1.remember ?_).sound, ih.2⟩
    rw [ih.2, ← ih'.2]
    exact ih'.1.honest

theorem Reached.over (hg : g.WellFormed) (h : Reached g d) :
    Over g d.settings.recursionLimit d :=
  ⟨(h.sound hg).1, (h.sound hg).2, rfl⟩

/-! ### Drafts over lists -/

/-- Lists of names and lists, in brackets and separated by commas. -/
def lists : Grammar.Definition where
  rules := [
    ("list", [[.literal "(" .once, .option [[.rule "item" .once,
      .group [[.literal "," .once, .rule "item" .once]] .star]] .once, .literal ")" .once]]),
    ("item", [[.category "name" .once], [.rule "list" .once]])]

def listGrammar : Grammar :=
  lists.build.toOption.getD default

theorem build_lists : lists.build = .ok listGrammar :=
  Grammar.Definition.build_eq_ok (by decide +kernel)

/-- What stands in the tables of the grammar of lists. -/
structure ListTables (g : Grammar) : Prop where
  start : g.start = ⟨0⟩
  size : g.rules.size = 2
  roles : ∀ s ∈ g.symbols, s.role = none
  list : g.branchesOf (g.rule ⟨0⟩).body = [[⟨0⟩, ⟨5⟩, ⟨6⟩]]
  items : g.branchesOf ⟨1⟩ = [[⟨1⟩, ⟨4⟩]]
  item : g.branchesOf (g.rule ⟨1⟩).body = [[⟨7⟩], [⟨8⟩]]
  once : ∀ s ∈ [⟨0⟩, ⟨1⟩, ⟨5⟩, ⟨6⟩, ⟨7⟩], (g.slot s).multiplicity = .once
  star : (g.slot ⟨4⟩).multiplicity = .star
  kind_opening : (g.symbol (g.slot ⟨0⟩).symbol).kind = .literal "("
  kind_first : (g.symbol (g.slot ⟨1⟩).symbol).kind = .rule ⟨1⟩
  kind_items : (g.symbol (g.slot ⟨5⟩).symbol).kind = .option ⟨1⟩
  kind_closing : (g.symbol (g.slot ⟨6⟩).symbol).kind = .literal ")"
  kind_name : (g.symbol (g.slot ⟨7⟩).symbol).kind = .category "name"
  kind_nested : (g.symbol (g.slot ⟨8⟩).symbol).kind = .rule ⟨0⟩

theorem listTables : ListTables listGrammar := by
  constructor <;> decide +kernel

/-- The list `(x)`, filled leaf by leaf. -/
def oneItem : Draft :=
  [Call.offers none, .fillWith ⟨0⟩ none, .offers (some ⟨0⟩), .fillWith ⟨3⟩ (some "x"),
    .offers (some ⟨3⟩), .fillWith ⟨6⟩ none].foldl (fun d c => c.after d)
      (Draft.start listGrammar {} [])

theorem reached_oneItem : Reached listGrammar oneItem :=
  (Reached.start {}).foldl (by decide +kernel)

end Cloze.Draft
