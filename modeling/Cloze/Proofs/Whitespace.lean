import Cloze.Grammar.Offside
import Cloze.Proofs.Indenting

/-!
# White space that counts

The language laid out by indentation nests blocks, and gives the roles of lines to newlines, block
starts and block ends alone (`LaysOut`, `Grammar.Offside.laysOut`). Where it is written at the end,
the token of a newline is therefore one indent unit for every block open where its line goes on
(`newline_token_counts_blocks`).
-/

namespace Cloze

/-- The categories of newlines, block starts and block ends, with their roles. -/
def Grammar.lineCategories : List (String × Role) :=
  [("NEWLINE", .newline), ("INDENT", .indent), ("DEDENT", .dedent)]

/-- The grammar nests blocks, and gives the roles of lines to their categories and nothing else. -/
def Grammar.LaysOut (g : Grammar) : Prop :=
  g.NestsBlocks ∧ ∀ x ∈ g.symbols.toList, ∀ p ∈ lineCategories,
    x.category? = some p.1 ↔ x.role = some p.2

instance (g : Grammar) : Decidable g.LaysOut := instDecidableAnd

/-- What the grammar is checked for holds of it. -/
theorem Grammar.Offside.of_all {P : Grammar → Prop} [DecidablePred P] {g : Grammar}
    (hg : Offside.grammar = .ok g)
    (h : Offside.grammar.toOption.all (fun g => decide (P g)) = true) : P g := by
  rw [hg] at h
  exact of_decide_eq_true h

theorem Grammar.Offside.laysOut {g : Grammar} (hg : Offside.grammar = .ok g) : g.LaysOut :=
  of_all hg (by decide +kernel)

/-- Where the grammar passes a check, it has been built. -/
theorem Grammar.Offside.exists_of_any {P : Grammar → Bool}
    (h : Offside.grammar.toOption.any P = true) : ∃ g, Offside.grammar = .ok g ∧ P g = true := by
  rcases hb : Offside.grammar with r | g
  · rw [hb] at h
    cases h
  · rw [hb] at h
    exact ⟨g, rfl, h⟩

namespace Draft

/-- How many of the nodes are of the category. -/
def countOf (d : Draft) (name : String) (ns : List NodeId) : Nat :=
  ns.countP fun n => d.category? n == some name

variable {d : Draft} {p : String × Role}

theorem category?_iff (h : d.grammar.LaysOut) (hp : p ∈ Grammar.lineCategories) (n : NodeId) :
    d.category? n = some p.1 ↔ d.role? n = some p.2 := by
  rw [category?, role?, symbol]
  rcases d.grammar.symbol_mem_or (d.node n).symbol with hx | hx
  · exact h.2 _ hx p hp
  · rw [hx]
    exact iff_of_false (by rintro ⟨⟩) (by rintro ⟨⟩)

theorem countOf_eq (h : d.grammar.LaysOut) (hp : p ∈ Grammar.lineCategories) (ns : List NodeId) :
    d.countOf p.1 ns = d.countRole p.2 ns :=
  List.countP_congr fun n _ => by rw [beq_iff_eq, beq_iff_eq, category?_iff h hp]

end Draft

namespace Editor

open Draft Script

variable {e f : Editor} {g : Grammar} {settings : Settings}

/-- In a run that is written at the end, where the line behind a newline goes on no more blocks are
closed than opened, and the newline's token is one indent unit for every block open there. -/
theorem newline_token_counts_blocks (hg : Grammar.Offside.grammar = .ok g)
    (h : Appends g settings e) {xs mid ys : List NodeId} {n t : NodeId}
    (hl : e.draft.leaves = xs ++ n :: mid ++ t :: ys) (hn : e.draft.category? n = some "NEWLINE")
    (hmid : ∀ m ∈ mid, e.draft.category? m ≠ some "NEWLINE")
    (ht : e.draft.category? t ≠ some "INDENT" ∧ e.draft.category? t ≠ some "DEDENT") :
    e.draft.countOf "DEDENT" (xs ++ n :: mid) ≤ e.draft.countOf "INDENT" (xs ++ n :: mid) ∧
      e.draft.token? n = some (String.join (List.replicate
        (e.draft.countOf "INDENT" (xs ++ n :: mid) - e.draft.countOf "DEDENT" (xs ++ n :: mid))
        settings.indentUnit)) := by
  have hlays := Grammar.Offside.laysOut hg
  have hwf := Grammar.Definition.wellFormed_build hg
  have hw := h.writtenOn hwf hlays.1
  obtain ⟨hord, hd⟩ := hw.reached.orderly hwf
  rw [← (hd.sound hwf).2] at hlays
  have hnewline := category?_iff hlays (p := ("NEWLINE", .newline)) (by decide)
  have hindent := category?_iff hlays (p := ("INDENT", .indent)) (by decide)
  have hdedent := category?_iff hlays (p := ("DEDENT", .dedent)) (by decide)
  have hlay : e.draft.isLayout t = false := by
    rw [← Bool.not_eq_true, isLayout_iff, ← hindent t, ← hdedent t]
    exact not_or.2 ht
  rw [countOf_eq hlays (p := ("INDENT", .indent)) (by decide),
    countOf_eq hlays (p := ("DEDENT", .dedent)) (by decide), ← hw.settings]
  exact hw.indented.token_eq hord.sound hlays.1 hl ((hnewline n).1 hn)
    (fun m hm hr => hmid m hm ((hnewline m).2 hr)) hlay

/-- The editor that steps lead to, unless one is refused or is a choice away from the end. -/
def appendAll? (e : Editor) : List Step → Option Editor
  | [] => some e
  | s :: steps =>
    if s.isChoice = true → e.cursor = e.chain.getLast? then
      match apply s e with
      | .ok _ f => appendAll? f steps
      | .error _ _ => none
    else
      none

theorem Appends.appendAll? : ∀ {steps : List Step} {e : Editor}, Appends g settings e →
    e.appendAll? steps = some f → Appends g settings f
  | [], _, h, hf => by
    cases hf
    exact h
  | s :: steps, e, h, hf => by
    unfold Editor.appendAll? at hf
    split at hf
    · rename_i hs
      split at hf
      · rename_i e' he'
        exact (h.step hs he').appendAll? hf
      · cases hf
    · cases hf

/-- A block with one line. -/
def oneBlock : List Step :=
  [.literal "if", .category "NAME" (some "x"), .literal ":", .category "NEWLINE" none,
    .category "INDENT" none, .literal "pass"]

/-- The line in the block is indented by one unit. -/
theorem token_of_oneBlock : ∃ g e, Grammar.Offside.grammar = .ok g ∧
    Appends g { indentUnit := "  " } e ∧
    e.draft.leaves = [⟨25⟩, ⟨39⟩, ⟨66⟩] ++ ⟨68⟩ :: [⟨69⟩] ++ ⟨88⟩ :: [] ∧
    e.draft.category? ⟨68⟩ = some "NEWLINE" ∧ e.draft.token? ⟨68⟩ = some "  " := by
  have hrun : Grammar.Offside.grammar.toOption.any (fun g =>
      (appendAll? (Editor.start g { indentUnit := "  " } []) oneBlock).any fun e =>
        e.draft.leaves = [⟨25⟩, ⟨39⟩, ⟨66⟩] ++ ⟨68⟩ :: [⟨69⟩] ++ ⟨88⟩ :: [] ∧
          e.draft.leaves.map e.draft.category?
            = [none, some "NAME", none, some "NEWLINE", some "INDENT", none]) = true := by
    decide +kernel
  obtain ⟨g, hg, hrun⟩ := Grammar.Offside.exists_of_any hrun
  obtain ⟨e, he, hrun⟩ := (Option.any_eq_true _ _).1 hrun
  obtain ⟨hl, hcat⟩ := of_decide_eq_true hrun
  have h : Appends g { indentUnit := "  " } e := Appends.appendAll? (.start (.start {})) he
  simp only [hl, List.cons_append, List.nil_append, List.map_cons, List.map_nil, List.cons.injEq,
    and_true] at hcat
  obtain ⟨h1, h2, h3, h4, h5, h6⟩ := hcat
  have htoken := (newline_token_counts_blocks hg h hl h4 (by simp [h5]) (by simp [h6])).2
  refine ⟨g, e, hg, h, hl, h4, htoken.trans ?_⟩
  simp [countOf, h1, h2, h3, h4, h5]

end Editor

end Cloze
