import Cloze.Proofs.Lasting
import Cloze.Proofs.Spacing
import Cloze.Proofs.Whitespace

/-!
# What rendering keeps of a token

A token that starts and ends with a character no spaces are taken away beside (`Framed`) is closed
up on its own, whatever its line holds beside it, and stands in the text as that leaves it. It is
left as it was exactly if it has no parenthesis between two spaces (`closeUp_eq_self_iff`).

In the language laid out by indentation names, numbers and quoted texts are framed. Names and
numbers stand in the text as they were given, and so does a quoted text without a parenthesis
between two spaces (`token_stands_in_source`). With one it may be lost
(`quoted_parenthesis_changed`).
-/

namespace Cloze

namespace View

open Draft Text

variable {p c : Char} {t : List Char} {l : Line} {token : String}

/-! ### What closing up leaves as it is -/

theorem closeUp_eq_self_iff (p : Char) (cs : List Char) :
    closeUp p cs = cs ↔ ¬ [' ', p, ' '] <:+: cs := by
  induction cs using closeUp_induction p with
  | nil => simp
  | between cs ih =>
    have hinfix : [' ', p, ' '] <:+: ' ' :: p :: ' ' :: cs :=
      (List.prefix_append [' ', p, ' '] cs).isInfix
    refine iff_of_false (fun heq => ?_) (not_not_intro hinfix)
    have hlen := (closeUp_sublist p cs).length_le
    rw [closeUp_between] at heq
    have heq := congrArg List.length heq
    simp only [List.length_cons] at heq
    omega
  | cons c cs h ih =>
    rw [closeUp_cons h, List.cons_inj_right, ih, List.infix_cons_iff, or_iff_right h]

/-- The first and the last character are solid. -/
structure Framed (t : List Char) : Prop where
  front : ∃ c rest, isSolid c = true ∧ t = c :: rest
  back : ∃ c init, isSolid c = true ∧ t = init ++ [c]

/-- A framed text is closed up on its own. -/
theorem Framed.closeUp_append (h : Framed t) (hp : isParen p = true) (xs ys : List Char) :
    closeUp p (xs ++ t ++ ys) = closeUp p xs ++ closeUp p t ++ closeUp p ys := by
  obtain ⟨c, rest, hc, hfront⟩ := h.front
  obtain ⟨c', init, hc', hback⟩ := h.back
  have hleft : closeUp p (xs ++ (t ++ ys)) = closeUp p xs ++ closeUp p (t ++ ys) := by
    rw [hfront, List.cons_append, closeUp_append_cons (ne_space_of_isSolid hc)
      (ne_of_isSolid hc hp), closeUp_cons_of_ne (ne_space_of_isSolid hc)]
  have hright : ∀ zs, closeUp p (init ++ c' :: zs) = closeUp p init ++ c' :: closeUp p zs :=
    closeUp_append_cons (ne_space_of_isSolid hc') (ne_of_isSolid hc' hp) init
  rw [List.append_assoc, hleft, hback, List.append_assoc, List.singleton_append, hright, hright]
  simp

theorem Framed.framed_closeUp (h : Framed t) (hp : isParen p = true) : Framed (closeUp p t) := by
  obtain ⟨c, rest, hc, hfront⟩ := h.front
  obtain ⟨c', init, hc', hback⟩ := h.back
  refine ⟨⟨c, closeUp p rest, hc, ?_⟩, ⟨c', closeUp p init, hc', ?_⟩⟩
  · rw [hfront, closeUp_cons_of_ne (ne_space_of_isSolid hc)]
  · rw [hback, closeUp_append_cons (ne_space_of_isSolid hc') (ne_of_isSolid hc' hp), closeUp_nil]

theorem Framed.closedUp_append (h : Framed t) (xs ys : List Char) :
    closedUp (xs ++ t ++ ys) = closedUp xs ++ closedUp t ++ closedUp ys := by
  rw [closedUp, h.closeUp_append (by decide),
    (h.framed_closeUp (p := '(') (by decide)).closeUp_append (by decide)]
  rfl

theorem Framed.framed_closedUp (h : Framed t) : Framed (closedUp t) :=
  (h.framed_closeUp (by decide)).framed_closeUp (by decide)

theorem closedUp_eq_self_iff (t : List Char) :
    closedUp t = t ↔ ¬ [' ', '(', ' '] <:+: t ∧ ¬ [' ', ')', ' '] <:+: t := by
  rw [← closeUp_eq_self_iff, ← closeUp_eq_self_iff]
  constructor
  · intro h
    -- Nothing is added, so nothing was taken away the first time either.
    have hsub : t.Sublist (closeUp '(' t) := by
      conv_lhs => rw [← h]
      exact closeUp_sublist ')' _
    have hopen := (closeUp_sublist '(' t).antisymm hsub
    exact ⟨hopen, by rw [closedUp, hopen] at h; exact h⟩
  · rintro ⟨hopen, hclose⟩
    rw [closedUp, hopen, hclose]

/-! ### Tokens in the text -/

/-- What is left of a framed token stands in its line. -/
theorem Framed.infix_render (h : Framed token.toList) (ht : token ∈ l.tokens) :
    closedUp token.toList <:+: l.render.toList := by
  obtain ⟨before, behind, hl⟩ := List.append_of_mem ht
  obtain ⟨c, init, hc, hback⟩ := h.framed_closedUp.back
  have hclosed : ∃ xs ys, closedUp l.spaced = xs ++ (init ++ [c]) ++ ys := by
    rw [Line.spaced, hl, List.flatMap_append, List.flatMap_cons, List.append_assoc token.toList,
      ← List.append_assoc, h.closedUp_append, hback]
    exact ⟨_, _, rfl⟩
  obtain ⟨xs, ys, hclosed⟩ := hclosed
  have hkept := (prefix_trimEnd (isWhite_of_isSolid hc) (l.indent.toList ++ xs ++ init) ys).isInfix
  rw [List.append_assoc _ init] at hkept
  rw [l.toList_render, hback, hclosed, List.append_assoc _ _ ys, ← List.append_assoc,
    ← List.append_assoc]
  exact (List.suffix_append _ _).isInfix.trans hkept

theorem infix_intercalate {α : Type*} (sep : List α) : ∀ {ls : List (List α)} {l : List α},
    l ∈ ls → l <:+: sep.intercalate ls
  | [_], _, h => by
    rw [List.mem_singleton.1 h, List.intercalate_singleton]
  | l₁ :: l₂ :: ls, l, h => by
    rw [List.intercalate_cons_cons]
    rcases List.mem_cons.1 h with rfl | h
    · rw [List.append_assoc]
      exact (List.prefix_append _ _).isInfix
    · exact (infix_intercalate sep h).trans (List.suffix_append _ _).isInfix

/-- What is left of the framed token of a leaf stands in the text. -/
theorem infix_source {d : Draft} {n : NodeId} (hn : n ∈ d.leaves) (hr : d.role? n ≠ some .newline)
    (ht : d.token? n = some token) (h : Framed token.toList) :
    closedUp token.toList <:+: (source d).toList := by
  have hne : token ≠ "" := by
    rintro rfl
    obtain ⟨c, rest, -, hnil⟩ := h.front
    cases hnil
  have htext : leafText? d n = some token := by
    rw [leafText?, ht, Option.filter_some, if_pos (by simpa using hne)]
  have hmem : token ∈ (lines d).flatMap Line.tokens := by
    rw [lines, flatMap_tokens_linesFrom]
    exact List.mem_append_right _ (List.mem_filterMap.2
      ⟨n, List.mem_filter.2 ⟨hn, by simpa [startsLine] using hr⟩, htext⟩)
  obtain ⟨l, hl, htl⟩ := List.mem_flatMap.1 hmem
  refine (h.infix_render htl).trans ?_
  rw [source, String.toList_intercalate, List.map_map]
  exact infix_intercalate _ (List.mem_map_of_mem hl)

/-! ### Names, numbers and quoted texts -/

theorem isSolid_of_toNat (h : 42 ≤ c.toNat ∧ c.toNat ≤ 122 ∨ c.toNat = 36) : isSolid c = true := by
  have hwhite : isWhite c = false := by
    simp only [isWhite, Bool.or_eq_false_iff, Bool.and_eq_false_iff, decide_eq_false_iff_not,
      beq_eq_false_iff_ne]
    omega
  have hparen : isParen c = false := by
    rw [isParen, Bool.or_eq_false_iff, beq_eq_false_iff_ne, beq_eq_false_iff_ne]
    constructor <;> rintro rfl <;> exact absurd h (by decide)
  rw [isSolid, hwhite, hparen]
  rfl

theorem isSolid_of_isLetter (h : Role.isLetter c = true) : isSolid c = true := by
  refine isSolid_of_toNat ?_
  simp only [Role.isLetter, Bool.or_eq_true, Bool.and_eq_true, decide_eq_true_eq, beq_iff_eq] at h
  rcases h with ((⟨ha, hz⟩ | ⟨ha, hz⟩) | rfl) | rfl
  · have ha : 97 ≤ c.toNat := ha
    have hz : c.toNat ≤ 122 := hz
    omega
  · have ha : 65 ≤ c.toNat := ha
    have hz : c.toNat ≤ 90 := hz
    omega
  · decide
  · decide

theorem isSolid_of_isDigit (h : Role.isDigit c = true) : isSolid c = true := by
  obtain ⟨h0, h9⟩ := Bool.and_eq_true_iff.1 h
  have h0 : 48 ≤ c.toNat := of_decide_eq_true h0
  have h9 : c.toNat ≤ 57 := of_decide_eq_true h9
  exact isSolid_of_toNat (by omega)

theorem framed_of_solid (hne : t ≠ []) (h : ∀ c ∈ t, isSolid c = true) : Framed t := by
  refine ⟨?_, ?_⟩
  · obtain ⟨c, rest, rfl⟩ := List.exists_cons_of_ne_nil hne
    exact ⟨c, rest, h c List.mem_cons_self, rfl⟩
  · obtain ⟨init, c, hlast⟩ := (List.eq_nil_or_concat t).resolve_left hne
    rw [List.concat_eq_append] at hlast
    exact ⟨c, init, h c (hlast ▸ List.mem_append_right _ List.mem_cons_self), hlast⟩

/-- Names and numbers hold solid characters only. -/
theorem isSolid_of_accepts {role : Role} (hr : role = .name ∨ role = .number)
    (h : role.accepts token = true) : token.toList ≠ [] ∧ ∀ c ∈ token.toList, isSolid c = true := by
  rcases hr with rfl | rfl
  · rw [Role.accepts] at h
    rcases htoken : token.toList with _ | ⟨c, cs⟩
    · rw [htoken] at h
      cases h
    · rw [htoken, Role.isName, Bool.and_eq_true_iff, List.all_eq_true] at h
      refine ⟨List.cons_ne_nil c cs,
        List.forall_mem_cons.2 ⟨isSolid_of_isLetter h.1, fun a ha => ?_⟩⟩
      rcases Bool.or_eq_true_iff.1 (h.2 a ha) with ha | ha
      · exact isSolid_of_isLetter ha
      · exact isSolid_of_isDigit ha
  · rw [Role.accepts, Role.isNumber, Bool.and_eq_true_iff, List.all_eq_true] at h
    exact ⟨by simpa using h.1, fun c hc => isSolid_of_isDigit (h.2 c hc)⟩

theorem framed_of_isQuotedBy {q : Char} (hq : isSolid q = true) (h : Role.isQuotedBy q t = true) :
    Framed t := by
  rcases t with _ | ⟨c, cs⟩
  · cases h
  · simp only [Role.isQuotedBy, Bool.and_eq_true, beq_iff_eq] at h
    obtain ⟨⟨rfl, hlast⟩, -⟩ := h
    obtain ⟨init, rfl⟩ := List.getLast?_eq_some_iff.1 hlast
    exact ⟨⟨c, _, hq, rfl⟩, ⟨c, c :: init, hq, rfl⟩⟩

/-- Names, numbers and quoted texts are framed. -/
theorem framed_of_accepts {role : Role} (hr : role = .name ∨ role = .number ∨ role = .text)
    (h : role.accepts token = true) : Framed token.toList := by
  rcases or_assoc.2 hr with hr | rfl
  · obtain ⟨hne, hsolid⟩ := isSolid_of_accepts hr h
    exact framed_of_solid hne hsolid
  · rcases Bool.or_eq_true_iff.1 h with h | h
    · exact framed_of_isQuotedBy (by decide) h
    · exact framed_of_isQuotedBy (by decide) h

theorem closedUp_of_solid (h : ∀ c ∈ t, isSolid c = true) : closedUp t = t := by
  have hspace : ∀ p, ¬ [' ', p, ' '] <:+: t := fun p hp =>
    absurd (h ' ' (hp.mem List.mem_cons_self)) (by decide)
  exact (closedUp_eq_self_iff t).2 ⟨hspace '(', hspace ')'⟩

end View

/-! ### The language laid out by indentation -/

/-- The categories of words, with the roles that say which values they take. -/
def Grammar.wordCategories : List (String × Role) :=
  [("NAME", .name), ("NUMBER", .number), ("STRING", .text)]

/-- Each of these categories has its role. -/
def Grammar.HasWords (g : Grammar) : Prop :=
  ∀ x ∈ g.symbols.toList, ∀ p ∈ wordCategories, x.category? = some p.1 → x.role = some p.2

instance (g : Grammar) : Decidable g.HasWords :=
  inferInstanceAs (Decidable (∀ x ∈ g.symbols.toList, ∀ p ∈ Grammar.wordCategories,
    x.category? = some p.1 → x.role = some p.2))

theorem Grammar.Offside.hasWords {g : Grammar} (hg : Offside.grammar = .ok g) : g.HasWords :=
  of_all hg (by decide +kernel)

theorem Draft.role?_of_wordCategory {d : Draft} {n : Draft.NodeId} (h : d.grammar.HasWords)
    {p : String × Role} (hp : p ∈ Grammar.wordCategories) (hc : d.category? n = some p.1) :
    d.role? n = some p.2 := by
  rw [category?, symbol] at hc
  rw [role?, symbol]
  rcases d.grammar.symbol_mem_or (d.node n).symbol with hx | hx
  · exact h _ hx p hp hc
  · rw [hx] at hc
    cases hc

namespace Editor

open Draft Script View

variable {e : Editor} {g : Grammar} {n : NodeId}

/-- Names and numbers stand in the text as they were given, and so do quoted texts without a
parenthesis between two spaces. With one, what is left of it stands there. -/
theorem token_stands_in_source (hg : Grammar.Offside.grammar = .ok g) (h : Reached g e)
    (hn : n ∈ e.draft.leaves) (hc : ∃ p ∈ Grammar.wordCategories, e.draft.category? n = some p.1) :
    ∃ t, e.draft.token? n = some t ∧ closedUp t.toList <:+: (source e.draft).toList ∧
      ((e.draft.category? n = some "STRING" →
          ¬ [' ', '(', ' '] <:+: t.toList ∧ ¬ [' ', ')', ' '] <:+: t.toList) →
        t.toList <:+: (source e.draft).toList) := by
  have hwf := Grammar.Definition.wellFormed_build hg
  obtain ⟨-, hd⟩ := h.orderly hwf
  obtain ⟨p, hp, hc⟩ := hc
  have hwords := Grammar.Offside.hasWords hg
  rw [← (hd.sound hwf).2] at hwords
  have hr := role?_of_wordCategory hwords hp hc
  have hworded := hd.worded hwf
  obtain ⟨t, ht⟩ := Option.isSome_iff_exists.1 (hworded.filled n hn)
  have haccepts := hworded.accepted n p.2 t (literal?_of_category? hc) hr ht
  simp only [Grammar.wordCategories, List.mem_cons, List.not_mem_nil, or_false] at hp
  have hrole : p.2 = .name ∨ p.2 = .number ∨ p.2 = .text := by
    rcases hp with rfl | rfl | rfl <;> simp
  have hnewline : e.draft.role? n ≠ some .newline := by
    rw [hr]
    rcases hrole with h | h | h <;> simp [h]
  have hstands := infix_source hn hnewline ht (framed_of_accepts hrole haccepts)
  refine ⟨t, ht, hstands, fun hplain => ?_⟩
  have hself : closedUp t.toList = t.toList := by
    rcases hp with rfl | rfl | rfl
    · exact closedUp_of_solid (isSolid_of_accepts (Or.inl rfl) haccepts).2
    · exact closedUp_of_solid (isSolid_of_accepts (Or.inr rfl) haccepts).2
    · exact (closedUp_eq_self_iff _).2 (hplain hc)
  rwa [hself] at hstands

/-- A quoted text with a parenthesis between two spaces loses them. -/
theorem exists_quotedParenthesis : ∃ g e, Grammar.Offside.grammar = .ok g ∧ Reached g e ∧
    e.draft.leaves = [⟨13⟩] ∧ e.draft.category? ⟨13⟩ = some "STRING" ∧
    e.draft.token? ⟨13⟩ = some "'a ( b'" ∧ source e.draft = "'a(b'" := by
  have hrun : Grammar.Offside.grammar.toOption.any (fun g =>
      ((Editor.start g {} []).appendAll? [.category "STRING" (some "'a ( b'")]).any fun e =>
        e.draft.leaves = [⟨13⟩] ∧ e.draft.category? ⟨13⟩ = some "STRING" ∧
          e.draft.token? ⟨13⟩ = some "'a ( b'" ∧ source e.draft = "'a(b'") = true := by
    decide +kernel
  obtain ⟨g, hg, hrun⟩ := Grammar.Offside.exists_of_any hrun
  obtain ⟨e, he, hrun⟩ := (Option.any_eq_true _ _).1 hrun
  have h : Appends g {} e := Appends.appendAll? (.start (.start {})) he
  exact ⟨g, e, hg, (h.writtenOn (Grammar.Definition.wellFormed_build hg)
    (Grammar.Offside.laysOut hg).1).reached, of_decide_eq_true hrun⟩

theorem quotedParenthesis_closed_up : ∃ g e, Grammar.Offside.grammar = .ok g ∧ Reached g e ∧
    ⟨13⟩ ∈ e.draft.leaves ∧ e.draft.category? ⟨13⟩ = some "STRING" ∧
    e.draft.token? ⟨13⟩ = some "'a ( b'" ∧ "'a(b'".toList <:+: (source e.draft).toList := by
  obtain ⟨g, e, hg, h, hl, hc, ht, -⟩ := exists_quotedParenthesis
  have hn : ⟨13⟩ ∈ e.draft.leaves := by
    rw [hl]
    exact List.mem_cons_self
  obtain ⟨t, ht', hstands, -⟩ :=
    token_stands_in_source hg h hn ⟨("STRING", .text), by decide, hc⟩
  obtain rfl : "'a ( b'" = t := Option.some_inj.1 (ht.symm.trans ht')
  exact ⟨g, e, hg, h, hn, hc, ht, hstands⟩

theorem quoted_parenthesis_changed : ∃ g e n t, Grammar.Offside.grammar = .ok g ∧ Reached g e ∧
    n ∈ e.draft.leaves ∧ e.draft.category? n = some "STRING" ∧ e.draft.token? n = some t ∧
    ¬ t.toList <:+: (source e.draft).toList := by
  obtain ⟨g, e, hg, h, hl, hc, ht, hsource⟩ := exists_quotedParenthesis
  refine ⟨g, e, ⟨13⟩, "'a ( b'", hg, h, ?_, hc, ht, ?_⟩
  · rw [hl]
    exact List.mem_cons_self
  · rw [hsource]
    decide

end Editor

end Cloze
