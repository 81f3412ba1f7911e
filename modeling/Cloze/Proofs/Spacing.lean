import Cloze.View.Source
import Mathlib.Data.List.DropRight

/-!
# What rendering takes away

Rendering a line takes away spaces next to a parenthesis, and white space at the end. From left to
right, a text either starts with a parenthesis between two spaces or keeps its first character
(`closeUp_induction`), so a character that is neither a space nor the parenthesis parts a text in
two that are closed up on their own (`closeUp_append_cons`).

The lines hold the texts of the leaves that are no newlines, in order, with the tokens of the
newlines as their indentation.
-/

namespace Cloze

namespace Text

variable {c : Char}

/-- Only white space is taken away, and only at the end. -/
theorem exists_trimEnd_append (cs : List Char) :
    ∃ ws, trimEnd cs ++ ws = cs ∧ ∀ c ∈ ws, isWhite c = true :=
  ⟨cs.rtakeWhile isWhite, List.rdropWhile_append_rtakeWhile, fun _ hc => List.mem_rtakeWhile_imp hc⟩

theorem trimEnd_append_cons (hc : isWhite c = false) (xs ys : List Char) :
    trimEnd (xs ++ c :: ys) = xs ++ c :: trimEnd ys := by
  induction ys using List.reverseRecOn with
  | nil => exact trimEnd_concat_of_not_isWhite hc xs
  | append_singleton ys a ih =>
    rw [← List.cons_append, ← List.append_assoc]
    rcases ha : isWhite a with _ | _
    · rw [trimEnd_concat_of_not_isWhite ha, trimEnd_concat_of_not_isWhite ha,
        List.append_assoc, List.cons_append]
    · rw [trimEnd_concat_of_isWhite ha, trimEnd_concat_of_isWhite ha, ih]

/-- White space is taken away behind the last other character only. -/
theorem prefix_trimEnd (hc : isWhite c = false) (xs ys : List Char) :
    xs ++ [c] <+: trimEnd (xs ++ [c] ++ ys) := by
  rw [List.append_assoc, List.singleton_append, trimEnd_append_cons hc]
  exact ⟨trimEnd ys, by rw [List.append_assoc, List.singleton_append]⟩

end Text

namespace View

open Draft

variable {p c : Char} {cs : List Char}

/-! ### Characters -/

def isParen (c : Char) : Bool :=
  c == '(' || c == ')'

/-- Neither white space nor a parenthesis, so that nothing is taken away beside it. -/
def isSolid (c : Char) : Bool :=
  !Text.isWhite c && !isParen c

theorem isWhite_of_isSolid (h : isSolid c = true) : Text.isWhite c = false := by
  simpa using (Bool.and_eq_true_iff.1 h).1

theorem isParen_of_isSolid (h : isSolid c = true) : isParen c = false := by
  simpa using (Bool.and_eq_true_iff.1 h).2

theorem ne_space_of_isSolid (h : isSolid c = true) : c ≠ ' ' := by
  rintro rfl
  exact absurd h (by decide)

theorem ne_of_isSolid (h : isSolid c = true) (hp : isParen p = true) : c ≠ p := by
  rintro rfl
  rw [isParen_of_isSolid h] at hp
  cases hp

/-! ### Spaces around parentheses -/

@[simp]
theorem closeUp_nil (p : Char) : closeUp p [] = [] :=
  rfl

theorem closeUp_between (p : Char) (cs : List Char) :
    closeUp p (' ' :: p :: ' ' :: cs) = p :: closeUp p cs := by
  simp [closeUp, closeUpFrom]

theorem closeUp_cons (h : ¬ [' ', p, ' '] <+: c :: cs) :
    closeUp p (c :: cs) = c :: closeUp p cs := by
  rw [closeUp, closeUpFrom, if_neg fun hc => h (List.isPrefixOf_iff_prefix.1 hc), closeUp]

theorem closeUp_cons_of_ne (hc : c ≠ ' ') (cs : List Char) :
    closeUp p (c :: cs) = c :: closeUp p cs :=
  closeUp_cons fun h => hc (List.cons_prefix_cons.1 h).1.symm

/-- What holds of the empty text, and stays so when a parenthesis between two spaces or any other
character comes before it, holds of every text. -/
theorem closeUp_induction (p : Char) {motive : List Char → Prop} (nil : motive [])
    (between : ∀ cs, motive cs → motive (' ' :: p :: ' ' :: cs))
    (cons : ∀ c cs, ¬ [' ', p, ' '] <+: c :: cs → motive cs → motive (c :: cs)) (cs : List Char) :
    motive cs := by
  induction hlen : cs.length using Nat.strong_induction_on generalizing cs with
  | _ len ih =>
    rcases cs with _ | ⟨c, cs⟩
    · exact nil
    by_cases h : [' ', p, ' '] <+: c :: cs
    · obtain ⟨rest, hrest⟩ := h
      have hlt : rest.length < len := by
        rw [← hlen, ← hrest, List.length_append]
        exact Nat.lt_add_of_pos_left (Nat.succ_pos _)
      rw [← hrest]
      exact between rest (ih _ hlt rest rfl)
    · exact cons c cs h (ih _ (hlen ▸ Nat.lt_succ_self _) cs rfl)

theorem closeUp_sublist (p : Char) (cs : List Char) : (closeUp p cs).Sublist cs := by
  induction cs using closeUp_induction p with
  | nil => exact .slnil
  | between cs ih =>
    rw [closeUp_between]
    exact ((ih.cons ' ').cons_cons p).cons ' '
  | cons c cs h ih =>
    rw [closeUp_cons h]
    exact ih.cons_cons c

/-- In front, a text without spaces is kept. -/
theorem closeUp_append {t : List Char} (ht : ∀ c ∈ t, c ≠ ' ') (cs : List Char) :
    closeUp p (t ++ cs) = t ++ closeUp p cs := by
  induction t with
  | nil => rfl
  | cons c t ih =>
    obtain ⟨hc, ht⟩ := List.forall_mem_cons.1 ht
    rw [List.cons_append, closeUp_cons_of_ne hc, ih ht, List.cons_append]

/-- A start that does not hold a character ends before it. -/
theorem prefix_of_prefix_append_cons {α : Type*} {pat xs ys : List α} {a : α} (ha : a ∉ pat)
    (h : pat <+: xs ++ a :: ys) : pat <+: xs := by
  rcases List.prefix_or_prefix_of_prefix h (List.prefix_append xs (a :: ys)) with h' | ⟨rest, hrest⟩
  · exact h'
  · rcases rest with _ | ⟨b, rest⟩
    · rw [List.append_nil] at hrest
      exact hrest ▸ List.prefix_rfl
    · rw [← hrest, List.prefix_append_right_inj, List.cons_prefix_cons] at h
      exact absurd (hrest ▸ h.1 ▸ List.mem_append_right _ List.mem_cons_self) ha

/-- A character that is neither a space nor the parenthesis is no part of what is closed up. -/
theorem closeUp_append_cons (hc : c ≠ ' ') (hp : c ≠ p) (xs ys : List Char) :
    closeUp p (xs ++ c :: ys) = closeUp p xs ++ c :: closeUp p ys := by
  induction xs using closeUp_induction p with
  | nil => exact closeUp_cons_of_ne hc ys
  | between xs ih =>
    rw [List.cons_append, List.cons_append, List.cons_append, closeUp_between, closeUp_between, ih,
      List.cons_append]
  | cons a xs h ih =>
    have h' : ¬ [' ', p, ' '] <+: a :: (xs ++ c :: ys) := fun h' =>
      h (prefix_of_prefix_append_cons (by simp [hc, hp]) (List.cons_append ▸ h'))
    rw [List.cons_append, closeUp_cons h', closeUp_cons h, ih, List.cons_append]

/-- A text once both parentheses have been closed up. -/
def closedUp (cs : List Char) : List Char :=
  closeUp ')' (closeUp '(' cs)

theorem closedUp_sublist (cs : List Char) : (closedUp cs).Sublist cs :=
  (closeUp_sublist ')' _).trans (closeUp_sublist '(' cs)

/-! ### Lines -/

theorem Line.toList_render (l : Line) :
    l.render.toList = Text.trimEnd (l.indent.toList ++ closedUp l.spaced) := by
  rw [render, String.toList_ofList, closedUp]

/-- The leaf is a newline. -/
def startsLine (d : Draft) (n : NodeId) : Bool :=
  d.role? n == some .newline

/-- The tokens of the lines are the texts of the leaves between newlines. -/
theorem map_tokens_linesFrom (d : Draft) (line : Line) (ns : List NodeId) :
    (linesFrom d line ns).map Line.tokens
      = ((ns.splitOnP (startsLine d)).map (·.filterMap (leafText? d))).modifyHead
          (line.tokens ++ ·) := by
  induction ns generalizing line with
  | nil => simp [linesFrom, List.splitOnP_nil]
  | cons n ns ih =>
    obtain ⟨ms, rest, hrest⟩ := List.exists_cons_of_ne_nil (List.splitOnP_ne_nil (startsLine d) ns)
    rw [linesFrom, List.splitOnP_cons_eq_if_modifyHead]
    split
    · rename_i hn
      rw [List.map_cons, ih, if_pos (by simp [startsLine, hn]), hrest]
      simp
    · rename_i hn
      rw [ih, if_neg (by simpa [startsLine] using hn), hrest]
      rcases ht : leafText? d n with _ | t <;> simp [ht]

/-- Every line but the first is indented by the token of its newline. -/
theorem map_indent_linesFrom (d : Draft) (line : Line) (ns : List NodeId) :
    (linesFrom d line ns).map Line.indent
      = line.indent :: (ns.filter (startsLine d)).map fun n => (d.token? n).getD "" := by
  induction ns generalizing line with
  | nil => rfl
  | cons n ns ih =>
    rw [linesFrom]
    split
    · rename_i hn
      rw [List.map_cons, ih, List.filter_cons_of_pos (by simp [startsLine, hn]), List.map_cons]
    · rename_i hn
      rw [ih, List.filter_cons_of_neg (by simpa [startsLine] using hn)]

/-- The lines hold the texts of all leaves that are no newlines. -/
theorem flatMap_tokens_linesFrom (d : Draft) (line : Line) (ns : List NodeId) :
    (linesFrom d line ns).flatMap Line.tokens
      = line.tokens ++ (ns.filter (!startsLine d ·)).filterMap (leafText? d) := by
  induction ns generalizing line with
  | nil => simp [linesFrom]
  | cons n ns ih =>
    rw [linesFrom]
    split
    · rename_i hn
      rw [List.flatMap_cons, ih, List.filter_cons_of_neg (by simp [startsLine, hn]),
        List.nil_append]
    · rename_i hn
      rw [ih, List.filter_cons_of_pos (by simpa [startsLine] using hn)]
      rcases ht : leafText? d n with _ | t <;> simp [ht]

end View

end Cloze
