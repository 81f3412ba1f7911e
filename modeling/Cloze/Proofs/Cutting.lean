import Cloze.Proofs.Attachment
import Cloze.Proofs.Spacing

/-!
# Cutting a text into its tokens

A line is cut into words at its blanks and around every parenthesis (`words`). Of a text, only
spaces next to a parenthesis and blanks at the end of a line are taken away, and neither changes
its words. So where tokens are parentheses or hold neither parentheses nor white space
(`IsToken`), and lines are indented by blanks, the words of a rendered line are its tokens
(`Line.Cuttable.words_render`), and the text of a draft is cut back into its leaves
(`source_cuts_into_tokens`).
-/

namespace Cloze.View

open Draft Text

variable {d : Draft} {g : Grammar} {n : NodeId} {l : Line} {t tok : String} {b c p : Char}
  {xs ys cs : List Char}

/-! ### Words -/

def isBlank (c : Char) : Bool :=
  c == ' ' || c == '\t'

/-- A parenthesis is set apart from what is beside it. -/
def setApart (c : Char) : List Char :=
  if isParen c then [' ', c, ' '] else [c]

/-- The pieces of a text cut at blanks and around every parenthesis, without empty ones. -/
def words (cs : List Char) : List String :=
  (((cs.flatMap setApart).splitOnP isBlank).filter (· ≠ [])).map String.ofList

@[simp]
theorem words_nil : words [] = [] := by
  simp [words, List.splitOnP_nil]

theorem isParen_of_isBlank (hb : isBlank b = true) : isParen b = false := by
  rcases (by simpa [isBlank] using hb : b = ' ' ∨ b = '\t') with rfl | rfl <;> decide

theorem isBlank_of_isParen (hp : isParen p = true) : isBlank p = false := by
  rcases (by simpa [isParen] using hp : p = '(' ∨ p = ')') with rfl | rfl <;> decide

/-- Without parentheses nothing is set apart. -/
theorem flatMap_setApart (h : ∀ c ∈ cs, isParen c = false) : cs.flatMap setApart = cs := by
  induction cs with
  | nil => rfl
  | cons c cs ih =>
    obtain ⟨hc, hcs⟩ := List.forall_mem_cons.1 h
    rw [List.flatMap_cons, ih hcs, setApart, hc]
    rfl

theorem words_append_blank (hb : isBlank b = true) (xs ys : List Char) :
    words (xs ++ b :: ys) = words xs ++ words ys := by
  have hapart : setApart b = [b] := by rw [setApart, isParen_of_isBlank hb]; rfl
  rw [words, List.flatMap_append, List.flatMap_cons, hapart, List.singleton_append,
    List.splitOnP_append_cons _ _ hb, List.filter_append, List.map_append, words, words]

theorem words_append_paren (hp : isParen p = true) (xs ys : List Char) :
    words (xs ++ p :: ys) = words xs ++ String.ofList [p] :: words ys := by
  have hapart : setApart p ++ ys.flatMap setApart = ' ' :: ([p] ++ ' ' :: ys.flatMap setApart) := by
    rw [setApart, if_pos hp]
    rfl
  have hsingle : [p].splitOnP isBlank = [[p]] :=
    List.splitOnP_eq_singleton fun c hc => by
      rw [List.mem_singleton.1 hc, isBlank_of_isParen hp]
  rw [words, List.flatMap_append, List.flatMap_cons, hapart,
    List.splitOnP_append_cons _ _ (by decide), List.splitOnP_append_cons _ _ (by decide), hsingle,
    List.filter_append, List.map_append, words, words]
  rfl

theorem words_cons_blank (hb : isBlank b = true) (cs : List Char) : words (b :: cs) = words cs := by
  simpa using words_append_blank hb [] cs

theorem words_cons_paren (hp : isParen p = true) (cs : List Char) :
    words (p :: cs) = String.ofList [p] :: words cs := by
  simpa using words_append_paren hp [] cs

/-- Blanks in front belong to no word. -/
theorem words_blanks_append (hb : ∀ c ∈ xs, isBlank c = true) (ys : List Char) :
    words (xs ++ ys) = words ys := by
  induction xs with
  | nil => rfl
  | cons b xs ih =>
    obtain ⟨hb, hxs⟩ := List.forall_mem_cons.1 hb
    rw [List.cons_append, words_cons_blank hb, ih hxs]

/-- Blanks at the end belong to no word. -/
theorem words_append_blanks (hb : ∀ c ∈ ys, isBlank c = true) (xs : List Char) :
    words (xs ++ ys) = words xs := by
  rcases ys with _ | ⟨b, ys⟩
  · rw [List.append_nil]
  · obtain ⟨hb, hys⟩ := List.forall_mem_cons.1 hb
    rw [words_append_blank hb, ← List.append_nil ys, words_blanks_append hys, words_nil,
      List.append_nil]

/-- Closing up changes no words, whatever stands in front. -/
theorem words_append_closeUp (hp : isParen p = true) (xs cs : List Char) :
    words (xs ++ closeUp p cs) = words (xs ++ cs) := by
  induction cs using closeUp_induction p generalizing xs with
  | nil => rfl
  | between cs ih =>
    have hrest := ih []
    rw [List.nil_append, List.nil_append] at hrest
    rw [closeUp_between, words_append_paren hp, hrest, words_append_blank (by decide),
      words_cons_paren hp, words_cons_blank (by decide)]
  | cons c cs h ih =>
    rw [closeUp_cons h, ← List.singleton_append, ← List.append_assoc, ih, List.append_assoc,
      List.singleton_append]

/-- Where all white space is blank, taking it away at the end changes no words. -/
theorem words_trimEnd (hw : ∀ c ∈ cs, isWhite c = true → isBlank c = true) :
    words (trimEnd cs) = words cs := by
  obtain ⟨ws, hws, hwhite⟩ := exists_trimEnd_append cs
  have hblank : ∀ c ∈ ws, isBlank c = true := fun c hc =>
    hw c (hws ▸ List.mem_append_right _ hc) (hwhite c hc)
  rw [← words_append_blanks hblank (trimEnd cs), hws]

/-! ### Tokens -/

/-- A parenthesis, or a text without parentheses and white space. -/
def IsToken (t : String) : Prop :=
  t = "(" ∨ t = ")" ∨ ∀ c ∈ t.toList, isSolid c = true

instance (t : String) : Decidable (IsToken t) :=
  decidable_of_iff (t = "(" ∨ t = ")" ∨ t.toList.all isSolid = true) (by
    rw [IsToken, List.all_eq_true])

theorem IsToken.not_isWhite (ht : IsToken t) (hc : c ∈ t.toList) : isWhite c = false := by
  rcases ht with rfl | rfl | ht
  · rw [List.mem_singleton.1 hc]; decide
  · rw [List.mem_singleton.1 hc]; decide
  · exact isWhite_of_isSolid (ht c hc)

theorem isWhite_of_isBlank (hb : isBlank b = true) : isWhite b = true := by
  rcases (by simpa [isBlank] using hb : b = ' ' ∨ b = '\t') with rfl | rfl <;> decide

theorem IsToken.words_eq (ht : IsToken t) (hne : t ≠ "") : words t.toList = [t] := by
  rcases ht with rfl | rfl | ht
  · exact words_append_paren (p := '(') (by decide) [] []
  · exact words_append_paren (p := ')') (by decide) [] []
  · have hsplit : t.toList.splitOnP isBlank = [t.toList] :=
      List.splitOnP_eq_singleton fun c hc =>
        Bool.eq_false_iff.2 fun hb => by
          simpa [isWhite_of_isBlank hb] using isWhite_of_isSolid (ht c hc)
    rw [words, flatMap_setApart fun c hc => isParen_of_isSolid (ht c hc), hsplit]
    simp [hne]

/-! ### Lines -/

/-- A line of tokens that is indented by blanks. -/
structure Line.Cuttable (l : Line) : Prop where
  indent : ∀ c ∈ l.indent.toList, isBlank c = true
  tokens : ∀ t ∈ l.tokens, t ≠ "" ∧ IsToken t

theorem words_flatMap_append_space {ts : List String} (h : ∀ t ∈ ts, t ≠ "" ∧ IsToken t) :
    words (ts.flatMap fun t => t.toList ++ [' ']) = ts := by
  induction ts with
  | nil => exact words_nil
  | cons t ts ih =>
    obtain ⟨⟨hne, ht⟩, h⟩ := List.forall_mem_cons.1 h
    rw [List.flatMap_cons, List.append_assoc, List.singleton_append,
      words_append_blank (by decide), ht.words_eq hne, ih h, List.singleton_append]

namespace Line.Cuttable

/-- All white space of a line is blank. -/
theorem isBlank_of_isWhite (h : l.Cuttable) (hc : c ∈ l.indent.toList ++ closedUp l.spaced)
    (hw : isWhite c = true) : isBlank c = true := by
  rcases List.mem_append.1 hc with hc | hc
  · exact h.indent c hc
  · have hc := (closedUp_sublist _).mem hc
    obtain ⟨t, ht, hc⟩ := List.mem_flatMap.1 hc
    rcases List.mem_append.1 hc with hc | hc
    · rw [(h.tokens t ht).2.not_isWhite hc] at hw
      cases hw
    · rw [List.mem_singleton.1 hc]
      decide

/-- The words of a line are its tokens. -/
theorem words_render (h : l.Cuttable) : words l.render.toList = l.tokens := by
  have hclosed := words_append_closeUp (p := ')') (by decide) [] (closeUp '(' l.spaced)
  have hopen := words_append_closeUp (p := '(') (by decide) [] l.spaced
  rw [List.nil_append, List.nil_append] at hclosed hopen
  rw [l.toList_render, words_trimEnd fun c hc => h.isBlank_of_isWhite hc,
    words_blanks_append h.indent, closedUp, hclosed, hopen]
  exact words_flatMap_append_space h.tokens

theorem not_mem_render (h : l.Cuttable) : '\n' ∉ l.render.toList := fun hc => by
  obtain ⟨ws, hws, -⟩ := exists_trimEnd_append (l.indent.toList ++ closedUp l.spaced)
  rw [l.toList_render] at hc
  have hmem := hws ▸ List.mem_append_left ws hc
  exact absurd (h.isBlank_of_isWhite hmem (by decide)) (by decide)

/-- A line starts with its indentation, and its first token directly behind. -/
theorem prefix_render (h : l.Cuttable) {toks : List String} (ht : l.tokens = tok :: toks) :
    l.indent.toList ++ tok.toList <+: l.render.toList := by
  obtain ⟨hne, htok⟩ := h.tokens tok (ht ▸ List.mem_cons_self)
  have hspace : ∀ c ∈ tok.toList, c ≠ ' ' := by
    rintro c hc rfl
    exact absurd (htok.not_isWhite hc) (by decide)
  have hclosed : ∃ rest, closedUp l.spaced = tok.toList ++ rest := by
    rw [closedUp, spaced, ht, List.flatMap_cons, List.append_assoc, closeUp_append hspace,
      closeUp_append hspace]
    exact ⟨_, rfl⟩
  obtain ⟨rest, hrest⟩ := hclosed
  obtain ⟨init, last, hlast⟩ : ∃ init last, tok.toList = init ++ [last] := by
    rcases List.eq_nil_or_concat tok.toList with hnil | ⟨init, last, hlast⟩
    · exact absurd (String.toList_eq_nil_iff.1 hnil) hne
    · exact ⟨init, last, by rw [hlast, List.concat_eq_append]⟩
  have hwhite : isWhite last = false :=
    htok.not_isWhite (hlast ▸ List.mem_append_right _ List.mem_cons_self)
  rw [l.toList_render, hrest, hlast]
  simpa only [List.append_assoc] using prefix_trimEnd hwhite (l.indent.toList ++ init) rest

end Line.Cuttable

/-! ### Drafts -/

theorem map_tokens_lines (d : Draft) : (lines d).map Line.tokens
    = (d.leaves.splitOnP (startsLine d)).map (·.filterMap (leafText? d)) := by
  rw [lines, map_tokens_linesFrom]
  obtain ⟨ms, rest, hrest⟩ := List.exists_cons_of_ne_nil
    (List.splitOnP_ne_nil (startsLine d) d.leaves)
  rw [hrest, List.map_cons, List.modifyHead_cons, List.nil_append]

/-- The first line is not indented, and every other has the token of its newline in front. -/
theorem map_indent_lines (h : ∀ n ∈ d.leaves, startsLine d n = true → d.token? n ≠ none) :
    (lines d).map (fun l => some l.indent)
      = some "" :: (d.leaves.filter (startsLine d)).map d.token? := by
  have hfilled : (d.leaves.filter (startsLine d)).map (fun n => some ((d.token? n).getD ""))
      = (d.leaves.filter (startsLine d)).map d.token? := by
    refine List.map_congr_left fun n hn => ?_
    obtain ⟨hn, hstarts⟩ := List.mem_filter.1 hn
    obtain ⟨t, ht⟩ := Option.ne_none_iff_exists'.1 (h n hn hstarts)
    rw [ht, Option.getD_some]
  have hindents := congrArg (List.map some) (map_indent_linesFrom d {} d.leaves)
  rw [List.map_map, List.map_cons, List.map_map] at hindents
  exact hindents.trans (congrArg (some "" :: ·) hfilled)

theorem lines_ne_nil (d : Draft) : lines d ≠ [] := fun hnil => by
  have h := map_indent_linesFrom d {} d.leaves
  rw [← lines, hnil] at h
  cases h

/-- The text of a draft split at line feeds. -/
def rows (d : Draft) : List (List Char) :=
  (source d).toList.splitOn '\n'

theorem rows_eq (h : ∀ l ∈ lines d, l.Cuttable) :
    rows d = (lines d).map fun l => l.render.toList := by
  rw [rows, source, String.toList_intercalate, List.map_map]
  refine List.splitOn_intercalate _ (fun row hrow => ?_) (by simpa using lines_ne_nil d)
  obtain ⟨l, hl, rfl⟩ := List.mem_map.1 hrow
  exact (h l hl).not_mem_render

theorem mem_indentation (h : c ∈ (d.indentation n).toList) :
    c ∈ d.settings.indentUnit.toList := by
  rw [indentation, String.toList_join, List.mem_flatMap] at h
  obtain ⟨unit, hunit, hc⟩ := h
  exact List.eq_of_mem_replicate hunit ▸ hc

/-- The lines of a draft whose newlines are blank and whose other leaves are tokens. -/
theorem cuttable_of_mem_lines
    (hblank : ∀ n ∈ d.leaves, startsLine d n = true → ∀ t, d.token? n = some t →
      ∀ c ∈ t.toList, isBlank c = true)
    (htoken : ∀ n ∈ d.leaves, startsLine d n = false → ∀ t, d.token? n = some t → IsToken t) :
    ∀ l ∈ lines d, l.Cuttable := fun l hl => by
  constructor
  · have hmem := List.mem_map_of_mem (f := Line.indent) hl
    rw [lines, map_indent_linesFrom, List.mem_cons, List.mem_map] at hmem
    rcases hmem with hnil | ⟨n, hn, ht⟩
    · rw [hnil]
      exact fun c hc => by cases hc
    · obtain ⟨hn, hstarts⟩ := List.mem_filter.1 hn
      rcases hsome : d.token? n with _ | t
      · rw [hsome, Option.getD_none] at ht
        rw [← ht]
        exact fun c hc => by cases hc
      · rw [hsome, Option.getD_some] at ht
        exact ht ▸ hblank n hn hstarts t hsome
  · intro t ht
    have hmem := List.mem_flatMap.2 ⟨l, hl, ht⟩
    rw [lines, flatMap_tokens_linesFrom, List.mem_append, List.mem_filterMap] at hmem
    rcases hmem with hnil | ⟨n, hn, htext⟩
    · cases hnil
    · obtain ⟨hn, hstarts⟩ := List.mem_filter.1 hn
      obtain ⟨hsome, hne⟩ := Option.filter_eq_some_iff.1 htext
      exact ⟨by simpa using hne, htoken n hn (by simpa using hstarts) t hsome⟩

/-- The newlines of a draft are indented by their blocks. -/
theorem token?_of_startsLine (hg : g.WellFormed) (h : Reached g d) (hn : n ∈ d.leaves)
    (hstarts : startsLine d n = true) (hc : d.category? n ≠ none) :
    d.token? n = some (d.indentation n) := by
  obtain ⟨r, hr⟩ := h.recorded
  obtain ⟨b, hb⟩ := Option.isSome_iff_exists.1
    (((hr.tallies hg).noted n).2 ⟨hn, by simpa [startsLine] using hstarts⟩)
  obtain ⟨name, hname⟩ := Option.ne_none_iff_exists'.1 hc
  exact (h.aligned hg n b hb).2 (literal?_of_category? hname)

/-- A text is cut back into the tokens it was made of: it has a line for every newline and one
more, the words of a line are the texts of the leaves between two newlines, and a line starts
with the token of its newline, its first word directly behind. -/
theorem source_cuts_into_tokens {definition : Grammar.Definition} (hg : definition.build = .ok g)
    (h : Reached g d) (hunit : ∀ c ∈ d.settings.indentUnit.toList, isBlank c = true)
    (hnewline : ∀ n ∈ d.leaves, d.role? n = some .newline → d.category? n ≠ none)
    (htoken : ∀ n ∈ d.leaves, d.role? n ≠ some .newline → ∀ t ∈ d.token? n, IsToken t) :
    (rows d).length = (d.leaves.filter (startsLine d)).length + 1 ∧
      (rows d).map words
        = (d.leaves.splitOnP (startsLine d)).map (·.filterMap (leafText? d)) ∧
      ∀ (i : Nat) row tok toks, (rows d)[i]? = some row → words row = tok :: toks →
        ∃ margin : String,
          (some "" :: (d.leaves.filter (startsLine d)).map d.token?)[i]? = some (some margin) ∧
          margin.toList ++ tok.toList <+: row := by
  have hwf := Grammar.Definition.wellFormed_build hg
  have htokens : ∀ n ∈ d.leaves, startsLine d n = true → d.token? n = some (d.indentation n) :=
    fun n hn hstarts => token?_of_startsLine hwf h hn hstarts
      (hnewline n hn (by simpa [startsLine] using hstarts))
  have hlines : ∀ l ∈ lines d, l.Cuttable := by
    refine cuttable_of_mem_lines (fun n hn hstarts t ht c hc => ?_) fun n hn hstarts =>
      htoken n hn (by simpa [startsLine] using hstarts)
    rw [htokens n hn hstarts, Option.some_inj] at ht
    exact hunit c (mem_indentation (ht ▸ hc))
  have hindents := map_indent_lines fun n hn hstarts => by
    rw [htokens n hn hstarts]
    exact Option.some_ne_none _
  rw [rows_eq hlines]
  refine ⟨?_, ?_, fun i row tok toks hrow hwords => ?_⟩
  · simpa using congrArg List.length hindents
  · rw [← map_tokens_lines, List.map_map]
    refine List.map_congr_left fun l hl => ?_
    rw [Function.comp_apply, (hlines l hl).words_render]
  · rw [List.getElem?_map, Option.map_eq_some_iff] at hrow
    obtain ⟨l, hl, rfl⟩ := hrow
    have hcut := hlines l (List.mem_of_getElem? hl)
    rw [hcut.words_render] at hwords
    refine ⟨l.indent, ?_, hcut.prefix_render hwords⟩
    rw [← hindents, List.getElem?_map, hl]
    rfl

/-- A call, and a word in a line that is indented once. -/
def callAndWord : Grammar.Definition where
  rules := [
    ("text", [[.rule "line" .once]]),
    ("line", [[.rule "body" .once]]),
    ("body", [[.category "NAME" .once, .literal "(" .once, .category "NAME" .once,
      .literal ")" .once, .category "NEWLINE" .once, .category "NAME" .once]])]
  roles := [("line", .statement), ("body", .statement), ("NEWLINE", .newline)]

def callAndWordGrammar : Grammar :=
  callAndWord.build.toOption.getD default

/-- Its leaves filled one behind the other. -/
def fillCallAndWord : List Call :=
  [.offers none, .fillWith ⟨2⟩ (some "f"), .offers (some ⟨2⟩), .fillWith ⟨3⟩ none,
    .offers (some ⟨3⟩), .fillWith ⟨4⟩ (some "x"), .offers (some ⟨4⟩), .fillWith ⟨5⟩ none,
    .offers (some ⟨5⟩), .fillWith ⟨6⟩ none, .offers (some ⟨6⟩), .fillWith ⟨7⟩ (some "y")]

/-- A call is closed up, and cut into its tokens again. -/
theorem call_cut_into_tokens : ∃ d, Reached callAndWordGrammar d ∧
    (rows d).map String.ofList = ["f(x)", "  y"] ∧
    (rows d).map words = [["f", "(", "x", ")"], ["y"]] := by
  have hrun : ((Draft.start callAndWordGrammar { indentUnit := "  " } []).callAll?
      fillCallAndWord).any (fun d =>
        d.settings.indentUnit.toList.all isBlank = true ∧
        (∀ n ∈ d.leaves, d.role? n = some .newline → d.category? n ≠ none) ∧
        (∀ n ∈ d.leaves, d.role? n ≠ some .newline → ∀ t ∈ d.token? n, IsToken t) ∧
        (d.leaves.splitOnP (startsLine d)).map (·.filterMap (leafText? d))
          = [["f", "(", "x", ")"], ["y"]] ∧
        (rows d).map String.ofList = ["f(x)", "  y"]) = true := by
    decide +kernel
  obtain ⟨d, hd, hrun⟩ := (Option.any_eq_true _ _).1 hrun
  obtain ⟨hunit, hnewline, htoken, htexts, hrows⟩ := of_decide_eq_true hrun
  have h : Reached callAndWordGrammar d := Reached.callAll? (.start _) hd
  have hg : callAndWord.build = .ok callAndWordGrammar :=
    Grammar.Definition.build_eq_ok (by decide +kernel)
  have hcut := source_cuts_into_tokens hg h (List.all_eq_true.1 hunit) hnewline htoken
  exact ⟨d, h, hrows, hcut.2.1.trans htexts⟩

end Cloze.View
