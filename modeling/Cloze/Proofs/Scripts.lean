import Cloze.Script
import Mathlib.Data.List.TakeWhile
import Mathlib.Tactic.Common

/-!
# Scripts read as they are written

Steps written one behind the other with a space between them are read back as the same steps, if
each is `Printable`: a value must be one word, or close the quote it begins with. A script can also
end with a value whose quote is never closed. Nothing else can be read (`fluent_of_readAll`), so
what was read from any text can be written and is read back (`readAll_joined`).
-/

namespace Cloze.Script

/-! ### What can be written -/

def IsQuote (q : Char) : Prop := q = '"' ∨ q = '\''

instance (q : Char) : Decidable (IsQuote q) := instDecidableOr

/-- The values that are read back whatever stands behind the space after them. -/
inductive PrintableValue : List Char → Prop
  /-- One word that begins with no quote. -/
  | word {c : Char} {cs : List Char} (hq : ¬ IsQuote c) (hs : ∀ x ∈ c :: cs, isSpace x = false) :
    PrintableValue (c :: cs)
  /-- One word that closes the quote it begins with. -/
  | quotedWord {q : Char} {cs : List Char} (hq : IsQuote q) (hmem : q ∈ cs)
    (hs : ∀ x ∈ q :: cs, isSpace x = false) : PrintableValue (q :: cs)
  | quoted {q : Char} {cs : List Char} (hq : IsQuote q) (hmem : q ∉ cs) :
    PrintableValue (q :: (cs ++ [q]))

/-- One word that begins with a quote and never closes it. -/
inductive OpenValue : List Char → Prop
  | mk {q : Char} {cs : List Char} (hq : IsQuote q) (hmem : q ∉ cs)
    (hs : ∀ x ∈ q :: cs, isSpace x = false) : OpenValue (q :: cs)

/-- A capital, then capitals, digits and `_`. -/
def IsCategory : List Char → Prop
  | [] => False
  | c :: cs => isCapital c = true ∧ ∀ x ∈ cs, isNameChar x = true

instance : (name : List Char) → Decidable (IsCategory name)
  | [] => instDecidableFalse
  | c :: cs => decidable_of_iff (isCapital c = true ∧ cs.all isNameChar = true)
    (and_congr_right' List.all_eq_true)

/-- A step that is read back whatever stands behind the space after it. -/
def Step.Printable : Step → Prop
  | literal text => '\'' ∉ text.toList
  | category name value => IsCategory name.toList ∧ ∀ v ∈ value, PrintableValue v.toList
  | left | right => True

theorem Step.printable_category_none {name : String} :
    (category name none).Printable ↔ IsCategory name.toList := by
  simp [Printable]

theorem Step.printable_category_some {name value : String} :
    (category name (some value)).Printable ↔
      IsCategory name.toList ∧ PrintableValue value.toList := by
  simp [Printable]

/-- A category with a value that never closes its quote. -/
def Step.Open : Step → Prop
  | category name (some value) => IsCategory name.toList ∧ OpenValue value.toList
  | category _ none | literal _ | left | right => False

/-- Steps that are read back: only the last may leave a quote open. -/
def Fluent : List Step → Prop
  | [] => True
  | [s] => s.Printable ∨ s.Open
  | s :: t :: steps => s.Printable ∧ Fluent (t :: steps)

theorem fluent_of_printable : ∀ {steps : List Step}, (∀ s ∈ steps, s.Printable) → Fluent steps
  | [], _ => trivial
  | [s], h => .inl (h s List.mem_cons_self)
  | s :: _ :: _, h =>
    ⟨h s List.mem_cons_self, fluent_of_printable fun x hx => h x (List.mem_cons_of_mem s hx)⟩

theorem fluent_cons {s : Step} {steps : List Step}
    (hs : s.Printable ∨ s.Open ∧ steps = []) (h : Fluent steps) : Fluent (s :: steps) := by
  rcases steps with _ | ⟨t, steps⟩
  · exact hs.imp id And.left
  · exact ⟨hs.resolve_right fun ho => List.cons_ne_nil _ _ ho.2, h⟩

/-! ### Values -/

/-- The end of the text or the space between two steps. -/
def AtGap : List Char → Prop
  | [] => True
  | c :: _ => c = ' '

theorem takeWhile_word {cs rest : List Char} (hs : ∀ x ∈ cs, isSpace x = false)
    (hr : AtGap rest) : (cs ++ rest).takeWhile (!isSpace ·) = cs := by
  rw [List.takeWhile_append_of_pos (by simpa using hs)]
  rcases rest with _ | ⟨c, rest⟩
  · simp
  · simp [show c = ' ' from hr, isSpace]

theorem dropWhile_word {cs rest : List Char} (hs : ∀ x ∈ cs, isSpace x = false)
    (hr : AtGap rest) : (cs ++ rest).dropWhile (!isSpace ·) = rest := by
  rw [List.dropWhile_append_of_pos (by simpa using hs)]
  rcases rest with _ | ⟨c, rest⟩
  · rfl
  · simp [show c = ' ' from hr, isSpace]

/-- Up to the first `q`, if there is one. -/
theorem until_quote {q : Char} {cs : List Char} (hmem : q ∉ cs) (rest : List Char) :
    (cs ++ q :: rest).takeWhile (· != q) = cs ∧ (cs ++ q :: rest).dropWhile (· != q) = q :: rest := by
  have hall : ∀ x ∈ cs, (x != q) = true := fun x hx => by
    simpa using fun he : x = q => hmem (he ▸ hx)
  rw [List.takeWhile_append_of_pos hall, List.dropWhile_append_of_pos hall]
  simp

theorem isSpace_quote {q : Char} (h : IsQuote q) : isSpace q = false := by
  rcases h with rfl | rfl <;> decide

/-- Without a space before the next quote of its kind a value is a word. -/
theorem readValue_word {c : Char} {cs : List Char}
    (h : IsQuote c → ∀ x ∈ cs.takeWhile (· != c), isSpace x = false) : readValue (c :: cs) =
      some ((c :: cs).takeWhile (!isSpace ·), (c :: cs).dropWhile (!isSpace ·)) := by
  unfold readValue
  simp only [Bool.or_eq_true, decide_eq_true_eq, List.any_eq_true]
  by_cases hq : c = '"' ∨ c = '\''
  · rw [if_pos hq, if_neg]
    rintro ⟨x, hx, hs⟩
    rw [h hq x hx] at hs
    cases hs
  · rw [if_neg hq]

/-- With a space before the next quote of its kind a value ends with that quote. -/
theorem readValue_quoted {q : Char} {cs : List Char} (hq : IsQuote q)
    (h : ∃ x ∈ cs.takeWhile (· != q), isSpace x = true) : readValue (q :: cs) =
      match cs.dropWhile (· != q) with
      | [] => none
      | _ :: rest => some (q :: (cs.takeWhile (· != q) ++ [q]), rest) := by
  unfold readValue
  simp only [Bool.or_eq_true, decide_eq_true_eq, List.any_eq_true]
  exact (if_pos hq).trans (if_pos h)

/-- A word is read up to the gap behind it, unless it begins with a quote that closes behind it. -/
theorem readValue_upToGap {c : Char} {cs rest : List Char} (hs : ∀ x ∈ c :: cs, isSpace x = false)
    (hr : AtGap rest) (hq : IsQuote c → ∀ x ∈ (cs ++ rest).takeWhile (· != c), x ∈ cs) :
    readValue (c :: cs ++ rest) = some (c :: cs, rest) := by
  rw [List.cons_append, readValue_word fun hc x hx => hs x (List.mem_cons_of_mem c (hq hc x hx)),
    ← List.cons_append, takeWhile_word hs hr, dropWhile_word hs hr]

/-- A printable value is read up to the gap behind it. -/
theorem readValue_printable {v rest : List Char} (h : PrintableValue v) (hr : AtGap rest) :
    readValue (v ++ rest) = some (v, rest) := by
  cases h with
  | word hq hs => exact readValue_upToGap hs hr fun hc => absurd hc hq
  | @quotedWord q cs hq hmem hs =>
    refine readValue_upToGap hs hr fun _ x hx => ?_
    obtain ⟨before, after, rfl, hbefore⟩ := List.eq_append_cons_of_mem hmem
    rw [List.append_assoc, List.cons_append, (until_quote hbefore _).1] at hx
    exact List.mem_append_left _ hx
  | @quoted q cs hq hmem =>
    have happ : q :: (cs ++ [q]) ++ rest = q :: (cs ++ q :: rest) := by simp
    obtain ⟨htake, hdrop⟩ := until_quote hmem rest
    by_cases hs : ∃ x ∈ cs, isSpace x = true
    · rw [happ, readValue_quoted hq (by rwa [htake]), htake, hdrop]
    · have hall : ∀ x ∈ q :: (cs ++ [q]), isSpace x = false := by
        intro x hx
        simp only [List.mem_cons, List.mem_append, List.not_mem_nil, or_false] at hx
        rcases hx with rfl | hx | rfl
        · exact isSpace_quote hq
        · simpa using fun hx' => hs ⟨x, hx, hx'⟩
        · exact isSpace_quote hq
      refine readValue_upToGap hall hr fun _ x hx => ?_
      rw [List.append_assoc, List.singleton_append, htake] at hx
      exact List.mem_append_left _ hx

/-- At the end of a text a value may leave its quote open. -/
theorem readValue_open {v : List Char} (h : OpenValue v) : readValue v = some (v, []) := by
  obtain @⟨q, cs, hq, hmem, hs⟩ := h
  have hgap : AtGap [] := trivial
  simpa using readValue_upToGap hs hgap fun _ x hx => by simpa using (List.takeWhile_subset _) hx

/-- A word that leaves its quote open reaches to the end of the text: a space behind it would stand
before the next quote. -/
theorem no_space_of_openWord {c : Char} {cs : List Char} (hc : isSpace c = false)
    (hmem : c ∉ cs.takeWhile (!isSpace ·))
    (hfree : ∀ x ∈ cs.takeWhile (· != c), isSpace x = false) : cs.dropWhile (!isSpace ·) = [] := by
  rcases hd : cs.dropWhile (!isSpace ·) with _ | ⟨x, after⟩
  · rfl
  · have hx := List.head?_dropWhile_not (!isSpace ·) cs
    rw [hd] at hx
    have hx : isSpace x = true := by simpa using hx
    have hne : ∀ y ∈ cs.takeWhile (!isSpace ·), (y != c) = true := fun y hy => by
      simpa using fun he : y = c => hmem (he ▸ hy)
    have hxc : (x != c) = true := by
      simpa using fun he : x = c => by rw [he, hc] at hx; cases hx
    have hin : x ∈ cs.takeWhile (· != c) := by
      rw [← List.takeWhile_append_dropWhile (p := (!isSpace ·)) (l := cs), hd,
        List.takeWhile_append_of_pos hne, List.takeWhile_cons_of_pos (p := (· != c)) hxc]
      simp
    rw [hfree x hin] at hx
    cases hx

/-- Every value read is printable, or leaves its quote open up to the end of the text. -/
theorem printable_of_readValue {c : Char} {cs v rest : List Char} (hc : isSpace c = false)
    (h : readValue (c :: cs) = some (v, rest)) : PrintableValue v ∨ OpenValue v ∧ rest = [] := by
  by_cases hq : IsQuote c ∧ ∃ x ∈ cs.takeWhile (· != c), isSpace x = true
  · obtain ⟨hq, hs⟩ := hq
    rw [readValue_quoted hq hs] at h
    split at h
    · cases h
    · cases h
      exact .inl (.quoted hq fun hmem => by simpa using List.mem_takeWhile_imp hmem)
  · have hfree : IsQuote c → ∀ x ∈ cs.takeWhile (· != c), isSpace x = false := fun hq' x hx => by
      simpa using fun hs => hq ⟨hq', x, hx, hs⟩
    rw [readValue_word hfree, List.takeWhile_cons_of_pos (by simpa using hc),
      List.dropWhile_cons_of_pos (by simpa using hc)] at h
    cases h
    have hs : ∀ x ∈ c :: cs.takeWhile (!isSpace ·), isSpace x = false := by
      intro x hx
      rcases List.mem_cons.1 hx with rfl | hx
      · exact hc
      · simpa using List.mem_takeWhile_imp hx
    by_cases hquote : IsQuote c
    · by_cases hmem : c ∈ cs.takeWhile (!isSpace ·)
      · exact .inl (.quotedWord hquote hmem hs)
      · exact .inr ⟨⟨hquote, hmem, hs⟩, no_space_of_openWord hc hmem (hfree hquote)⟩
    · exact .inl (.word hquote hs)

/-! ### Steps -/

theorem PrintableValue.exists_cons {v : List Char} (h : PrintableValue v) :
    ∃ c cs, v = c :: cs ∧ isSpace c = false := by
  cases h with
  | word _ hs => exact ⟨_, _, rfl, hs _ List.mem_cons_self⟩
  | quotedWord _ _ hs => exact ⟨_, _, rfl, hs _ List.mem_cons_self⟩
  | quoted hq _ => exact ⟨_, _, rfl, isSpace_quote hq⟩

theorem OpenValue.exists_cons {v : List Char} (h : OpenValue v) :
    ∃ c cs, v = c :: cs ∧ isSpace c = false := by
  obtain ⟨_, _, hs⟩ := h
  exact ⟨_, _, rfl, hs _ List.mem_cons_self⟩

theorem IsCategory.forall_isNameChar : ∀ {name : List Char}, IsCategory name →
    ∀ x ∈ name, isNameChar x = true
  | c :: cs, ⟨hc, hcs⟩, x, hx => by
    rcases List.mem_cons.1 hx with rfl | hx
    · simp [isNameChar, hc]
    · exact hcs x hx

/-- A name is read up to whatever cannot continue it. -/
theorem readCategory_name {name after : List Char} (h : IsCategory name)
    (ha : ∀ c ∈ after.head?, isNameChar c = false) :
    (name ++ after).takeWhile isNameChar = name ∧ (name ++ after).dropWhile isNameChar = after := by
  rw [List.takeWhile_append_of_pos h.forall_isNameChar,
    List.dropWhile_append_of_pos h.forall_isNameChar]
  rcases after with _ | ⟨c, after⟩
  · simp
  · simp [ha c rfl]

theorem readCategory_bare {name rest : List Char} (h : IsCategory name) (hr : AtGap rest) :
    readCategory (name ++ rest) = .step (.category (String.ofList name) none) rest := by
  have hgap : ∀ c ∈ rest.head?, isNameChar c = false := by
    rcases rest with _ | ⟨c, rest⟩
    · simp
    · simp only [List.head?_cons, Option.mem_def, Option.some.injEq, forall_eq', show c = ' ' from hr]
      decide
  obtain ⟨htake, hdrop⟩ := readCategory_name h hgap
  unfold readCategory
  simp only [htake, hdrop]
  rcases rest with _ | ⟨c, rest⟩
  · rfl
  · cases (show c = ' ' from hr)
    rfl

theorem readCategory_value {name v rest : List Char} (h : IsCategory name)
    (hv : ∃ c cs, v = c :: cs ∧ isSpace c = false) (hread : readValue (v ++ rest) = some (v, rest)) :
    readCategory (name ++ ':' :: (v ++ rest)) =
      .step (.category (String.ofList name) (some (String.ofList v))) rest := by
  have hcolon : ∀ c ∈ (':' :: (v ++ rest)).head?, isNameChar c = false := by
    simp only [List.head?_cons, Option.mem_def, Option.some.injEq, forall_eq']
    decide
  obtain ⟨htake, hdrop⟩ := readCategory_name h hcolon
  unfold readCategory
  simp only [htake, hdrop]
  obtain ⟨c, cs, rfl, hc⟩ := hv
  rw [List.cons_append] at hread ⊢
  simp only [hc, hread, Bool.false_eq_true, if_false]

/-- A capital begins neither a gap, a comment nor another kind of step. -/
theorem ne_of_isCapital {c x : Char} (hc : isCapital c = true) (hx : isCapital x = false) :
    c ≠ x := by
  rintro rfl
  rw [hc] at hx
  cases hx

theorem isSpace_of_isCapital {c : Char} (hc : isCapital c = true) : isSpace c = false := by
  have h1 := ne_of_isCapital (x := ' ') hc (by decide)
  have h2 := ne_of_isCapital (x := '\t') hc (by decide)
  have h3 := ne_of_isCapital (x := '\r') hc (by decide)
  have h4 := ne_of_isCapital (x := '\n') hc (by decide)
  have h5 := ne_of_isCapital (x := '\x0c') hc (by decide)
  simp [isSpace, h1, h2, h3, h4, h5]

/-- The step behind a gap: it begins with neither a space nor a comment. -/
def StepAt (cs : List Char) (s : Step) (rest : List Char) : Prop :=
  ∃ c inner, cs = c :: inner ∧ isSpace c = false ∧ c ≠ '#' ∧ readStep c inner = .step s rest

theorem stepAt_category {cs : List Char} {s : Step} {rest : List Char}
    (hc : ∃ c inner, cs = c :: inner ∧ isCapital c = true) (h : readCategory cs = .step s rest) :
    StepAt cs s rest := by
  obtain ⟨c, inner, rfl, hc⟩ := hc
  refine ⟨c, inner, rfl, isSpace_of_isCapital hc, ne_of_isCapital hc (by decide), ?_⟩
  unfold readStep
  rw [if_neg (ne_of_isCapital hc (by decide)), if_neg (ne_of_isCapital hc (by decide)),
    if_neg (ne_of_isCapital hc (by decide)), if_pos hc, h]

theorem IsCategory.exists_append {name : List Char} (h : IsCategory name) (after : List Char) :
    ∃ c inner, name ++ after = c :: inner ∧ isCapital c = true := by
  rcases name with _ | ⟨c, cs⟩
  · exact h.elim
  · exact ⟨c, cs ++ after, rfl, h.1⟩

/-- A step is read up to the gap behind it. -/
theorem stepAt_text {s : Step} {rest : List Char} (h : s.Printable ∨ s.Open ∧ rest = [])
    (hr : AtGap rest) : StepAt (s.text.toList ++ rest) s rest := by
  rcases s with text | ⟨name, _ | value⟩ | _ | _
  · have hfree : '\'' ∉ text.toList := h.resolve_right fun ho => ho.1
    obtain ⟨htake, hdrop⟩ := until_quote hfree rest
    refine ⟨'\'', text.toList ++ '\'' :: rest, by simp [Step.text, toString],
      by decide, by decide, ?_⟩
    rw [readStep, if_pos rfl, readLiteral, hdrop, htake, String.ofList_toList]
  · have hname : IsCategory name.toList := (h.resolve_right fun ho => ho.1).1
    refine stepAt_category (hname.exists_append rest) ?_
    rw [Step.text, readCategory_bare hname hr, String.ofList_toList]
  · have hchars : (Step.category name (some value)).text.toList ++ rest =
        name.toList ++ ':' :: (value.toList ++ rest) := by simp [Step.text, toString]
    rw [hchars]
    rcases h with ⟨hname, hv⟩ | ⟨⟨hname, hv⟩, rfl⟩
    · refine stepAt_category (hname.exists_append _) ?_
      rw [readCategory_value hname (hv value rfl).exists_cons (readValue_printable (hv value rfl) hr),
        String.ofList_toList, String.ofList_toList]
    · refine stepAt_category (hname.exists_append _) ?_
      rw [readCategory_value hname hv.exists_cons (by rw [List.append_nil]; exact readValue_open hv),
        String.ofList_toList, String.ofList_toList]
  · exact ⟨'<', rest, rfl, by decide, by decide, rfl⟩
  · exact ⟨'>', rest, rfl, by decide, by decide, rfl⟩

theorem printable_of_readLiteral {cs rest : List Char} {s : Step}
    (h : readLiteral cs = .step s rest) : s.Printable := by
  unfold readLiteral at h
  split at h
  · cases h
  · cases h
    intro hmem
    rw [String.toList_ofList] at hmem
    simpa using List.mem_takeWhile_imp hmem

theorem printable_of_readCategory {c : Char} {cs rest : List Char} {s : Step}
    (hc : isCapital c = true) (h : readCategory (c :: cs) = .step s rest) :
    s.Printable ∨ s.Open ∧ rest = [] := by
  have hname : IsCategory ((c :: cs).takeWhile isNameChar) := by
    rw [List.takeWhile_cons_of_pos (by simp [isNameChar, hc])]
    exact ⟨hc, fun x hx => List.mem_takeWhile_imp hx⟩
  unfold readCategory at h
  simp only at h
  split at h
  · split at h
    · cases h
      exact .inl (Step.printable_category_none.2 (by rwa [String.toList_ofList]))
    · next hs =>
      split at h
      · cases h
      · next v rest' hv =>
        cases h
        rcases printable_of_readValue (by simpa using hs) hv with hp | ⟨ho, rfl⟩
        · refine .inl (Step.printable_category_some.2 ⟨?_, ?_⟩) <;> rwa [String.toList_ofList]
        · exact .inr ⟨⟨by rwa [String.toList_ofList], by rwa [String.toList_ofList]⟩, rfl⟩
  · cases h
    exact .inl (Step.printable_category_none.2 (by rwa [String.toList_ofList]))

/-- Every step read is printable, or leaves its quote open up to the end of the text. -/
theorem printable_of_readStep {c : Char} {cs rest : List Char} {s : Step}
    (h : readStep c cs = .step s rest) : s.Printable ∨ s.Open ∧ rest = [] := by
  unfold readStep at h
  split at h
  · exact .inl (printable_of_readLiteral h)
  split at h
  · cases h
    exact .inl trivial
  split at h
  · cases h
    exact .inl trivial
  split at h
  · next hc => exact printable_of_readCategory hc h
  · cases h

/-! ### Whole scripts -/

theorem readAll_eq (cs : List Char) : readAll cs =
    match skipLayout false cs with
    | [] => .ok []
    | c :: inner =>
      match readStep c inner with
      | .fault text => .error ⟨c :: inner, text⟩
      | .step s rest => (readAll rest).map (s :: ·) := by
  rw [readAll]
  split
  · next hs => rw [hs]
  · next c inner hs =>
    rw [hs]
    dsimp only
    split
    · next hr => rw [hr]
    · next s rest hr =>
      rw [hr]
      dsimp only
      cases readAll rest <;> rfl

/-- Induction along what is read. -/
theorem reading_induction {motive : List Char → Prop}
    (layout : ∀ cs, skipLayout false cs = [] → motive cs)
    (fault : ∀ cs c inner text, skipLayout false cs = c :: inner → readStep c inner = .fault text →
      motive cs)
    (step : ∀ cs c inner s rest, skipLayout false cs = c :: inner →
      readStep c inner = .step s rest → motive rest → motive cs) (cs : List Char) : motive cs := by
  rcases hs : skipLayout false cs with _ | ⟨c, inner⟩
  · exact layout cs hs
  · rcases hr : readStep c inner with ⟨s, rest⟩ | text
    · exact step cs c inner s rest hs hr (reading_induction layout fault step rest)
    · exact fault cs c inner text hs hr
termination_by cs.length
decreasing_by exact length_lt_of_readStep hs hr

theorem readAll_nil {cs : List Char} (h : skipLayout false cs = []) : readAll cs = .ok [] := by
  rw [readAll_eq, h]

theorem readAll_fault {c : Char} {cs inner text : List Char} (hs : skipLayout false cs = c :: inner)
    (hr : readStep c inner = .fault text) : readAll cs = .error ⟨c :: inner, text⟩ := by
  rw [readAll_eq, hs]
  simp only [hr]

theorem readAll_cons {c : Char} {cs inner rest : List Char} {s : Step}
    (hs : skipLayout false cs = c :: inner) (hr : readStep c inner = .step s rest) :
    readAll cs = (readAll rest).map (s :: ·) := by
  rw [readAll_eq, hs]
  simp only [hr]

theorem map_cons_eq_ok {rest : List Char} {s : Step} {steps : List Step}
    (h : (readAll rest).map (s :: ·) = .ok steps) :
    ∃ later, readAll rest = .ok later ∧ steps = s :: later := by
  rcases hl : readAll rest with e | later
  · rw [hl] at h
    cases h
  · rw [hl] at h
    exact ⟨later, rfl, (Except.ok.inj h).symm⟩

/-- Layout in front of a text changes nothing. -/
theorem readAll_congr {cs cs' : List Char} (h : skipLayout false cs = skipLayout false cs') :
    readAll cs = readAll cs' := by
  rw [readAll_eq cs, h, ← readAll_eq]

/-- Whatever is read can be read again. -/
theorem fluent_of_readAll {cs : List Char} {steps : List Step} (h : readAll cs = .ok steps) :
    Fluent steps := by
  induction cs using reading_induction generalizing steps with
  | layout cs hs =>
    rw [readAll_nil hs] at h
    cases h
    trivial
  | fault cs c inner text hs hr =>
    rw [readAll_fault hs hr] at h
    cases h
  | step cs c inner s rest hs hr ih =>
    rw [readAll_cons hs hr] at h
    obtain ⟨later, hl, rfl⟩ := map_cons_eq_ok h
    refine fluent_cons ((printable_of_readStep hr).imp id fun ho => ⟨ho.1, ?_⟩) (ih hl)
    rw [ho.2, readAll_nil rfl] at hl
    exact (Except.ok.inj hl).symm

/-- The texts of steps with a space between two of them. -/
def joined (steps : List Step) : String :=
  " ".intercalate (steps.map Step.text)

theorem toList_joined_cons (s t : Step) (steps : List Step) :
    (joined (s :: t :: steps)).toList = s.text.toList ++ ' ' :: (joined (t :: steps)).toList := by
  simp [joined, String.toList_intercalate, List.intercalate]

theorem readAll_step {cs rest : List Char} {s : Step} (h : StepAt cs s rest) :
    readAll cs = (readAll rest).map (s :: ·) := by
  obtain ⟨c, inner, rfl, hs, hc, hread⟩ := h
  exact readAll_cons (by rw [skipLayout, if_neg (by simp [hs]), if_neg hc]) hread

/-- Steps written one behind the other are read back. -/
theorem readAll_joined : ∀ {steps : List Step}, Fluent steps →
    readAll (joined steps).toList = .ok steps
  | [], _ => readAll_nil rfl
  | [s], h => by
    have hat : StepAt (s.text.toList ++ []) s [] := stepAt_text (h.imp id fun ho => ⟨ho, rfl⟩) trivial
    rw [List.append_nil] at hat
    have hjoined : joined [s] = s.text := by simp [joined]
    rw [hjoined, readAll_step hat, readAll_nil rfl]
    rfl
  | s :: t :: steps, ⟨hs, h⟩ => by
    have hat : StepAt (s.text.toList ++ ' ' :: (joined (t :: steps)).toList) s _ :=
      stepAt_text (.inl hs) rfl
    have hspace : readAll (' ' :: (joined (t :: steps)).toList) =
        readAll (joined (t :: steps)).toList := readAll_congr rfl
    rw [toList_joined_cons, readAll_step hat, hspace, readAll_joined h]
    rfl

theorem read_eq_ok {source : String} {steps : List Step} :
    read source = .ok steps ↔ readAll source.toList = .ok steps := by
  unfold read
  simp only
  split
  · next he => rw [he, Except.ok.injEq, Except.ok.injEq]
  · next he => rw [he]; exact ⟨nofun, nofun⟩

/-- Printable steps are read back from their texts with spaces between them, and so is whatever was
read from any text. -/
theorem read_joined : (∀ steps : List Step, (∀ s ∈ steps, s.Printable) →
      read (" ".intercalate (steps.map Step.text)) = .ok steps) ∧
    ∀ source steps, read source = .ok steps →
      read (" ".intercalate (steps.map Step.text)) = .ok steps :=
  ⟨fun _ h => read_eq_ok.2 (readAll_joined (fluent_of_printable h)),
    fun _ _ h => read_eq_ok.2 (readAll_joined (fluent_of_readAll (read_eq_ok.1 h)))⟩

/-- Values with quotes, spaces, line ends and comment signs in them. -/
def mixedSteps : List Step :=
  [.literal "# <", .category "NAME" (some "x:'y"), .category "STRING" (some "\"a\n# 'b\""), .left,
    .category "TEXT" (some "'<'>'"), .category "NEWLINE" none]

theorem printable_mixedSteps : ∀ s ∈ mixedSteps, s.Printable := by
  have hspace : ∀ v ∈ ["x:'y", "'<'>'"], ∀ x ∈ v.toList, isSpace x = false := fun v hv x hx => by
    have hany : ∀ v ∈ ["x:'y", "'<'>'"], v.toList.any isSpace = false := by decide
    simpa using List.any_eq_false.1 (hany v hv) x hx
  have hword : PrintableValue "x:'y".toList :=
    @PrintableValue.word 'x' ":'y".toList (by decide) (hspace "x:'y" (by decide))
  have hquoted : PrintableValue "\"a\n# 'b\"".toList :=
    @PrintableValue.quoted '"' "a\n# 'b".toList (.inl rfl) (by decide)
  have hquotedWord : PrintableValue "'<'>'".toList :=
    @PrintableValue.quotedWord '\'' "<'>'".toList (.inr rfl) (by decide)
      (hspace "'<'>'" (by decide))
  have hname : ∀ name ∈ ["NAME", "STRING", "TEXT", "NEWLINE"], IsCategory name.toList := by decide
  intro s hs
  simp only [mixedSteps, List.mem_cons, List.not_mem_nil, or_false] at hs
  rcases hs with rfl | rfl | rfl | rfl | rfl | rfl
  · show '\'' ∉ "# <".toList
    decide
  · exact Step.printable_category_some.2 ⟨hname _ (by decide), hword⟩
  · exact Step.printable_category_some.2 ⟨hname _ (by decide), hquoted⟩
  · trivial
  · exact Step.printable_category_some.2 ⟨hname _ (by decide), hquotedWord⟩
  · exact Step.printable_category_none.2 (hname _ (by decide))

theorem read_joined_mixedSteps :
    read (" ".intercalate (mixedSteps.map Step.text)) = .ok mixedSteps ∧
      ∃ steps, read "'a'NAME:\"b c\"<# d\nTEXT:'e" = .ok steps ∧ steps.length = 4 ∧
        read (" ".intercalate (steps.map Step.text)) = .ok steps := by
  have hread : read "'a'NAME:\"b c\"<# d\nTEXT:'e" = .ok [.literal "a",
      .category "NAME" (some "\"b c\""), .left, .category "TEXT" (some "'e")] := by decide +kernel
  exact ⟨read_joined.1 _ printable_mixedSteps, _, hread, rfl, read_joined.2 _ _ hread⟩

end Cloze.Script
