import Cloze.Proofs.Scripts
import Cloze.Grammar.Definition

/-!
# Scripts one behind the other

A newline ends whatever the text before it leaves to be read: a comment, a category or a value, but
not a quote that is still open. Only the last step of a script can leave one open. So a script behind
a newline is read as if it stood alone (`readAll_newline`), and it is taken up where the script before
it ended (`applyAll_append`), with the numbers of its steps counted on (`applyAll_add`).
-/

namespace Cloze

namespace Script

variable {cs t v rest : List Char} {c : Char} {s : Step} {steps : List Step}

/-! ### Where a step ends -/

/-- What ends before the end of a text ends there whatever stands behind. -/
theorem until_append {p : Char → Bool} (h : cs.dropWhile p = c :: rest) (t : List Char) :
    (cs ++ t).takeWhile p = cs.takeWhile p ∧ (cs ++ t).dropWhile p = c :: (rest ++ t) := by
  have hlen : (cs.takeWhile p).length ≠ cs.length := by
    have hsplit := congrArg List.length (List.takeWhile_append_dropWhile (p := p) (l := cs))
    rw [h, List.length_append, List.length_cons] at hsplit
    omega
  exact ⟨by rw [List.takeWhile_append, if_neg hlen], by simp [List.dropWhile_append, h]⟩

theorem until_newline {p : Char → Bool} (hp : p '\n' = false) (cs t : List Char) :
    (cs ++ '\n' :: t).takeWhile p = cs.takeWhile p ∧
      (cs ++ '\n' :: t).dropWhile p = cs.dropWhile p ++ '\n' :: t := by
  rcases h : cs.dropWhile p with _ | ⟨c, rest⟩
  · have hall := List.dropWhile_eq_nil_iff.1 h
    rw [List.takeWhile_append_of_pos hall, List.dropWhile_append_of_pos hall,
      List.takeWhile_eq_self_iff.2 hall]
    simp [hp]
  · exact until_append h _

theorem readLiteral_append (h : readLiteral cs = .step s rest) (t : List Char) :
    readLiteral (cs ++ t) = .step s (rest ++ t) := by
  unfold readLiteral at h ⊢
  split at h
  · cases h
  · next x rest hd =>
    cases h
    obtain ⟨htake, hdrop⟩ := until_append hd t
    rw [hdrop, htake]

/-- A printable value that begins with a quote closes it. -/
theorem PrintableValue.mem_of_isQuote (h : PrintableValue (c :: cs)) (hq : IsQuote c) : c ∈ cs := by
  cases h with
  | word hne _ => exact absurd hq hne
  | quotedWord _ hmem _ => exact hmem
  | quoted _ _ => simp

theorem readValue_newline (hc : isSpace c = false) (h : readValue (c :: cs) = some (v, rest))
    (hv : PrintableValue v) (t : List Char) :
    readValue (c :: cs ++ '\n' :: t) = some (v, rest ++ '\n' :: t) := by
  rw [List.cons_append]
  by_cases hq : IsQuote c ∧ ∃ x ∈ cs.takeWhile (· != c), isSpace x = true
  · obtain ⟨hq, hs⟩ := hq
    rw [readValue_quoted hq hs] at h
    split at h
    · cases h
    · next x rest hd =>
      cases h
      obtain ⟨htake, hdrop⟩ := until_append hd ('\n' :: t)
      rw [readValue_quoted hq (by rwa [htake]), htake, hdrop]
  · have hfree : IsQuote c → ∀ x ∈ cs.takeWhile (· != c), isSpace x = false := fun hq' x hx => by
      simpa using fun hs => hq ⟨hq', x, hx, hs⟩
    obtain ⟨htake, hdrop⟩ := until_newline (p := (!isSpace ·)) rfl (c :: cs) t
    rw [readValue_word hfree, Option.some.injEq, Prod.mk.injEq] at h
    obtain ⟨rfl, rfl⟩ := h
    -- A quote that begins the value closes in it, so the newline stands behind the closing quote.
    rw [readValue_word, ← List.cons_append, htake, hdrop]
    intro hq' x hx
    rw [List.takeWhile_cons_of_pos (by simpa using hc)] at hv
    have hmem := List.takeWhile_subset _ (hv.mem_of_isQuote hq')
    have hcloses : cs.dropWhile (· != c) ≠ [] := fun hnil => by
      simpa using List.dropWhile_eq_nil_iff.1 hnil c hmem
    obtain ⟨y, after, hd⟩ := List.exists_cons_of_ne_nil hcloses
    rw [(until_append hd _).1] at hx
    exact hfree hq' x hx

/-- A category without a value. -/
theorem readCategory_of_bare
    (h : ∀ c after, cs.dropWhile isNameChar = ':' :: c :: after → isSpace c = true) :
    readCategory cs =
      .step (.category (String.ofList (cs.takeWhile isNameChar)) none) (cs.dropWhile isNameChar) := by
  unfold readCategory
  split
  · next c after hd => rw [if_pos (h c after hd), hd]
  · rfl

/-- A category with what stands behind its colon. -/
theorem readCategory_of_colon {after : List Char} (hd : cs.dropWhile isNameChar = ':' :: c :: after)
    (hc : isSpace c = false) : readCategory cs =
      (readValue (c :: after)).elim (.fault cs) fun found =>
        .step (.category (String.ofList (cs.takeWhile isNameChar)) (some (String.ofList found.1)))
          found.2 := by
  unfold readCategory
  simp only [hd, hc, Bool.false_eq_true, if_false]
  cases readValue (c :: after) <;> rfl

theorem readCategory_newline (h : readCategory cs = .step s rest) (hs : s.Printable)
    (t : List Char) : readCategory (cs ++ '\n' :: t) = .step s (rest ++ '\n' :: t) := by
  obtain ⟨htake, hdrop⟩ := until_newline (p := isNameChar) (by decide) cs t
  by_cases hv : ∃ c after, cs.dropWhile isNameChar = ':' :: c :: after ∧ isSpace c = false
  · obtain ⟨c, after, hd, hc⟩ := hv
    rw [hd, List.cons_append, List.cons_append] at hdrop
    rw [readCategory_of_colon hd hc] at h
    rw [readCategory_of_colon hdrop hc, htake]
    rcases hv : readValue (c :: after) with _ | ⟨v, rest⟩ <;> rw [hv] at h
    · cases h
    · cases h
      rw [Step.printable_category_some, String.toList_ofList, String.toList_ofList] at hs
      have happ := readValue_newline hc hv hs.2 t
      rw [List.cons_append] at happ
      rw [happ]
      rfl
  · have hbare : ∀ c after, cs.dropWhile isNameChar = ':' :: c :: after → isSpace c = true :=
      fun c after hd => by simpa using fun hc => hv ⟨c, after, hd, hc⟩
    rw [readCategory_of_bare hbare] at h
    cases h
    rw [readCategory_of_bare, htake, hdrop]
    intro c after hd
    -- A colon at the end of the text has the newline behind it, which is no value either.
    rw [hdrop] at hd
    rcases hname : cs.dropWhile isNameChar with _ | ⟨x, _ | ⟨y, later⟩⟩ <;> rw [hname] at hd
    · cases hd
    · cases hd
      rfl
    · cases hd
      exact hbare _ _ hname

theorem readStep_newline (h : readStep c cs = .step s rest) (hs : s.Printable) (t : List Char) :
    readStep c (cs ++ '\n' :: t) = .step s (rest ++ '\n' :: t) := by
  unfold readStep at h ⊢
  split at h
  · rw [if_pos ‹_›]
    exact readLiteral_append h _
  rw [if_neg ‹_›]
  split at h
  · cases h
    rw [if_pos ‹_›]
  rw [if_neg ‹_›]
  split at h
  · cases h
    rw [if_pos ‹_›]
  rw [if_neg ‹_›]
  split at h
  · rw [if_pos ‹_›]
    exact readCategory_newline h hs t
  · cases h

/-! ### Whole scripts -/

theorem skipLayout_newline : ∀ (comment : Bool) (cs t : List Char),
    skipLayout comment (cs ++ '\n' :: t) =
      if skipLayout comment cs = [] then skipLayout false t
      else skipLayout comment cs ++ '\n' :: t
  | true, [], t | false, [], t => rfl
  | true, c :: cs, t => by
    rw [List.cons_append, skipLayout, skipLayout, skipLayout_newline]
  | false, c :: cs, t => by
    rw [List.cons_append, skipLayout, skipLayout]
    split
    · rw [skipLayout_newline]
    split
    · rw [skipLayout_newline]
    · rfl

/-- A script behind a newline is read as if it stood alone. -/
theorem readAll_newline {cs : List Char} {steps : List Step} (h : readAll cs = .ok steps)
    (hp : ∀ s ∈ steps, s.Printable) (t : List Char) :
    readAll (cs ++ '\n' :: t) = (readAll t).map (steps ++ ·) := by
  induction cs using reading_induction generalizing steps with
  | layout cs hs =>
    rw [readAll_nil hs] at h
    cases h
    have hskip : skipLayout false (cs ++ '\n' :: t) = skipLayout false t := by
      rw [skipLayout_newline, if_pos hs]
    rw [readAll_congr hskip]
    cases readAll t <;> rfl
  | fault cs c inner text hs hr =>
    rw [readAll_fault hs hr] at h
    cases h
  | step cs c inner s rest hs hr ih =>
    rw [readAll_cons hs hr] at h
    obtain ⟨later, hl, rfl⟩ := map_cons_eq_ok h
    obtain ⟨hps, hpl⟩ := List.forall_mem_cons.1 hp
    have hskip : skipLayout false (cs ++ '\n' :: t) = c :: (inner ++ '\n' :: t) := by
      rw [skipLayout_newline, hs, if_neg (List.cons_ne_nil _ _), List.cons_append]
    rw [readAll_cons hskip (readStep_newline hr hps t), ih hl hpl]
    cases readAll t <;> rfl

/-! ### Places in bytes -/

theorem byteLength_append : ∀ cs t : List Char, byteLength (cs ++ t) = byteLength cs + byteLength t
  | [], t => (Nat.zero_add _).symm
  | c :: cs, t => by
    rw [List.cons_append, byteLength, byteLength, byteLength_append, Nat.add_assoc]

theorem byteLength_toList (text : String) : byteLength text.toList = text.utf8ByteSize := by
  have hlist : ∀ cs : List Char, byteLength cs = (String.ofList cs).utf8ByteSize := by
    intro cs
    induction cs with
    | nil => rfl
    | cons c cs ih => simp [byteLength, ih]
  rw [hlist, String.ofList_toList]

theorem byteLength_le_of_suffix (h : t <:+ cs) : byteLength t ≤ byteLength cs := by
  obtain ⟨front, rfl⟩ := h
  rw [byteLength_append]
  omega

/-- Reading stops somewhere in the text. -/
theorem unread_suffix {fault : Fault} (h : readAll cs = .error fault) : fault.unread <:+ cs := by
  induction cs using reading_induction with
  | layout cs hs =>
    rw [readAll_nil hs] at h
    cases h
  | fault cs c inner text hs hr =>
    rw [readAll_fault hs hr] at h
    cases h
    exact hs ▸ skipLayout_suffix false cs
  | step cs c inner s rest hs hr ih =>
    rw [readAll_cons hs hr] at h
    rcases hl : readAll rest with e | later
    · rw [hl] at h
      cases h
      have hcs := hs ▸ skipLayout_suffix false cs
      exact (ih hl).trans ((readStep_suffix hr).trans ((List.suffix_cons _ _).trans hcs))
    · rw [hl] at h
      cases h

/-- If only the last step may leave a quote open and it does not, none does. -/
theorem printable_of_fluent : ∀ {steps : List Step}, Fluent steps →
    (∀ s ∈ steps.getLast?, ¬ s.Open) → ∀ s ∈ steps, s.Printable
  | [], _, _, _, hs => absurd hs List.not_mem_nil
  | [s], h, hlast, _, hs => by
    rw [List.mem_singleton.1 hs]
    exact h.resolve_right (hlast s rfl)
  | s :: t :: steps, ⟨hs, h⟩, hlast, x, hx => by
    rw [List.getLast?_cons_cons] at hlast
    rcases List.mem_cons.1 hx with rfl | hx
    · exact hs
    · exact printable_of_fluent h hlast x hx

/-- What is read from a script behind a newline, in place of the script alone. -/
theorem read_newline {first : String} (h : read first = .ok steps)
    (hlast : ∀ s ∈ steps.getLast?, ¬ s.Open) (second : String) :
    read (first ++ "\n" ++ second) =
      match read second with
      | .ok later => .ok (steps ++ later)
      | .error (.unreadable offset text) =>
        .error (.unreadable (first.utf8ByteSize + 1 + offset) text)
      | .error (.refused index step reason) => .error (.refused index step reason) := by
  rw [read_eq_ok] at h
  have hp := printable_of_fluent (fluent_of_readAll h) hlast
  have hchars : (first ++ "\n" ++ second).toList = first.toList ++ '\n' :: second.toList := by
    simp
  have hread := readAll_newline h hp second.toList
  rw [← hchars] at hread
  unfold read
  simp only [hread]
  rcases hs : readAll second.toList with fault | later
  · have hle := byteLength_le_of_suffix (unread_suffix hs)
    have hnewline : byteLength (first ++ "\n" ++ second).toList =
        first.utf8ByteSize + (1 + byteLength second.toList) := by
      rw [hchars, byteLength_append, byteLength_toList]
      rfl
    simp only [Except.map, hnewline]
    congr 2
    omega
  · rfl

/-- The failure as it is counted when `count` steps come before. -/
def Failure.behind (count : Nat) : Failure → Failure
  | unreadable offset text => unreadable offset text
  | refused index step reason => refused (count + index) step reason

end Script

namespace Editor

open Script

/-! ### Runs -/

/-- Steps one behind the other are taken in turn, unless one is refused. -/
theorem applyAll_append : ∀ (e : Editor) (index : Nat) (steps later : List Step),
    e.applyAll index (steps ++ later) =
      match e.applyAll index steps with
      | (.ok _, f) => f.applyAll (index + steps.length) later
      | (.error failure, f) => (.error failure, f)
  | e, index, [], later => rfl
  | e, index, s :: steps, later => by
    rw [List.cons_append, applyAll, applyAll]
    cases apply s e with
    | error r f => rfl
    | ok _ f =>
      dsimp only
      rw [applyAll_append, List.length_cons, Nat.add_right_comm, Nat.add_assoc]

/-- Steps are taken in the same way whatever numbers they have. -/
theorem applyAll_add (count : Nat) : ∀ (e : Editor) (index : Nat) (steps : List Step),
    e.applyAll (count + index) steps =
      ((e.applyAll index steps).1.mapError (Failure.behind count), (e.applyAll index steps).2)
  | e, index, [] => rfl
  | e, index, s :: steps => by
    rw [applyAll, applyAll]
    cases apply s e with
    | error r f => rfl
    | ok _ f => exact applyAll_add count f (index + 1) steps

/-- Two scripts with a newline between them are read and run as the one and then the other, unless
the first leaves a quote open. -/
theorem scripts_run_in_turn {first : String} {steps : List Step} (h : read first = .ok steps)
    (hlast : ∀ s ∈ steps.getLast?, ¬ s.Open) :
    (∀ second later, read second = .ok later →
      read (first ++ "\n" ++ second) = .ok (steps ++ later) ∧
      ∀ e : Editor, e.runScript (first ++ "\n" ++ second) =
        match e.runScript first with
        | (.error failure, f) => (.error failure, f)
        | (.ok _, f) =>
          ((f.runScript second).1.mapError (Failure.behind steps.length), (f.runScript second).2)) ∧
    ∀ second offset text, read second = .error (.unreadable offset text) →
      read (first ++ "\n" ++ second) =
        .error (.unreadable (first.utf8ByteSize + 1 + offset) text) ∧
      ∀ e : Editor, e.runScript (first ++ "\n" ++ second) =
        (.error (.unreadable (first.utf8ByteSize + 1 + offset) text), e) := by
  refine ⟨fun second later hs => ?_, fun second offset text hs => ?_⟩
  · have hjoined : read (first ++ "\n" ++ second) = .ok (steps ++ later) := by
      rw [read_newline h hlast, hs]
    refine ⟨hjoined, fun e => ?_⟩
    simp only [runScript, hjoined, h, hs, applyAll_append]
    rcases e.applyAll 0 steps with ⟨_ | _, f⟩
    · rfl
    · dsimp only
      rw [Nat.zero_add]
      exact applyAll_add steps.length f 0 later
  · have hjoined : read (first ++ "\n" ++ second) =
        .error (.unreadable (first.utf8ByteSize + 1 + offset) text) := by
      rw [read_newline h hlast, hs]
    exact ⟨hjoined, fun e => by simp only [runScript, hjoined]⟩

/-- A name in brackets. -/
def bracketed : Grammar.Definition where
  rules := [("name", [[.literal "(" .once, .category "NAME" .once, .literal ")" .once]])]

def bracketedGrammar : Grammar := bracketed.build.toOption.getD default

/-- Behind a comment that holds two bytes in one character a step is counted on, and so is the place
of a text that is no step. -/
theorem brackets_run_in_turn :
    read "'(' # é" = .ok [.literal "("] ∧
    read "NAME:x ')' ')'" = .ok [.category "NAME" (some "x"), .literal ")", .literal ")"] ∧
    ((start bracketedGrammar {} []).runScript ("'(' # é" ++ "\n" ++ "NAME:x ')' ')'")).1 =
      .error (.refused 3 "')'" (.noSuchOffer ")")) ∧
    read "NAME:x ?" = .error (.unreadable 7 "?") ∧
    read ("'(' # é" ++ "\n" ++ "NAME:x ?") = .error (.unreadable 16 "?") := by
  have hfirst : read "'(' # é" = .ok [.literal "("] := by decide +kernel
  have hsecond : read "NAME:x ')' ')'" =
      .ok [.category "NAME" (some "x"), .literal ")", .literal ")"] := by decide +kernel
  have hfault : read "NAME:x ?" = .error (.unreadable 7 "?") := by decide +kernel
  have hlast : ∀ s ∈ [Step.literal "("].getLast?, ¬ s.Open := by
    rintro s ⟨⟩
    exact id
  obtain ⟨hruns, hfaults⟩ := scripts_run_in_turn hfirst hlast
  refine ⟨hfirst, hsecond, ?_, hfault, (hfaults _ _ _ hfault).1⟩
  rw [(hruns _ _ hsecond).2]
  decide +kernel

end Editor

end Cloze
