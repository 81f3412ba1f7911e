import Cloze.Proofs.Tables
import Mathlib.Data.List.Perm.Basic

/-!
# Each part in one place

While a definition is numbered, every part is used in one place only. `Waiting` are the parts that
have been entered and that no part around them uses yet; each step takes parts off this list or
puts its own part on it, and what each step keeps the whole numbering keeps (`Keeps.numberBody`).
`Filed` is kept by each step: no part is used twice or lost, and each has a greater number than
what is inside it.
-/

namespace Cloze.Grammar

/-- The numbers of `ids` are the numbers below `size`, each once. -/
def EachOnce (ids : List Nat) (size : Nat) : Prop :=
  ids.Perm (List.range size)

/-- A part that is entered waits, in front of the parts in place. -/
theorem EachOnce.enter {waiting placed : List Nat} {size : Nat}
    (h : EachOnce (waiting ++ placed) size) :
    EachOnce (waiting ++ [size] ++ placed) (size + 1) := by
  unfold EachOnce
  rw [List.append_assoc, List.range_succ]
  have hfront : (waiting ++ size :: placed).Perm (size :: (waiting ++ placed)) := List.perm_middle
  exact hfront.trans ((h.cons size).trans (List.perm_append_singleton size _).symm)

/-- The parts that waited last are put behind the parts in place. -/
theorem EachOnce.place {waiting next placed : List Nat} {size : Nat}
    (h : EachOnce (waiting ++ next ++ placed) size) :
    EachOnce (waiting ++ (placed ++ next)) size := by
  unfold EachOnce at h
  rw [List.append_assoc] at h
  exact (List.perm_append_comm.append_left waiting).trans h

namespace Definition

open Parts

variable {d : Definition} {rule : String} {p q : Parts}

/-! ### What every step keeps, the numbering keeps -/

/-- The parts that are entered and that no part around them uses yet. -/
structure Waiting where
  choices : List ChoiceId := []
  branches : List BranchId := []
  slots : List SlotId := []

/-- The symbols that are bound by a text. -/
inductive Named (d : Definition) : Symbol → Prop
  | literal (text : String) : Named d ⟨.literal text, d.tag text, d.role? text⟩
  | category (name : String) : Named d ⟨.category name, d.tag name, d.role? name⟩
  | rule {name : String} {r : RuleId} (hr : d.ruleId? name = some r) :
    Named d ⟨.rule r, d.tag name, d.role? name⟩

/-- The symbols of a choice in brackets. -/
inductive Bracket (c : ChoiceId) : Symbol → Prop
  | group : Bracket c ⟨.group c, Tag.plain, none⟩
  | option : Bracket c ⟨.option c, Tag.plain, none⟩

/-- Each step of a numbering keeps `I`, which is told the parts that wait. -/
structure Keeps (d : Definition) (I : Parts → Waiting → Prop) : Prop where
  named : ∀ {p : Parts} {w : Waiting} {times : Multiplicity} {x : Symbol}, I p w → Named d x →
    I (p.withItem times x) { w with slots := w.slots ++ [⟨p.slots.size⟩] }
  bracket : ∀ {p : Parts} {w : Waiting} {times : Multiplicity} {c : ChoiceId} {x : Symbol},
    I p { w with choices := w.choices ++ [c] } → Bracket c x →
      I (p.withItem times x) { w with slots := w.slots ++ [⟨p.slots.size⟩] }
  branch : ∀ {p : Parts} {w : Waiting} {ss : List SlotId}, I p { w with slots := w.slots ++ ss } →
    I (p.withBranch ss) { w with branches := w.branches ++ [⟨p.branches.size⟩] }
  choice : ∀ {p : Parts} {w : Waiting} {bs : List BranchId},
    I p { w with branches := w.branches ++ bs } →
      I (p.withChoice bs) { w with choices := w.choices ++ [⟨p.choices.size⟩] }

namespace Keeps

variable {I : Parts → Waiting → Prop}

mutual

theorem numberItem (hI : Keeps d I) : ∀ (item : Item) {p q : Parts} {w : Waiting} {s : SlotId},
    I p w → d.numberItem rule item p = .ok (s, q) → I q { w with slots := w.slots ++ [s] }
  | item, p, q, w, s, hp, h => by
    obtain ⟨m, x, hx, rfl, rfl⟩ := numberItem_eq_ok h
    cases hx with
    | literal => exact hI.named hp (.literal _)
    | category => exact hI.named hp (.category _)
    | rule hr => exact hI.named hp (.rule hr)
    | group hb => exact hI.bracket (hI.numberBody _ hp hb) .group
    | option hb => exact hI.bracket (hI.numberBody _ hp hb) .option
termination_by item => (sizeOf item, 0)

theorem numberItems (hI : Keeps d I) : ∀ (items : List Item) {p q : Parts} {w : Waiting}
    {ss : List SlotId}, I p w → d.numberItems rule items p = .ok (ss, q) →
      I q { w with slots := w.slots ++ ss }
  | [], p, q, w, ss, hp, h => by
    simp only [Definition.numberItems, pure_eq_ok, Prod.mk.injEq] at h
    obtain ⟨rfl, rfl⟩ := h
    simpa using hp
  | item :: items, p, q, w, ss, hp, h => by
    obtain ⟨s, m, rest, hs, hrest, rfl⟩ := numberItems_cons_eq_ok h
    simpa using hI.numberItems items (hI.numberItem item hp hs) hrest
termination_by items => (sizeOf items, 0)

theorem numberBranch (hI : Keeps d I) : ∀ (items : List Item) {p q : Parts} {w : Waiting}
    {b : BranchId}, I p w → d.numberBranch rule items p = .ok (b, q) →
      I q { w with branches := w.branches ++ [b] }
  | items, p, q, w, b, hp, h => by
    obtain ⟨ss, m, -, hss, rfl, rfl⟩ := numberBranch_eq_ok h
    exact hI.branch (hI.numberItems items hp hss)
termination_by items => (sizeOf items, 1)

theorem numberBranches (hI : Keeps d I) : ∀ (body : List (List Item)) {p q : Parts} {w : Waiting}
    {bs : List BranchId}, I p w → d.numberBranches rule body p = .ok (bs, q) →
      I q { w with branches := w.branches ++ bs }
  | [], p, q, w, bs, hp, h => by
    simp only [Definition.numberBranches, pure_eq_ok, Prod.mk.injEq] at h
    obtain ⟨rfl, rfl⟩ := h
    simpa using hp
  | items :: body, p, q, w, bs, hp, h => by
    obtain ⟨b, m, rest, hb, hrest, rfl⟩ := numberBranches_cons_eq_ok h
    simpa using hI.numberBranches body (hI.numberBranch items hp hb) hrest
termination_by body => (sizeOf body, 0)

theorem numberBody (hI : Keeps d I) : ∀ (body : List (List Item)) {p q : Parts} {w : Waiting}
    {c : ChoiceId}, I p w → d.numberBody rule body p = .ok (c, q) →
      I q { w with choices := w.choices ++ [c] }
  | body, p, q, w, c, hp, h => by
    obtain ⟨bs, m, -, hbs, rfl, rfl⟩ := numberBody_eq_ok h
    exact hI.choice (hI.numberBranches body hp hbs)
termination_by body => (sizeOf body, 1)

end

theorem numberRules (hI : Keeps d I) : ∀ (rules : List (String × Body)) {p q : Parts} {w : Waiting}
    {rs : List Rule}, I p w → d.numberRules rules p = .ok (rs, q) →
      I q { w with choices := w.choices ++ rs.map (·.body) }
  | [], p, q, w, rs, hp, h => by
    simp only [Definition.numberRules, pure_eq_ok, Prod.mk.injEq] at h
    obtain ⟨rfl, rfl⟩ := h
    simpa using hp
  | (name, body) :: rules, p, q, w, rs, hp, h => by
    simp only [Definition.numberRules, bind_eq_ok, pure_eq_ok, Prod.mk.injEq] at h
    obtain ⟨c, m, hc, rest, _, hrest, rfl, rfl⟩ := h
    simpa using hI.numberRules rules (hI.numberBody body hp hc) hrest

end Keeps

/-! ### Parts in place -/

/-- The numbers of choices kept in symbols. -/
def Parts.bracketed (p : Parts) : List ChoiceId :=
  p.symbols.toList.filterMap (·.kind.bracketed?)

/-- The parts entered so far, each in one place or waiting for one, and each behind the parts
inside it. -/
structure Filed (d : Definition) (p : Parts) (w : Waiting) : Prop where
  symbols : p.slots.toList.map (·.symbol.index) = List.range p.symbols.size
  origin : ∀ x ∈ p.symbols.toList, Named d x ∨ ∃ c, Bracket c x
  choices : EachOnce ((w.choices ++ p.bracketed).map (·.index)) p.choices.size
  branches : EachOnce ((w.branches ++ p.choices.toList.flatten).map (·.index)) p.branches.size
  slots : EachOnce ((w.slots ++ p.branches.toList.flatten).map (·.index)) p.slots.size
  below : ∀ (i : Nat) x inner, p.symbols[i]? = some x → x.kind.bracketed? = some inner →
    ∀ ids, p.choices[inner.index]? = some ids → ∀ b ∈ ids, ∀ ss, p.branches[b.index]? = some ss →
      ∀ s ∈ ss, s.index < i
  apart : ∀ (i : Nat) ss, p.branches[i]? = some ss → ∀ s ∈ ss, ∀ x inner,
    p.symbols[s.index]? = some x → x.kind.bracketed? = some inner →
      ∀ ids, p.choices[inner.index]? = some ids → ∀ b ∈ ids, b.index < i

theorem filed_empty (d : Definition) : Filed d {} {} where
  symbols := rfl
  origin := by simp
  choices := .refl _
  branches := .refl _
  slots := .refl _
  below := by simp
  apart := by simp

namespace Filed

variable {w : Waiting}

theorem size_eq (h : Filed d p w) : p.slots.size = p.symbols.size := by
  simpa using congrArg List.length h.symbols

theorem lt_of_bracketed (h : Filed d p w) {x : Symbol} {i : Nat} (hx : p.symbols[i]? = some x)
    {c : ChoiceId} (hc : x.kind.bracketed? = some c) : c.index < p.choices.size := by
  have hmem : c ∈ p.bracketed := List.mem_filterMap.2
    ⟨x, Array.mem_toList_iff.2 (Array.mem_of_getElem? hx), hc⟩
  exact List.mem_range.1 (h.choices.mem_iff.1 (List.mem_map_of_mem (List.mem_append_right _ hmem)))

theorem lt_of_mem_choice (h : Filed d p w) {i : Nat} {ids : List BranchId}
    (hc : p.choices[i]? = some ids) {b : BranchId} (hb : b ∈ ids) : b.index < p.branches.size := by
  have hmem : b ∈ p.choices.toList.flatten := List.mem_flatten.2
    ⟨ids, Array.mem_toList_iff.2 (Array.mem_of_getElem? hc), hb⟩
  exact List.mem_range.1 (h.branches.mem_iff.1 (List.mem_map_of_mem (List.mem_append_right _ hmem)))

theorem lt_of_mem_branch (h : Filed d p w) {i : Nat} {ss : List SlotId}
    (hb : p.branches[i]? = some ss) {s : SlotId} (hs : s ∈ ss) : s.index < p.slots.size := by
  have hmem : s ∈ p.branches.toList.flatten := List.mem_flatten.2
    ⟨ss, Array.mem_toList_iff.2 (Array.mem_of_getElem? hb), hs⟩
  exact List.mem_range.1 (h.slots.mem_iff.1 (List.mem_map_of_mem (List.mem_append_right _ hmem)))

/-- A symbol is entered behind everything its choice holds. -/
theorem withItem (h : Filed d p w) {w' : Waiting} (times : Multiplicity) {x : Symbol}
    (hx : Named d x ∨ ∃ c, Bracket c x)
    (hc : EachOnce ((w'.choices ++ (p.withItem times x).bracketed).map (·.index)) p.choices.size)
    (hb : w'.branches = w.branches) (hs : w'.slots = w.slots ++ [⟨p.slots.size⟩]) :
    Filed d (p.withItem times x) w' where
  symbols := by
    simp only [Parts.withItem, Array.toList_push, List.map_append, h.symbols, Array.size_push,
      List.range_succ, List.map_cons, List.map_nil]
  origin := by
    intro y hy
    simp only [Parts.withItem, Array.toList_push, List.mem_append, List.mem_singleton] at hy
    rcases hy with hy | rfl
    · exact h.origin y hy
    · exact hx
  choices := hc
  branches := by rw [hb]; exact h.branches
  slots := by
    have henter := h.slots
    rw [List.map_append] at henter
    simpa only [hs, Parts.withItem, Array.size_push, List.map_append, List.map_cons, List.map_nil]
      using henter.enter
  below := by
    intro i y inner hy hi ids hids b hbm ss hss s hsm
    have hlt := h.lt_of_mem_branch hss hsm
    rw [h.size_eq] at hlt
    simp only [Parts.withItem, Array.getElem?_push] at hy hids hss
    split at hy
    · omega
    · exact h.below i y inner hy hi ids hids b hbm ss hss s hsm
  apart := by
    intro i ss hss s hsm y inner hy hi ids hids b hbm
    have hlt := h.lt_of_mem_branch hss hsm
    rw [h.size_eq] at hlt
    simp only [Parts.withItem, Array.getElem?_push] at hy
    rw [if_neg (by omega)] at hy
    exact h.apart i ss hss s hsm y inner hy hi ids hids b hbm

/-- A branch is entered behind the slots it takes. -/
theorem withBranch {ss : List SlotId} (h : Filed d p { w with slots := w.slots ++ ss }) :
    Filed d (p.withBranch ss) { w with branches := w.branches ++ [⟨p.branches.size⟩] } where
  symbols := h.symbols
  origin := h.origin
  choices := h.choices
  branches := by
    have henter := h.branches
    rw [List.map_append] at henter
    simpa only [Parts.withBranch, Array.size_push, List.map_append, List.map_cons, List.map_nil]
      using henter.enter
  slots := by
    have hplace := h.slots
    rw [List.map_append, List.map_append] at hplace
    simpa only [Parts.withBranch, Array.toList_push, List.flatten_append, List.flatten_cons,
      List.flatten_nil, List.append_nil, List.map_append] using hplace.place
  below := by
    intro i x inner hx hi ids hids b hb ss' hss' s hs
    have hlt := h.lt_of_mem_choice hids hb
    simp only [Parts.withBranch, Array.getElem?_push] at hss'
    rw [if_neg (by omega)] at hss'
    exact h.below i x inner hx hi ids hids b hb ss' hss' s hs
  apart := by
    intro i ss' hss' s hs x inner hx hi ids hids b hb
    have hlt := h.lt_of_mem_choice hids hb
    simp only [Parts.withBranch, Array.getElem?_push] at hss'
    split at hss'
    · omega
    · exact h.apart i ss' hss' s hs x inner hx hi ids hids b hb

/-- A choice is entered behind the branches it takes. -/
theorem withChoice {bs : List BranchId} (h : Filed d p { w with branches := w.branches ++ bs }) :
    Filed d (p.withChoice bs) { w with choices := w.choices ++ [⟨p.choices.size⟩] } where
  symbols := h.symbols
  origin := h.origin
  choices := by
    have henter := h.choices
    rw [List.map_append] at henter
    simpa only [Parts.bracketed, Parts.withChoice, Array.size_push, List.map_append, List.map_cons,
      List.map_nil] using henter.enter
  branches := by
    have hplace := h.branches
    rw [List.map_append, List.map_append] at hplace
    simpa only [Parts.withChoice, Array.toList_push, List.flatten_append, List.flatten_cons,
      List.flatten_nil, List.append_nil, List.map_append] using hplace.place
  slots := h.slots
  below := by
    intro i x inner hx hi ids hids
    have hlt := h.lt_of_bracketed hx hi
    simp only [Parts.withChoice, Array.getElem?_push] at hids
    rw [if_neg (by omega)] at hids
    exact h.below i x inner hx hi ids hids
  apart := by
    intro i ss hss s hs x inner hx hi ids hids
    have hlt := h.lt_of_bracketed hx hi
    simp only [Parts.withChoice, Array.getElem?_push] at hids
    rw [if_neg (by omega)] at hids
    exact h.apart i ss hss s hs x inner hx hi ids hids

end Filed

theorem bracketed_withItem (p : Parts) (times : Multiplicity) (x : Symbol) :
    (p.withItem times x).bracketed = p.bracketed ++ x.kind.bracketed?.toList := by
  cases h : x.kind.bracketed? <;>
    simp [Parts.bracketed, Parts.withItem, List.filterMap_append, h]

theorem Named.bracketed?_eq_none {x : Symbol} (h : Named d x) : x.kind.bracketed? = none := by
  cases h <;> rfl

theorem Bracket.bracketed?_eq_some {c : ChoiceId} {x : Symbol} (h : Bracket c x) :
    x.kind.bracketed? = some c := by
  cases h <;> rfl

/-- Every step of a numbering files its part. -/
theorem keeps_filed (d : Definition) : Keeps d (Filed d) where
  named {p w times x} h hx := by
    refine h.withItem times (.inl hx) ?_ rfl rfl
    rw [bracketed_withItem, hx.bracketed?_eq_none]
    simpa using h.choices
  bracket {p w times c x} h hx := by
    refine h.withItem times (.inr ⟨c, hx⟩) ?_ rfl rfl
    have hplace := h.choices
    rw [List.map_append, List.map_append] at hplace
    rw [bracketed_withItem, hx.bracketed?_eq_some]
    simpa only [List.map_append, Option.toList_some] using hplace.place
  branch h := h.withBranch
  choice h := h.withChoice

end Definition

end Cloze.Grammar
