import Cloze.Grammar.Definition
import Mathlib.Data.List.Basic

/-!
# The tables of a built grammar

A grammar built from a definition is well-formed: every number kept in a table is a number of the
table it points into, no choice and no branch is empty, every slot has a symbol of its own, and a
bracketed choice has a smaller number than the choice around it. A numbering enters one part after
the other: a symbol with its slot (`Enters`), a branch behind its slots, a choice behind its
branches. So the tables only grow, and each part is entered after the parts inside it.
-/

namespace Cloze.Grammar

/-- The choice a group or an option encloses. -/
def Kind.bracketed? : Kind → Option ChoiceId
  | .group body | .option body => some body
  | .literal _ | .category _ | .rule _ => none

/-- The tables fit each other. -/
structure WellFormed (g : Grammar) : Prop where
  start : g.start.index < g.rules.size
  body : ∀ r : RuleId, r.index < g.rules.size → (g.rule r).body.index < g.choices.size
  branches_ne : ∀ c : ChoiceId, c.index < g.choices.size → g.branchesOf c ≠ []
  slots_ne : ∀ c, ∀ b ∈ g.branchesOf c, b ≠ []
  slot : ∀ c, ∀ b ∈ g.branchesOf c, ∀ s ∈ b, s.index < g.slots.size
  symbol : ∀ s : SlotId, s.index < g.slots.size → (g.slot s).symbol = ⟨s.index⟩
  symbols : g.symbols.size = g.slots.size
  rule : ∀ s r, (g.symbol s).kind = .rule r → r.index < g.rules.size
  bracketed : ∀ s c, (g.symbol s).kind.bracketed? = some c → c.index < g.choices.size
  nested : ∀ c, ∀ b ∈ g.branchesOf c, ∀ s ∈ b, ∀ inner,
    (g.symbol (g.slot s).symbol).kind.bracketed? = some inner → inner.index < c.index

theorem branchesOf_eq_nil {g : Grammar} {c : ChoiceId} (h : ¬ c.index < g.choices.size) :
    g.branchesOf c = [] := by
  simp [branchesOf, branchIds, h]

/-- A choice that has a branch is one of the table. -/
theorem lt_of_mem_branchesOf {g : Grammar} {c : ChoiceId} {b : List SlotId}
    (h : b ∈ g.branchesOf c) : c.index < g.choices.size := by
  by_contra hc
  rw [branchesOf_eq_nil hc] at h
  cases h

def Item.times : Item → Multiplicity
  | .literal _ times | .category _ times | .rule _ times | .group _ times | .option _ times => times

namespace Definition

namespace Parts

/-- The parts numbered in `p` keep their numbers in `q`. -/
structure Extends (p q : Parts) : Prop where
  choices : ∀ {i : Nat} {x}, p.choices[i]? = some x → q.choices[i]? = some x
  branches : ∀ {i : Nat} {x}, p.branches[i]? = some x → q.branches[i]? = some x
  slots : ∀ {i : Nat} {x}, p.slots[i]? = some x → q.slots[i]? = some x
  symbols : ∀ {i : Nat} {x}, p.symbols[i]? = some x → q.symbols[i]? = some x

theorem Extends.refl (p : Parts) : p.Extends p :=
  ⟨id, id, id, id⟩

theorem Extends.trans {p q r : Parts} (h : p.Extends q) (h' : q.Extends r) : p.Extends r :=
  ⟨h'.choices ∘ h.choices, h'.branches ∘ h.branches, h'.slots ∘ h.slots, h'.symbols ∘ h.symbols⟩

/-- The number of an entry stays below the size of a table that grows. -/
theorem lt_of_extends {α : Type} {a b : Array α} (h : ∀ {i : Nat} {x}, a[i]? = some x → b[i]? = some x)
    {i : Nat} (hi : i < a.size) : i < b.size :=
  (Array.getElem?_eq_some_iff.1 (h (Array.getElem?_eq_getElem hi))).1

theorem Extends.choices_le {p q : Parts} (h : p.Extends q) : p.choices.size ≤ q.choices.size := by
  by_contra hlt
  exact absurd (lt_of_extends h.choices (Nat.lt_of_not_le hlt)) (Nat.lt_irrefl _)

/-- A branch that has been entered, with slots that have been entered. -/
def HasBranch (p : Parts) (b : BranchId) (slots : List SlotId) : Prop :=
  p.branches[b.index]? = some slots ∧ slots ≠ [] ∧ ∀ s ∈ slots, s.index < p.slots.size

theorem HasBranch.extends {p q : Parts} (h : p.Extends q) {b : BranchId} {slots : List SlotId}
    (hb : p.HasBranch b slots) : q.HasBranch b slots :=
  ⟨h.branches hb.1, hb.2.1, fun s hs => lt_of_extends h.slots (hb.2.2 s hs)⟩

/-- What holds of the parts between two steps of the numbering of `rules` rules. -/
structure Sound (rules : Nat) (p : Parts) : Prop where
  size : p.symbols.size = p.slots.size
  symbol : ∀ (i : Nat) s, p.slots[i]? = some s → s.symbol = ⟨i⟩
  rule : ∀ (i : Nat) s r, p.symbols[i]? = some s → s.kind = .rule r → r.index < rules
  bracketed : ∀ (i : Nat) s c, p.symbols[i]? = some s → s.kind.bracketed? = some c →
    c.index < p.choices.size
  choice : ∀ (c : Nat) ids, p.choices[c]? = some ids → ids ≠ [] ∧ ∀ b ∈ ids, ∃ slots, p.HasBranch b slots ∧
    ∀ s ∈ slots, ∀ x inner, p.symbols[s.index]? = some x → x.kind.bracketed? = some inner →
      inner.index < c

theorem sound_empty (rules : Nat) : Sound rules {} where
  size := rfl
  symbol := by simp
  rule := by simp
  bracketed := by simp
  choice := by simp

end Parts

open Parts

theorem bind_eq_ok {α β : Type} {m : Numbering α} {f : α → Numbering β} {p : Parts}
    {r : β × Parts} : (m >>= f) p = .ok r ↔ ∃ a q, m p = .ok (a, q) ∧ f a q = .ok r := by
  show (Except.bind (m p) fun x => f x.1 x.2) = .ok r ↔ _
  rcases m p with e | ⟨a, q⟩
  · simp [Except.bind]
  · simp [Except.bind]

theorem pure_eq_ok {α : Type} {a : α} {p : Parts} {r : α × Parts} :
    (pure a : Numbering α) p = .ok r ↔ (a, p) = r := by
  show Except.ok (a, p) = .ok r ↔ _
  simp

/-! ### The steps of a numbering -/

section Steps

/-- One more symbol, and a slot for it. -/
def Parts.withItem (p : Parts) (times : Multiplicity) (x : Symbol) : Parts :=
  { p with symbols := p.symbols.push x, slots := p.slots.push ⟨times, ⟨p.symbols.size⟩⟩ }

def Parts.withBranch (p : Parts) (slots : List SlotId) : Parts :=
  { p with branches := p.branches.push slots }

def Parts.withChoice (p : Parts) (ids : List BranchId) : Parts :=
  { p with choices := p.choices.push ids }

/-- The symbol entered for an item, and the parts numbered before it. -/
inductive Enters (d : Definition) (rule : String) (p : Parts) : Item → Parts → Symbol → Prop
  | literal {text times} :
    Enters d rule p (.literal text times) p ⟨.literal text, d.tag text, d.role? text⟩
  | category {name times} :
    Enters d rule p (.category name times) p ⟨.category name, d.tag name, d.role? name⟩
  | rule {name times r} (hr : d.ruleId? name = some r) :
    Enters d rule p (.rule name times) p ⟨.rule r, d.tag name, d.role? name⟩
  | group {body times c m} (hb : d.numberBody rule body p = .ok (c, m)) :
    Enters d rule p (.group body times) m ⟨.group c, Tag.plain, none⟩
  | option {body times c m} (hb : d.numberBody rule body p = .ok (c, m)) :
    Enters d rule p (.option body times) m ⟨.option c, Tag.plain, none⟩

variable {d : Definition} {rule : String} {p q : Parts}

/-- A symbol and its slot are entered together. -/
theorem addItem_eq_ok {x : Symbol} {times : Multiplicity} {s : SlotId}
    (h : (addSymbol x >>= fun id => addSlot ⟨times, id⟩) p = .ok (s, q)) :
    s = ⟨p.slots.size⟩ ∧ q = p.withItem times x := by
  cases h
  exact ⟨rfl, rfl⟩

theorem numberItem_eq_ok {item : Item} {s : SlotId} (h : d.numberItem rule item p = .ok (s, q)) :
    ∃ m x, Enters d rule p item m x ∧ s = ⟨m.slots.size⟩ ∧ q = m.withItem item.times x := by
  rcases item with ⟨text, times⟩ | ⟨name, times⟩ | ⟨name, times⟩ | ⟨body, times⟩ | ⟨body, times⟩
  · rw [numberItem, addNamed] at h
    exact ⟨p, _, .literal, addItem_eq_ok h⟩
  · rw [numberItem, addNamed] at h
    exact ⟨p, _, .category, addItem_eq_ok h⟩
  · rcases hr : d.ruleId? name with _ | r
    · simp only [numberItem, hr] at h
      exact absurd h (by simp [throw, throwThe, MonadExceptOf.throw, StateT.lift])
    · simp only [numberItem, hr, addNamed] at h
      exact ⟨p, _, .rule hr, addItem_eq_ok h⟩
  · simp only [numberItem, addBracketed, bind_eq_ok (m := d.numberBody _ _)] at h
    obtain ⟨c, m, hb, h⟩ := h
    exact ⟨m, _, .group hb, addItem_eq_ok h⟩
  · simp only [numberItem, addBracketed, bind_eq_ok (m := d.numberBody _ _)] at h
    obtain ⟨c, m, hb, h⟩ := h
    exact ⟨m, _, .option hb, addItem_eq_ok h⟩

theorem extends_withItem (p : Parts) (times : Multiplicity) (x : Symbol) :
    p.Extends (p.withItem times x) := by
  refine ⟨id, id, ?_, ?_⟩ <;> intro i y hy <;> simp only [Parts.withItem] <;> grind

theorem extends_withBranch (p : Parts) (ss : List SlotId) : p.Extends (p.withBranch ss) := by
  refine ⟨id, ?_, id, id⟩
  intro i y hy
  simp only [Parts.withBranch]
  grind

theorem extends_withChoice (p : Parts) (bs : List BranchId) : p.Extends (p.withChoice bs) := by
  refine ⟨?_, id, id, id⟩
  intro i y hy
  simp only [Parts.withChoice]
  grind

theorem numberItems_cons_eq_ok {item : Item} {items : List Item} {ss : List SlotId}
    (h : d.numberItems rule (item :: items) p = .ok (ss, q)) : ∃ s m rest,
      d.numberItem rule item p = .ok (s, m) ∧ d.numberItems rule items m = .ok (rest, q) ∧
        ss = s :: rest := by
  simp only [numberItems, bind_eq_ok, pure_eq_ok, Prod.mk.injEq] at h
  obtain ⟨s, m, hs, rest, _, hrest, rfl, rfl⟩ := h
  exact ⟨s, m, rest, hs, hrest, rfl⟩

/-- A branch is entered behind its slots. -/
theorem numberBranch_eq_ok {items : List Item} {b : BranchId}
    (h : d.numberBranch rule items p = .ok (b, q)) : ∃ ss m, ss ≠ [] ∧
      d.numberItems rule items p = .ok (ss, m) ∧ b = ⟨m.branches.size⟩ ∧ q = m.withBranch ss := by
  cases items with
  | nil => exact absurd h (by simp [numberBranch, throw, throwThe, MonadExceptOf.throw, StateT.lift])
  | cons item items =>
    simp only [numberBranch, addBranch, bind_eq_ok, Except.ok.injEq, Prod.mk.injEq] at h
    obtain ⟨s, m, hs, rest, m', hrest, rfl, rfl⟩ := h
    refine ⟨s :: rest, m', List.cons_ne_nil _ _, ?_, rfl, rfl⟩
    simp only [numberItems, bind_eq_ok, pure_eq_ok]
    exact ⟨s, m, hs, rest, m', hrest, rfl⟩

theorem numberBranches_cons_eq_ok {items : List Item} {body : List (List Item)}
    {bs : List BranchId} (h : d.numberBranches rule (items :: body) p = .ok (bs, q)) : ∃ b m rest,
      d.numberBranch rule items p = .ok (b, m) ∧ d.numberBranches rule body m = .ok (rest, q) ∧
        bs = b :: rest := by
  simp only [numberBranches, bind_eq_ok, pure_eq_ok, Prod.mk.injEq] at h
  obtain ⟨b, m, hb, rest, _, hrest, rfl, rfl⟩ := h
  exact ⟨b, m, rest, hb, hrest, rfl⟩

/-- A choice is entered behind its branches. -/
theorem numberBody_eq_ok {body : List (List Item)} {c : ChoiceId}
    (h : d.numberBody rule body p = .ok (c, q)) : ∃ bs m, bs ≠ [] ∧
      d.numberBranches rule body p = .ok (bs, m) ∧ c = ⟨m.choices.size⟩ ∧ q = m.withChoice bs := by
  cases body with
  | nil => exact absurd h (by simp [numberBody, throw, throwThe, MonadExceptOf.throw, StateT.lift])
  | cons items body =>
    simp only [numberBody, addChoice, bind_eq_ok, Except.ok.injEq, Prod.mk.injEq] at h
    obtain ⟨b, m, hb, rest, m', hrest, rfl, rfl⟩ := h
    refine ⟨b :: rest, m', List.cons_ne_nil _ _, ?_, rfl, rfl⟩
    simp only [numberBranches, bind_eq_ok, pure_eq_ok]
    exact ⟨b, m, hb, rest, m', hrest, rfl⟩

end Steps

/-! ### The steps keep the parts sound -/

section Sound

variable {rules : Nat} {p : Parts}

theorem sound_withItem (h : p.Sound rules) (times : Multiplicity) {x : Symbol}
    (hr : ∀ r, x.kind = .rule r → r.index < rules)
    (hb : ∀ c, x.kind.bracketed? = some c → c.index < p.choices.size) :
    (p.withItem times x).Sound rules where
  size := by simp [withItem, h.size]
  symbol i s hs := by
    have := h.symbol i s
    have := h.size
    simp only [withItem, Array.getElem?_push] at hs
    grind
  rule i s r hs := by
    have := h.rule i s r
    simp only [withItem, Array.getElem?_push] at hs
    grind
  bracketed i s c hs := by
    have := h.bracketed i s c
    simp only [withItem, Array.getElem?_push] at hs ⊢
    grind
  choice c ids hc := by
    obtain ⟨hne, hall⟩ := h.choice c ids hc
    refine ⟨hne, fun b hbm => ?_⟩
    obtain ⟨slots, hslots, hin⟩ := hall b hbm
    refine ⟨slots, hslots.extends (extends_withItem p times x), fun s hs y inner hy => ?_⟩
    have hlt := hslots.2.2 s hs
    rw [← h.size] at hlt
    simp only [withItem, Array.getElem?_push, if_neg (Nat.ne_of_lt hlt)] at hy
    exact hin s hs y inner hy

theorem sound_withBranch (h : p.Sound rules) (slots : List SlotId) :
    (p.withBranch slots).Sound rules := by
  refine ⟨h.size, h.symbol, h.rule, h.bracketed, fun c ids hc => ?_⟩
  obtain ⟨hids, hall⟩ := h.choice c ids hc
  refine ⟨hids, fun b hb => ?_⟩
  obtain ⟨old, hold, hnest⟩ := hall b hb
  exact ⟨old, hold.extends (extends_withBranch p slots), hnest⟩

theorem hasBranch_withBranch {slots : List SlotId} (hne : slots ≠ [])
    (hin : ∀ s ∈ slots, s.index < p.slots.size) :
    (p.withBranch slots).HasBranch ⟨p.branches.size⟩ slots :=
  ⟨by simp [withBranch], hne, hin⟩

/-- A choice is entered after all that is inside it, so it has the greatest number. -/
theorem sound_withChoice (h : p.Sound rules) {ids : List BranchId}
    (hne : ids ≠ []) (hin : ∀ b ∈ ids, ∃ slots, p.HasBranch b slots) :
    (p.withChoice ids).Sound rules := by
  refine ⟨h.size, h.symbol, h.rule, fun i s c hs hc => ?_, fun c new hc => ?_⟩
  · exact Nat.lt_trans (h.bracketed i s c hs hc) (by simp [withChoice])
  · simp only [withChoice, Array.getElem?_push] at hc
    split at hc
    · cases hc
      refine ⟨hne, fun b hb => ?_⟩
      obtain ⟨slots, hslots⟩ := hin b hb
      refine ⟨slots, hslots, fun s _ x inner hx hi => ?_⟩
      have := h.bracketed _ x inner hx hi
      omega
    · exact h.choice c new hc

end Sound

theorem ruleId?_lt {d : Definition} {name : String} {r : RuleId} (h : d.ruleId? name = some r) :
    r.index < d.rules.length := by
  simp only [ruleId?, Option.map_eq_some_iff] at h
  obtain ⟨i, hi, rfl⟩ := h
  exact (List.findIdx?_eq_some_iff_getElem.1 hi).1

section Numbering

variable (d : Definition) (name : String)

mutual

theorem numberItem_sound : ∀ (item : Item) {p q : Parts} {s : SlotId},
    p.Sound d.rules.length → d.numberItem name item p = .ok (s, q) →
      q.Sound d.rules.length ∧ p.Extends q ∧ s.index < q.slots.size
  | item, p, q, s, h, he => by
    obtain ⟨m, x, hx, rfl, rfl⟩ := numberItem_eq_ok he
    have hpushed : m.slots.size < (m.withItem item.times x).slots.size := by simp [withItem]
    have hext := extends_withItem m item.times x
    cases hx with
    | literal | category =>
      exact ⟨sound_withItem h _ (by simp) (by simp [Kind.bracketed?]), hext, hpushed⟩
    | rule hr =>
      have hlt := ruleId?_lt hr
      exact ⟨sound_withItem h _ (by rintro _ ⟨⟩; exact hlt) (by simp [Kind.bracketed?]), hext,
        hpushed⟩
    | group hb | option hb =>
      obtain ⟨hm, hpm, hlt⟩ := numberBody_sound _ h hb
      exact ⟨sound_withItem hm _ (by simp) (by rintro _ ⟨⟩; exact hlt), hpm.trans hext, hpushed⟩
termination_by item => (sizeOf item, 0)

theorem numberItems_sound : ∀ (items : List Item) {p q : Parts} {ss : List SlotId},
    p.Sound d.rules.length → d.numberItems name items p = .ok (ss, q) →
      q.Sound d.rules.length ∧ p.Extends q ∧ ∀ s ∈ ss, s.index < q.slots.size
  | [], p, q, ss, h, he => by
    simp only [numberItems, pure_eq_ok, Prod.mk.injEq] at he
    obtain ⟨rfl, rfl⟩ := he
    exact ⟨h, Extends.refl p, by simp⟩
  | item :: items, p, q, ss, h, he => by
    obtain ⟨s, m, rest, hs, hrest, rfl⟩ := numberItems_cons_eq_ok he
    obtain ⟨hm, hpm, hlt⟩ := numberItem_sound item h hs
    obtain ⟨hq, hmq, hall⟩ := numberItems_sound items hm hrest
    exact ⟨hq, hpm.trans hmq, List.forall_mem_cons.2 ⟨lt_of_extends hmq.slots hlt, hall⟩⟩
termination_by items => (sizeOf items, 0)

theorem numberBranch_sound : ∀ (items : List Item) {p q : Parts} {b : BranchId},
    p.Sound d.rules.length → d.numberBranch name items p = .ok (b, q) →
      q.Sound d.rules.length ∧ p.Extends q ∧ ∃ slots, q.HasBranch b slots
  | items, p, q, b, h, he => by
    obtain ⟨ss, m, hne, hss, rfl, rfl⟩ := numberBranch_eq_ok he
    obtain ⟨hm, hpm, hall⟩ := numberItems_sound items h hss
    exact ⟨sound_withBranch hm ss, hpm.trans (extends_withBranch m ss), ss,
      hasBranch_withBranch hne hall⟩
termination_by items => (sizeOf items, 1)

theorem numberBranches_sound : ∀ (body : List (List Item)) {p q : Parts} {bs : List BranchId},
    p.Sound d.rules.length → d.numberBranches name body p = .ok (bs, q) →
      q.Sound d.rules.length ∧ p.Extends q ∧ ∀ b ∈ bs, ∃ slots, q.HasBranch b slots
  | [], p, q, bs, h, he => by
    simp only [numberBranches, pure_eq_ok, Prod.mk.injEq] at he
    obtain ⟨rfl, rfl⟩ := he
    exact ⟨h, Extends.refl p, by simp⟩
  | items :: body, p, q, bs, h, he => by
    obtain ⟨b, m, rest, hb, hrest, rfl⟩ := numberBranches_cons_eq_ok he
    obtain ⟨hm, hpm, slots, hslots⟩ := numberBranch_sound items h hb
    obtain ⟨hq, hmq, hall⟩ := numberBranches_sound body hm hrest
    exact ⟨hq, hpm.trans hmq, List.forall_mem_cons.2 ⟨⟨slots, hslots.extends hmq⟩, hall⟩⟩
termination_by body => (sizeOf body, 0)

theorem numberBody_sound : ∀ (body : List (List Item)) {p q : Parts} {c : ChoiceId},
    p.Sound d.rules.length → d.numberBody name body p = .ok (c, q) →
      q.Sound d.rules.length ∧ p.Extends q ∧ c.index < q.choices.size
  | body, p, q, c, h, he => by
    obtain ⟨bs, m, hne, hbs, rfl, rfl⟩ := numberBody_eq_ok he
    obtain ⟨hm, hpm, hall⟩ := numberBranches_sound body h hbs
    exact ⟨sound_withChoice hm hne hall, hpm.trans (extends_withChoice m bs), by simp [withChoice]⟩
termination_by body => (sizeOf body, 1)

end

theorem numberRules_sound : ∀ (rules : List (String × Body)) {p q : Parts} {rs : List Rule},
    p.Sound d.rules.length → d.numberRules rules p = .ok (rs, q) →
      q.Sound d.rules.length ∧ p.Extends q ∧ rs.length = rules.length
        ∧ ∀ r ∈ rs, r.body.index < q.choices.size
  | [], p, q, rs, h, he => by
    simp only [numberRules, pure_eq_ok, Prod.mk.injEq] at he
    obtain ⟨rfl, rfl⟩ := he
    exact ⟨h, Extends.refl p, rfl, by simp⟩
  | (ruleName, body) :: rules, p, q, rs, h, he => by
    simp only [numberRules, bind_eq_ok, pure_eq_ok, Prod.mk.injEq] at he
    obtain ⟨c, m, hc, rest, _, hrest, rfl, rfl⟩ := he
    obtain ⟨hm, hpm, hlt⟩ := numberBody_sound d ruleName body h hc
    obtain ⟨hq, hmq, hlen, hall⟩ := numberRules_sound rules hm hrest
    refine ⟨hq, hpm.trans hmq, by simp [hlen], fun r hr => ?_⟩
    rcases List.mem_cons.1 hr with rfl | hr
    · exact lt_of_extends hmq.choices hlt
    · exact hall r hr

end Numbering

/-- The start rule of a definition that has rules is one of them. -/
theorem startId_lt {d : Definition} {r : RuleId} (hne : d.rules ≠ []) (h : d.startId = .ok r) :
    r.index < d.rules.length := by
  unfold startId at h
  split at h
  · cases h
    exact List.length_pos_iff.2 hne
  · split at h
    · cases h
    · rename_i hr
      cases h
      exact ruleId?_lt hr

/-! ### Built grammars -/

/-- The tables of a grammar. -/
def tables (g : Grammar) : Parts :=
  ⟨g.choices, g.branches, g.slots, g.symbols⟩

section Built

variable {g : Grammar}

theorem slot_of_tables {i : Nat} {x : Slot} (h : (tables g).slots[i]? = some x) :
    g.slot ⟨i⟩ = x := by
  simp [Grammar.slot, Array.getD_eq_getD_getElem?, show g.slots[i]? = some x from h]

theorem symbol_of_tables {i : Nat} {x : Symbol} (h : (tables g).symbols[i]? = some x) :
    g.symbol ⟨i⟩ = x := by
  simp [Grammar.symbol, Array.getD_eq_getD_getElem?, show g.symbols[i]? = some x from h]

theorem slotIds_of_tables {i : Nat} {ss : List SlotId} (h : (tables g).branches[i]? = some ss) :
    g.slotIds ⟨i⟩ = ss := by
  simp [slotIds, Array.getD_eq_getD_getElem?, show g.branches[i]? = some ss from h]

theorem branchIds_of_tables {i : Nat} {bs : List BranchId}
    (h : (tables g).choices[i]? = some bs) : g.branchIds ⟨i⟩ = bs := by
  simp [branchIds, Array.getD_eq_getD_getElem?, show g.choices[i]? = some bs from h]

theorem tables_choices {c : ChoiceId} (h : c.index < g.choices.size) :
    (tables g).choices[c.index]? = some (g.branchIds c) := by
  have hc : (tables g).choices[c.index]? = some g.choices[c.index] := Array.getElem?_eq_getElem h
  rw [hc, ← branchIds_of_tables hc]

theorem tables_branches {b : BranchId} {s : SlotId} (h : s ∈ g.slotIds b) :
    (tables g).branches[b.index]? = some (g.slotIds b) := by
  have hb : b.index < (tables g).branches.size := by
    by_contra hb
    have hnone : g.branches[b.index]? = none := Array.getElem?_eq_none (Nat.le_of_not_lt hb)
    rw [slotIds, Array.getD_eq_getD_getElem?, hnone] at h
    cases h
  rw [Array.getElem?_eq_getElem hb, ← slotIds_of_tables (Array.getElem?_eq_getElem hb)]

/-- Whatever is no symbol of the tables reads as the default. -/
theorem symbol_listed (s : SymbolId) :
    (tables g).symbols[s.index]? = some (g.symbol s) ∨ g.symbol s = default := by
  rcases hx : g.symbols[s.index]? with _ | x
  · exact .inr (by simp [Grammar.symbol, Array.getD_eq_getD_getElem?, hx])
  · exact .inl (hx.trans (congrArg some (symbol_of_tables hx).symm))

theorem hasBranch_of_sound {rules : Nat} (h : (tables g).Sound rules) {c : ChoiceId}
    {b : List SlotId} (hb : b ∈ g.branchesOf c) : (∃ id, (tables g).HasBranch id b) ∧
      ∀ s ∈ b, ∀ x inner, (tables g).symbols[s.index]? = some x →
        x.kind.bracketed? = some inner → inner.index < c.index := by
  have hchoice := tables_choices (lt_of_mem_branchesOf hb)
  obtain ⟨id, hid, rfl⟩ := List.mem_map.1 hb
  obtain ⟨slots, hslots, hnest⟩ := (h.choice _ _ hchoice).2 id hid
  rw [slotIds_of_tables hslots.1]
  exact ⟨⟨id, hslots⟩, hnest⟩

/-- A grammar made of sound parts is well-formed. -/
theorem wellFormed_of_sound (h : (tables g).Sound g.rules.size)
    (hstart : g.start.index < g.rules.size)
    (hbody : ∀ r ∈ g.rules, r.body.index < g.choices.size) : g.WellFormed := by
  have hsymbol : ∀ s : SlotId, s.index < g.slots.size → (g.slot s).symbol = ⟨s.index⟩ := by
    intro s hs
    have hat : (tables g).slots[s.index]? = some _ := Array.getElem?_eq_getElem hs
    rw [slot_of_tables hat]
    exact h.symbol _ _ hat
  exact {
    start := hstart
    body := fun r hr => by
      simp only [rule, Array.getD_eq_getD_getElem?, Array.getElem?_eq_getElem hr, Option.getD_some]
      exact hbody _ (Array.getElem_mem hr)
    branches_ne := fun c hc => by
      simpa only [branchesOf, ne_eq, List.map_eq_nil_iff] using (h.choice _ _ (tables_choices hc)).1
    slots_ne := fun c b hb => by
      obtain ⟨⟨id, hbranch⟩, -⟩ := hasBranch_of_sound h hb
      exact hbranch.2.1
    slot := fun c b hb s hs => by
      obtain ⟨⟨id, hbranch⟩, -⟩ := hasBranch_of_sound h hb
      exact hbranch.2.2 s hs
    symbol := hsymbol
    symbols := h.size
    rule := fun s r hr => by
      rcases symbol_listed s with hx | hx
      · exact h.rule _ _ r hx hr
      · rw [hx] at hr
        cases hr
    bracketed := fun s c hc => by
      rcases symbol_listed s with hx | hx
      · exact h.bracketed _ _ c hx hc
      · rw [hx] at hc
        cases hc
    nested := fun c b hb s hs inner hi => by
      obtain ⟨⟨id, hbranch⟩, hnest⟩ := hasBranch_of_sound h hb
      rw [hsymbol s (hbranch.2.2 s hs)] at hi
      rcases symbol_listed ⟨s.index⟩ with hx | hx
      · exact hnest s hs _ inner hx hi
      · rw [hx] at hi
        cases hi }

theorem exists_of_build {d : Definition} (h : d.build = .ok g) : ∃ rs,
    d.numberRules d.rules {} = .ok (rs, tables g) ∧ g.rules = rs.toArray ∧ d.rules ≠ [] ∧
      d.startId = .ok g.start := by
  unfold build at h
  by_cases hne : d.rules = []
  · simp [hne, throw, throwThe, MonadExceptOf.throw, bind, Except.bind] at h
  rcases hrep : firstRepeated [] (d.rules.map (·.1)) with _ | name
  · rcases hstart : d.startId with e | r
    · simp [hne, hrep, hstart, bind, Except.bind] at h
    rcases hnum : (d.numberRules d.rules).run {} with e | ⟨rules, parts⟩
    · simp [hne, hrep, hstart, hnum, bind, Except.bind] at h
    simp only [hne, hrep, hstart, hnum, bind, Except.bind, pure, Except.pure, List.isEmpty_iff,
      if_false, Except.ok.injEq] at h
    subst h
    exact ⟨rules, hnum, rfl, hne, rfl⟩
  · simp [hne, hrep, throw, throwThe, MonadExceptOf.throw] at h

/-- Building a definition gives a well-formed grammar. -/
theorem wellFormed_build {d : Definition} (h : d.build = .ok g) : g.WellFormed := by
  obtain ⟨rs, hnum, hrules, hne, hstart⟩ := exists_of_build h
  obtain ⟨hs, -, hlen, hall⟩ := numberRules_sound d d.rules (sound_empty _) hnum
  have hsize : g.rules.size = d.rules.length := by rw [hrules, List.size_toArray, hlen]
  refine wellFormed_of_sound (hsize ▸ hs) (hsize ▸ startId_lt hne hstart) fun r hr => ?_
  rw [hrules] at hr
  exact hall r (List.mem_toArray.1 hr)

end Built

theorem build_eq_ok {definition : Definition} (h : definition.build.toOption.isSome) :
    definition.build = .ok (definition.build.toOption.getD default) := by
  generalize definition.build = built at h ⊢
  cases built with
  | error e => cases h
  | ok g => rfl

end Definition

end Cloze.Grammar
