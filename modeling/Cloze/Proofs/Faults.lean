import Cloze.Proofs.Tables
import Mathlib.Data.List.Nodup

/-!
# The faults of a definition

A definition describes a grammar iff it has rules, their names differ, the start is one of them,
and nowhere in a body, at any depth, is there a choice without branches, a branch without slots or
a reference to no rule (`Sensible`). `faults` lists everything that is wrong with a definition, in
the order in which it is read; numbering a definition ends at the first entry of that list
(`build_eq_error_iff`), and the list is empty iff the definition is sensible.
-/

namespace Cloze.Grammar

/-- The body between the brackets of an item. -/
def Item.inner? : Item → Option Body
  | .group body _ | .option body _ => some body
  | .literal _ _ | .category _ _ | .rule _ _ => none

/-- The first body is the second, or stands between brackets in it at some depth. -/
inductive Within (part : Body) : Body → Prop
  | self : Within part part
  | bracket {inner body : Body} {items : List Item} {item : Item} (hb : items ∈ body)
      (hi : item ∈ items) (hin : item.inner? = some inner) (h : Within part inner) :
      Within part body

/-- Nothing is empty in a body and its references are to the given names, leaving aside what stands
between brackets. -/
structure Filled (names : List String) (body : Body) : Prop where
  branches_ne : body ≠ []
  slots_ne : ∀ items ∈ body, items ≠ []
  known : ∀ items ∈ body, ∀ name times, Item.rule name times ∈ items → name ∈ names

namespace Definition

/-- The names of the rules. -/
def names (d : Definition) : List String :=
  d.rules.map (·.1)

/-- What a definition of a grammar has to be like. -/
structure Sensible (d : Definition) : Prop where
  rules_ne : d.rules ≠ []
  distinct : d.names.Nodup
  start : ∀ name ∈ d.start, name ∈ d.names
  filled : ∀ rule ∈ d.rules, ∀ part, Within part rule.2 → Filled d.names part

/-! ### All faults, as they are read -/

mutual

/-- The faults in an item of the rule `rule`. -/
def itemFaults (names : List String) (rule : String) : Item → List DefinitionError
  | .literal _ _ | .category _ _ => []
  | .rule name _ => if name ∈ names then [] else [.unknownRule rule name]
  | .group body _ | .option body _ => bodyFaults names rule body

def itemsFaults (names : List String) (rule : String) : List Item → List DefinitionError
  | [] => []
  | item :: items => itemFaults names rule item ++ itemsFaults names rule items

def branchFaults (names : List String) (rule : String) : List Item → List DefinitionError
  | [] => [.emptyBranch rule]
  | item :: items => itemFaults names rule item ++ itemsFaults names rule items

def branchesFaults (names : List String) (rule : String) :
    List (List Item) → List DefinitionError
  | [] => []
  | items :: body => branchFaults names rule items ++ branchesFaults names rule body

/-- The faults in a body, branch after branch and slot after slot. -/
def bodyFaults (names : List String) (rule : String) : List (List Item) → List DefinitionError
  | [] => [.emptyBranch rule]
  | items :: body => branchFaults names rule items ++ branchesFaults names rule body

end

/-- The names that also stand earlier in the list. -/
def repeats (names : List String) : List String :=
  names.zipIdx.filterMap fun (name, i) => if name ∈ names.take i then some name else none

def startFaults (d : Definition) : List DefinitionError :=
  match d.start with
  | none => []
  | some name => if name ∈ d.names then [] else [.unknownStart name]

/-- Everything that is wrong with a definition. -/
def faults (d : Definition) : List DefinitionError :=
  (if d.rules = [] then [.noRules] else [])
    ++ (repeats d.names).map .duplicateRule
    ++ d.startFaults
    ++ d.rules.flatMap fun (name, body) => bodyFaults d.names name body

/-! ### Numbering ends at the first fault -/

/-- A numbering ends at the first of the faults, and succeeds if there is none. -/
def Meets {α : Type} (m : Numbering α) : (faults : List DefinitionError) → Prop
  | [] => ∀ p, ∃ r, m p = .ok r
  | e :: _ => ∀ p, m p = .error e

variable {α β : Type}

theorem meets_pure (a : α) : Meets (pure a : Numbering α) [] := fun p => ⟨(a, p), rfl⟩

theorem meets_throw (e : DefinitionError) : Meets (throw e : Numbering α) [e] := fun _ => rfl

theorem bind_run (m : Numbering α) (f : α → Numbering β) (p : Parts) :
    (m >>= f) p = Except.bind (m p) fun x => f x.1 x.2 := rfl

theorem Meets.bind {m : Numbering α} {f : α → Numbering β} {es fs : List DefinitionError}
    (hm : Meets m es) (hf : ∀ a, Meets (f a) fs) : Meets (m >>= f) (es ++ fs) := by
  rcases es with _ | ⟨e, es⟩
  · rcases fs with _ | ⟨e, fs⟩
    · intro p
      obtain ⟨⟨a, q⟩, hq⟩ := hm p
      obtain ⟨r, hr⟩ := hf a q
      exact ⟨r, by rw [bind_run, hq]; exact hr⟩
    · intro p
      obtain ⟨⟨a, q⟩, hq⟩ := hm p
      rw [bind_run, hq]
      exact hf a q
  · intro p
    rw [bind_run, hm p]
    rfl

theorem meets_addNamed (d : Definition) (text : String) (kind : Kind) :
    Meets (d.addNamed text kind) [] := fun _ => ⟨_, rfl⟩

theorem meets_addBracketed (kind : Kind) : Meets (addBracketed kind) [] := fun _ => ⟨_, rfl⟩

theorem meets_addSlot (slot : Slot) : Meets (addSlot slot) [] := fun _ => ⟨_, rfl⟩

theorem meets_addBranch (slots : List SlotId) : Meets (addBranch slots) [] := fun _ => ⟨_, rfl⟩

theorem meets_addChoice (branches : List BranchId) : Meets (addChoice branches) [] :=
  fun _ => ⟨_, rfl⟩

theorem ruleId?_eq_none_iff {d : Definition} {name : String} :
    d.ruleId? name = none ↔ name ∉ d.names := by
  rw [ruleId?, Option.map_eq_none_iff, List.findIdx?_eq_none_iff, names, List.mem_map]
  simp only [beq_eq_false_iff_ne, ne_eq, not_exists, not_and]

theorem mem_names_of_ruleId? {d : Definition} {name : String} {r : RuleId}
    (h : d.ruleId? name = some r) : name ∈ d.names := by
  by_contra hn
  rw [ruleId?_eq_none_iff.2 hn] at h
  cases h

section Numbering

variable (d : Definition) (rule : String)

mutual

theorem meets_numberItem : ∀ item : Item,
    Meets (d.numberItem rule item) (itemFaults d.names rule item)
  | .literal text times => (meets_addNamed d text _).bind fun _ => meets_addSlot _
  | .category name times => (meets_addNamed d name _).bind fun _ => meets_addSlot _
  | .rule name times => by
    rcases hr : d.ruleId? name with _ | r
    · have hn := ruleId?_eq_none_iff.1 hr
      simp only [numberItem, hr, itemFaults, if_neg hn]
      exact meets_throw _
    · have hn := mem_names_of_ruleId? hr
      simp only [numberItem, hr, itemFaults, if_pos hn]
      exact (meets_addNamed d name _).bind fun _ => meets_addSlot _
  | .group body times => by
    rw [numberItem, itemFaults, ← List.append_nil (bodyFaults d.names rule body)]
    exact (meets_numberBody body).bind fun c =>
      (meets_addBracketed (.group c)).bind fun x => meets_addSlot ⟨times, x⟩
  | .option body times => by
    rw [numberItem, itemFaults, ← List.append_nil (bodyFaults d.names rule body)]
    exact (meets_numberBody body).bind fun c =>
      (meets_addBracketed (.option c)).bind fun x => meets_addSlot ⟨times, x⟩

theorem meets_numberItems : ∀ items : List Item,
    Meets (d.numberItems rule items) (itemsFaults d.names rule items)
  | [] => meets_pure _
  | item :: items => by
    have h := (meets_numberItem item).bind fun s =>
      (meets_numberItems items).bind fun rest => meets_pure (s :: rest)
    rwa [List.append_nil] at h

theorem meets_numberBranch : ∀ items : List Item,
    Meets (d.numberBranch rule items) (branchFaults d.names rule items)
  | [] => meets_throw _
  | item :: items => by
    have h := (meets_numberItem item).bind fun s =>
      (meets_numberItems items).bind fun rest => meets_addBranch (s :: rest)
    rwa [List.append_nil] at h

theorem meets_numberBranches : ∀ body : List (List Item),
    Meets (d.numberBranches rule body) (branchesFaults d.names rule body)
  | [] => meets_pure _
  | items :: body => by
    have h := (meets_numberBranch items).bind fun b =>
      (meets_numberBranches body).bind fun rest => meets_pure (b :: rest)
    rwa [List.append_nil] at h

theorem meets_numberBody : ∀ body : List (List Item),
    Meets (d.numberBody rule body) (bodyFaults d.names rule body)
  | [] => meets_throw _
  | items :: body => by
    have h := (meets_numberBranch items).bind fun b =>
      (meets_numberBranches body).bind fun rest => meets_addChoice (b :: rest)
    rwa [List.append_nil] at h

end

end Numbering

theorem meets_numberRules (d : Definition) : ∀ rules : List (String × Body),
    Meets (d.numberRules rules) (rules.flatMap fun rule => bodyFaults d.names rule.1 rule.2)
  | [] => meets_pure _
  | (name, body) :: rules => by
    have h := (meets_numberBody d name body).bind fun c =>
      (meets_numberRules d rules).bind fun rest => meets_pure ((⟨name, c⟩ : Rule) :: rest)
    rwa [List.append_nil] at h

/-! ### The checks before the numbering -/

/-- The first name met again is the first of those that also stand earlier. -/
theorem firstRepeated_eq (seen names : List String) :
    firstRepeated seen names = ((names.zipIdx seen.length).filterMap fun (name, i) =>
      if name ∈ (seen.reverse ++ names).take i then some name else none).head? := by
  induction names generalizing seen with
  | nil => rfl
  | cons name names ih =>
    have htake : (seen.reverse ++ name :: names).take seen.length = seen.reverse := by
      rw [← List.length_reverse, List.take_left]
    have hlist : seen.reverse ++ name :: names = (name :: seen).reverse ++ names := by simp
    rw [firstRepeated, List.zipIdx_cons, List.filterMap_cons]
    simp only [htake, List.mem_reverse, List.contains_iff_mem]
    split
    · simp
    · rw [ih (name :: seen), hlist, List.length_cons]

theorem firstRepeated_nil (names : List String) :
    firstRepeated [] names = (repeats names).head? :=
  firstRepeated_eq [] names

theorem repeats_eq_nil_iff {names : List String} : repeats names = [] ↔ names.Nodup := by
  have hpairs : repeats names = [] ↔ ∀ j name, names[j]? = some name → name ∉ names.take j := by
    simp only [repeats, List.filterMap_eq_nil_iff, Prod.forall, List.mem_zipIdx_iff_getElem?,
      ite_eq_right_iff, reduceCtorEq, imp_false]
    exact forall_comm
  rw [hpairs, List.nodup_iff_getElem?_ne_getElem?]
  constructor
  · intro h i j hij hj he
    have hi := List.getElem?_eq_getElem (Nat.lt_trans hij hj)
    refine h j _ (he ▸ hi) (List.mem_of_getElem? (i := i) ?_)
    rw [List.getElem?_take_of_lt hij, hi]
  · intro h j name hj hmem
    obtain ⟨i, hi, hin⟩ := List.getElem_of_mem hmem
    have hlt := hi
    rw [List.length_take] at hlt
    rw [List.getElem_take] at hin
    refine h i j (by omega) (List.getElem?_eq_some_iff.1 hj).1 ?_
    rw [hj, ← hin, List.getElem?_eq_getElem]

/-- The start rule is found unless its name is none of the rules. -/
theorem startId_cases (d : Definition) : (d.startFaults = [] ∧ ∃ r, d.startId = .ok r) ∨
    ∃ e, d.startFaults = [e] ∧ d.startId = .error e := by
  unfold startId startFaults
  rcases d.start with _ | name
  · exact Or.inl ⟨rfl, _, rfl⟩
  · rcases hr : d.ruleId? name with _ | r
    · have hn := ruleId?_eq_none_iff.1 hr
      exact Or.inr ⟨.unknownStart name, by simp [hn], by simp only [hr]⟩
    · have hn := mem_names_of_ruleId? hr
      exact Or.inl ⟨by simp [hn], r, by simp only [hr]⟩

/-- Building a definition ends with its first fault, if there is one. -/
theorem build_cases (d : Definition) :
    (d.faults = [] ∧ ∃ g, d.build = .ok g) ∨ ∃ e, d.faults.head? = some e ∧ d.build = .error e := by
  unfold build faults
  by_cases hne : d.rules = []
  · exact Or.inr ⟨.noRules, by simp [hne],
      by simp [hne, throw, throwThe, MonadExceptOf.throw, bind, Except.bind]⟩
  rcases hrep : repeats d.names with _ | ⟨name, later⟩
  · have hfirst : firstRepeated [] (d.rules.map (·.1)) = none := by
      rw [firstRepeated_nil, ← names, hrep, List.head?_nil]
    rcases d.startId_cases with ⟨hs, r, hr⟩ | ⟨e, hs, hr⟩
    · have hnum := meets_numberRules d d.rules
      rcases hf : d.rules.flatMap fun rule => bodyFaults d.names rule.1 rule.2 with _ | ⟨e, later⟩
      · rw [hf] at hnum
        obtain ⟨⟨rules, parts⟩, hparts⟩ := hnum {}
        refine Or.inl ⟨by simp [hne, hs, hf],
          ⟨rules.toArray, parts.choices, parts.branches, parts.slots, parts.symbols, r⟩, ?_⟩
        simp [hne, hfirst, hr, hparts, StateT.run, bind, Except.bind, pure, Except.pure]
      · rw [hf] at hnum
        refine Or.inr ⟨e, by simp [hne, hs, hf], ?_⟩
        simp [hne, hfirst, hr, hnum {}, StateT.run, bind, Except.bind]
    · exact Or.inr ⟨e, by simp [hne, hs], by simp [hne, hfirst, hr, bind, Except.bind]⟩
  · have hfirst : firstRepeated [] (d.rules.map (·.1)) = some name := by
      rw [firstRepeated_nil, ← names, hrep, List.head?_cons]
    exact Or.inr ⟨.duplicateRule name, by simp [hne],
      by simp [hne, hfirst, throw, throwThe, MonadExceptOf.throw]⟩

/-! ### Sensible definitions have no faults -/

section Sensible

variable {names : List String} {rule : String}

theorem itemsFaults_eq_nil_iff {items : List Item} :
    itemsFaults names rule items = [] ↔ ∀ item ∈ items, itemFaults names rule item = [] := by
  induction items with
  | nil => simp [itemsFaults]
  | cons item items ih => simp [itemsFaults, ih]

theorem branchFaults_eq_nil_iff {items : List Item} : branchFaults names rule items = [] ↔
    items ≠ [] ∧ ∀ item ∈ items, itemFaults names rule item = [] := by
  cases items with
  | nil => simp [branchFaults]
  | cons item items => simp [branchFaults, itemsFaults_eq_nil_iff]

theorem branchesFaults_eq_nil_iff {body : Body} :
    branchesFaults names rule body = [] ↔ ∀ items ∈ body, branchFaults names rule items = [] := by
  induction body with
  | nil => simp [branchesFaults]
  | cons items body ih => simp [branchesFaults, ih]

theorem bodyFaults_eq_nil_iff {body : Body} : bodyFaults names rule body = [] ↔
    body ≠ [] ∧ ∀ items ∈ body, items ≠ [] ∧ ∀ item ∈ items, itemFaults names rule item = [] := by
  cases body with
  | nil => simp [bodyFaults]
  | cons items body =>
    simp [bodyFaults, branchesFaults_eq_nil_iff, branchFaults_eq_nil_iff]

theorem itemFaults_of_inner? {item : Item} {inner : Body} (h : item.inner? = some inner) :
    itemFaults names rule item = bodyFaults names rule inner := by
  cases item <;> simp only [Item.inner?, reduceCtorEq, Option.some.injEq] at h
  all_goals rw [itemFaults, h]

/-- A body without faults is filled at every depth. -/
theorem filled_of_bodyFaults {part body : Body} (hw : Within part body)
    (h : bodyFaults names rule body = []) : Filled names part := by
  induction hw with
  | self =>
    obtain ⟨hne, hall⟩ := bodyFaults_eq_nil_iff.1 h
    refine ⟨hne, fun items hi => (hall items hi).1, fun items hi name times hn => ?_⟩
    have hnil := (hall items hi).2 _ hn
    rw [itemFaults] at hnil
    by_contra hname
    rw [if_neg hname] at hnil
    cases hnil
  | bracket hb hi hin _ ih =>
    refine ih ?_
    rw [← itemFaults_of_inner? hin]
    exact ((bodyFaults_eq_nil_iff.1 h).2 _ hb).2 _ hi

/-- A body that is filled at every depth has no faults. -/
theorem bodyFaults_eq_nil (body : Body) (h : ∀ part, Within part body → Filled names part) :
    bodyFaults names rule body = [] := by
  have hbody := h body .self
  refine bodyFaults_eq_nil_iff.2 ⟨hbody.branches_ne, fun items hb =>
    ⟨hbody.slots_ne items hb, fun item hi => ?_⟩⟩
  have hlt := Nat.lt_trans (List.sizeOf_lt_of_mem hi) (List.sizeOf_lt_of_mem hb)
  rcases item with ⟨text, times⟩ | ⟨name, times⟩ | ⟨name, times⟩ | ⟨inner, times⟩ | ⟨inner, times⟩
  · rw [itemFaults]
  · rw [itemFaults]
  · rw [itemFaults, if_pos (hbody.known items hb name times hi)]
  · rw [itemFaults]
    exact bodyFaults_eq_nil inner fun part hp => h part (.bracket hb hi rfl hp)
  · rw [itemFaults]
    exact bodyFaults_eq_nil inner fun part hp => h part (.bracket hb hi rfl hp)
termination_by sizeOf body
decreasing_by all_goals simp at hlt; omega

end Sensible

theorem startFaults_eq_nil_iff {d : Definition} :
    d.startFaults = [] ↔ ∀ name ∈ d.start, name ∈ d.names := by
  unfold startFaults
  rcases d.start with _ | name <;> simp

/-- Nothing is wrong with a definition iff it is sensible. -/
theorem faults_eq_nil_iff {d : Definition} : d.faults = [] ↔ d.Sensible := by
  simp only [faults, List.append_eq_nil_iff, ite_eq_right_iff, reduceCtorEq, imp_false,
    List.map_eq_nil_iff, repeats_eq_nil_iff, startFaults_eq_nil_iff, List.flatMap_eq_nil_iff]
  constructor
  · rintro ⟨⟨⟨hne, hnodup⟩, hstart⟩, hall⟩
    exact ⟨hne, hnodup, hstart, fun rule hr part hp => filled_of_bodyFaults hp (hall rule hr)⟩
  · intro h
    exact ⟨⟨⟨h.rules_ne, h.distinct⟩, h.start⟩, fun rule hr => bodyFaults_eq_nil _ (h.filled rule hr)⟩

end Definition

end Cloze.Grammar
