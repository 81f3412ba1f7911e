import Cloze.Proofs.Faults
import Cloze.Proofs.Numbering
import Mathlib.Data.List.Induction

/-!
# Reading a built grammar back

The tables of a built grammar say what the definition said. A choice read back from the tables
(`bodyOf`) is the body it was numbered from, whatever is entered behind it; a symbol has the role
and the tag that were bound to its text last; and every part stands in one place of one rule
(`renders_build`). A definition builds iff it is sensible, and its first fault is the error if it
is not.
-/

namespace Cloze.Grammar

/-! ### Reading back -/

/-- The slot as it was written down; `inside` reads the choices in brackets. -/
def itemAt (g : Grammar) (inside : ChoiceId → Body) (s : SlotId) : Item :=
  let slot := g.slot s
  match (g.symbol slot.symbol).kind with
  | .literal text => .literal text slot.multiplicity
  | .category name => .category name slot.multiplicity
  | .rule r => .rule (g.rule r).name slot.multiplicity
  | .group c => .group (inside c) slot.multiplicity
  | .option c => .option (inside c) slot.multiplicity

/-- The choice as it was written down, to at most `bound` levels of brackets. -/
def bodyWithin (g : Grammar) : (bound : Nat) → ChoiceId → Body
  | 0, _ => []
  | bound + 1, c => (g.branchesOf c).map fun slots => slots.map (g.itemAt (g.bodyWithin bound))

/-- The choice as it was written down. Numbers fall on the way into brackets, so its own number
bounds how many there are. -/
def bodyOf (g : Grammar) (c : ChoiceId) : Body :=
  g.bodyWithin (c.index + 1) c

/-- The text a symbol is bound by; a bracketed choice has none. -/
def Kind.text? (g : Grammar) : Kind → Option String
  | .literal text => some text
  | .category name => some name
  | .rule r => some (g.rule r).name
  | .group _ | .option _ => none

/-- What was bound to a text last. -/
def lastBound {α : Type} (bindings : List (String × α)) (text : String) : Option α :=
  ((bindings.filter (·.1 == text)).getLast?).map (·.2)

/-- The tables of a grammar say what the definition says, and nothing else. -/
structure Renders (g : Grammar) (d : Definition) : Prop where
  names : g.rules.toList.map (·.name) = d.rules.map (·.1)
  bodies : g.rules.toList.map (fun r => g.bodyOf r.body) = d.rules.map (·.2)
  start : some (g.rule g.start).name = d.start.or (d.rules.head?.map (·.1))
  resolved : ∀ x r, (g.symbol x).kind = .rule r → g.ruleId? (g.rule r).name = some r
  role : ∀ x, x.index < g.symbols.size →
    (g.symbol x).role = ((g.symbol x).kind.text? g).bind (lastBound d.roles)
  tag : ∀ x, x.index < g.symbols.size →
    (g.symbol x).tag = (((g.symbol x).kind.text? g).bind (lastBound d.tags)).getD Tag.plain
  choices : EachOnce ((g.rules.toList.map (·.body)
    ++ g.symbols.toList.filterMap (·.kind.bracketed?)).map (·.index)) g.choices.size
  branches : EachOnce (g.choices.toList.flatten.map (·.index)) g.branches.size
  slots : EachOnce (g.branches.toList.flatten.map (·.index)) g.slots.size
  symbols : g.slots.toList.map (·.symbol.index) = List.range g.symbols.size
  nested : ∀ c, ∀ b ∈ g.branchIds c, ∀ s ∈ g.slotIds b, ∀ inner,
    (g.symbol (g.slot s).symbol).kind.bracketed? = some inner → inner.index < c.index ∧
      ∀ b' ∈ g.branchIds inner, b'.index < b.index ∧
        ∀ s' ∈ g.slotIds b', s'.index < s.index ∧ (g.slot s').symbol.index < (g.slot s).symbol.index

namespace Definition

open Parts

variable {d : Definition} {rule : String}

/-! ### The tables read as they were written -/

section Reading

variable {g : Grammar}

/-- The slot entered for an item reads as the item. -/
theorem itemAt_of_enters (hname : ∀ name r, d.ruleId? name = some r → (g.rule r).name = name)
    {item : Item} {m : Parts} {x : Symbol} (hx : Enters d rule p item m x)
    (hF : (m.withItem item.times x).Extends (tables g)) {inside : ChoiceId → Body}
    (hin : ∀ inner c, item.inner? = some inner → x.kind.bracketed? = some c → inside c = inner) :
    g.itemAt inside ⟨m.slots.size⟩ = item := by
  have hslot : g.slot ⟨m.slots.size⟩ = ⟨item.times, ⟨m.symbols.size⟩⟩ :=
    slot_of_tables (hF.slots (by simp [Parts.withItem]))
  have hsymbol : g.symbol ⟨m.symbols.size⟩ = x :=
    symbol_of_tables (hF.symbols (by simp [Parts.withItem]))
  unfold itemAt
  simp only [hslot, hsymbol]
  cases hx with
  | literal => rfl
  | category => rfl
  | rule hr => simp only [hname _ _ hr, Item.times]
  | group hb => simp only [hin _ _ rfl rfl, Item.times]
  | option hb => simp only [hin _ _ rfl rfl, Item.times]

mutual

theorem numberItem_reads (hname : ∀ name r, d.ruleId? name = some r → (g.rule r).name = name) :
    ∀ (item : Item) {p q : Parts} {s : SlotId}, p.Sound d.rules.length →
      d.numberItem rule item p = .ok (s, q) → q.Extends (tables g) →
        ∀ bound, q.choices.size ≤ bound → g.itemAt (g.bodyWithin bound) s = item
  | item, p, q, s, hp, h, hF, bound, hb => by
    obtain ⟨m, x, hx, rfl, rfl⟩ := numberItem_eq_ok h
    have hm := (extends_withItem m item.times x).trans hF
    refine itemAt_of_enters hname hx hF ?_
    cases hx with
    | literal | category | rule => rintro _ _ ⟨⟩
    | group hin | option hin =>
      rintro _ c ⟨⟩ ⟨⟩
      have hlt := (numberBody_sound d rule _ hp hin).2.2
      exact numberBody_reads hname _ hp hin hm bound (Nat.lt_of_lt_of_le hlt hb)
termination_by item => (sizeOf item, 0)

theorem numberItems_reads (hname : ∀ name r, d.ruleId? name = some r → (g.rule r).name = name) :
    ∀ (items : List Item) {p q : Parts} {ss : List SlotId}, p.Sound d.rules.length →
      d.numberItems rule items p = .ok (ss, q) → q.Extends (tables g) →
        ∀ bound, q.choices.size ≤ bound → ss.map (g.itemAt (g.bodyWithin bound)) = items
  | [], p, q, ss, _, h, _, _, _ => by
    simp only [Definition.numberItems, pure_eq_ok, Prod.mk.injEq] at h
    obtain ⟨rfl, rfl⟩ := h
    rfl
  | item :: items, p, q, ss, hp, h, hF, bound, hb => by
    obtain ⟨s, m, rest, hs, hrest, rfl⟩ := numberItems_cons_eq_ok h
    obtain ⟨hm, -, -⟩ := numberItem_sound d rule item hp hs
    obtain ⟨-, hmq, -⟩ := numberItems_sound d rule items hm hrest
    have hfirst := numberItem_reads hname item hp hs (hmq.trans hF) bound
      (Nat.le_trans hmq.choices_le hb)
    have hlater := numberItems_reads hname items hm hrest hF bound hb
    rw [List.map_cons, hfirst, hlater]
termination_by items => (sizeOf items, 0)

theorem numberBranch_reads (hname : ∀ name r, d.ruleId? name = some r → (g.rule r).name = name) :
    ∀ (items : List Item) {p q : Parts} {b : BranchId}, p.Sound d.rules.length →
      d.numberBranch rule items p = .ok (b, q) → q.Extends (tables g) →
        ∀ bound, q.choices.size ≤ bound →
          (g.slotIds b).map (g.itemAt (g.bodyWithin bound)) = items
  | items, p, q, b, hp, h, hF, bound, hb => by
    obtain ⟨ss, m, -, hss, rfl, rfl⟩ := numberBranch_eq_ok h
    have hids : (m.withBranch ss).branches[m.branches.size]? = some ss := by simp [Parts.withBranch]
    rw [slotIds_of_tables (hF.branches hids)]
    exact numberItems_reads hname items hp hss ((extends_withBranch m ss).trans hF) bound hb
termination_by items => (sizeOf items, 1)

theorem numberBranches_reads (hname : ∀ name r, d.ruleId? name = some r → (g.rule r).name = name) :
    ∀ (body : List (List Item)) {p q : Parts} {bs : List BranchId}, p.Sound d.rules.length →
      d.numberBranches rule body p = .ok (bs, q) → q.Extends (tables g) →
        ∀ bound, q.choices.size ≤ bound →
          bs.map (fun b => (g.slotIds b).map (g.itemAt (g.bodyWithin bound))) = body
  | [], p, q, bs, _, h, _, _, _ => by
    simp only [Definition.numberBranches, pure_eq_ok, Prod.mk.injEq] at h
    obtain ⟨rfl, rfl⟩ := h
    rfl
  | items :: body, p, q, bs, hp, h, hF, bound, hb => by
    obtain ⟨b, m, rest, hbr, hrest, rfl⟩ := numberBranches_cons_eq_ok h
    obtain ⟨hm, -, -⟩ := numberBranch_sound d rule items hp hbr
    obtain ⟨-, hmq, -⟩ := numberBranches_sound d rule body hm hrest
    have hfirst := numberBranch_reads hname items hp hbr (hmq.trans hF) bound
      (Nat.le_trans hmq.choices_le hb)
    have hlater := numberBranches_reads hname body hm hrest hF bound hb
    rw [List.map_cons, hfirst, hlater]
termination_by body => (sizeOf body, 0)

theorem numberBody_reads (hname : ∀ name r, d.ruleId? name = some r → (g.rule r).name = name) :
    ∀ (body : List (List Item)) {p q : Parts} {c : ChoiceId}, p.Sound d.rules.length →
      d.numberBody rule body p = .ok (c, q) → q.Extends (tables g) →
        ∀ bound, c.index < bound → g.bodyWithin bound c = body
  | body, p, q, c, hp, h, hF, bound, hb => by
    obtain ⟨bs, m, -, hbs, rfl, rfl⟩ := numberBody_eq_ok h
    obtain ⟨bound, rfl⟩ := Nat.exists_eq_succ_of_ne_zero (Nat.ne_zero_of_lt hb)
    have hids : (m.withChoice bs).choices[m.choices.size]? = some bs := by simp [Parts.withChoice]
    rw [bodyWithin, branchesOf, branchIds_of_tables (hF.choices hids), List.map_map]
    exact numberBranches_reads hname body hp hbs ((extends_withChoice m bs).trans hF) bound
      (Nat.le_of_lt_succ hb)
termination_by body => (sizeOf body, 1)

end

theorem numberRules_reads (hname : ∀ name r, d.ruleId? name = some r → (g.rule r).name = name) :
    ∀ (rules : List (String × Body)) {p q : Parts} {rs : List Rule}, p.Sound d.rules.length →
      d.numberRules rules p = .ok (rs, q) → q.Extends (tables g) →
        rs.map (fun r => g.bodyOf r.body) = rules.map (·.2)
  | [], p, q, rs, _, h, _ => by
    simp only [Definition.numberRules, pure_eq_ok, Prod.mk.injEq] at h
    obtain ⟨rfl, rfl⟩ := h
    rfl
  | (name, body) :: rules, p, q, rs, hp, h, hF => by
    simp only [Definition.numberRules, bind_eq_ok, pure_eq_ok, Prod.mk.injEq] at h
    obtain ⟨c, m, hc, rest, _, hrest, rfl, rfl⟩ := h
    obtain ⟨hm, -, -⟩ := numberBody_sound d name body hp hc
    obtain ⟨-, hmq, -, -⟩ := numberRules_sound d rules hm hrest
    have hfirst : g.bodyOf c = body :=
      numberBody_reads hname body hp hc (hmq.trans hF) _ (Nat.lt_succ_self _)
    rw [List.map_cons, List.map_cons, hfirst, numberRules_reads hname rules hm hrest hF]

end Reading

theorem numberRules_names : ∀ (rules : List (String × Body)) {p q : Parts} {rs : List Rule},
    d.numberRules rules p = .ok (rs, q) → rs.map (·.name) = rules.map (·.1)
  | [], p, q, rs, h => by
    simp only [Definition.numberRules, pure_eq_ok, Prod.mk.injEq] at h
    obtain ⟨rfl, rfl⟩ := h
    rfl
  | (name, body) :: rules, p, q, rs, h => by
    simp only [Definition.numberRules, bind_eq_ok, pure_eq_ok, Prod.mk.injEq] at h
    obtain ⟨c, m, hc, rest, _, hrest, rfl, rfl⟩ := h
    rw [List.map_cons, List.map_cons, numberRules_names rules hrest]

/-! ### Built grammars -/

theorem Named.labels {g : Grammar} {x : Symbol} (hx : Named d x)
    (hname : ∀ name r, d.ruleId? name = some r → (g.rule r).name = name) :
    ∃ text, x.kind.text? g = some text ∧ x.role = d.role? text ∧ x.tag = d.tag text := by
  cases hx with
  | literal text => exact ⟨text, rfl, rfl, rfl⟩
  | category name => exact ⟨name, rfl, rfl, rfl⟩
  | rule hr => exact ⟨_, congrArg some (hname _ _ hr), rfl, rfl⟩

theorem Bracket.labels {g : Grammar} {c : ChoiceId} {x : Symbol} (hx : Bracket c x) :
    x.kind.text? g = none ∧ x.role = none ∧ x.tag = Tag.plain := by
  cases hx <;> exact ⟨rfl, rfl, rfl⟩

/-- What was bound last is found first from behind. -/
theorem lookup_reverse {α : Type} (bindings : List (String × α)) (text : String) :
    bindings.reverse.lookup text = lastBound bindings text := by
  induction bindings using List.reverseRecOn with
  | nil => rfl
  | append_singleton bindings binding ih =>
    obtain ⟨name, value⟩ := binding
    rw [List.reverse_append, List.reverse_singleton, List.singleton_append, List.lookup_cons, ih]
    by_cases hname : name = text
    · simp [lastBound, List.filter_append, hname]
    · have hne : (text == name) = false := beq_false_of_ne (Ne.symm hname)
      simp only [hne]
      simp [lastBound, List.filter_append, hname]

section Built

variable {g : Grammar} (h : d.build = .ok g)

include h

theorem names_build : g.rules.toList.map (·.name) = d.rules.map (·.1) := by
  obtain ⟨rs, hnum, hrules, -, -⟩ := exists_of_build h
  rw [hrules]
  exact numberRules_names d.rules hnum

theorem name_rule {i : Nat} {name : String} {body : Body} (hi : d.rules[i]? = some (name, body)) :
    (g.rule ⟨i⟩).name = name := by
  have hnames : (g.rules.toList.map (·.name))[i]? = some name := by
    rw [names_build h, List.getElem?_map, hi]
    rfl
  rw [List.getElem?_map, Array.getElem?_toList, Option.map_eq_some_iff] at hnames
  obtain ⟨r, hr, rfl⟩ := hnames
  simp [rule, Array.getD_eq_getD_getElem?, hr]

theorem name_of_ruleId? {name : String} {r : RuleId} (hr : d.ruleId? name = some r) :
    (g.rule r).name = name := by
  simp only [ruleId?, Option.map_eq_some_iff] at hr
  obtain ⟨i, hi, rfl⟩ := hr
  obtain ⟨hlt, hname, -⟩ := List.findIdx?_eq_some_iff_getElem.1 hi
  rw [name_rule h (List.getElem?_eq_getElem hlt)]
  exact eq_of_beq hname

theorem ruleId?_build (name : String) : g.ruleId? name = d.ruleId? name := by
  obtain ⟨rs, hnum, hrules, -, -⟩ := exists_of_build h
  have hlist := congrArg (List.findIdx? (· == name)) (numberRules_names d.rules hnum)
  rw [List.findIdx?_map, List.findIdx?_map] at hlist
  rw [Grammar.ruleId?, ruleId?, hrules, List.findIdx?_toArray]
  exact congrArg _ hlist

theorem filed_build : Filed d (tables g) { choices := g.rules.toList.map (·.body) } := by
  obtain ⟨rs, hnum, hrules, -, -⟩ := exists_of_build h
  have hfiled := (keeps_filed d).numberRules d.rules (filed_empty d) hnum
  rw [hrules]
  exact hfiled

theorem start_build : some (g.rule g.start).name = d.start.or (d.rules.head?.map (·.1)) := by
  obtain ⟨-, -, -, hne, hstart⟩ := exists_of_build h
  unfold startId at hstart
  split at hstart
  · next hnone =>
    rw [hnone, Option.none_or, ← Except.ok.inj hstart]
    rcases hd : d.rules with _ | ⟨⟨name, body⟩, rules⟩
    · exact absurd hd hne
    · have hfirst : d.rules[0]? = some (name, body) := by rw [hd]; rfl
      rw [name_rule h hfirst]
      rfl
  · next name hsome =>
    split at hstart
    · cases hstart
    · next r hr =>
      rw [hsome, ← Except.ok.inj hstart, name_of_ruleId? h hr, Option.some_or]

/-- A symbol of the tables is bound by its text or stands for a bracketed choice. -/
theorem symbol_cases {x : SymbolId} (hx : x.index < g.symbols.size) :
    Named d (g.symbol x) ∨ ∃ c, Bracket c (g.symbol x) := by
  refine (filed_build h).origin _ ?_
  have hat : (tables g).symbols[x.index]? = some _ := Array.getElem?_eq_getElem hx
  rw [symbol_of_tables hat]
  exact Array.mem_toList_iff.2 (Array.getElem_mem hx)

/-- A rule is found by its name. -/
theorem resolved_build {x : SymbolId} {r : RuleId} (hr : (g.symbol x).kind = .rule r) :
    g.ruleId? (g.rule r).name = some r := by
  by_cases hx : x.index < g.symbols.size
  · rcases symbol_cases h hx with hnamed | ⟨c, hbr⟩
    · generalize g.symbol x = y at hr hnamed
      cases hnamed with
      | literal | category => cases hr
      | rule hid =>
        cases hr
        rw [name_of_ruleId? h hid, ruleId?_build h, hid]
    · generalize g.symbol x = y at hr hbr
      cases hbr <;> cases hr
  · simp [Grammar.symbol, hx] at hr
    cases hr

/-- A bracketed choice and all it holds are numbered before the slot it stands in. -/
theorem nested_build {c : ChoiceId} {b : BranchId} (hb : b ∈ g.branchIds c) {s : SlotId}
    (hs : s ∈ g.slotIds b) {inner : ChoiceId}
    (hi : (g.symbol (g.slot s).symbol).kind.bracketed? = some inner) : inner.index < c.index ∧
      ∀ b' ∈ g.branchIds inner, b'.index < b.index ∧ ∀ s' ∈ g.slotIds b',
        s'.index < s.index ∧ (g.slot s').symbol.index < (g.slot s).symbol.index := by
  have hwf := wellFormed_build h
  have hfiled := filed_build h
  have hrow : g.slotIds b ∈ g.branchesOf c := List.mem_map_of_mem hb
  have hlt : ∀ {c' b' s'}, b' ∈ g.branchIds c' → s' ∈ g.slotIds b' → s'.index < g.slots.size :=
    fun hb' hs' => hwf.slot _ _ (List.mem_map_of_mem hb') _ hs'
  have hown := hwf.symbol s (hlt hb hs)
  have hsymbol : (tables g).symbols[s.index]? = some (g.symbol ⟨s.index⟩) := by
    have hsize : s.index < (tables g).symbols.size := hfiled.size_eq ▸ hlt hb hs
    rw [Array.getElem?_eq_getElem hsize, symbol_of_tables (Array.getElem?_eq_getElem hsize)]
  have hchoice := tables_choices (hwf.bracketed _ _ hi)
  rw [hown] at hi
  refine ⟨hwf.nested c _ hrow s hs inner (hown ▸ hi), fun b' hb' => ⟨?_, fun s' hs' => ?_⟩⟩
  · exact hfiled.apart _ _ (tables_branches hs) s hs _ inner hsymbol hi _ hchoice b' hb'
  · have hbelow := hfiled.below _ _ inner hsymbol hi _ hchoice b' hb' _ (tables_branches hs') s' hs'
    rw [hown, hwf.symbol s' (hlt hb' hs')]
    exact ⟨hbelow, hbelow⟩

theorem renders_build : g.Renders d where
  names := names_build h
  bodies := by
    obtain ⟨rs, hnum, hrules, -, -⟩ := exists_of_build h
    rw [hrules]
    exact numberRules_reads (fun _ _ => name_of_ruleId? h) d.rules (sound_empty _) hnum (.refl _)
  start := start_build h
  resolved _ _ hr := resolved_build h hr
  role x hx := by
    rcases symbol_cases h hx with hx | ⟨c, hx⟩
    · obtain ⟨text, ht, hrole, -⟩ := hx.labels fun _ _ => name_of_ruleId? h
      rw [ht, hrole, Option.bind_some, role?, lookup_reverse]
    · have hlabels := hx.labels (g := g)
      rw [hlabels.1, hlabels.2.1, Option.bind_none]
  tag x hx := by
    rcases symbol_cases h hx with hx | ⟨c, hx⟩
    · obtain ⟨text, ht, -, htag⟩ := hx.labels fun _ _ => name_of_ruleId? h
      rw [ht, htag, Option.bind_some, tag, lookup_reverse]
    · have hlabels := hx.labels (g := g)
      rw [hlabels.1, hlabels.2.2, Option.bind_none, Option.getD_none]
  choices := (filed_build h).choices
  branches := (filed_build h).branches
  slots := (filed_build h).slots
  symbols := (filed_build h).symbols
  nested _ _ hb _ hs _ hi := nested_build h hb hs hi

end Built

/-- Building a definition succeeds iff the definition is sensible, fails with its first fault
otherwise, and gives tables that say what the definition says. -/
theorem build_faithful (d : Definition) : ((∃ g, d.build = .ok g) ↔ d.Sensible) ∧
    (∀ e, d.build = .error e ↔ d.faults.head? = some e) ∧
      ∀ g, d.build = .ok g → g.Renders d := by
  refine ⟨?_, fun e => ?_, fun g h => renders_build h⟩
  · rw [← faults_eq_nil_iff]
    rcases d.build_cases with ⟨hnil, hok⟩ | ⟨e, he, herr⟩
    · exact ⟨fun _ => hnil, fun _ => hok⟩
    · refine ⟨fun ⟨g, hg⟩ => ?_, fun hnil => ?_⟩
      · rw [herr] at hg
        cases hg
      · rw [hnil] at he
        cases he
  · rcases d.build_cases with ⟨hnil, g, hg⟩ | ⟨e', he, herr⟩
    · rw [hnil, hg]
      exact ⟨nofun, nofun⟩
    · rw [he, herr, Except.error.injEq, Option.some.injEq]

/-- Two rules with brackets in brackets; a role and a tag are bound twice. -/
def nestedBrackets : Definition where
  rules := [
    ("list", [[.literal "(" .once, .option [[.rule "item" .once,
      .group [[.literal "," .once, .rule "item" .once], [.category "NEWLINE" .plus]] .star]] .once,
      .literal ")" .once]]),
    ("item", [[.category "name" .once], [.rule "list" .once]])]
  roles := [("name", .number), ("NEWLINE", .newline), ("name", .name)]
  tags := [("(", ⟨"open", 0xFF000000, 1⟩), ("(", ⟨"bracket", 0xFF000000, 2⟩)]
  start := some "item"

/-- A reference to no rule in brackets stands before an empty group. -/
def twoFaults : Definition where
  rules := [("line", [[.option [[.literal "a" .once, .rule "gap" .star]] .once, .group [] .once]])]

theorem build_faithful_nestedBrackets :
    (∃ g, nestedBrackets.build = .ok g ∧ g.Renders nestedBrackets) ∧
    twoFaults.build = .error (.unknownRule "line" "gap") := by
  have hok : nestedBrackets.build = .ok _ := build_eq_ok (by decide +kernel)
  exact ⟨⟨_, hok, (build_faithful nestedBrackets).2.2 _ hok⟩,
    ((build_faithful twoFaults).2.1 _).2 (by decide +kernel)⟩

end Definition

end Cloze.Grammar
