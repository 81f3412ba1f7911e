import Cloze.Proofs.Links

/-!
# The moves of growth

Laying out a choice, making a gap and expanding a reference each grow a draft (`Grows`) and keep
it linked (`Linked`). The numbers a new choice gives to its slots are those under which its fresh
slots are found (`numberSlots_shapes`, `itemAt?_numberSlots`, `itemAt?_of_fresh`).
-/

namespace Cloze.Draft

/-! ### Numbered slots -/

/-- The fresh slots of branches counted on from `k`. -/
def freshFrom (c : ChoiceId) (k : Nat) (branches : List (List Grammar.SlotId)) : List Slot :=
  (branches.zipIdx k).flatMap fun (branch, b) =>
    branch.zipIdx.map fun (shape, position) => { shape, choice := c, branch := b, position }

/-- The fresh slots of one branch. -/
def freshRow (c : ChoiceId) (k : Nat) (branch : List Grammar.SlotId) : List Slot :=
  branch.zipIdx.map fun (shape, position) => { shape, choice := c, branch := k, position }

theorem freshFrom_cons (c : ChoiceId) (k : Nat) (branch : List Grammar.SlotId)
    (branches : List (List Grammar.SlotId)) :
    freshFrom c k (branch :: branches) = freshRow c k branch ++ freshFrom c (k + 1) branches := by
  simp [freshFrom, freshRow, List.zipIdx_cons]

theorem length_freshRow (c : ChoiceId) (k : Nat) (branch : List Grammar.SlotId) :
    (freshRow c k branch).length = branch.length := by
  simp [freshRow]

theorem getElem?_freshRow (c : ChoiceId) (k : Nat) (branch : List Grammar.SlotId) (j : Nat) :
    (freshRow c k branch)[j]?
      = branch[j]?.map fun shape => { shape, choice := c, branch := k, position := j } := by
  simp only [freshRow, List.getElem?_map, List.getElem?_zipIdx]
  cases branch[j]? <;> simp

/-- The fresh slots stand in the table from the number `next` on. -/
def FoundAt (look : SlotId → Slot) (next : Nat) (fresh : List Slot) : Prop :=
  ∀ (i : Nat) s, fresh[i]? = some s → look ⟨next + i⟩ = s

theorem FoundAt.append {look : SlotId → Slot} {next : Nat} {a b : List Slot}
    (h : FoundAt look next (a ++ b)) : FoundAt look next a ∧ FoundAt look (next + a.length) b := by
  refine ⟨fun i s hi => h i s ?_, fun i s hi => ?_⟩
  · rw [List.getElem?_append_left (List.getElem?_eq_some_iff.1 hi).1, hi]
  · rw [Nat.add_assoc]
    refine h (a.length + i) s ?_
    rw [List.getElem?_append_right (Nat.le_add_right _ _), Nat.add_sub_cancel_left, hi]

/-- The numbered slots have the shapes they were made from. -/
theorem numberSlots_shapes (look : SlotId → Slot) (c : ChoiceId) :
    ∀ (branches : List (List Grammar.SlotId)) (next k : Nat),
      FoundAt look next (freshFrom c k branches) →
        (numberSlots next (branches.map List.length)).map (·.map fun s => (look s).shape) = branches
  | [], _, _, _ => rfl
  | branch :: branches, next, k, h => by
    rw [freshFrom_cons] at h
    obtain ⟨hrow, hrest⟩ := h.append
    rw [length_freshRow] at hrest
    simp only [List.map_cons, numberSlots]
    rw [numberSlots_shapes look c branches _ _ hrest]
    congr 1
    refine List.ext_getElem? fun j => ?_
    simp only [List.map_map, List.getElem?_map]
    rcases hj : branch[j]? with _ | shape
    · have : ¬ j < branch.length := by simpa using hj
      simp [this]
    · have hlt : j < branch.length := (List.getElem?_eq_some_iff.1 hj).1
      have := hrow j _ (by rw [getElem?_freshRow, hj]; rfl)
      simp [hlt, this]

/-- A numbered slot is one of the fresh slots, and knows where it stands. -/
theorem itemAt?_numberSlots (look : SlotId → Slot) (c : ChoiceId) :
    ∀ (branches : List (List Grammar.SlotId)) (next k : Nat),
      FoundAt look next (freshFrom c k branches) → ∀ {b j s},
        itemAt? (numberSlots next (branches.map List.length)) b j = some s →
          next ≤ s.index ∧ s.index < next + (freshFrom c k branches).length
            ∧ (look s).choice = c ∧ (look s).branch = k + b ∧ (look s).position = j
  | [], _, _, _, b, j, s, he => by simp [numberSlots, itemAt?] at he
  | branch :: branches, next, k, h, b, j, s, he => by
    rw [freshFrom_cons] at h ⊢
    obtain ⟨hrow, hrest⟩ := h.append
    rw [length_freshRow] at hrest
    rw [List.length_append, length_freshRow]
    cases b with
    | zero =>
      simp only [List.map_cons, numberSlots, itemAt?, List.getElem?_cons_zero, Option.bind_some,
        List.getElem?_map, Option.map_eq_some_iff] at he
      obtain ⟨i, hi, rfl⟩ := he
      obtain ⟨hlt, hi⟩ := List.getElem?_eq_some_iff.1 hi
      simp only [List.length_range', List.getElem_range', Nat.one_mul] at hlt hi
      subst hi
      have := hrow j _ (by rw [getElem?_freshRow, List.getElem?_eq_getElem hlt]; rfl)
      simp only [this, Nat.add_zero, and_true]
      omega
    | succ b =>
      simp only [List.map_cons, numberSlots, itemAt?, List.getElem?_cons_succ] at he
      obtain ⟨h1, h2, h3, h4, h5⟩ := itemAt?_numberSlots look c branches _ _ hrest he
      exact ⟨by omega, by omega, h3, by omega, h5⟩

/-- A fresh slot is found among the numbered ones where it says it stands. -/
theorem itemAt?_of_fresh (c : ChoiceId) :
    ∀ (branches : List (List Grammar.SlotId)) (next k : Nat) {i : Nat} {s : Slot},
      (freshFrom c k branches)[i]? = some s →
        k ≤ s.branch ∧ s.choice = c ∧ s.content = [] ∧ s.gap = none ∧
          itemAt? (numberSlots next (branches.map List.length)) (s.branch - k) s.position
            = some ⟨next + i⟩
  | [], _, _, i, s, h => by simp [freshFrom] at h
  | branch :: branches, next, k, i, s, h => by
    rw [freshFrom_cons] at h
    by_cases hi : i < branch.length
    · rw [List.getElem?_append_left (by rw [length_freshRow]; exact hi), getElem?_freshRow,
        List.getElem?_eq_getElem hi] at h
      cases h
      simp [numberSlots, itemAt?, hi]
    · rw [List.getElem?_append_right (by rw [length_freshRow]; omega), length_freshRow] at h
      obtain ⟨h1, h2, h3, h4, h5⟩ := itemAt?_of_fresh c branches (next + branch.length) (k + 1) h
      refine ⟨by omega, h2, h3, h4, ?_⟩
      obtain ⟨m, hm⟩ : ∃ m, s.branch - k = m + 1 := ⟨s.branch - k - 1, by omega⟩
      rw [show s.branch - (k + 1) = m by omega] at h5
      rw [hm, List.map_cons, numberSlots]
      simp only [itemAt?, List.getElem?_cons_succ] at h5 ⊢
      rw [h5]
      congr 2
      omega

/-! ### Look-ups -/

variable {d e : Draft}

theorem choice_of_not_has {c : ChoiceId} (h : ¬ d.HasChoice c) : d.choice c = default := by
  simp only [HasChoice, Nat.not_lt] at h
  simp [choice, Array.getD_eq_getD_getElem?, h]

theorem slot_of_not_has {s : SlotId} (h : ¬ d.HasSlot s) : d.slot s = default := by
  simp only [HasSlot, Nat.not_lt] at h
  simp [slot, Array.getD_eq_getD_getElem?, h]

theorem node_of_not_has {n : NodeId} (h : ¬ d.HasNode n) : d.node n = default := by
  simp only [HasNode, Nat.not_lt] at h
  simp [node, Array.getD_eq_getD_getElem?, h]

theorem hasNode_of_placed {n : NodeId} (h : (d.node n).placed = true) : d.HasNode n := by
  by_contra hn
  rw [node_of_not_has hn] at h
  cases h

theorem hasSlot_of_mem {s : SlotId} {n : NodeId} (h : n ∈ (d.slot s).content) : d.HasSlot s := by
  by_contra hs
  rw [slot_of_not_has hs] at h
  cases h

theorem hasChoice_of_itemAt? {c : ChoiceId} {k j : Nat} {s : SlotId}
    (h : itemAt? (d.choice c).branches k j = some s) : d.HasChoice c := by
  by_contra hc
  have : (d.choice c).branches = [] := by
    rw [choice_of_not_has hc]
    rfl
  simp [this, itemAt?] at h

/-- The shape of a slot is found in the grammar where the slot stands in its choice. -/
theorem Linked.itemAt?_shape (h : d.Linked) {c : ChoiceId} {k j : Nat} {s : SlotId}
    (hs : itemAt? (d.choice c).branches k j = some s) :
    itemAt? (d.grammar.branchesOf (d.choice c).shape) k j = some (d.slot s).shape := by
  rw [← (h.choice c (hasChoice_of_itemAt? hs)).shapes, itemAt?_map, hs]
  rfl

/-- Old parts that are kept and new parts that are blank make a draft that grew. -/
theorem Grows.of_parts (hg : e.grammar = d.grammar) (hset : e.settings = d.settings)
    (hcs : d.choices.size ≤ e.choices.size) (hss : d.slots.size ≤ e.slots.size)
    (hns : d.nodes.size ≤ e.nodes.size)
    (hc : ∀ c, d.HasChoice c → e.choice c = d.choice c)
    (hs : ∀ s, d.HasSlot s → ∃ g, e.slot s = { d.slot s with gap := g })
    (hn : ∀ n, d.HasNode n → ∃ b, e.node n = { d.node n with body := b } ∧
      (b = (d.node n).body ∨ ∃ r c, (d.node n).body = .rule r none ∧ b = .rule r (some c)))
    (hc' : ∀ c, ¬ d.HasChoice c → (e.choice c).chosen = none)
    (hs' : ∀ s, ¬ d.HasSlot s → (e.slot s).content = [])
    (hn' : ∀ n, ¬ d.HasNode n → (e.node n).placed = false) : Grows d e := by
  refine ⟨hg, hset, hcs, hss, hns, hc, hs, hn, fun c => ?_, fun s => ?_, fun n => ?_⟩
  · by_cases h : d.HasChoice c
    · rw [hc c h]
    · rw [hc' c h, choice_of_not_has h]
      rfl
  · by_cases h : d.HasSlot s
    · obtain ⟨g, hg⟩ := hs s h
      rw [hg]
    · rw [hs' s h, slot_of_not_has h]
      rfl
  · by_cases h : d.HasNode n
    · obtain ⟨b, hb, -⟩ := hn n h
      rw [hb]
    · rw [hn' n h, node_of_not_has h]
      rfl

section WithChoice

variable (shape : Grammar.ChoiceId) (holder : Option NodeId) (rule : Grammar.RuleId) (depth : Nat)

theorem choice_withChoice_of_has {c : ChoiceId} (h : d.HasChoice c) :
    (d.withChoice shape holder rule depth).choice c = d.choice c := by
  have h' : c.index < d.choices.size := h
  simp [withChoice, choice, Array.getD_eq_getD_getElem?, Array.getElem?_push_lt, h']

theorem choice_withChoice_new :
    (d.withChoice shape holder rule depth).choice ⟨d.choices.size⟩ =
      { shape, holder, rule, depth,
        branches := numberSlots d.slots.size ((d.grammar.branchesOf shape).map List.length),
        chosen := none } := by
  simp [withChoice, choice, Array.getD_eq_getD_getElem?]

theorem slot_withChoice_of_has {s : SlotId} (h : d.HasSlot s) :
    (d.withChoice shape holder rule depth).slot s = d.slot s := by
  have h' : s.index < d.slots.size := h
  simp [withChoice, slot, Array.getD_eq_getD_getElem?, Array.getElem?_append_left, h']

theorem slot_withChoice (i : Nat) :
    (d.withChoice shape holder rule depth).slot ⟨d.slots.size + i⟩ =
      ((freshFrom ⟨d.choices.size⟩ 0 (d.grammar.branchesOf shape))[i]?).getD default := by
  simp only [withChoice, slot, Array.getD_eq_getD_getElem?]
  rw [Array.getElem?_append_right (Nat.le_add_right _ _), Nat.add_sub_cancel_left,
    List.getElem?_toArray]
  rfl

theorem slots_withChoice_size : (d.withChoice shape holder rule depth).slots.size =
    d.slots.size + (freshFrom ⟨d.choices.size⟩ 0 (d.grammar.branchesOf shape)).length := by
  simp [withChoice, freshSlots, freshFrom]

end WithChoice

/-- In `e` stand the parts of `d` with one more choice. -/
structure Lays (d e : Draft) (shape : Grammar.ChoiceId) (holder : Option NodeId)
    (rule : Grammar.RuleId) (depth : Nat) : Prop where
  grammar : e.grammar = d.grammar
  settings : e.settings = d.settings
  choices : e.choices.size = d.choices.size + 1
  slots : e.slots.size = (d.withChoice shape holder rule depth).slots.size
  choice : ∀ c, e.choice c = (d.withChoice shape holder rule depth).choice c
  slot : ∀ s, ¬ d.HasSlot s → e.slot s = (d.withChoice shape holder rule depth).slot s

namespace Lays

variable {shape : Grammar.ChoiceId} {holder : Option NodeId} {rule : Grammar.RuleId} {depth : Nat}

theorem eq_new (h : Lays d e shape holder rule depth) {c : ChoiceId} (hd : ¬ d.HasChoice c)
    (he : e.HasChoice c) : c = ⟨d.choices.size⟩ := by
  obtain ⟨i⟩ := c
  simp only [HasChoice, h.choices] at hd he
  congr 1
  omega

theorem foundAt (h : Lays d e shape holder rule depth) :
    FoundAt e.slot d.slots.size (freshFrom ⟨d.choices.size⟩ 0 (d.grammar.branchesOf shape)) := by
  intro i s hi
  rw [h.slot _ (by simp [HasSlot]), slot_withChoice, hi]
  rfl

theorem choice_new (h : Lays d e shape holder rule depth) :
    e.choice ⟨d.choices.size⟩ =
      { shape, holder, rule, depth,
        branches := numberSlots d.slots.size ((d.grammar.branchesOf shape).map List.length),
        chosen := none } := by
  rw [h.choice, choice_withChoice_new]

/-- A slot that is new is one of the fresh ones. -/
theorem exists_fresh (h : Lays d e shape holder rule depth) {s : SlotId} (hd : ¬ d.HasSlot s)
    (he : e.HasSlot s) : ∃ i, s = ⟨d.slots.size + i⟩ ∧
      (freshFrom ⟨d.choices.size⟩ 0 (d.grammar.branchesOf shape))[i]? = some (e.slot s) := by
  obtain ⟨j⟩ := s
  simp only [HasSlot, h.slots, slots_withChoice_size, Nat.not_lt] at hd he
  obtain ⟨i, rfl⟩ := Nat.exists_eq_add_of_le hd
  have hi : (freshFrom ⟨d.choices.size⟩ 0 (d.grammar.branchesOf shape))[i]? = some _ :=
    List.getElem?_eq_getElem (by omega)
  exact ⟨i, rfl, by rw [hi, h.foundAt i _ hi]⟩

theorem choiceLinked (h : Lays d e shape holder rule depth) (hlt : shape.index < d.grammar.choices.size)
    (hrule : rule.index < d.grammar.rules.size) (hdepth : depth ≤ d.settings.recursionLimit)
    (hh : ∀ m, holder = some m → e.HasNode m ∧ e.inner? m = some ⟨d.choices.size⟩)
    (hr : holder = none → d.choices.size = 0) {c : ChoiceId} (hd : ¬ d.HasChoice c)
    (he : e.HasChoice c) : e.ChoiceLinked c := by
  obtain rfl := h.eq_new hd he
  refine ⟨?_, ?_, ?_, fun k j s hk => ?_, ?_, fun m hm => ?_, fun hm => ?_⟩ <;>
    simp only [h.choice_new, h.grammar, h.settings] at *
  · exact hlt
  · exact hrule
  · exact numberSlots_shapes e.slot ⟨d.choices.size⟩ _ _ 0 h.foundAt
  · obtain ⟨h1, h2, h3, h4, h5⟩ := itemAt?_numberSlots e.slot ⟨d.choices.size⟩ _ _ 0 h.foundAt hk
    refine ⟨?_, h3, by omega, h5⟩
    rw [HasSlot, h.slots, slots_withChoice_size]
    exact h2
  · exact hdepth
  · exact hh m hm
  · rw [hr hm]

theorem slotLinked (h : Lays d e shape holder rule depth) {s : SlotId} (hd : ¬ d.HasSlot s)
    (he : e.HasSlot s) : e.SlotLinked s := by
  obtain ⟨i, rfl, hi⟩ := h.exists_fresh hd he
  obtain ⟨-, hc, -, -, hentry⟩ := itemAt?_of_fresh _ _ d.slots.size 0 hi
  refine ⟨?_, ?_⟩
  · rw [hc, HasChoice, h.choices]
    exact Nat.lt_succ_self _
  · rw [hc, h.choice_new]
    exact hentry

theorem chosen_new (h : Lays d e shape holder rule depth) (c : ChoiceId) (hd : ¬ d.HasChoice c) :
    (e.choice c).chosen = none := by
  by_cases he : e.HasChoice c
  · obtain rfl := h.eq_new hd he
    rw [h.choice_new]
  · rw [choice_of_not_has he]
    rfl

theorem slot_new (h : Lays d e shape holder rule depth) (s : SlotId) (hd : ¬ d.HasSlot s) :
    (e.slot s).content = [] ∧ (e.slot s).gap = none := by
  by_cases he : e.HasSlot s
  · obtain ⟨i, -, hi⟩ := h.exists_fresh hd he
    obtain ⟨-, -, h1, h2, -⟩ := itemAt?_of_fresh _ _ d.slots.size 0 hi
    exact ⟨h1, h2⟩
  · rw [slot_of_not_has he]
    exact ⟨rfl, rfl⟩

end Lays

/-! ### The empty draft -/

theorem lays_start (g : Grammar) (settings : Settings) (u : List Grammar.SymbolId) :
    Lays ⟨g, settings, u, #[], #[], #[]⟩ (start g settings u) (g.rule g.start).body none g.start 0 :=
  ⟨rfl, rfl, rfl, rfl, fun _ => rfl, fun _ _ => rfl⟩

theorem linked_start {g : Grammar} (hg : g.WellFormed) (settings : Settings)
    (u : List Grammar.SymbolId) : (start g settings u).Linked := by
  have hl := lays_start g settings u
  have hroot : (start g settings u).root = _ := hl.choice_new
  have hnone : ∀ n, ¬ (start g settings u).HasNode n := fun n hn => by
    simp [HasNode, start, withChoice] at hn
  refine ⟨hg, ?_, by rw [hroot], by rw [hroot]; rfl, by rw [hroot]; rfl, by rw [hroot],
    fun c hc => ?_, fun s hs => ?_,
    fun n hn => absurd hn (hnone n), fun n _ hn => absurd hn (hnone n), fun s n hn => ?_⟩
  · simp [HasChoice, start, withChoice]
  · exact hl.choiceLinked (hg.body _ hg.start) hg.start (Nat.zero_le _) (by simp) (fun _ => rfl)
      (by simp [HasChoice]) hc
  · exact hl.slotLinked (by simp [HasSlot]) hs
  · rw [(hl.slot_new s (by simp [HasSlot])).2] at hn
    cases hn

/-! ### Gaps -/

/-- The draft with one more node, which is the gap of a slot. -/
def seat (d : Draft) (s : SlotId) (node : Node) : Draft :=
  { d with
    nodes := d.nodes.push node
    slots := d.slots.modify s.index fun slot => { slot with gap := some ⟨d.nodes.size⟩ } }

theorem node_seat_of_has {n : NodeId} {s : SlotId} {node : Node} (h : d.HasNode n) :
    (d.seat s node).node n = d.node n := by
  have h' : n.index < d.nodes.size := h
  simp [seat, Draft.node, Array.getD_eq_getD_getElem?, Array.getElem?_push_lt, h']

theorem node_seat_new {s : SlotId} {node : Node} :
    (d.seat s node).node ⟨d.nodes.size⟩ = node := by
  simp [seat, Draft.node, Array.getD_eq_getD_getElem?]

theorem slot_seat {s t : SlotId} {node : Node} :
    (d.seat s node).slot t =
      if s = t ∧ d.HasSlot t then { d.slot t with gap := some ⟨d.nodes.size⟩ } else d.slot t :=
  slot_modifySlot d s t _

theorem hasNode_seat {n : NodeId} {s : SlotId} {node : Node} :
    (d.seat s node).HasNode n ↔ d.HasNode n ∨ n = ⟨d.nodes.size⟩ := by
  obtain ⟨i⟩ := n
  simp only [seat, HasNode, Array.size_push, NodeId.mk.injEq]
  omega

/-- The three ways a gap is made: for a leaf, for a reference, and for a bracketed choice. -/
theorem withGap_cases (d : Draft) (s : SlotId) (p : Nat) : ∃ base body,
    d.withGap s p = base.seat s ⟨d.slotSymbol s, s, p, false, body, none⟩ ∧
    base.nodes = d.nodes ∧
    (((d.grammar.symbol (d.slotSymbol s)).isNode = false ∧ base = d ∧ body = .leaf none) ∨
      (∃ r, (d.grammar.symbol (d.slotSymbol s)).kind = .rule r ∧ base = d ∧ body = .rule r none) ∨
      ∃ b, (d.grammar.symbol (d.slotSymbol s)).kind.bracketed? = some b ∧
        base = d.withChoice b (some ⟨d.nodes.size⟩) (d.choice (d.slot s).choice).rule
          (d.choice (d.slot s).choice).depth ∧ body = .group ⟨d.choices.size⟩) := by
  unfold Grammar.Symbol.isNode
  rcases hk : (d.grammar.symbol (d.slotSymbol s)).kind with t | t | r | b | b <;>
    simp only [withGap, hk]
  · exact ⟨d, _, rfl, rfl, Or.inl ⟨trivial, rfl, rfl⟩⟩
  · exact ⟨d, _, rfl, rfl, Or.inl ⟨trivial, rfl, rfl⟩⟩
  · exact ⟨d, _, rfl, rfl, Or.inr (Or.inl ⟨r, rfl, rfl, rfl⟩)⟩
  · exact ⟨_, _, rfl, rfl, Or.inr (Or.inr ⟨b, rfl, rfl, rfl⟩)⟩
  · exact ⟨_, _, rfl, rfl, Or.inr (Or.inr ⟨b, rfl, rfl, rfl⟩)⟩

theorem grows_seat (d : Draft) (s : SlotId) (node : Node) (hp : node.placed = false) :
    Grows d (d.seat s node) := by
  refine Grows.of_parts rfl rfl (Nat.le_refl _) (by simp [seat]) (by simp [seat])
    (fun _ _ => rfl) (fun t _ => ?_) (fun n hn => ⟨_, by rw [node_seat_of_has hn], Or.inl rfl⟩)
    (fun c hc => ?_) (fun t ht => ?_) (fun n hn => ?_)
  · rw [slot_seat]
    split
    · exact ⟨_, rfl⟩
    · exact ⟨_, rfl⟩
  · exact congrArg Choice.chosen (choice_of_not_has hc)
  · rw [slot_seat, if_neg (fun h => ht h.2), slot_of_not_has ht]
    rfl
  · by_cases hn' : (d.seat s node).HasNode n
    · rcases hasNode_seat.1 hn' with h | rfl
      · exact absurd h hn
      · rw [node_seat_new, hp]
    · rw [node_of_not_has hn']
      rfl

theorem grows_withChoice (d : Draft) (shape : Grammar.ChoiceId) (holder : Option NodeId)
    (rule : Grammar.RuleId) (depth : Nat) : Grows d (d.withChoice shape holder rule depth) := by
  have hl : Lays d (d.withChoice shape holder rule depth) shape holder rule depth :=
    ⟨rfl, rfl, by simp [withChoice], rfl, fun _ => rfl, fun _ _ => rfl⟩
  exact Grows.of_parts rfl rfl (by simp [withChoice]) (by simp [withChoice]) (Nat.le_refl _)
    (fun c hc => choice_withChoice_of_has _ _ _ _ hc)
    (fun s hs => ⟨_, by rw [slot_withChoice_of_has _ _ _ _ hs]⟩)
    (fun _ _ => ⟨_, rfl, Or.inl rfl⟩) hl.chosen_new (fun s hs => (hl.slot_new s hs).1)
    (fun n hn => congrArg Node.placed (node_of_not_has hn))

theorem lays_withChoice (d : Draft) (shape : Grammar.ChoiceId) (holder : Option NodeId)
    (rule : Grammar.RuleId) (depth : Nat) :
    Lays d (d.withChoice shape holder rule depth) shape holder rule depth :=
  ⟨rfl, rfl, by simp [withChoice], rfl, fun _ => rfl, fun _ _ => rfl⟩

/-- The gap of an old slot leaves what was laid out as it is. -/
theorem Lays.seat {shape : Grammar.ChoiceId} {holder : Option NodeId} {rule : Grammar.RuleId}
    {depth : Nat} (h : Lays d e shape holder rule depth) {s : SlotId} (hs : d.HasSlot s)
    (node : Node) : Lays d (e.seat s node) shape holder rule depth where
  grammar := h.grammar
  settings := h.settings
  choices := h.choices
  slots := by
    rw [← h.slots]
    simp [Draft.seat]
  choice := h.choice
  slot := fun t ht => by
    rw [slot_seat, if_neg, h.slot t ht]
    rintro ⟨rfl, -⟩
    exact ht hs

theorem grows_withGap (d : Draft) (s : SlotId) (p : Nat) : Grows d (d.withGap s p) := by
  obtain ⟨base, body, heq, -, hor⟩ := d.withGap_cases s p
  rw [heq]
  rcases hor with ⟨-, rfl, -⟩ | ⟨r, -, rfl, -⟩ | ⟨b, -, rfl, -⟩
  · exact grows_seat _ _ _ rfl
  · exact grows_seat _ _ _ rfl
  · exact (grows_withChoice d _ _ _ _).trans (grows_seat _ _ _ rfl)

section WithGap

variable (d) (s : SlotId) (p : Nat)

/-- The node of a new gap, by the kind of symbol its slot asks for. -/
theorem node_withGap_new : ∃ body,
    (d.withGap s p).node ⟨d.nodes.size⟩ = ⟨d.slotSymbol s, s, p, false, body, none⟩ ∧
    (((d.grammar.symbol (d.slotSymbol s)).isNode = false ∧ body = .leaf none) ∨
      (∃ r, (d.grammar.symbol (d.slotSymbol s)).kind = .rule r ∧ body = .rule r none) ∨
      ∃ b, (d.grammar.symbol (d.slotSymbol s)).kind.bracketed? = some b
        ∧ body = .group ⟨d.choices.size⟩) := by
  obtain ⟨base, body, heq, hn, hor⟩ := d.withGap_cases s p
  refine ⟨body, by rw [heq, ← hn]; exact node_seat_new, ?_⟩
  rcases hor with ⟨h, -, hb⟩ | ⟨r, h, -, hb⟩ | ⟨b, h, -, hb⟩
  · exact Or.inl ⟨h, hb⟩
  · exact Or.inr (Or.inl ⟨r, h, hb⟩)
  · exact Or.inr (Or.inr ⟨b, h, hb⟩)

theorem hasNode_withGap {n : NodeId} :
    (d.withGap s p).HasNode n ↔ d.HasNode n ∨ n = ⟨d.nodes.size⟩ := by
  obtain ⟨base, body, heq, hn, -⟩ := d.withGap_cases s p
  rw [heq, hasNode_seat, hn, HasNode, HasNode, hn]

theorem node_withGap_of_has {n : NodeId} (h : d.HasNode n) :
    (d.withGap s p).node n = d.node n := by
  obtain ⟨base, body, heq, hn, -⟩ := d.withGap_cases s p
  rw [heq, node_seat_of_has (by rwa [HasNode, hn]), Draft.node, hn]
  rfl

/-- A gap for a bracketed symbol lays out the choice it encloses. -/
theorem lays_withGap (hs : d.HasSlot s) {b : Grammar.ChoiceId}
    (hb : (d.grammar.symbol (d.slotSymbol s)).kind.bracketed? = some b) :
    Lays d (d.withGap s p) b (some ⟨d.nodes.size⟩) (d.choice (d.slot s).choice).rule
      (d.choice (d.slot s).choice).depth := by
  obtain ⟨base, body, heq, -, ⟨hx, -, -⟩ | ⟨r, hx, -, -⟩ | ⟨b', hb', rfl, -⟩⟩ :=
    d.withGap_cases s p
  · rw [(Grammar.of_bracketed hb d.grammar).1] at hx
    cases hx
  · rw [hx] at hb
    cases hb
  · obtain rfl : b = b' := by simpa [hb] using hb'
    rw [heq]
    exact (d.lays_withChoice b _ _ _).seat hs _

/-- A gap for any other symbol lays out no choice. -/
theorem withGap_size_of_plain
    (hb : (d.grammar.symbol (d.slotSymbol s)).kind.bracketed? = none) :
    (d.withGap s p).choices.size = d.choices.size ∧ (d.withGap s p).slots.size = d.slots.size := by
  obtain ⟨base, body, heq, -, ⟨-, rfl, -⟩ | ⟨r, -, rfl, -⟩ | ⟨b', hb', -, -⟩⟩ :=
    d.withGap_cases s p
  · exact ⟨by rw [heq]; rfl, by rw [heq]; simp [seat]⟩
  · exact ⟨by rw [heq]; rfl, by rw [heq]; simp [seat]⟩
  · rw [hb] at hb'
    cases hb'

/-- The gap of a slot is the new one or the one it had. -/
theorem gap_withGap {t : SlotId} {n : NodeId} (hn : ((d.withGap s p).slot t).gap = some n) :
    (n = ⟨d.nodes.size⟩ ∧ t = s) ∨ (d.slot t).gap = some n := by
  obtain ⟨base, body, heq, hnodes, hor⟩ := d.withGap_cases s p
  have hbase : (base.slot t).gap = some n → (d.slot t).gap = some n := by
    intro h
    rcases hor with ⟨-, rfl, -⟩ | ⟨r, -, rfl, -⟩ | ⟨b, -, rfl, -⟩
    · exact h
    · exact h
    · by_cases ht : d.HasSlot t
      · rwa [slot_withChoice_of_has _ _ _ _ ht] at h
      · rw [((d.lays_withChoice _ _ _ _).slot_new t ht).2] at h
        cases h
  rw [heq, slot_seat] at hn
  split at hn
  · rename_i hst
    cases hn
    exact Or.inl ⟨by rw [hnodes], hst.1.symm⟩
  · exact Or.inr (hbase hn)

end WithGap

theorem linked_withGap (h : d.Linked) {s : SlotId} (hs : d.HasSlot s) (p : Nat) :
    (d.withGap s p).Linked := by
  have hg := grows_withGap d s p
  have hc := (h.slot s hs).choice
  obtain ⟨body, hnew, hor⟩ := d.node_withGap_new s p
  have hhas : (d.withGap s p).HasNode ⟨d.nodes.size⟩ := (d.hasNode_withGap s p).2 (Or.inr rfl)
  have haround : (d.withGap s p).choiceAround ⟨d.nodes.size⟩ = (d.slot s).choice := by
    simp only [choiceAround, hnew, (hg.slot_eq hs).2.1]
  have hsym : (d.withGap s p).symbol ⟨d.nodes.size⟩ = d.grammar.symbol (d.slotSymbol s) := by
    simp only [Draft.symbol, hnew, hg.grammar]
  have hgroup : ∀ b, (d.grammar.symbol (d.slotSymbol s)).kind.bracketed? = some b →
      body = .group ⟨d.choices.size⟩ := by
    intro b hb
    rcases hor with ⟨hx, -⟩ | ⟨r, hx, -⟩ | ⟨b', -, hb'⟩
    · rw [(Grammar.of_bracketed hb d.grammar).1] at hx
      cases hx
    · rw [hx] at hb
      cases hb
    · exact hb'
  refine h.of_grows hg (fun c hdc hec => ?_) (fun t hdt het => ?_) (fun n hdn hen => ?_)
    (fun n c hen hec hnot => ?_) (fun t n hn => ?_)
  · rcases hb : (d.grammar.symbol (d.slotSymbol s)).kind.bracketed? with _ | b
    · exact absurd (by rwa [HasChoice, (d.withGap_size_of_plain s p hb).1] at hec) hdc
    · refine (d.lays_withGap s p hs hb).choiceLinked (h.grammar.bracketed _ b hb)
        (h.choice _ hc).rule_lt (h.choice _ hc).depth_le ?_ (by simp) hdc hec
      rintro m ⟨⟩
      exact ⟨hhas, by simp [inner?, hnew, hgroup b hb]⟩
  · rcases hb : (d.grammar.symbol (d.slotSymbol s)).kind.bracketed? with _ | b
    · exact absurd (by rwa [HasSlot, (d.withGap_size_of_plain s p hb).2] at het) hdt
    · exact (d.lays_withGap s p hs hb).slotLinked hdt het
  · obtain rfl := ((d.hasNode_withGap s p).1 hen).resolve_left hdn
    refine ⟨by rw [hnew]; exact hg.hasSlot hs, by rw [hnew]; exact (hg.slotSymbol hs).symm,
      fun m hm => ?_, fun hx => ?_, fun r hx => ?_, fun b hx => ?_⟩
    · rw [holder?, haround, hg.choice _ hc] at hm
      exact ((h.choice _ hc).holder m hm).1
    all_goals
      rw [hsym] at hx
      rw [hnew]
    · rcases hor with ⟨-, rfl⟩ | ⟨r, hr, -⟩ | ⟨b, hb, -⟩
      · exact ⟨_, rfl⟩
      · simp [Grammar.Symbol.isNode, hr] at hx
      · rw [(Grammar.of_bracketed hb d.grammar).1] at hx
        cases hx
    · rcases hor with ⟨hl, -⟩ | ⟨r, hr, rfl⟩ | ⟨b, hb, -⟩
      · simp [Grammar.Symbol.isNode, hx] at hl
      · rw [hx] at hr
        cases hr
        exact ⟨_, rfl⟩
      · rw [hx] at hb
        cases hb
    · exact ⟨_, hgroup b hx⟩
  · by_cases hdn : d.HasNode n
    · refine absurd ⟨hdn, ?_⟩ hnot
      rwa [inner?, d.node_withGap_of_has s p hdn] at hec
    · obtain rfl := ((d.hasNode_withGap s p).1 hen).resolve_left hdn
      rcases hor with ⟨-, rfl⟩ | ⟨r, -, rfl⟩ | ⟨b, hb, rfl⟩ <;>
        simp only [inner?, hnew] at hec <;> cases hec
      have hl := d.lays_withGap s p hs hb
      obtain ⟨-, href, hbody⟩ := Grammar.of_bracketed hb (d.withGap s p).grammar
      refine ⟨?_, by rw [hl.choice_new], ?_, ?_⟩
      · rw [HasChoice, hl.choices]
        exact Nat.lt_succ_self _
      · rw [hl.choice_new, hsym, hbody]
      · rw [hl.choice_new, haround, hg.choice _ hc, hsym, href]
        rfl
  · rcases d.gap_withGap s p hn with ⟨rfl, rfl⟩ | hn
    · exact ⟨hhas, by rw [hnew]⟩
    · obtain ⟨h1, h2⟩ := h.gap t n hn
      exact ⟨hg.hasNode h1, by rw [(hg.node_eq h1).2.1, h2]⟩

/-! ### Expansions -/

/-- Only references to a rule have the body of one. -/
theorem Linked.kind_eq_rule (h : d.Linked) {n : NodeId} (hn : d.HasNode n) {r : Grammar.RuleId}
    {c : Option ChoiceId} (hb : (d.node n).body = .rule r c) : (d.symbol n).kind = .rule r := by
  have hlinked := h.node n hn
  rcases hx : (d.symbol n).kind with t | t | r' | b | b
  · obtain ⟨t, ht⟩ := hlinked.leaf (by simp [Grammar.Symbol.isNode, hx])
    rw [hb] at ht
    cases ht
  · obtain ⟨t, ht⟩ := hlinked.leaf (by simp [Grammar.Symbol.isNode, hx])
    rw [hb] at ht
    cases ht
  · obtain ⟨c', hc⟩ := hlinked.rule r' hx
    rw [hb] at hc
    cases hc
    rfl
  · obtain ⟨c', hc⟩ := hlinked.group b (by rw [hx]; rfl)
    rw [hb] at hc
    cases hc
  · obtain ⟨c', hc⟩ := hlinked.group b (by rw [hx]; rfl)
    rw [hb] at hc
    cases hc

section Expansion

variable {n : NodeId} {r : Grammar.RuleId} {depth : Nat}

theorem node_withExpansion (m : NodeId) : (d.withExpansion n r depth).node m =
    if n = m ∧ d.HasNode m then { d.node m with body := .rule r (some ⟨d.choices.size⟩) }
    else d.node m := by
  rw [withExpansion, node_modifyNode]
  rfl

theorem lays_withExpansion : Lays d (d.withExpansion n r depth) (d.grammar.rule r).body (some n)
    r depth :=
  ⟨rfl, rfl, by simp [withExpansion, modifyNode, withChoice], rfl, fun _ => rfl, fun _ _ => rfl⟩

theorem hasNode_withExpansion {m : NodeId} :
    (d.withExpansion n r depth).HasNode m ↔ d.HasNode m := by
  simp [HasNode, withExpansion, modifyNode, withChoice]

theorem slot_withExpansion_of_has {s : SlotId} (hs : d.HasSlot s) :
    (d.withExpansion n r depth).slot s = d.slot s :=
  slot_withChoice_of_has (d.grammar.rule r).body (some n) r depth hs

theorem grows_withExpansion (hb : (d.node n).body = .rule r none) :
    Grows d (d.withExpansion n r depth) := by
  have hl : Lays d (d.withExpansion n r depth) _ (some n) r depth := lays_withExpansion
  refine Grows.of_parts rfl rfl (by rw [hl.choices]; omega)
    (by rw [hl.slots, slots_withChoice_size]; omega)
    (by simp [withExpansion, modifyNode, withChoice])
    (fun c hc => choice_withChoice_of_has _ _ _ _ hc)
    (fun s hs => ⟨_, slot_withExpansion_of_has hs⟩) (fun m hm => ?_) hl.chosen_new
    (fun s hs => (hl.slot_new s hs).1) (fun m hm => ?_)
  · rw [node_withExpansion]
    split
    · rename_i hnm
      obtain ⟨rfl, -⟩ := hnm
      exact ⟨_, rfl, Or.inr ⟨r, _, hb, rfl⟩⟩
    · exact ⟨_, rfl, Or.inl rfl⟩
  · rw [node_withExpansion, if_neg (fun h => hm h.2), node_of_not_has hm]
    rfl

theorem inner?_withExpansion (hn : d.HasNode n) :
    (d.withExpansion n r depth).inner? n = some ⟨d.choices.size⟩ := by
  rw [inner?, node_withExpansion, if_pos ⟨rfl, hn⟩]

theorem linked_withExpansion (h : d.Linked) (hn : d.HasNode n)
    (hb : (d.node n).body = .rule r none)
    (hdepth : depth = (d.choice (d.choiceAround n)).depth + 1)
    (hle : depth ≤ d.settings.recursionLimit) : (d.withExpansion n r depth).Linked := by
  have hg : Grows d (d.withExpansion n r depth) := grows_withExpansion hb
  have hl : Lays d (d.withExpansion n r depth) _ (some n) r depth := lays_withExpansion
  have hlinked := h.node n hn
  have hkind := h.kind_eq_rule hn hb
  refine h.of_grows hg (fun c hdc hec => ?_) (fun t hdt het => hl.slotLinked hdt het)
    (fun m hdm hem => absurd (hasNode_withExpansion.1 hem) hdm) (fun m c hem hec hnot => ?_)
    (fun t m hm => ?_)
  · have hr := h.grammar.rule _ r hkind
    refine hl.choiceLinked (h.grammar.body _ hr) hr hle ?_ (by simp) hdc hec
    rintro m ⟨⟩
    exact ⟨hasNode_withExpansion.2 hn, inner?_withExpansion hn⟩
  · have hdm := hasNode_withExpansion.1 hem
    by_cases hnm : n = m
    · subst hnm
      rw [inner?_withExpansion hn] at hec
      cases hec
      refine ⟨?_, by rw [hl.choice_new], ?_, ?_⟩
      · rw [HasChoice, hl.choices]
        exact Nat.lt_succ_self _
      · rw [hl.choice_new, hg.symbol hn, hkind]
        rfl
      · rw [hl.choice_new, hg.choiceAround hn hlinked.slot, hg.choice _ (h.hasChoice_around hn),
          hg.symbol hn]
        simp [Grammar.Symbol.isReference, hkind, hdepth]
    · refine absurd ⟨hdm, ?_⟩ hnot
      rwa [inner?, node_withExpansion, if_neg (fun hx => hnm hx.1)] at hec
  · have hm' : (d.slot t).gap = some m := by
      by_cases ht : d.HasSlot t
      · rwa [slot_withExpansion_of_has ht] at hm
      · rw [(hl.slot_new t ht).2] at hm
        cases hm
    obtain ⟨h1, h2⟩ := h.gap t m hm'
    exact ⟨hg.hasNode h1, by rw [(hg.node_eq h1).2.1, h2]⟩

end Expansion

end Cloze.Draft
