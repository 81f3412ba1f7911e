import Cloze.Draft.Walk
import Cloze.Proofs.Preorder

/-!
# Walks read the leaves

Around a placed node the leaves of a draft are those before it, those under it and those behind it.
A walk from leaf to leaf reads them: the leaf before a node is the last of those before it
(`leafBefore_eq`), the leaf behind a node is the first of those behind it (`leafAfter_eq`), and walks
from a placed leaf read all before it backwards (`walk_leafBefore`) or all behind it
(`walk_leafAfter`). Steps to the right from the first node of a choice read the choice
(`walk_right`), and steps to the left from any node read what stands before it there (`walk_left`).
-/

namespace Cloze.Draft

variable {d e : Draft} {n m x : NodeId}

/-! ### Leaves around a node -/

/-- The leaves read behind a node. -/
def behind (d : Draft) (n : NodeId) : List NodeId :=
  (d.lineage n).flatMap fun m => (d.rightOf m).flatMap d.under

theorem behind_of_top (hm : d.holder? n = none) : d.behind n = (d.rightOf n).flatMap d.under := by
  simp [behind, lineage_of_top hm]

theorem Linked.behind_of_holder (hl : d.Linked) (hn : d.HasNode n) (hm : d.holder? n = some m) :
    d.behind n = (d.rightOf n).flatMap d.under ++ d.behind m := by
  simp [behind, hl.lineage_of_holder hn hm]

/-- Around a placed node the leaves are those before, those under it and those behind. -/
theorem Sound.leaves_around (h : d.Sound) (hp : (d.node n).placed = true) :
    d.leaves = d.before n ++ d.under n ++ d.behind n := by
  have hn := hasNode_of_placed hp
  have hread : (d.contentOf (d.choiceAround n)).flatMap d.under
      = (d.leftOf n).flatMap d.under ++ d.under n ++ (d.rightOf n).flatMap d.under := by
    simp [h.settled.contentOf_of_placed h.linked hp]
  induction n, hn using h.linked.lineage_induction with
  | top n hn hm =>
    rw [h.linked.root_of_holder?_eq_none hn hm, ← leaves_eq] at hread
    rw [hread, before_of_top hm, behind_of_top hm]
  | up n k hn hk hh ih =>
    have hpk := h.placed_holder hp hh
    have hin := h.linked.inner?_holder hn hh
    have hunder : d.under k = (d.contentOf (d.choiceAround n)).flatMap d.under := by
      rw [h.settled.under_of_inner h.linked hk (isLeaf_of_inner? hin), children, hin]
    rw [ih hpk (by simp [h.settled.contentOf_of_placed h.linked hpk]), hunder, hread,
      h.linked.before_of_holder hn hh, h.linked.behind_of_holder hn hh]
    simp only [List.append_assoc]

/-- The leaves around a placed leaf. -/
theorem Sound.leaves_eq_around (h : d.Sound) (hp : (d.node n).placed = true)
    (hl : d.isLeaf n = true) : d.leaves = d.before n ++ n :: d.behind n := by
  rw [h.leaves_around hp, under_of_leaf (hasNode_of_placed hp) hl, List.append_assoc]
  rfl

theorem append_cons_inj_of_nodup {α : Type} {x : α} {xs ys xs' ys' : List α}
    (hn : (xs ++ x :: ys).Nodup) (h : xs ++ x :: ys = xs' ++ x :: ys') : xs = xs' ∧ ys = ys' := by
  have hb : x ∉ xs := fun hb => (List.nodup_append.1 hn).2.2 x hb x (by simp) rfl
  have ha : x ∉ ys := (List.nodup_cons.1 (List.nodup_append.1 hn).2.1).1
  obtain ⟨h1, -, h2⟩ := (List.append_cons_inj_of_notMem hb ha).1 h
  exact ⟨h1, h2⟩

/-- A place in the list of leaves tells what is read before and behind. -/
theorem Sound.around_of_leaves (h : d.Sound) {xs ys : List NodeId} (heq : d.leaves = xs ++ n :: ys) :
    d.before n = xs ∧ d.behind n = ys := by
  obtain ⟨hp, hl⟩ := h.mem_leaves.1 (by simp [heq] : n ∈ d.leaves)
  have hnodup := h.nodup_leaves
  rw [h.leaves_eq_around hp hl] at heq hnodup
  exact append_cons_inj_of_nodup hnodup heq

/-- A place in a choice tells what stands beside it. -/
theorem Sound.sides_of_contentOf (h : d.Sound) {c : ChoiceId} {xs ys : List NodeId}
    (heq : d.contentOf c = xs ++ n :: ys) : d.leftOf n = xs ∧ d.rightOf n = ys := by
  obtain ⟨hp, rfl⟩ := (h.settled.mem_contentOf h.linked).1 (by simp [heq] : n ∈ d.contentOf c)
  have hnodup := h.nodup_contentOf (d.choiceAround n)
  rw [h.settled.contentOf_of_placed h.linked hp] at heq hnodup
  exact append_cons_inj_of_nodup hnodup heq

/-! ### Steps -/

theorem Sound.left_eq (h : d.Sound) (hn : d.HasNode n) : d.left n = (d.leftOf n).getLast? := by
  have hle : (d.node n).position ≤ (d.slot (d.node n).slot).content.length := by
    rcases hp : (d.node n).placed with _ | _
    · exact h.settled.gap n hn hp
    · exact Nat.le_of_lt (h.settled.position_lt hp)
  have hbeside : (if (d.node n).position = 0 then none
      else (d.slot (d.node n).slot).content[(d.node n).position - 1]?)
      = ((d.slot (d.node n).slot).content.take (d.node n).position).getLast? := by
    rcases hpos : (d.node n).position with _ | p
    · rfl
    · rw [List.getLast?_take]
      simp only [Nat.add_one_ne_zero, if_false, Nat.add_sub_cancel]
      rw [List.getElem?_eq_getElem (by omega)]
      rfl
  simp only [left, hbeside, leftOf, List.getLast?_append, List.getLast?_flatMap,
    List.reverse_reverse]
  cases ((d.slot (d.node n).slot).content.take (d.node n).position).getLast? <;> rfl

theorem right_eq (d : Draft) (n : NodeId) : d.right n = (d.rightOf n).head? := by
  simp only [right, rightOf, List.head?_append, List.head?_drop, List.head?_flatMap]
  cases (d.slot (d.node n).slot).content[if (d.node n).placed then (d.node n).position + 1
    else (d.node n).position]? <;> rfl

/-- A way to pick one node of a list, at one of its ends. -/
structure Picks (pick : List NodeId → Option NodeId) : Prop where
  single : ∀ n, pick [n] = some n
  mem : ∀ {ns n}, pick ns = some n → n ∈ ns
  isSome : ∀ {ns}, ns ≠ [] → (pick ns).isSome
  flatMap : ∀ {ns} {f : NodeId → List NodeId}, (∀ n ∈ ns, f n ≠ []) →
    pick (ns.flatMap f) = (pick ns).bind fun n => pick (f n)

theorem picks_getLast? : Picks List.getLast? where
  single := fun _ => rfl
  mem := List.mem_of_getLast?
  isSome := fun hne => by simpa using hne
  flatMap := fun {ns f} h => by
    rcases List.eq_nil_or_concat ns with rfl | ⟨init, n, rfl⟩
    · rfl
    · obtain ⟨m, hm⟩ := Option.ne_none_iff_exists'.1 (mt List.getLast?_eq_none_iff.1 (h n (by simp)))
      simp [List.getLast?_flatMap, hm]

theorem picks_head? : Picks List.head? where
  single := fun _ => rfl
  mem := List.mem_of_head?
  isSome := fun hne => by simpa using hne
  flatMap := fun {ns f} h => by
    rcases ns with _ | ⟨n, ns⟩
    · rfl
    · obtain ⟨m, hm⟩ := Option.ne_none_iff_exists'.1 (mt List.head?_eq_none_iff.1 (h n (by simp)))
      simp [List.head?_flatMap, hm]

section Picks

variable {pick : List NodeId → Option NodeId} {step : NodeId → Option NodeId}

/-- Steps to a child at one end lead to the leaf at that end. -/
theorem Sound.descend_eq (h : d.Sound) (hpick : Picks pick)
    (hstep : ∀ n, step n = pick (d.children n)) : ∀ {bound : Nat} {n : NodeId},
    (d.node n).placed = true → d.nodes.size ≤ n.index + bound →
    d.descend step bound n = pick (d.under n)
  | 0, n, hp, hb => absurd (hasNode_of_placed hp) (Nat.not_lt.2 hb)
  | bound + 1, n, hp, hb => by
    have hn := hasNode_of_placed hp
    rw [descend]
    split
    · rename_i hl
      rw [under_of_leaf hn hl, hpick.single]
    · rename_i hl
      rw [Bool.not_eq_true] at hl
      rw [h.settled.under_of_inner h.linked hn hl,
        hpick.flatMap fun m hm => h.under_ne_nil (h.placed_children hp m hm), hstep]
      refine Option.bind_congr fun m hm => ?_
      obtain ⟨hpm, hh⟩ := (h.settled.mem_children h.linked hn).1 (hpick.mem hm)
      have hlt := h.linked.holder_lt (hasNode_of_placed hpm) hh
      exact h.descend_eq hpick hstep hpm (by omega)

theorem findSome?_bind_eq {α β γ : Type} {f : α → Option β} {g : β → Option γ}
    {k : α → Option γ} {xs : List α} (hs : ∀ x ∈ xs, ∀ y, f x = some y → (g y).isSome)
    (hk : ∀ x ∈ xs, (f x).bind g = k x) : (xs.findSome? f).bind g = xs.findSome? k := by
  induction xs with
  | nil => rfl
  | cons x xs ih =>
    obtain ⟨hx, hxs⟩ := List.forall_mem_cons.1 hs
    obtain ⟨hkx, hkxs⟩ := List.forall_mem_cons.1 hk
    simp only [List.findSome?_cons, ← hkx]
    rcases hf : f x with _ | y
    · exact ih hxs hkxs
    · obtain ⟨z, hz⟩ := Option.isSome_iff_exists.1 (hx y hf)
      simp [hz]

/-- On the way up, the first level with something on one side of it has the leaf nearest there. -/
theorem Sound.findSome?_descend (h : d.Sound) (hpick : Picks pick)
    (hstep : ∀ n, step n = pick (d.children n)) {beside : NodeId → Option NodeId}
    {side : NodeId → List NodeId} (hbeside : ∀ m ∈ d.lineage n, beside m = pick (side m))
    (hplaced : ∀ m ∈ d.lineage n, ∀ x ∈ side m, (d.node x).placed = true) :
    ((d.lineage n).findSome? beside).bind (d.descend step d.nodes.size)
      = (d.lineage n).findSome? fun m => pick ((side m).flatMap d.under) := by
  refine findSome?_bind_eq (fun m hm x hx => ?_) fun m hm => ?_
  · rw [hbeside m hm] at hx
    have hp := hplaced m hm x (hpick.mem hx)
    rw [h.descend_eq hpick hstep hp (Nat.le_add_left ..)]
    exact hpick.isSome (h.under_ne_nil hp)
  · rw [hpick.flatMap fun x hx => h.under_ne_nil (hplaced m hm x hx), hbeside m hm]
    refine Option.bind_congr fun x hx => ?_
    exact h.descend_eq hpick hstep (hplaced m hm x (hpick.mem hx)) (Nat.le_add_left ..)

end Picks

/-- The leaf before a node is the last of those read before it. -/
theorem Sound.leafBefore_eq (h : d.Sound) (hn : d.HasNode n) :
    d.leafBefore n = (d.before n).getLast? := by
  rw [leafBefore, before, List.getLast?_flatMap, List.reverse_reverse]
  refine h.findSome?_descend picks_getLast? (fun _ => rfl) (fun m hm => ?_) fun m hm x hx => ?_
  · exact h.left_eq (h.linked.index_le_of_mem_lineage hn hm).1
  · have hmn := (h.linked.index_le_of_mem_lineage hn hm).1
    exact (h.settled.mem_sides h.linked hmn (List.mem_append_left _ hx)).1

/-- The leaf behind a node is the first of those read behind it. -/
theorem Sound.leafAfter_eq (h : d.Sound) (hn : d.HasNode n) :
    d.leafAfter n = (d.behind n).head? := by
  rw [leafAfter, behind, List.head?_flatMap]
  refine h.findSome?_descend picks_head? (fun _ => rfl) (fun m _ => right_eq d m) fun m hm x hx => ?_
  have hmn := (h.linked.index_le_of_mem_lineage hn hm).1
  exact (h.settled.mem_sides h.linked hmn (List.mem_append_right _ hx)).1

theorem Sound.walkWithin_leafBefore (h : d.Sound) : ∀ (bound : Nat) {n : NodeId},
    n ∈ d.leaves → (d.before n).length ≤ bound →
    d.walkWithin .leafBefore bound n = (d.before n).reverse
  | 0, n, _, hb => by
    rw [List.length_eq_zero_iff.1 (Nat.le_zero.1 hb)]
    rfl
  | bound + 1, n, hn, hb => by
    obtain ⟨hp, hl⟩ := h.mem_leaves.1 hn
    rw [walkWithin, step, h.leafBefore_eq (hasNode_of_placed hp)]
    rcases List.eq_nil_or_concat (d.before n) with hnil | ⟨init, m, hm⟩
    · rw [hnil]
      rfl
    · have haround := h.leaves_eq_around hp hl
      rw [hm, List.concat_eq_append, List.append_assoc, List.singleton_append] at haround
      obtain ⟨hbefore, -⟩ := h.around_of_leaves haround
      have hlen : (d.before m).length ≤ bound := by
        rw [hm, List.length_concat] at hb
        rw [hbefore]
        omega
      have ih := h.walkWithin_leafBefore bound (n := m) (by simp [haround]) hlen
      simp [hm, ih, hbefore]

theorem Sound.walkWithin_leafAfter (h : d.Sound) : ∀ (bound : Nat) {n : NodeId},
    n ∈ d.leaves → (d.behind n).length ≤ bound →
    d.walkWithin .leafAfter bound n = d.behind n
  | 0, n, _, hb => by
    rw [List.length_eq_zero_iff.1 (Nat.le_zero.1 hb)]
    rfl
  | bound + 1, n, hn, hb => by
    obtain ⟨hp, hl⟩ := h.mem_leaves.1 hn
    rw [walkWithin, step, h.leafAfter_eq (hasNode_of_placed hp)]
    rcases hm : d.behind n with _ | ⟨m, rest⟩
    · rfl
    · have haround := h.leaves_eq_around hp hl
      rw [hm, ← List.singleton_append, ← List.append_assoc] at haround
      obtain ⟨-, hbehind⟩ := h.around_of_leaves haround
      have hlen : (d.behind m).length ≤ bound := by
        rw [hm, List.length_cons] at hb
        rw [hbehind]
        omega
      have ih := h.walkWithin_leafAfter bound (n := m) (by simp [haround]) hlen
      simp [ih, hbehind]

theorem Sound.length_leaves_le (h : d.Sound) : d.leaves.length ≤ d.nodes.size :=
  length_le_size h.nodup_leaves fun _ hn => (h.mem_leaves.1 hn).1

/-- A walk to the left from a placed leaf reads the leaves before it backwards. -/
theorem Sound.walk_leafBefore (h : d.Sound) (hn : n ∈ d.leaves) :
    d.walk n .leafBefore = (d.before n).reverse := by
  obtain ⟨hp, hl⟩ := h.mem_leaves.1 hn
  refine h.walkWithin_leafBefore _ hn (Nat.le_trans ?_ h.length_leaves_le)
  rw [h.leaves_eq_around hp hl, List.length_append]
  omega

/-- A walk to the right from a placed leaf reads the leaves behind it. -/
theorem Sound.walk_leafAfter (h : d.Sound) (hn : n ∈ d.leaves) :
    d.walk n .leafAfter = d.behind n := by
  obtain ⟨hp, hl⟩ := h.mem_leaves.1 hn
  refine h.walkWithin_leafAfter _ hn (Nat.le_trans ?_ h.length_leaves_le)
  rw [h.leaves_eq_around hp hl, List.length_append, List.length_cons]
  omega

/-- A walk to the right from the first leaf reads all leaves. -/
theorem Sound.walk_from_first (h : d.Sound) (hn : d.leaves.head? = some n) :
    n :: d.walk n .leafAfter = d.leaves := by
  obtain ⟨rest, hrest⟩ := List.head?_eq_some_iff.1 hn
  have hnil : d.leaves = [] ++ n :: rest := hrest
  rw [h.walk_leafAfter (List.mem_of_head? hn), (h.around_of_leaves hnil).2, hrest]

theorem Sound.walkWithin_right (h : d.Sound) {c : ChoiceId} : ∀ (bound : Nat) {n : NodeId}
    {xs ys : List NodeId}, d.contentOf c = xs ++ n :: ys → ys.length ≤ bound →
    d.walkWithin .right bound n = ys
  | 0, _, _, ys, _, hb => by
    rw [List.length_eq_zero_iff.1 (Nat.le_zero.1 hb)]
    rfl
  | bound + 1, n, xs, ys, heq, hb => by
    rw [walkWithin, step, right_eq, (h.sides_of_contentOf heq).2]
    rcases ys with _ | ⟨m, rest⟩
    · rfl
    · rw [List.append_cons] at heq
      simp only [List.head?_cons, h.walkWithin_right bound heq (by simpa using hb)]

/-- A walk to the right from the first node of a choice reads the whole choice. -/
theorem Sound.walk_right (h : d.Sound) {c : ChoiceId} {ys : List NodeId}
    (heq : d.contentOf c = n :: ys) : n :: d.walk n .right = d.contentOf c := by
  have hle := length_le_size (h.nodup_contentOf c) fun m hm =>
    ((h.settled.mem_contentOf h.linked).1 hm).1
  rw [heq, List.length_cons] at hle
  have hnil : d.contentOf c = [] ++ n :: ys := heq
  rw [walk, h.walkWithin_right _ hnil (by omega), heq]

/-- What stands before a node in its choice is where the choice begins. -/
theorem Sound.exists_contentOf_eq (h : d.Sound) (hn : d.HasNode n) (hm : m ∈ d.leftOf n) :
    ∃ ys, d.contentOf (d.choiceAround n) = d.leftOf n ++ ys := by
  rcases hp : (d.node n).placed with _ | _
  · have hbranch : (d.slot (d.node m).slot).branch = (d.slot (d.node n).slot).branch := by
      rcases List.mem_append.1 hm with hm | hm
      · obtain ⟨t, ht, hmt⟩ := List.mem_flatMap.1 hm
        rw [((h.settled.content t m).1 hmt).2]
        exact h.linked.branch_of_mem
          (List.mem_of_mem_take (List.mem_reverse.1 (List.mem_reverse.1 ht)))
      · rw [((h.settled.content _ m).1 (List.mem_of_mem_take hm)).2]
    obtain ⟨hpm, hcm, -⟩ := h.settled.mem_sides h.linked hn (List.mem_append_left _ hm)
    have hchosen := h.settled.chosen_of_placed h.linked hpm
    rw [hcm, hbranch] at hchosen
    refine ⟨_, h.settled.contentOf_of_gap h.linked hn hp fun k hk => ?_⟩
    exact Option.some.inj (hk.symm.trans hchosen)
  · exact ⟨_, h.settled.contentOf_of_placed h.linked hp⟩

theorem Sound.walkWithin_left (h : d.Sound) : ∀ (bound : Nat) {n : NodeId}, d.HasNode n →
    (d.leftOf n).length ≤ bound → d.walkWithin .left bound n = (d.leftOf n).reverse
  | 0, n, _, hb => by
    rw [List.length_eq_zero_iff.1 (Nat.le_zero.1 hb)]
    rfl
  | bound + 1, n, hn, hb => by
    rw [walkWithin, step, h.left_eq hn]
    rcases List.eq_nil_or_concat (d.leftOf n) with hnil | ⟨init, m, hm⟩
    · rw [hnil]
      rfl
    · rw [List.concat_eq_append] at hm
      have hmem : m ∈ d.leftOf n := by simp [hm]
      obtain ⟨ys, hcontent⟩ := h.exists_contentOf_eq hn hmem
      rw [hm, List.append_assoc, List.singleton_append] at hcontent
      obtain ⟨hleft, -⟩ := h.sides_of_contentOf hcontent
      have hmn := hasNode_of_placed
        (h.settled.mem_sides h.linked hn (List.mem_append_left _ hmem)).1
      have ih := h.walkWithin_left bound hmn (by simpa [hm, hleft] using hb)
      simp [hm, ih, hleft]

/-- A walk to the left from a node reads what stands before it in its choice backwards. -/
theorem Sound.walk_left (h : d.Sound) (hn : d.HasNode n) :
    d.walk n .left = (d.leftOf n).reverse := by
  refine h.walkWithin_left _ hn (length_le_size ?_ fun m hm =>
    (h.settled.mem_sides h.linked hn (List.mem_append_left _ hm)).1)
  rcases hleft : d.leftOf n with _ | ⟨m, rest⟩
  · exact List.nodup_nil
  · obtain ⟨ys, hcontent⟩ := h.exists_contentOf_eq hn (by rw [hleft]; exact List.mem_cons_self)
    have hnodup := h.nodup_contentOf (d.choiceAround n)
    rw [hcontent, hleft] at hnodup
    exact (List.nodup_append.1 hnodup).1

end Cloze.Draft
