import Cloze.Proofs.Reached
import Cloze.Proofs.Walking
import Mathlib.Data.List.Induction
import Mathlib.Logic.Function.Iterate

/-!
# Walks read the levels

The placed nodes with as many nodes above them make a level, and a row lists them in reading order
(`filter_preorder`). The node before another on its level may lie far from it: where nothing stands
to its left the step climbs, goes back on the level above to a node that is no leaf, and takes the
last node under that one. In a sound draft it finds the node next to the one it set out from in the
row (`Sound.levelBeforeWithin_eq`), however the branches between the two end.

The step calls itself twice, and both calls are bounded. `NodeId.jump` is the same step without a
bound, so that it may never end. On a row it ends with the same answer (`Sound.jump_eq`), and so do
walks that repeat it (`level_walk_reads_row`).
-/

namespace Cloze.Draft

/-- How many nodes stand above a node. -/
def tier (d : Draft) (n : NodeId) : Nat :=
  (d.ancestors n).length

/-- The nodes placed directly under those of a list. -/
def beneath (d : Draft) (ns : List NodeId) : List NodeId :=
  ns.flatMap d.children

/-- The placed nodes with `k` nodes above them. -/
def row (d : Draft) (k : Nat) : List NodeId :=
  d.beneath^[k] d.top

section

variable (d : Draft)

mutual

/-- The step back on a level without a bound: to the left if something stands there, nowhere from
the top, and otherwise to the last node under what is sought above. It may never end. -/
def NodeId.jump (n : NodeId) : Option (Option NodeId) := do
  match d.left n with
  | some m => return some m
  | none =>
    match d.holder? n with
    | none => return none
    | some k => return (← k |>.seek).bind d.lastChild
partial_fixpoint

/-- The first node that is no leaf back on a level, if the search for it ends. -/
def NodeId.seek (n : NodeId) : Option (Option NodeId) := do
  match ← n |>.jump with
  | none => return none
  | some m => if d.isLeaf m then m |>.seek else return some m
partial_fixpoint

end

/-- The nodes reached by steps back on a level, if the steps come to an end. -/
def NodeId.jumpWalk (n : NodeId) : Option (List NodeId) := do
  match ← n.jump d with
  | none => return []
  | some m => return m :: (← m |>.jumpWalk)
partial_fixpoint

end

variable {d : Draft} {n m k x : NodeId} {ns xs ys : List NodeId} {t : Nat}

/-! ### Rows -/

theorem tier_of_top (hh : d.holder? n = none) : d.tier n = 0 := by
  rw [tier, ancestors, lineage_of_top hh]
  rfl

theorem Linked.tier_of_holder (hl : d.Linked) (hn : d.HasNode n) (hh : d.holder? n = some k) :
    d.tier n = d.tier k + 1 := by
  obtain ⟨rest, hrest⟩ := d.exists_lineage_eq_cons k
  rw [tier, tier, ancestors, ancestors, hl.lineage_of_holder hn hh, hrest]
  rfl

theorem Linked.tier_le_of_mem_lineage (hl : d.Linked) (hx : d.HasNode x) :
    n ∈ d.lineage x → d.tier n ≤ d.tier x := by
  induction x, hx using hl.lineage_induction with
  | top x hx hh =>
    rw [lineage_of_top hh, List.mem_singleton]
    rintro rfl
    exact Nat.le_refl _
  | up x k hx hk hh ih =>
    rw [hl.lineage_of_holder hx hh, List.mem_cons]
    rintro (rfl | hmem)
    · exact Nat.le_refl _
    · rw [hl.tier_of_holder hx hh]
      exact Nat.le_succ_of_le (ih hmem)

theorem Sound.holder?_of_mem_top (h : d.Sound) (hn : n ∈ d.top) : d.holder? n = none := by
  rw [holder?, ((h.settled.mem_contentOf h.linked).1 hn).2]
  exact h.linked.root_holder

theorem Sound.tier_of_mem_children (h : d.Sound) (hn : d.HasNode n) (hm : m ∈ d.children n) :
    d.tier m = d.tier n + 1 := by
  obtain ⟨hp, hh⟩ := (h.settled.mem_children h.linked hn).1 hm
  exact h.linked.tier_of_holder (hasNode_of_placed hp) hh

/-- Under a node of a level no other node is of that level. -/
theorem Sound.filter_subtree (h : d.Sound) (hp : (d.node n).placed = true) :
    (d.subtree n).filter (d.tier · = d.tier n) = [n] := by
  have hlower : ((d.children n).flatMap d.subtree).filter (d.tier · = d.tier n) = [] := by
    refine List.filter_eq_nil_iff.2 fun x hx => ?_
    obtain ⟨m, hm, hxm⟩ := List.mem_flatMap.1 hx
    obtain ⟨hpx, hmem⟩ := (h.mem_subtree (h.placed_children hp m hm)).1 hxm
    have hle := h.linked.tier_le_of_mem_lineage (hasNode_of_placed hpx) hmem
    have hm := h.tier_of_mem_children (hasNode_of_placed hp) hm
    simp only [decide_eq_true_eq]
    omega
  rw [h.subtree_eq (hasNode_of_placed hp), List.filter_cons_of_pos (by simp), hlower]

/-- Under nodes of one level, the nodes of a lower level are a row. -/
theorem Sound.filter_flatMap_subtree (h : d.Sound) : ∀ (k : Nat) {t : Nat} {ns : List NodeId},
    (∀ n ∈ ns, (d.node n).placed = true ∧ d.tier n = t) →
    (ns.flatMap d.subtree).filter (d.tier · = t + k) = d.beneath^[k] ns
  | 0, t, ns, hns => by
    rw [List.filter_flatMap, Function.iterate_zero, id]
    conv_rhs => rw [← List.flatMap_singleton' ns]
    refine List.flatMap_congr fun n hn => ?_
    obtain ⟨hp, rfl⟩ := hns n hn
    exact h.filter_subtree hp
  | k + 1, t, ns, hns => by
    have hunder : ∀ m ∈ d.beneath ns, (d.node m).placed = true ∧ d.tier m = t + 1 := by
      intro m hm
      obtain ⟨n, hn, hmn⟩ := List.mem_flatMap.1 hm
      obtain ⟨hp, rfl⟩ := hns n hn
      exact ⟨h.placed_children hp m hmn, h.tier_of_mem_children (hasNode_of_placed hp) hmn⟩
    rw [Function.iterate_succ_apply, ← h.filter_flatMap_subtree k hunder, beneath,
      List.flatMap_assoc, List.filter_flatMap, List.filter_flatMap]
    refine List.flatMap_congr fun n hn => ?_
    obtain ⟨hp, rfl⟩ := hns n hn
    rw [h.subtree_eq (hasNode_of_placed hp), List.filter_cons_of_neg (by simp), Nat.add_assoc,
      Nat.add_comm 1 k]

/-- A row lists a level in reading order. -/
theorem Sound.filter_preorder (h : d.Sound) (k : Nat) :
    d.preorder.filter (d.tier · = k) = d.row k := by
  have htop : ∀ n ∈ d.top, (d.node n).placed = true ∧ d.tier n = 0 := fun n hn =>
    ⟨((h.settled.mem_contentOf h.linked).1 hn).1, tier_of_top (h.holder?_of_mem_top hn)⟩
  rw [preorder, row, ← h.filter_flatMap_subtree k htop, Nat.zero_add]

theorem row_succ (d : Draft) (k : Nat) : d.row (k + 1) = (d.row k).flatMap d.children :=
  Function.iterate_succ_apply' ..

theorem Sound.mem_row (h : d.Sound) : n ∈ d.row t ↔ (d.node n).placed = true ∧ d.tier n = t := by
  rw [← h.filter_preorder, List.mem_filter, h.mem_preorder, decide_eq_true_eq]

theorem Sound.of_row_eq (h : d.Sound) (hrow : d.row t = xs ++ n :: ys) :
    (d.node n).placed = true ∧ d.tier n = t :=
  h.mem_row.1 (by simp [hrow])

theorem Sound.nodup_row (h : d.Sound) (k : Nat) : (d.row k).Nodup := by
  rw [← h.filter_preorder]
  exact h.nodup_preorder.filter _

/-! ### The step -/

/-- Leaves have nothing under them, so only the other nodes count. -/
theorem Sound.getLast?_flatMap_children (h : d.Sound) (hp : ∀ n ∈ ns, (d.node n).placed = true) :
    (ns.flatMap d.children).getLast? =
      (ns.filter fun m => !d.isLeaf m).getLast?.bind d.lastChild := by
  have hinner : ns.flatMap d.children = (ns.filter fun m => !d.isLeaf m).flatMap d.children := by
    induction ns with
    | nil => rfl
    | cons n ns ih =>
      rw [List.flatMap_cons, ih (List.forall_mem_cons.1 hp).2, List.filter_cons]
      rcases hl : d.isLeaf n with _ | _
      · rfl
      · rw [children_of_leaf hl]
        rfl
  rw [hinner, picks_getLast?.flatMap fun n hn => ?_]
  · rfl
  · obtain ⟨hn, hl⟩ := List.mem_filter.1 hn
    exact h.children_ne_nil (hp n hn) (by simpa using hl)

/-- On the top level the node before another in the row stands to its left. -/
theorem Sound.getLast?_of_row_zero (h : d.Sound) (hrow : d.row 0 = xs ++ n :: ys) :
    d.holder? n = none ∧ xs.getLast? = d.left n := by
  have hp := (h.of_row_eq hrow).1
  refine ⟨h.holder?_of_mem_top (show n ∈ d.row 0 by simp [hrow]), ?_⟩
  rw [h.left_eq (hasNode_of_placed hp), (h.sides_of_contentOf hrow).1]

/-- On a lower level the node before another in the row stands to its left, or else it is the last
under the last node before its holder that is no leaf. -/
theorem Sound.getLast?_of_row_succ (h : d.Sound) (hrow : d.row (t + 1) = xs ++ n :: ys) :
    ∃ us k vs, d.row t = us ++ k :: vs ∧ d.holder? n = some k ∧
      xs.getLast? =
        (d.left n).or ((us.filter fun m => !d.isLeaf m).getLast?.bind d.lastChild) := by
  have hp := (h.of_row_eq hrow).1
  have hnodup := h.nodup_row (t + 1)
  have hmem : n ∈ d.row (t + 1) := by simp [hrow]
  rw [row_succ] at hrow hmem hnodup
  obtain ⟨k, hk, hn⟩ := List.mem_flatMap.1 hmem
  obtain ⟨us, vs, husvs⟩ := List.append_of_mem hk
  obtain ⟨as, bs, hasbs⟩ := List.append_of_mem hn
  have hh := ((h.settled.mem_children h.linked (hasNode_of_placed (h.mem_row.1 hk).1)).1 hn).2
  refine ⟨us, k, vs, husvs, hh, ?_⟩
  -- A row lists nothing twice, so what stands before `n` in it is what is read up to `n` under `k`.
  have hleft : d.left n = as.getLast? := by
    rw [children, h.linked.inner?_holder (hasNode_of_placed hp) hh] at hasbs
    rw [h.left_eq (hasNode_of_placed hp), (h.sides_of_contentOf hasbs).1]
  have hread : (d.row t).flatMap d.children
      = (us.flatMap d.children ++ as) ++ n :: (bs ++ vs.flatMap d.children) := by
    simp [husvs, hasbs]
  have hus : ∀ m ∈ us, (d.node m).placed = true :=
    fun m hm => (h.mem_row.1 (show m ∈ d.row t by simp [husvs, hm])).1
  rw [hrow] at hnodup hread
  rw [(append_cons_inj_of_nodup hnodup hread).1, List.getLast?_append, hleft,
    h.getLast?_flatMap_children hus]

/-- With steps that go back in a row, a search finds the last node before another that is no leaf. -/
theorem firstInner_eq {next : NodeId → Option NodeId} {row : List NodeId}
    (hnext : ∀ {us n vs}, row = us ++ n :: vs → next n = us.getLast?) :
    ∀ {bound : Nat} {us : List NodeId} {n : NodeId} {vs : List NodeId}, row = us ++ n :: vs →
      us.length < bound → d.firstInner next bound n = (us.filter fun m => !d.isLeaf m).getLast?
  | bound + 1, us, n, vs, hrow, hb => by
    rw [firstInner, hnext hrow]
    rcases List.eq_nil_or_concat us with rfl | ⟨init, m, rfl⟩
    · rfl
    · rw [List.concat_eq_append, List.append_assoc, List.singleton_append] at hrow
      rw [List.length_concat] at hb
      have ih := firstInner_eq hnext hrow (Nat.lt_of_succ_lt_succ hb)
      rcases hl : d.isLeaf m with _ | _ <;> simp [hl, ih]

theorem seek_eq {row : List NodeId}
    (hjump : ∀ {us n vs}, row = us ++ n :: vs → n.jump d = some us.getLast?) {us : List NodeId} :
    ∀ {n vs}, row = us ++ n :: vs → n.seek d = some (us.filter fun m => !d.isLeaf m).getLast? := by
  induction us using List.reverseRecOn with
  | nil =>
    intro n vs hrow
    rw [NodeId.seek, hjump hrow]
    rfl
  | append_singleton init m ih =>
    intro n vs hrow
    have hstep := hjump hrow
    rw [List.append_assoc, List.singleton_append] at hrow
    rw [NodeId.seek, hstep]
    rcases hl : d.isLeaf m with _ | _ <;> simp [hl, ih hrow]

theorem Sound.length_row_le (h : d.Sound) (k : Nat) : (d.row k).length ≤ d.nodes.size :=
  length_le_size (h.nodup_row k) fun _ hm => (h.mem_row.1 hm).1

/-- The step back on a level goes back in its row. -/
theorem Sound.levelBeforeWithin_eq (h : d.Sound) : ∀ {t : Nat} {xs : List NodeId} {n : NodeId}
    {ys : List NodeId}, d.row t = xs ++ n :: ys → d.levelBeforeWithin t n = xs.getLast?
  | 0, xs, n, ys, hrow => by
    rw [levelBeforeWithin, (h.getLast?_of_row_zero hrow).2]
  | t + 1, xs, n, ys, hrow => by
    obtain ⟨us, k, vs, husvs, hh, hlast⟩ := h.getLast?_of_row_succ hrow
    -- The search goes back along the row above, which has no more nodes than the draft.
    have hlt : us.length < d.nodes.size := by
      have hle := h.length_row_le t
      rw [husvs, List.length_append, List.length_cons] at hle
      omega
    have hseek := firstInner_eq (d := d) h.levelBeforeWithin_eq husvs hlt
    rw [levelBeforeWithin, hlast, hh]
    cases d.left n with
    | some m => rfl
    | none => exact congrArg (Option.bind · d.lastChild) hseek

/-- Without a bound the step ends as well, and with the same answer. -/
theorem Sound.jump_eq (h : d.Sound) : ∀ {t : Nat} {xs : List NodeId} {n : NodeId} {ys : List NodeId},
    d.row t = xs ++ n :: ys → n.jump d = some xs.getLast?
  | 0, xs, n, ys, hrow => by
    obtain ⟨hh, hlast⟩ := h.getLast?_of_row_zero hrow
    rw [NodeId.jump, hlast, hh]
    cases d.left n <;> rfl
  | t + 1, xs, n, ys, hrow => by
    obtain ⟨us, k, vs, husvs, hh, hlast⟩ := h.getLast?_of_row_succ hrow
    have hseek := seek_eq h.jump_eq husvs
    rw [NodeId.jump, hlast, hh]
    cases d.left n with
    | some m => rfl
    | none =>
      simp only [hseek]
      rfl

/-! ### The walk -/

/-- A walk back on a level reads its row backwards. -/
theorem Sound.walkWithin_levelBefore (h : d.Sound) : ∀ {bound : Nat} {xs : List NodeId}
    {n : NodeId} {ys : List NodeId}, d.row t = xs ++ n :: ys → xs.length ≤ bound →
    d.walkWithin .levelBefore bound n = xs.reverse
  | 0, xs, n, ys, _, hb => by
    rw [List.length_eq_zero_iff.1 (Nat.le_zero.1 hb)]
    rfl
  | bound + 1, xs, n, ys, hrow, hb => by
    have hstep : d.step n .levelBefore = xs.getLast? := by
      rw [step, levelBefore, ← tier, (h.of_row_eq hrow).2, h.levelBeforeWithin_eq hrow]
    rw [walkWithin, hstep]
    rcases List.eq_nil_or_concat xs with rfl | ⟨init, m, rfl⟩
    · rfl
    · rw [List.concat_eq_append, List.append_assoc, List.singleton_append] at hrow
      have ih := h.walkWithin_levelBefore hrow (by simpa using hb)
      simp [ih]

theorem Sound.jumpWalk_eq (h : d.Sound) : ∀ {n : NodeId} {ys : List NodeId},
    d.row t = xs ++ n :: ys → n.jumpWalk d = some xs.reverse := by
  induction xs using List.reverseRecOn with
  | nil =>
    intro n ys hrow
    rw [NodeId.jumpWalk, h.jump_eq hrow]
    rfl
  | append_singleton init m ih =>
    intro n ys hrow
    have hstep := h.jump_eq hrow
    rw [List.append_assoc, List.singleton_append] at hrow
    rw [NodeId.jumpWalk, hstep]
    simp [ih hrow]

/-- From every placed node a walk back on its level ends, and it reaches the placed nodes that have
as many nodes above them and come before it in reading order, the nearest first and each once. -/
theorem level_walk_reads_row {definition : Grammar.Definition} {g : Grammar}
    (hg : definition.build = .ok g) (h : Reached g d) :
    d.preorder.Nodup ∧ (∀ m, m ∈ d.preorder ↔ d.isPlaced m = true) ∧
      ∀ n, d.isPlaced n = true → ∃ xs ys, d.preorder = xs ++ n :: ys ∧
        d.walk n .levelBefore = (xs.filter (d.tier · = d.tier n)).reverse ∧
        n.jumpWalk d = some (d.walk n .levelBefore) ∧
        ∀ bound, d.nodes.size ≤ bound →
          d.walkWithin .levelBefore bound n = d.walk n .levelBefore := by
  have hs := (h.sound (Grammar.Definition.wellFormed_build hg)).1
  refine ⟨hs.nodup_preorder, fun m => hs.mem_preorder, fun n hp => ?_⟩
  obtain ⟨xs, ys, hxy⟩ := List.append_of_mem (hs.mem_preorder.2 hp)
  have hrow : d.row (d.tier n)
      = xs.filter (d.tier · = d.tier n) ++ n :: ys.filter (d.tier · = d.tier n) := by
    rw [← hs.filter_preorder, hxy, List.filter_append, List.filter_cons_of_pos (by simp)]
  have hwalk : ∀ bound, d.nodes.size ≤ bound →
      d.walkWithin .levelBefore bound n = (xs.filter (d.tier · = d.tier n)).reverse := by
    intro bound hb
    have hle := hs.length_row_le (d.tier n)
    rw [hrow, List.length_append] at hle
    exact hs.walkWithin_levelBefore hrow (by omega)
  have hend := hwalk _ (Nat.le_refl _)
  exact ⟨xs, ys, hxy, hend, by rw [walk, hend, hs.jumpWalk_eq hrow], fun bound hb =>
    (hwalk bound hb).trans hend.symm⟩

/-- In `((x),y` the walk back from the second name passes over the comma, and goes on in the brackets
around the first. -/
theorem jagged_level_walk :
    ∃ d, Reached listGrammar d ∧ d.leaves.map d.caption = ["(", "(", "name", ")", ",", "name"] ∧
      d.leaves.getLast? = some ⟨18⟩ ∧ d.walk ⟨18⟩ .levelBefore = [⟨12⟩, ⟨7⟩, ⟨5⟩] ∧
      NodeId.jumpWalk d ⟨18⟩ = some [⟨12⟩, ⟨7⟩, ⟨5⟩] := by
  have hrun : ((Draft.start listGrammar {} []).callAll?
      [.offers none, .fillWith ⟨0⟩ none, .offers (some ⟨0⟩), .fillWith ⟨5⟩ none, .offers (some ⟨5⟩),
        .fillWith ⟨9⟩ (some "x"), .offers (some ⟨9⟩), .fillWith ⟨12⟩ none, .offers (some ⟨12⟩),
        .fillWith ⟨16⟩ none, .offers (some ⟨16⟩), .fillWith ⟨18⟩ (some "y")]).any fun d =>
      d.leaves.map d.caption = ["(", "(", "name", ")", ",", "name"] ∧
        d.leaves.getLast? = some ⟨18⟩ ∧ d.isPlaced ⟨18⟩ = true ∧
        d.walk ⟨18⟩ .levelBefore = [⟨12⟩, ⟨7⟩, ⟨5⟩] := by
    decide +kernel
  obtain ⟨d, hd, htest⟩ := (Option.any_eq_true _ _).1 hrun
  obtain ⟨hleaves, hlast, hp, hwalk⟩ := of_decide_eq_true htest
  have h : Reached listGrammar d := Reached.callAll? (.start _) hd
  obtain ⟨xs, ys, -, -, hend, -⟩ := (level_walk_reads_row build_lists h).2.2 ⟨18⟩ hp
  exact ⟨d, h, hleaves, hlast, hwalk, by rw [hend, hwalk]⟩

end Cloze.Draft
