import Cloze.Proofs.Landing
import Cloze.Proofs.Walking

/-!
# Neighbours

The steps from leaf to leaf follow the list of leaves, and they do so from a gap as well. A gap that
may be placed parts the leaves into those read before it and those read behind it
(`Sound.leaves_around_gap`), and once it is filled it stands between the two (`Fills.leaves_eq`). So
what a step finds from a gap is what stands next to it later.
-/

namespace Cloze.Draft

open Edit

variable {d e : Draft} {n : NodeId} {value : Option String} {g : Grammar}

/-! ### The place of a gap -/

/-- A gap that may be placed parts the leaves. -/
theorem Sound.leaves_around_gap (h : d.Sound) (hn : d.HasNode n) (hp : (d.node n).placed = false)
    (hc : d.checkPlace n = .ok ()) : d.leaves = d.before n ++ d.behind n := by
  have hread : ∀ {k : NodeId}, d.HasNode k → (d.node k).placed = false →
      (∀ b, (d.choice (d.choiceAround k)).chosen = some b → b = (d.slot (d.node k).slot).branch) →
      (d.contentOf (d.choiceAround k)).flatMap d.under
        = (d.leftOf k).flatMap d.under ++ (d.rightOf k).flatMap d.under := fun hk hpk hb => by
    rw [h.settled.contentOf_of_gap h.linked hk hpk hb, List.flatMap_append]
  induction n, hn using h.linked.lineage_induction with
  | top n hn hm =>
    rw [checkPlace, lineage_of_top hm] at hc
    obtain ⟨-, hk⟩ := checkPlaceAlong_cons hp hc
    rw [leaves_eq, ← h.linked.root_of_holder?_eq_none hn hm, before_of_top hm, behind_of_top hm]
    exact hread hn hp (by rcases hk with hk | ⟨hk, -⟩ <;> simp [hk])
  | up n k hn hk hh ih =>
    rw [checkPlace, h.linked.lineage_of_holder hn hh] at hc
    rw [h.linked.before_of_holder hn hh, h.linked.behind_of_holder hn hh]
    have hin := h.linked.inner?_holder hn hh
    have hleaf := isLeaf_of_inner? hin
    obtain ⟨-, hb | ⟨hb, hck⟩⟩ := checkPlaceAlong_cons hp hc
    · -- the choice has taken the branch of the gap, so the node above the gap is placed
      have hpk : (d.node k).placed = true :=
        (h.settled.inner k hk hleaf (by simp)).2 ⟨_, hin, by simp [hb]⟩
      have hunder : d.under k = (d.contentOf (d.choiceAround n)).flatMap d.under := by
        rw [h.settled.under_of_inner h.linked hk hleaf, children, hin]
      rw [h.leaves_around hpk, hunder, hread hn hp (by simp [hb])]
      simp only [List.append_assoc]
    · -- nothing stands beside the gap, and the node above it is a gap that may be placed
      have hpk : (d.node k).placed = false := by
        by_contra hpk
        obtain ⟨c, hc, hne⟩ := (h.settled.inner k hk hleaf (by simp)).1 (by simpa using hpk)
        rw [hin, Option.some.injEq] at hc
        exact hne (hc ▸ hb)
      obtain ⟨hleft, hright⟩ := h.settled.sides_eq_nil h.linked hn hb
      rw [ih hpk hck, hleft, hright]
      simp

/-- A leaf that is filled stands between the leaves read before it and those read behind it. -/
theorem Fills.leaves_eq (hf : Fills d n e) (h : d.Sound) (hn : d.HasNode n) :
    e.leaves = d.before n ++ n :: d.behind n := by
  obtain ⟨after, hd, he⟩ := hf.leaves h hn
  rw [h.leaves_around_gap hn hf.gap hf.ok] at hd
  rw [he, List.append_cancel_left hd]

/-! ### Steps and places in the list of leaves -/

theorem getLast?_eq_getElem?_append {α : Type} (xs ys : List α) :
    xs.getLast? = if xs.length = 0 then none else (xs ++ ys)[xs.length - 1]? := by
  split
  · rename_i hnil
    rw [List.length_eq_zero_iff.1 hnil, List.getLast?_nil]
  · rw [List.getLast?_eq_getElem?, List.getElem?_append_left (by omega)]

/-- The steps lead from a node to what stands next to it where it has its place among leaves. -/
theorem Sound.steps_of_around (h : d.Sound) (hn : d.HasNode n) {xs : List NodeId}
    (hxs : xs = d.before n ++ n :: d.behind n) :
    d.leafBefore n = (if (d.before n).length = 0 then none else xs[(d.before n).length - 1]?) ∧
      d.leafAfter n = xs[(d.before n).length + 1]? := by
  subst hxs
  refine ⟨?_, ?_⟩
  · rw [h.leafBefore_eq hn, ← getLast?_eq_getElem?_append]
  · rw [h.leafAfter_eq hn, List.getElem?_append_right (by omega), Nat.add_sub_cancel_left,
      List.getElem?_cons_succ, List.head?_eq_getElem?]

/-- A leaf has as many leaves before it as its place says. -/
theorem Sound.around_getElem? (h : d.Sound) {i : Nat} (hi : d.leaves[i]? = some n) :
    d.before n = d.leaves.take i ∧ (d.before n).length = i ∧
      d.leaves = d.before n ++ n :: d.behind n := by
  obtain ⟨hlt, hget⟩ := List.getElem?_eq_some_iff.1 hi
  have hsplit : d.leaves = d.leaves.take i ++ n :: d.leaves.drop (i + 1) := by
    conv_lhs => rw [← List.take_append_drop i d.leaves, List.drop_eq_getElem_cons hlt, hget]
  obtain ⟨hbefore, hbehind⟩ := h.around_of_leaves hsplit
  refine ⟨hbefore, ?_, by rw [hbefore, hbehind]; exact hsplit⟩
  rw [hbefore, List.length_take, Nat.min_eq_left (Nat.le_of_lt hlt)]

/-- The steps from leaf to leaf follow the list of leaves: from a leaf they lead to its neighbours,
and from a gap that is about to be filled to those it will have. -/
theorem leaf_steps_follow_leaves {definition : Grammar.Definition} (hg : definition.build = .ok g)
    (h : Reached g d) :
    (∀ i n, d.leaves[i]? = some n →
      d.leafBefore n = (if i = 0 then none else d.leaves[i - 1]?) ∧
      d.leafAfter n = d.leaves[i + 1]? ∧
      d.walk n .leafBefore = (d.leaves.take i).reverse ∧
      ∀ bound, i ≤ bound → d.walkWithin .leafBefore bound n = (d.leaves.take i).reverse) ∧
    ∀ n, d.HasNode n → d.isLeaf n = true → d.isPlaced n = false → d.checkPlace n = .ok () →
      ∀ value, d.Suits n value → ∃ i, (after (fillWith n value) d).leaves[i]? = some n ∧
        d.leafBefore n = (if i = 0 then none else (after (fillWith n value) d).leaves[i - 1]?) ∧
        d.leafAfter n = (after (fillWith n value) d).leaves[i + 1]? := by
  have hs := (h.sound (Grammar.Definition.wellFormed_build hg)).1
  refine ⟨fun i n hi => ?_, fun n hn hl hp hc value hv => ?_⟩
  · have hmem := List.mem_of_getElem? hi
    obtain ⟨hbefore, hlen, hleaves⟩ := hs.around_getElem? hi
    obtain ⟨hleft, hright⟩ :=
      hs.steps_of_around (hasNode_of_placed (hs.mem_leaves.1 hmem).1) hleaves
    rw [hlen] at hleft hright
    refine ⟨hleft, hright, ?_, fun bound hb => ?_⟩
    · rw [hs.walk_leafBefore hmem, hbefore]
    · rw [hs.walkWithin_leafBefore bound hmem (hlen ▸ hb), hbefore]
  · have hf := Fills.after_fillWith hn hl hp hc hv
    have hleaves := hf.leaves_eq hs hn
    refine ⟨(d.before n).length, ?_, hs.steps_of_around hn hleaves⟩
    rw [hleaves, List.getElem?_append_right (Nat.le_refl _), Nat.sub_self, List.getElem?_cons_zero]

/-- The list `(x)`, and gaps behind its name for a comma and for more. -/
def openItem : Draft :=
  (Call.offers (some ⟨3⟩)).after oneItem

/-- From the gap for a comma the steps lead to the name and to the bracket, between which the comma
comes. -/
theorem comma_steps : openItem.leaves = [⟨0⟩, ⟨3⟩, ⟨6⟩] ∧
    (after (fillWith ⟨8⟩ none) openItem).leaves = [⟨0⟩, ⟨3⟩, ⟨8⟩, ⟨6⟩] ∧
    openItem.leafBefore ⟨8⟩ = some ⟨3⟩ ∧ openItem.leafAfter ⟨8⟩ = some ⟨6⟩ ∧
    openItem.walk ⟨6⟩ .leafBefore = [⟨3⟩, ⟨0⟩] := by
  have hrun : (Call.offers (some ⟨3⟩)).On oneItem ∧ (openItem.leaves = [⟨0⟩, ⟨3⟩, ⟨6⟩] ∧
        (after (fillWith ⟨8⟩ none) openItem).leaves = [⟨0⟩, ⟨3⟩, ⟨8⟩, ⟨6⟩]) ∧
      openItem.HasNode ⟨8⟩ ∧ openItem.isLeaf ⟨8⟩ = true ∧ openItem.isPlaced ⟨8⟩ = false ∧
      openItem.checkPlace ⟨8⟩ = .ok () ∧ (openItem.token? ⟨8⟩).isSome := by
    decide +kernel
  obtain ⟨hon, ⟨hleaves, hfilled⟩, hn, hl, hp, hc, ht⟩ := hrun
  have hreached : Reached listGrammar openItem := reached_oneItem.call hon
  obtain ⟨hplaced, hgap⟩ := leaf_steps_follow_leaves build_lists hreached
  obtain ⟨i, hi, hbefore, hafter⟩ := hgap ⟨8⟩ hn hl hp hc none (Or.inl ht)
  obtain ⟨-, -, hwalk, -⟩ := hplaced 2 ⟨6⟩ (by rw [hleaves]; rfl)
  rw [hfilled] at hi hbefore hafter
  obtain rfl : i = 2 := by
    rcases i with _ | _ | _ | _ | i <;> simp at hi ⊢
  exact ⟨hleaves, hfilled, hbefore, hafter, by rw [hwalk, hleaves]; rfl⟩

end Cloze.Draft
