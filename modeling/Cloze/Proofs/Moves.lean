import Cloze.Proofs.Reached

/-!
# What a search does to a draft

Whatever a search finds, and also when it is refused, all it does to the draft is a sequence of
moves: a slot gets a gap, a reference to a rule gets its choice, a symbol is remembered as
unskippable (`Moves`). This holds of every draft, in order or not. So what the three moves keep, a
search keeps.
-/

namespace Cloze.Draft

open Edit

variable {d e f : Draft} {α β : Type}

/-- The draft `e` comes of `d` by moves that a search makes. -/
inductive Moves (d : Draft) : Draft → Prop
  | refl : Moves d d
  | gap {e : Draft} {s : SlotId} {p : Nat} (h : Moves d e) : Moves d (e.withGap s p)
  | expansion {e : Draft} {n : NodeId} {r : Grammar.RuleId} {depth : Nat} (h : Moves d e)
      (hb : (e.node n).body = .rule r none) : Moves d (e.withExpansion n r depth)
  | settle {e : Draft} {n : NodeId} (h : Moves d e) : Moves d (e.settle n)

theorem Moves.trans (h : Moves d e) (h' : Moves e f) : Moves d f := by
  induction h' with
  | refl => exact h
  | gap _ ih => exact ih.gap
  | expansion _ hb ih => exact ih.expansion hb
  | settle _ ih => exact ih.settle

theorem settle_eq (d : Draft) (n : NodeId) : ∃ u, d.settle n = { d with unskippable := u } := by
  unfold settle
  dsimp only
  split
  · exact ⟨_, rfl⟩
  · exact ⟨_, rfl⟩

/-- An edit that does nothing but make moves. -/
def Wanders (act : Edit α) : Prop :=
  ∀ d, Ensures act d (fun _ e => Moves d e) fun _ e => Moves d e

theorem Wanders.bind {act : Edit α} {k : α → Edit β} (h : Wanders act) (hk : ∀ a, Wanders (k a)) :
    Wanders (act >>= k) := by
  intro d
  rw [ensures_bind]
  refine (h d).mono (fun a e he => ?_) fun _ _ he => he
  exact (hk a e).mono (fun _ _ hf => he.trans hf) fun _ _ hf => he.trans hf

theorem Wanders.map {act : Edit α} {k : α → β} (h : Wanders act) : Wanders (k <$> act) := by
  intro d
  rw [ensures_map]
  exact h d

theorem wanders_pure (a : α) : Wanders (pure a) := fun _ => .refl

theorem wanders_throw (r : Refusal) : Wanders (throw r : Edit α) := fun _ => .refl

theorem wanders_get : Wanders get := fun _ => .refl

theorem wanders_settle (n : NodeId) : Wanders (modify (·.settle n)) := fun _ => .settle .refl

theorem wanders_gap (s : SlotId) (p : Nat) : Wanders (gap s p) := by
  intro d
  simp only [gap, ensures_bind, ensures_get]
  split
  · exact .refl
  · split
    · exact .refl
    · exact .gap .refl

theorem wanders_reveal (n : NodeId) : Wanders (reveal n) := by
  intro d
  simp only [reveal, ensures_bind, ensures_get]
  split
  · exact .refl
  · exact .refl
  · exact .refl
  · rename_i r hb
    split
    · exact .refl
    · exact .expansion .refl hb

theorem wanders_firstIn (s : SlotId) : Wanders (firstIn s) := by
  refine wanders_get.bind fun d => ?_
  split
  · exact wanders_pure _
  · exact wanders_gap s 0

/-! ### What can be left out -/

theorem wanders_everySlot {inside : NodeId → Edit Bool} (h : ∀ n, Wanders (inside n)) :
    ∀ slots : List SlotId, Wanders (everySlot inside slots)
  | [] => wanders_pure _
  | s :: rest => by
    refine wanders_get.bind fun d => ?_
    split
    · exact wanders_pure _
    · split
      · exact wanders_everySlot h rest
      · refine (wanders_gap s 0).bind fun n => (h n).bind fun b => ?_
        split
        · exact wanders_everySlot h rest
        · exact wanders_pure _

theorem wanders_someBranch {inside : NodeId → Edit Bool} (h : ∀ n, Wanders (inside n)) :
    ∀ rows : List (List SlotId), Wanders (someBranch inside rows)
  | [] => wanders_pure _
  | row :: rows => by
    refine (wanders_everySlot h row).bind fun b => ?_
    split
    · exact wanders_pure _
    · exact wanders_someBranch h rows

theorem wanders_canSkipWithin : ∀ (bound : Nat) (n : NodeId), Wanders (canSkipWithin bound n)
  | 0, _ => wanders_pure _
  | bound + 1, n => by
    refine wanders_get.bind fun d => ?_
    split
    · exact wanders_pure _
    · refine (wanders_reveal n).bind fun c => ?_
      split
      · exact wanders_pure _
      · refine wanders_get.bind fun e =>
          (wanders_someBranch (wanders_canSkipWithin bound) _).bind fun b => ?_
        split
        · exact wanders_pure _
        · exact (wanders_settle n).bind fun _ => wanders_pure _

theorem wanders_canSkip (n : NodeId) : Wanders (canSkip n) :=
  wanders_get.bind fun d => wanders_canSkipWithin d.levels n

theorem wanders_canSkipSlot (s : SlotId) : Wanders (canSkipSlot s) := by
  refine wanders_get.bind fun d => ?_
  split
  · exact wanders_pure _
  · split
    · exact wanders_pure _
    · exact (wanders_gap s 0).bind wanders_canSkip

/-! ### Offers -/

theorem wanders_leftmostWithin : ∀ (bound : Nat) (n : NodeId), Wanders (leftmostWithin bound n)
  | 0, n => wanders_pure n
  | bound + 1, n => by
    refine (wanders_reveal n).bind fun c => ?_
    split
    · exact wanders_pure n
    · exact wanders_get.bind fun d =>
        (wanders_firstIn _).bind fun m => wanders_leftmostWithin bound m

theorem wanders_leftmost (n : NodeId) : Wanders (leftmost n) :=
  wanders_get.bind fun d => wanders_leftmostWithin d.levels n

theorem wanders_firstOfSlots {inside : NodeId → Edit (List NodeId)} (h : ∀ n, Wanders (inside n)) :
    ∀ slots : List SlotId, Wanders (firstOfSlots inside slots)
  | [] => wanders_pure _
  | s :: rest => by
    refine wanders_get.bind fun d => ?_
    split
    · exact wanders_pure _
    · refine (wanders_gap s 0).bind fun n => (h n).bind fun found =>
        (wanders_canSkipSlot s).bind fun b => ?_
      split
      · exact (wanders_firstOfSlots h rest).bind fun more => wanders_pure _
      · exact wanders_pure _

theorem wanders_firstOfBranches {inside : NodeId → Edit (List NodeId)}
    (h : ∀ n, Wanders (inside n)) :
    ∀ rows : List (List SlotId), Wanders (firstOfBranches inside rows)
  | [] => wanders_pure _
  | row :: rows => (wanders_firstOfSlots h row).bind fun _ =>
      (wanders_firstOfBranches h rows).bind fun _ => wanders_pure _

theorem wanders_firstLeavesWithin : ∀ (bound : Nat) (n : NodeId),
    Wanders (firstLeavesWithin bound n)
  | 0, _ => wanders_pure _
  | bound + 1, n => by
    refine (wanders_reveal n).bind fun c => ?_
    split
    · exact wanders_pure _
    · exact wanders_get.bind fun d => wanders_firstOfBranches (wanders_firstLeavesWithin bound) _

theorem wanders_firstLeaves (n : NodeId) : Wanders (firstLeaves n) :=
  wanders_get.bind fun d => wanders_firstLeavesWithin d.levels n

theorem wanders_againAfter (n : NodeId) : Wanders (againAfter n) := by
  refine wanders_get.bind fun d => ?_
  dsimp only
  split
  · split
    · exact wanders_pure _
    · exact (wanders_gap _ _).bind fun m => (wanders_firstLeaves m).bind fun _ => wanders_pure _
  · exact wanders_pure _

theorem wanders_onwardOver : ∀ slots : List SlotId, Wanders (onwardOver slots)
  | [] => wanders_pure _
  | s :: rest => by
    refine (wanders_canSkipSlot s).bind fun b => ?_
    split
    · exact (wanders_gap s 0).bind fun n => (wanders_firstLeaves n).bind fun _ =>
        (wanders_onwardOver rest).bind fun _ => wanders_pure _
    · refine wanders_get.bind fun d => ?_
      split
      · exact wanders_pure _
      · exact (wanders_gap s 0).bind fun n => (wanders_firstLeaves n).bind fun _ => wanders_pure _

theorem wanders_onward (n : NodeId) : Wanders (onward n) := by
  refine (wanders_againAfter n).bind fun r => ?_
  dsimp only
  split
  · exact wanders_get.bind fun d => (wanders_onwardOver _).bind fun _ => wanders_pure _
  · exact wanders_pure _

theorem wanders_followUp (n : NodeId) (passed : Bool) : Wanders (followUp n passed) := by
  have hgo : ∀ skip : Bool, Wanders (if skip then onward n else pure ([], false)) := by
    intro skip
    split
    · exact wanders_onward n
    · exact wanders_pure _
  cases passed with
  | true => exact (wanders_pure true).bind hgo
  | false => exact (wanders_canSkip n).bind hgo

theorem wanders_climb : ∀ (ns : List NodeId) (passed : Bool), Wanders (climb ns passed)
  | [], _ => wanders_pure _
  | n :: above, passed => by
    rw [climb_cons]
    refine wanders_get.bind fun d => (wanders_followUp n passed).bind fun r =>
      wanders_get.bind fun e => Wanders.bind ?_ fun others =>
        (wanders_climb above r.2).bind fun _ => wanders_pure _
    exact wanders_get.bind fun f => wanders_firstOfBranches (wanders_firstLeavesWithin _) _

theorem wanders_resumeAlong : ∀ ns : List NodeId, Wanders (resumeAlong ns)
  | [] => wanders_pure _
  | n :: above => by
    refine wanders_get.bind fun d => ?_
    dsimp only
    split
    · exact wanders_throw _
    · split
      · exact (wanders_gap _ _).bind fun m => (wanders_leftmost m).map
      · split
        · refine (wanders_firstIn _).bind fun m => wanders_get.bind fun e => ?_
          split
          · exact wanders_pure _
          · exact (wanders_leftmost m).map
        · exact wanders_resumeAlong above

/-- A search only moves. -/
theorem wanders_offers (cursor : Option NodeId) : Wanders (offers cursor) := by
  cases cursor with
  | none =>
    have hfirst : Wanders firstLeaf :=
      wanders_get.bind fun d => (wanders_firstIn _).bind wanders_leftmost
    refine hfirst.map.bind fun start => ?_
    cases start with
    | none => exact wanders_pure _
    | some n => exact wanders_get.bind fun d => wanders_climb _ _
  | some n =>
    have hresume : Wanders (resume n) := wanders_get.bind fun d => wanders_resumeAlong _
    refine hresume.bind fun start => ?_
    cases start with
    | none => exact wanders_pure _
    | some n => exact wanders_get.bind fun d => wanders_climb _ _

theorem Wanders.moves {act : Edit α} (h : Wanders act) (d : Draft) : Moves d (after act d) :=
  after_of_ensures (h d)

theorem Grows.role? (h : Grows d e) {n : NodeId} (hn : d.HasNode n) : e.role? n = d.role? n := by
  rw [Draft.role?, h.symbol hn, Draft.role?]

theorem Grows.token? (h : Grows d e) {n : NodeId} (hn : d.HasNode n) : e.token? n = d.token? n := by
  obtain ⟨b, hb, rfl | ⟨r, c, hr, rfl⟩⟩ := h.node n hn
  · simp only [Draft.token?, literal?, h.symbol hn, hb]
  · simp only [Draft.token?, literal?, h.symbol hn, hb, hr]
    cases (d.symbol n).literal? <;> rfl

/-- A search at a place that is none or filled keeps the draft in order. -/
theorem Sound.keeps_offers (h : d.Sound) {cursor : Option NodeId}
    (hc : ∀ n ∈ cursor, (d.node n).placed = true) : Keeps d (after (offers cursor) d) := by
  cases cursor with
  | none =>
    obtain ⟨l, t, hcor⟩ := h.over.exists_corner h.linked.root
    exact (h.over.finds_offers_none hcor).keeps
  | some n => exact (h.over.finds_offers (hc n rfl)).keeps

/-- A search is refused only for a rule that would be nested too deep. -/
theorem Sound.tooDeep_of_offers (h : d.Sound) {cursor : Option NodeId}
    (hc : ∀ n ∈ cursor, (d.node n).placed = true) {r : Refusal}
    (ho : offers cursor d = .error r e) : ∃ rule, r = .tooDeep rule d.settings.recursionLimit := by
  cases cursor with
  | none =>
    obtain ⟨l, t, hcor⟩ := h.over.exists_corner h.linked.root
    exact (Ensures.of_error (h.over.finds_offers_none hcor) ho).2.2
  | some n => exact (Ensures.of_error (h.over.finds_offers (hc n rfl)) ho).2.2

/-- What is offered is there. -/
theorem Sound.hasNode_of_offers (h : d.Sound) {cursor : Option NodeId}
    (hc : ∀ n ∈ cursor, (d.node n).placed = true) {found : List NodeId}
    (ho : offers cursor d = .ok found e) : ∀ n ∈ found, e.HasNode n := by
  cases cursor with
  | none =>
    obtain ⟨l, t, hcor⟩ := h.over.exists_corner h.linked.root
    obtain ⟨-, ts, -, hhas, -⟩ := Ensures.of_ok (h.over.finds_offers_none hcor) ho
    exact hhas
  | some n =>
    obtain ⟨-, ts, -, hhas, -⟩ := Ensures.of_ok (h.over.finds_offers (hc n rfl)) ho
    exact hhas

end Cloze.Draft
