import Cloze.Proofs.Searching

/-!
# Offers are what the trails say

The search for offers goes down to the leftmost leaf behind the cursor and climbs from there to the
root. On the way up, a gap above the leaf is asked whether it can be skipped only after all inside it
has been searched, so that question is never refused. Behind a placed node the offers are those of
`prospect` (`finds_offers`); before everything the search goes down through what is placed in first
slots until it comes to a leaf or an empty slot (`Corner`, `finds_offers_none`).
-/

namespace Cloze.Draft

open Edit

variable {g : Grammar} {limit : Nat} {d e : Draft}

/-- On the way up, what stands in a gap is the first gap there. -/
def LeftAligned (d : Draft) (n : NodeId) : Prop :=
  ∀ m ∈ d.lineage n, ∀ h, d.holder? m = some h → (d.node h).placed = false →
    d.level m = (d.frame (d.choiceAround m)).gap 0 0

theorem LeftAligned.keeps {n : NodeId} (ha : LeftAligned d n) (h : d.Sound) (hn : d.HasNode n)
    (hk : Keeps d e) : LeftAligned e n := by
  intro m hm k hh hp
  rw [hk.grows.lineage h.linked hk.sound.linked hn] at hm
  have hmn := (h.linked.index_le_of_mem_lineage hn hm).1
  have hslot := (h.linked.node m hmn).slot
  have hc := h.linked.hasChoice_around hmn
  rw [hk.grows.holder? hmn hslot hc] at hh
  rw [hk.grows.placed] at hp
  rw [hk.level h hmn, hk.grows.choiceAround hmn hslot, hk.grows.frame h.linked hc]
  exact ha m hm k hh hp

theorem LeftAligned.of_holder {n m : NodeId} (ha : LeftAligned d n) (h : d.Linked)
    (hn : d.HasNode n) (hm : d.holder? n = some m) : LeftAligned d m := fun k hk => by
  refine ha k ?_
  rw [h.lineage_of_holder hn hm]
  exact List.mem_cons_of_mem _ hk

/-- Under a placed node there is nothing to be aligned. -/
theorem Sound.leftAligned (h : d.Sound) {n : NodeId} (hn : d.HasNode n)
    (hp : ∀ m, d.holder? n = some m → (d.node m).placed = true) : LeftAligned d n := by
  intro m hm k hk hkp
  rcases hh : d.holder? n with _ | j
  · rw [lineage_of_top hh, List.mem_singleton] at hm
    rw [hm, hh] at hk
    cases hk
  · rw [h.linked.lineage_of_holder hn hh, List.mem_cons] at hm
    have hj := h.linked.hasNode_holder hn hh
    rcases hm with rfl | hm
    · rw [hp k hk] at hkp
      cases hkp
    · rw [h.placed_holder (h.placed_of_mem_lineage hj (hp j hh) hm) hk] at hkp
      cases hkp

/-! ### Climbing -/

/-- What may follow a node that can be skipped or below which all could be. -/
def followUp (n : NodeId) (passed : Bool) : Edit (List NodeId × Bool) := do
  let skip ← if passed then pure true else canSkip n
  if skip then onward n else pure ([], false)

theorem climb_cons (n : NodeId) (rest : List NodeId) (passed : Bool) :
    climb (n :: rest) passed = (do
      let d ← get
      let r ← followUp n passed
      let e ← get
      let others ← firstLeavesOf (e.otherBranches n)
      let higher ← climb rest r.2
      pure ((if d.isLeaf n then [n] else []) ++ r.1 ++ others ++ higher)) := by
  cases passed with
  | true => simp [climb, followUp]
  | false =>
    simp only [climb, followUp, bind_assoc, Bool.false_eq_true, if_false]
    congr 1
    funext d
    congr 1
    funext skip
    cases skip <;> simp

/-- The leaves under a gap have been found before it is asked for what follows. -/
def Searched (g : Grammar) (limit : Nat) (d : Draft) (n : NodeId) : Prop :=
  (d.node n).placed = false →
    ∃ found, firstIn? g limit d (d.choiceAround n) (d.level n) = some found

theorem Over.finds_followUp (h : Over g limit d) {n : NodeId} (hn : d.HasNode n)
    (hs : Searched g limit d n) (passed : Bool) : Finds (followUp n passed) d
      (follow g limit (d.level n) (d.above (d.choiceAround n)) passed) ShowsWith := by
  cases passed with
  | true =>
    simp only [followUp, if_true, pure_bind, follow, true_or]
    exact h.finds_onward hn
  | false =>
    simp only [followUp, Bool.false_eq_true, if_false, follow]
    refine finds_of_decides (h.decides_canSkip hn) ?_ fun b e hk hb => ?_
    · rintro ⟨hp, hnone⟩
      obtain ⟨found, hfound⟩ := hs hp
      cases hnone.symm.trans hfound
    · have hslot := (h.sound.linked.node n hn).slot
      split
      · rename_i hbt
        rw [if_pos (Or.inr (hb.1 hbt))]
        have hon := (h.keeps hk).finds_onward (hk.grows.hasNode hn)
        rwa [hk.level h.sound hn, hk.grows.choiceAround hn hslot,
          hk.above h.sound (h.sound.linked.hasChoice_around hn)] at hon
      · rename_i hbf
        rw [if_neg (by simpa using fun hq => hbf (hb.2 hq))]
        exact finds_pure hk.sound ⟨shows_nil e, rfl⟩

/-- One step of the climb. -/
theorem Over.finds_climb_step (h : Over g limit d) {n : NodeId} (hn : d.HasNode n)
    (hs : Searched g limit d n) {passed : Bool} {rest : List NodeId}
    (hrest : ∀ e following others, Keeps d e →
      follow g limit (d.level n) (d.above (d.choiceAround n)) passed = some following →
      spread g (firstIn? g limit d (d.choiceAround n)) (d.level n).others = some others →
      Finds (climb rest following.2) e
        (ascend g limit (d.above (d.choiceAround n)) following.2) Shows) :
    Finds (climb (n :: rest) passed) d (ascend g limit (d.trail n) passed) Shows := by
  rw [climb_cons, h.sound.linked.trail_eq hn]
  refine finds_get ?_
  refine (h.finds_followUp hn hs passed).bind fun r e s hk hspec hr => ?_
  refine finds_get ?_
  have hne := hk.grows.hasNode hn
  have hother := (h.keeps hk).finds_others hne
  rw [hk.level h.sound hn, hk.grows.choiceAround hn (h.sound.linked.node n hn).slot,
    h.firstIn?_eq hk (h.sound.linked.hasChoice_around hn)] at hother
  refine hother.bind fun others f us hkf hus hothers => ?_
  rw [hr.2]
  refine (hrest f s us (hk.trans hkf) hspec hus).bind fun higher e' vs hk' _ hhigher => ?_
  refine finds_pure hk'.sound ((Shows.append (Shows.append ?_ ?_) ?_).append hhigher)
  · have hleaf := h.sound.linked.isLeaf_level hn
    rw [h.grammar] at hleaf
    rw [hleaf]
    split
    · refine ⟨by simpa using ((hk.trans hkf).trans hk').grows.hasNode hn, ?_⟩
      rw [List.map_singleton, ((hk.trans hkf).trans hk').trail h.sound hn,
        h.sound.linked.trail_eq hn]
    · exact shows_nil e'
  · exact (hr.1.keeps hk.sound hkf).keeps hkf.sound hk'
  · exact hothers.keeps hkf.sound hk'

/-- Once a level inside a gap has been searched, so have the leaves under the gap. -/
theorem Over.searched_holder (h : Over g limit d) {n m : NodeId} (hn : d.HasNode n)
    (hm : d.holder? n = some m) (ha : LeftAligned d n) (hs : Searched g limit d n) {passed : Bool}
    {following : List Trail × Bool} {others : List Trail}
    (hf : follow g limit (d.level n) (d.above (d.choiceAround n)) passed = some following)
    (ho : spread g (firstIn? g limit d (d.choiceAround n)) (d.level n).others = some others) :
    Searched g limit d m := by
  intro hp
  have hmn := h.sound.linked.hasNode_holder hn hm
  have hi := h.sound.linked.inner?_holder hn hm
  have hin := h.sound.inside_eq hmn hp hi
  rw [h.grammar, h.limit] at hin
  have hopen := Level.opens_of_inside hin
  have hself : n ∈ d.lineage n := by
    rw [h.sound.linked.lineage_of_holder hn hm]
    exact List.mem_cons_self
  have hlevel := ha n hself m hm hp
  have hnp : (d.node n).placed = false := congrArg Level.placed hlevel
  have habove : d.above (d.choiceAround n) = d.level m :: d.above (d.choiceAround m) := by
    rw [← h.sound.linked.trail_eq hmn]
    simp only [Draft.above, show (d.choice (d.choiceAround n)).holder = some m from hm]
  have hfits : (d.level m).Fits g := h.grammar ▸ h.sound.linked.fits_level hmn
  obtain ⟨c, hc⟩ := hopen.entry h.wellFormed
  obtain ⟨found, hfound⟩ := hs hnp
  have hcount : ((d.frame (d.choiceAround n)).gap 0 0).cell.count = 0 := hopen.count_eq_zero rfl
  rw [hlevel] at hf ho hfound
  unfold firstIn? at ho hfound ⊢
  rw [habove] at hf ho hfound
  rw [firsts_of_inside h.wellFormed hfits hin, Frame.allGaps_eq_cons hc]
  simp only [spread, ho]
  rw [stretch_cons (by simp [Level.isFull, hcount]), hfound]
  by_cases hpass : ((d.frame (d.choiceAround n)).gap 0 0).CanPass g
  · rw [follow, if_pos (Or.inr ((Level.canSkip_iff_canPass rfl hcount).2 hpass)),
      ahead_gap rfl hcount.symm] at hf
    simp only [Option.bind_some, if_pos hpass, hf]
    exact ⟨_, rfl⟩
  · simp only [Option.bind_some, if_neg hpass]
    exact ⟨_, rfl⟩

/-- The climb from a leaf finds what its trail says. -/
theorem Over.finds_climb (h : Over g limit d) {n : NodeId} (hn : d.HasNode n)
    (ha : LeftAligned d n) (hs : Searched g limit d n) (passed : Bool) :
    Finds (climb (d.lineage n) passed) d (ascend g limit (d.trail n) passed) Shows := by
  induction hi : n.index using Nat.strongRecOn generalizing n d passed with
  | ind i ih =>
    rcases hm : d.holder? n with _ | m
    · have hnil : d.above (d.choiceAround n) = [] := by
        simp only [Draft.above, show (d.choice (d.choiceAround n)).holder = none from hm]
      rw [lineage_of_top hm]
      refine h.finds_climb_step hn hs fun e following others hk _ _ => ?_
      rw [hnil]
      exact finds_pure hk.sound (shows_nil e)
    · have hmn := h.sound.linked.hasNode_holder hn hm
      rw [h.sound.linked.lineage_of_holder hn hm]
      refine h.finds_climb_step hn hs fun e following others hk hf ho => ?_
      have hlt := h.sound.linked.holder_lt hn hm
      have hsm := h.searched_holder hn hm ha hs hf ho
      have habove : d.above (d.choiceAround n) = d.trail m := by
        simp only [Draft.above, show (d.choice (d.choiceAround n)).holder = some m from hm]
      have hslot := (h.sound.linked.node m hmn).slot
      have hse : Searched g limit e m := fun hp => by
        rw [hk.grows.placed] at hp
        rw [hk.grows.choiceAround hmn hslot, hk.level h.sound hmn,
          h.firstIn?_eq hk (h.sound.linked.hasChoice_around hmn)]
        exact hsm hp
      have hgo := ih m.index (hi ▸ hlt) (h.keeps hk) (hk.grows.hasNode hmn)
        ((ha.of_holder h.sound.linked hn hm).keeps h.sound hmn hk) hse following.2 rfl
      rw [hk.grows.lineage h.sound.linked hk.sound.linked hmn, hk.trail h.sound hmn] at hgo
      rw [habove]
      exact hgo

/-! ### The leftmost leaf -/

/-- The node is a leaf with the trail, and leftmost in the gaps above it. -/
structure Rests (n : NodeId) (d : Draft) (t : Trail) : Prop where
  has : d.HasNode n
  trail : d.trail n = t
  aligned : LeftAligned d n
  leaf : d.isLeaf n = true

theorem Rests.searched {n : NodeId} {t : Trail} (hr : Rests n d t) (h : Over g limit d) :
    Searched g limit d n := fun _ => by
  have hfits : (d.level n).Fits g := h.grammar ▸ h.sound.linked.fits_level hr.has
  have hleaf := h.sound.linked.isLeaf_level hr.has
  rw [h.grammar, hr.leaf] at hleaf
  unfold firstIn?
  rw [firsts_reach h.wellFormed hfits, Level.inside_eq_leaf.2 hleaf]
  exact ⟨_, rfl⟩

/-- Every choice has a first slot. -/
theorem Linked.itemAt?_firstSlot (h : d.Linked) {c : ChoiceId} (hc : d.HasChoice c) :
    itemAt? (d.choice c).branches 0 0 = some (d.firstSlot c) := by
  have hl := h.choice c hc
  have hne := h.grammar.branches_ne _ hl.shape_lt
  rcases hb : (d.choice c).branches with _ | ⟨r, rows⟩
  · rw [← hl.shapes, hb] at hne
    exact absurd rfl hne
  · rcases hr : r with _ | ⟨s, slots⟩
    · have := h.grammar.slots_ne (d.choice c).shape [] (by rw [← hl.shapes, hb, hr]; simp)
      exact absurd rfl this
    · simp [itemAt?, firstSlot, hb, hr]

theorem Linked.hasSlot_firstSlot (h : d.Linked) {c : ChoiceId} (hc : d.HasChoice c) :
    d.HasSlot (d.firstSlot c) ∧ (d.slot (d.firstSlot c)).choice = c := by
  obtain ⟨h1, h2, -⟩ := (h.choice c hc).slots 0 0 _ (h.itemAt?_firstSlot hc)
  exact ⟨h1, h2⟩

theorem Sound.ensures_firstIn (h : d.Sound) {s : SlotId} (hs : d.HasSlot s)
    (hc : (d.slot s).content = []) :
    Ensures (firstIn s) d (fun n e => Keeps d e ∧ GapAt e s 0 n) fun _ _ => False := by
  unfold firstIn
  simp only [ensures_bind, ensures_get, hc]
  exact h.ensures_gap hs (by simp [isFull, hc]) (Nat.zero_le _)

theorem Sound.ensures_firstIn_cons (h : d.Sound) {s : SlotId} {n : NodeId} {rest : List NodeId}
    (hc : (d.slot s).content = n :: rest) :
    Ensures (firstIn s) d (fun m e => Keeps d e ∧ m = n ∧ e = d) fun _ _ => False := by
  unfold firstIn
  simp only [ensures_bind, ensures_get, hc]
  exact ⟨.refl h, rfl, rfl⟩

/-- The leftmost leaf under a gap is found. -/
theorem Over.finds_leftmostWithin : ∀ {bound : Nat} {d : Draft} {n : NodeId}, Over g limit d →
    d.HasNode n → (d.node n).placed = false → LeftAligned d n →
    (d.level n).frame.need g limit ≤ bound → Finds (leftmostWithin bound n) d
      (leftEnd g limit (reach g limit) (d.level n) (d.above (d.choiceAround n))) Rests
  | 0, d, n, _, _, _, _, hb => by
    unfold Frame.need at hb
    omega
  | bound + 1, d, n, h, hn, hp, ha, hb => by
    have hfits : (d.level n).Fits g := h.grammar ▸ h.sound.linked.fits_level hn
    have hreveal := h.sound.finds_reveal hn hp
    rw [h.grammar, h.limit] at hreveal
    rw [leftEnd_reach h.wellFormed hfits]
    refine hreveal.bind fun c e f hk hf ⟨hc, hframe⟩ => ?_
    have he := h.keeps hk
    have hne := hk.grows.hasNode hn
    have htrail : e.trail n = d.level n :: d.above (d.choiceAround n) := by
      rw [hk.trail h.sound hn, h.sound.linked.trail_eq hn]
    have hae := ha.keeps h.sound hn hk
    cases c with
    | none =>
      cases hframe
      refine finds_pure hk.sound ⟨hne, htrail, hae, ?_⟩
      have hleaf := h.sound.linked.isLeaf_level hn
      rw [h.grammar, Level.inside_eq_leaf.1 hf] at hleaf
      rw [hk.grows.isLeaf hn, ← hleaf]
    | some c =>
      cases hframe
      have hopen := he.sound.linked.inner n c hne hc
      have habove : e.above c = d.level n :: d.above (d.choiceAround n) := by
        rw [← htrail]
        simp only [Draft.above, hopen.holder]
      have hlt := Level.need_lt_of_inside h.wellFormed hfits hf
      have hpe : (e.node n).placed = false := by rw [hk.grows.placed, hp]
      obtain ⟨hslot, hchoice⟩ := he.sound.linked.hasSlot_firstSlot hopen.choice
      have hnil := he.sound.settled.content_eq_nil he.sound.linked hslot
        (by rw [hchoice, he.sound.settled.chosen_inner hne hpe hc])
      refine finds_get (finds_of_ensures (he.sound.ensures_firstIn hslot hnil) fun m f hk' hm => ?_)
      have haround : f.choiceAround m = c := by
        rw [hm.choiceAround, (hk'.grows.slot_eq hslot).2.1, hchoice]
      have hlevel : f.level m = (e.frame c).gap 0 0 := by
        rw [hm.level, he.spot_eq hk' hslot]
        exact he.sound.linked.spot_of_itemAt? (he.sound.linked.itemAt?_firstSlot hopen.choice)
      have hholder : f.holder? m = some n := by
        rw [holder?, haround, hk'.grows.choice c hopen.choice, hopen.holder]
      have halign : LeftAligned f m := by
        intro x hx k hk2 hkp
        rw [hk'.sound.linked.lineage_of_holder hm.has hholder, List.mem_cons] at hx
        rcases hx with rfl | hx
        · rw [hlevel, haround, hk'.grows.frame he.sound.linked hopen.choice]
        · exact hae.keeps he.sound hne hk' x hx k hk2 hkp
      have hneed : (f.level m).frame.need g limit ≤ bound := by
        rw [hlevel]
        change (e.frame c).need g limit ≤ bound
        omega
      have ih := (he.keeps hk').finds_leftmostWithin hm.has hm.placed halign hneed
      rwa [hlevel, haround, hk'.above he.sound hopen.choice, habove] at ih

theorem Over.finds_leftmost (h : Over g limit d) {n : NodeId} (hn : d.HasNode n)
    (hp : (d.node n).placed = false) (ha : LeftAligned d n) : Finds (leftmost n) d
      (leftEnd g limit (reach g limit) (d.level n) (d.above (d.choiceAround n))) Rests := by
  refine finds_get ?_
  rw [h.levels_eq]
  exact h.finds_leftmostWithin hn hp ha
    (need_le_reach (h.grammar ▸ h.sound.linked.fits_level hn))

/-! ### Offers behind a placed node -/

/-- A found leaf, or none on both sides. -/
def RestsIf (o : Option NodeId) (d : Draft) (t : Option Trail) : Prop :=
  Option.Rel (fun n u => Rests n d u) o t

/-- The leftmost leaf under a gap that stands in a placed node is found. -/
theorem Over.finds_leftmost_gap (h : Over g limit d) {s : SlotId} (hs : d.HasSlot s)
    (hh : ∀ m, (d.choice (d.slot s).choice).holder = some m → (d.node m).placed = true)
    (hk : Keeps d e) {p : Nat} {m : NodeId} (hm : GapAt e s p m) : Finds (leftmost m) e
      (leftEnd g limit (reach g limit) (d.spot s p false) (d.above (d.slot s).choice)) Rests := by
  have hc := (h.sound.linked.slot s hs).choice
  have haround : e.choiceAround m = (d.slot s).choice := by
    rw [hm.choiceAround, (hk.grows.slot_eq hs).2.1]
  have hl := (h.keeps hk).finds_leftmost hm.has hm.placed (hk.sound.leftAligned hm.has fun k hk' => by
    rw [holder?, haround, hk.grows.choice _ hc] at hk'
    rw [hk.grows.placed]
    exact hh k hk')
  rwa [hm.level, hk.spot h.sound hs, haround, hk.above h.sound hc] at hl

theorem Over.finds_resume_step (h : Over g limit d) {n : NodeId} (hp : (d.node n).placed = true)
    {rest : List NodeId} (hrest : Finds (resumeAlong rest) d
      (pickUp g limit (d.above (d.choiceAround n))) RestsIf) :
    Finds (resumeAlong (n :: rest)) d (pickUp g limit (d.trail n)) RestsIf := by
  have hn := hasNode_of_placed hp
  have hslot := (h.sound.linked.node n hn).slot
  have hh : ∀ m, (d.choice (d.slot (d.node n).slot).choice).holder = some m →
      (d.node m).placed = true := fun m hm => h.sound.placed_holder hp hm
  have hfull : (d.level n).isFull g = d.isFull (d.node n).slot := by
    rw [← h.grammar]
    exact h.sound.linked.isFull_spot hslot _ _
  have hlater : (d.level n).later = (d.slotsAfter (d.node n).slot).map (d.spot · 0 false) :=
    h.sound.linked.later_spot hslot _ _
  rw [h.sound.linked.trail_eq hn]
  unfold resumeAlong
  refine finds_get ?_
  simp only [hp, Bool.not_true, Bool.false_eq_true, if_false, pickUp, hfull]
  by_cases hf : d.isFull (d.node n).slot = false
  · simp only [hf, Bool.not_false, if_true]
    refine finds_of_ensures (h.sound.ensures_gap hslot hf (h.sound.settled.position_lt hp))
      fun m e hk hm => ?_
    exact (h.finds_leftmost_gap hslot hh hk hm).fmap fun _ _ _ _ hr => .some hr
  · rw [Bool.not_eq_false] at hf
    simp only [hf, Bool.not_true, Bool.false_eq_true, if_false, hlater, Bool.true_eq_false]
    rcases hafter : d.slotsAfter (d.node n).slot with _ | ⟨s, slots⟩
    · exact hrest
    · obtain ⟨hs, hsc⟩ := h.sound.linked.mem_slotsAfter (hafter ▸ List.mem_cons_self)
      have hcount : (d.spot s 0 false).cell.count = (d.slot s).content.length := by
        rw [h.sound.linked.cell_spot hs]
        rfl
      simp only [List.map_cons, hcount]
      rcases hcont : (d.slot s).content with _ | ⟨m, ms⟩
      · refine finds_of_ensures (h.sound.ensures_firstIn hs hcont) fun m e hk hm => finds_get ?_
        simp only [isPlaced, hm.placed, Bool.false_eq_true, if_false, List.length_nil, if_true]
        have hl := h.finds_leftmost_gap hs (by rw [hsc]; exact hh) hk hm
        rw [hsc] at hl
        exact hl.fmap fun _ _ _ _ hr => .some hr
      · refine finds_of_ensures (h.sound.ensures_firstIn_cons hcont) fun m' e hk hm => finds_get ?_
        obtain ⟨rfl, rfl⟩ := hm
        have hmp : (e.node m').placed = true :=
          ((h.sound.settled.content s m').1 (hcont ▸ List.mem_cons_self)).1
        simp only [isPlaced, hmp, if_true, List.length_cons, Nat.succ_ne_zero, if_false]
        exact finds_pure h.sound .none

/-- The place where the search goes on behind a placed node is found. -/
theorem Over.finds_resume (h : Over g limit d) {n : NodeId} (hp : (d.node n).placed = true) :
    Finds (resume n) d (pickUp g limit (d.trail n)) RestsIf := by
  refine finds_get ?_
  have hn := hasNode_of_placed hp
  induction n, hn using h.sound.linked.lineage_induction with
  | top n hn hm =>
    rw [lineage_of_top hm]
    refine h.finds_resume_step hp ?_
    simp only [Draft.above, show (d.choice (d.choiceAround n)).holder = none from hm]
    exact finds_pure h.sound .none
  | up n m hn hmn hm ih =>
    rw [h.sound.linked.lineage_of_holder hn hm]
    refine h.finds_resume_step hp ?_
    simp only [Draft.above, show (d.choice (d.choiceAround n)).holder = some m from hm]
    exact ih (h.sound.placed_holder hp hm)

/-- From a leaf that the search starts at, it finds what the leaf's trail says. -/
theorem Over.finds_climb_rest (h : Over g limit d) {n : NodeId} {t : Trail} (hr : Rests n d t) :
    Finds (get >>= fun d => climb (d.lineage n) false) d (ascend g limit t false) Shows := by
  refine finds_get ?_
  rw [← hr.trail]
  exact h.finds_climb hr.has hr.aligned (hr.searched h) false

/-- The offers behind a placed node are what its trail says. -/
theorem Over.finds_offers (h : Over g limit d) {n : NodeId} (hp : (d.node n).placed = true) :
    Finds (offers (some n)) d (prospect g limit (d.trail n)) Shows := by
  refine (h.finds_resume hp).bind fun o e t hk _ hr => ?_
  cases hr with
  | none => exact finds_pure hk.sound (shows_nil e)
  | some hr => exact (h.keeps hk).finds_climb_rest hr

/-! ### Offers before everything -/

/-- Where the search before everything starts: going down through the nodes placed first in first
slots, at a placed leaf or at a gap in an empty slot. -/
inductive Corner (d : Draft) : ChoiceId → Level → Trail → Prop
  | gap {c} (h : (d.slot (d.firstSlot c)).content = []) :
      Corner d c (d.spot (d.firstSlot c) 0 false) (d.above c)
  | leaf {c n rest} (h : (d.slot (d.firstSlot c)).content = n :: rest) (hl : d.isLeaf n = true) :
      Corner d c (d.level n) (d.above c)
  | inner {c n rest c' l t} (h : (d.slot (d.firstSlot c)).content = n :: rest)
      (hc : d.inner? n = some c') (h' : Corner d c' l t) : Corner d c l t

/-- Inside a node the bound on levels is smaller than around it. -/
theorem Over.need_inner_lt (h : Over g limit d) {n : NodeId} (hn : d.HasNode n) {c : ChoiceId}
    (hc : d.inner? n = some c) :
    (d.frame c).need g limit < (d.frame (d.choiceAround n)).need g limit := by
  have ho := h.sound.linked.inner n c hn hc
  have hdepth := (h.sound.linked.choice c ho.choice).depth_le
  rw [h.limit] at hdepth
  have hsym := h.sound.linked.symbol_level hn
  rw [h.grammar] at hsym
  have hshape := ho.shape
  rw [symbol, h.grammar] at hshape
  have hopens : (d.level n).Opens g (.empty g (d.choice c).shape (d.choice c).depth) := by
    refine ⟨_, by rw [hsym]; exact hshape, ?_⟩
    rw [hsym, ho.depth, symbol, h.grammar]
    rfl
  have hlt := Level.need_lt_of_inside h.wellFormed (h.grammar ▸ h.sound.linked.fits_level hn)
    (Level.inside_of_opens hopens hdepth)
  exact hlt

theorem Over.exists_corner (h : Over g limit d) {c : ChoiceId} (hc : d.HasChoice c) :
    ∃ l t, Corner d c l t := by
  induction hi : (d.frame c).need g limit using Nat.strongRecOn generalizing c with
  | ind i ih =>
    rcases hcont : (d.slot (d.firstSlot c)).content with _ | ⟨n, rest⟩
    · exact ⟨_, _, .gap hcont⟩
    · obtain ⟨hp, hslot⟩ := (h.sound.settled.content _ n).1 (hcont ▸ List.mem_cons_self)
      have hn := hasNode_of_placed hp
      by_cases hl : d.isLeaf n = true
      · exact ⟨_, _, .leaf hcont hl⟩
      · rw [Bool.not_eq_true] at hl
        obtain ⟨c', hc', -⟩ := (h.sound.settled.inner n hn hl (by simp)).1 hp
        have hlt := h.need_inner_lt hn hc'
        rw [choiceAround, hslot, (h.sound.linked.hasSlot_firstSlot hc).2, hi] at hlt
        obtain ⟨l, t, hcor⟩ := ih _ hlt (h.sound.linked.inner n c' hn hc').choice rfl
        exact ⟨l, t, .inner hcont hc' hcor⟩

theorem Over.finds_corner (h : Over g limit d) {c : ChoiceId} {l : Level} {t : Trail}
    (hcor : Corner d c l t) : d.HasChoice c →
    (∀ m, (d.choice c).holder = some m → (d.node m).placed = true) →
    ∀ {bound : Nat}, (d.frame c).need g limit ≤ bound →
    Finds (firstIn (d.firstSlot c) >>= leftmostWithin bound) d
      (leftEnd g limit (reach g limit) l t) Rests := by
  induction hcor with
  | @gap c hnil =>
    intro hc hh bound hb
    obtain ⟨hs, hsc⟩ := h.sound.linked.hasSlot_firstSlot hc
    refine finds_of_ensures (h.sound.ensures_firstIn hs hnil) fun m e hk hm => ?_
    have haround : e.choiceAround m = c := by
      rw [hm.choiceAround, (hk.grows.slot_eq hs).2.1, hsc]
    have hlevel := hm.level.trans (hk.spot h.sound hs 0 false)
    have halign : LeftAligned e m := hk.sound.leftAligned hm.has fun k hk' => by
      rw [holder?, haround, hk.grows.choice _ hc] at hk'
      rw [hk.grows.placed]
      exact hh k hk'
    have hneed : (e.level m).frame.need g limit ≤ bound := by
      rw [hlevel, spot, hsc]
      exact hb
    have hl := (h.keeps hk).finds_leftmostWithin hm.has hm.placed halign hneed
    rwa [hlevel, haround, hk.above h.sound hc] at hl
  | @leaf c n rest hcont hleaf =>
    intro hc hh bound hb
    refine finds_of_ensures (h.sound.ensures_firstIn_cons hcont) fun m e hk hm => ?_
    obtain ⟨rfl, rfl⟩ := hm
    obtain ⟨hp, hslot⟩ := (h.sound.settled.content _ m).1 (hcont ▸ List.mem_cons_self)
    have hn := hasNode_of_placed hp
    have haround : e.choiceAround m = c := by
      rw [choiceAround, hslot, (h.sound.linked.hasSlot_firstSlot hc).2]
    have hfits : (e.level m).Fits g := h.grammar ▸ h.sound.linked.fits_level hn
    have hl := h.sound.linked.isLeaf_level hn
    rw [h.grammar, hleaf] at hl
    rw [leftEnd_reach h.wellFormed hfits, Level.inside_eq_leaf.2 hl]
    have hrests : Rests m e (e.level m :: e.above c) :=
      ⟨hn, by rw [h.sound.linked.trail_eq hn, haround], h.sound.leftAligned hn fun k hk' =>
        h.sound.placed_holder hp hk', hleaf⟩
    cases bound with
    | zero => exact finds_pure h.sound hrests
    | succ bound =>
      unfold Finds leftmostWithin
      rw [ensures_bind, Ensures, reveal_of_leaf hleaf]
      exact ⟨.refl h.sound, _, rfl, hrests⟩
  | @inner c n rest c' l t hcont hinner _ ih =>
    intro hc hh bound hb
    refine finds_of_ensures (h.sound.ensures_firstIn_cons hcont) fun m e hk hm => ?_
    obtain ⟨rfl, rfl⟩ := hm
    obtain ⟨hp, hslot⟩ := (h.sound.settled.content _ m).1 (hcont ▸ List.mem_cons_self)
    have hn := hasNode_of_placed hp
    have hlt := h.need_inner_lt hn hinner
    rw [choiceAround, hslot, (h.sound.linked.hasSlot_firstSlot hc).2] at hlt
    cases bound with
    | zero => omega
    | succ bound =>
      have hopen := h.sound.linked.inner m c' hn hinner
      have hneed : (e.frame c').need g limit ≤ bound := by omega
      have hgo := ih hopen.choice (fun k hk' => by
        rw [hopen.holder] at hk'
        cases hk'
        exact hp) hneed
      unfold Finds leftmostWithin
      rw [ensures_bind, Ensures, reveal_of_inner? hinner]
      exact hgo

/-- The offers before everything are what the trail of its start says. -/
theorem Over.finds_offers_none (h : Over g limit d) {l : Level} {t : Trail}
    (hcor : Corner d ⟨0⟩ l t) : Finds (offers none) d
      ((leftEnd g limit (reach g limit) l t).bind fun u => ascend g limit u false) Shows := by
  have hroot := h.sound.linked.root
  have hneed : (d.frame ⟨0⟩).need g limit ≤ reach g limit := by
    have hs := (h.sound.linked.hasSlot_firstSlot hroot)
    have hle : (d.spot (d.firstSlot ⟨0⟩) 0 false).frame.need g limit ≤ reach g limit :=
      need_le_reach (h.grammar ▸ h.sound.linked.fits_spot hs.1 0 false)
    rwa [spot, hs.2] at hle
  have hfirst : Finds firstLeaf d (leftEnd g limit (reach g limit) l t) Rests := by
    have hc := h.finds_corner hcor hroot (fun m hm => by
      rw [show (d.choice ⟨0⟩).holder = none from h.sound.linked.root_holder] at hm
      cases hm) hneed
    have hkeeps : Ensures (firstIn (d.firstSlot ⟨0⟩)) d (fun _ e => Keeps d e) fun _ _ => True := by
      rcases hcont : (d.slot (d.firstSlot ⟨0⟩)).content with _ | ⟨n, rest⟩
      · exact (h.sound.ensures_firstIn (h.sound.linked.hasSlot_firstSlot hroot).1 hcont).mono
          (fun _ _ h => h.1) fun _ _ h => h.elim
      · exact (h.sound.ensures_firstIn_cons hcont).mono (fun _ _ h => h.1) fun _ _ h => h.elim
    unfold firstLeaf
    refine finds_get ?_
    unfold Finds at hc ⊢
    rw [ensures_bind] at hc ⊢
    refine (hkeeps.and hc).mono ?_ fun r e hr => hr.2
    rintro n e ⟨hk, hn⟩
    unfold leftmost
    rwa [ensures_bind, ensures_get, (h.keeps hk).levels_eq]
  have hstart : Finds (some <$> firstLeaf) d (some <$> leftEnd g limit (reach g limit) l t) RestsIf :=
    hfirst.fmap fun _ _ _ _ hr => .some hr
  have hspec : ((some <$> leftEnd g limit (reach g limit) l t).bind fun u =>
      u.elim (some []) fun u => ascend g limit u false)
      = (leftEnd g limit (reach g limit) l t).bind fun u => ascend g limit u false := by
    cases leftEnd g limit (reach g limit) l t <;> rfl
  rw [← hspec]
  refine hstart.bind fun o e u hk _ hr => ?_
  cases hr with
  | none => exact finds_pure hk.sound (shows_nil e)
  | some hr => exact (h.keeps hk).finds_climb_rest hr

end Cloze.Draft
