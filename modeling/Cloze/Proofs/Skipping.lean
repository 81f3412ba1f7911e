import Cloze.Proofs.Sound

/-!
# What can be left out

Whether a node can be skipped is decided right (`decides_canSkip`): a node that is not placed can be
skipped if it is a further occurrence in its slot or if its symbol can stand for nothing. So what is
remembered as unskippable is so for good, in this and in every other draft over the grammar. If the
question is refused because a rule is nested too deep, the search for the first leaves under the node
runs into that rule too.
-/

namespace Cloze.Draft

open Edit

variable {g : Grammar} {limit : Nat} {d e : Draft}

/-- An edit that decides a question. If it is refused, then for a rule nested too deep, and `stuck`
says so of the search. -/
def Decides (act : Edit Bool) (d : Draft) (question stuck : Prop) : Prop :=
  Ensures act d (fun b e => Keeps d e ∧ (b = true ↔ question))
    fun r e => Keeps d e ∧ stuck ∧ ∃ rule, r = .tooDeep rule d.settings.recursionLimit

theorem decides_pure (h : d.Sound) {b : Bool} {question stuck : Prop} (hb : b = true ↔ question) :
    Decides (pure b) d question stuck :=
  ⟨.refl h, hb⟩

/-- A decision taken later, after the draft has grown. -/
theorem Decides.of_keeps {act : Edit Bool} {question stuck : Prop} (hk : Keeps d e)
    (h : Decides act e question stuck) :
    Ensures act e (fun b f => Keeps d f ∧ (b = true ↔ question))
      fun r f => Keeps d f ∧ stuck ∧ ∃ rule, r = .tooDeep rule d.settings.recursionLimit :=
  Ensures.mono h (fun _ _ ⟨hk', hb⟩ => ⟨hk.trans hk', hb⟩)
    fun _ _ ⟨hk', hs, rule, hr⟩ => ⟨hk.trans hk', hs, rule, by rw [hr, hk.grows.settings]⟩

theorem Decides.imp {act : Edit Bool} {question question' stuck stuck' : Prop}
    (h : Decides act d question stuck) (hq : question ↔ question') (hs : stuck → stuck') :
    Decides act d question' stuck' :=
  Ensures.mono h (fun _ _ ⟨hk, hb⟩ => ⟨hk, hb.trans hq⟩) fun _ _ ⟨hk, h, hr⟩ => ⟨hk, hs h, hr⟩

theorem Over.spot_eq (h : Over g limit d) (hk : Keeps d e) {s : SlotId} (hs : d.HasSlot s) :
    e.spot s 0 false = d.spot s 0 false :=
  hk.spot h.sound hs 0 false

theorem Over.map_spot (h : Over g limit d) (hk : Keeps d e) {slots : List SlotId}
    (hs : ∀ s ∈ slots, d.HasSlot s) :
    slots.map (e.spot · 0 false) = slots.map (d.spot · 0 false) :=
  List.map_congr_left fun s hm => h.spot_eq hk (hs s hm)

theorem Over.canPass_of_isFree (h : Over g limit d) {s : SlotId} (hs : d.HasSlot s)
    (hc : (d.slot s).content = []) (hf : d.isFree s = true) : (d.spot s 0 false).CanPass g := by
  obtain ⟨hsound, rfl, -⟩ := h
  rw [Level.CanPass, hsound.linked.cell_spot hs, cellOf, hc]
  refine ⟨rfl, ?_⟩
  simp only [isFree, Bool.or_eq_true, beq_iff_eq] at hf
  exact hf.imp id .option

/-- All slots of an empty branch can be skipped if all can be passed. -/
theorem Over.decides_everySlot {inside : NodeId → Edit Bool} {first : Level → Option (List Trail)} :
    ∀ {slots : List SlotId} {d : Draft}, Over g limit d →
    (∀ s ∈ slots, d.HasSlot s ∧ (d.slot s).content = []) →
    (∀ s ∈ slots, ∀ e n, Keeps d e → GapAt e s 0 n →
      Decides (inside n) e ((d.spot s 0 false).CanSkip g) (first (d.spot s 0 false) = none)) →
    Decides (everySlot inside slots) d (∀ s ∈ slots, (d.spot s 0 false).CanPass g)
      (stretch g first (slots.map (d.spot · 0 false)) = none)
  | [], d, h, _, _ => decides_pure h.sound (by simp)
  | s :: rest, d, h, hslots, hin => by
    obtain ⟨⟨hs, hc⟩, hrest⟩ := List.forall_mem_cons.1 hslots
    obtain ⟨hin1, hin2⟩ := List.forall_mem_cons.1 hin
    -- What remains is decided in whatever the draft has become.
    have hgo : ∀ e, Keeps d e → (d.spot s 0 false).CanPass g →
        Decides (everySlot inside rest) e (∀ t ∈ s :: rest, (d.spot t 0 false).CanPass g)
          (stretch g first ((s :: rest).map (d.spot · 0 false)) = none) := fun e hk hp => by
      have ih := (h.keeps hk).decides_everySlot (fun t ht => ⟨hk.grows.hasSlot (hrest t ht).1, by
          rw [hk.grows.content, (hrest t ht).2]⟩) fun t ht f n hk' hn => by
        rw [h.spot_eq hk (hrest t ht).1]
        exact hin2 t ht f n (hk.trans hk') hn
      refine ih.imp ?_ fun hnone => ?_
      · rw [List.forall_mem_cons]
        refine ⟨fun hall => ⟨hp, fun t ht => ?_⟩, fun hall t ht => ?_⟩
        · rw [← h.spot_eq hk (hrest t ht).1]
          exact hall t ht
        · rw [h.spot_eq hk (hrest t ht).1]
          exact hall.2 t ht
      · rw [h.map_spot hk fun t ht => (hrest t ht).1] at hnone
        exact stretch_eq_none_of_rest hp hnone
    have hcount : (d.spot s 0 false).cell.count = 0 := by
      rw [h.sound.linked.cell_spot hs, cellOf, hc]
      rfl
    unfold Decides everySlot
    simp only [ensures_bind, ensures_get, hc, List.isEmpty_nil, Bool.not_true, Bool.false_eq_true,
      if_false]
    split
    · rename_i hf
      exact hgo d (.refl h.sound) (h.canPass_of_isFree hs hc hf)
    · have hfull : d.isFull s = false := by simp [isFull, hc]
      rw [ensures_bind]
      refine (h.sound.ensures_gap hs hfull (Nat.zero_le _)).mono ?_ fun _ _ h => h.elim
      rintro n e ⟨hk, hn⟩
      rw [ensures_bind]
      refine ((hin1 e n hk hn).of_keeps hk).mono ?_ ?_
      · rintro b f ⟨hk', hb⟩
        rw [Level.canSkip_iff_canPass rfl hcount] at hb
        split
        · rename_i hbt
          exact (hgo f hk' (hb.1 hbt)).of_keeps hk'
        · rename_i hbf
          simp only [ensures_pure]
          refine ⟨hk', iff_of_false (by simp) fun hall => hbf (hb.2 ?_)⟩
          exact hall s List.mem_cons_self
      · rintro r f ⟨hk', hnone, hr⟩
        exact ⟨hk', stretch_eq_none_of_first (by simp [Level.isFull, hcount]) hnone, hr⟩

/-- Some branch of an empty choice can be skipped. -/
theorem Over.decides_someBranch {inside : NodeId → Edit Bool} {first : Level → Option (List Trail)} :
    ∀ {rows : List (List SlotId)} {d : Draft}, Over g limit d →
    (∀ row ∈ rows, ∀ s ∈ row, d.HasSlot s ∧ (d.slot s).content = []) →
    (∀ row ∈ rows, ∀ s ∈ row, ∀ e n, Keeps d e → GapAt e s 0 n →
      Decides (inside n) e ((d.spot s 0 false).CanSkip g) (first (d.spot s 0 false) = none)) →
    Decides (someBranch inside rows) d (∃ row ∈ rows, ∀ s ∈ row, (d.spot s 0 false).CanPass g)
      (spread g first (rows.map (·.map (d.spot · 0 false))) = none)
  | [], d, h, _, _ => decides_pure h.sound (by simp)
  | row :: rows, d, h, hrows, hin => by
    obtain ⟨hrow, hrest⟩ := List.forall_mem_cons.1 hrows
    obtain ⟨hin1, hin2⟩ := List.forall_mem_cons.1 hin
    unfold Decides someBranch
    rw [ensures_bind]
    refine Ensures.mono (h.decides_everySlot hrow hin1) ?_ ?_
    rotate_left
    · rintro r e ⟨hk, hnone, hr⟩
      exact ⟨hk, by simp [spread, hnone], hr⟩
    rintro b e ⟨hk, hb⟩
    split
    · rename_i hbt
      rw [ensures_pure]
      exact ⟨hk, iff_of_true rfl ⟨row, List.mem_cons_self, hb.1 hbt⟩⟩
    · rename_i hbf
      have ih := (h.keeps hk).decides_someBranch
        (fun r hr t ht => ⟨hk.grows.hasSlot (hrest r hr t ht).1, by
          rw [hk.grows.content, (hrest r hr t ht).2]⟩) fun r hr t ht f n hk' hn => by
        rw [h.spot_eq hk (hrest r hr t ht).1]
        exact hin2 r hr t ht f n (hk.trans hk') hn
      refine (ih.imp ?_ fun hnone => ?_).of_keeps hk
      · constructor
        · rintro ⟨r, hr, hall⟩
          refine ⟨r, List.mem_cons_of_mem _ hr, fun t ht => ?_⟩
          rw [← h.spot_eq hk (hrest r hr t ht).1]
          exact hall t ht
        · rintro ⟨r, hr, hall⟩
          rcases List.mem_cons.1 hr with rfl | hr
          · exact absurd (hb.2 hall) hbf
          · refine ⟨r, hr, fun t ht => ?_⟩
            rw [h.spot_eq hk (hrest r hr t ht).1]
            exact hall t ht
      · have hmap : rows.map (·.map (e.spot · 0 false)) = rows.map (·.map (d.spot · 0 false)) :=
          List.map_congr_left fun r hr => h.map_spot hk fun t ht => (hrest r hr t ht).1
        rw [hmap] at hnone
        simp [spread, hnone]

/-! ### Nodes -/

/-- A node that is not placed can be skipped if it is a further occurrence in its slot or if its
symbol can stand for nothing. -/
theorem Linked.canSkip_level (h : d.Linked) {n : NodeId} (hn : d.HasNode n) :
    (d.level n).CanSkip d.grammar ↔
    d.isPlaced n = false ∧ (d.multiplicity (d.node n).slot = .star ∨
      d.multiplicity (d.node n).slot = .plus ∧ (d.slot (d.node n).slot).content ≠ [] ∨
      d.grammar.Nullable (d.node n).symbol) := by
  have hslot := (h.node n hn).slot
  have hmult : (d.level n).multiplicity d.grammar = d.multiplicity (d.node n).slot :=
    h.multiplicity_spot hslot _ _
  have hcell : (d.level n).cell = d.cellOf (d.node n).slot := h.cell_spot hslot _ _
  unfold Level.CanSkip
  rw [h.symbol_level hn, hmult, hcell]
  simp [cellOf, isPlaced, Draft.level, spot]

theorem Over.skipAtSight?_eq_some (h : Over g limit d) {n : NodeId} (hn : d.HasNode n) {b : Bool}
    (hs : d.skipAtSight? n = some b) : b = true ↔ (d.level n).CanSkip g := by
  obtain ⟨hsound, rfl, -⟩ := h
  have hslot := (hsound.linked.node n hn).slot
  have hsym := (hsound.linked.node n hn).symbol
  rw [hsound.linked.canSkip_level hn]
  unfold skipAtSight? at hs
  dsimp only at hs
  split at hs
  · rename_i hp
    cases hs
    exact iff_of_false (by simp) fun hq => by simp [show (d.node n).placed = false from hq.1] at hp
  · rename_i hp
    split at hs
    · rename_i hmemo
      cases hs
      simp only [Bool.and_eq_true, List.contains_iff_mem] at hmemo
      obtain ⟨b, hb, hshape⟩ := mem_of_itemAt? (hsound.linked.fits_spot hslot 0 false).entry
      rw [hsound.linked.cell_spot hslot] at hshape
      obtain ⟨honce, hnull⟩ := hsound.honest (d.slot (d.node n).slot).shape
        (hsound.linked.grammar.slot _ b hb _ hshape) (by rw [hsym] at hmemo; exact hmemo.2)
      have honce' : d.multiplicity (d.node n).slot = .once := honce
      refine iff_of_false (by simp) ?_
      rintro ⟨-, hstar | ⟨hplus, -⟩ | hnull'⟩
      · rw [honce'] at hstar
        cases hstar
      · rw [honce'] at hplus
        cases hplus
      · exact hnull (by rw [hsym] at hnull'; exact hnull')
    · split at hs
      · rename_i hfree
        cases hs
        refine iff_of_true rfl ⟨show (d.node n).placed = false by simpa using hp, ?_⟩
        simp only [Bool.or_eq_true, Bool.and_eq_true, beq_iff_eq, Bool.not_eq_true',
          List.isEmpty_eq_false_iff] at hfree
        rcases hfree with (hopt | ⟨hplus, hne⟩) | hstar
        · exact Or.inr (Or.inr (.option hopt))
        · exact Or.inr (Or.inl ⟨hplus, hne⟩)
        · exact Or.inl hstar
      · cases hs

/-- Where sight does not tell, a node can be skipped if its symbol can stand for nothing. -/
theorem Over.skipAtSight?_eq_none (h : Over g limit d) {n : NodeId} (hn : d.HasNode n)
    (hs : d.skipAtSight? n = none) : (d.node n).placed = false
      ∧ (g.symbol (d.node n).symbol).isOption = false ∧ d.multiplicity (d.node n).slot ≠ .star
      ∧ ((d.level n).CanSkip g ↔ g.Nullable (d.node n).symbol) := by
  obtain ⟨hsound, rfl, -⟩ := h
  rw [hsound.linked.canSkip_level hn]
  unfold skipAtSight? at hs
  dsimp only at hs
  split at hs
  · cases hs
  · rename_i hp
    split at hs
    · cases hs
    · split at hs
      · cases hs
      · rename_i hfree
        simp only [Bool.or_eq_true, Bool.and_eq_true, beq_iff_eq, Bool.not_eq_true',
          List.isEmpty_eq_false_iff, not_or, not_and, Bool.not_eq_true] at hfree hp
        obtain ⟨⟨hopt, hplus⟩, hstar⟩ := hfree
        refine ⟨hp, hopt, hstar, fun hq => ?_, fun hq => ⟨hp, Or.inr (Or.inr hq)⟩⟩
        rcases hq.2 with hq | ⟨hq, hne⟩ | hq
        · exact absurd hq hstar
        · exact absurd hne (hplus hq)
        · exact hq

/-- A symbol can stand for nothing if all slots of some branch of its choice can be passed. -/
theorem Over.nullable_iff (h : Over g limit d) {n : NodeId} (hn : d.HasNode n)
    (hp : (d.node n).placed = false) (ho : (g.symbol (d.node n).symbol).isOption = false)
    {c : ChoiceId} (hc : d.inner? n = some c) :
    (∃ row ∈ (d.choice c).branches, ∀ s ∈ row, (d.spot s 0 false).CanPass g)
      ↔ g.Nullable (d.node n).symbol := by
  obtain ⟨hsound, rfl, -⟩ := h
  have hopen := hsound.linked.inner n c hn hc
  have hshapes := (hsound.linked.choice c hopen.choice).shapes
  have hchosen := hsound.settled.chosen_inner hn hp hc
  have hpass : ∀ row ∈ (d.choice c).branches, ∀ s ∈ row,
      ((d.spot s 0 false).CanPass d.grammar ↔ d.grammar.Skippable (d.slot s).shape) := by
    intro row hrow s hs
    obtain ⟨h1, h2⟩ := hsound.linked.hasSlot_of_mem_row hrow hs
    have hnil := hsound.settled.content_eq_nil hsound.linked h1 (by rw [h2, hchosen])
    rw [Level.CanPass, hsound.linked.cell_spot h1, cellOf, hnil]
    simp
  constructor
  · rintro ⟨row, hrow, hall⟩
    refine Grammar.nullable_of_branch hopen.shape
      (b := row.map fun s => (d.slot s).shape) ?_ fun s hs => ?_
    · rw [← hshapes]
      exact List.mem_map.2 ⟨row, hrow, rfl⟩
    · obtain ⟨t, ht, rfl⟩ := List.mem_map.1 hs
      exact (hpass row hrow t ht).1 (hall t ht)
  · intro hnull
    obtain ⟨c', hc', b, hb, hall⟩ := hnull.exists_branch ho
    have hc'' : some (d.choice c).shape = some c' := hopen.shape.symm.trans hc'
    cases hc''
    rw [← hshapes] at hb
    obtain ⟨row, hrow, rfl⟩ := List.mem_map.1 hb
    exact ⟨row, hrow, fun s hs => (hpass row hrow s hs).2 (hall _ (List.mem_map.2 ⟨s, hs, rfl⟩))⟩

/-- What is remembered once a node is found impossible to skip is so. -/
theorem Over.keeps_settle (h : Over g limit d) {n : NodeId} (hn : d.HasNode n)
    (hstar : d.multiplicity (d.node n).slot ≠ .star) (hnull : ¬ g.Nullable (d.node n).symbol) :
    Keeps d (d.settle n) := by
  obtain ⟨hsound, rfl, -⟩ := h
  unfold settle
  dsimp only
  split
  · rename_i hmemo
    simp only [Bool.and_eq_true, bne_iff_ne] at hmemo
    refine hsound.remember fun s hs hmem => ?_
    rcases List.mem_cons.1 hmem with heq | hmem
    · have hslot := (hsound.linked.node n hn).slot
      obtain ⟨b, hb, hshape⟩ := mem_of_itemAt? (hsound.linked.fits_spot hslot 0 false).entry
      rw [hsound.linked.cell_spot hslot] at hshape
      have hlt := hsound.linked.grammar.slot _ b hb _ hshape
      have hsame : s = (d.slot (d.node n).slot).shape := by
        have h1 := hsound.linked.grammar.symbol s hs
        have h2 := hsound.linked.grammar.symbol _ hlt
        rw [(hsound.linked.node n hn).symbol, slotSymbol] at heq
        simp only [cellOf] at h2
        rw [h1, h2] at heq
        cases s
        cases hsh : (d.slot (d.node n).slot).shape
        simp [hsh] at heq ⊢
        exact heq
      refine ⟨?_, by rw [heq]; exact hnull⟩
      rw [hsame]
      have hmult : d.multiplicity (d.node n).slot = .once := by
        rcases hm : d.multiplicity (d.node n).slot with _ | _ | _
        · rfl
        · exact absurd hm hmemo.2
        · exact absurd hm hstar
      exact hmult
    · exact hsound.honest s hs hmem
  · exact .refl hsound

/-- A leaf stands for something. -/
theorem Over.not_nullable_of_leaf (h : Over g limit d) {n : NodeId} (hn : d.HasNode n)
    (hopt : (g.symbol (d.node n).symbol).isOption = false) (hleaf : (d.level n).isLeaf g = true) :
    ¬ g.Nullable (d.node n).symbol := by
  intro hnull
  obtain ⟨c, hc, -⟩ := hnull.exists_branch hopt
  have hsymbol := h.sound.linked.symbol_level hn
  rw [h.grammar] at hsymbol
  rw [Level.isLeaf, hsymbol, Bool.not_eq_true', ← Grammar.bodyOf?_eq_none (g := g), hc] at hleaf
  cases hleaf

/-- The branches that a node stands for are decided right if the nodes in them are. -/
theorem Over.decides_branches (h : Over g limit d) {n : NodeId} {c : ChoiceId} (hn : d.HasNode n)
    (hp : (d.node n).placed = false) (hopt : (g.symbol (d.node n).symbol).isOption = false)
    (hc : d.inner? n = some c) {inside : NodeId → Edit Bool}
    (hin : ∀ e m, Keeps d e → e.HasNode m → (e.level m).frame = d.frame c →
      e.above (e.choiceAround m) = d.above c → Decides (inside m) e ((e.level m).CanSkip g)
        (firsts g limit (reach g limit) (e.level m) (d.above c) = none)) :
    Decides (someBranch inside (d.choice c).branches) d (g.Nullable (d.node n).symbol)
      (spread g (fun k => firsts g limit (reach g limit) k (d.above c)) (d.frame c).allGaps
        = none) := by
  have hopen := h.sound.linked.inner n c hn hc
  have hchosen := h.sound.settled.chosen_inner hn hp hc
  rw [h.sound.linked.allGaps_eq]
  refine (h.decides_someBranch (fun row hrow s hs => ?_) fun row hrow s hs e m hk hm => ?_).imp
    (h.nullable_iff hn hp hopt hc) id
  · obtain ⟨h1, h2⟩ := h.sound.linked.hasSlot_of_mem_row hrow hs
    exact ⟨h1, h.sound.settled.content_eq_nil h.sound.linked h1 (by rw [h2, hchosen])⟩
  · obtain ⟨h1, h2⟩ := h.sound.linked.hasSlot_of_mem_row hrow hs
    have hlevel : e.level m = d.spot s 0 false := hm.level.trans (hk.spot h.sound h1 0 false)
    have hframe : (d.spot s 0 false).frame = d.frame c := by rw [spot, h2]
    have habove : e.above (e.choiceAround m) = d.above c := by
      rw [hm.choiceAround, (hk.grows.slot_eq h1).2.1, h2, hk.above h.sound hopen.choice]
    have hdec := hin e m hk hm.has (by rw [hlevel, hframe]) habove
    rwa [hlevel] at hdec

/-- What the branches have told of a node is remembered. -/
theorem Over.decides_settle (h : Over g limit d) {n : NodeId} {x : Grammar.SymbolId}
    (hn : d.HasNode n) (hx : (d.node n).symbol = x)
    (hstar : d.multiplicity (d.node n).slot ≠ .star) {b : Bool} {stuck : Prop}
    (hb : b = true ↔ g.Nullable x) :
    Decides (if b then pure true else do modify (·.settle n); pure false) d (g.Nullable x)
      stuck := by
  subst hx
  unfold Decides
  split
  · rename_i hbt
    rw [ensures_pure]
    exact ⟨.refl h.sound, iff_of_true rfl (hb.1 hbt)⟩
  · rename_i hbf
    simp only [ensures_bind, ensures_modify]
    rw [ensures_pure]
    exact ⟨h.keeps_settle hn hstar (mt hb.2 hbf), iff_of_false (by simp) (mt hb.2 hbf)⟩

/-- Whether a node can be skipped is decided right. -/
theorem Over.decides_canSkipWithin : ∀ {bound : Nat} {d : Draft} {n : NodeId}, Over g limit d →
    d.HasNode n → (d.level n).frame.need g limit ≤ bound →
    Decides (canSkipWithin bound n) d ((d.level n).CanSkip g) ((d.node n).placed = false ∧
      firsts g limit (reach g limit) (d.level n) (d.above (d.choiceAround n)) = none)
  | 0, d, n, _, _, hb => by
    unfold Frame.need at hb
    omega
  | bound + 1, d, n, h, hn, hb => by
    unfold Decides canSkipWithin
    simp only [ensures_bind, ensures_get]
    rcases hs : d.skipAtSight? n with _ | answer
    · obtain ⟨hp, hopt, hstar, hiff⟩ := h.skipAtSight?_eq_none hn hs
      have hfits : (d.level n).Fits g := h.grammar ▸ h.sound.linked.fits_level hn
      rw [hiff]
      simp only [ensures_bind]
      have hreveal := h.sound.finds_reveal hn hp
      rw [h.grammar, h.limit] at hreveal
      refine Ensures.mono hreveal ?_ ?_
      · rintro c e ⟨hk, f, hf, hc, hframe⟩
        cases c with
        | none =>
          cases hframe
          have hleaf := Level.inside_eq_leaf.1 hf
          rw [ensures_pure]
          exact ⟨hk, iff_of_false (by simp) (h.not_nullable_of_leaf hn hopt hleaf)⟩
        | some c =>
          cases hframe
          have he := h.keeps hk
          have hne := hk.grows.hasNode hn
          have hpe : (e.node n).placed = false := by rw [hk.grows.placed, hp]
          have hsymbol : (e.node n).symbol = (d.node n).symbol := (hk.grows.node_eq hn).1
          have hopt' : (g.symbol (e.node n).symbol).isOption = false := by rwa [hsymbol]
          have hlt := Level.need_lt_of_inside h.wellFormed hfits hf
          have hdec : Decides (someBranch (canSkipWithin bound) (e.choice c).branches) e _ _ :=
            he.decides_branches hne hpe hopt' hc fun f m hk' hm hframe habove => by
              have hneed : (f.level m).frame.need g limit ≤ bound := by
                rw [hframe]
                omega
              have ih := (he.keeps hk').decides_canSkipWithin hm hneed
              rw [habove] at ih
              exact ih.imp Iff.rfl And.right
          simp only [ensures_bind, ensures_get]
          refine Ensures.mono (hdec.of_keeps hk) ?_ ?_
          · rintro b f ⟨hkf, hb'⟩
            rw [hsymbol] at hb'
            obtain ⟨hsymbol', hslot, -⟩ := hkf.grows.node_eq hn
            refine ((h.keeps hkf).decides_settle (hkf.grows.hasNode hn) hsymbol' ?_ hb').of_keeps hkf
            rwa [hslot, hkf.grows.multiplicity (h.sound.linked.node n hn).slot]
          · rintro r f ⟨hkf, hnone, hr⟩
            have htrail : e.above c = d.level n :: d.above (d.choiceAround n) := by
              have hopen := he.sound.linked.inner n c hne hc
              rw [← h.sound.linked.trail_eq hn, ← hk.trail h.sound hn]
              simp only [Draft.above, hopen.holder]
            refine ⟨hkf, ⟨hp, ?_⟩, hr⟩
            rw [firsts_of_inside h.wellFormed hfits hf, ← htrail]
            exact hnone
      · rintro r e ⟨hk, hnone, hr⟩
        refine ⟨hk, ⟨hp, ?_⟩, hr⟩
        obtain ⟨m, hm⟩ := exists_reach_eq_succ g limit
        rw [hm]
        exact firsts_eq_none hnone
    · rw [ensures_pure]
      exact ⟨.refl h.sound, h.skipAtSight?_eq_some hn hs⟩

theorem Over.levels_eq (h : Over g limit d) : d.levels = reach g limit := by
  rw [levels, reach, h.grammar, h.limit]

/-- Whether a node can be skipped is decided right. -/
theorem Over.decides_canSkip (h : Over g limit d) {n : NodeId} (hn : d.HasNode n) :
    Decides (canSkip n) d ((d.level n).CanSkip g) ((d.node n).placed = false ∧
      firsts g limit (reach g limit) (d.level n) (d.above (d.choiceAround n)) = none) := by
  unfold Decides canSkip
  simp only [ensures_bind, ensures_get, h.levels_eq]
  exact h.decides_canSkipWithin hn (need_le_reach (h.grammar ▸ h.sound.linked.fits_level hn))

/-- Whether a slot can be skipped is decided right. -/
theorem Over.decides_canSkipSlot (h : Over g limit d) {s : SlotId} (hs : d.HasSlot s) :
    Decides (canSkipSlot s) d ((d.spot s 0 false).CanPass g) (d.isFull s = false ∧
      firsts g limit (reach g limit) (d.spot s 0 false) (d.above (d.slot s).choice) = none) := by
  have hcell := h.sound.linked.cell_spot hs 0 false
  unfold Decides canSkipSlot
  simp only [ensures_bind, ensures_get]
  split
  · rename_i hne
    rw [ensures_pure]
    refine ⟨.refl h.sound, iff_of_false (by simp) fun hq => ?_⟩
    have hzero := hq.1
    rw [hcell, cellOf] at hzero
    simp [List.length_eq_zero_iff.1 hzero] at hne
  · rename_i hnil
    have hnil' : (d.slot s).content = [] := by simpa using hnil
    split
    · rename_i hfree
      rw [ensures_pure]
      exact ⟨.refl h.sound, iff_of_true rfl (h.canPass_of_isFree hs hnil' hfree)⟩
    · have hfull : d.isFull s = false := by simp [isFull, hnil']
      rw [ensures_bind]
      refine (h.sound.ensures_gap hs hfull (Nat.zero_le _)).mono ?_ fun _ _ h => h.elim
      rintro n e ⟨hk, hn⟩
      have hlevel : e.level n = d.spot s 0 false := hn.level.trans (h.spot_eq hk hs)
      have hdec := (h.keeps hk).decides_canSkip hn.has
      rw [hlevel, hn.choiceAround, (hk.grows.slot_eq hs).2.1,
        hk.above h.sound (h.sound.linked.slot s hs).choice] at hdec
      refine (hdec.imp ?_ fun hnone => ⟨hfull, hnone.2⟩).of_keeps hk
      exact Level.canSkip_iff_canPass rfl (by rw [hcell, cellOf, hnil']; rfl)

end Cloze.Draft
