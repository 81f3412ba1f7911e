import Cloze.Proofs.Repeating

/-!
# Searches without a bound

The search for offers goes down no more than `levels` levels at a time, and up no further than the
number of a node says. A quest is the same search without these bounds: it goes down as long as there
is something to go into and up as long as there is a holder, and so it may never end (`Aim.pursue`).
On every sound draft it ends, in the same value or refusal and with the same draft as the search
(`Ends`, `Over.ends_offers`, `Over.ends_resume`). What ends it is the measure `Frame.need`: it falls
with every level down, as long as rules are nested no deeper than the limit.
-/

namespace Cloze

open Draft

/-- An edit that may also never end. -/
abbrev Quest (α : Type) := ExceptT Refusal (StateT Draft Option) α

namespace Quest

/-- An edit as a quest that ends. -/
def lift {α : Type} (act : Edit α) : Quest α := fun d =>
  match act d with
  | .ok a e => some (.ok a, e)
  | .error r e => some (.error r, e)

/-- What a quest may be for, and what it gives. -/
inductive Aim : Type → Type
  /-- Whether a node can be skipped. -/
  | canSkip (n : NodeId) : Aim Bool
  /-- Whether some branch can be skipped as a whole. -/
  | someBranch (rows : List (List SlotId)) : Aim Bool
  /-- Whether every slot of a branch can be skipped. -/
  | everySlot (slots : List SlotId) : Aim Bool
  /-- Whether a slot can be skipped. -/
  | canSkipSlot (s : SlotId) : Aim Bool
  /-- The leftmost leaf under a node. -/
  | leftmost (n : NodeId) : Aim NodeId
  /-- The first leaves under a node. -/
  | firstLeaves (n : NodeId) : Aim (List NodeId)
  /-- The first leaves of several branches, branch by branch. -/
  | firstOfBranches (rows : List (List SlotId)) : Aim (List NodeId)
  /-- The first leaves of a branch. -/
  | firstOfSlots (slots : List SlotId) : Aim (List NodeId)
  /-- What may come right behind a node in its own slot, and whether the node is the last there. -/
  | againAfter (n : NodeId) : Aim (List NodeId × Bool)
  /-- The first leaves of slots up to the first that cannot be skipped, and whether all can. -/
  | onwardOver (slots : List SlotId) : Aim (List NodeId × Bool)
  /-- What may follow a node in its branch, and whether the branch may end behind it. -/
  | onward (n : NodeId) : Aim (List NodeId × Bool)
  /-- What may follow a node that can be skipped or below which all could be. -/
  | followUp (n : NodeId) (passed : Bool) : Aim (List NodeId × Bool)
  /-- The offers found on the way up from a node. -/
  | climb (n : NodeId) (passed : Bool) : Aim (List NodeId)
  /-- The leaf where the search goes on behind a placed node. -/
  | resume (n : NodeId) : Aim (Option NodeId)

/-- The quest for an aim, on which quests for other aims come up without a bound. -/
def Aim.pursue {α : Type} : Aim α → Quest α
  | canSkip n => do
    match (← lift get).skipAtSight? n with
    | some answer => pure answer
    | none =>
      match ← lift (reveal n) with
      | none => pure false
      | some c =>
        if ← (someBranch ((← lift get).choice c).branches |>.pursue) then
          pure true
        else
          lift (modify (·.settle n))
          pure false
  | someBranch [] => pure false
  | someBranch (row :: rows) => do
    if ← (everySlot row |>.pursue) then pure true else someBranch rows |>.pursue
  | everySlot [] => pure true
  | everySlot (s :: rest) => do
    let d ← lift get
    if !(d.slot s).content.isEmpty then
      pure false
    else if d.isFree s then
      everySlot rest |>.pursue
    else if ← (canSkip (← lift (gap s 0)) |>.pursue) then
      everySlot rest |>.pursue
    else
      pure false
  | canSkipSlot s => do
    let d ← lift get
    if !(d.slot s).content.isEmpty then
      pure false
    else if d.isFree s then
      pure true
    else
      canSkip (← lift (gap s 0)) |>.pursue
  | leftmost n => do
    match ← lift (reveal n) with
    | none => pure n
    | some c => leftmost (← lift (firstIn ((← lift get).firstSlot c))) |>.pursue
  | firstLeaves n => do
    match ← lift (reveal n) with
    | none => pure [n]
    | some c => firstOfBranches ((← lift get).choice c).branches |>.pursue
  | firstOfBranches [] => pure []
  | firstOfBranches (row :: rows) => do
    let found ← firstOfSlots row |>.pursue
    let more ← firstOfBranches rows |>.pursue
    pure (found ++ more)
  | firstOfSlots [] => pure []
  | firstOfSlots (s :: rest) => do
    if (← lift get).isFull s then
      pure []
    else
      let found ← firstLeaves (← lift (gap s 0)) |>.pursue
      if ← (canSkipSlot s |>.pursue) then
        let more ← firstOfSlots rest |>.pursue
        pure (found ++ more)
      else
        pure found
  | againAfter n => do
    let d ← lift get
    let node := d.node n
    let length := (d.slot node.slot).content.length
    if node.placed then
      if d.isFull node.slot then
        pure ([], node.position + 1 == length)
      else
        let found ← firstLeaves (← lift (gap node.slot (node.position + 1))) |>.pursue
        pure (found, node.position + 1 == length)
    else
      pure ([], node.position == length)
  | onwardOver [] => pure ([], true)
  | onwardOver (s :: rest) => do
    if ← (canSkipSlot s |>.pursue) then
      let found ← firstLeaves (← lift (gap s 0)) |>.pursue
      let (more, through) ← onwardOver rest |>.pursue
      pure (found ++ more, through)
    else if (← lift get).isFull s then
      pure ([], false)
    else
      let found ← firstLeaves (← lift (gap s 0)) |>.pursue
      pure (found, false)
  | onward n => do
    let (again, last) ← againAfter n |>.pursue
    if last then
      let d ← lift get
      let (next, through) ← onwardOver (d.slotsAfter (d.node n).slot) |>.pursue
      pure (again ++ next, through)
    else
      pure (again, false)
  | followUp n passed => do
    let skip ← if passed then pure true else canSkip n |>.pursue
    if skip then onward n |>.pursue else pure ([], false)
  | climb n passed => do
    let d ← lift get
    let (following, through) ← followUp n passed |>.pursue
    let others ← firstOfBranches ((← lift get).otherBranches n) |>.pursue
    let higher ← match d.holder? n with
      | none => pure []
      | some m => climb m through |>.pursue
    pure ((if d.isLeaf n then [n] else []) ++ following ++ others ++ higher)
  | resume n => do
    let d ← lift get
    let node := d.node n
    if !node.placed then
      lift (throw (.notPlaced n))
    else if !d.isFull node.slot then
      some <$> (leftmost (← lift (gap node.slot (node.position + 1))) |>.pursue)
    else
      match d.slotsAfter node.slot with
      | s :: _ =>
        let first ← lift (firstIn s)
        if (← lift get).isPlaced first then pure none else some <$> (leftmost first |>.pursue)
      | [] =>
        match d.holder? n with
        | none => pure none
        | some m => resume m |>.pursue
partial_fixpoint

/-- The leftmost leaf of the whole draft. -/
def firstLeaf : Quest NodeId := do
  (Aim.leftmost (← lift (firstIn ((← lift get).firstSlot ⟨0⟩)))).pursue

/-- The offers at a cursor. -/
def offers (cursor : Option NodeId) : Quest (List NodeId) := do
  let start ← match cursor with
    | none => some <$> firstLeaf
    | some n => (Aim.resume n).pursue
  match start with
  | none => pure []
  | some n => (Aim.climb n false).pursue

end Quest

namespace Draft

open Edit
open Quest (Aim)

variable {g : Grammar} {limit : Nat} {d e f : Draft} {n m : NodeId} {α β : Type}

/-- On the draft the quest ends as the edit does, and the draft has only grown if that succeeds. -/
structure Ends (q : Quest α) (act : Edit α) (d : Draft) : Prop where
  same : q d = Quest.lift act d
  keeps : ∀ a e, act d = .ok a e → Keeps d e

theorem Ends.same_bind {q : Quest α} {act : Edit α} {k : α → Quest β} {k' : α → Edit β}
    (h : Ends q act d) (hk : ∀ a e, act d = .ok a e → Keeps d e → k a e = Quest.lift (k' a) e) :
    (q >>= k) d = Quest.lift (act >>= k') d := by
  have hq : (q >>= k) d = match act d with
      | .ok a e => k a e
      | .error r e => some (.error r, e) := by
    simp only [Bind.bind, ExceptT.bind, StateT.bind, ExceptT.mk, h.same, Quest.lift]
    cases act d <;> rfl
  rw [hq]
  simp only [Quest.lift, Bind.bind, EStateM.bind]
  cases ha : act d with
  | ok a e => exact hk a e ha (h.keeps a e ha)
  | error r e => rfl

theorem Ends.bind {q : Quest α} {act : Edit α} {k : α → Quest β} {k' : α → Edit β}
    (h : Ends q act d) (hk : ∀ a e, act d = .ok a e → Keeps d e → Ends (k a) (k' a) e) :
    Ends (q >>= k) (act >>= k') d := by
  refine ⟨h.same_bind fun a e ha hke => (hk a e ha hke).same, fun b f hb => ?_⟩
  obtain ⟨a, e, ha, hb⟩ := exists_of_run_bind hb
  exact (h.keeps a e ha).trans ((hk a e ha (h.keeps a e ha)).keeps b f hb)

theorem ends_pure (h : d.Sound) (a : α) : Ends (pure a) (pure a) d :=
  ⟨rfl, fun b e hb => by
    cases hb
    exact .refl h⟩

theorem ends_lift {act : Edit α} (h : ∀ a e, act d = .ok a e → Keeps d e) :
    Ends (Quest.lift act) act d :=
  ⟨rfl, h⟩

theorem ends_get {k : Draft → Quest β} {k' : Draft → Edit β} (h : Ends (k d) (k' d) d) :
    Ends (Quest.lift get >>= k) (get >>= k') d :=
  ⟨h.same, h.keeps⟩

theorem Ends.map {q : Quest α} {act : Edit α} (h : Ends q act d) (w : α → β) :
    Ends (w <$> q) (w <$> act) d := by
  have hs : ∀ a e, act d = .ok a e → Keeps d e → Ends (pure (w a) : Quest β) (pure (w a)) e :=
    fun a e _ hk => ends_pure hk.sound _
  have hb := h.bind hs
  refine ⟨?_, ?_⟩
  · rw [← bind_pure_comp, hb.same]
    rfl
  · exact hb.keeps

theorem Sound.ends_gap (h : d.Sound) {s : SlotId} (hs : d.HasSlot s) {p : Nat}
    (hf : d.isFull s = false) (hp : p ≤ (d.slot s).content.length)
    {k : NodeId → Quest β} {k' : NodeId → Edit β}
    (hk : ∀ n e, Keeps d e → GapAt e s p n → Ends (k n) (k' n) e) :
    Ends (Quest.lift (gap s p) >>= k) (gap s p >>= k') d :=
  (ends_lift fun _ _ hg => (Ensures.of_ok (h.ensures_gap hs hf hp) hg).1).bind
    fun n e hg hke => hk n e hke (Ensures.of_ok (h.ensures_gap hs hf hp) hg).2

theorem Sound.ends_reveal (h : d.Sound) (hn : d.HasNode n)
    {k : Option ChoiceId → Quest β} {k' : Option ChoiceId → Edit β}
    (hk : ∀ c e, Keeps d e → e.inner? n = c → Ends (k c) (k' c) e) :
    Ends (Quest.lift (reveal n) >>= k) (reveal n >>= k') d :=
  (ends_lift fun _ _ hr => (Ensures.of_ok (h.ensures_reveal hn) hr).1).bind
    fun c e hr hke => hk c e hke (Ensures.of_ok (h.ensures_reveal hn) hr).2

theorem Sound.ends_firstIn (h : d.Sound) {s : SlotId} (hs : d.HasSlot s)
    {k : NodeId → Quest β} {k' : NodeId → Edit β}
    (hk : ∀ n e, Keeps d e → e.HasNode n → (e.node n).slot = s → Ends (k n) (k' n) e) :
    Ends (Quest.lift (firstIn s) >>= k) (firstIn s >>= k') d :=
  (ends_lift fun _ _ hr => (Ensures.of_ok (h.ensures_firstIn_has hs) hr).1).bind
    fun n e hr hke => by
      obtain ⟨-, hn, hslot⟩ := Ensures.of_ok (h.ensures_firstIn_has hs) hr
      exact hk n e hke hn hslot

/-- A node in a choice needs fewer levels than the node that the choice belongs to. -/
theorem Over.need_le_of_inner (h : Over g limit d) (hn : d.HasNode n) {c : ChoiceId}
    (hc : d.inner? n = some c) {bound : Nat} (hb : (d.level n).frame.need g limit ≤ bound + 1)
    (hk : Keeps d e) (hm : d.HasSlot (e.node m).slot) (hmc : (d.slot (e.node m).slot).choice = c) :
    (e.level m).frame.need g limit ≤ bound := by
  have hlt := h.need_inner_lt hn hc
  have hframe : (e.level m).frame = d.frame c := by
    show e.frame (e.slot (e.node m).slot).choice = d.frame c
    rw [(hk.grows.slot_eq hm).2.1, hmc]
    exact hk.grows.frame h.sound.linked (h.sound.linked.inner n c hn hc).choice
  have hown : (d.level n).frame = d.frame (d.choiceAround n) := rfl
  rw [hframe]
  rw [hown] at hb
  omega

/-! ### What can be left out -/

/-- The quest into the gaps of the slots ends as the search into them does. -/
def EndsIn (aim : NodeId → Aim α) (inside : NodeId → Edit α) (d : Draft) (slots : List SlotId) :
    Prop :=
  ∀ s ∈ slots, d.HasSlot s ∧ ∀ e n, Keeps d e → GapAt e s 0 n → Ends (aim n).pursue (inside n) e

theorem EndsIn.keeps {aim : NodeId → Aim α} {inside : NodeId → Edit α} {slots : List SlotId}
    (h : EndsIn aim inside d slots) (hk : Keeps d e) : EndsIn aim inside e slots :=
  fun s hs => ⟨hk.grows.hasSlot (h s hs).1, fun f n hk' hn => (h s hs).2 f n (hk.trans hk') hn⟩

theorem EndsIn.of_cons {aim : NodeId → Aim α} {inside : NodeId → Edit α} {s : SlotId}
    {rest : List SlotId} (h : EndsIn aim inside d (s :: rest)) : EndsIn aim inside d rest :=
  fun t ht => h t (List.mem_cons_of_mem _ ht)

-- The equations of `pursue` are made here, once for all lemmas that rewrite with them.
attribute [local simp] Aim.pursue in
theorem Sound.ends_everySlot {inside : NodeId → Edit Bool} : ∀ {slots : List SlotId} {d : Draft},
    d.Sound → EndsIn Aim.canSkip inside d slots →
    Ends (Aim.everySlot slots).pursue (everySlot inside slots) d
  | [], d, h, _ => by simpa [everySlot] using ends_pure h true
  | s :: rest, d, h, hin => by
    obtain ⟨hs, hgap⟩ := hin s List.mem_cons_self
    rw [Aim.pursue]
    refine ends_get ?_
    split
    · exact ends_pure h false
    · rename_i hc
      split
      · exact h.ends_everySlot hin.of_cons
      · have hf : d.isFull s = false := by
          simp only [isFull]
          simp_all
        refine h.ends_gap hs hf (Nat.zero_le _) fun n e hk hn => ?_
        refine (hgap e n hk hn).bind fun b f _ hkf => ?_
        split
        · exact hkf.sound.ends_everySlot ((hin.of_cons.keeps hk).keeps hkf)
        · exact ends_pure hkf.sound false

theorem Sound.ends_someBranch {inside : NodeId → Edit Bool} :
    ∀ {rows : List (List SlotId)} {d : Draft}, d.Sound →
    (∀ row ∈ rows, EndsIn Aim.canSkip inside d row) →
    Ends (Aim.someBranch rows).pursue (someBranch inside rows) d
  | [], d, h, _ => by
    rw [Aim.pursue]
    exact ends_pure h false
  | row :: rows, d, h, hin => by
    obtain ⟨hrow, hrest⟩ := List.forall_mem_cons.1 hin
    rw [Aim.pursue]
    refine (h.ends_everySlot hrow).bind fun b e _ hk => ?_
    split
    · exact ends_pure hk.sound true
    · exact hk.sound.ends_someBranch fun r hr => (hrest r hr).keeps hk

theorem Over.ends_canSkipWithin : ∀ {bound : Nat} {d : Draft} {n : NodeId}, Over g limit d →
    d.HasNode n → (d.level n).frame.need g limit ≤ bound →
    Ends (Aim.canSkip n).pursue (canSkipWithin bound n) d
  | 0, d, n, _, _, hb => by
    unfold Frame.need at hb
    omega
  | bound + 1, d, n, h, hn, hb => by
    refine ⟨?_, fun a e ha => (Ensures.of_ok (h.decides_canSkipWithin hn hb) ha).1⟩
    rw [Aim.pursue]
    have hget : Ends (Quest.lift get) get d := ends_lift fun a e ha => by
      cases ha
      exact .refl h.sound
    refine hget.same_bind fun _ _ ha _ => ?_
    cases ha
    rcases d.skipAtSight? n with _ | answer
    · have hreveal : Ends (Quest.lift (reveal n)) (reveal n) d :=
        ends_lift fun _ _ hr => (Ensures.of_ok (h.sound.ensures_reveal hn) hr).1
      refine hreveal.same_bind fun c e hr hk => ?_
      have hc := (Ensures.of_ok (h.sound.ensures_reveal hn) hr).2
      cases c with
      | none => rfl
      | some c =>
        have he := h.keeps hk
        have hne := hk.grows.hasNode hn
        have hsome : Ends (Aim.someBranch (e.choice c).branches).pursue
            (someBranch (canSkipWithin bound) (e.choice c).branches) e := by
          refine he.sound.ends_someBranch fun row hrow s hs => ?_
          obtain ⟨hslot, hsc⟩ := he.sound.linked.hasSlot_of_mem_row hrow hs
          refine ⟨hslot, fun f m hk' hm => ?_⟩
          refine (he.keeps hk').ends_canSkipWithin hm.has (he.need_le_of_inner hne hc ?_ hk' ?_ ?_)
          · rwa [hk.level h.sound hn]
          · rwa [hm.slot]
          · rwa [hm.slot]
        refine hsome.same_bind fun b f _ _ => ?_
        cases b <;> rfl
    · rfl

/-- The edit looks at the draft first. -/
theorem Ends.of_get {q : Quest β} {k : Draft → Edit β} (h : Ends q (k d) d) :
    Ends q (get >>= k) d :=
  ⟨h.same, h.keeps⟩

theorem Over.need_le_levels (h : Over g limit d) (hn : d.HasNode n) :
    (d.level n).frame.need g limit ≤ d.levels := by
  rw [h.levels_eq]
  exact need_le_reach (h.grammar ▸ h.sound.linked.fits_level hn)

theorem Over.ends_canSkip (h : Over g limit d) (hn : d.HasNode n) :
    Ends (Aim.canSkip n).pursue (canSkip n) d :=
  (h.ends_canSkipWithin hn (h.need_le_levels hn)).of_get

theorem isFull_eq_false {s : SlotId} (hc : (d.slot s).content = []) : d.isFull s = false := by
  simp [isFull, hc]

theorem Over.ends_canSkipSlot (h : Over g limit d) {s : SlotId} (hs : d.HasSlot s) :
    Ends (Aim.canSkipSlot s).pursue (canSkipSlot s) d := by
  rw [Aim.pursue]
  refine ends_get ?_
  split
  · exact ends_pure h.sound false
  · rename_i hc
    split
    · exact ends_pure h.sound true
    · exact h.sound.ends_gap hs (isFull_eq_false (by simpa using hc)) (Nat.zero_le _)
        fun n e hk hn => (h.keeps hk).ends_canSkip hn.has

/-! ### Going down -/

theorem Over.ends_leftmostWithin : ∀ {bound : Nat} {d : Draft} {n : NodeId}, Over g limit d →
    d.HasNode n → (d.level n).frame.need g limit ≤ bound →
    Ends (Aim.leftmost n).pursue (leftmostWithin bound n) d
  | 0, d, n, _, _, hb => by
    unfold Frame.need at hb
    omega
  | bound + 1, d, n, h, hn, hb => by
    rw [Aim.pursue]
    refine h.sound.ends_reveal hn fun c e hk hc => ?_
    cases c with
    | none => exact ends_pure hk.sound n
    | some c =>
      have he := h.keeps hk
      have hne := hk.grows.hasNode hn
      obtain ⟨hs, hsc⟩ := he.sound.linked.hasSlot_firstSlot (he.sound.linked.inner n c hne hc).choice
      refine ends_get (he.sound.ends_firstIn hs fun m f hk' hm hslot => ?_)
      refine (he.keeps hk').ends_leftmostWithin hm (he.need_le_of_inner hne hc ?_ hk' ?_ ?_)
      · rwa [hk.level h.sound hn]
      · rwa [hslot]
      · rwa [hslot]

theorem Over.ends_leftmost (h : Over g limit d) (hn : d.HasNode n) :
    Ends (Aim.leftmost n).pursue (leftmost n) d :=
  (h.ends_leftmostWithin hn (h.need_le_levels hn)).of_get

theorem Over.ends_firstOfSlots {inside : NodeId → Edit (List NodeId)} :
    ∀ {slots : List SlotId} {d : Draft}, Over g limit d → EndsIn Aim.firstLeaves inside d slots →
    Ends (Aim.firstOfSlots slots).pursue (firstOfSlots inside slots) d
  | [], d, h, _ => by
    rw [Aim.pursue]
    exact ends_pure h.sound []
  | s :: rest, d, h, hin => by
    obtain ⟨hs, hgap⟩ := hin s List.mem_cons_self
    rw [Aim.pursue]
    refine ends_get ?_
    split
    · exact ends_pure h.sound []
    · rename_i hf
      rw [Bool.not_eq_true] at hf
      refine h.sound.ends_gap hs hf (Nat.zero_le _) fun n e hk hn => ?_
      refine (hgap e n hk hn).bind fun found e' _ hk' => ?_
      have hke := hk.trans hk'
      refine ((h.keeps hke).ends_canSkipSlot (hke.grows.hasSlot hs)).bind fun b f _ hkf => ?_
      split
      · exact (((h.keeps hke).keeps hkf).ends_firstOfSlots ((hin.of_cons.keeps hke).keeps hkf)).bind
          fun more e'' _ hk'' => ends_pure hk''.sound _
      · exact ends_pure hkf.sound found

theorem Over.ends_firstOfBranches {inside : NodeId → Edit (List NodeId)} :
    ∀ {rows : List (List SlotId)} {d : Draft}, Over g limit d →
    (∀ row ∈ rows, EndsIn Aim.firstLeaves inside d row) →
    Ends (Aim.firstOfBranches rows).pursue (firstOfBranches inside rows) d
  | [], d, h, _ => by
    rw [Aim.pursue]
    exact ends_pure h.sound []
  | row :: rows, d, h, hin => by
    obtain ⟨hrow, hrest⟩ := List.forall_mem_cons.1 hin
    rw [Aim.pursue]
    refine (h.ends_firstOfSlots hrow).bind fun found e _ hk => ?_
    exact ((h.keeps hk).ends_firstOfBranches fun r hr => (hrest r hr).keeps hk).bind
      fun more f _ hkf => ends_pure hkf.sound _

theorem Over.ends_firstLeavesWithin : ∀ {bound : Nat} {d : Draft} {n : NodeId}, Over g limit d →
    d.HasNode n → (d.level n).frame.need g limit ≤ bound →
    Ends (Aim.firstLeaves n).pursue (firstLeavesWithin bound n) d
  | 0, d, n, _, _, hb => by
    unfold Frame.need at hb
    omega
  | bound + 1, d, n, h, hn, hb => by
    rw [Aim.pursue]
    refine h.sound.ends_reveal hn fun c e hk hc => ?_
    cases c with
    | none => exact ends_pure hk.sound [n]
    | some c =>
      have he := h.keeps hk
      have hne := hk.grows.hasNode hn
      refine ends_get (he.ends_firstOfBranches fun row hrow s hs => ?_)
      obtain ⟨hslot, hsc⟩ := he.sound.linked.hasSlot_of_mem_row hrow hs
      refine ⟨hslot, fun f m hk' hm => ?_⟩
      refine (he.keeps hk').ends_firstLeavesWithin hm.has (he.need_le_of_inner hne hc ?_ hk' ?_ ?_)
      · rwa [hk.level h.sound hn]
      · rwa [hm.slot]
      · rwa [hm.slot]

theorem Over.ends_firstLeaves (h : Over g limit d) (hn : d.HasNode n) :
    Ends (Aim.firstLeaves n).pursue (firstLeaves n) d :=
  (h.ends_firstLeavesWithin hn (h.need_le_levels hn)).of_get

theorem Over.ends_firstLeavesOf (h : Over g limit d) {rows : List (List SlotId)}
    (hrows : ∀ row ∈ rows, ∀ s ∈ row, d.HasSlot s) :
    Ends (Aim.firstOfBranches rows).pursue (firstLeavesOf rows) d := by
  refine Ends.of_get (h.ends_firstOfBranches fun row hrow s hs => ?_)
  refine ⟨hrows row hrow s hs, fun e n hk hn => ?_⟩
  refine (h.keeps hk).ends_firstLeavesWithin hn.has ?_
  rw [← hk.grows.levels]
  exact (h.keeps hk).need_le_levels hn.has

/-! ### Going on -/

theorem Over.ends_againAfter (h : Over g limit d) (hn : d.HasNode n) :
    Ends (Aim.againAfter n).pursue (againAfter n) d := by
  rw [Aim.pursue]
  refine ends_get ?_
  dsimp only
  split
  · rename_i hp
    split
    · exact ends_pure h.sound _
    · rename_i hf
      rw [Bool.not_eq_true] at hf
      refine h.sound.ends_gap (h.sound.linked.node n hn).slot hf (h.sound.settled.position_lt hp)
        fun m e hk hm => ?_
      exact ((h.keeps hk).ends_firstLeaves hm.has).bind fun found f _ hkf => ends_pure hkf.sound _
  · exact ends_pure h.sound _

theorem Over.ends_onwardOver : ∀ {slots : List SlotId} {d : Draft}, Over g limit d →
    (∀ s ∈ slots, d.HasSlot s) → Ends (Aim.onwardOver slots).pursue (onwardOver slots) d
  | [], d, h, _ => by
    rw [Aim.pursue]
    exact ends_pure h.sound _
  | s :: rest, d, h, hs => by
    obtain ⟨hslot, hrest⟩ := List.forall_mem_cons.1 hs
    rw [Aim.pursue]
    refine (h.ends_canSkipSlot hslot).bind fun b e hb hk => ?_
    have he := h.keeps hk
    have hse := hk.grows.hasSlot hslot
    split
    · rename_i hbt
      have hf : e.isFull s = false := by
        have hpass := (Ensures.of_ok (h.decides_canSkipSlot hslot) hb).2.1 hbt
        rw [hk.grows.isFull hslot, ← hpass.isFull, ← h.grammar]
        exact (h.sound.linked.isFull_spot hslot 0 false).symm
      refine he.sound.ends_gap hse hf (Nat.zero_le _) fun n f hkf hn => ?_
      refine ((he.keeps hkf).ends_firstLeaves hn.has).bind fun found e' _ hk' => ?_
      have hall := (hk.trans hkf).trans hk'
      exact ((h.keeps hall).ends_onwardOver fun t ht => hall.grows.hasSlot (hrest t ht)).bind
        fun more e'' _ hk'' => ends_pure hk''.sound _
    · refine ends_get ?_
      split
      · exact ends_pure he.sound _
      · rename_i hf
        rw [Bool.not_eq_true] at hf
        refine he.sound.ends_gap hse hf (Nat.zero_le _) fun n f hkf hn => ?_
        exact ((he.keeps hkf).ends_firstLeaves hn.has).bind fun found e' _ hk' =>
          ends_pure hk'.sound _

theorem Over.ends_onward (h : Over g limit d) (hn : d.HasNode n) :
    Ends (Aim.onward n).pursue (onward n) d := by
  rw [Aim.pursue]
  refine (h.ends_againAfter hn).bind fun r e _ hk => ?_
  dsimp only
  split
  · refine ends_get ?_
    exact ((h.keeps hk).ends_onwardOver fun t ht => (hk.sound.linked.mem_slotsAfter ht).1).bind
      fun next f _ hkf => ends_pure hkf.sound _
  · exact ends_pure hk.sound _

theorem Over.ends_followUp (h : Over g limit d) (hn : d.HasNode n) (passed : Bool) :
    Ends (Aim.followUp n passed).pursue (followUp n passed) d := by
  rw [Aim.pursue]
  cases passed with
  | true => exact h.ends_onward hn
  | false =>
    refine (h.ends_canSkip hn).bind fun skip e _ hk => ?_
    cases skip with
    | true => exact (h.keeps hk).ends_onward (hk.grows.hasNode hn)
    | false => exact ends_pure hk.sound _

theorem Linked.hasSlot_of_otherBranches (h : d.Linked) :
    ∀ row ∈ d.otherBranches n, ∀ s ∈ row, d.HasSlot s := by
  intro row hrow s hs
  unfold otherBranches at hrow
  dsimp only at hrow
  split at hrow
  · exact (h.hasSlot_of_mem_row (List.mem_of_mem_eraseIdx hrow) hs).1
  · cases hrow

theorem Over.ends_climb (h : Over g limit d) (hn : d.HasNode n) (passed : Bool) :
    Ends (Aim.climb n passed).pursue (climb (d.lineage n) passed) d := by
  induction hi : n.index using Nat.strongRecOn generalizing n d passed with
  | ind i ih =>
    obtain ⟨rest, hrest, habove⟩ : ∃ rest, d.lineage n = n :: rest ∧
        ∀ e through, Keeps d e → Ends (match d.holder? n with
          | none => pure []
          | some m => (Aim.climb m through).pursue) (climb rest through) e := by
      rcases hm : d.holder? n with _ | m
      · exact ⟨[], lineage_of_top hm, fun e through hk => ends_pure hk.sound []⟩
      · have hmn := h.sound.linked.hasNode_holder hn hm
        refine ⟨_, h.sound.linked.lineage_of_holder hn hm, fun e through hk => ?_⟩
        rw [← hk.grows.lineage h.sound.linked hk.sound.linked hmn]
        exact ih m.index (hi ▸ h.sound.linked.holder_lt hn hm) (h.keeps hk) (hk.grows.hasNode hmn)
          through rfl
    rw [Aim.pursue, hrest, climb_cons]
    refine ends_get ((h.ends_followUp hn passed).bind fun r e _ hk => ?_)
    refine ends_get (((h.keeps hk).ends_firstLeavesOf
      hk.sound.linked.hasSlot_of_otherBranches).bind fun others f _ hkf => ?_)
    have hhigher := habove f r.2 (hk.trans hkf)
    rcases hm : d.holder? n with _ | m
    all_goals
      simp only [hm] at hhigher
      exact hhigher.bind fun more e' _ hk' => ends_pure hk'.sound _

/-! ### Offers at a cursor -/

theorem Over.ends_resumeAlong (h : Over g limit d) (hp : (d.node n).placed = true) :
    Ends (Aim.resume n).pursue (resumeAlong (d.lineage n)) d := by
  have hn := hasNode_of_placed hp
  induction hi : n.index using Nat.strongRecOn generalizing n with
  | ind i ih =>
    obtain ⟨rest, hrest, habove⟩ : ∃ rest, d.lineage n = n :: rest ∧
        Ends (match d.holder? n with
          | none => pure none
          | some m => (Aim.resume m).pursue) (resumeAlong rest) d := by
      rcases hm : d.holder? n with _ | m
      · exact ⟨[], lineage_of_top hm, ends_pure h.sound none⟩
      · refine ⟨_, h.sound.linked.lineage_of_holder hn hm, ?_⟩
        exact ih m.index (hi ▸ h.sound.linked.holder_lt hn hm) (h.sound.placed_holder hp hm)
          (h.sound.linked.hasNode_holder hn hm) rfl
    rw [Aim.pursue, hrest]
    refine ends_get ?_
    simp only [hp, Bool.not_true, Bool.false_eq_true, if_false]
    split
    · rename_i hf
      refine h.sound.ends_gap (h.sound.linked.node n hn).slot (by simpa using hf)
        (h.sound.settled.position_lt hp) fun m e hk hm => ?_
      exact ((h.keeps hk).ends_leftmost hm.has).map some
    · rcases hafter : d.slotsAfter (d.node n).slot with _ | ⟨s, slots⟩
      · exact habove
      · have hs := (h.sound.linked.mem_slotsAfter (hafter ▸ List.mem_cons_self)).1
        refine h.sound.ends_firstIn hs fun m e hk hm _ => ends_get ?_
        split
        · exact ends_pure hk.sound none
        · exact ((h.keeps hk).ends_leftmost hm).map some

theorem Over.ends_resume (h : Over g limit d) (hp : (d.node n).placed = true) :
    Ends (Aim.resume n).pursue (resume n) d :=
  (h.ends_resumeAlong hp).of_get

theorem Over.ends_firstLeaf (h : Over g limit d) : Ends Quest.firstLeaf firstLeaf d :=
  ends_get (h.sound.ends_firstIn (h.sound.linked.hasSlot_firstSlot h.sound.linked.root).1
    fun _ _ hk hn _ => (h.keeps hk).ends_leftmost hn)

theorem Over.ends_climbFrom (h : Over g limit d) {o : Option NodeId}
    (ho : ∀ n, o = some n → d.HasNode n) : Ends (match o with
      | none => pure []
      | some n => (Aim.climb n false).pursue) (climbFrom o) d := by
  cases o with
  | none => exact ends_pure h.sound []
  | some n => exact (h.ends_climb (ho n rfl) false).of_get

/-- A quest at a place that is none or filled ends as the search there. -/
theorem Over.ends_offers (h : Over g limit d) {cursor : Option NodeId}
    (hc : ∀ n ∈ cursor, (d.node n).placed = true) : Ends (Quest.offers cursor) (offers cursor) d := by
  cases cursor with
  | none =>
    rw [offers_none_eq]
    refine (h.ends_firstLeaf.map some).bind fun o e ho hk => (h.keeps hk).ends_climbFrom ?_
    obtain ⟨n, f, hrun, hpure⟩ := exists_of_run_bind
      (show (firstLeaf >>= fun n => pure (some n)) d = .ok o e from ho)
    cases hpure
    rintro k ⟨⟩
    exact (h.sound.hasNode_of_firstLeaf hrun).2
  | some n =>
    rw [offers_some_eq]
    exact (h.ends_resume (hc n rfl)).bind fun o e ho hk =>
      (h.keeps hk).ends_climbFrom (h.sound.hasNode_of_resume (hc n rfl) ho).2

end Draft

end Cloze
