import Cloze.Proofs.Chaining
import Cloze.Proofs.Corners
import Cloze.Proofs.Unbounded

/-!
# The way up finds what the way down finds

In a draft without leaves a search sets out at the leftmost leaf of all and climbs to the root. A
search straight down from the root, branch by branch, finds the same nodes in the same order, and
has nothing to lay out once the climb has ended (`climb_agrees`).

On its way the climb has come to know what the way down asks for. A quest is told if it comes to its
value without changing anything, on the draft and on all it may become (`Told`). Quests have no
bounds, so what is asked halfway up and what comes up on the way down from the root is one question.
Told are, from the leaf on upward, the first leaves under every node of its lineage: those of the
first branch are the ones below and what follows the node in its branch, and those of the other
branches are found beside it (`Vacant.told_climb`).
-/

namespace Cloze.Draft

open Edit
open Quest (Aim)

variable {d e : Draft} {n : NodeId} {g : Grammar} {limit : Nat} {α β : Type}

/-! ### Quests that are told -/

/-- The draft has grown, and no first gap of a slot has been lost. -/
abbrev Retains (d e : Draft) : Prop := Covers (fun _ => 0) d e

/-- On the draft, and as long as nothing of it is lost, the quest comes to the value and changes
nothing. -/
def Told (q : Quest α) (a : α) (d : Draft) : Prop :=
  ∀ f, Retains d f → q f = some (.ok a, f)

theorem Told.retains {q : Quest α} {a : α} (h : Told q a d) (hc : Retains d e) :
    Told q a e :=
  fun f hf => h f (hc.trans hf)

theorem told_pure (a : α) : Told (pure a) a d :=
  fun _ _ => rfl

theorem Told.bind {q : Quest α} {k : α → Quest β} {a : α} {b : β} (hq : Told q a d)
    (hk : Told (k a) b d) : Told (q >>= k) b d := fun f hf => by
  simp only [Bind.bind, ExceptT.bind, StateT.bind, ExceptT.mk, hq f hf]
  exact hk f hf

theorem told_get {k : Draft → Quest β} {b : β}
    (hk : ∀ f, Retains d f → k f f = some (.ok b, f)) : Told (Quest.lift get >>= k) b d :=
  hk

theorem told_lift {act : Edit α} {a : α} (h : ∀ f, Retains d f → act f = .ok a f) :
    Told (Quest.lift act) a d := fun f hf => by
  rw [Quest.lift, h f hf]

/-- What a steady edit has come to is told from then on. -/
theorem told_of_run {q : Quest α} {act : Edit α} {a : α} (hs : Steady (fun _ => 0) act d)
    (hq : ∀ f, Keeps d f → Ends q act f) (hrun : act d = .ok a e) :
    Retains d e ∧ Told q a e := by
  obtain ⟨hc, hagain⟩ := hs a e hrun
  refine ⟨hc, fun f hf => ?_⟩
  rw [(hq f (hc.trans hf).keeps).same, Quest.lift, hagain f hf]

/-- What is told is what the edit comes to. -/
theorem Told.run {q : Quest α} {act : Edit α} {a : α} (hq : Told q a d) (h : d.Sound)
    (he : Ends q act d) : act d = .ok a d := by
  have hsame := he.same
  rw [hq d (.refl h), Quest.lift] at hsame
  split at hsame <;> cases hsame
  assumption

/-! ### Drafts in which nothing is placed -/

/-- A sound draft in which nothing is placed. -/
structure Vacant (g : Grammar) (limit : Nat) (d : Draft) : Prop where
  base : Over g limit d
  bare : ∀ n, (d.node n).placed = false

section Vacant

variable (h : Vacant g limit d)
include h

theorem Vacant.keeps (hk : Keeps d e) : Vacant g limit e :=
  ⟨h.base.keeps hk, fun n => by rw [hk.grows.placed, h.bare]⟩

theorem Vacant.content (s : SlotId) : (d.slot s).content = [] := by
  refine List.eq_nil_iff_forall_not_mem.2 fun n hn => ?_
  have hp := ((h.base.sound.settled.content s n).1 hn).1
  rw [h.bare] at hp
  cases hp

theorem Vacant.isFull (s : SlotId) : d.isFull s = false :=
  isFull_eq_false (h.content s)

theorem Vacant.asks : Asks (fun _ => 0) d :=
  ⟨h.base.sound, fun _ _ => rfl⟩

theorem Vacant.retains_gap {s : SlotId} (hs : d.HasSlot s) (hrun : gap s 0 d = .ok n e) :
    Retains d e ∧ GapAt e s 0 n ∧ e.reusableGap? s 0 = some n := by
  obtain ⟨hc, hr⟩ : Retains d e ∧ e.reusableGap? s 0 = some n :=
    h.base.sound.covers_gap hs rfl (Nat.zero_le _) hrun
  exact ⟨hc, (Ensures.of_ok (h.base.sound.ensures_gap hs (h.isFull s) (Nat.zero_le _)) hrun).2, hr⟩

theorem Vacant.told_gap {s : SlotId} (hr : d.reusableGap? s 0 = some n) :
    Told (Quest.lift (gap s 0)) n d :=
  told_lift fun _ hf => gap_of_reusable ((h.keeps hf.keeps).isFull s) (hf.gap s n hr)

theorem Vacant.told_canSkip (hn : d.HasNode n) {b : Bool} (hrun : canSkip n d = .ok b e) :
    Retains d e ∧ Told (Aim.canSkip n).pursue b e :=
  told_of_run (h.asks.steady_canSkip hn)
    (fun _ hk => (h.base.keeps hk).ends_canSkip (hk.grows.hasNode hn)) hrun

theorem Vacant.told_canSkipSlot {s : SlotId} (hs : d.HasSlot s) {b : Bool}
    (hrun : canSkipSlot s d = .ok b e) :
    Retains d e ∧ Told (Aim.canSkipSlot s).pursue b e :=
  told_of_run (h.asks.steady_canSkipSlot hs rfl)
    (fun _ hk => (h.base.keeps hk).ends_canSkipSlot (hk.grows.hasSlot hs)) hrun

theorem Vacant.told_firstLeaves (hn : d.HasNode n) {found : List NodeId}
    (hrun : firstLeaves n d = .ok found e) :
    Retains d e ∧ Told (Aim.firstLeaves n).pursue found e :=
  told_of_run (h.asks.steady_firstLeaves hn (h.bare n))
    (fun _ hk => (h.base.keeps hk).ends_firstLeaves (hk.grows.hasNode hn)) hrun

/-- The first leaves of a slot are told, with the gap they stand under. -/
theorem Vacant.told_slot {s : SlotId} (hs : d.HasSlot s) {d₁ : Draft} (hgap : gap s 0 d = .ok n d₁)
    {found : List NodeId} (hrun : firstLeaves n d₁ = .ok found e) :
    Retains d e ∧ e.reusableGap? s 0 = some n ∧ Told (Aim.firstLeaves n).pursue found e := by
  obtain ⟨hc₁, hn, hr⟩ := h.retains_gap hs hgap
  obtain ⟨hc₂, hfound⟩ := (h.keeps hc₁.keeps).told_firstLeaves hn.has hrun
  exact ⟨hc₁.trans hc₂, hc₂.gap s n hr, hfound⟩

end Vacant

/-! ### One level of the way down -/

theorem pursue_everySlot_cons (s : SlotId) (rest : List SlotId) :
    (Aim.everySlot (s :: rest)).pursue = (Aim.canSkipSlot s).pursue >>= fun b =>
      if b then (Aim.everySlot rest).pursue else pure false := by
  conv_lhs => rw [Aim.pursue]
  conv_rhs => rw [Aim.pursue, bind_assoc]
  congr 1
  funext d
  split
  · simp
  · split <;> simp

theorem told_everySlot : ∀ {slots : List SlotId},
    (∀ s ∈ slots, Told (Aim.canSkipSlot s).pursue true d) →
    Told (Aim.everySlot slots).pursue true d
  | [], _ => by
    rw [Aim.pursue]
    exact told_pure true
  | s :: rest, h => by
    obtain ⟨hs, hrest⟩ := List.forall_mem_cons.1 h
    rw [pursue_everySlot_cons]
    exact hs.bind (told_everySlot hrest)

theorem pursue_firstOfBranches_singleton (row : List SlotId) :
    (Aim.firstOfBranches [row]).pursue = (Aim.firstOfSlots row).pursue := by
  have hnil : (Aim.firstOfBranches []).pursue = pure [] := by rw [Aim.pursue]
  rw [Aim.pursue, hnil]
  simp

theorem told_firstOfBranches {rows : List (List SlotId)} {parts : List (List NodeId)}
    (h : List.Forall₂ (fun row part => Told (Aim.firstOfSlots row).pursue part d) rows parts) :
    Told (Aim.firstOfBranches rows).pursue parts.flatten d := by
  induction h with
  | nil =>
    rw [Aim.pursue]
    exact told_pure []
  | cons hrow _ ih =>
    rw [Aim.pursue]
    exact hrow.bind (ih.bind (told_pure _))

theorem told_reveal {c : ChoiceId} (hn : d.HasNode n) (hc : d.inner? n = some c) :
    Told (Quest.lift (reveal n)) (some c) d :=
  told_lift fun _ hf => reveal_of_inner? (hf.keeps.grows.inner? hn hc)

theorem told_firstLeaves_leaf (hn : d.HasNode n) (hl : d.isLeaf n = true) :
    Told (Aim.firstLeaves n).pursue [n] d := by
  rw [Aim.pursue]
  have hreveal : Told (Quest.lift (reveal n)) none d := told_lift fun f hf =>
    reveal_of_leaf (by rw [hf.keeps.grows.isLeaf hn, hl])
  exact hreveal.bind (told_pure [n])

section Vacant

variable (h : Vacant g limit d)
include h

theorem Vacant.told_firstOfSlots_cons {s : SlotId} {rest : List SlotId} {u v : List NodeId}
    {b : Bool} (hr : d.reusableGap? s 0 = some n) (hu : Told (Aim.firstLeaves n).pursue u d)
    (hb : Told (Aim.canSkipSlot s).pursue b d)
    (hv : b = true → Told (Aim.firstOfSlots rest).pursue v d) :
    Told (Aim.firstOfSlots (s :: rest)).pursue (if b then u ++ v else u) d := by
  rw [Aim.pursue]
  refine told_get fun f hf => ?_
  rw [if_neg (by rw [(h.keeps hf.keeps).isFull]; exact Bool.false_ne_true)]
  refine (h.told_gap hr).bind (hu.bind (hb.bind ?_)) f hf
  cases b with
  | true => exact (hv rfl).bind (told_pure _)
  | false => exact told_pure u

theorem Vacant.told_firstLeaves_inner (hn : d.HasNode n) {c : ChoiceId} (hc : d.inner? n = some c)
    {found : List NodeId} (hf : Told (Aim.firstOfBranches (d.choice c).branches).pursue found d) :
    Told (Aim.firstLeaves n).pursue found d := by
  have hchoice := (h.base.sound.linked.inner n c hn hc).choice
  rw [Aim.pursue]
  refine (told_reveal hn hc).bind (told_get fun f hcov => ?_)
  rw [hcov.keeps.grows.choice c hchoice]
  exact hf f hcov

/-- A node can be skipped if all slots of its first branch can. -/
theorem Vacant.told_canSkip_inner (hn : d.HasNode n) {c : ChoiceId} (hc : d.inner? n = some c)
    {row : List SlotId} {rows : List (List SlotId)} (hrows : (d.choice c).branches = row :: rows)
    (hskip : ∀ s ∈ row, Told (Aim.canSkipSlot s).pursue true d) :
    Told (Aim.canSkip n).pursue true d := by
  have hsound := h.base.sound
  have hchoice := (hsound.linked.inner n c hn hc).choice
  have hreveal := told_reveal hn hc
  have hsome : Told (Aim.someBranch (row :: rows)).pursue true d := by
    rw [Aim.pursue]
    exact (told_everySlot hskip).bind (told_pure true)
  -- If sight tells whether the node can be skipped, it tells right.
  have hcan : (d.level n).CanSkip d.grammar := by
    have hpass : ∀ s ∈ row, (d.spot s 0 false).CanPass g := fun s hs => by
      obtain ⟨hslot, -⟩ := hsound.linked.hasSlot_of_mem_row (hrows ▸ List.mem_cons_self) hs
      have hrun := (hskip s hs).run hsound (h.base.ends_canSkipSlot hslot)
      exact (Ensures.of_ok (h.base.decides_canSkipSlot hslot) hrun).2.1 rfl
    have hnull : g.Nullable (d.node n).symbol := by
      by_cases hopt : (g.symbol (d.node n).symbol).isOption = true
      · exact .option hopt
      · exact (h.base.nullable_iff hn (h.bare n) (by simpa using hopt) hc).1
          ⟨row, hrows ▸ List.mem_cons_self, hpass⟩
    rw [h.base.grammar]
    refine ⟨h.bare n, Or.inr (Or.inr ?_)⟩
    have hsym := hsound.linked.symbol_level hn
    rw [h.base.grammar] at hsym
    rwa [hsym]
  rw [Aim.pursue]
  refine told_get fun f hf => ?_
  rcases hs : f.skipAtSight? n with _ | b
  · refine hreveal.bind ?_ f hf
    dsimp only
    refine told_get fun f' hf' => ?_
    rw [hf'.keeps.grows.choice c hchoice, hrows]
    refine hsome.bind ?_ f' hf'
    exact told_pure true
  · rw [hf.eq_of_seen hsound hn (iff_of_true rfl hcan) hs]
    rfl

/-! ### What the way up finds on one level -/

/-- The first leaves of several branches are told branch by branch. -/
theorem Vacant.told_firstLeavesOf {rows : List (List SlotId)}
    (hrows : ∀ row ∈ rows, ∀ s ∈ row, d.HasSlot s) {found : List NodeId}
    (hrun : firstLeavesOf rows d = .ok found e) : Retains d e ∧
      ∃ parts, List.Forall₂ (fun row part => Told (Aim.firstOfSlots row).pursue part e) rows parts
        ∧ found = parts.flatten := by
  induction rows generalizing d found with
  | nil =>
    cases hrun
    exact ⟨.refl h.base.sound, [], .nil, rfl⟩
  | cons row rows ih =>
    obtain ⟨hrow, hrest⟩ := List.forall_mem_cons.1 hrows
    obtain ⟨u, d₁, hu, hrun⟩ := exists_of_run_bind
      (show (firstOfSlots (firstLeavesWithin d.levels) row >>= fun u =>
        firstOfBranches (firstLeavesWithin d.levels) rows >>= fun v => pure (u ++ v)) d
          = .ok found e from hrun)
    obtain ⟨v, e', hv, hpure⟩ := exists_of_run_bind hrun
    cases hpure
    have hone : firstLeavesOf [row] d = .ok u d₁ := by
      have hrow : firstLeavesOf [row] d =
          (firstOfSlots (firstLeavesWithin d.levels) row >>= fun u => pure (u ++ [])) d := rfl
      rw [hrow, run_bind_of_ok hu, List.append_nil]
      rfl
    have hsingle : ∀ r ∈ [row], ∀ s ∈ r, d.HasSlot s := List.forall_mem_singleton.2 hrow
    obtain ⟨hc₁, hu⟩ := told_of_run
      (h.asks.steady_firstLeavesOf fun r hr => fun s hs => ⟨hsingle r hr s hs, rfl⟩)
      (fun _ hk => (h.base.keeps hk).ends_firstLeavesOf fun r hr s hs =>
        hk.grows.hasSlot (hsingle r hr s hs)) hone
    rw [pursue_firstOfBranches_singleton] at hu
    rw [← hc₁.keeps.grows.levels] at hv
    obtain ⟨hc₂, parts, hparts, rfl⟩ := ih (h.keeps hc₁.keeps)
      (fun r hr s hs => hc₁.keeps.grows.hasSlot (hrest r hr s hs)) hv
    exact ⟨hc₁.trans hc₂, u :: parts, .cons (hu.retains hc₂) hparts, rfl⟩

/-- What follows in a branch are the first leaves of what is left of it. -/
theorem Vacant.told_onwardOver {slots : List SlotId} (hslots : ∀ s ∈ slots, d.HasSlot s)
    {r : List NodeId × Bool} (hrun : onwardOver slots d = .ok r e) : Retains d e ∧
      Told (Aim.firstOfSlots slots).pursue r.1 e ∧
      (r.2 = true → ∀ s ∈ slots, Told (Aim.canSkipSlot s).pursue true e) := by
  induction slots generalizing d r with
  | nil =>
    cases hrun
    refine ⟨.refl h.base.sound, ?_, by simp⟩
    rw [Aim.pursue]
    exact told_pure []
  | cons s rest ih =>
    obtain ⟨hs, hrest⟩ := List.forall_mem_cons.1 hslots
    obtain ⟨b, d₁, hb, hrun⟩ := exists_of_run_bind hrun
    obtain ⟨hc₁, hb⟩ := h.told_canSkipSlot hs hb
    have h₁ := h.keeps hc₁.keeps
    have hs₁ := hc₁.keeps.grows.hasSlot hs
    cases b with
    | true =>
      obtain ⟨n, d₂, hgap, hrun⟩ := exists_of_run_bind hrun
      obtain ⟨u, d₃, hu, hrun⟩ := exists_of_run_bind hrun
      obtain ⟨hc₂, hr, hu⟩ := h₁.told_slot hs₁ hgap hu
      obtain ⟨⟨v, through⟩, e', hv, hpure⟩ := exists_of_run_bind hrun
      cases hpure
      have hc := hc₁.trans hc₂
      obtain ⟨hc₃, hv, hskip⟩ := ih (h.keeps hc.keeps)
        (fun t ht => hc.keeps.grows.hasSlot (hrest t ht)) hv
      have he := h.keeps (hc.trans hc₃).keeps
      have hb' := hb.retains (hc₂.trans hc₃)
      refine ⟨hc.trans hc₃, he.told_firstOfSlots_cons (b := true) (hc₃.gap s n hr)
        (hu.retains hc₃) hb' fun _ => hv, fun hthrough => ?_⟩
      exact List.forall_mem_cons.2 ⟨hb', hskip hthrough⟩
    | false =>
      obtain ⟨d', _, hget, hrun⟩ := exists_of_run_bind hrun
      cases hget
      rw [h₁.isFull] at hrun
      obtain ⟨n, d₂, hgap, hrun⟩ := exists_of_run_bind hrun
      obtain ⟨u, d₃, hu, hpure⟩ := exists_of_run_bind hrun
      cases hpure
      obtain ⟨hc₂, hr, hu⟩ := h₁.told_slot hs₁ hgap hu
      have hc := hc₁.trans hc₂
      exact ⟨hc, (h.keeps hc.keeps).told_firstOfSlots_cons (v := []) hr hu (hb.retains hc₂)
        Bool.false_ne_true.elim, Bool.false_ne_true.elim⟩

end Vacant

/-! ### Where the way up leads along -/

/-- The first gap of the first slot of the first branch around it. -/
structure Foremost (d : Draft) (n : NodeId) : Prop where
  has : d.HasNode n
  branch : (d.slot (d.node n).slot).branch = 0
  first : (d.slot (d.node n).slot).position = 0
  own : d.reusableGap? (d.node n).slot 0 = some n

theorem Foremost.retains (hf : Foremost d n) (h : d.Linked) (hc : Retains d e) :
    Foremost e n := by
  obtain ⟨-, hslot, -⟩ := hc.keeps.grows.node_eq hf.has
  obtain ⟨-, -, hb, hp⟩ := hc.keeps.grows.slot_eq (h.node n hf.has).slot
  exact ⟨hc.keeps.grows.hasNode hf.has, by rw [hslot, hb, hf.branch], by rw [hslot, hp, hf.first],
    by rw [hslot]; exact hc.gap _ n hf.own⟩

/-- Behind such a gap come the other slots of the first branch, and beside it the other branches. -/
theorem Foremost.branches_eq (hf : Foremost d n) (h : d.Linked) (hp : (d.node n).placed = false) :
    (d.choice (d.choiceAround n)).branches =
      ((d.node n).slot :: d.slotsAfter (d.node n).slot) :: d.otherBranches n := by
  have hslot := (h.node n hf.has).slot
  have hrow := h.row_eq hslot
  have hbefore : d.slotsBefore (d.node n).slot = [] := by simp [slotsBefore, hf.first]
  have hothers : d.otherBranches n = (d.choice (d.choiceAround n)).branches.tail := by
    simp [otherBranches, hf.branch, hf.first, hp, (reusableGap?_eq_some.1 hf.own).2.2, choiceAround]
  rw [hf.branch, hbefore, List.reverse_nil, List.nil_append] at hrow
  rw [hothers, ← hrow, choiceAround]
  rcases hrows : (d.choice (d.slot (d.node n).slot).choice).branches with _ | ⟨row, rows⟩
  · rw [hrows] at hrow
    cases hrow
  · rfl

section Vacant

variable (h : Vacant g limit d)
include h

theorem Vacant.foremost_of_gap {c : ChoiceId} (hc : d.HasChoice c)
    (hrun : firstIn (d.firstSlot c) d = .ok n e) :
    Retains d e ∧ Foremost e n ∧ e.choiceAround n = c := by
  have hl := h.base.sound.linked
  obtain ⟨hs, hsc, hb, hp⟩ := (hl.choice c hc).slots 0 0 _ (hl.itemAt?_firstSlot hc)
  obtain ⟨d', _, hget, hrun⟩ := exists_of_run_bind hrun
  cases hget
  rw [h.content] at hrun
  obtain ⟨hcov, hn, hr⟩ := h.retains_gap hs hrun
  obtain ⟨-, e1, e2, e3⟩ := hcov.keeps.grows.slot_eq hs
  refine ⟨hcov, ⟨hn.has, ?_, ?_, ?_⟩, ?_⟩
  · rw [hn.slot, e2, hb]
  · rw [hn.slot, e3, hp]
  · rw [hn.slot, hr]
  · rw [choiceAround, hn.slot, e1, hsc]

end Vacant

theorem Vacant.foremost_leftmostWithin : ∀ {bound : Nat} {d : Draft} {n m : NodeId},
    Vacant g limit d → d.HasNode n → (d.level n).frame.need g limit ≤ bound →
    (∀ k ∈ d.lineage n, Foremost d k) → leftmostWithin bound n d = .ok m e →
    Retains d e ∧ e.HasNode m ∧ e.isLeaf m = true ∧ ∀ k ∈ e.lineage m, Foremost e k
  | 0, d, n, m, _, _, hb, _, _ => by
    unfold Frame.need at hb
    omega
  | bound + 1, d, n, m, h, hn, hb, hway, hrun => by
    obtain ⟨c, d₁, hreveal, hrun⟩ := exists_of_run_bind hrun
    have hc₁ : Retains d d₁ := (h.base.sound.steady_reveal hn c d₁ hreveal).1
    have h₁ := h.keeps hc₁.keeps
    have hn₁ := hc₁.keeps.grows.hasNode hn
    have hway₁ : ∀ k ∈ d₁.lineage n, Foremost d₁ k := fun k hk => by
      rw [hc₁.keeps.grows.lineage h.base.sound.linked hc₁.keeps.sound.linked hn] at hk
      exact (hway k hk).retains h.base.sound.linked hc₁
    cases c with
    | none =>
      cases hrun
      exact ⟨hc₁, hn₁, (reveal_run hreveal).2.2 rfl, hway₁⟩
    | some c =>
      have hinner : d₁.inner? n = some c :=
        (Ensures.of_ok (h.base.sound.ensures_reveal hn) hreveal).2
      have hopen := h₁.base.sound.linked.inner n c hn₁ hinner
      obtain ⟨d', _, hget, hrun⟩ := exists_of_run_bind hrun
      cases hget
      obtain ⟨k, d₂, hfirst, hrun⟩ := exists_of_run_bind hrun
      obtain ⟨hc₂, hk, hround⟩ := h₁.foremost_of_gap hopen.choice hfirst
      have h₂ := h₁.keeps hc₂.keeps
      have hholder : d₂.holder? k = some n := by
        rw [holder?, hround, hc₂.keeps.grows.choice c hopen.choice, hopen.holder]
      have hway₂ : ∀ j ∈ d₂.lineage k, Foremost d₂ j := by
        rw [h₂.base.sound.linked.lineage_of_holder hk.has hholder, List.forall_mem_cons]
        refine ⟨hk, fun j hj => ?_⟩
        rw [hc₂.keeps.grows.lineage h₁.base.sound.linked hc₂.keeps.sound.linked hn₁] at hj
        exact (hway₁ j hj).retains h₁.base.sound.linked hc₂
      have hneed : (d₂.level k).frame.need g limit ≤ bound := by
        have hlt := h₂.base.need_inner_lt (hc₂.keeps.grows.hasNode hn₁) (c := c)
          (hc₂.keeps.grows.inner? hn₁ hinner)
        have hframe : (d₂.level k).frame = d₂.frame c := by rw [← hround]; rfl
        have hlevel := (hc₁.trans hc₂).keeps.level h.base.sound hn
        have hown : (d₂.level n).frame = d₂.frame (d₂.choiceAround n) := rfl
        rw [hframe]
        rw [← hlevel, hown] at hb
        omega
      obtain ⟨hc₃, hm⟩ := h₂.foremost_leftmostWithin hk.has hneed hway₂ hrun
      exact ⟨(hc₁.trans hc₂).trans hc₃, hm⟩

/-! ### The way up -/

section Vacant

variable (h : Vacant g limit d)
include h

/-- A slot can be skipped if its gap can. -/
theorem Vacant.told_canSkipSlot_of_gap (hn : Foremost d n) {b : Bool}
    (hb : Told (Aim.canSkip n).pursue b d) :
    Told (Aim.canSkipSlot (d.node n).slot).pursue b d := by
  have hslot := (h.base.sound.linked.node n hn.has).slot
  have hcontent := h.content (d.node n).slot
  rw [Aim.pursue]
  refine told_get fun f hf => ?_
  rw [(h.keeps hf.keeps).content, hf.keeps.grows.isFree hslot]
  by_cases hfree : d.isFree (d.node n).slot = true
  · have hlevel : d.level n = d.spot (d.node n).slot 0 false := by
      obtain ⟨-, hp, hpos⟩ := reusableGap?_eq_some.1 hn.own
      rw [Draft.level, hp, hpos]
    have hcount : (d.level n).cell.count = 0 := by
      rw [hlevel, h.base.sound.linked.cell_spot hslot, cellOf, hcontent]
      rfl
    have hrun := hb.run h.base.sound (h.base.ends_canSkip hn.has)
    have hiff := (Ensures.of_ok (h.base.decides_canSkip hn.has) hrun).2
    rw [Level.canSkip_iff_canPass (h.bare n) hcount, hlevel] at hiff
    rw [hiff.2 (h.base.canPass_of_isFree hslot hcontent hfree), hfree]
    rfl
  · rw [Bool.not_eq_true] at hfree
    rw [hfree]
    exact (h.told_gap hn.own).bind hb f hf

/-- Nothing comes again in the slot of a gap, and what follows stands in the slots behind it. -/
theorem Vacant.onward_eq (hn : Foremost d n) :
    onward n d = onwardOver (d.slotsAfter (d.node n).slot) d := by
  have hagain : againAfter n d = .ok ([], true) d := by
    simp only [againAfter, bind, EStateM.bind, run_get, h.bare, h.content,
      (reusableGap?_eq_some.1 hn.own).2.2]
    rfl
  unfold onward
  rw [run_bind_of_ok hagain]
  show (onwardOver (d.slotsAfter (d.node n).slot) >>= fun r => pure r) d = _
  rw [bind_pure]

/-- The first leaves of the branch of a node are those under the node and what follows it. -/
theorem Vacant.told_followUp (hn : Foremost d n) {below : List NodeId}
    (hbelow : Told (Aim.firstLeaves n).pursue below d) {passed : Bool}
    (hpassed : passed = true → Told (Aim.canSkip n).pursue true d) {r : List NodeId × Bool}
    (hrun : followUp n passed d = .ok r e) : Retains d e ∧
      Told (Aim.firstOfSlots ((d.node n).slot :: d.slotsAfter (d.node n).slot)).pursue
        (below ++ r.1) e ∧
      (r.2 = true → ∀ s ∈ (d.node n).slot :: d.slotsAfter (d.node n).slot,
        Told (Aim.canSkipSlot s).pursue true e) := by
  obtain ⟨skip, d₁, hc₁, hskip, hrun⟩ : ∃ skip d₁, Retains d d₁ ∧
      Told (Aim.canSkip n).pursue skip d₁ ∧
      (if skip then onward n else pure ([], false) : Edit (List NodeId × Bool)) d₁ = .ok r e := by
    cases passed with
    | true => exact ⟨true, d, .refl h.base.sound, hpassed rfl, hrun⟩
    | false =>
      obtain ⟨skip, d₁, hskip, hrun⟩ := exists_of_run_bind
        (show (canSkip n >>= fun skip => if skip then onward n else pure ([], false)) d = .ok r e
          from hrun)
      obtain ⟨hc₁, hskip⟩ := h.told_canSkip hn.has hskip
      exact ⟨skip, d₁, hc₁, hskip, hrun⟩
  have h₁ := h.keeps hc₁.keeps
  have hn₁ := hn.retains h.base.sound.linked hc₁
  have hslot : (d₁.node n).slot = (d.node n).slot := (hc₁.keeps.grows.node_eq hn.has).2.1
  have hown := h₁.told_canSkipSlot_of_gap hn₁ hskip
  rw [hslot] at hown
  cases skip with
  | false =>
    cases hrun
    have hr := hn₁.own
    rw [hslot] at hr
    rw [List.append_nil]
    exact ⟨hc₁, h₁.told_firstOfSlots_cons (b := false) (v := []) hr (hbelow.retains hc₁) hown
      Bool.false_ne_true.elim, Bool.false_ne_true.elim⟩
  | true =>
    have hafter := hc₁.keeps.grows.slotsAfter h.base.sound.linked
      (h.base.sound.linked.node n hn.has).slot
    change onward n d₁ = .ok r e at hrun
    rw [h₁.onward_eq hn₁, hslot, hafter] at hrun
    obtain ⟨hc₂, hnext, hthrough⟩ := h₁.told_onwardOver (fun s hs =>
      hc₁.keeps.grows.hasSlot (h.base.sound.linked.mem_slotsAfter hs).1) hrun
    have hc := hc₁.trans hc₂
    have hr := (hn.retains h.base.sound.linked hc).own
    rw [(hc.keeps.grows.node_eq hn.has).2.1] at hr
    refine ⟨hc, (h.keeps hc.keeps).told_firstOfSlots_cons (b := true) hr (hbelow.retains hc)
      (hown.retains hc₂) fun _ => hnext, fun hall => ?_⟩
    exact List.forall_mem_cons.2 ⟨hown.retains hc₂, hthrough hall⟩

/-- If the first leaves under a node are told, the climb from the node makes up those of all
branches of the draft. -/
theorem Vacant.told_climb (hway : ∀ k ∈ d.lineage n, Foremost d k) {below : List NodeId}
    (hbelow : Told (Aim.firstLeaves n).pursue below d) {passed : Bool}
    (hpassed : passed = true → Told (Aim.canSkip n).pursue true d) {found : List NodeId}
    (hrun : climb (d.lineage n) passed d = .ok found e) : Retains d e ∧
      ∃ rest parts, found = (if d.isLeaf n then [n] else []) ++ rest ∧
        List.Forall₂ (fun row part => Told (Aim.firstOfSlots row).pursue part e)
          d.root.branches parts ∧ below ++ rest = parts.flatten := by
  induction hi : n.index using Nat.strongRecOn generalizing n d below passed found with
  | ind i ih =>
    have hn := hway n (mem_lineage_self d n)
    have hl := h.base.sound.linked
    obtain ⟨above, hlineage⟩ := exists_lineage_eq_cons d n
    rw [hlineage, climb_cons] at hrun
    obtain ⟨_, _, hget, hrun⟩ := exists_of_run_bind hrun
    cases hget
    obtain ⟨r, d₁, hfollow, hrun⟩ := exists_of_run_bind hrun
    obtain ⟨_, _, hget, hrun⟩ := exists_of_run_bind hrun
    cases hget
    obtain ⟨others, d₂, hothers, hrun⟩ := exists_of_run_bind hrun
    obtain ⟨higher, d₃, hhigher, hpure⟩ := exists_of_run_bind hrun
    cases hpure
    -- The branches around the node are told branch by branch.
    obtain ⟨hc₁, hrow, hthrough⟩ := h.told_followUp hn hbelow hpassed hfollow
    have h₁ := h.keeps hc₁.keeps
    obtain ⟨hc₂, parts, hparts, rfl⟩ :=
      h₁.told_firstLeavesOf h₁.base.sound.linked.hasSlot_of_otherBranches hothers
    rw [hc₁.keeps.grows.otherBranches hl hn.has] at hparts
    have hc := hc₁.trans hc₂
    have h₂ := h.keeps hc.keeps
    have hbranches := hn.branches_eq hl (h.bare n)
    have hround : List.Forall₂ (fun row part => Told (Aim.firstOfSlots row).pursue part d₂)
        (d.choice (d.choiceAround n)).branches ((below ++ r.1) :: parts) := by
      rw [hbranches]
      exact .cons (hrow.retains hc₂) hparts
    rcases hm : d.holder? n with _ | m
    · -- They are those of the whole draft.
      rw [lineage_of_top hm, List.cons.injEq] at hlineage
      rw [← hlineage.2] at hhigher
      cases hhigher
      rw [hl.root_of_holder?_eq_none hn.has hm] at hround
      exact ⟨hc, r.1 ++ parts.flatten, _, by simp, hround, by simp⟩
    · -- They make up what is under the node above.
      have hmn := hl.hasNode_holder hn.has hm
      have hinner := hl.inner?_holder hn.has hm
      have hchoice := hl.hasChoice_around hn.has
      have hmn₂ := hc.keeps.grows.hasNode hmn
      have hinner₂ := hc.keeps.grows.inner? hmn hinner
      rw [hl.lineage_of_holder hn.has hm, List.cons.injEq] at hlineage
      rw [← hlineage.2, ← hc.keeps.grows.lineage hl hc.keeps.sound.linked hmn] at hhigher
      have hway₂ : ∀ k ∈ d₂.lineage m, Foremost d₂ k := fun k hk => by
        rw [hc.keeps.grows.lineage hl hc.keeps.sound.linked hmn] at hk
        exact (hway k (hl.lineage_of_holder hn.has hm ▸ List.mem_cons_of_mem _ hk)).retains hl hc
      have hunder : Told (Aim.firstLeaves m).pursue ((below ++ r.1) :: parts).flatten d₂ := by
        refine h₂.told_firstLeaves_inner hmn₂ hinner₂ (told_firstOfBranches ?_)
        rwa [hc.keeps.grows.choice _ hchoice]
      have hskip : r.2 = true → Told (Aim.canSkip m).pursue true d₂ := fun hr =>
        h₂.told_canSkip_inner hmn₂ hinner₂
          (by rw [hc.keeps.grows.choice _ hchoice, hbranches]) fun s hs =>
            (hthrough hr s hs).retains hc₂
      obtain ⟨hc₃, rest, all, hfound, hall, heq⟩ :=
        ih m.index (hi ▸ hl.holder_lt hn.has hm) h₂ hway₂ hunder hskip hhigher rfl
      rw [isLeaf_of_inner? hinner₂] at hfound
      have hroot : d₂.root = d.root := hc.keeps.grows.choice _ hl.root
      rw [hroot] at hall
      refine ⟨hc.trans hc₃, r.1 ++ parts.flatten ++ rest, all, by simp [hfound], hall, ?_⟩
      rw [← heq]
      simp

end Vacant

/-! ### Both ways -/

/-- A sound draft without leaves has nothing placed. -/
theorem Over.vacant (h : Over g limit d) (hempty : d.leaves = []) : Vacant g limit d := by
  refine ⟨h, fun n => ?_⟩
  by_contra hp
  rw [Bool.not_eq_false] at hp
  have hsplit := h.sound.leaves_around hp
  rw [hempty] at hsplit
  simp [h.sound.under_ne_nil hp] at hsplit

section Vacant

variable (h : Vacant g limit d)
include h

/-- The leftmost leaf of all is led to by first gaps only. -/
theorem Vacant.foremost_firstLeaf (hrun : firstLeaf d = .ok n e) :
    Retains d e ∧ e.HasNode n ∧ e.isLeaf n = true ∧ ∀ k ∈ e.lineage n, Foremost e k := by
  obtain ⟨m, d₁, hfirst, hdown⟩ := exists_of_run_bind
    (show (firstIn (d.firstSlot ⟨0⟩) >>= leftmost) d = .ok n e from hrun)
  obtain ⟨hc₁, hm, hround⟩ := h.foremost_of_gap h.base.sound.linked.root hfirst
  have h₁ := h.keeps hc₁.keeps
  have htop : d₁.holder? m = none := by
    rw [holder?, hround]
    exact h₁.base.sound.linked.root_holder
  have hway : ∀ k ∈ d₁.lineage m, Foremost d₁ k := by
    rw [lineage_of_top htop, List.forall_mem_singleton]
    exact hm
  obtain ⟨hc₂, hn⟩ :=
    h₁.foremost_leftmostWithin hm.has (h₁.base.need_le_levels hm.has) hway hdown
  exact ⟨hc₁.trans hc₂, hn⟩

/-- The offers are the first leaves of all branches of the draft, and those are told then. -/
theorem Vacant.told_offers {found : List NodeId} (hrun : offers none d = .ok found e) :
    Retains d e ∧ ∃ parts,
      List.Forall₂ (fun row part => Told (Aim.firstOfSlots row).pursue part e)
        e.root.branches parts ∧ found = parts.flatten := by
  rw [offers_none_eq] at hrun
  obtain ⟨o, d₁, hstart, hclimb⟩ := exists_of_run_bind hrun
  obtain ⟨n, d₂, hfirst, hpure⟩ := exists_of_run_bind
    (show (firstLeaf >>= fun n => pure (some n)) d = .ok o d₁ from hstart)
  cases hpure
  obtain ⟨hc₁, hn, hleaf, hway⟩ := h.foremost_firstLeaf hfirst
  have h₁ := h.keeps hc₁.keeps
  have hpassed : false = true → Told (Aim.canSkip n).pursue true d₁ := Bool.false_ne_true.elim
  obtain ⟨hc₂, rest, parts, hfound, hparts, heq⟩ :=
    h₁.told_climb hway (told_firstLeaves_leaf hn hleaf) hpassed hclimb
  refine ⟨hc₁.trans hc₂, parts, ?_, by rw [hfound, if_pos hleaf, heq]⟩
  have hroot : e.root = d₁.root := hc₂.keeps.grows.choice _ h₁.base.sound.linked.root
  rwa [hroot]

end Vacant

/-- In a draft without leaves the offers are the first leaves of all branches of the draft, branch
by branch, and the search for those has nothing to lay out any more. They are what the grammar has
for first leaves of its start rule, from left to right and going down before going on. -/
theorem climb_agrees {definition : Grammar.Definition} (hg : definition.build = .ok g)
    (h : Reached g d) (hempty : d.leaves = []) {found : List NodeId}
    (ho : offers none d = .ok found e) :
    (∃ parts,
      List.Forall₂ (fun row part => firstLeavesOf [row] e = .ok part e) e.root.branches parts ∧
      found = parts.flatten) ∧
    spread g (fun l => firsts g d.settings.recursionLimit (reach g d.settings.recursionLimit) l [])
      (Frame.empty g (g.rule g.start).body 0).allGaps = some (found.map e.trail) := by
  have hover := h.over (Grammar.Definition.wellFormed_build hg)
  have hv := hover.vacant hempty
  refine ⟨?_, ?_⟩
  · obtain ⟨hc, parts, hparts, hfound⟩ := hv.told_offers ho
    have hve := hv.keeps hc.keeps
    have hrows : ∀ row ∈ e.root.branches, ∀ s ∈ row, e.HasSlot s := fun row hrow s hs =>
      (hve.base.sound.linked.hasSlot_of_mem_row (c := ⟨0⟩) hrow hs).1
    refine ⟨parts, ?_, hfound⟩
    refine ((List.forall₂_and_left _ _).2 ⟨hrows, hparts⟩).imp fun row part ⟨hrow, htold⟩ => ?_
    rw [← pursue_firstOfBranches_singleton] at htold
    exact htold.run hve.base.sound
      (hve.base.ends_firstLeavesOf (List.forall_mem_singleton.2 hrow))
  · have hfinds := hover.finds_spread (Editor.root_chosen_eq_none hover.sound hempty)
    rw [← hover.limit] at hfinds
    obtain ⟨-, ts, hts, -, hmap⟩ := Edit.Ensures.of_ok hfinds ho
    rw [hts, hmap]

/-- Terms that may have a sign, and a question mark for one. -/
def terms : Grammar.Definition where
  rules := [
    ("term", [[.option [[.literal "-" .once]] .once, .rule "atom" .once], [.literal "?" .once]]),
    ("atom", [[.literal "0" .once], [.literal "1" .once]])]

def termGrammar : Grammar := terms.build.toOption.getD default

/-- A term begins with its sign, with either atom, or it is a question mark. -/
theorem climb_agrees_term : ∃ found e, offers none (Draft.start termGrammar {} []) = .ok found e ∧
    found.map e.caption = ["-", "0", "1", "?"] ∧ ∃ parts,
      List.Forall₂ (fun row part => firstLeavesOf [row] e = .ok part e) e.root.branches parts ∧
      found = parts.flatten := by
  obtain ⟨found, e, ho, hcaption⟩ : ∃ found e, offers none (Draft.start termGrammar {} []) =
      .ok found e ∧ found.map e.caption = ["-", "0", "1", "?"] :=
    Ensures.exists_ok (by decide +kernel)
  obtain ⟨hparts, -⟩ := climb_agrees (g := termGrammar)
    (Grammar.Definition.build_eq_ok (by decide +kernel)) (.start {}) (by decide +kernel) ho
  exact ⟨found, e, ho, hcaption, hparts⟩

end Cloze.Draft
