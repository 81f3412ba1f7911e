import Cloze.Proofs.Steady
import Cloze.Proofs.Walking

/-!
# A search made twice

A search does not touch what is placed, and a second one at the same place finds the same nodes and
changes nothing at all (`search_twice`). On the way up from where it sets out, a search asks the slot
of each node for the position behind the node, and all other slots for their first (`OnWay`).
-/

namespace Cloze.Draft

open Edit

variable {d e f : Draft} {ask : SlotId → Nat}

/-! ### Going up -/

/-- The position behind a node in its slot, or its own if it is a gap. -/
def nextPosition (d : Draft) (n : NodeId) : Nat :=
  if (d.node n).placed then (d.node n).position + 1 else (d.node n).position

/-- A node on the way up. Its slot is asked for the position behind it, and the other slots of the
choice around it for the first. -/
structure OnWay (ask : SlotId → Nat) (d : Draft) (n : NodeId) : Prop where
  has : d.HasNode n
  own : ask (d.node n).slot = d.nextPosition n
  beside : ∀ s, d.HasSlot s → (d.slot s).choice = d.choiceAround n → s ≠ (d.node n).slot → ask s = 0

theorem Grows.nextPosition (h : Grows d e) {n : NodeId} (hn : d.HasNode n) :
    e.nextPosition n = d.nextPosition n := by
  simp only [Draft.nextPosition, h.placed, (h.node_eq hn).2.2.1]

theorem Asks.beside_of_keeps (h : Asks ask d) {n : NodeId} (hn : OnWay ask d n) (hk : Keeps d e)
    {s : SlotId} (hs : e.HasSlot s) (hc : (e.slot s).choice = e.choiceAround n)
    (hne : s ≠ (e.node n).slot) : ask s = 0 := by
  have hslot := (h.sound.linked.node n hn.has).slot
  have hchoice := h.sound.linked.hasChoice_around hn.has
  rw [hk.grows.choiceAround hn.has hslot] at hc
  rw [(hk.grows.node_eq hn.has).2.1] at hne
  -- A slot of an old choice is old.
  have hentry := (hk.sound.linked.slot s hs).entry
  rw [hc, hk.grows.choice _ hchoice] at hentry
  obtain ⟨hds, hdc, -⟩ := (h.sound.linked.choice _ hchoice).slots _ _ s hentry
  exact hn.beside s hds hdc hne

theorem Asks.onWay_keeps (h : Asks ask d) {n : NodeId} (hn : OnWay ask d n) (hk : Keeps d e) :
    OnWay ask e n := by
  refine ⟨hk.grows.hasNode hn.has, ?_, fun s => h.beside_of_keeps hn hk⟩
  rw [(hk.grows.node_eq hn.has).2.1, hk.grows.nextPosition hn.has, hn.own]

theorem Asks.steady_againAfter (h : Asks ask d) {n : NodeId} (hn : OnWay ask d n) :
    Steady ask (againAfter n) d := by
  have hslot := (h.sound.linked.node n hn.has).slot
  refine steady_get ?_ fun f hf => by
    obtain ⟨-, h1, h2, -⟩ := hf.keeps.grows.node_eq hn.has
    simp only [h1, h2, hf.keeps.grows.placed, hf.keeps.grows.content, hf.keeps.grows.isFull hslot]
  dsimp only
  split
  · rename_i hp
    split
    · exact steady_pure h.sound _
    · have hask : ask (d.node n).slot = (d.node n).position + 1 := by
        rw [hn.own, nextPosition, if_pos hp]
      refine h.sound.steady_gap_bind hslot hask (h.sound.settled.position_lt hp) fun m e hk hm => ?_
      exact ((h.keeps hk).steady_firstLeaves hm.has hm.placed).bind fun found f _ hf =>
        steady_pure hf.keeps.sound _
  · exact steady_pure h.sound _

theorem Asks.steady_onwardOver : ∀ {slots : List SlotId} {d : Draft}, Asks ask d →
    Plain ask d slots → Steady ask (onwardOver slots) d
  | [], d, h, _ => steady_pure h.sound _
  | s :: rest, d, h, hs => by
    obtain ⟨hslot, hask⟩ := hs s List.mem_cons_self
    refine (h.steady_canSkipSlot hslot hask).bind fun b e _ he => ?_
    have hse := he.keeps.grows.hasSlot hslot
    have hae := h.keeps he.keeps
    split
    · refine hae.sound.steady_gap_bind hse hask (Nat.zero_le _) fun n f hk hn => ?_
      refine ((hae.keeps hk).steady_firstLeaves hn.has hn.placed).bind fun found f' _ hf' => ?_
      have hkf := (he.keeps.trans hk).trans hf'.keeps
      exact ((h.keeps hkf).steady_onwardOver (hs.of_cons.keeps hkf)).bind fun r e' _ he' =>
        steady_pure he'.keeps.sound _
    · refine steady_get ?_ fun f hf => by simp only [hf.keeps.grows.isFull hse]
      split
      · exact steady_pure hae.sound _
      · refine hae.sound.steady_gap_bind hse hask (Nat.zero_le _) fun n f hk hn => ?_
        exact ((hae.keeps hk).steady_firstLeaves hn.has hn.placed).bind fun found f' _ hf' =>
          steady_pure hf'.keeps.sound _

theorem Asks.plain_slotsAfter (h : Asks ask d) {n : NodeId} (hn : OnWay ask d n) :
    Plain ask d (d.slotsAfter (d.node n).slot) := by
  intro s hs
  obtain ⟨h1, h2⟩ := h.sound.linked.mem_slotsAfter hs
  refine ⟨h1, hn.beside s h1 h2 fun heq => ?_⟩
  exact (h.sound.linked.not_mem_slots (h.sound.linked.node n hn.has).slot).2 (heq ▸ hs)

theorem Asks.plain_otherBranches (h : Asks ask d) {n : NodeId} (hn : OnWay ask d n) :
    ∀ row ∈ d.otherBranches n, Plain ask d row := by
  intro row hrow s hs
  unfold otherBranches at hrow
  dsimp only at hrow
  split at hrow
  · obtain ⟨i, hi, hne⟩ := List.mem_eraseIdx_iff_getElem?.1 hrow
    obtain ⟨j, hj⟩ := List.mem_iff_getElem?.1 hs
    obtain ⟨h1, h2, h3, -⟩ := (h.sound.linked.choice _ (h.sound.linked.hasChoice_around hn.has)).slots
      i j s (itemAt?_eq_some.2 ⟨row, hne, hj⟩)
    refine ⟨h1, hn.beside s h1 h2 ?_⟩
    rintro rfl
    exact hi h3.symm
  · cases hrow

theorem Asks.steady_onward (h : Asks ask d) {n : NodeId} (hn : OnWay ask d n) :
    Steady ask (onward n) d := by
  refine (h.steady_againAfter hn).bind fun r e _ he => ?_
  have hae := h.keeps he.keeps
  have hne := h.onWay_keeps hn he.keeps
  dsimp only
  split
  · refine steady_get ?_ fun f hf => by
      rw [(hf.keeps.grows.node_eq hne.has).2.1,
        hf.keeps.grows.slotsAfter hae.sound.linked (hae.sound.linked.node n hne.has).slot]
    exact (hae.steady_onwardOver (hae.plain_slotsAfter hne)).bind fun r e' _ he' =>
      steady_pure he'.keeps.sound _
  · exact steady_pure hae.sound _

theorem Asks.steady_followUp (h : Asks ask d) {n : NodeId} (hn : OnWay ask d n) (passed : Bool) :
    Steady ask (followUp n passed) d := by
  cases passed with
  | true => exact h.steady_onward hn
  | false =>
    refine (h.steady_canSkip hn.has).bind fun skip e _ he => ?_
    cases skip with
    | true => exact (h.keeps he.keeps).steady_onward (h.onWay_keeps hn he.keeps)
    | false => exact steady_pure he.keeps.sound _

theorem Asks.steady_climb : ∀ {ns : List NodeId} {passed : Bool} {d : Draft}, Asks ask d →
    (∀ n ∈ ns, OnWay ask d n) → Steady ask (climb ns passed) d
  | [], _, d, h, _ => steady_pure h.sound []
  | n :: rest, passed, d, h, hs => by
    obtain ⟨hn, hrest⟩ := List.forall_mem_cons.1 hs
    rw [climb_cons]
    refine steady_get ?_ fun f hf => by rw [hf.keeps.grows.isLeaf hn.has]
    refine (h.steady_followUp hn passed).bind fun r e _ he => ?_
    have hae := h.keeps he.keeps
    have hne := h.onWay_keeps hn he.keeps
    refine steady_get ?_ fun f hf => by
      rw [hf.keeps.grows.otherBranches hae.sound.linked hne.has]
    refine (hae.steady_firstLeavesOf (hae.plain_otherBranches hne)).bind fun others f _ hf => ?_
    have hkf := he.keeps.trans hf.keeps
    exact ((h.keeps hkf).steady_climb fun m hm => h.onWay_keeps (hrest m hm) hkf).bind
      fun higher e' _ he' => steady_pure he'.keeps.sound _

/-! ### Where a search sets out -/

/-- The positions that a search asks for which sets out at a node. -/
def askFrom (d : Draft) (n : NodeId) (s : SlotId) : Nat :=
  match (d.lineage n).find? fun m => decide ((d.node m).slot = s) with
  | some m => d.nextPosition m
  | none => 0

theorem Sound.askFrom_own (h : d.Sound) {n m : NodeId} (hn : d.HasNode n) (hm : m ∈ d.lineage n) :
    d.askFrom n (d.node m).slot = d.nextPosition m := by
  unfold askFrom
  split
  · rename_i k hk
    have hslot : (d.node k).slot = (d.node m).slot := by simpa using List.find?_some hk
    have hround : d.choiceAround k = d.choiceAround m := by rw [choiceAround, hslot, choiceAround]
    rw [h.linked.eq_of_choiceAround hn (List.mem_of_find?_eq_some hk) hm hround]
  · rename_i hk
    have hne := List.find?_eq_none.1 hk m hm
    simp at hne

theorem Sound.askFrom_of_ne (h : d.Sound) {n m : NodeId} (hn : d.HasNode n) (hm : m ∈ d.lineage n)
    {s : SlotId} (hc : (d.slot s).choice = d.choiceAround m) (hne : s ≠ (d.node m).slot) :
    d.askFrom n s = 0 := by
  unfold askFrom
  split
  · rename_i k hk
    have hslot : (d.node k).slot = s := by simpa using List.find?_some hk
    have hround : d.choiceAround k = d.choiceAround m := by rw [choiceAround, hslot, hc]
    rw [h.linked.eq_of_choiceAround hn (List.mem_of_find?_eq_some hk) hm hround] at hslot
    exact absurd hslot.symm hne
  · rfl

theorem Sound.asks_askFrom (h : d.Sound) {n : NodeId} (hn : d.HasNode n) :
    Asks (d.askFrom n) d := by
  refine ⟨h, fun s hs => ?_⟩
  unfold askFrom
  split
  · rename_i m hm
    have hslot : (d.node m).slot = s := by simpa using List.find?_some hm
    have hhas := (h.linked.index_le_of_mem_lineage hn (List.mem_of_find?_eq_some hm)).1
    have hp : (d.node m).placed = false := by
      by_contra hp
      rw [Bool.not_eq_false] at hp
      have hmem := (h.settled.content s m).2 ⟨hp, hslot⟩
      rw [hs] at hmem
      cases hmem
    have hle := h.settled.gap m hhas hp
    rw [hslot, hs, List.length_nil] at hle
    simp only [nextPosition, hp, Bool.false_eq_true, if_false]
    omega
  · rfl

theorem Sound.onWay_askFrom (h : d.Sound) {n m : NodeId} (hn : d.HasNode n)
    (hm : m ∈ d.lineage n) : OnWay (d.askFrom n) d m :=
  ⟨(h.linked.index_le_of_mem_lineage hn hm).1, h.askFrom_own hn hm,
    fun _ _ hc hne => h.askFrom_of_ne hn hm hc hne⟩

theorem Asks.of_keeps (h : Asks ask e) (hd : d.Sound) (hk : Keeps d e) : Asks ask d :=
  ⟨hd, fun s hs => h.empty s (by rw [hk.grows.content, hs])⟩

/-- Where the search goes on is found again, if the slots on the way up from there are asked for the
positions that they will be. -/
theorem Asks.repeats_resumeAlong : ∀ {ns : List NodeId} {o : Option NodeId}, Asks ask d →
    resumeAlong ns d = .ok o e →
    (∀ m, o = some m → ∀ k ∈ e.lineage m, ask (e.node k).slot = e.nextPosition k) →
    Repeats ask (resumeAlong ns) d o e
  | [], o, h, hrun, _ => steady_pure h.sound none o e hrun
  | n :: rest, o, h, hrun, hask => by
    cases hp : (d.node n).placed with
    | false =>
      rw [resumeAlong_of_not_placed hp] at hrun
      cases hrun
    | true =>
      have hn := hasNode_of_placed hp
      have hslot := (h.sound.linked.node n hn).slot
      refine Repeats.get ?_ fun f hf => by
        obtain ⟨-, h1, h2, -⟩ := hf.keeps.grows.node_eq hn
        simp only [h1, h2, hf.keeps.grows.placed, hf.keeps.grows.isFull hslot,
          hf.keeps.grows.slotsAfter h.sound.linked hslot]
      obtain ⟨d', _, hget, hrun⟩ := exists_of_run_bind hrun
      cases hget
      simp only [hp, Bool.not_true, Bool.false_eq_true, if_false] at hrun ⊢
      cases hf : d.isFull (d.node n).slot with
      | false =>
        simp only [hf, Bool.not_false, if_true] at hrun ⊢
        obtain ⟨m, e₁, hgap, hrest⟩ := exists_of_run_bind hrun
        have hle := h.sound.settled.position_lt hp
        obtain ⟨hk₁, hm⟩ := Ensures.of_ok (h.sound.ensures_gap hslot hf hle) hgap
        have hown : ask (d.node n).slot = (d.node n).position + 1 := by
          obtain ⟨k, e₂, hleft, hpure⟩ := exists_of_run_bind
            (show (leftmost m >>= fun a => pure (some a)) e₁ = .ok o e from hrest)
          cases hpure
          obtain ⟨hk₂, -, hmem⟩ :=
            Ensures.of_ok (hk₁.sound.mem_lineage_leftmostWithin hm.has) hleft
          have hm₂ := hask k rfl m hmem
          obtain ⟨-, h1, h2, -⟩ := hk₂.grows.node_eq hm.has
          rw [h1, hm.slot, nextPosition, hk₂.grows.placed, hm.placed, h2, hm.position] at hm₂
          exact hm₂
        refine (h.sound.steady_gap_bind hslot hown hle fun m e hk hm => ?_) o e hrun
        exact ((h.keeps hk).steady_leftmost hm.has).map
      | true =>
        simp only [hf, Bool.not_true, Bool.false_eq_true, if_false] at hrun ⊢
        rcases hafter : d.slotsAfter (d.node n).slot with _ | ⟨s, slots⟩
        · rw [hafter] at hrun
          exact h.repeats_resumeAlong hrun hask
        · rw [hafter] at hrun
          have hs := (h.sound.linked.mem_slotsAfter (hafter ▸ List.mem_cons_self)).1
          refine ((h.steady_firstIn hs).bind fun m e₁ hfirst he₁ => ?_) o e hrun
          have hm := (Ensures.of_ok (h.sound.ensures_firstIn_has hs) hfirst).2.1
          refine steady_get ?_ fun f hf => by
            rw [isPlaced, isPlaced, hf.keeps.grows.placed]
          split
          · exact steady_pure he₁.keeps.sound none
          · exact ((h.keeps he₁.keeps).steady_leftmost hm).map

/-- The search once it is known where it sets out. -/
def climbFrom : Option NodeId → Edit (List NodeId)
  | none => pure []
  | some n => get >>= fun d => climb (d.lineage n) false

theorem offers_none_eq : offers none = (some <$> firstLeaf) >>= climbFrom := by
  unfold offers
  congr 1

theorem offers_some_eq (n : NodeId) : offers (some n) = resume n >>= climbFrom := by
  unfold offers
  congr 1

theorem Asks.steady_climbFrom (h : Asks ask d) {o : Option NodeId}
    (ho : ∀ n, o = some n → d.HasNode n ∧ ∀ m ∈ d.lineage n, OnWay ask d m) :
    Steady ask (climbFrom o) d := by
  cases o with
  | none => exact steady_pure h.sound []
  | some n =>
    obtain ⟨hn, hway⟩ := ho n rfl
    refine steady_get (h.steady_climb hway) fun f hf => ?_
    rw [hf.keeps.grows.lineage h.sound.linked hf.keeps.sound.linked hn]

/-- A search can be repeated if the place where it sets out is found again. -/
theorem Sound.repeats_climbFrom (h : d.Sound) {act : Edit (Option NodeId)} {o : Option NodeId}
    {e₁ : Draft} {found : List NodeId} (hact : act d = .ok o e₁) (hk : Keeps d e₁)
    (ho : ∀ n, o = some n → e₁.HasNode n)
    (hrep : ∀ ask, Asks ask d → (∀ n, o = some n → ∀ m ∈ e₁.lineage n,
      ask (e₁.node m).slot = e₁.nextPosition m) → Repeats ask act d o e₁)
    (hrun : climbFrom o e₁ = .ok found e) : ∃ ask, Repeats ask (act >>= climbFrom) d found e := by
  -- Without a place to set out from, nothing is asked for.
  have hask : ∃ ask, Asks ask e₁ ∧ ∀ n, o = some n → ∀ m ∈ e₁.lineage n, OnWay ask e₁ m := by
    cases o with
    | none => exact ⟨fun _ => 0, ⟨hk.sound, fun _ _ => rfl⟩, fun n hn => by cases hn⟩
    | some n =>
      refine ⟨e₁.askFrom n, hk.sound.asks_askFrom (ho n rfl), ?_⟩
      rintro k ⟨⟩ m hm
      exact hk.sound.onWay_askFrom (ho n rfl) hm
  obtain ⟨ask, hasks, hway⟩ := hask
  have hfirst := hrep ask (hasks.of_keeps h hk) fun n hn m hm => (hway n hn m hm).own
  have hsecond := hasks.steady_climbFrom (fun n hn => ⟨ho n hn, hway n hn⟩) found e hrun
  refine ⟨ask, hfirst.1.trans hsecond.1, fun f hf => ?_⟩
  rw [run_bind_of_ok (hfirst.2 f (hsecond.1.trans hf))]
  exact hsecond.2 f hf

theorem Sound.hasNode_of_firstLeaf (h : d.Sound) {n : NodeId} (hrun : firstLeaf d = .ok n e) :
    Keeps d e ∧ e.HasNode n := by
  obtain ⟨m, f, hfirst, hdown⟩ := exists_of_run_bind
    (show (firstIn (d.firstSlot ⟨0⟩) >>= leftmost) d = .ok n e from hrun)
  obtain ⟨hkf, hm, -⟩ := Ensures.of_ok
    (h.ensures_firstIn_has (h.linked.hasSlot_firstSlot h.linked.root).1) hfirst
  obtain ⟨hk, hn, -⟩ := Ensures.of_ok (hkf.sound.mem_lineage_leftmostWithin hm) hdown
  exact ⟨hkf.trans hk, hn⟩

theorem Sound.hasNode_of_resume (h : d.Sound) {n : NodeId} (hp : (d.node n).placed = true)
    {o : Option NodeId} (hrun : resume n d = .ok o e) :
    Keeps d e ∧ ∀ k, o = some k → e.HasNode k := by
  obtain ⟨hk, t, -, hrests⟩ := Ensures.of_ok (h.over.finds_resume hp) hrun
  refine ⟨hk, ?_⟩
  rintro k rfl
  cases hrests with
  | some hr => exact hr.has

/-- A search that succeeds does so again, and changes nothing then. -/
theorem Sound.offers_again (h : d.Sound) {cursor : Option NodeId}
    (hc : ∀ n ∈ cursor, (d.node n).placed = true) {found : List NodeId}
    (ho : offers cursor d = .ok found e) : offers cursor e = .ok found e := by
  suffices hrep : ∃ ask, Repeats ask (offers cursor) d found e by
    obtain ⟨ask, hcov, hagain⟩ := hrep
    exact hagain e (.refl hcov.keeps.sound)
  cases cursor with
  | none =>
    rw [offers_none_eq] at ho ⊢
    obtain ⟨o, e₁, hstart, hrest⟩ := exists_of_run_bind ho
    obtain ⟨n, e₂, hleft, hpure⟩ := exists_of_run_bind
      (show (firstLeaf >>= fun n => pure (some n)) d = .ok o e₁ from hstart)
    cases hpure
    have hroot := (h.linked.hasSlot_firstSlot h.linked.root).1
    have hsteady : ∀ ask, Asks ask d → Steady ask firstLeaf d := by
      intro ask ha
      refine steady_get ?_ fun f hf => by
        simp only [firstSlot, hf.keeps.grows.choice _ h.linked.root]
      refine (ha.steady_firstIn hroot).bind fun m f hrun hf => ?_
      exact (ha.keeps hf.keeps).steady_leftmost
        (Ensures.of_ok (h.ensures_firstIn_has hroot) hrun).2.1
    obtain ⟨hk, hhas⟩ := h.hasNode_of_firstLeaf hleft
    refine h.repeats_climbFrom hstart hk ?_ (fun ask ha _ => (hsteady ask ha).map _ _ hstart) hrest
    rintro k ⟨⟩
    exact hhas
  | some n =>
    rw [offers_some_eq] at ho ⊢
    obtain ⟨o, e₁, hresume, hrest⟩ := exists_of_run_bind ho
    have hp := hc n rfl
    have hn := hasNode_of_placed hp
    obtain ⟨hk, hhas⟩ := h.hasNode_of_resume hp hresume
    refine h.repeats_climbFrom hresume hk hhas (fun ask ha hown => ?_) hrest
    refine Repeats.get (ha.repeats_resumeAlong hresume hown) fun f hf => ?_
    rw [hf.keeps.grows.lineage h.linked hf.keeps.sound.linked hn]

/-- A search changes nothing that is placed and no branch taken, also if it is refused. If it
succeeds, the same search finds the same nodes again and leaves the draft exactly as it is. -/
theorem search_twice {g : Grammar} {definition : Grammar.Definition}
    (hg : definition.build = .ok g) (h : Reached g d) {cursor : Option NodeId}
    (hc : ∀ n ∈ cursor, n ∈ d.leaves) :
    (∀ n, (after (offers cursor) d).isPlaced n = d.isPlaced n) ∧
    (∀ n, d.HasNode n →
      ((after (offers cursor) d).node n).position = (d.node n).position ∧
      (after (offers cursor) d).token? n = d.token? n ∧
      ((after (offers cursor) d).node n).note = (d.node n).note) ∧
    (∀ s, ((after (offers cursor) d).slot s).content = (d.slot s).content) ∧
    (∀ c, ((after (offers cursor) d).choice c).chosen = (d.choice c).chosen) ∧
    Grows d (after (offers cursor) d) ∧
    (∀ found e, offers cursor d = .ok found e → offers cursor e = .ok found e) := by
  have hs := (h.sound (Grammar.Definition.wellFormed_build hg)).1
  have hp : ∀ n ∈ cursor, (d.node n).placed = true := fun n hn => (hs.mem_leaves.1 (hc n hn)).1
  have hgrow := (hs.keeps_offers hp).grows
  refine ⟨hgrow.placed, fun n hn => ?_, hgrow.content, hgrow.chosen, hgrow,
    fun found e => hs.offers_again hp⟩
  exact ⟨(hgrow.node_eq hn).2.2.1, hgrow.token? hn, (hgrow.node_eq hn).2.2.2⟩

/-- An open bracket, with nothing behind it yet. -/
def openList : Draft :=
  [Call.offers none, .fillWith ⟨0⟩ none].foldl (fun d c => c.after d) (Draft.start listGrammar {} [])

/-- Behind the bracket a search makes gaps, and a second one makes none. -/
theorem search_twice_openList : ∃ found e, openList.nodes.size = 1 ∧
    offers (some ⟨0⟩) openList = .ok found e ∧ ⟨3⟩ ∈ found ∧ offers (some ⟨0⟩) e = .ok found e := by
  obtain ⟨found, e, ho, hmem⟩ : ∃ found e, offers (some ⟨0⟩) openList = .ok found e ∧ ⟨3⟩ ∈ found :=
    Ensures.exists_ok (by decide +kernel)
  have hleaf : (⟨0⟩ : NodeId) ∈ openList.leaves := by decide +kernel
  have hcursor : ∀ n ∈ some (⟨0⟩ : NodeId), n ∈ openList.leaves := by
    rintro n ⟨⟩
    exact hleaf
  have hreached : Reached listGrammar openList := (Reached.start {}).foldl (by decide +kernel)
  obtain ⟨-, -, -, -, -, hagain⟩ := search_twice build_lists hreached hcursor
  exact ⟨found, e, by decide +kernel, ho, hmem, hagain found e ho⟩

end Cloze.Draft
