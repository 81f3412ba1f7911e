import Cloze.Proofs.Skipping

/-!
# The search finds what its trails say

Each part of the search for offers is compared with its counterpart by trails: going down to the
first leaves under a gap, going on behind a node, climbing to the root, and taking up the draft at a
cursor. What is remembered as unskippable and which gaps and choices earlier searches have left make
no difference to what is found, and none to whether the search succeeds: wherever a question is
refused, the leaves it is asked for run into the same depth.
-/

namespace Cloze.Draft

open Edit

variable {g : Grammar} {limit : Nat} {d e : Draft} {γ δ : Type}

/-- The nodes have the trails. -/
def Shows (ns : List NodeId) (d : Draft) (ts : List Trail) : Prop :=
  (∀ n ∈ ns, d.HasNode n) ∧ ns.map d.trail = ts

theorem shows_nil (d : Draft) : Shows [] d [] := ⟨by simp, rfl⟩

theorem Shows.append {ns ms : List NodeId} {ts us : List Trail} (h : Shows ns d ts)
    (h' : Shows ms d us) : Shows (ns ++ ms) d (ts ++ us) :=
  ⟨fun n hn => (List.mem_append.1 hn).elim (h.1 n) (h'.1 n), by rw [List.map_append, h.2, h'.2]⟩

theorem Shows.keeps {ns : List NodeId} {ts : List Trail} (h : Shows ns d ts) (hd : d.Sound)
    (hk : Keeps d e) : Shows ns e ts :=
  ⟨fun n hn => hk.grows.hasNode (h.1 n hn),
    (List.map_congr_left fun n hn => hk.trail hd (h.1 n hn)).trans h.2⟩

/-- A decision taken before something is found. -/
theorem finds_of_decides {act : Edit Bool} {f : Bool → Edit γ} {question stuck : Prop}
    {spec : Option δ} {rel : γ → Draft → δ → Prop} (h : Decides act d question stuck)
    (hs : stuck → spec = none)
    (hf : ∀ b e, Keeps d e → (b = true ↔ question) → Finds (f b) e spec rel) :
    Finds (act >>= f) d spec rel := by
  unfold Finds
  rw [ensures_bind]
  refine Ensures.mono h (fun b e ⟨hk, hb⟩ => ?_) fun r e ⟨hk, hst, hr⟩ => ⟨hk, hs hst, hr⟩
  refine Ensures.mono (hf b e hk hb) (fun c f ⟨hk', x, hx, hr⟩ => ⟨hk.trans hk', x, hx, hr⟩)
    fun r f ⟨hk', hn, rule, hr⟩ => ⟨hk.trans hk', hn, rule, by rw [hr, hk.grows.settings]⟩

theorem finds_get {f : Draft → Edit γ} {spec : Option δ} {rel : γ → Draft → δ → Prop}
    (h : Finds (f d) d spec rel) : Finds (get >>= f) d spec rel := by
  unfold Finds at h ⊢
  rwa [ensures_bind, ensures_get]

/-! ### Going down -/

/-- The search for first leaves in a choice. -/
noncomputable abbrev firstIn? (g : Grammar) (limit : Nat) (d : Draft) (c : ChoiceId) :
    Level → Option (List Trail) :=
  fun k => firsts g limit (reach g limit) k (d.above c)

/-- The slots stand in the choice. -/
def InChoice (d : Draft) (c : ChoiceId) (slots : List SlotId) : Prop :=
  ∀ s ∈ slots, d.HasSlot s ∧ (d.slot s).choice = c

theorem InChoice.keeps {c : ChoiceId} {slots : List SlotId} (h : InChoice d c slots)
    (hk : Keeps d e) : InChoice e c slots := fun s hs =>
  ⟨hk.grows.hasSlot (h s hs).1, (hk.grows.slot_eq (h s hs).1).2.1.trans (h s hs).2⟩

theorem Over.firstIn?_eq (h : Over g limit d) (hk : Keeps d e) {c : ChoiceId} (hc : d.HasChoice c) :
    firstIn? g limit e c = firstIn? g limit d c := by
  unfold firstIn?
  rw [hk.above h.sound hc]

/-- Finding the first leaves under the gaps of some slots of a choice. -/
def FindsFirsts (g : Grammar) (limit : Nat) (inside : NodeId → Edit (List NodeId)) (d : Draft)
    (c : ChoiceId) (slots : List SlotId) : Prop :=
  ∀ s ∈ slots, ∀ e n, Keeps d e → GapAt e s 0 n →
    Finds (inside n) e (firstIn? g limit d c (d.spot s 0 false)) Shows

theorem FindsFirsts.keeps {inside : NodeId → Edit (List NodeId)} {c : ChoiceId}
    {slots : List SlotId} (h : FindsFirsts g limit inside d c slots) (ho : Over g limit d)
    (hk : Keeps d e) (hc : d.HasChoice c) (hs : InChoice d c slots) :
    FindsFirsts g limit inside e c slots := fun s hm f n hk' hn => by
  rw [ho.spot_eq hk (hs s hm).1, ho.firstIn?_eq hk hc]
  exact h s hm f n (hk.trans hk') hn

open scoped Classical in
theorem stretch_cons {first : Level → Option (List Trail)} {l : Level} {row : List Level}
    (hf : l.isFull g = false) : stretch g first (l :: row)
      = (first l).bind fun found => if l.CanPass g then
        (stretch g first row).bind fun more => some (found ++ more.1, more.2)
      else some (found, false) := by
  simp only [stretch, hf, Bool.false_eq_true, if_false]
  rfl

/-- The first leaves of a branch are found. -/
theorem Over.finds_firstOfSlots {inside : NodeId → Edit (List NodeId)} {c : ChoiceId} :
    ∀ {slots : List SlotId} {d : Draft}, Over g limit d → d.HasChoice c → InChoice d c slots →
    FindsFirsts g limit inside d c slots → Finds (firstOfSlots inside slots) d
      (stretch g (firstIn? g limit d c) (slots.map (d.spot · 0 false)))
      fun ns e r => Shows ns e r.1
  | [], d, h, _, _, _ => finds_pure h.sound (shows_nil d)
  | s :: rest, d, h, hc, hs, hin => by
    obtain ⟨⟨hslot, hchoice⟩, hrest⟩ := List.forall_mem_cons.1 hs
    obtain ⟨hin1, hin2⟩ := List.forall_mem_cons.1 hin
    have hfull : (d.spot s 0 false).isFull g = d.isFull s := by
      rw [← h.grammar]
      exact h.sound.linked.isFull_spot hslot 0 false
    refine finds_get ?_
    rw [List.map_cons]
    split
    · rename_i hf
      have hspec : stretch g (firstIn? g limit d c)
          (d.spot s 0 false :: rest.map (d.spot · 0 false)) = some ([], false) := by
        simp [stretch, hfull, hf]
      rw [hspec]
      exact finds_pure h.sound (shows_nil d)
    · rename_i hf
      rw [Bool.not_eq_true] at hf
      refine finds_of_ensures (h.sound.ensures_gap hslot hf (Nat.zero_le _)) fun n e hk hn => ?_
      rw [stretch_cons (hfull.trans hf)]
      refine (hin1 e n hk hn).bind fun found e' us hk' hus hfound => ?_
      have hk2 := hk.trans hk'
      have ho := h.keeps hk2
      refine finds_of_decides (ho.decides_canSkipSlot (hk2.grows.hasSlot hslot))
        (fun hstuck => ?_) fun b f hkf hb => ?_
      · have hnone := hstuck.2
        rw [h.spot_eq hk2 hslot, (hk2.grows.slot_eq hslot).2.1, hchoice,
          hk2.above h.sound hc] at hnone
        cases hnone.symm.trans hus
      · rw [h.spot_eq hk2 hslot] at hb
        have hk3 := hk2.trans hkf
        split
        · rename_i hbt
          rw [if_pos (hb.1 hbt), ← h.firstIn?_eq hk3 hc,
            ← h.map_spot hk3 fun t ht => (hrest t ht).1]
          refine ((h.keeps hk3).finds_firstOfSlots (hk3.grows.hasChoice hc) (InChoice.keeps hrest hk3)
            (FindsFirsts.keeps hin2 h hk3 hc hrest)).bind fun more e'' vs hk'' _ hmore => ?_
          exact finds_pure hk''.sound (((hfound.keeps ho.sound hkf).keeps hkf.sound hk'').append hmore)
        · rename_i hbf
          rw [if_neg fun hp => hbf (hb.2 hp)]
          exact finds_pure hkf.sound (hfound.keeps ho.sound hkf)

/-- The first leaves of several branches are found. -/
theorem Over.finds_firstOfBranches {inside : NodeId → Edit (List NodeId)} {c : ChoiceId} :
    ∀ {rows : List (List SlotId)} {d : Draft}, Over g limit d → d.HasChoice c →
    (∀ row ∈ rows, InChoice d c row) → (∀ row ∈ rows, FindsFirsts g limit inside d c row) →
    Finds (firstOfBranches inside rows) d
      (spread g (firstIn? g limit d c) (rows.map (·.map (d.spot · 0 false)))) Shows
  | [], d, h, _, _, _ => finds_pure h.sound (shows_nil d)
  | row :: rows, d, h, hc, hs, hin => by
    obtain ⟨hrow, hrest⟩ := List.forall_mem_cons.1 hs
    obtain ⟨hin1, hin2⟩ := List.forall_mem_cons.1 hin
    refine (h.finds_firstOfSlots hc hrow hin1).bind fun found e us hk _ hfound => ?_
    have hmap : rows.map (·.map (e.spot · 0 false)) = rows.map (·.map (d.spot · 0 false)) :=
      List.map_congr_left fun r hr => h.map_spot hk fun t ht => (hrest r hr t ht).1
    have ih := (h.keeps hk).finds_firstOfBranches (hk.grows.hasChoice hc)
      (fun r hr => (hrest r hr).keeps hk)
      fun r hr => FindsFirsts.keeps (hin2 r hr) h hk hc (hrest r hr)
    rw [hmap, h.firstIn?_eq hk hc] at ih
    refine ih.bind fun more f vs hk' _ hmore => ?_
    exact finds_pure hk'.sound ((hfound.keeps hk.sound hk').append hmore)

/-- The first leaves under a gap, one level down at a time. -/
theorem firsts_reach (hg : g.WellFormed) {l : Level} {above : Trail} (hl : l.Fits g) :
    firsts g limit (reach g limit) l above = (l.inside g limit).bind fun
      | none => some [l :: above]
      | some f => spread g (fun k => firsts g limit (reach g limit) k (l :: above)) f.allGaps := by
  rcases hi : l.inside g limit with _ | _ | f
  · obtain ⟨m, hm⟩ := exists_reach_eq_succ g limit
    rw [hm, firsts_eq_none hi]
    rfl
  · obtain ⟨m, hm⟩ := exists_reach_eq_succ g limit
    simp [hm, firsts, hi]
  · rw [firsts_of_inside hg hl hi]
    rfl

/-- The slots of a choice stand in it. -/
theorem Linked.inChoice (h : d.Linked) {c : ChoiceId} {row : List SlotId}
    (hrow : row ∈ (d.choice c).branches) : InChoice d c row :=
  fun _ hs => h.hasSlot_of_mem_row hrow hs

/-- The first leaves under a gap are found. -/
theorem Over.finds_firstLeavesWithin : ∀ {bound : Nat} {d : Draft} {n : NodeId}, Over g limit d →
    d.HasNode n → (d.node n).placed = false → (d.level n).frame.need g limit ≤ bound →
    Finds (firstLeavesWithin bound n) d (firstIn? g limit d (d.choiceAround n) (d.level n)) Shows
  | 0, d, n, _, _, _, hb => by
    unfold Frame.need at hb
    omega
  | bound + 1, d, n, h, hn, hp, hb => by
    have hfits : (d.level n).Fits g := h.grammar ▸ h.sound.linked.fits_level hn
    have hreveal := h.sound.finds_reveal hn hp
    rw [h.grammar, h.limit] at hreveal
    unfold firstIn?
    rw [firsts_reach h.wellFormed hfits]
    refine hreveal.bind fun c e f hk hf ⟨hc, hframe⟩ => ?_
    have he := h.keeps hk
    have hne := hk.grows.hasNode hn
    have htrail : e.trail n = d.level n :: d.above (d.choiceAround n) := by
      rw [hk.trail h.sound hn, h.sound.linked.trail_eq hn]
    cases c with
    | none =>
      cases hframe
      refine finds_pure hk.sound ⟨by simpa using hne, ?_⟩
      rw [List.map_singleton, htrail]
    | some c =>
      cases hframe
      have hopen := he.sound.linked.inner n c hne hc
      have habove : e.above c = d.level n :: d.above (d.choiceAround n) := by
        rw [← htrail]
        simp only [Draft.above, hopen.holder]
      have hlt := Level.need_lt_of_inside h.wellFormed hfits hf
      refine finds_get ?_
      have hall := he.finds_firstOfBranches hopen.choice (fun row hrow => he.sound.linked.inChoice hrow)
        fun row hrow s hs f m hk' hm => by
          obtain ⟨h1, h2⟩ := he.sound.linked.hasSlot_of_mem_row hrow hs
          have hlevel : f.level m = e.spot s 0 false := hm.level.trans (he.spot_eq hk' h1)
          have haround : f.choiceAround m = c := by
            rw [hm.choiceAround, (hk'.grows.slot_eq h1).2.1, h2]
          have hframe : (e.spot s 0 false).frame = e.frame c := by rw [spot, h2]
          have hneed : (f.level m).frame.need g limit ≤ bound := by
            rw [hlevel, hframe]
            omega
          have ih := (he.keeps hk').finds_firstLeavesWithin hm.has hm.placed hneed
          rwa [hlevel, haround, he.firstIn?_eq hk' hopen.choice] at ih
      rw [← he.sound.linked.allGaps_eq] at hall
      unfold firstIn? at hall
      rw [habove] at hall
      exact hall

/-- The first leaves under a gap are found. -/
theorem Over.finds_firstLeaves (h : Over g limit d) {n : NodeId} (hn : d.HasNode n)
    (hp : (d.node n).placed = false) :
    Finds (firstLeaves n) d (firstIn? g limit d (d.choiceAround n) (d.level n)) Shows := by
  refine finds_get ?_
  rw [h.levels_eq]
  exact h.finds_firstLeavesWithin hn hp (need_le_reach (h.grammar ▸ h.sound.linked.fits_level hn))

/-- The first leaves under a gap of a slot are found, by way of the gap. -/
theorem Over.finds_firsts_gap (h : Over g limit d) (hk : Keeps d e) {s : SlotId} (hs : d.HasSlot s)
    {p : Nat} {n : NodeId} (hn : GapAt e s p n) :
    Finds (firstLeaves n) e (firstIn? g limit d (d.slot s).choice (d.spot s p false)) Shows := by
  have hf := (h.keeps hk).finds_firstLeaves hn.has hn.placed
  rwa [hn.level, hk.spot h.sound hs, hn.choiceAround, (hk.grows.slot_eq hs).2.1,
    h.firstIn?_eq hk (h.sound.linked.slot s hs).choice] at hf

/-! ### Going on -/

/-- The nodes have the trails, and the answers agree. -/
def ShowsWith (r : List NodeId × Bool) (d : Draft) (s : List Trail × Bool) : Prop :=
  Shows r.1 d s.1 ∧ r.2 = s.2

/-- What comes first in slots up to one that cannot be passed is found. -/
theorem Over.finds_onwardOver {c : ChoiceId} : ∀ {slots : List SlotId} {d : Draft},
    Over g limit d → d.HasChoice c → InChoice d c slots → Finds (onwardOver slots) d
      (stretch g (firstIn? g limit d c) (slots.map (d.spot · 0 false))) ShowsWith
  | [], d, h, _, _ => finds_pure h.sound ⟨shows_nil d, rfl⟩
  | s :: rest, d, h, hc, hs => by
    obtain ⟨⟨hslot, hchoice⟩, hrest⟩ := List.forall_mem_cons.1 hs
    have hfull : (d.spot s 0 false).isFull g = d.isFull s := by
      rw [← h.grammar]
      exact h.sound.linked.isFull_spot hslot 0 false
    rw [List.map_cons]
    refine finds_of_decides (h.decides_canSkipSlot hslot) (fun hstuck => ?_) fun b e hk hb => ?_
    · rw [hchoice] at hstuck
      exact stretch_eq_none_of_first (hfull.trans hstuck.1) hstuck.2
    · have hfulle : e.isFull s = d.isFull s := by
        rw [isFull, isFull, hk.grows.multiplicity hslot, hk.grows.content]
      split
      · rename_i hbt
        have hpass := hb.1 hbt
        have hf := hfull.symm.trans hpass.isFull
        refine finds_of_ensures (hk.sound.ensures_gap (hk.grows.hasSlot hslot) (hfulle.trans hf)
          (Nat.zero_le _)) fun n e' hk' hn => ?_
        rw [stretch_cons hpass.isFull]
        have hfirst := h.finds_firsts_gap (hk.trans hk') hslot hn
        rw [hchoice] at hfirst
        refine hfirst.bind fun found f us hkf _ hfound => ?_
        have hk3 := (hk.trans hk').trans hkf
        rw [if_pos hpass, ← h.firstIn?_eq hk3 hc, ← h.map_spot hk3 fun t ht => (hrest t ht).1]
        refine ((h.keeps hk3).finds_onwardOver (hk3.grows.hasChoice hc)
          (InChoice.keeps hrest hk3)).bind fun more e'' vs hk'' _ hmore => ?_
        exact finds_pure hk''.sound ⟨(hfound.keeps hkf.sound hk'').append hmore.1, hmore.2⟩
      · rename_i hbf
        have hpass : ¬ (d.spot s 0 false).CanPass g := fun hp => hbf (hb.2 hp)
        refine finds_get ?_
        split
        · rename_i hf
          have hspec : stretch g (firstIn? g limit d c)
              (d.spot s 0 false :: rest.map (d.spot · 0 false)) = some ([], false) := by
            simp [stretch, hfull, ← hfulle, hf]
          rw [hspec]
          exact finds_pure hk.sound ⟨shows_nil e, rfl⟩
        · rename_i hf
          rw [Bool.not_eq_true] at hf
          refine finds_of_ensures (hk.sound.ensures_gap (hk.grows.hasSlot hslot) hf
            (Nat.zero_le _)) fun n e' hk' hn => ?_
          rw [stretch_cons (hfull.trans (hfulle.symm.trans hf))]
          have hfirst := h.finds_firsts_gap (hk.trans hk') hslot hn
          rw [hchoice] at hfirst
          refine hfirst.bind fun found f us hkf _ hfound => ?_
          rw [if_neg hpass]
          exact finds_pure hkf.sound ⟨hfound, rfl⟩

theorem SettledBut.position_lt (h : d.Settled) {n : NodeId} (hp : (d.node n).placed = true) :
    (d.node n).position < (d.slot (d.node n).slot).content.length :=
  (List.getElem?_eq_some_iff.1 (h.content_at hp)).1

theorem Linked.isLast_level (h : d.Linked) {n : NodeId} (hn : d.HasNode n) :
    (d.level n).IsLast ↔ (if (d.node n).placed then (d.node n).position + 1
      else (d.node n).position) = (d.slot (d.node n).slot).content.length := by
  rw [Level.IsLast, level, h.cell_spot (h.node n hn).slot]
  rfl

/-- What comes right behind a node in its own slot is found. -/
theorem Over.finds_againAfter (h : Over g limit d) {n : NodeId} (hn : d.HasNode n) :
    Finds (againAfter n) d (again g limit (d.level n) (d.above (d.choiceAround n)))
      fun r e ts => Shows r.1 e ts ∧ (r.2 = true ↔ (d.level n).IsLast) := by
  have hslot := (h.sound.linked.node n hn).slot
  have hfull : (d.level n).isFull g = d.isFull (d.node n).slot := by
    rw [← h.grammar]
    exact h.sound.linked.isFull_spot hslot _ _
  have hplaced : (d.level n).placed = (d.node n).placed := rfl
  unfold again
  rw [hfull, hplaced, h.sound.linked.isLast_level hn]
  refine finds_get ?_
  dsimp only
  split
  · rename_i hp
    split
    · rename_i hf
      rw [if_neg (by simp [hf])]
      exact finds_pure h.sound ⟨shows_nil d, by simp⟩
    · rename_i hf
      rw [Bool.not_eq_true] at hf
      rw [if_pos ⟨hp, hf⟩]
      refine finds_of_ensures (h.sound.ensures_gap hslot hf (h.sound.settled.position_lt hp))
        fun m e hk hm => ?_
      exact (h.finds_firsts_gap hk hslot hm).map fun found f us hkf hfound => ⟨hfound, by simp⟩
  · rename_i hp
    rw [if_neg (by simp [hp])]
    exact finds_pure h.sound ⟨shows_nil d, by simp⟩

/-- What may follow a node in its branch is found. -/
theorem Over.finds_onward (h : Over g limit d) {n : NodeId} (hn : d.HasNode n) :
    Finds (onward n) d (ahead g limit (d.level n) (d.above (d.choiceAround n))) ShowsWith := by
  have hslot := (h.sound.linked.node n hn).slot
  have hc := h.sound.linked.hasChoice_around hn
  refine (h.finds_againAfter hn).bind fun ⟨found, last⟩ e us hk _ ⟨hfound, hlast⟩ => ?_
  dsimp only at hlast ⊢
  by_cases hl : (d.level n).IsLast
  · rw [if_pos (hlast.2 hl), if_pos hl]
    refine finds_get ?_
    have hafter : (e.slotsAfter (e.node n).slot).map (e.spot · 0 false) = (d.level n).later := by
      have hlater := hk.sound.linked.later_spot ((hk.sound.linked.node n (hk.grows.hasNode hn)).slot)
        (e.node n).position (e.node n).placed
      rw [← hlater]
      exact congrArg Level.later (hk.level h.sound hn)
    have haround : e.choiceAround n = d.choiceAround n := hk.grows.choiceAround hn hslot
    have hover := (h.keeps hk).finds_onwardOver
      (c := d.choiceAround n) (hk.grows.hasChoice hc) fun t ht => by
        rw [← haround]
        exact hk.sound.linked.mem_slotsAfter ht
    rw [hafter, h.firstIn?_eq hk hc] at hover
    refine hover.bind fun next f vs hkf _ hnext => ?_
    exact finds_pure hkf.sound ⟨(hfound.keeps hk.sound hkf).append hnext.1, hnext.2⟩
  · rw [if_neg fun hb => hl (hlast.1 hb), if_neg hl]
    exact finds_pure hk.sound ⟨hfound, rfl⟩

/-- The first leaves of the other branches are found. -/
theorem Over.finds_others (h : Over g limit d) {n : NodeId} (hn : d.HasNode n) :
    Finds (firstLeavesOf (d.otherBranches n)) d
      (spread g (firstIn? g limit d (d.choiceAround n)) (d.level n).others) Shows := by
  have hrows : ∀ row ∈ d.otherBranches n, InChoice d (d.choiceAround n) row := by
    intro row hrow
    unfold otherBranches at hrow
    dsimp only at hrow
    split at hrow
    · exact h.sound.linked.inChoice (List.mem_of_mem_eraseIdx hrow)
    · cases hrow
  have hc := h.sound.linked.hasChoice_around hn
  rw [h.sound.linked.others_level]
  refine finds_get ?_
  rw [h.levels_eq]
  refine h.finds_firstOfBranches hc hrows fun row hrow s hs e m hk hm => ?_
  obtain ⟨h1, h2⟩ := hrows row hrow s hs
  have hfirst := (h.keeps hk).finds_firstLeavesWithin hm.has hm.placed
    (need_le_reach ((h.keeps hk).grammar ▸ hk.sound.linked.fits_level hm.has))
  rwa [hm.level, hk.spot h.sound h1, hm.choiceAround, (hk.grows.slot_eq h1).2.1, h2,
    h.firstIn?_eq hk hc] at hfirst

end Cloze.Draft
