import Cloze.Proofs.Outcome
import Cloze.Proofs.Prospect

/-!
# Sound drafts

A draft is sound if it is linked and settled, and if what it remembers as unskippable is: the symbol
of a slot that takes one node, which cannot stand for nothing. Making a gap and laying out the choice
of a node grow a sound draft into a sound one. `Finds` compares an edit that only grows the draft
with what a search by trails finds: the edit succeeds exactly if the search does, and the only
reason for which it is refused is a rule nested too deep.
-/

namespace Cloze.Draft

open Edit

/-- A draft in order. -/
structure Sound (d : Draft) : Prop where
  linked : d.Linked
  settled : d.Settled
  honest : ∀ s : Grammar.SlotId, s.index < d.grammar.slots.size →
    (d.grammar.slot s).symbol ∈ d.unskippable →
    (d.grammar.slot s).multiplicity = .once ∧ ¬ d.grammar.Nullable (d.grammar.slot s).symbol

variable {d e : Draft} {α β γ δ : Type}

theorem Linked.fits_spot (h : d.Linked) {s : SlotId} (hs : d.HasSlot s) (p : Nat) (b : Bool) :
    (d.spot s p b).Fits d.grammar := by
  have hl := h.slot s hs
  refine ⟨?_, d.cellOf s, ?_⟩
  · have hshapes := (h.choice _ hl.choice).shapes
    simpa [Frame.Shaped, spot, frame, cellOf, Function.comp_def] using hshapes
  · rw [spot, frame, itemAt?_map, hl.entry]
    rfl

theorem Linked.fits_level (h : d.Linked) {n : NodeId} (hn : d.HasNode n) :
    (d.level n).Fits d.grammar :=
  h.fits_spot (h.node n hn).slot _ _

theorem sound_start {g : Grammar} (hg : g.WellFormed) (settings : Settings) :
    (start g settings []).Sound :=
  ⟨linked_start hg settings [], settled_start g settings [], fun _ _ h => by cases h⟩

theorem Sound.placed_holder (h : d.Sound) {n m : NodeId} (hp : (d.node n).placed = true)
    (hm : d.holder? n = some m) : (d.node m).placed = true :=
  h.settled.placed_holder h.linked hp hm (by simp)

theorem Sound.placed_of_mem_lineage (h : d.Sound) {n m : NodeId} (hn : d.HasNode n)
    (hp : (d.node n).placed = true) (hm : m ∈ d.lineage n) : (d.node m).placed = true :=
  h.settled.placed_of_mem_lineage h.linked hn hp (by simp) m hm

/-- The draft has grown and is sound. -/
structure Keeps (d e : Draft) : Prop where
  grows : Grows d e
  sound : e.Sound

theorem Keeps.refl (h : d.Sound) : Keeps d d := ⟨.refl d, h⟩

theorem Keeps.trans {f : Draft} (h : Keeps d e) (h' : Keeps e f) : Keeps d f :=
  ⟨h.grows.trans h'.grows, h'.sound⟩

theorem Sound.keeps (h : d.Sound) (hg : Grows d e) (he : e.Linked)
    (hgap : ∀ n, ¬ d.HasNode n → e.HasNode n →
      (e.node n).position ≤ (e.slot (e.node n).slot).content.length)
    (hu : e.unskippable = d.unskippable) : Keeps d e :=
  ⟨hg, he, h.settled.of_grows h.linked hg he hgap, by rw [hg.grammar, hu]; exact h.honest⟩

section Keeps

variable (h : Keeps d e) (hd : d.Sound)
include h hd

theorem Keeps.spot {s : SlotId} (hs : d.HasSlot s) (p : Nat) (b : Bool) :
    e.spot s p b = d.spot s p b :=
  h.grows.spot hd.linked hs p b

theorem Keeps.level {n : NodeId} (hn : d.HasNode n) : e.level n = d.level n :=
  h.grows.level hd.linked hn

theorem Keeps.trail {n : NodeId} (hn : d.HasNode n) : e.trail n = d.trail n :=
  h.grows.trail hd.linked h.sound.linked hn

theorem Keeps.above {c : ChoiceId} (hc : d.HasChoice c) : e.above c = d.above c :=
  h.grows.above hd.linked h.sound.linked hc

end Keeps

/-- A sound draft over a given grammar, searched to a given depth. -/
structure Over (g : Grammar) (limit : Nat) (d : Draft) : Prop where
  sound : d.Sound
  grammar : d.grammar = g
  limit : d.settings.recursionLimit = limit

theorem Sound.over (h : d.Sound) : Over d.grammar d.settings.recursionLimit d := ⟨h, rfl, rfl⟩

theorem Over.keeps {g : Grammar} {limit : Nat} (h : Over g limit d) (hk : Keeps d e) :
    Over g limit e :=
  ⟨hk.sound, hk.grows.grammar.trans h.grammar, by rw [hk.grows.settings, h.limit]⟩

theorem Over.wellFormed {g : Grammar} {limit : Nat} (h : Over g limit d) : g.WellFormed :=
  h.grammar ▸ h.sound.linked.grammar

/-- What a draft remembers as unskippable may be replaced by anything that is. -/
theorem Sound.remember (h : d.Sound) {u : List Grammar.SymbolId}
    (hu : ∀ s : Grammar.SlotId, s.index < d.grammar.slots.size →
      (d.grammar.slot s).symbol ∈ u → (d.grammar.slot s).multiplicity = .once
        ∧ ¬ d.grammar.Nullable (d.grammar.slot s).symbol) :
    Keeps d { d with unskippable := u } := by
  have hs : SameLinks d { d with unskippable := u } :=
    ⟨rfl, rfl, rfl, rfl, rfl, fun _ => ⟨_, rfl⟩, fun _ => ⟨_, rfl⟩, fun _ => ⟨rfl, rfl⟩,
      fun _ => Or.inl rfl⟩
  refine ⟨?_, hs.linked h.linked, ?_, hu⟩
  · exact ⟨rfl, rfl, Nat.le_refl _, Nat.le_refl _, Nat.le_refl _, fun _ _ => rfl,
      fun _ _ => ⟨_, rfl⟩, fun _ _ => ⟨_, rfl, Or.inl rfl⟩, fun _ => rfl, fun _ => rfl, fun _ => rfl⟩
  · exact ⟨h.settled.content, h.settled.position, h.settled.once, h.settled.chosen, h.settled.inner,
      h.settled.next, h.settled.gap⟩

/-! ### Gaps -/

theorem unskippable_withGap (d : Draft) (s : SlotId) (p : Nat) :
    (d.withGap s p).unskippable = d.unskippable := by
  obtain ⟨base, body, heq, -, hor⟩ := d.withGap_cases s p
  rw [heq]
  rcases hor with ⟨-, rfl, -⟩ | ⟨r, -, rfl, -⟩ | ⟨b, -, rfl, -⟩ <;> rfl

/-- The node is a gap at the position of the slot. -/
structure GapAt (d : Draft) (s : SlotId) (p : Nat) (n : NodeId) : Prop where
  has : d.HasNode n
  slot : (d.node n).slot = s
  position : (d.node n).position = p
  placed : (d.node n).placed = false

theorem GapAt.level {s : SlotId} {p : Nat} {n : NodeId} (h : GapAt d s p n) :
    d.level n = d.spot s p false := by
  rw [Draft.level, h.slot, h.position, h.placed]

theorem GapAt.choiceAround {s : SlotId} {p : Nat} {n : NodeId} (h : GapAt d s p n) :
    d.choiceAround n = (d.slot s).choice := by
  rw [Draft.choiceAround, h.slot]

/-- A slot that is not full gives a gap at any position it can give. -/
theorem Sound.ensures_gap (h : d.Sound) {s : SlotId} (hs : d.HasSlot s) {p : Nat}
    (hf : d.isFull s = false) (hp : p ≤ (d.slot s).content.length) :
    Ensures (gap s p) d (fun n e => Keeps d e ∧ GapAt e s p n) fun _ _ => False := by
  unfold gap
  simp only [ensures_bind, ensures_get, hf, Bool.false_eq_true, if_false]
  rcases hr : d.reusableGap? s p with _ | n
  · simp only [ensures_bind, ensures_set, ensures_pure]
    have hg := grows_withGap d s p
    obtain ⟨body, hnew, -⟩ := d.node_withGap_new s p
    refine ⟨h.keeps hg (linked_withGap h.linked hs p) (fun n hdn hen => ?_)
      (unskippable_withGap d s p), (d.hasNode_withGap s p).2 (Or.inr rfl), ?_, ?_, ?_⟩
    · obtain rfl := ((d.hasNode_withGap s p).1 hen).resolve_left hdn
      rw [hnew, hg.content]
      exact hp
    all_goals rw [hnew]
  · simp only [ensures_pure]
    simp only [reusableGap?, Option.filter_eq_some_iff, Bool.and_eq_true, Bool.not_eq_true',
      beq_iff_eq, isPlaced] at hr
    obtain ⟨hgap, hpl, hpos⟩ := hr
    obtain ⟨hn, hslot⟩ := h.linked.gap s n hgap
    exact ⟨.refl h, hn, hslot, hpos, hpl⟩

/-! ### Choices -/

theorem reveal_of_leaf {n : NodeId} (h : d.isLeaf n = true) : reveal n d = .ok none d := by
  unfold isLeaf at h
  split at h
  · rename_i t ht
    simp [reveal, bind, EStateM.bind, Edit.run_get, ht, pure, EStateM.pure]
  all_goals cases h

theorem reveal_of_inner? {n : NodeId} {c : ChoiceId} (h : d.inner? n = some c) :
    reveal n d = .ok (some c) d := by
  unfold inner? at h
  split at h
  · cases h
  all_goals
    rename_i hb
    cases h
    simp [reveal, bind, EStateM.bind, Edit.run_get, hb, pure, EStateM.pure]

/-- The choice of a gap is what a search finds inside. -/
theorem Sound.inside_eq (h : d.Sound) {n : NodeId} (hn : d.HasNode n)
    (hp : (d.node n).placed = false) {c : ChoiceId} (hc : d.inner? n = some c) :
    (d.level n).inside d.grammar d.settings.recursionLimit = some (some (d.frame c)) := by
  have ho := h.linked.inner n c hn hc
  rw [h.settled.frame_eq_empty h.linked ho.choice (h.settled.chosen_inner hn hp hc)]
  refine Level.inside_of_opens ⟨(d.choice c).shape, ?_, ?_⟩ (h.linked.choice c ho.choice).depth_le
  · rw [h.linked.symbol_level hn]
    exact ho.shape
  · rw [h.linked.symbol_level hn, ho.depth]
    rfl

/-- An edit that grows the draft, compared with a search by trails. -/
def Finds (act : Edit α) (d : Draft) (spec : Option β) (rel : α → Draft → β → Prop) : Prop :=
  Ensures act d (fun a e => Keeps d e ∧ ∃ b, spec = some b ∧ rel a e b)
    fun r e => Keeps d e ∧ spec = none ∧ ∃ rule, r = .tooDeep rule d.settings.recursionLimit

theorem finds_pure (h : d.Sound) {a : α} {b : β} {rel : α → Draft → β → Prop} (hr : rel a d b) :
    Finds (pure a) d (some b) rel :=
  ⟨.refl h, b, rfl, hr⟩

theorem Finds.bind {act : Edit α} {spec : Option β} {rel : α → Draft → β → Prop}
    {f : α → Edit γ} {k : β → Option δ} {rel' : γ → Draft → δ → Prop} (h : Finds act d spec rel)
    (hf : ∀ a e b, Keeps d e → spec = some b → rel a e b → Finds (f a) e (k b) rel') :
    Finds (act >>= f) d (spec.bind k) rel' := by
  unfold Finds
  rw [ensures_bind]
  refine Ensures.mono h (fun a e ⟨hk, b, hb, hr⟩ => ?_) fun r e ⟨hk, hn, hr⟩ => ⟨hk, by rw [hn]; rfl, hr⟩
  refine Ensures.mono (hf a e b hk hb hr) (fun c f ⟨hk', x, hx, hr'⟩ => ?_)
    fun r f ⟨hk', hn, rule, hr'⟩ => ?_
  · exact ⟨hk.trans hk', x, by rw [hb]; exact hx, hr'⟩
  · exact ⟨hk.trans hk', by rw [hb]; exact hn, rule, by rw [hr', hk.grows.settings]⟩

/-- What is found is handed on in another form. -/
theorem Finds.map {act : Edit α} {spec : Option β} {rel : α → Draft → β → Prop} {f : α → γ}
    {rel' : γ → Draft → β → Prop} (h : Finds act d spec rel)
    (hr : ∀ a e b, Keeps d e → rel a e b → rel' (f a) e b) :
    Finds (act >>= fun a => pure (f a)) d spec rel' := by
  unfold Finds
  rw [ensures_bind]
  exact Ensures.mono h (fun a e ⟨hk, b, hb, hab⟩ => ⟨hk, b, hb, hr a e b hk hab⟩) fun _ _ h => h

theorem Finds.fmap {act : Edit α} {spec : Option β} {rel : α → Draft → β → Prop} {f : α → γ}
    {k : β → δ} {rel' : γ → Draft → δ → Prop} (h : Finds act d spec rel)
    (hr : ∀ a e b, Keeps d e → rel a e b → rel' (f a) e (k b)) :
    Finds (f <$> act) d (k <$> spec) rel' := by
  unfold Finds
  rw [ensures_map]
  exact Ensures.mono h (fun a e ⟨hk, b, hb, hab⟩ => ⟨hk, k b, by rw [hb]; rfl, hr a e b hk hab⟩)
    fun r e ⟨hk, hn, hr⟩ => ⟨hk, by rw [hn]; rfl, hr⟩

/-- An edit that cannot be refused before one that finds something. -/
theorem finds_of_ensures {act : Edit α} {good : α → Draft → Prop} {f : α → Edit γ}
    {spec : Option δ} {rel : γ → Draft → δ → Prop}
    (h : Ensures act d (fun a e => Keeps d e ∧ good a e) fun _ _ => False)
    (hf : ∀ a e, Keeps d e → good a e → Finds (f a) e spec rel) : Finds (act >>= f) d spec rel := by
  unfold Finds
  rw [ensures_bind]
  refine h.mono (fun a e ⟨hk, hg⟩ => ?_) fun _ _ h => h.elim
  refine Ensures.mono (hf a e hk hg) (fun c f ⟨hk', x, hx, hr⟩ => ⟨hk.trans hk', x, hx, hr⟩)
    fun r f ⟨hk', hn, rule, hr⟩ => ⟨hk.trans hk', hn, rule, by rw [hr, hk.grows.settings]⟩

/-- Laying out the choice of a gap finds what is inside. -/
theorem Sound.finds_reveal (h : d.Sound) {n : NodeId} (hn : d.HasNode n)
    (hp : (d.node n).placed = false) :
    Finds (reveal n) d ((d.level n).inside d.grammar d.settings.recursionLimit)
      fun c e f => e.inner? n = c ∧ c.map e.frame = f := by
  rcases hb : (d.node n).body with t | c | ⟨r, _ | c⟩
  · have hleaf : d.isLeaf n = true := by simp [isLeaf, hb]
    rw [Finds, Ensures, reveal_of_leaf hleaf]
    refine ⟨.refl h, none, Level.inside_eq_leaf.2 ((h.linked.isLeaf_level hn).trans hleaf), ?_, rfl⟩
    simp [inner?, hb]
  · have hc : d.inner? n = some c := by simp [inner?, hb]
    rw [Finds, Ensures, reveal_of_inner? hc]
    exact ⟨.refl h, _, h.inside_eq hn hp hc, hc, rfl⟩
  · unfold Finds reveal
    simp only [ensures_bind, ensures_get, hb]
    split
    · rename_i hdeep
      simp only [ensures_throw]
      refine ⟨.refl h, ?_, _, rfl⟩
      have hkind := h.linked.kind_eq_rule hn hb
      unfold Level.inside
      rw [h.linked.symbol_level hn, show (d.grammar.symbol (d.node n).symbol).kind = .rule r from hkind]
      exact if_pos hdeep
    · rename_i hdeep
      simp only [ensures_bind, ensures_set, ensures_pure]
      have hg : Grows d (d.withExpansion n r ((d.choice (d.choiceAround n)).depth + 1)) :=
        grows_withExpansion hb
      have hk : Keeps d (d.withExpansion n r ((d.choice (d.choiceAround n)).depth + 1)) :=
        h.keeps hg (linked_withExpansion h.linked hn hb rfl (Nat.le_of_not_lt hdeep))
          (fun m hdm hem => absurd (hasNode_withExpansion.1 hem) hdm) rfl
      have hc : (d.withExpansion n r ((d.choice (d.choiceAround n)).depth + 1)).inner? n =
          some ⟨d.choices.size⟩ := inner?_withExpansion hn
      refine ⟨hk, _, ?_, hc, rfl⟩
      have := hk.sound.inside_eq (hg.hasNode hn) (by rw [hg.placed, hp]) hc
      rwa [hk.level h hn] at this
  · have hc : d.inner? n = some c := by simp [inner?, hb]
    rw [Finds, Ensures, reveal_of_inner? hc]
    exact ⟨.refl h, _, h.inside_eq hn hp hc, hc, rfl⟩

end Cloze.Draft
