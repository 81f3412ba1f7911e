import Cloze.Proofs.Moves
import Cloze.Proofs.Reading

/-!
# Edits that can be repeated

A slot keeps one gap only. So a second search can use what a first has made because no search asks a
slot for gaps at two positions. Which position it asks for is said by a function `ask`, and
`Covers ask d e` says that from `d` to `e` no gap at such a position was given up and no symbol
forgotten. An edit is steady if it leaves a draft that covers the one it met, and gives its value
again, changing nothing, on every draft that covers what it left. Here this is shown of the parts of
a search that go down.

The first time a symbol is found unskippable it is remembered, and from then on its nodes are not
looked into. That the answer is the same then rests on answers being right (`decides_canSkipWithin`).
-/

namespace Cloze.Draft

open Edit

variable {d e f : Draft} {α β : Type} {ask : SlotId → Nat}

/-- The draft has grown, and nothing a search might use again has been lost. -/
structure Covers (ask : SlotId → Nat) (d e : Draft) : Prop where
  keeps : Keeps d e
  memory : ∀ x ∈ d.unskippable, x ∈ e.unskippable
  gap : ∀ s n, d.reusableGap? s (ask s) = some n → e.reusableGap? s (ask s) = some n

theorem Covers.refl (h : d.Sound) : Covers ask d d := ⟨.refl h, fun _ hx => hx, fun _ _ hn => hn⟩

theorem Covers.trans (h : Covers ask d e) (h' : Covers ask e f) : Covers ask d f :=
  ⟨h.keeps.trans h'.keeps, fun x hx => h'.memory x (h.memory x hx),
    fun s n hn => h'.gap s n (h.gap s n hn)⟩

/-- From `d` the edit has come to the value `a` and the draft `e`, and it does so again from every
draft that covers `e`. -/
def Repeats (ask : SlotId → Nat) (act : Edit α) (d : Draft) (a : α) (e : Draft) : Prop :=
  Covers ask d e ∧ ∀ f, Covers ask e f → act f = .ok a f

/-- Wherever the edit succeeds, it can be repeated. -/
def Steady (ask : SlotId → Nat) (act : Edit α) (d : Draft) : Prop :=
  ∀ a e, act d = .ok a e → Repeats ask act d a e

theorem steady_pure (h : d.Sound) (a : α) : Steady ask (pure a) d := by
  intro b e hrun
  cases hrun
  exact ⟨.refl h, fun _ _ => rfl⟩

theorem Steady.bind {act : Edit α} {k : α → Edit β} (h : Steady ask act d)
    (hk : ∀ a e, act d = .ok a e → Covers ask d e → Steady ask (k a) e) :
    Steady ask (act >>= k) d := by
  intro b e hrun
  obtain ⟨a, e₁, hact, hrest⟩ := exists_of_run_bind hrun
  obtain ⟨h₁, hrep₁⟩ := h a e₁ hact
  obtain ⟨h₂, hrep₂⟩ := hk a e₁ hact h₁ b e hrest
  refine ⟨h₁.trans h₂, fun f hf => ?_⟩
  rw [run_bind_of_ok (hrep₁ f (h₂.trans hf))]
  exact hrep₂ f hf

/-- An edit that looks at the draft sees what matters of it again. -/
theorem Repeats.get {k : Draft → Edit α} {a : α} (h : Repeats ask (k d) d a e)
    (hk : ∀ f, Covers ask d f → k f f = k d f) : Repeats ask (get >>= k) d a e :=
  ⟨h.1, fun f hf => (hk f (h.1.trans hf)).trans (h.2 f hf)⟩

theorem steady_get {k : Draft → Edit α} (h : Steady ask (k d) d)
    (hk : ∀ f, Covers ask d f → k f f = k d f) : Steady ask (get >>= k) d :=
  fun a e hrun => Repeats.get (h a e hrun) hk

theorem Steady.map {act : Edit α} {k : α → β} (h : Steady ask act d) : Steady ask (k <$> act) d := by
  intro b e hrun
  have hmap : ∀ d, (k <$> act) d = (act >>= fun a => pure (k a)) d := fun _ => rfl
  rw [hmap] at hrun
  obtain ⟨a, e₁, hact, hrest⟩ := exists_of_run_bind hrun
  cases hrest
  refine ⟨(h a e hact).1, fun f hf => ?_⟩
  rw [hmap, run_bind_of_ok ((h a e hact).2 f hf)]
  rfl

/-! ### What a search sees of a draft that grew -/

section Grows

variable (h : Grows d e)
include h

theorem Grows.isFull {s : SlotId} (hs : d.HasSlot s) : e.isFull s = d.isFull s := by
  simp only [Draft.isFull, h.multiplicity hs, h.content]

theorem Grows.isFree {s : SlotId} (hs : d.HasSlot s) : e.isFree s = d.isFree s := by
  simp only [Draft.isFree, h.multiplicity hs, h.slotSymbol hs, h.grammar]

theorem Grows.levels : e.levels = d.levels := by
  simp only [Draft.levels, h.grammar, h.settings]

theorem Grows.slotsAfter (hd : d.Linked) {s : SlotId} (hs : d.HasSlot s) :
    e.slotsAfter s = d.slotsAfter s := by
  obtain ⟨-, hc, hb, hp⟩ := h.slot_eq hs
  simp only [Draft.slotsAfter, hc, hb, hp, h.choice _ (hd.slot s hs).choice]

theorem Grows.otherBranches (hd : d.Linked) {n : NodeId} (hn : d.HasNode n) :
    e.otherBranches n = d.otherBranches n := by
  obtain ⟨-, hslot, hpos, -⟩ := h.node_eq hn
  have hs := (hd.node n hn).slot
  obtain ⟨-, hc, hb, hp⟩ := h.slot_eq hs
  simp only [Draft.otherBranches, hslot, hpos, h.placed, hc, hb, hp, h.choice _ (hd.slot _ hs).choice]

end Grows

/-- A draft in which a search can ask for the positions of `ask`: in an empty slot for the first. -/
structure Asks (ask : SlotId → Nat) (d : Draft) : Prop where
  sound : d.Sound
  empty : ∀ s, (d.slot s).content = [] → ask s = 0

theorem Asks.keeps (h : Asks ask d) (hk : Keeps d e) : Asks ask e :=
  ⟨hk.sound, fun s hs => h.empty s (by rwa [hk.grows.content] at hs)⟩

/-! ### Gaps and choices -/

theorem reusableGap?_eq_some {s : SlotId} {p : Nat} {n : NodeId} :
    d.reusableGap? s p = some n ↔
      (d.slot s).gap = some n ∧ (d.node n).placed = false ∧ (d.node n).position = p := by
  simp [reusableGap?, Option.filter_eq_some_iff, isPlaced]

theorem gap_of_reusable {s : SlotId} {p : Nat} {n : NodeId} (hf : d.isFull s = false)
    (hr : d.reusableGap? s p = some n) : gap s p d = .ok n d := by
  simp only [gap, bind, EStateM.bind, run_get, hf, Bool.false_eq_true, if_false, hr]
  rfl

theorem gap_of_none {s : SlotId} {p : Nat} (hf : d.isFull s = false)
    (hr : d.reusableGap? s p = none) : gap s p d = .ok ⟨d.nodes.size⟩ (d.withGap s p) := by
  simp only [gap, bind, EStateM.bind, run_get, hf, Bool.false_eq_true, if_false, hr]
  rfl

theorem isFull_of_gap {s : SlotId} {p : Nat} {n : NodeId} (h : gap s p d = .ok n e) :
    d.isFull s = false := by
  by_contra hf
  rw [Bool.not_eq_false] at hf
  simp only [gap, bind, EStateM.bind, run_get, hf, if_true] at h
  cases h

theorem gap_slot_withGap (d : Draft) (s : SlotId) (p : Nat) {t : SlotId} (ht : d.HasSlot t) :
    ((d.withGap s p).slot t).gap = if s = t then some ⟨d.nodes.size⟩ else (d.slot t).gap := by
  obtain ⟨base, body, heq, hnodes, hor⟩ := d.withGap_cases s p
  have hbase : base.HasSlot t ∧ base.slot t = d.slot t := by
    rcases hor with ⟨-, rfl, -⟩ | ⟨r, -, rfl, -⟩ | ⟨b, -, rfl, -⟩
    · exact ⟨ht, rfl⟩
    · exact ⟨ht, rfl⟩
    · exact ⟨(grows_withChoice d _ _ _ _).hasSlot ht, slot_withChoice_of_has _ _ _ _ ht⟩
  rw [heq, slot_seat, hbase.2, hnodes]
  by_cases hst : s = t
  · simp [hst, hbase.1]
  · simp [hst]

/-- A gap at the position that is asked for leaves the gaps at such positions, and can be used
again itself. -/
theorem Sound.covers_gap (h : d.Sound) {s : SlotId} (hs : d.HasSlot s) {p : Nat} (hp : ask s = p)
    (hle : p ≤ (d.slot s).content.length) {n : NodeId} (hrun : gap s p d = .ok n e) :
    Covers ask d e ∧ e.reusableGap? s p = some n := by
  have hfull := isFull_of_gap hrun
  obtain ⟨hk, hn⟩ := Ensures.of_ok (h.ensures_gap hs hfull hle) hrun
  rcases hr : d.reusableGap? s p with _ | m
  · rw [gap_of_none hfull hr] at hrun
    cases hrun
    have hgap : ((d.withGap s p).slot s).gap = some ⟨d.nodes.size⟩ := by
      rw [gap_slot_withGap d s p hs, if_pos rfl]
    refine ⟨⟨hk, ?_, fun t m hm => ?_⟩, reusableGap?_eq_some.2 ⟨hgap, hn.placed, hn.position⟩⟩
    · rw [unskippable_withGap]
      exact fun _ hx => hx
    · obtain ⟨h1, h2, h3⟩ := reusableGap?_eq_some.1 hm
      obtain ⟨hmn, hmt⟩ := h.linked.gap t m h1
      have ht : d.HasSlot t := hmt ▸ (h.linked.node m hmn).slot
      have hst : s ≠ t := by
        rintro rfl
        rw [hp, hr] at hm
        cases hm
      rw [reusableGap?_eq_some, gap_slot_withGap d s p ht, if_neg hst, hk.grows.placed,
        (hk.grows.node_eq hmn).2.2.1]
      exact ⟨h1, h2, h3⟩
  · rw [gap_of_reusable hfull hr] at hrun
    cases hrun
    exact ⟨.refl h, hr⟩

theorem Sound.steady_gap (h : d.Sound) {s : SlotId} (hs : d.HasSlot s) {p : Nat} (hp : ask s = p)
    (hle : p ≤ (d.slot s).content.length) : Steady ask (gap s p) d := by
  intro n e hrun
  obtain ⟨hcov, hr⟩ := h.covers_gap hs hp hle hrun
  refine ⟨hcov, fun f hf => gap_of_reusable ?_ ?_⟩
  · rw [(hcov.trans hf).keeps.grows.isFull hs, isFull_of_gap hrun]
  · have hag := hf.gap s n
    rw [hp] at hag
    exact hag hr

theorem Sound.steady_gap_bind (h : d.Sound) {s : SlotId} (hs : d.HasSlot s) {p : Nat}
    (hp : ask s = p) (hle : p ≤ (d.slot s).content.length) {k : NodeId → Edit α}
    (hk : ∀ n e, Keeps d e → GapAt e s p n → Steady ask (k n) e) : Steady ask (gap s p >>= k) d :=
  (h.steady_gap hs hp hle).bind fun n e hrun hcov =>
    hk n e hcov.keeps (Ensures.of_ok (h.ensures_gap hs (isFull_of_gap hrun) hle) hrun).2

/-- A placed node that is not a leaf has its choice. -/
theorem Sound.inner?_of_placed (h : d.Sound) {n : NodeId} (hp : (d.node n).placed = true)
    (hl : d.isLeaf n = false) : ∃ c, d.inner? n = some c := by
  obtain ⟨c, hc, -⟩ := (h.settled.inner n (hasNode_of_placed hp) hl (by simp)).1 hp
  exact ⟨c, hc⟩

theorem Sound.ensures_reveal (h : d.Sound) {n : NodeId} (hn : d.HasNode n) :
    Ensures (reveal n) d (fun c e => Keeps d e ∧ e.inner? n = c) fun _ _ => True := by
  cases hp : (d.node n).placed with
  | false =>
    refine Ensures.mono (h.finds_reveal hn hp) ?_ fun _ _ _ => trivial
    rintro c e ⟨hk, f, -, hc, -⟩
    exact ⟨hk, hc⟩
  | true =>
    cases hl : d.isLeaf n with
    | true =>
      rw [Ensures, reveal_of_leaf hl]
      refine ⟨.refl h, ?_⟩
      unfold isLeaf at hl
      unfold inner?
      split at hl <;> simp_all
    | false =>
      obtain ⟨c, hc⟩ := h.inner?_of_placed hp hl
      rw [Ensures, reveal_of_inner? hc]
      exact ⟨.refl h, hc⟩

/-- Laying out a choice gives up no gap. -/
theorem reveal_run {n : NodeId} {c : Option ChoiceId} (h : reveal n d = .ok c e) :
    e.unskippable = d.unskippable ∧ (∀ s, d.HasSlot s → e.slot s = d.slot s) ∧
      (c = none → e.isLeaf n = true) := by
  rcases hb : (d.node n).body with t | c' | ⟨r, _ | c'⟩
  · have hleaf : d.isLeaf n = true := by simp [isLeaf, hb]
    rw [reveal_of_leaf hleaf] at h
    cases h
    exact ⟨rfl, fun _ _ => rfl, fun _ => hleaf⟩
  · rw [reveal_of_inner? (by simp [inner?, hb] : d.inner? n = some c')] at h
    cases h
    exact ⟨rfl, fun _ _ => rfl, fun h => by cases h⟩
  · simp only [reveal, bind, EStateM.bind, run_get, hb] at h
    split at h
    · cases h
    · cases h
      exact ⟨rfl, fun s hs => slot_withExpansion_of_has hs, fun h => by cases h⟩
  · rw [reveal_of_inner? (by simp [inner?, hb] : d.inner? n = some c')] at h
    cases h
    exact ⟨rfl, fun _ _ => rfl, fun h => by cases h⟩

theorem Sound.steady_reveal (h : d.Sound) {n : NodeId} (hn : d.HasNode n) :
    Steady ask (reveal n) d := by
  intro c e hrun
  obtain ⟨hk, hc⟩ := Ensures.of_ok (h.ensures_reveal hn) hrun
  obtain ⟨hmem, hslot, hleaf⟩ := reveal_run hrun
  refine ⟨⟨hk, by rw [hmem]; exact fun _ hx => hx, fun s m hm => ?_⟩, fun f hf => ?_⟩
  · obtain ⟨h1, h2, h3⟩ := reusableGap?_eq_some.1 hm
    obtain ⟨hmn, hms⟩ := h.linked.gap s m h1
    rw [reusableGap?_eq_some, hslot s (hms ▸ (h.linked.node m hmn).slot), hk.grows.placed,
      (hk.grows.node_eq hmn).2.2.1]
    exact ⟨h1, h2, h3⟩
  · have hne := hk.grows.hasNode hn
    cases c with
    | none => exact reveal_of_leaf (by rw [hf.keeps.grows.isLeaf hne]; exact hleaf rfl)
    | some c => exact reveal_of_inner? (hf.keeps.grows.inner? hne hc)

theorem Sound.steady_reveal_bind (h : d.Sound) {n : NodeId} (hn : d.HasNode n)
    {k : Option ChoiceId → Edit α}
    (hk : ∀ c e, Keeps d e → e.inner? n = c → Steady ask (k c) e) :
    Steady ask (reveal n >>= k) d :=
  (h.steady_reveal hn).bind fun c e hrun hcov =>
    hk c e hcov.keeps (Ensures.of_ok (h.ensures_reveal hn) hrun).2

/-- What stands first in a slot, or a first gap. -/
theorem Asks.steady_firstIn (h : Asks ask d) {s : SlotId} (hs : d.HasSlot s) :
    Steady ask (firstIn s) d := by
  refine steady_get ?_ fun f hf => by simp only [hf.keeps.grows.content]
  rcases hc : (d.slot s).content with _ | ⟨n, rest⟩
  · exact h.sound.steady_gap hs (h.empty s hc) (Nat.zero_le _)
  · exact steady_pure h.sound n

theorem Sound.ensures_firstIn_has (h : d.Sound) {s : SlotId} (hs : d.HasSlot s) :
    Ensures (firstIn s) d
      (fun n e => Keeps d e ∧ e.HasNode n ∧ (e.node n).slot = s) fun _ _ => False := by
  rcases hc : (d.slot s).content with _ | ⟨n, rest⟩
  · refine (h.ensures_firstIn hs hc).mono ?_ fun _ _ hf => hf
    rintro n e ⟨hk, hn⟩
    exact ⟨hk, hn.has, hn.slot⟩
  · refine (h.ensures_firstIn_cons hc).mono ?_ fun _ _ hf => hf
    rintro m e ⟨hk, rfl, rfl⟩
    obtain ⟨hp, hslot⟩ := (h.settled.content s m).1 (hc ▸ List.mem_cons_self)
    exact ⟨hk, hasNode_of_placed hp, hslot⟩

/-! ### What can be left out -/

/-- Slots that a search asks for a first gap if for any. -/
def Plain (ask : SlotId → Nat) (d : Draft) (slots : List SlotId) : Prop :=
  ∀ s ∈ slots, d.HasSlot s ∧ ask s = 0

theorem Plain.keeps {slots : List SlotId} (h : Plain ask d slots) (hk : Keeps d e) :
    Plain ask e slots :=
  fun s hs => ⟨hk.grows.hasSlot (h s hs).1, (h s hs).2⟩

theorem Plain.of_cons {s : SlotId} {rest : List SlotId} (h : Plain ask d (s :: rest)) :
    Plain ask d rest :=
  fun t ht => h t (List.mem_cons_of_mem _ ht)

/-- The slots under a gap are empty, so a search asks them for first gaps. -/
theorem Asks.plain_inner (h : Asks ask d) {n : NodeId} (hn : d.HasNode n)
    (hp : (d.node n).placed = false) {c : ChoiceId} (hc : d.inner? n = some c) :
    ∀ row ∈ (d.choice c).branches, Plain ask d row := by
  intro row hrow s hs
  obtain ⟨h1, h2⟩ := h.sound.linked.hasSlot_of_mem_row hrow hs
  refine ⟨h1, h.empty s (h.sound.settled.content_eq_nil h.sound.linked h1 ?_)⟩
  rw [h2, h.sound.settled.chosen_inner hn hp hc]

/-- An edit is steady at the first gaps of the slots, however the draft has grown. -/
def SteadyIn (ask : SlotId → Nat) (inside : NodeId → Edit α) (d : Draft) (slots : List SlotId) :
    Prop :=
  ∀ s ∈ slots, ∀ e n, Keeps d e → GapAt e s 0 n → Steady ask (inside n) e

theorem SteadyIn.keeps {inside : NodeId → Edit α} {slots : List SlotId}
    (h : SteadyIn ask inside d slots) (hk : Keeps d e) : SteadyIn ask inside e slots :=
  fun s hs f n hk' hn => h s hs f n (hk.trans hk') hn

theorem SteadyIn.of_cons {inside : NodeId → Edit α} {s : SlotId} {rest : List SlotId}
    (h : SteadyIn ask inside d (s :: rest)) : SteadyIn ask inside d rest :=
  fun t ht => h t (List.mem_cons_of_mem _ ht)

theorem Asks.steady_everySlot {inside : NodeId → Edit Bool} : ∀ {slots : List SlotId} {d : Draft},
    Asks ask d → Plain ask d slots → SteadyIn ask inside d slots →
    Steady ask (everySlot inside slots) d
  | [], d, h, _, _ => steady_pure h.sound true
  | s :: rest, d, h, hs, hin => by
    obtain ⟨hslot, hask⟩ := hs s List.mem_cons_self
    refine steady_get ?_ fun f hf => by
      simp only [hf.keeps.grows.content, hf.keeps.grows.isFree hslot]
    split
    · exact steady_pure h.sound false
    · split
      · exact h.steady_everySlot hs.of_cons hin.of_cons
      · refine h.sound.steady_gap_bind hslot hask (Nat.zero_le _) fun n e hk hn => ?_
        refine (hin s List.mem_cons_self e n hk hn).bind fun b f _ hf => ?_
        have hkf := hk.trans hf.keeps
        split
        · exact (h.keeps hkf).steady_everySlot (hs.of_cons.keeps hkf) (hin.of_cons.keeps hkf)
        · exact steady_pure hkf.sound false

theorem Asks.steady_someBranch {inside : NodeId → Edit Bool} :
    ∀ {rows : List (List SlotId)} {d : Draft}, Asks ask d → (∀ row ∈ rows, Plain ask d row) →
    (∀ row ∈ rows, SteadyIn ask inside d row) → Steady ask (someBranch inside rows) d
  | [], d, h, _, _ => steady_pure h.sound false
  | row :: rows, d, h, hs, hin => by
    obtain ⟨hrow, hrows⟩ := List.forall_mem_cons.1 hs
    obtain ⟨hin1, hin2⟩ := List.forall_mem_cons.1 hin
    refine (h.steady_everySlot hrow hin1).bind fun b e _ he => ?_
    split
    · exact steady_pure he.keeps.sound true
    · exact (h.keeps he.keeps).steady_someBranch (fun r hr => (hrows r hr).keeps he.keeps)
        fun r hr => (hin2 r hr).keeps he.keeps

/-- What is known at sight stays known. -/
theorem Covers.skipAtSight?_eq_none (h : Covers ask d e) (hd : d.Sound) {n : NodeId}
    (hn : d.HasNode n) (hs : e.skipAtSight? n = none) : d.skipAtSight? n = none := by
  obtain ⟨hsym, hslot, -⟩ := h.keeps.grows.node_eq hn
  have hmult := h.keeps.grows.multiplicity (hd.linked.node n hn).slot
  unfold skipAtSight? at hs ⊢
  simp only [h.keeps.grows.placed, hsym, hslot, hmult, h.keeps.grows.content, h.keeps.grows.grammar,
    h.keeps.grows.settings] at hs ⊢
  split at hs
  · cases hs
  · rename_i hp
    split at hs
    · cases hs
    · rename_i hmemo
      have hmemo' : ¬ (d.settings.memoize && d.unskippable.contains (d.node n).symbol) = true := by
        intro hyes
        rw [Bool.and_eq_true, List.contains_iff_mem] at hyes
        refine hmemo ?_
        rw [Bool.and_eq_true, List.contains_iff_mem]
        exact ⟨hyes.1, h.memory _ hyes.2⟩
      rw [if_neg hp, if_neg hmemo']
      exact hs

/-- A symbol is not remembered again where sight does not tell. -/
theorem settle_of_not_seen {n : NodeId} (hs : d.skipAtSight? n = none)
    (hm : d.settings.memoize = true → d.multiplicity (d.node n).slot ≠ .plus →
      (d.node n).symbol ∈ d.unskippable) : d.settle n = d := by
  unfold settle
  dsimp only
  split
  · rename_i hyes
    rw [Bool.and_eq_true, bne_iff_ne] at hyes
    have hmem := hm hyes.1 hyes.2
    unfold skipAtSight? at hs
    simp [hyes.1, hmem] at hs
  · rfl

theorem grows_settle (d : Draft) (n : NodeId) : Grows d (d.settle n) := by
  obtain ⟨u, hu⟩ := settle_eq d n
  rw [hu]
  exact ⟨rfl, rfl, Nat.le_refl _, Nat.le_refl _, Nat.le_refl _, fun _ _ => rfl,
    fun _ _ => ⟨_, rfl⟩, fun _ _ => ⟨_, rfl, Or.inl rfl⟩, fun _ => rfl, fun _ => rfl, fun _ => rfl⟩

/-- Remembering a symbol loses nothing. -/
theorem covers_settle {n : NodeId} (h : (d.settle n).Sound) : Covers ask d (d.settle n) := by
  refine ⟨⟨grows_settle d n, h⟩, fun x hx => ?_, fun s m hm => ?_⟩
  · unfold settle
    dsimp only
    split
    · exact List.mem_cons_of_mem _ hx
    · exact hx
  · obtain ⟨u, hu⟩ := settle_eq d n
    rw [hu]
    exact hm

theorem mem_settle {n : NodeId} (hm : d.settings.memoize = true)
    (hp : d.multiplicity (d.node n).slot ≠ .plus) : (d.node n).symbol ∈ (d.settle n).unskippable := by
  simp [settle, hm, hp]

theorem run_canSkipWithin_of_seen {bound : Nat} {n : NodeId} {b : Bool}
    (hs : d.skipAtSight? n = some b) : canSkipWithin (bound + 1) n d = .ok b d := by
  simp only [canSkipWithin, bind, EStateM.bind, run_get, hs]
  rfl

/-- What is asked of the branches of a node of which sight tells nothing. -/
def skipInside (bound : Nat) (n : NodeId) : Option ChoiceId → Edit Bool
  | none => pure false
  | some c => do
    if ← someBranch (canSkipWithin bound) ((← get).choice c).branches then
      pure true
    else
      modify (·.settle n)
      pure false

theorem run_canSkipWithin_of_not_seen {bound : Nat} {n : NodeId} (hs : d.skipAtSight? n = none) :
    canSkipWithin (bound + 1) n d = (reveal n >>= skipInside bound n) d := by
  simp only [canSkipWithin, bind, EStateM.bind, run_get, hs]
  cases reveal n d with
  | ok c e => cases c <;> rfl
  | error r e => rfl

/-- In a draft where sight does not tell, a node is looked into as it was before. -/
theorem skipInside_again {bound : Nat} {n : NodeId} {c : Option ChoiceId} {b : Bool}
    (hrun : skipInside bound n c d = .ok b e) (he : e.Sound)
    (hin : ∀ c', c = some c' →
      Steady ask (someBranch (canSkipWithin bound) (d.choice c').branches) d)
    (hc : ∀ c', c = some c' → d.HasChoice c') (hn : d.HasNode n) :
    Covers ask d e ∧ ∀ f, Covers ask e f → f.skipAtSight? n = none →
      skipInside bound n c f = .ok b f := by
  cases c with
  | none =>
    cases hrun
    exact ⟨.refl he, fun f _ _ => rfl⟩
  | some c =>
    obtain ⟨d', _, hget, hrun⟩ := exists_of_run_bind hrun
    cases hget
    obtain ⟨r, e₁, hbranch, hrest⟩ := exists_of_run_bind hrun
    obtain ⟨hcov, hagain⟩ := hin c rfl r e₁ hbranch
    have hreplay : ∀ f, Covers ask e₁ f →
        skipInside bound n (some c) f = (if r then (pure true : Edit Bool) else do
          modify (settle · n)
          pure false) f := by
      intro f hf
      refine (run_bind_of_ok (run_get f)).trans ?_
      rw [(hcov.keeps.trans hf.keeps).grows.choice c (hc c rfl)]
      exact run_bind_of_ok (hagain f hf)
    cases r with
    | true =>
      cases hrest
      refine ⟨hcov, fun f hf _ => ?_⟩
      rw [hreplay f hf]
      rfl
    | false =>
      cases hrest
      have hset : Covers ask e₁ (e₁.settle n) := covers_settle he
      refine ⟨hcov.trans hset, fun f hf hs => ?_⟩
      have hgrow := (hset.trans hf).keeps.grows
      have hn₁ := hcov.keeps.grows.hasNode hn
      have hsettle : f.settle n = f := by
        refine settle_of_not_seen hs fun hm hp => ?_
        rw [hgrow.settings] at hm
        rw [(hgrow.node_eq hn₁).2.1,
          hgrow.multiplicity (hcov.keeps.sound.linked.node n hn₁).slot] at hp
        rw [(hgrow.node_eq hn₁).1]
        exact hf.memory _ (mem_settle hm hp)
      rw [hreplay f (hset.trans hf)]
      change EStateM.Result.ok false (f.settle n) = .ok false f
      rw [hsettle]

/-- Whether a node can be skipped is the same question in a draft that has grown, and the answer
given at sight is right. -/
theorem Covers.eq_of_seen (h : Covers ask d e) (hd : d.Sound) {n : NodeId} (hn : d.HasNode n)
    {b b' : Bool} (hb : b = true ↔ (d.level n).CanSkip d.grammar)
    (hs : e.skipAtSight? n = some b') : b' = b := by
  have hb' := h.keeps.sound.over.skipAtSight?_eq_some (h.keeps.grows.hasNode hn) hs
  rw [h.keeps.level hd hn, h.keeps.grows.grammar, ← hb] at hb'
  exact Bool.eq_iff_iff.2 hb'

theorem Asks.steady_canSkipWithin : ∀ {bound : Nat} {d : Draft} {n : NodeId}, Asks ask d →
    d.HasNode n → (d.level n).frame.need d.grammar d.settings.recursionLimit ≤ bound →
    Steady ask (canSkipWithin bound n) d
  | 0, d, n, _, _, hb => by
    unfold Frame.need at hb
    omega
  | bound + 1, d, n, h, hn, hb => by
    intro b e hrun
    obtain ⟨hk, hanswer⟩ := Ensures.of_ok (h.sound.over.decides_canSkipWithin hn hb) hrun
    rcases hs : d.skipAtSight? n with _ | answer
    · rw [run_canSkipWithin_of_not_seen hs] at hrun
      obtain ⟨c, e₁, hreveal, hrest⟩ := exists_of_run_bind hrun
      have hrepeat : Repeats ask (reveal n) d c e₁ := h.sound.steady_reveal hn c e₁ hreveal
      obtain ⟨hcov₁, hagain⟩ := hrepeat
      obtain ⟨hk₁, hc⟩ := Ensures.of_ok (h.sound.ensures_reveal hn) hreveal
      have h₁ := h.keeps hk₁
      have hn₁ := hk₁.grows.hasNode hn
      have hp₁ : (e₁.node n).placed = false := by
        rw [hk₁.grows.placed]
        exact (h.sound.over.skipAtSight?_eq_none hn hs).1
      have hopens : ∀ c', c = some c' → e₁.Opens n c' := fun c' hc' =>
        h₁.sound.linked.inner n c' hn₁ (hc.trans hc')
      have hsteady : ∀ c', c = some c' →
          Steady ask (someBranch (canSkipWithin bound) (e₁.choice c').branches) e₁ := by
        rintro c' rfl
        have hinside := h₁.sound.inside_eq hn₁ hp₁ hc
        have hneed := Level.need_lt_of_inside h₁.sound.linked.grammar
          (h₁.sound.linked.fits_level hn₁) hinside
        rw [hk₁.level h.sound hn, hk₁.grows.grammar, hk₁.grows.settings] at hneed
        have hplain := h₁.plain_inner hn₁ hp₁ hc
        refine h₁.steady_someBranch hplain fun row hrow s hsr f m hkf hm => ?_
        obtain ⟨hslot, hchoice⟩ := h₁.sound.linked.hasSlot_of_mem_row hrow hsr
        refine (h₁.keeps hkf).steady_canSkipWithin hm.has ?_
        have hframe : (f.level m).frame = e₁.frame c' := by
          rw [hm.level, hkf.spot h₁.sound hslot, spot, hchoice]
        rw [hframe, hkf.grows.grammar, hkf.grows.settings, hk₁.grows.grammar, hk₁.grows.settings]
        omega
      obtain ⟨hcov₂, hagain₂⟩ := skipInside_again hrest hk.sound hsteady
        (fun c' hc' => (hopens c' hc').choice) hn₁
      refine ⟨hcov₁.trans hcov₂, fun f hf => ?_⟩
      have hcovf := (hcov₁.trans hcov₂).trans hf
      rcases hsf : f.skipAtSight? n with _ | b'
      · rw [run_canSkipWithin_of_not_seen hsf, run_bind_of_ok (hagain f (hcov₂.trans hf))]
        exact hagain₂ f hf hsf
      · rw [run_canSkipWithin_of_seen hsf, hcovf.eq_of_seen h.sound hn hanswer hsf]
    · rw [run_canSkipWithin_of_seen hs] at hrun
      cases hrun
      refine ⟨.refl h.sound, fun f hf => ?_⟩
      rcases hsf : f.skipAtSight? n with _ | b'
      · rw [hf.skipAtSight?_eq_none h.sound hn hsf] at hs
        cases hs
      · rw [run_canSkipWithin_of_seen hsf, hf.eq_of_seen h.sound hn hanswer hsf]

theorem Asks.steady_canSkip (h : Asks ask d) {n : NodeId} (hn : d.HasNode n) :
    Steady ask (canSkip n) d := by
  refine steady_get ?_ fun f hf => by rw [hf.keeps.grows.levels]
  exact h.steady_canSkipWithin hn (need_le_reach (h.sound.linked.fits_level hn))

theorem Asks.steady_canSkipSlot (h : Asks ask d) {s : SlotId} (hs : d.HasSlot s) (ha : ask s = 0) :
    Steady ask (canSkipSlot s) d := by
  refine steady_get ?_ fun f hf => by
    simp only [hf.keeps.grows.content, hf.keeps.grows.isFree hs]
  split
  · exact steady_pure h.sound false
  · split
    · exact steady_pure h.sound true
    · exact h.sound.steady_gap_bind hs ha (Nat.zero_le _) fun n e hk hn =>
        (h.keeps hk).steady_canSkip hn.has

/-! ### Going down -/

theorem Asks.steady_leftmostWithin : ∀ {bound : Nat} {d : Draft} {n : NodeId}, Asks ask d →
    d.HasNode n → Steady ask (leftmostWithin bound n) d
  | 0, d, n, h, _ => steady_pure h.sound n
  | bound + 1, d, n, h, hn => by
    refine h.sound.steady_reveal_bind hn fun c e hk hc => ?_
    have he := h.keeps hk
    cases c with
    | none => exact steady_pure hk.sound n
    | some c =>
      have hchoice := (he.sound.linked.inner n c (hk.grows.hasNode hn) hc).choice
      have hslot := (he.sound.linked.hasSlot_firstSlot hchoice).1
      refine steady_get ?_ fun f hf => by
        simp only [firstSlot, hf.keeps.grows.choice c hchoice]
      refine (he.steady_firstIn hslot).bind fun m f hrun hf => ?_
      exact (he.keeps hf.keeps).steady_leftmostWithin
        (Ensures.of_ok (he.sound.ensures_firstIn_has hslot) hrun).2.1

theorem Asks.steady_leftmost (h : Asks ask d) {n : NodeId} (hn : d.HasNode n) :
    Steady ask (leftmost n) d := by
  refine steady_get ?_ fun f hf => by rw [hf.keeps.grows.levels]
  exact h.steady_leftmostWithin hn

/-- The leftmost leaf stands under the node where the way down began. -/
theorem Sound.mem_lineage_leftmostWithin : ∀ {bound : Nat} {d : Draft} {n : NodeId}, d.Sound →
    d.HasNode n → Ensures (leftmostWithin bound n) d
      (fun m e => Keeps d e ∧ e.HasNode m ∧ n ∈ e.lineage m) fun _ _ => True
  | 0, d, n, h, hn => ⟨.refl h, hn, mem_lineage_self _ n⟩
  | bound + 1, d, n, h, hn => by
    unfold leftmostWithin
    rw [ensures_bind]
    refine (h.ensures_reveal hn).mono ?_ fun _ _ _ => trivial
    rintro c e ⟨hk, hc⟩
    have hne := hk.grows.hasNode hn
    cases c with
    | none => exact ⟨hk, hne, mem_lineage_self _ n⟩
    | some c =>
      have hopens := hk.sound.linked.inner n c hne hc
      obtain ⟨hslot, hchoice⟩ := hk.sound.linked.hasSlot_firstSlot hopens.choice
      simp only [ensures_bind, ensures_get]
      refine (hk.sound.ensures_firstIn_has hslot).mono ?_ fun _ _ hf => hf.elim
      rintro m f ⟨hkf, hm, hms⟩
      refine (hkf.sound.mem_lineage_leftmostWithin hm).mono ?_ fun _ _ _ => trivial
      rintro k e' ⟨hk', hke, hmem⟩
      refine ⟨(hk.trans hkf).trans hk', hke, ?_⟩
      have hholder : e'.holder? m = some n := by
        have hround : e'.choiceAround m = c := by
          rw [choiceAround, (hk'.grows.node_eq hm).2.1, hms,
            ((hkf.trans hk').grows.slot_eq hslot).2.1, hchoice]
        rw [holder?, hround, (hkf.trans hk').grows.choice c hopens.choice, hopens.holder]
      exact hk'.sound.linked.mem_lineage_holder hke hmem hholder

theorem Asks.steady_firstOfSlots {inside : NodeId → Edit (List NodeId)} :
    ∀ {slots : List SlotId} {d : Draft}, Asks ask d → Plain ask d slots →
    SteadyIn ask inside d slots → Steady ask (firstOfSlots inside slots) d
  | [], d, h, _, _ => steady_pure h.sound []
  | s :: rest, d, h, hs, hin => by
    obtain ⟨hslot, hask⟩ := hs s List.mem_cons_self
    refine steady_get ?_ fun f hf => by simp only [hf.keeps.grows.isFull hslot]
    split
    · exact steady_pure h.sound []
    · refine h.sound.steady_gap_bind hslot hask (Nat.zero_le _) fun n e hk hn => ?_
      refine (hin s List.mem_cons_self e n hk hn).bind fun found f _ hf => ?_
      have hkf := hk.trans hf.keeps
      refine ((h.keeps hkf).steady_canSkipSlot (hkf.grows.hasSlot hslot) hask).bind
        fun b e' _ he' => ?_
      have hke := hkf.trans he'.keeps
      split
      · exact ((h.keeps hke).steady_firstOfSlots (hs.of_cons.keeps hke)
          (hin.of_cons.keeps hke)).bind fun more f' _ hf' => steady_pure hf'.keeps.sound _
      · exact steady_pure hke.sound found

theorem Asks.steady_firstOfBranches {inside : NodeId → Edit (List NodeId)} :
    ∀ {rows : List (List SlotId)} {d : Draft}, Asks ask d → (∀ row ∈ rows, Plain ask d row) →
    (∀ row ∈ rows, SteadyIn ask inside d row) → Steady ask (firstOfBranches inside rows) d
  | [], d, h, _, _ => steady_pure h.sound []
  | row :: rows, d, h, hs, hin => by
    obtain ⟨hrow, hrows⟩ := List.forall_mem_cons.1 hs
    obtain ⟨hin1, hin2⟩ := List.forall_mem_cons.1 hin
    refine (h.steady_firstOfSlots hrow hin1).bind fun found e _ he => ?_
    exact ((h.keeps he.keeps).steady_firstOfBranches (fun r hr => (hrows r hr).keeps he.keeps)
      fun r hr => (hin2 r hr).keeps he.keeps).bind fun more f _ hf => steady_pure hf.keeps.sound _

theorem Asks.steady_firstLeavesWithin : ∀ {bound : Nat} {d : Draft} {n : NodeId}, Asks ask d →
    d.HasNode n → (d.node n).placed = false → Steady ask (firstLeavesWithin bound n) d
  | 0, d, n, h, _, _ => steady_pure h.sound []
  | bound + 1, d, n, h, hn, hp => by
    refine h.sound.steady_reveal_bind hn fun c e hk hc => ?_
    have he := h.keeps hk
    have hne := hk.grows.hasNode hn
    cases c with
    | none => exact steady_pure hk.sound [n]
    | some c =>
      have hchoice := (he.sound.linked.inner n c hne hc).choice
      refine steady_get ?_ fun f hf => by rw [hf.keeps.grows.choice c hchoice]
      exact he.steady_firstOfBranches (he.plain_inner hne (by rw [hk.grows.placed, hp]) hc)
        fun row _ s _ f m hkf hm => (he.keeps hkf).steady_firstLeavesWithin hm.has hm.placed

theorem Asks.steady_firstLeaves (h : Asks ask d) {n : NodeId} (hn : d.HasNode n)
    (hp : (d.node n).placed = false) : Steady ask (firstLeaves n) d := by
  refine steady_get ?_ fun f hf => by rw [hf.keeps.grows.levels]
  exact h.steady_firstLeavesWithin hn hp

theorem Asks.steady_firstLeavesOf (h : Asks ask d) {rows : List (List SlotId)}
    (hs : ∀ row ∈ rows, Plain ask d row) : Steady ask (firstLeavesOf rows) d := by
  refine steady_get ?_ fun f hf => by rw [hf.keeps.grows.levels]
  exact h.steady_firstOfBranches hs fun row _ s _ f m hkf hm =>
    (h.keeps hkf).steady_firstLeavesWithin hm.has hm.placed

end Cloze.Draft
