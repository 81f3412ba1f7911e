import Cloze.Proofs.Appending
import Cloze.Proofs.Headroom

/-!
# Drafts spell the language

A run that only appends starts from an empty draft, asks for the offers behind the leaf filled last
and fills one of them, over and over; it spells the texts of the leaves it fills. The words left to
say go down by one text with every step (`Over.step`), and every word left to say can be begun
(`Over.exists_step`). So the words that runs spell are the beginnings of the sentences of the start
rule (`spells_iff_begins_sentence`): soundness needs that every rule has a sentence, completeness
that no rule is left-recursive.
-/

namespace Cloze.Grammar

variable {g : Grammar}

/-- Every rule has a sentence. -/
def Productive (g : Grammar) : Prop :=
  ∀ r : RuleId, r.index < g.rules.size → ∃ w, g.Sentence r w

theorem exists_yields_branch : ∀ {b : List SlotId},
    (∀ s ∈ b, ∃ w, g.Yields (.symbol (g.slot s).symbol) w) → ∃ w, g.Yields (.branch b) w
  | [], _ => ⟨[], .nil⟩
  | s :: b, h => by
    obtain ⟨⟨u, hu⟩, hb⟩ := List.forall_mem_cons.1 h
    obtain ⟨v, hv⟩ := exists_yields_branch hb
    exact ⟨_, .cons (yields_slot hu (g.repeats_nil s)) hv⟩

/-- A bracket is numbered before the choice it stands in, so the induction is on that number. -/
theorem Productive.exists_yields (h : g.Productive) (hg : g.WellFormed) : ∀ {c : ChoiceId}
    {b : List SlotId} {s : SlotId}, b ∈ g.branchesOf c → s ∈ b →
      ∃ w, g.Yields (.symbol (g.slot s).symbol) w := by
  intro c
  induction hi : c.index using Nat.strongRecOn generalizing c with
  | ind i ih =>
    intro b s hb hs
    have hbracket : ∀ inner, (g.symbol (g.slot s).symbol).kind.bracketed? = some inner →
        ∃ w, g.Yields (.symbol (g.slot s).symbol) w := by
      intro inner hin
      obtain ⟨b', hb'⟩ := List.exists_mem_of_ne_nil _
        (hg.branches_ne inner (hg.bracketed _ inner hin))
      have hlt := hg.nested c b hb s hs inner hin
      obtain ⟨w, hw⟩ := exists_yields_branch fun s' hs' => ih inner.index (hi ▸ hlt) rfl hb' hs'
      exact ⟨w, .inner (of_bracketed hin g).2.2 hb' hw⟩
    rcases hk : (g.symbol (g.slot s).symbol).kind with t | t | r | inner | inner
    · exact ⟨[t], .literal hk⟩
    · exact ⟨[t], .category hk⟩
    · obtain ⟨w, b', hb', hw⟩ := h r (hg.rule _ r hk)
      exact ⟨w, .inner (by rw [hk]; rfl) hb' hw⟩
    · exact hbracket inner (by rw [hk]; rfl)
    · exact hbracket inner (by rw [hk]; rfl)

end Cloze.Grammar

namespace Cloze.Draft

open Edit

variable {d e f : Draft} {n : NodeId} {g : Grammar} {limit : Nat} {cursor : Option NodeId}

theorem exists_rest (hg : g.WellFormed) (hp : g.Productive) : ∀ {t : Trail},
    (∀ l ∈ t, l.Fits g) → ∃ v, Rest g t v
  | [], _ => ⟨[], rfl⟩
  | l :: above, h => by
    obtain ⟨hl, hrest⟩ := List.forall_mem_cons.1 h
    obtain ⟨v', hv'⟩ := exists_rest hg hp hrest
    obtain ⟨v, hv⟩ : ∃ v, g.Yields (.branch l.laterShapes) v := by
      refine Grammar.exists_yields_branch fun s hs => ?_
      obtain ⟨m, hm, rfl⟩ := List.mem_map.1 hs
      obtain ⟨b, hb, hmem⟩ := mem_of_itemAt? (Level.fits_of_mem_later hl hm).1.entry
      exact hp.exists_yields hg hb hmem
    exact ⟨_, [], v, v', rfl, g.repeats_nil _, hv, hv'⟩

/-! ### The front of a draft -/

/-- Nothing is placed behind the cursor, or nothing at all if there is none. -/
def Front (g : Grammar) (d : Draft) : Option NodeId → Prop
  | none => d.root.chosen = none
  | some n => (d.node n).placed = true ∧ d.isLeaf n = true ∧ AtEnd g (d.trail n)

/-- The leaves that may come next at the front. -/
def MayCome (g : Grammar) (d : Draft) : Option NodeId → Trail → Prop
  | none, u => (Frame.empty g (g.rule g.start).body 0).Opening g u
  | some n, u => Next g (d.trail n) u

/-- The words left to say at the front. -/
def Remains (g : Grammar) (d : Draft) : Option NodeId → List String → Prop
  | none, w => g.Sentence g.start w
  | some n, w => Rest g (d.trail n) w

/-- No level above the cursor is deeper. -/
def Within (depth : Nat) (d : Draft) : Option NodeId → Prop
  | none => True
  | some n => ∀ l ∈ d.trail n, l.frame.depth ≤ depth

theorem remains_cons_iff (h : Front g d cursor) {x : String} {w : List String} :
    Remains g d cursor (x :: w) ↔ ∃ u, MayCome g d cursor u ∧ leafText g u = x ∧ Rest g u w := by
  cases cursor with
  | none => exact sentence_cons_iff
  | some n => exact rest_cons_iff h.2.2

theorem Over.frame_root (h : Over g limit d) (hf : d.root.chosen = none) :
    d.frame ⟨0⟩ = Frame.empty g (g.rule g.start).body 0 := by
  have hempty := h.sound.settled.frame_eq_empty h.sound.linked h.sound.linked.root hf
  rwa [show (d.choice ⟨0⟩).shape = _ from h.sound.linked.root_shape,
    show (d.choice ⟨0⟩).depth = 0 from h.sound.linked.root_depth, h.grammar] at hempty

theorem Front.keeps (h : Front g d cursor) (hd : d.Sound) (hk : Keeps d e) :
    Front g e cursor ∧ ∀ u, MayCome g e cursor u ↔ MayCome g d cursor u := by
  cases cursor with
  | none => exact ⟨(hk.grows.chosen _).trans h, fun u => Iff.rfl⟩
  | some n =>
    have hn := hasNode_of_placed h.1
    have ht := hk.trail hd hn
    refine ⟨⟨(hk.grows.placed n).trans h.1, (hk.grows.isLeaf hn).trans h.2.1, ?_⟩, fun u => ?_⟩
    · rw [ht]
      exact h.2.2
    · rw [MayCome, MayCome, ht]

/-- The offers in an empty draft are found from the first gap of the start rule on. -/
theorem Over.finds_offers_empty (h : Over g limit d) (hf : d.root.chosen = none) :
    (∃ c, itemAt? (Frame.empty g (g.rule g.start).body 0).rows 0 0 = some c) ∧
      Finds (offers none) d
        (fromGap g limit ((Frame.empty g (g.rule g.start).body 0).gap 0 0) []) Shows := by
  have hroot := h.sound.linked.root
  have hframe := h.frame_root hf
  obtain ⟨hs, hsc⟩ := h.sound.linked.hasSlot_firstSlot hroot
  have hitem := h.sound.linked.itemAt?_firstSlot hroot
  have hcell : itemAt? (d.frame ⟨0⟩).rows 0 0 = some (d.cellOf (d.firstSlot ⟨0⟩)) := by
    rw [frame, itemAt?_map, hitem]
    rfl
  have hspot := h.sound.linked.spot_of_itemAt? hitem
  have hcor := Corner.gap (h.sound.settled.content_eq_nil h.sound.linked hs (by rw [hsc]; exact hf))
  rw [hspot, show d.above ⟨0⟩ = [] by
    simp only [above, show (d.choice ⟨0⟩).holder = none from h.sound.linked.root_holder]] at hcor
  rw [hframe] at hcell hcor
  have hfits := Frame.fits_gap (Frame.shaped_empty g (g.rule g.start).body 0) hcell
  have hfinds := h.finds_offers_none hcor
  rw [leftEnd_bind_ascend h.wellFormed hfits rfl] at hfinds
  exact ⟨⟨_, hcell⟩, hfinds⟩

/-- The offers at the front are the leaves that may come next, and if the limit leaves room they
are found. -/
theorem Over.finds_front (h : Over g limit d) (hf : Front g d cursor) :
    ∃ spec, Finds (offers cursor) d spec Shows ∧
      (∀ ts, spec = some ts → ∀ u, u ∈ ts ↔ MayCome g d cursor u) ∧
      ∀ depth, (∀ r, ¬ g.LeftRecursive r) → Within depth d cursor →
        depth + (1 + g.rules.size) ≤ limit → ∃ ts, spec = some ts := by
  have hg := h.wellFormed
  cases cursor with
  | none =>
    obtain ⟨⟨c, hcell⟩, hfinds⟩ := h.finds_offers_empty hf
    have hshaped := Frame.shaped_empty g (g.rule g.start).body 0
    refine ⟨_, hfinds, fun ts hts u => mem_fromGap_first_iff hg hshaped hcell
      (fun m hm => Frame.count_empty hm) hts u, fun depth hleft _ hle => ?_⟩
    refine exists_fromGap hg hleft fun m hm => ?_
    rw [List.mem_singleton.1 hm, Level.Roomy]
    simp only [Frame.gap, Frame.empty]
    omega
  | some n =>
    refine ⟨_, h.finds_offers hf.1, fun ts hts u => ⟨?_, ?_⟩, fun depth hleft hw hle => ?_⟩
    · exact next_of_mem_prospect hg hf.2.2.toStanding hts u
    · exact mem_prospect_of_next hg hf.2.2 hts
    · refine exists_prospect hg hleft hf.2.2.taken fun l hl => ?_
      have := hw l hl
      rw [Level.Roomy]
      omega

/-- What may come next at the front is a leaf that may be placed behind everything. -/
theorem Over.offer_of_mayCome (h : Over g limit d) (hf : Front g d cursor) (hn : d.HasNode n)
    (hm : MayCome g d cursor (d.trail n)) : d.isLeaf n = true ∧ (d.node n).placed = false
      ∧ d.checkPlace n = .ok () ∧ ∀ l ∈ d.trail n, l.Ends := by
  cases cursor with
  | none =>
    have hends := hm.ends fun m hm => Frame.count_empty hm
    obtain ⟨before, k, after, hrow, -, hd⟩ := hm
    have hplaced : ∀ l ∈ [k].head?, l.placed = false := by
      rintro l ⟨⟩
      obtain ⟨i, hi⟩ := Frame.mem_allGaps hrow
      obtain ⟨j, -, hk, -⟩ := Frame.mem_gaps (hi ▸ List.mem_append_right _ List.mem_cons_self)
      rw [hk, Frame.gap]
    rw [← h.grammar] at hd
    obtain ⟨m, hmn, htm, hpm, -, hcheck⟩ := h.sound.before_of_descends hd hn rfl hplaced
    obtain ⟨l, above, ht, hleaf, hpl⟩ := hd.head_leaf hplaced
    rw [h.sound.linked.trail_eq hn, List.cons.injEq] at ht
    refine ⟨?_, ?_, hcheck ?_, hends⟩
    · rw [← h.sound.linked.isLeaf_level hn, ht.1, hleaf]
    · rw [← ht.1] at hpl
      exact hpl
    · -- The gap stands in the root, which has taken no branch.
      have htop : d.holder? m = none := by
        rcases hh : d.holder? m with _ | j
        · rfl
        · obtain ⟨rest, hrest⟩ := d.exists_lineage_eq_cons j
          rw [trail, h.sound.linked.lineage_of_holder hmn hh, hrest] at htm
          cases htm
      have hc := h.sound.linked.root_of_holder?_eq_none hmn htop
      have hnil := h.sound.settled.content_eq_nil h.sound.linked (h.sound.linked.node m hmn).slot
        (by rw [← choiceAround, hc]; exact hf)
      have hpos := h.sound.settled.gap m hmn hpm
      rw [hnil, List.length_nil] at hpos
      have hchosen : (d.choice (d.slot (d.node m).slot).choice).chosen = none := by
        rw [← choiceAround, hc]
        exact hf
      simp [checkPlace, lineage_of_top htop, checkPlaceAlong, hpm, isFull, hnil, hpos, hchosen]
  | some c =>
    obtain ⟨hp, hl, hend⟩ := hf
    rw [MayCome, ← h.grammar] at hm
    obtain ⟨h1, h2, h3, -⟩ := h.sound.offer_of_next hp hl hn hm
    exact ⟨h1, h2, h3, hm.ends (h.grammar ▸ hend)⟩

theorem Over.caption_eq (h : Over g limit d) (hn : d.HasNode n) :
    d.caption n = leafText g (d.trail n) := by
  rw [h.sound.linked.trail_eq hn, leafText, caption, h.grammar, ← h.sound.linked.symbol_level hn,
    h.grammar]

/-! ### Steps -/

/-- A step to the next leaf leaves the words that go on behind its text. -/
theorem Over.step (h : Over g limit d) (hf : Front g d cursor) {found : List NodeId}
    (ho : offers cursor d = .ok found e) (hn : n ∈ found) {value : Option String}
    (hfill : fillWith n value e = .ok () f) : Over g limit f ∧ Front g f (some n) ∧
      ∀ v, Remains g f (some n) v → Remains g d cursor (e.caption n :: v) := by
  obtain ⟨spec, hfinds, hmem, -⟩ := h.finds_front hf
  rw [Finds, Ensures, ho] at hfinds
  obtain ⟨hk, ts, hts, hhas, hmap⟩ := hfinds
  have he := h.keeps hk
  have hen := hhas n hn
  obtain ⟨hfe, hcome⟩ := hf.keeps h.sound hk
  have hm : MayCome g d cursor (e.trail n) := (hmem ts hts _).1 (hmap ▸ List.mem_map_of_mem hn)
  obtain ⟨hleaf, hgap, -, hends⟩ := he.offer_of_mayCome hfe hen ((hcome _).2 hm)
  have hfills : Fills e n f := by
    rcases (ensures_fillWith n value e).of_ok hfill with hfills | ⟨-, hp⟩
    · exact hfills
    · rw [isPlaced, hgap] at hp
      cases hp
  obtain ⟨hfs, hsl⟩ := hfills.sound he.sound hen
  have hfg : f.grammar = g := hsl.grammar.trans he.grammar
  refine ⟨⟨hfs, hfg, by rw [hsl.settings, he.limit]⟩, ⟨(hfills.isPlaced he.sound hen).1,
    (hsl.isLeaf n).trans hleaf, hfg ▸ hfills.atEnd he.sound hen hends⟩, fun v hv => ?_⟩
  rw [remains_cons_iff hf]
  exact ⟨e.trail n, hm, (he.caption_eq hen).symm, (hsl.rest he.sound.linked hen).1 hv⟩

theorem Sound.exists_fill (h : d.Sound) (hn : d.HasNode n) (hl : d.isLeaf n = true)
    (hp : (d.node n).placed = false) (hc : d.checkPlace n = .ok ()) (hr : d.role? n = none)
    (ht : (d.token? n).isSome) : ∃ e, fill n d = .ok () e := by
  obtain ⟨t, ht⟩ := Option.isSome_iff_exists.1 ht
  have hco : d.completed? n = some d := by rw [completed?, ht]
  have hsl := (h.of_places hn hl (h.places hn hl hp hc)).2
  have hon : (d.place n).onFill n = .ok (d.place n) := by
    rw [onFill, role?, hsl.symbol, show (d.symbol n).role = none from hr]
  refine ⟨d.place n, ?_⟩
  rw [fill_eq]
  simp only [hl, isPlaced, hp, hc, hco, hon, Bool.true_eq_false, Bool.false_eq_true, if_false]

/-- A leaf without a role that may be placed is filled with some value or without one. -/
theorem Sound.exists_fillWith (h : d.Sound) (hn : d.HasNode n) (hl : d.isLeaf n = true)
    (hp : (d.node n).placed = false) (hc : d.checkPlace n = .ok ()) (hr : d.role? n = none) :
    ∃ value e, fillWith n value d = .ok () e := by
  rcases ht : d.token? n with _ | t
  · have hlit : d.literal? n = none := by
      rcases hlit : d.literal? n with _ | t
      · rfl
      · simp [token?, hlit] at ht
    have hct : d.checkToken n "" = .ok () := by simp [checkToken, hl, hlit, ht, hr]
    have hw := retouches_writeToken d n ""
    obtain ⟨e, he⟩ := (h.of_retouches hw).exists_fill (hw.links.hasNode.2 hn)
      ((hw.links.isLeaf n).trans hl) ((hw.placed n).trans hp) ((hw.checkPlace n).trans hc)
      (by rw [role?, hw.links.symbol]; exact hr) (by rw [token?_writeToken hn hct]; rfl)
    exact ⟨some "", e, by rw [fillWith_some_eq, hct, hc]; exact he⟩
  · obtain ⟨e, he⟩ := h.exists_fill hn hl hp hc hr (by rw [ht]; rfl)
    exact ⟨none, e, he⟩

/-- Every word left to say can be begun, if the limit leaves room. -/
theorem Over.exists_step (h : Over g limit d) (hf : Front g d cursor)
    (hroles : ∀ x, (g.symbol x).role = none) (hleft : ∀ r, ¬ g.LeftRecursive r) {depth : Nat}
    (hw : Within depth d cursor) (hle : depth + (1 + g.rules.size) ≤ limit) {x : String}
    {v : List String} (hr : Remains g d cursor (x :: v)) :
    ∃ found e n value f, offers cursor d = .ok found e ∧ n ∈ found ∧
      fillWith n value e = .ok () f ∧ e.caption n = x ∧ Remains g f (some n) v ∧
      Within (depth + (1 + g.rules.size)) f (some n) := by
  have hg := h.wellFormed
  obtain ⟨spec, hfinds, hmem, hroom⟩ := h.finds_front hf
  obtain ⟨ts, rfl⟩ := hroom depth hleft hw hle
  obtain ⟨u, hu, htext, hrest⟩ := (remains_cons_iff hf).1 hr
  rcases ho : offers cursor d with ⟨found, e⟩ | ⟨r, e⟩
  · rw [Finds, Ensures, ho] at hfinds
    obtain ⟨hk, _, ⟨⟩, hhas, hmap⟩ := hfinds
    obtain ⟨n, hn, rfl⟩ : ∃ n ∈ found, e.trail n = u := by
      rw [← List.mem_map, hmap]
      exact (hmem _ rfl u).2 hu
    have he := h.keeps hk
    have hen := hhas n hn
    obtain ⟨hfe, hcome⟩ := hf.keeps h.sound hk
    obtain ⟨hleaf, hgap, hcheck, -⟩ := he.offer_of_mayCome hfe hen ((hcome _).2 hu)
    obtain ⟨value, f, hfill⟩ := he.sound.exists_fillWith hen hleaf hgap hcheck
      (by rw [role?, symbol, he.grammar]; exact hroles _)
    have hsl : SameLinks e f := by
      rcases (ensures_fillWith n value e).of_ok hfill with hfills | ⟨hre, -⟩
      · exact (hfills.sound he.sound hen).2
      · exact hre.links
    refine ⟨found, e, n, value, f, rfl, hn, hfill, (he.caption_eq hen).trans htext,
      (hsl.rest he.sound.linked hen).2 hrest, hsl.depth_le he.sound.linked hen ?_⟩
    cases cursor with
    | none =>
      refine fun l hl => Nat.le_trans (Frame.Opening.depth_le hg hleft hu l hl) ?_
      exact Nat.add_le_add_right (Nat.zero_le depth) _
    | some c => exact Next.depth_le hg hleft hu hw
  · rw [Finds, Ensures, ho] at hfinds
    cases hfinds.2.1

/-! ### Runs -/

/-- The drafts that a run from an empty draft leads to, with the leaf it filled last and the texts
it has spelt. -/
inductive Spells (empty : Draft) : Draft → Option NodeId → List String → Prop
  | start : Spells empty empty none []
  | step {d e f : Draft} {cursor : Option NodeId} {w : List String} {found : List NodeId}
      {n : NodeId} {value : Option String} (h : Spells empty d cursor w)
      (ho : offers cursor d = .ok found e) (hn : n ∈ found)
      (hf : fillWith n value e = .ok () f) : Spells empty f (some n) (w ++ [e.caption n])

/-- Whatever is left to say behind a run goes on from what the run has spelt. -/
theorem Spells.front {empty : Draft} {w : List String} (h : Spells empty d cursor w)
    (hover : Over g limit empty) (hfront : Front g empty none) : Over g limit d ∧
      Front g d cursor ∧ ∀ v, Remains g d cursor v → g.Sentence g.start (w ++ v) := by
  induction h with
  | start => exact ⟨hover, hfront, fun v hv => hv⟩
  | step _ ho hn hf ih =>
    obtain ⟨h1, h2, h3⟩ := ih
    obtain ⟨h4, h5, h6⟩ := h1.step h2 ho hn hf
    refine ⟨h4, h5, fun v hv => ?_⟩
    rw [List.append_assoc]
    exact h3 _ (h6 v hv)

theorem Front.exists_remains (h : Front g d cursor) (hg : g.WellFormed) (hp : g.Productive) :
    ∃ v, Remains g d cursor v := by
  cases cursor with
  | none => exact hp g.start hg.start
  | some n => exact exists_rest hg hp fun l hl => (h.2.2.taken l hl).fits

/-- A run goes on to spell every word left to say, if the limit leaves room. -/
theorem Spells.exists_append {empty : Draft} (hroles : ∀ x, (g.symbol x).role = none)
    (hleft : ∀ r, ¬ g.LeftRecursive r) : ∀ {w w' v : List String} {d : Draft}
      {cursor : Option NodeId} {depth : Nat}, Spells empty d cursor w → Over g limit d →
      Front g d cursor → Within depth d cursor → depth + w'.length * (1 + g.rules.size) ≤ limit →
      Remains g d cursor (w' ++ v) → ∃ e cursor', Spells empty e cursor' (w ++ w')
  | w, [], v, d, cursor, _, h, _, _, _, _, _ => ⟨d, cursor, by rwa [List.append_nil]⟩
  | w, x :: w', v, d, cursor, depth, h, hover, hfront, hw, hle, hr => by
    rw [List.length_cons, Nat.succ_mul] at hle
    obtain ⟨found, e, n, value, f, ho, hn, hfill, rfl, hrest, hwithin⟩ :=
      hover.exists_step hfront hroles hleft hw (by omega) hr
    obtain ⟨hover', hfront', -⟩ := hover.step hfront ho hn hfill
    obtain ⟨e', cursor', h'⟩ := (h.step ho hn hfill).exists_append hroles hleft hover' hfront'
      hwithin (by omega) hrest
    exact ⟨e', cursor', by rwa [List.append_assoc] at h'⟩

/-- Runs that only append spell exactly the beginnings of sentences. -/
theorem spells_iff_begins_sentence {definition : Grammar.Definition}
    (hg : definition.build = .ok g) (hroles : ∀ x, (g.symbol x).role = none)
    (hp : g.Productive) (hleft : ∀ r, ¬ g.LeftRecursive r) (w : List String) :
    (∀ settings shared, Reached g shared → ∀ d cursor,
      Spells (Draft.start g settings shared.unskippable) d cursor w →
        ∃ v, g.Sentence g.start (w ++ v)) ∧
    ((∃ v, g.Sentence g.start (w ++ v)) → ∃ limit, ∀ settings : Settings,
      limit ≤ settings.recursionLimit → ∀ shared, Reached g shared →
        ∃ d cursor, Spells (Draft.start g settings shared.unskippable) d cursor w) := by
  have hwf := Grammar.Definition.wellFormed_build hg
  have hfresh : ∀ settings shared, Reached g shared →
      Over g settings.recursionLimit (Draft.start g settings shared.unskippable) :=
    fun settings shared h => (Reached.share (.start settings) h).over hwf
  constructor
  · intro settings shared hs d cursor h
    obtain ⟨-, hfront, hremains⟩ := h.front (hfresh settings shared hs) rfl
    obtain ⟨v, hv⟩ := hfront.exists_remains hwf hp
    exact ⟨v, hremains v hv⟩
  · rintro ⟨v, hv⟩
    refine ⟨w.length * (1 + g.rules.size), fun settings hle shared hs => ?_⟩
    have hle' : 0 + w.length * (1 + g.rules.size) ≤ settings.recursionLimit := by omega
    exact Spells.start.exists_append hroles hleft (hfresh settings shared hs) rfl trivial hle' hv

/-! ### Lists -/

theorem role_lists (x : Grammar.SymbolId) : (listGrammar.symbol x).role = none := by
  rw [Grammar.symbol, Array.getD_eq_getD_getElem?]
  rcases hx : listGrammar.symbols[x.index]? with _ | s
  · rfl
  · exact listTables.roles s (Array.mem_of_getElem? hx)

theorem yields_name : listGrammar.Yields (.branch [⟨7⟩]) ["name"] :=
  .cons (.once (listTables.once _ (by simp)) (.category listTables.kind_name)) .nil

theorem yields_list {w : List String}
    (h : listGrammar.Yields (.symbol (listGrammar.slot ⟨5⟩).symbol) w) :
    listGrammar.Sentence ⟨0⟩ (["("] ++ (w ++ ([")"] ++ []))) := by
  have hm := listTables.once
  refine ⟨[⟨0⟩, ⟨5⟩, ⟨6⟩], by simp [listTables.list], ?_⟩
  exact .cons (.once (hm _ (by simp)) (.literal listTables.kind_opening))
    (.cons (.once (hm _ (by simp)) h)
      (.cons (.once (hm _ (by simp)) (.literal listTables.kind_closing)) .nil))

theorem productive_lists : listGrammar.Productive := by
  rintro ⟨i⟩ hr
  rw [listTables.size] at hr
  obtain rfl | rfl : i = 0 ∨ i = 1 := by
    simp only at hr
    omega
  · exact ⟨_, yields_list (.omitted (by simp [Grammar.Symbol.isOption, listTables.kind_items]))⟩
  · exact ⟨_, [⟨7⟩], by simp [listTables.item], yields_name⟩

theorem not_leftReaches_list (r : Grammar.RuleId) : ¬ listGrammar.LeftReaches ⟨0⟩ r := by
  intro h
  have hm := listTables.once ⟨0⟩ (by simp)
  have hk : (listGrammar.symbol (listGrammar.slot ⟨0⟩).symbol).isNode = false := by
    rw [Grammar.Symbol.isNode, listTables.kind_opening]
  obtain ⟨before, s, after, hmem, hs, hnode, -⟩ := h.exists_slot
  rw [listTables.list, List.mem_singleton] at hmem
  rcases before with _ | ⟨t, before⟩
  · cases hmem
    rw [hk] at hnode
    cases hnode
  · obtain ⟨rfl, -⟩ := List.cons.inj hmem
    rcases hs _ List.mem_cons_self with hstar | hnull
    · rw [hm] at hstar
      cases hstar
    · rw [hnull.isNode] at hk
      cases hk

theorem leftReaches_item {r : Grammar.RuleId} (h : listGrammar.LeftReaches ⟨1⟩ r) : r = ⟨0⟩ := by
  have hk : (listGrammar.symbol (listGrammar.slot ⟨7⟩).symbol).isNode = false := by
    rw [Grammar.Symbol.isNode, listTables.kind_name]
  have hk' := listTables.kind_nested
  obtain ⟨before, s, after, hmem, -, hnode, href⟩ := h.exists_slot
  rw [listTables.item, List.mem_pair, List.append_eq_singleton_iff, List.append_eq_singleton_iff]
    at hmem
  obtain (⟨-, ⟨⟩⟩ | ⟨-, ⟨⟩⟩) | (⟨-, ⟨⟩⟩ | ⟨-, ⟨⟩⟩) := hmem
  · rw [hk] at hnode
    cases hnode
  · have := href (by rw [Grammar.Symbol.isReference, hk'])
    rw [hk'] at this
    cases this
    rfl

theorem not_leftRecursive_lists (r : Grammar.RuleId) : ¬ listGrammar.LeftRecursive r := by
  intro h
  obtain ⟨a, -, ha⟩ := Relation.TransGen.tail'_iff.1 h
  obtain ⟨b, hb, hbr⟩ := Relation.TransGen.head'_iff.1 h
  have hlt := ha.lt (Grammar.Definition.wellFormed_build build_lists)
  rw [listTables.size] at hlt
  obtain ⟨i⟩ := r
  obtain rfl | rfl : i = 0 ∨ i = 1 := by
    simp only at hlt
    omega
  · exact not_leftReaches_list b hb
  · obtain rfl := leftReaches_item hb
    rcases Relation.ReflTransGen.cases_head hbr with heq | ⟨c, hc, -⟩
    · cases heq
    · exact not_leftReaches_list c hc

/-- A list with a name in it is begun by a run. -/
theorem spells_list : ∃ limit, ∀ settings : Settings, limit ≤ settings.recursionLimit →
    ∀ shared, Reached listGrammar shared → ∃ d cursor,
      Spells (Draft.start listGrammar settings shared.unskippable) d cursor ["(", "name"] := by
  refine (spells_iff_begins_sentence build_lists role_lists productive_lists
    not_leftRecursive_lists ["(", "name"]).2 ⟨[")"], ?_⟩
  have hitem : listGrammar.Yields (.symbol (listGrammar.slot ⟨1⟩).symbol) ["name"] := by
    refine .inner (b := [⟨7⟩]) (by rw [listTables.kind_first]; rfl) ?_ yields_name
    simp [listTables.item]
  have hitems : listGrammar.Yields (.branch [⟨1⟩, ⟨4⟩]) ["name"] :=
    .cons (.once (listTables.once _ (by simp)) hitem) (.cons (.star listTables.star .none) .nil)
  rw [listTables.start]
  exact yields_list (.inner (by rw [listTables.kind_items]; rfl) (by simp [listTables.items]) hitems)

end Cloze.Draft
