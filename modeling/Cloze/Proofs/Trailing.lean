import Cloze.Proofs.Indenting
import Cloze.Proofs.Retrying

/-!
# Where the search goes on

A writer who chooses one offer after the other stands at the end of the chain all the time, and the
chain is the leaves of the draft that are no layout. But the search goes on from the last leaf of
the draft only if all layout was chosen in a tidy way: with the cursor on a newline, and no block end
on a newline that has a block start (`trueCursor_eq_last_iff`). For other layout the true cursor
stays where it was, and the leaf stands behind it, out of reach of the search: whatever is chosen
later comes in before it.

So the leaves of the draft fall into a front, behind which the search goes on, and layout behind that
(`Parted`). A tidy choice lengthens the front by its leaf, and any other leaves the front as it was
(`Parted.choose`).
-/

namespace Cloze

namespace Draft

variable {d e mid : Draft} {n m c : NodeId}

/-! ### What a block does to its newline -/

/-- A block that joins a newline is its last, unless it is a block end behind a block start. -/
theorem Blocks.last?_add (b : Blocks) (n : NodeId) {role : Role}
    (hrole : role = .indent ∨ role = .dedent) (hb : role = .dedent → b.starts = []) :
    (b.add n role).last? = some n := by
  rcases hrole with rfl | rfl
  · simp [Blocks.add, Blocks.last?]
  · simp [Blocks.add, Blocks.last?, hb rfl]

/-- A block end does not count behind a block start. -/
theorem Blocks.last?_add_dedent {b : Blocks} (n : NodeId) (hb : b.starts ≠ []) :
    (b.add n .dedent).last? = b.last? := by
  obtain ⟨m, hm⟩ := Option.ne_none_iff_exists'.1 (mt List.getLast?_eq_none_iff.1 hb)
  simp [Blocks.add, Blocks.last?, hm]

theorem eq_of_blocksAt {b : Blocks} (h : d.blocksAt n = .ok b) : b = (d.blocks? n).getD {} := by
  rcases (blocksAt_eq_ok h).2 with ⟨hnote, rfl⟩ | hb
  · rw [blocks?, hnote]
    rfl
  · rw [hb]
    rfl

/-- The blocks of a newline that was just filled. -/
theorem Puts.blocks?_newline (h : d.Sound) (hn : d.HasNode n) (hb : d.Blank) (hp : Puts d n mid)
    (ha : Acts (mid.place n) n e) (hr : d.role? n = some .newline) : e.blocks? n = some {} := by
  have hf := hp.fills (.refl _)
  obtain ⟨hs, hsl⟩ := hf.sound h hn
  rw [← hsl.role?] at hr
  cases ha with
  | @newline b _ hblocks =>
    have hhas := hasNode_of_placed (hs.mem_leaves.1 (hf.mem_leaves h hn).1).1
    rw [blocks?_eq_some.2 (note_indentLine hhas b), eq_of_blocksAt hblocks, blocks?, hp.note,
      (hb n hp.gap).1]
    rfl
  | block hrole hr' => rcases hrole with rfl | rfl <;> cases hr'.symm.trans hr
  | binds hr' => cases hr'.symm.trans hr
  | idle hidle => exact absurd rfl (hidle _ hr).1

/-- A layout leaf joins the last newline before it. -/
theorem Puts.joins_block (h : d.Sound) (hn : d.HasNode n) (hp : Puts d n mid)
    (ha : Acts (mid.place n) n e) (hlay : d.isLayout n = true) :
    ∃ m role, (role = .indent ∨ role = .dedent) ∧ d.role? n = some role ∧
      ((d.before n).reverse.find? fun k => d.role? k == some .newline) = some m ∧
      e.blocks? m = some (((d.blocks? m).getD {}).add n role) := by
  have hf := hp.fills (.refl _)
  obtain ⟨hs, hsl⟩ := hf.sound h hn
  have hmem := (hf.mem_leaves h hn).1
  obtain ⟨behind, -, hleaves⟩ := hf.leaves h hn
  rw [← congrFun hsl.isLayout] at hlay
  cases ha with
  | newline hr => exact absurd hr (not_newline_of_isLayout hlay)
  | @block role m b hrole hr hm hb =>
    obtain ⟨hbefore, -⟩ := hs.mem_leaves_of_walkTo hmem hm
    have hhas : (mid.place n).HasNode m := by
      refine hasNode_of_placed (hs.mem_leaves.1 ?_).1
      rw [hs.leaves_eq_around (hs.mem_leaves.1 hmem).1 (hs.mem_leaves.1 hmem).2]
      exact List.mem_append_left _ hbefore
    refine ⟨m, role, hrole, (hsl.role? n).symm.trans hr, ?_, ?_⟩
    · rw [walkTo, List.head?_filter, hs.walk_leafBefore hmem, (hs.around_of_leaves hleaves).1] at hm
      rw [← hm]
      simp only [hsl.role?]
    · rw [blocks?_eq_some.2 (note_indentLine hhas _), eq_of_blocksAt hb, blocks?_congr (hp.note m)]
  | binds hr => simp [isLayout, hr, Role.isLayout] at hlay
  | idle hidle =>
    rcases isLayout_iff.1 hlay with hr | hr
    · exact absurd rfl (hidle _ hr).2.1
    · exact absurd rfl (hidle _ hr).2.2

end Draft

namespace Editor

open Draft

variable {e e₁ f : Editor} {d mid : Draft} {n c : NodeId} {value : Option String} {g : Grammar}
  {allowed : Editor → NodeId → Prop} {front hidden : List NodeId}

/-! ### Choices at the end -/

/-- The editors that come of choosing offers, one after the other, with the cursor on the last leaf
of the chain. `allowed` says what may be chosen. -/
inductive Continued (g : Grammar) (allowed : Editor → NodeId → Prop) : Editor → Prop
  | start (settings : Settings) : Continued g allowed (Editor.start g settings [])
  | share {e : Editor} {d : Draft} (h : Continued g allowed e) (h' : Draft.Reached g d) :
      Continued g allowed { e with draft := { e.draft with unskippable := d.unskippable } }
  | search {e : Editor} (h : Continued g allowed e) : Continued g allowed (after Editor.offers e)
  | choose {e e₁ f : Editor} {found : List NodeId} {n : NodeId} {value : Option String}
      (h : Continued g allowed e) (hc : e.cursor = e.chain.getLast?)
      (ho : Editor.offers e = .ok found e₁) (hn : n ∈ found) (ha : allowed e₁ n)
      (hf : Editor.choose n value e₁ = .ok () f) : Continued g allowed f

/-- A block start or end is chosen with the cursor on a newline, and a block end only if that
newline has no block start. -/
def Tidy (e : Editor) (n : NodeId) : Prop :=
  e.draft.isLayout n = true → e.cursor.bind e.draft.role? = some .newline ∧
    (e.draft.role? n = some .dedent → ((e.cursor.bind e.draft.blocks?).getD {}).starts = [])

instance (e : Editor) (n : NodeId) : Decidable (e.Tidy n) :=
  inferInstanceAs (Decidable (_ → _))

theorem tidy_of_plain (h : e.draft.isLayout n = false) : e.Tidy n := fun hn => by
  rw [h] at hn
  cases hn

theorem Continued.reached (hg : g.WellFormed) (h : Continued g allowed e) : Reached g e := by
  induction h with
  | start settings => exact .start settings
  | share _ h' ih => exact ih.share h'
  | search _ ih => exact ih.act (a := .search) trivial
  | @choose e e₁ f found n value _ _ ho hn _ hf ih =>
    have hf' : Reached g (after (Editor.choose n value) e₁) :=
      (ih.of_offers ho).of_choose ((ih.orderly hg).1.hasNode_of_offers ho n hn)
    rwa [after, hf] at hf'

theorem Continued.mono {allowed' : Editor → NodeId → Prop} (h : Continued g allowed e)
    (ha : ∀ e n, allowed e n → allowed' e n) : Continued g allowed' e := by
  induction h with
  | start settings => exact .start settings
  | share _ h' ih => exact ih.share h'
  | search _ ih => exact ih.search
  | choose _ hc ho hn hal hf ih => exact ih.choose hc ho hn (ha _ _ hal) hf

/-! ### The true cursor -/

theorem trueCursor_of_newline (hc : e.cursor = some c) (hr : e.draft.role? c = some .newline) :
    e.trueCursor = some ((((e.draft.blocks? c).getD {}).last?).getD c) := by
  rw [trueCursor, hc, Option.map_some, if_pos hr]
  cases e.draft.blocks? c <;> rfl

theorem trueCursor_of_ne_newline (hc : e.cursor = some c) (hr : e.draft.role? c ≠ some .newline) :
    e.trueCursor = some c := by
  rw [trueCursor, hc, Option.map_some, if_neg hr]

/-- What is found first is found first by a sharper test too, if it passes. -/
theorem find?_of_imp {α : Type} {p q : α → Bool} {xs : List α} {x : α} (h : xs.find? p = some x)
    (hq : q x = true) (hpq : ∀ y, q y = true → p y = true) : xs.find? q = some x := by
  obtain ⟨-, as, bs, hxs, has⟩ := List.find?_eq_some_iff_append.1 h
  refine List.find?_eq_some_iff_append.2 ⟨hq, as, bs, hxs, fun a ha => ?_⟩
  have hpa : p a = false := by simpa using has a ha
  have hqa : q a ≠ true := fun hqa => by simp [hpq a hqa] at hpa
  simpa using hqa

section Chosen

variable (h : e.draft.Sound) (hn : e.draft.HasNode n) (hp : Puts e.draft n mid)
  (ha : Acts (mid.place n) n d)

include h hn hp ha

/-- Behind a leaf that was chosen and is no layout the search goes on from that leaf. -/
theorem trueCursor_chosen_of_plain (hb : e.draft.Blank) (hplain : e.draft.isLayout n = false) :
    (e.chosen n d).trueCursor = some n := by
  have hsl := ((hp.fills (retouches_acts ha)).sound h hn).2
  have hcursor : (e.chosen n d).cursor = some n := by
    rw [chosen, if_neg (by rw [← isLayout, congrFun hsl.isLayout, hplain]; simp), cursor_advance]
  by_cases hr : e.draft.role? n = some .newline
  · rw [trueCursor_of_newline hcursor (by rw [draft_chosen, hsl.role?, hr]), draft_chosen,
      hp.blocks?_newline h hn hb ha hr]
    rfl
  · exact trueCursor_of_ne_newline hcursor (by rwa [draft_chosen, hsl.role?])

/-- After layout was chosen the search goes on from it if it was chosen in a tidy way, and from
where it did before if not. -/
theorem trueCursor_chosen_of_layout (hlay : e.draft.isLayout n = true)
    (hc : e.cursor = (e.draft.before n).reverse.find? (!e.draft.isLayout ·)) :
    (e.chosen n d).trueCursor = if e.Tidy n then some n else e.trueCursor := by
  have hsl := ((hp.fills (retouches_acts ha)).sound h hn).2
  have hchosen : e.chosen n d = { e with draft := d } := by
    rw [chosen, if_pos (by rw [← isLayout, congrFun hsl.isLayout, hlay])]
  obtain ⟨m, role, hrole, hr, hm, hblocks⟩ := hp.joins_block h hn ha hlay
  obtain ⟨c, hplain⟩ : ∃ c, (e.draft.before n).reverse.find? (!e.draft.isLayout ·) = some c := by
    refine Option.isSome_iff_exists.1 (List.find?_isSome.2 ⟨m, List.mem_of_find?_eq_some hm, ?_⟩)
    have hnl : e.draft.role? m = some .newline := by simpa using List.find?_some hm
    rw [not_isLayout_of_newline hnl, Bool.not_false]
  have hcursor : e.cursor = some c := hc.trans hplain
  by_cases hnl : e.draft.role? c = some .newline
  · -- Only layout stands between the cursor and the leaf, which so joins the newline there.
    obtain rfl : m = c := by
      refine Option.some.inj (hm.symm.trans (find?_of_imp hplain (beq_iff_eq.2 hnl) fun y hy => ?_))
      rw [not_isLayout_of_newline (beq_iff_eq.1 hy), Bool.not_false]
    rw [hchosen, trueCursor_of_newline (e := { e with draft := d }) hcursor
      ((hsl.role? m).trans hnl), hblocks, Option.getD_some]
    split
    · rename_i ht
      obtain ⟨-, hstarts⟩ := ht hlay
      rw [hr, hcursor, Option.bind_some] at hstarts
      rw [Blocks.last?_add _ _ hrole fun hd => hstarts (by rw [hd]), Option.getD_some]
    · rename_i ht
      have hd : role = .dedent ∧ ((e.draft.blocks? m).getD {}).starts ≠ [] := by
        rw [Tidy, hlay, hcursor, Option.bind_some, Option.bind_some, hr, hnl] at ht
        simpa using ht
      rw [hd.1, Blocks.last?_add_dedent n hd.2, trueCursor_of_newline hcursor hnl]
  · have hnot : ¬ e.Tidy n := fun ht => by
      have hb := (ht hlay).1
      rw [hcursor, Option.bind_some] at hb
      exact hnl hb
    rw [if_neg hnot, trueCursor_of_ne_newline hcursor hnl, hchosen,
      trueCursor_of_ne_newline (e := { e with draft := d }) hcursor (by rwa [hsl.role?])]

theorem trueCursor_chosen (hb : e.draft.Blank)
    (hc : e.cursor = (e.draft.before n).reverse.find? (!e.draft.isLayout ·)) :
    (e.chosen n d).trueCursor = if e.Tidy n then some n else e.trueCursor := by
  rcases hlay : e.draft.isLayout n with _ | _
  · rw [trueCursor_chosen_of_plain h hn hp ha hb hlay, if_pos (tidy_of_plain hlay)]
  · exact trueCursor_chosen_of_layout h hn hp ha hlay hc

end Chosen

/-! ### Front and hidden layout -/

/-- The leaves of the draft are a front, behind which the search goes on, and layout behind that. -/
structure Parted (e : Editor) (front hidden : List NodeId) : Prop where
  leaves : e.draft.leaves = front ++ hidden
  trueCursor : e.trueCursor = front.getLast?
  layout : ∀ n ∈ hidden, e.draft.isLayout n = true
  empty : front = [] → hidden = []
  chain : e.chain = e.draft.leaves.filter (!e.draft.isLayout ·)

theorem parted_start (g : Grammar) (settings : Settings) :
    Parted (Editor.start g settings []) [] [] :=
  ⟨rfl, rfl, List.forall_mem_nil _, fun _ => rfl, rfl⟩

/-- The search comes to the last leaf if no layout is hidden from it. -/
theorem Parted.trueCursor_eq_iff (h : Parted e front hidden) (hs : e.draft.Sound) :
    e.trueCursor = e.draft.leaves.getLast? ↔ hidden = [] := by
  refine ⟨fun heq => ?_, fun hnil => by rw [h.trueCursor, h.leaves, hnil, List.append_nil]⟩
  by_contra hne
  obtain ⟨n, hn⟩ := Option.ne_none_iff_exists'.1 (mt List.getLast?_eq_none_iff.1 hne)
  rw [h.trueCursor, h.leaves, List.getLast?_append_of_ne_nil _ hne, hn] at heq
  have hnodup := hs.nodup_leaves
  rw [h.leaves] at hnodup
  exact (List.nodup_append.1 hnodup).2.2 n (List.mem_of_getLast? heq) n (List.mem_of_getLast? hn) rfl

theorem Parted.filter_hidden (h : Parted e front hidden) :
    hidden.filter (!e.draft.isLayout ·) = [] :=
  List.filter_eq_nil_iff.2 fun n hn => by simp [h.layout n hn]

/-- What is in front of the hidden layout is all that the chain is made of. -/
theorem Parted.chain_eq (h : Parted e front hidden) :
    e.chain = front.filter (!e.draft.isLayout ·) := by
  rw [h.chain, h.leaves, List.filter_append, h.filter_hidden, List.append_nil]

theorem Parted.keeps (h : Parted e front hidden) (ho : e.Orderly) (hcursor : f.cursor = e.cursor)
    (hchain : f.chain = e.chain) (hk : Keeps e.draft f.draft) : Parted f front hidden := by
  have hleaves := hk.leaves ho.sound
  have hlay : ∀ n ∈ e.draft.leaves, f.draft.isLayout n = e.draft.isLayout n := fun n hn => by
    rw [isLayout, hk.grows.role? (hasNode_of_placed (ho.sound.mem_leaves.1 hn).1), isLayout]
  refine ⟨hleaves.trans h.leaves, (ho.trueCursor_keeps hcursor hk).trans h.trueCursor,
    fun n hn => ?_, h.empty, ?_⟩
  · rw [hlay n (by rw [h.leaves]; exact List.mem_append_right _ hn)]
    exact h.layout n hn
  · rw [hchain, h.chain, hleaves]
    exact List.filter_congr fun n hn => by rw [hlay n hn]

/-- What is offered may be placed right behind the front. -/
theorem Parted.offer (h : Parted e front hidden) (ho : e.Orderly) {found : List NodeId}
    (hfound : Editor.offers e = .ok found e₁) (hn : n ∈ found) :
    (e₁.draft.node n).placed = false ∧ e₁.draft.before n = front := by
  obtain ⟨hoffers, -⟩ := offers_eq_ok hfound
  rw [h.trueCursor] at hoffers
  rcases List.eq_nil_or_concat front with rfl | ⟨xs, t, rfl⟩
  · have hl : e.draft.leaves = [] := by rw [h.leaves, h.empty rfl, List.append_nil]
    obtain ⟨-, hgap, -, hbefore⟩ := offer_of_empty ho.sound hl hoffers hn
    exact ⟨hgap, hbefore⟩
  · rw [List.concat_eq_append, List.getLast?_concat] at hoffers
    have hl : e.draft.leaves = xs ++ t :: hidden := by rw [h.leaves]; simp
    obtain ⟨hp, hleaf⟩ := ho.sound.mem_leaves.1 (by simp [hl] : t ∈ e.draft.leaves)
    obtain ⟨hk, -, -, hgap, -, hbefore⟩ := ho.sound.offer_of_offers hp hleaf hoffers hn
    have hxs := (hk.sound.around_of_leaves ((hk.leaves ho.sound).trans hl)).1
    exact ⟨hgap, by rw [hbefore, hxs, List.concat_eq_append]⟩

/-- A leaf that is filled right behind the front lengthens it, or is hidden. -/
theorem Parted.chosen (h : Parted e front hidden) (ho : e.Orderly)
    (hc : e.cursor = e.chain.getLast?) (hn : e.draft.HasNode n) (hbefore : e.draft.before n = front)
    (hp : Puts e.draft n mid) (ha : Acts (mid.place n) n d) :
    if e.Tidy n then Parted (e.chosen n d) (front ++ [n]) hidden
    else Parted (e.chosen n d) front (n :: hidden) := by
  have hfills := hp.fills (retouches_acts ha)
  have hlayout : d.isLayout = e.draft.isLayout := (hfills.sound ho.sound hn).2.isLayout
  obtain ⟨behind, hb₁, hb₂⟩ := hfills.leaves ho.sound hn
  rw [hbefore] at hb₁ hb₂
  obtain rfl : hidden = behind := List.append_cancel_left (h.leaves.symm.trans hb₁)
  have hchain : (e.chosen n d).chain = d.leaves.filter (!d.isLayout ·) := by
    have hnodup : e.chain.Nodup := h.chain ▸ ho.sound.nodup_leaves.filter _
    rw [chain_chosen hc hnodup, h.chain_eq, hb₂, hlayout, ← List.singleton_append (l := hidden),
      List.filter_append, List.filter_append, h.filter_hidden, List.append_nil]
  have htrue := trueCursor_chosen ho.sound hn hp ha ho.blank (by
    rw [hbefore, ← List.getLast?_filter, ← h.chain_eq, hc])
  rcases em (e.Tidy n) with ht | ht
  · rw [if_pos ht] at htrue ⊢
    refine ⟨?_, by rw [htrue, List.getLast?_concat], ?_, by simp, ?_⟩
    all_goals rw [draft_chosen]
    · rw [hb₂, List.append_assoc, List.singleton_append]
    · exact hlayout ▸ h.layout
    · exact hchain
  · rw [if_neg ht] at htrue ⊢
    have hlay : e.draft.isLayout n = true := by
      by_contra hlay
      exact ht (tidy_of_plain (by simpa using hlay))
    refine ⟨?_, htrue.trans h.trueCursor, ?_, fun hnil => ?_, ?_⟩
    · rw [draft_chosen, hb₂]
    · rw [draft_chosen, hlayout]
      exact List.forall_mem_cons.2 ⟨hlay, h.layout⟩
    · -- In front is the newline that the leaf has joined.
      obtain ⟨m, -, -, -, hm, -⟩ := hp.joins_block ho.sound hn ha hlay
      rw [hbefore, hnil] at hm
      cases hm
    · rw [draft_chosen, hchain]

/-- A tidy choice lengthens the front by its leaf, and any other hides its leaf. -/
theorem Parted.choose (h : Parted e front hidden) (hr : Reached g e) (hg : g.WellFormed)
    (hc : e.cursor = e.chain.getLast?) {found : List NodeId} (ho : Editor.offers e = .ok found e₁)
    (hn : n ∈ found) (hf : Editor.choose n value e₁ = .ok () f) :
    if e₁.Tidy n then Parted f (front ++ [n]) hidden else Parted f front (n :: hidden) := by
  have hord := (hr.orderly hg).1
  obtain ⟨hgap, hbefore⟩ := h.offer hord ho hn
  have hnode := hord.hasNode_of_offers ho n hn
  obtain ⟨-, he₁⟩ := offers_eq_ok ho
  have h₁ : Parted e₁ front hidden :=
    h.keeps hord (by rw [he₁]) (by rw [he₁]) (hord.keeps_of_offers ho)
  have hout := fillOutcome_fillWith hnode value
  rw [choose_eq] at hf
  generalize fillWith n value e₁.draft = result at hf hout
  cases hout with
  | refused => cases hf
  | stuck => cases hf
  | already _ hplaced =>
    rw [hgap] at hplaced
    cases hplaced
  | @filled mid d hp ha =>
    obtain rfl : e₁.chosen n d = f := by simpa using hf
    exact h₁.chosen ((hr.of_offers ho).orderly hg).1 (by rw [he₁, hc]) hnode hbefore hp
      (acts_onFill ha)

/-- All that is hidden comes of choices that are not tidy, and stays hidden. -/
theorem Continued.exists_parted (hg : g.WellFormed) (h : Continued g allowed e) :
    ∃ front hidden, Parted e front hidden ∧ (hidden = [] → Continued g Tidy e) ∧
      ((∀ e n, allowed e n → Tidy e n) → hidden = []) := by
  induction h with
  | start settings => exact ⟨[], [], parted_start g settings, fun _ => .start settings, fun _ => rfl⟩
  | @share e d h h' ih =>
    obtain ⟨front, hidden, hp, hnil, htidy⟩ := ih
    obtain ⟨ho, hd⟩ := (h.reached hg).orderly hg
    have hk : Keeps e.draft { e.draft with unskippable := d.unskippable } :=
      ho.sound.remember ((Draft.Reached.share hd h').sound hg).1.honest
    exact ⟨front, hidden, hp.keeps ho rfl rfl hk, fun hh => (hnil hh).share h', htidy⟩
  | @search e h ih =>
    obtain ⟨front, hidden, hp, hnil, htidy⟩ := ih
    have ho := ((h.reached hg).orderly hg).1
    rw [after_offers]
    refine ⟨front, hidden, hp.keeps ho rfl rfl ho.keeps_offers, fun hh => ?_, htidy⟩
    rw [← after_offers]
    exact (hnil hh).search
  | @choose e e₁ f found n value h hc ho hn ha hf ih =>
    obtain ⟨front, hidden, hp, hnil, htidy⟩ := ih
    have hstep := hp.choose (h.reached hg) hg hc ho hn hf
    split at hstep
    · rename_i ht
      exact ⟨_, _, hstep, fun hh => (hnil hh).choose hc ho hn ht hf, htidy⟩
    · rename_i ht
      exact ⟨_, _, hstep, fun hh => (by cases hh), fun hall => absurd (hall _ _ ha) ht⟩

/-- Where every choice is made at the end of the chain, the chain is the leaves of the draft that are
no layout, and the search goes on from the last leaf if and only if tidy choices alone lead there. -/
theorem trueCursor_eq_last_iff {definition : Grammar.Definition} (hg : definition.build = .ok g)
    (h : Continued g (fun _ _ => True) e) :
    e.chain = e.draft.leaves.filter (fun n => !e.draft.isLayout n) ∧
      (e.trueCursor = e.draft.leaves.getLast? ↔ Continued g Tidy e) := by
  have hwf := Grammar.Definition.wellFormed_build hg
  have hs := ((h.reached hwf).orderly hwf).1.sound
  obtain ⟨front, hidden, hp, hnil, -⟩ := h.exists_parted hwf
  refine ⟨hp.chain, fun heq => hnil ((hp.trueCursor_eq_iff hs).1 heq), fun ht => ?_⟩
  obtain ⟨front', hidden', hp', -, htidy⟩ := ht.exists_parted hwf
  exact (hp'.trueCursor_eq_iff hs).2 (htidy fun _ _ h => h)

/-! ### A block without a line in it -/

/-- A block that is closed where it was opened, and a text behind it. -/
def emptyBlock : Grammar.Definition where
  rules := [("block", [[.category "NEWLINE" .once, .category "INDENT" .once,
    .category "DEDENT" .once, .literal "x" .once]])]
  roles := [("NEWLINE", .newline), ("INDENT", .indent), ("DEDENT", .dedent)]

def emptyBlockGrammar : Grammar := emptyBlock.build.toOption.getD default

theorem Continued.pick (h : Continued g allowed e) (n : NodeId) (found : List NodeId)
    (hc : e.cursor = e.chain.getLast?) (ho : value? Editor.offers e = some found) (hn : n ∈ found)
    (ha : allowed (after Editor.offers e) n)
    (hf : value? (Editor.choose n none) (after Editor.offers e) = some ()) :
    Continued g allowed (e.pick n) :=
  h.choose hc (eq_ok_of_value? ho) hn ha (eq_ok_of_value? hf)

/-- The editor behind the newline and the start of the block. -/
def openedBlock : Editor :=
  ((Editor.start emptyBlockGrammar {} []).pick ⟨0⟩).pick ⟨1⟩

theorem continued_openedBlock : Continued emptyBlockGrammar Tidy openedBlock := by
  have h₀ : Continued emptyBlockGrammar Tidy (Editor.start emptyBlockGrammar {} []) := .start {}
  let e₀ := Editor.start emptyBlockGrammar {} []
  let e₁ := e₀.pick ⟨0⟩
  have hrun : (value? Editor.offers e₀ = some [⟨0⟩] ∧ Tidy (after Editor.offers e₀) ⟨0⟩ ∧
        value? (Editor.choose ⟨0⟩ none) (after Editor.offers e₀) = some ()) ∧
      e₁.cursor = e₁.chain.getLast? ∧ value? Editor.offers e₁ = some [⟨1⟩] ∧
      Tidy (after Editor.offers e₁) ⟨1⟩ ∧
      value? (Editor.choose ⟨1⟩ none) (after Editor.offers e₁) = some () := by
    decide +kernel
  obtain ⟨⟨ho₀, ha₀, hf₀⟩, hc₁, ho₁, ha₁, hf₁⟩ := hrun
  have h₁ := h₀.pick ⟨0⟩ [⟨0⟩] rfl ho₀ (by simp) ha₀ hf₀
  exact h₁.pick ⟨1⟩ [⟨1⟩] hc₁ ho₁ (by simp) ha₁ hf₁

/-- The search goes on behind the block start. -/
theorem trueCursor_openedBlock : openedBlock.draft.leaves = [⟨0⟩, ⟨1⟩] ∧
    openedBlock.chain = [⟨0⟩] ∧ openedBlock.trueCursor = some ⟨1⟩ := by
  obtain ⟨hchain, hcursor⟩ := trueCursor_eq_last_iff (Grammar.Definition.build_eq_ok (by decide +kernel))
    (continued_openedBlock.mono fun _ _ _ => trivial)
  have hleaves : openedBlock.draft.leaves = [⟨0⟩, ⟨1⟩] := by decide +kernel
  refine ⟨hleaves, ?_, ?_⟩
  · rw [hchain, hleaves]
    decide +kernel
  · rw [hcursor.2 continued_openedBlock, hleaves]
    rfl

/-- A block end is chosen where a block was opened. The search still goes on from the block start and
finds nothing, though a text may come behind the block end. -/
theorem blockEnd_hides_text : ∃ e d, emptyBlock.build = .ok emptyBlockGrammar ∧
    Continued emptyBlockGrammar (fun _ _ => True) e ∧
    e.draft.leaves = [⟨0⟩, ⟨1⟩, ⟨2⟩] ∧ e.trueCursor = some ⟨1⟩ ∧
    value? Editor.offers e = some [] ∧ Draft.offers (some ⟨2⟩) e.draft = .ok [⟨3⟩] d ∧
    d.literal? ⟨3⟩ = some "x" := by
  let e := openedBlock.pick ⟨2⟩
  have hrun : (openedBlock.cursor = openedBlock.chain.getLast? ∧
        value? Editor.offers openedBlock = some [⟨2⟩] ∧
        value? (Editor.choose ⟨2⟩ none) (after Editor.offers openedBlock) = some ()) ∧
      e.draft.leaves = [⟨0⟩, ⟨1⟩, ⟨2⟩] ∧ e.trueCursor = some ⟨1⟩ ∧
      value? Editor.offers e = some [] := by
    decide +kernel
  obtain ⟨⟨hc, ho, hf⟩, hleaves, hcursor, hnothing⟩ := hrun
  have h := (continued_openedBlock.mono fun _ _ _ => trivial).pick ⟨2⟩ [⟨2⟩] hc ho (by simp)
    trivial hf
  obtain ⟨found, d, hmore, hfound, htext⟩ : ∃ found d,
      Draft.offers (some ⟨2⟩) e.draft = .ok found d ∧ found = [⟨3⟩] ∧
        d.literal? ⟨3⟩ = some "x" :=
    Edit.Ensures.exists_ok (by decide +kernel)
  exact ⟨e, d, Grammar.Definition.build_eq_ok (by decide +kernel), h, hleaves, hcursor, hnothing,
    hfound ▸ hmore, htext⟩

end Editor

end Cloze
