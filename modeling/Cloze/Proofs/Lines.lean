import Cloze.Proofs.Chaining
import Cloze.Proofs.Nesting
import Mathlib.Data.List.TakeWhile

/-!
# Lines and their indentation

Over a grammar of blocks the leaves of a draft that is only written on at its end are in line
(`InLine`): each goes on from the one before it. So a leaf is in by one more than there are blocks
open, and the layout on a line stands right behind its newline.

Every newline has been joined by just that layout (`Indented`), and so its token is as many indent
units as there are blocks open behind it (`Indented.token_eq`). Filling an offer behind the last
leaf keeps all this (`Over.indents`).
-/

namespace Cloze.Draft

variable {d e f : Draft} {n m : NodeId} {xs ys ls : List NodeId}

/-! ### Leaves in line -/

/-- The node is a block start or a block end. -/
def isLayout (d : Draft) (n : NodeId) : Bool :=
  (d.role? n).any Role.isLayout

/-- How far in a node is. -/
def loadOf (d : Draft) (n : NodeId) : Nat :=
  load d.grammar (d.trail n)

/-- How many of the nodes have the role. -/
def countRole (d : Draft) (role : Role) (ns : List NodeId) : Nat :=
  ns.countP fun n => d.role? n == some role

/-- The first of the leaves is in by one, and every other goes on from the one before it. -/
structure InLine (d : Draft) (ls : List NodeId) : Prop where
  head : ∀ n ∈ ls.head?, d.loadOf n = 1 ∧ d.isLayout n = false
  chain : ls.IsChain fun n m => Continues (d.loadOf n) (d.loadOf m) (d.role? n) (d.role? m)

theorem isLayout_iff : d.isLayout n = true ↔ d.role? n = some .indent ∨ d.role? n = some .dedent := by
  unfold isLayout
  rcases d.role? n with _ | r
  · simp
  · cases r <;> simp [Role.isLayout]

theorem not_newline_of_isLayout (h : d.isLayout n = true) : d.role? n ≠ some .newline := by
  rcases isLayout_iff.1 h with hr | hr <;> simp [hr]

theorem not_isLayout_of_newline (h : d.role? n = some .newline) : d.isLayout n = false := by
  simp [isLayout, h, Role.isLayout]

theorem countRole_append (role : Role) (xs ys : List NodeId) :
    d.countRole role (xs ++ ys) = d.countRole role xs + d.countRole role ys :=
  List.countP_append

theorem countRole_concat (role : Role) (xs : List NodeId) (n : NodeId) :
    d.countRole role (xs ++ [n])
      = d.countRole role xs + if d.role? n = some role then 1 else 0 := by
  simp [countRole, List.countP_singleton]

theorem countRole_eq_zero {role : Role} (hr : role.isLayout = true)
    (h : ∀ x ∈ xs, d.isLayout x = false) : d.countRole role xs = 0 := by
  refine List.countP_eq_zero.2 fun x hx heq => ?_
  exact Role.ne_some_of_not_layout (h x hx) hr (beq_iff_eq.1 heq)

theorem InLine.of_append (h : d.InLine (xs ++ ys)) : d.InLine xs := by
  refine ⟨fun z hz => h.head z ?_, (List.isChain_append.1 h.chain).1⟩
  cases xs with
  | nil => cases hz
  | cons x xs => exact hz

/-- What is read behind goes on from the last leaf, or is the first. -/
theorem InLine.concat (h : d.InLine ls) (hfirst : ls = [] → d.loadOf n = 1 ∧ d.isLayout n = false)
    (hnext : ∀ m ∈ ls.getLast?, Continues (d.loadOf m) (d.loadOf n) (d.role? m) (d.role? n)) :
    d.InLine (ls ++ [n]) := by
  constructor
  · cases ls with
    | nil =>
      intro z hz
      obtain rfl : n = z := by simpa using hz
      exact hfirst rfl
    | cons x xs => exact h.head
  · refine List.isChain_append.2 ⟨h.chain, .singleton n, fun m hm z hz => ?_⟩
    obtain rfl : n = z := by simpa using hz
    exact hnext m hm

theorem InLine.continues (h : d.InLine (xs ++ [m] ++ [n])) :
    Continues (d.loadOf m) (d.loadOf n) (d.role? m) (d.role? n) :=
  (List.isChain_append.1 h.chain).2.2 m (by simp) n (by simp)

/-- A leaf is in by one more than there are blocks open. -/
theorem InLine.balance : ∀ {xs : List NodeId} {n : NodeId}, d.InLine (xs ++ [n]) →
    d.countRole .indent (xs ++ [n]) + 1 = d.countRole .dedent (xs ++ [n]) + d.loadOf n := by
  intro xs
  induction xs using List.reverseRecOn with
  | nil =>
    intro n h
    obtain ⟨hload, hlay⟩ := h.head n rfl
    have hzero : ∀ role : Role, role.isLayout = true → d.countRole role [n] = 0 := fun role hr =>
      countRole_eq_zero hr (by simpa using hlay)
    rw [List.nil_append, hzero .indent rfl, hzero .dedent rfl, hload]
  | append_singleton xs m ih =>
    intro n h
    have hprev := ih h.of_append
    have hstep := h.continues.load
    rw [countRole_concat _ (xs ++ [m]), countRole_concat _ (xs ++ [m])]
    omega

/-- The nodes are one block start, or block ends only. -/
def OneWay (d : Draft) (run : List NodeId) : Prop :=
  (∃ i, run = [i] ∧ d.role? i = some .indent) ∨ ∀ x ∈ run, d.role? x = some .dedent

theorem OneWay.isLayout (h : d.OneWay xs) : ∀ x ∈ xs, d.isLayout x = true := by
  rcases h with ⟨i, rfl, hi⟩ | h
  · simpa using isLayout_iff.2 (Or.inl hi)
  · exact fun x hx => isLayout_iff.2 (Or.inr (h x hx))

/-- Between a newline or a layout leaf and the newline before it there is layout of one kind. -/
theorem InLine.exists_run : ∀ {xs : List NodeId} {n : NodeId}, d.InLine (xs ++ [n]) →
    d.role? n = some .newline ∨ d.isLayout n = true →
    ∃ ws c run, xs ++ [n] = ws ++ c :: run ∧ d.role? c = some .newline ∧ d.OneWay run := by
  intro xs
  induction xs using List.reverseRecOn with
  | nil =>
    intro n h hn
    have hnl := hn.resolve_right (by simp [(h.head n rfl).2])
    exact ⟨[], n, [], rfl, hnl, Or.inr (List.forall_mem_nil _)⟩
  | append_singleton xs m ih =>
    intro n h hn
    have hc := h.continues
    rcases hn with hn | hn
    · exact ⟨xs ++ [m], n, [], rfl, hn, Or.inr (List.forall_mem_nil _)⟩
    · rcases isLayout_iff.1 hn with hi | hd
      · exact ⟨xs, m, [n], by simp, hc.indent hi, Or.inl ⟨n, rfl, hi⟩⟩
      · rcases hc.dedent hd with hm | hm
        · exact ⟨xs, m, [n], by simp, hm, Or.inr (by simpa using hd)⟩
        · obtain ⟨ws, c, run, heq, hcl, hrun⟩ := ih h.of_append (Or.inr (isLayout_iff.2 (Or.inr hm)))
          refine ⟨ws, c, run ++ [n], by rw [heq]; simp, hcl, Or.inr ?_⟩
          rcases hrun with ⟨i, rfl, hi⟩ | hrun
          · have hlast := congrArg List.getLast? heq
            have hmi : m = i := by simpa using hlast
            rw [hmi, hi] at hm
            cases hm
          · exact List.forall_mem_append.2 ⟨hrun, by simpa using hd⟩

/-- Behind a leaf that is neither a newline nor layout, layout comes only after a newline. -/
theorem InLine.not_isLayout : ∀ {ys xs : List NodeId} {n : NodeId}, d.InLine (xs ++ n :: ys) →
    d.role? n ≠ some .newline → d.isLayout n = false → (∀ y ∈ ys, d.role? y ≠ some .newline) →
    ∀ y ∈ ys, d.isLayout y = false
  | [], _, _, _, _, _, _, _, hy => by cases hy
  | y :: ys, xs, n, h, hn, hlay, hys, z, hz => by
    obtain ⟨hy, hys⟩ := List.forall_mem_cons.1 hys
    have hchain : d.InLine (xs ++ [n] ++ [y]) := by
      have h' : d.InLine (xs ++ [n] ++ [y] ++ ys) := by simpa using h
      exact h'.of_append
    have hylay : d.isLayout y = false := by
      by_contra hne
      have hc := hchain.continues
      rcases isLayout_iff.1 (Bool.not_eq_false _ ▸ hne) with hi | hd
      · exact hn (hc.indent hi)
      · refine (hc.dedent hd).elim hn fun hd' => ?_
        rw [isLayout_iff.2 (Or.inr hd')] at hlay
        cases hlay
    rcases List.mem_cons.1 hz with rfl | hz
    · exact hylay
    · have h' : d.InLine ((xs ++ [n]) ++ y :: ys) := by simpa using h
      exact h'.not_isLayout hy hylay hys z hz

/-- The layout on a line is what comes right behind its newline. -/
theorem InLine.countRole_takeWhile (h : d.InLine (xs ++ n :: ys))
    (hys : ∀ y ∈ ys, d.role? y ≠ some .newline) {role : Role} (hr : role.isLayout = true) :
    d.countRole role (ys.takeWhile d.isLayout) = d.countRole role ys := by
  have hsplit : ys.takeWhile d.isLayout ++ ys.dropWhile d.isLayout = ys :=
    List.takeWhile_append_dropWhile
  have hzero : d.countRole role (ys.dropWhile d.isLayout) = 0 := by
    refine countRole_eq_zero hr ?_
    rcases hrest : ys.dropWhile d.isLayout with _ | ⟨y, rest⟩
    · exact List.forall_mem_nil _
    · rw [hrest] at hsplit
      have hy : d.isLayout y = false := by
        have := List.head?_dropWhile_not d.isLayout ys
        simpa [hrest] using this
      have hrole : ∀ z ∈ y :: rest, d.role? z ≠ some .newline := fun z hz =>
        hys z (hsplit ▸ List.mem_append_right _ hz)
      have h' : d.InLine ((xs ++ n :: ys.takeWhile d.isLayout) ++ y :: rest) := by
        rw [List.append_assoc, List.cons_append, hsplit]
        exact h
      obtain ⟨hyr, hrest⟩ := List.forall_mem_cons.1 hrole
      exact List.forall_mem_cons.2 ⟨hy, h'.not_isLayout hyr hy hrest⟩
  conv_rhs => rw [← hsplit, countRole_append, hzero, Nat.add_zero]

/-! ### Newlines and what joined them -/

/-- The block starts and ends among nodes. -/
def blocksIn (d : Draft) (ns : List NodeId) : Blocks where
  starts := ns.filter fun n => d.role? n == some .indent
  ends := ns.filter fun n => d.role? n == some .dedent

/-- The layout read right behind a newline has joined it, and its token is its indentation. -/
structure Joins (d : Draft) (n : NodeId) (ys : List NodeId) : Prop where
  blocks : d.blocks? n = some (d.blocksIn (ys.takeWhile d.isLayout))
  token : d.token? n = some (d.indentation n)

/-- The leaves are in line, and every newline knows its layout. -/
structure Indented (d : Draft) : Prop where
  inLine : d.InLine d.leaves
  joins : ∀ xs n ys, d.leaves = xs ++ n :: ys → d.role? n = some .newline → d.Joins n ys

theorem SameLinks.isLayout (h : SameLinks d e) : e.isLayout = d.isLayout :=
  funext fun n => by rw [Draft.isLayout, h.role?, Draft.isLayout]

theorem SameLinks.blocksIn (h : SameLinks d e) (ns : List NodeId) :
    e.blocksIn ns = d.blocksIn ns := by
  simp only [Draft.blocksIn, h.role?]

theorem SameLinks.indentation (h : SameLinks d e) (hnote : (e.node n).note = (d.node n).note) :
    e.indentation n = d.indentation n := by
  simp only [Draft.indentation, indentCount, blocks?_congr hnote, statementsAbove, ancestors,
    h.lineage, h.role?, h.settings]

theorem InLine.congr (h : d.InLine ls) (hload : ∀ n ∈ ls, e.loadOf n = d.loadOf n)
    (hrole : ∀ n ∈ ls, e.role? n = d.role? n) : e.InLine ls := by
  constructor
  · intro n hn
    have hmem := List.mem_of_mem_head? hn
    rw [hload n hmem, isLayout, hrole n hmem]
    exact h.head n hn
  · refine h.chain.imp_of_mem_imp fun n m hn hm hc => ?_
    rwa [hload n hn, hload m hm, hrole n hn, hrole m hm]

theorem takeWhile_congr {p q : NodeId → Bool} (h : ∀ y ∈ ys, q y = p y) :
    ys.takeWhile q = ys.takeWhile p := by
  induction ys with
  | nil => rfl
  | cons y ys ih =>
    obtain ⟨hy, hys⟩ := List.forall_mem_cons.1 h
    rw [List.takeWhile_cons, List.takeWhile_cons, hy, ih hys]

theorem Joins.congr (h : d.Joins n ys) (hrole : ∀ y ∈ ys, e.role? y = d.role? y)
    (hb : e.blocks? n = d.blocks? n) (ht : e.token? n = d.token? n)
    (hi : e.indentation n = d.indentation n) : e.Joins n ys := by
  have hrun : ys.takeWhile e.isLayout = ys.takeWhile d.isLayout :=
    takeWhile_congr fun y hy => by rw [isLayout, hrole y hy, isLayout]
  have hblocks : e.blocksIn (ys.takeWhile d.isLayout) = d.blocksIn (ys.takeWhile d.isLayout) := by
    have hmem : ∀ y ∈ ys.takeWhile d.isLayout, e.role? y = d.role? y := fun y hy =>
      hrole y ((List.takeWhile_sublist _).subset hy)
    rw [blocksIn, blocksIn, Blocks.mk.injEq]
    exact ⟨List.filter_congr fun y hy => by rw [hmem y hy],
      List.filter_congr fun y hy => by rw [hmem y hy]⟩
  exact ⟨by rw [hb, h.blocks, hrun, hblocks], by rw [ht, h.token, hi]⟩

theorem Joins.of_sameLinks (hj : d.Joins n ys) (h : SameLinks d e)
    (hnote : (e.node n).note = (d.node n).note) (hbody : (e.node n).body = (d.node n).body) :
    e.Joins n ys :=
  hj.congr (fun y _ => h.role? y) (blocks?_congr hnote) (token?_congr (h.symbol n) hbody)
    (h.indentation hnote)

/-- What stands behind a leaf that `p` does not hold of, or is that leaf, does not lengthen the run
of the first that it holds of. -/
theorem takeWhile_append_cons {p : NodeId → Bool} {zs : List NodeId}
    (h : ∃ y ∈ ys ++ [n], p y = false) : (ys ++ n :: zs).takeWhile p = ys.takeWhile p := by
  induction ys with
  | nil =>
    have hn : p n = false := by simpa using h
    simp [hn]
  | cons y ys ih =>
    rw [List.cons_append, List.takeWhile_cons, List.takeWhile_cons]
    rcases hy : p y with _ | _
    · rfl
    · obtain ⟨z, hz, hpz⟩ := h
      rcases List.mem_cons.1 hz with rfl | hz
      · rw [hy] at hpz
        cases hpz
      · rw [ih ⟨z, hz, hpz⟩]

theorem Joins.concat (hj : d.Joins n ys) (h : ∃ y ∈ ys ++ [m], d.isLayout y = false) :
    d.Joins n (ys ++ [m]) :=
  ⟨by rw [hj.blocks, takeWhile_append_cons h], hj.token⟩

/-- What a layout leaf adds to the blocks of its newline. -/
theorem Joins.blocks_add (hj : d.Joins m ys) (hys : ∀ y ∈ ys ++ [n], d.isLayout y = true)
    {role : Role} (hrole : role = .indent ∨ role = .dedent) (hr : d.role? n = some role)
    {b : Blocks} (hb : d.blocksAt m = .ok b) :
    b.add n role = d.blocksIn ((ys ++ [n]).takeWhile d.isLayout) := by
  have hblocks := hj.blocks
  rw [List.takeWhile_eq_self_iff.2 (List.forall_mem_append.1 hys).1] at hblocks
  obtain rfl : b = d.blocksIn ys := by
    rcases (blocksAt_eq_ok hb).2 with ⟨hnone, -⟩ | hb
    · rw [blocks?_eq_some, hnone] at hblocks
      cases hblocks
    · exact Option.some.inj (hb.symm.trans hblocks)
  rw [List.takeWhile_eq_self_iff.2 hys]
  rcases hrole with rfl | rfl <;> simp [blocksIn, Blocks.add, hr]

/-- A newline that is written anew has its indentation as its token. -/
theorem token?_indentLine {b : Blocks} (hn : d.HasNode n) (hl : d.isLeaf n = true)
    (hlit : d.literal? n = none) :
    (d.indentLine n b).token? n = some ((d.indentLine n b).indentation n) := by
  have hr := (retouches_indentLine d n b).links
  let noted := d.modifyNode n fun node => { node with note := some (.newline b) }
  have hw := (retouches_writeToken noted n (noted.indentation n)).links
  have hbody : ((d.indentLine n b).node n).body = .leaf (some (noted.indentation n)) := by
    have hnode : noted.node n = { d.node n with note := some (.newline b) } := by
      rw [node_modifyNode, if_pos ⟨rfl, hn⟩]
    have hhas : noted.HasNode n := (retouches_note d n _).links.hasNode.2 hn
    have hleaf : noted.isLeaf n = true := ((retouches_note d n _).links.isLeaf n).trans hl
    rw [indentLine, node_writeToken, if_pos ⟨rfl, hhas, hleaf⟩]
  have hindent : (d.indentLine n b).indentation n = noted.indentation n :=
    hw.indentation (note_writeToken noted n n _)
  rw [token?, literal?, hr.symbol, show (d.symbol n).literal? = none from hlit, hbody, hindent]

theorem joins_indentLine {b : Blocks} (hn : d.HasNode n) (hl : d.isLeaf n = true)
    (hlit : d.literal? n = none) (hb : b = d.blocksIn (ys.takeWhile d.isLayout)) :
    (d.indentLine n b).Joins n ys := by
  have hr := (retouches_indentLine d n b).links
  refine ⟨?_, token?_indentLine hn hl hlit⟩
  rw [blocks?_eq_some.2 (note_indentLine hn b), hr.blocksIn, hr.isLayout, hb]

/-- A leaf of a longer list is one of the list itself, or the new one. -/
theorem split_concat (h : ls ++ [n] = xs ++ m :: ys) :
    xs = ls ∧ m = n ∧ ys = [] ∨ ∃ zs, ys = zs ++ [n] ∧ ls = xs ++ m :: zs := by
  rcases List.eq_nil_or_concat ys with rfl | ⟨zs, z, rfl⟩
  · obtain ⟨h1, h2⟩ := List.append_inj' h rfl
    exact Or.inl ⟨h1.symm, (List.cons.inj h2).1.symm, rfl⟩
  · rw [List.concat_eq_append, ← List.cons_append, ← List.append_assoc] at h
    obtain ⟨h1, h2⟩ := List.append_inj' h rfl
    exact Or.inr ⟨zs, by rw [List.concat_eq_append, (List.cons.inj h2).1], h1⟩

/-- The newline that a layout leaf joins is the last before it, with only layout between. -/
theorem Sound.exists_newline_before (h : d.Sound) (hl : d.leaves = ls ++ [n])
    (hin : d.InLine d.leaves) (hlay : d.isLayout n = true) : ∃ ws c run, ls = ws ++ c :: run ∧
      d.role? c = some .newline ∧ (∀ x ∈ run, d.isLayout x = true) ∧
      (d.walkTo n .leafBefore .newline).head? = some c := by
  rw [hl] at hin
  obtain ⟨ws, c, run, heq, hc, hrun⟩ := hin.exists_run (Or.inr hlay)
  rcases split_concat heq with ⟨-, rfl, -⟩ | ⟨zs, rfl, rfl⟩
  · exact absurd hc (not_newline_of_isLayout hlay)
  · have hlayout : ∀ x ∈ zs, d.isLayout x = true := fun x hx => hrun.isLayout x (by simp [hx])
    refine ⟨ws, c, zs, rfl, hc, hlayout, ?_⟩
    have hbefore := (h.around_of_leaves hl).1
    have hnone : zs.reverse.filter (fun m => d.role? m == some .newline) = [] := by
      refine List.filter_eq_nil_iff.2 fun x hx heq => ?_
      exact not_newline_of_isLayout (hlayout x (List.mem_reverse.1 hx)) (beq_iff_eq.1 heq)
    rw [walkTo, h.walk_leafBefore (by simp [hl]), hbefore]
    simp [hnone, hc]

/-- A newline behind which there is only layout stands behind every other newline. -/
theorem Sound.mem_of_leaves (h : d.Sound) {ws run : List NodeId} {c : NodeId}
    (hl : d.leaves = ws ++ c :: run) (hrun : ∀ x ∈ run, d.isLayout x = true)
    (heq : d.leaves = xs ++ n :: ys) (hn : d.role? n = some .newline) (hne : n ≠ c) : c ∈ ys := by
  have hmem : n ∈ ws := by
    have hmem : n ∈ ws ++ c :: run := by rw [← hl, heq]; simp
    rcases List.mem_append.1 hmem with hmem | hmem
    · exact hmem
    · have hlay := hrun n ((List.mem_cons.1 hmem).resolve_left hne)
      exact absurd hn (not_newline_of_isLayout hlay)
  obtain ⟨as, bs, rfl⟩ := List.append_of_mem hmem
  have hl' : d.leaves = as ++ n :: (bs ++ c :: run) := by simp [hl]
  rw [← (h.around_of_leaves heq).2, (h.around_of_leaves hl').2]
  simp

/-- Where a line goes on, the token of its newline is one indent unit for every block open. -/
theorem Indented.token_eq (hi : d.Indented) (h : d.Sound) (hg : d.grammar.NestsBlocks)
    {mid : List NodeId} (hl : d.leaves = xs ++ n :: mid ++ m :: ys)
    (hn : d.role? n = some .newline) (hmid : ∀ x ∈ mid, d.role? x ≠ some .newline)
    (hm : d.isLayout m = false) :
    d.countRole .dedent (xs ++ n :: mid) ≤ d.countRole .indent (xs ++ n :: mid) ∧
      d.token? n = some (String.join (List.replicate (d.countRole .indent (xs ++ n :: mid)
        - d.countRole .dedent (xs ++ n :: mid)) d.settings.indentUnit)) := by
  have hin := hi.inLine
  rw [hl] at hin
  have hload : ∀ x ∈ xs ++ n :: mid, 0 < d.loadOf x := fun x hx => by
    refine h.linked.load_pos hg (hasNode_of_placed (h.mem_leaves.1 ?_).1)
    rw [hl]
    exact List.mem_append_left _ hx
  -- No more blocks are closed than were opened, since every leaf is in by one at least.
  have hle : d.countRole .dedent (xs ++ n :: mid) ≤ d.countRole .indent (xs ++ n :: mid) := by
    obtain ⟨ws, z, hz⟩ := (List.eq_nil_or_concat (xs ++ n :: mid)).resolve_left (by simp)
    rw [List.concat_eq_append] at hz
    have hpos := hload z (by simp [hz])
    have hprev := hin.of_append
    rw [hz] at hprev ⊢
    have hbalance := hprev.balance
    omega
  refine ⟨hle, ?_⟩
  -- What joined the newline is the layout up to where the line goes on.
  obtain ⟨hblocks, htoken⟩ := hi.joins xs n (mid ++ m :: ys) (by simp [hl]) hn
  rw [takeWhile_append_cons ⟨m, by simp, hm⟩] at hblocks
  have hcount : ∀ role : Role, role.isLayout = true →
      ((mid.takeWhile d.isLayout).filter fun x => d.role? x == some role).length
        = d.countRole role mid := fun role hr => by
    rw [← hin.of_append.countRole_takeWhile hmid hr, countRole, List.countP_eq_length_filter]
  have habove : (d.statementsAbove n).length = d.loadOf n :=
    h.linked.length_statementsAbove hg (hasNode_of_placed (h.mem_leaves.1 (by simp [hl])).1)
      (by simp [hn, Role.deepens])
  have hbalance : d.countRole .indent (xs ++ [n]) + 1
      = d.countRole .dedent (xs ++ [n]) + d.loadOf n := by
    have hprev : d.InLine (xs ++ [n] ++ (mid ++ m :: ys)) := by simpa using hin
    exact hprev.of_append.balance
  have hsplit : ∀ role, d.countRole role (xs ++ n :: mid)
      = d.countRole role (xs ++ [n]) + d.countRole role mid := fun role => by
    rw [← countRole_append, List.append_assoc]
    rfl
  have hpos := hload n (by simp)
  have heq : d.indentCount n
      = d.countRole .indent (xs ++ n :: mid) - d.countRole .dedent (xs ++ n :: mid) := by
    simp only [indentCount, hblocks, Option.getD_some, blocksIn, hcount .indent rfl,
      hcount .dedent rfl, habove, hsplit]
    omega
  rw [htoken, indentation, heq]

/-! ### Filling the next leaf -/

theorem literal?_of_newline (hg : d.grammar.NestsBlocks) (hn : d.role? n = some .newline) :
    d.literal? n = none := by
  rcases d.grammar.symbol_mem_or (d.node n).symbol with hx | hx
  · exact hg.written _ hx hn
  · rw [role?, symbol, hx] at hn
    cases hn

/-- Once the leaf read last is placed, what its role does leaves every newline with the layout
right behind it. -/
theorem indented_acts (h : d.Sound) (hg : d.grammar.NestsBlocks) (hl : d.leaves = ls ++ [n])
    (hin : d.InLine d.leaves) (hnote : (d.node n).note = none)
    (hj : ∀ xs m ys, ls = xs ++ m :: ys → d.role? m = some .newline → d.Joins m ys)
    (ha : Acts d n f) : f.Indented := by
  have hr := retouches_acts ha
  have hleaf : ∀ m ∈ d.leaves, d.HasNode m ∧ d.isLeaf m = true := fun m hm =>
    ⟨hasNode_of_placed (h.mem_leaves.1 hm).1, (h.mem_leaves.1 hm).2⟩
  refine ⟨?_, fun xs m ys heq hm => ?_⟩
  · rw [hr.leaves]
    exact hin.congr (fun m hm => hr.links.load h.linked (hleaf m hm).1) fun m _ => hr.links.role? m
  rw [hr.links.role?] at hm
  rw [hr.leaves] at heq
  obtain ⟨hhas, hml⟩ := hleaf m (by simp [heq])
  -- A newline that is not written on keeps what joined it.
  have hkept : ∀ {zs}, ls = xs ++ m :: zs → f.node m = d.node m →
      (∃ y ∈ zs ++ [n], d.isLayout y = false) → f.Joins m (zs ++ [n]) := by
    intro zs hls hnode hlay
    refine ((hj xs m zs hls hm).of_sameLinks hr.links (by rw [hnode]) (by rw [hnode])).concat ?_
    rwa [hr.links.isLayout]
  have hsplit := split_concat (hl.symm.trans heq)
  cases ha with
  | @newline b hrn hb =>
    rcases hsplit with ⟨-, rfl, rfl⟩ | ⟨zs, rfl, hls⟩
    · rcases (blocksAt_eq_ok hb).2 with ⟨-, rfl⟩ | hb
      · exact joins_indentLine hhas hml (literal?_of_newline hg hm) rfl
      · rw [blocks?_eq_some, hnote] at hb
        cases hb
    · refine hkept hls (node_indentLine_of_ne ?_ _) ⟨n, by simp, not_isLayout_of_newline hrn⟩
      rintro rfl
      have hnodup := h.nodup_leaves
      rw [heq] at hnodup
      simp [List.nodup_append] at hnodup
  | @block role k b hrole hrn hk hb =>
    have hlay : d.isLayout n = true := by
      rcases hrole with rfl | rfl <;> exact isLayout_iff.2 (by simp [hrn])
    obtain ⟨ws, c, run, rfl, hc, hrun, hwalk⟩ := h.exists_newline_before hl hin hlay
    obtain rfl : k = c := Option.some.inj (hk.symm.trans hwalk)
    have hall : ∀ x ∈ run ++ [n], d.isLayout x = true :=
      List.forall_mem_append.2 ⟨hrun, by simpa using hlay⟩
    have hl' : d.leaves = ws ++ k :: (run ++ [n]) := by simp [hl]
    rcases hsplit with ⟨-, rfl, -⟩ | ⟨zs, rfl, hls⟩
    · exact absurd hm (not_newline_of_isLayout hlay)
    by_cases hmk : m = k
    · subst hmk
      obtain rfl : zs = run := List.append_cancel_right
        ((h.around_of_leaves heq).2.symm.trans (h.around_of_leaves hl').2)
      exact joins_indentLine hhas hml (literal?_of_newline hg hm)
        ((hj xs m zs hls hm).blocks_add hall hrole hrn hb)
    · exact hkept hls (node_indentLine_of_ne hmk _)
        ⟨k, h.mem_of_leaves hl' hall heq hm hmk, not_isLayout_of_newline hc⟩
  | @binds k s hrn hk hname hs =>
    rcases hsplit with ⟨-, rfl, -⟩ | ⟨zs, rfl, hls⟩
    · cases hrn.symm.trans hm
    · refine hkept hls ?_ ⟨n, by simp, by simp [isLayout, hrn, Role.isLayout]⟩
      rw [node_modifyNode, if_neg]
      rintro ⟨rfl, -⟩
      have hs := (List.mem_filter.1 (List.mem_of_head? hs)).2
      rw [hm] at hs
      cases hs
  | idle hidle =>
    rcases hsplit with ⟨-, rfl, -⟩ | ⟨zs, rfl, hls⟩
    · exact absurd rfl (hidle _ hm).1
    · refine hkept hls rfl ⟨n, by simp, ?_⟩
      by_contra hne
      rcases isLayout_iff.1 (Bool.not_eq_false _ ▸ hne) with hi | hd
      · exact (hidle _ hi).2.1 rfl
      · exact (hidle _ hd).2.2 rfl

theorem Sound.behind_eq_nil (h : d.Sound) (hn : d.HasNode n) (hends : ∀ l ∈ d.trail n, l.Ends) :
    d.behind n = [] := by
  refine List.flatMap_eq_nil_iff.2 fun m hm => ?_
  have hmn := (h.linked.index_le_of_mem_lineage hn hm).1
  rw [(h.ends_level_iff hmn).1 (hends _ (List.mem_map_of_mem hm))]
  rfl

theorem Grows.indentation (h : Grows d e) (hd : d.Linked) (he : e.Linked) (hn : d.HasNode n) :
    e.indentation n = d.indentation n := by
  have habove : e.statementsAbove n = d.statementsAbove n := by
    rw [statementsAbove, ancestors, h.lineage hd he hn]
    refine List.filter_congr fun m hm => ?_
    rw [h.role? (hd.index_le_of_mem_lineage hn (List.mem_of_mem_tail hm)).1]
  simp only [Draft.indentation, indentCount, blocks?_congr (h.node_eq hn).2.2.2, habove, h.settings]

/-- A search changes nothing about the lines. -/
theorem Indented.keeps (hi : d.Indented) (h : d.Sound) (hk : Keeps d e) : e.Indented := by
  have hleaves := hk.leaves h
  have hhas : ∀ m ∈ d.leaves, d.HasNode m := fun m hm => hasNode_of_placed (h.mem_leaves.1 hm).1
  have hrole : ∀ m ∈ d.leaves, e.role? m = d.role? m := fun m hm => hk.grows.role? (hhas m hm)
  refine ⟨?_, fun xs n ys heq hn => ?_⟩
  · rw [hleaves]
    refine hi.inLine.congr (fun m hm => ?_) hrole
    rw [loadOf, hk.trail h (hhas m hm), hk.grows.grammar, loadOf]
  · rw [hleaves] at heq
    have hmem : n ∈ d.leaves := by simp [heq]
    rw [hrole n hmem] at hn
    exact (hi.joins xs n ys heq hn).congr (fun y hy => hrole y (by simp [heq, hy]))
      (blocks?_congr (hk.grows.node_eq (hhas n hmem)).2.2.2) (hk.grows.token? (hhas n hmem))
      (hk.grows.indentation h.linked hk.sound.linked (hhas n hmem))

/-- What may come next at the front goes on from the leaf read last. -/
theorem Over.continues {g : Grammar} {limit : Nat} {cursor : Option NodeId} (h : Over g limit d)
    (hg : g.NestsBlocks) (hf : Front g d cursor) (hn : d.HasNode n)
    (hm : MayCome g d cursor (d.trail n)) :
    (cursor = none → d.loadOf n = 1 ∧ d.isLayout n = false) ∧
      ∀ m ∈ cursor, Continues (d.loadOf m) (d.loadOf n) (d.role? m) (d.role? n) := by
  have hl := h.sound.linked
  obtain rfl := h.grammar
  cases cursor with
  | none =>
    obtain ⟨hload, hlay⟩ := Frame.Opening.load hm hg
    rw [hl.leafRole?_trail hn] at hlay
    exact ⟨fun _ => ⟨hload, hlay⟩, fun m hm => by cases hm⟩
  | some c =>
    obtain ⟨hp, hleaf, hend⟩ := hf
    have hc := hasNode_of_placed hp
    refine ⟨fun hnone => (by cases hnone), fun m hmc => ?_⟩
    obtain rfl : c = m := Option.some.inj hmc
    have hcont := hm.continues hg hend.toStanding (hl.nested hc) fun l hl' => by
      rw [hl.trail_eq hc] at hl'
      obtain rfl : d.level c = l := Option.some.inj hl'
      rw [hl.isLeaf_level hc, hleaf]
    rwa [hl.leafRole?_trail hc, hl.leafRole?_trail hn] at hcont

/-- A leaf that is filled behind all others and goes on from them leaves the lines indented. -/
theorem Indented.fills {mid : Draft} (hi : d.Indented) (h : d.Sound)
    (hg : d.grammar.NestsBlocks) (hb : d.Blank) (hn : d.HasNode n) (hp : Puts d n mid)
    (ha : Acts (mid.place n) n f) (hl : f.leaves = d.leaves ++ [n])
    (hfirst : d.leaves = [] → d.loadOf n = 1 ∧ d.isLayout n = false)
    (hnext : ∀ m ∈ d.leaves.getLast?, Continues (d.loadOf m) (d.loadOf n) (d.role? m) (d.role? n)) :
    f.Indented := by
  obtain ⟨hs, hsl⟩ := (hp.fills (.refl _)).sound h hn
  have hhas : ∀ m ∈ d.leaves, d.HasNode m := fun m hm => hasNode_of_placed (h.mem_leaves.1 hm).1
  have hload : ∀ m ∈ d.leaves ++ [n], (mid.place n).loadOf m = d.loadOf m := fun m hm =>
    hsl.load h.linked ((List.mem_append.1 hm).elim (hhas m) fun hmn =>
      List.mem_singleton.1 hmn ▸ hn)
  have hleaves : (mid.place n).leaves = d.leaves ++ [n] := by
    rw [← hl, (retouches_acts ha).leaves]
  refine indented_acts hs (hsl.grammar ▸ hg) hleaves ?_ ?_ (fun xs m ys heq hm => ?_) ha
  · rw [hleaves]
    exact (hi.inLine.concat hfirst hnext).congr hload fun m _ => hsl.role? m
  · rw [hp.note, (hb n hp.gap).1]
  · obtain ⟨p, b, hmoved⟩ := moved_place mid n m
    have hmn : m ≠ n := by
      rintro rfl
      have hplaced := (h.mem_leaves.1 (by simp [heq] : m ∈ d.leaves)).1
      rw [hp.gap] at hplaced
      cases hplaced
    rw [hp.given.node hmn] at hmoved
    rw [hsl.role?] at hm
    exact (hi.joins xs m ys heq hm).of_sameLinks hsl (by rw [hmoved]) (by rw [hmoved])

/-- Filling an offer behind the leaf read last appends it, and the lines stay indented. -/
theorem Over.indents {g : Grammar} {limit : Nat} (h : Over g limit d) (hg : g.NestsBlocks)
    (hf : Front g d d.leaves.getLast?) (hi : d.Indented) {found : List NodeId}
    (ho : offers d.leaves.getLast? d = .ok found e) (hblank : e.Blank) (hn : n ∈ found)
    {value : Option String} (hfill : fillWith n value e = .ok () f) : Keeps d e ∧ SameLinks e f ∧
      f.leaves = d.leaves ++ [n] ∧ f.Indented ∧ Front g f f.leaves.getLast? := by
  obtain ⟨spec, hfinds, hmem, -⟩ := h.finds_front hf
  obtain ⟨hk, ts, hts, hhas, hmap⟩ := Edit.Ensures.of_ok hfinds ho
  have he := h.keeps hk
  have hen := hhas n hn
  obtain ⟨hfe, hcome⟩ := hf.keeps h.sound hk
  have hm := (hcome _).2 ((hmem ts hts _).1 (hmap ▸ List.mem_map_of_mem hn))
  obtain ⟨-, hgap, -, -⟩ := he.offer_of_mayCome hfe hen hm
  obtain ⟨hover, hfront, -⟩ := h.step hf ho hn hfill
  obtain ⟨hfirst, hnext⟩ := he.continues hg hfe hen hm
  rw [← hk.leaves h.sound] at hfirst hnext ⊢
  have hout := fillOutcome_fillWith hen value
  rw [hfill] at hout
  cases hout with
  | already hl hp =>
    rw [hp] at hgap
    cases hgap
  | @filled mid f hp ha =>
    have hleaves : f.leaves = e.leaves ++ [n] := by
      obtain ⟨after, h1, h2⟩ := (hp.fills (retouches_onFill ha)).leaves he.sound hen
      have hbehind := hover.sound.behind_eq_nil (hasNode_of_placed hfront.1) hfront.2.2.ends
      rw [(hover.sound.around_of_leaves h2).2] at hbehind
      rw [h2, h1, hbehind, List.append_nil]
    have hsl := ((hp.fills (retouches_onFill ha)).sound he.sound hen).2
    refine ⟨hk, hsl, hleaves, ?_, by rwa [hleaves, List.getLast?_concat]⟩
    exact (hi.keeps h.sound hk).fills he.sound (he.grammar ▸ hg) hblank hen hp (acts_onFill ha)
      hleaves (fun hnil => hfirst (by rw [hnil]; rfl)) hnext

end Cloze.Draft
