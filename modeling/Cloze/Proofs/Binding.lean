import Cloze.Proofs.Ending
import Cloze.Proofs.Neighbours

/-!
# What an assignment sign binds

An assignment sign looks to the left for a name, from there to the right whether the sign comes
next, and from the name upwards for a statement. The steps are inverse to each other, so the look to
the right always comes back to the sign (`Sound.steps_back`), and the leaf right before the sign
decides alone (`Sound.fillAssign_eq`): a name in a statement is bound in the nearest one, and behind
anything else the sign is refused and nothing is bound.
-/

namespace Cloze.Draft

open Edit

variable {d e mid : Draft} {a n p s : NodeId} {value : Option String} {g : Grammar}

/-! ### Leaves that are placed with a token -/

/-- A leaf that may be placed and suits is placed, and then its role decides how the call ends. -/
theorem Suits.puts (hv : d.Suits n value) (h : d.Sound) (hn : d.HasNode n) (hl : d.isLeaf n = true)
    (hp : (d.node n).placed = false) (hc : d.checkPlace n = .ok ()) :
    ∃ mid, Puts d n mid ∧ fillWith n value d = match (mid.place n).onFill n with
      | .ok e => .ok () e
      | .error r => .error r (mid.place n) := by
  have hf := Fills.after_fillWith hn hl hp hc hv
  have hout := fillOutcome_fillWith hn value
  have hplaced : ((after (fillWith n value) d).node n).placed = true :=
    ((hf.sound h hn).1.mem_leaves.1 (hf.mem_leaves h hn).1).1
  rw [after] at hplaced
  generalize fillWith n value d = result at hout hplaced ⊢
  cases hout with
  | refused => simp [hp] at hplaced
  | already _ hp' => simp [hp] at hp'
  | filled hputs ha => exact ⟨_, hputs, by rw [ha]⟩
  | stuck hputs ha => exact ⟨_, hputs, by rw [ha]⟩

theorem Puts.fitting (hp : Puts d n mid) (hf : d.Fitting) (h : d.Sound) (hn : d.HasNode n) :
    (mid.place n).Fitting := fun m note hm => by
  rw [((hp.fills (.refl _)).sound h hn).2.role?]
  exact hf m note ((hp.note m).symm.trans hm)

/-! ### The sign -/

/-- A step to the right undoes a step to the left. -/
theorem Sound.steps_back (h : d.Sound) {xs ys : List NodeId} (hxs : d.leaves = xs ++ a :: ys)
    (hp : xs.getLast? = some p) : d.leafBefore a = some p ∧ d.leafAfter p = some a := by
  obtain ⟨init, rfl⟩ := List.getLast?_eq_some_iff.1 hp
  have hhas : ∀ m ∈ d.leaves, d.HasNode m := fun m hm => hasNode_of_placed (h.mem_leaves.1 hm).1
  have hxs' : d.leaves = init ++ p :: a :: ys := by simpa using hxs
  constructor
  · rw [h.leafBefore_eq (hhas a (by simp [hxs])), (h.around_of_leaves hxs).1, hp]
  · rw [h.leafAfter_eq (hhas p (by simp [hxs])), (h.around_of_leaves hxs').2]
    rfl

theorem bindIn_of_fitting (hf : d.Fitting) (hs : d.role? s = some .statement)
    (name : Option String) : d.bindIn s name
      = .ok (d.modifyNode s fun node => { node with note := some (.statement name) }) := by
  rcases hnote : (d.node s).note with _ | note
  · simp only [bindIn, hs, hnote]
  · have hrole := hf s note hnote
    rw [hs, Option.some.injEq] at hrole
    cases note with
    | newline b => cases hrole
    | statement name => simp only [bindIn, hs, hnote]

/-- What a sign does is decided by the leaf right before it. -/
theorem Sound.fillAssign_eq (h : d.Sound) (hf : d.Fitting) (ha : d.role? a = some .assign)
    {xs ys : List NodeId} (hxs : d.leaves = xs ++ a :: ys) :
    d.fillAssign a = match xs.getLast?.filter fun p => d.role? p == some .name with
      | none => .error (.missingContext a .assign .nameBefore)
      | some p => match (d.statementsAbove p).head? with
        | none => .error (.missingContext a .assign .statementAboveName)
        | some s => .ok (d.modifyNode s fun node =>
            { node with note := some (.statement (d.token? p)) }) := by
  have hleft : d.leafBefore a = xs.getLast? := by
    have hhas := hasNode_of_placed (h.mem_leaves.1 (by simp [hxs] : a ∈ d.leaves)).1
    rw [h.leafBefore_eq hhas, (h.around_of_leaves hxs).1]
  rw [fillAssign, hleft]
  rcases hname : xs.getLast?.filter fun p => d.role? p == some .name with _ | p
  · rfl
  · obtain ⟨hlast, -⟩ := Option.filter_eq_some_iff.1 hname
    have hback : (d.leafAfter p).map d.role? = some (some .assign) := by
      rw [(h.steps_back hxs hlast).2, Option.map_some, ha]
    simp only [hback, bne_self_eq_false, Bool.false_eq_true, if_false]
    rcases hs : (d.statementsAbove p).head? with _ | s
    · rfl
    · exact bindIn_of_fitting hf (role?_of_statementsAbove hs) _

/-- The leaf is a name, and the statement is the nearest one above it. -/
@[mk_iff]
structure Named (d : Draft) (p s : NodeId) : Prop where
  name : d.role? p = some .name
  statement : (d.statementsAbove p).head? = some s

/-- What becomes of notes when a sign is filled behind the leaves `xs`. -/
theorem Sound.onFill_assign (h : d.Sound) (hf : d.Fitting) (ha : d.role? a = some .assign)
    {xs ys : List NodeId} (hxs : d.leaves = xs ++ a :: ys) :
    (∃ p s, xs.getLast? = some p ∧ Named d p s ∧
      d.onFill a = .ok (d.modifyNode s fun node =>
        { node with note := some (.statement (d.token? p)) })) ∨
    (¬ ∃ p s, xs.getLast? = some p ∧ Named d p s) ∧
      ∃ missing, d.onFill a = .error (.missingContext a .assign missing) := by
  have heq : d.onFill a = d.fillAssign a := by simp only [onFill, ha]
  rw [heq, h.fillAssign_eq hf ha hxs]
  rcases hname : xs.getLast?.filter fun p => d.role? p == some .name with _ | p
  · refine Or.inr ⟨?_, _, rfl⟩
    rintro ⟨p, s, hlast, hnamed⟩
    rw [hlast, Option.filter_some, if_pos (by simpa using hnamed.name)] at hname
    cases hname
  · obtain ⟨hlast, hp⟩ := Option.filter_eq_some_iff.1 hname
    dsimp only
    rcases hs : (d.statementsAbove p).head? with _ | s
    · refine Or.inr ⟨?_, _, rfl⟩
      rintro ⟨p', s, hlast', hnamed⟩
      cases hlast.symm.trans hlast'
      cases hs.symm.trans hnamed.statement
    · exact Or.inl ⟨p, s, hlast, ⟨by simpa using hp, hs⟩, rfl⟩

theorem SameLinks.named (h : SameLinks d e) : Named e p s ↔ Named d p s := by
  simp only [named_iff, statementsAbove, ancestors, h.role?, h.lineage]

theorem Named.hasNode (hnamed : Named d p s) (h : d.Linked) (hp : d.HasNode p) : d.HasNode s := by
  have hmem := List.mem_of_head? hnamed.statement
  rw [statementsAbove, List.mem_filter, ancestors] at hmem
  exact (h.index_le_of_mem_lineage hp (List.mem_of_mem_tail hmem.1)).1

/-- Binding a name in a statement writes on no other node, and no token. -/
theorem Named.binds (hnamed : Named d p s) (h : d.Linked) (hp : d.HasNode p)
    (he : e = d.modifyNode s fun node => { node with note := some (.statement (d.token? p)) }) :
    e.binding? s = e.token? p ∧ ∀ m, m ≠ s → (e.node m).note = (d.node m).note := by
  subst he
  have hr := retouches_note d s (some (.statement (d.token? p)))
  refine ⟨?_, fun m hm => ?_⟩
  · rw [binding?, node_modifyNode, if_pos ⟨rfl, hnamed.hasNode h hp⟩]
    refine (token?_congr (hr.links.symbol p) ?_).symm
    rw [node_modifyNode]
    split <;> rfl
  · rw [node_modifyNode, if_neg fun hsm => hm hsm.1.symm]

/-- An assignment sign binds exactly the name that is the leaf right before it, in the nearest
statement above the name; behind anything else it is refused and nothing is bound. When the sign,
with its token in `mid`, has just been placed, the step to the right from the leaf before it leads
back to it. -/
theorem sign_binds_name_before {definition : Grammar.Definition} (hg : definition.build = .ok g)
    (h : Reached g d) (hn : d.HasNode a) (hl : d.isLeaf a = true) (hr : d.role? a = some .assign)
    (hp : d.isPlaced a = false) (hc : d.checkPlace a = .ok ()) (hv : d.Suits a value) :
    ∃ (e mid : Draft) (xs ys : List NodeId),
      after (fillWith a value) d = e ∧ e.leaves = xs ++ a :: ys ∧
      (Given d a mid ∧ fillWith a value d = (match (mid.place a).onFill a with
        | .ok e => .ok () e
        | .error r => .error r (mid.place a)) ∧
        ∀ p, xs.getLast? = some p →
          (mid.place a).leafBefore a = some p ∧ (mid.place a).leafAfter p = some a) ∧
      (fillWith a value d = .ok () e ↔ ∃ p s, xs.getLast? = some p ∧ Named e p s) ∧
      (∀ p s, xs.getLast? = some p → Named e p s →
        (∃ t, e.token? p = some t ∧ e.binding? s = some t) ∧
        ∀ m, m ≠ s → (e.node m).note = (d.node m).note) ∧
      ((¬ ∃ p s, xs.getLast? = some p ∧ Named e p s) →
        (∃ missing, fillWith a value d = .error (.missingContext a .assign missing) e) ∧
        ∀ m, (e.node m).note = (d.node m).note) := by
  have hwf := Grammar.Definition.wellFormed_build hg
  have hs := (h.sound hwf).1
  obtain ⟨mid, hputs, hcall⟩ := hv.puts hs hn hl hp hc
  have hf := hputs.fills (.refl _)
  obtain ⟨hps, hlinks⟩ := hf.sound hs hn
  have hxs := hf.leaves_eq hs hn
  have hworded : ∀ e, fillWith a value d = .ok () e → Worded e := fun e he => by
    have hafter := (h.call (c := .fillWith a value) hn).worded hwf
    rwa [Call.after, after, he] at hafter
  have hafter := (Fills.after_fillWith hn hl hp hc hv).leaves_eq hs hn
  refine ⟨_, mid, d.before a, d.behind a, rfl, hafter,
    ⟨hputs.given, hcall, fun p => hps.steps_back hxs⟩, ?_⟩
  have hfit := hputs.fitting (h.fitting hwf) hs hn
  rcases hps.onFill_assign hfit ((hlinks.role? a).trans hr) hxs with
    ⟨p, s, hlast, hnamed, hon⟩ | ⟨hno, missing, hon⟩
  · rw [hon] at hcall
    have hr := retouches_note (mid.place a) s (some (.statement ((mid.place a).token? p)))
    have hp : p ∈ (mid.place a).leaves := by
      rw [hxs]
      exact List.mem_append_left _ (List.mem_of_getLast? hlast)
    obtain ⟨hbinding, hother⟩ :=
      hnamed.binds hps.linked (hasNode_of_placed (hps.mem_leaves.1 hp).1) rfl
    rw [after, hcall]
    refine ⟨iff_of_true rfl ⟨p, s, hlast, hr.links.named.2 hnamed⟩, fun p' s' hlast' hnamed' => ?_,
      fun hno => absurd ⟨p, s, hlast, hr.links.named.2 hnamed⟩ hno⟩
    obtain rfl := Option.some.inj (hlast.symm.trans hlast')
    obtain rfl := Option.some.inj
      (hnamed.statement.symm.trans (hr.links.named.1 hnamed').statement)
    obtain ⟨t, ht⟩ := Option.isSome_iff_exists.1 ((hworded _ hcall).filled p (by rwa [hr.leaves]))
    exact ⟨⟨t, ht, hbinding.trans ht⟩, fun m hm => (hother m hm).trans (hputs.note m)⟩
  · rw [hon] at hcall
    rw [after, hcall]
    exact ⟨iff_of_false (by simp) hno, fun p s hlast hnamed => absurd ⟨p, s, hlast, hnamed⟩ hno,
      fun _ => ⟨⟨missing, rfl⟩, hputs.note⟩⟩

/-- Lines that bind a name to a value. -/
def bindings : Grammar.Definition where
  rules := [("program", [[.rule "line" .star]]),
    ("line", [[.category "name" .once, .literal "=" .once, .category "value" .once]])]
  roles := [("line", .statement), ("name", .name), ("=", .assign)]

def bindingGrammar : Grammar := bindings.build.toOption.getD default

/-- The name `x` in a line, and behind it the gap for a sign. -/
def nameInLine : Draft :=
  [Call.offers none, .fillWith ⟨1⟩ (some "x"), .offers (some ⟨1⟩)].foldl (fun d c => c.after d)
    (Draft.start bindingGrammar {} [])

/-- The sign binds `x` in its line. -/
theorem sign_binds_x : ∃ e, fillWith ⟨2⟩ none nameInLine = .ok () e ∧ e.leaves = [⟨1⟩, ⟨2⟩] ∧
    nameInLine.binding? ⟨0⟩ = none ∧ e.binding? ⟨0⟩ = some "x" := by
  have hsuits : (nameInLine.token? ⟨2⟩).isSome → nameInLine.Suits ⟨2⟩ none := Or.inl
  have hsign : nameInLine.HasNode ⟨2⟩ ∧ nameInLine.isLeaf ⟨2⟩ = true ∧
      nameInLine.role? ⟨2⟩ = some .assign ∧ nameInLine.isPlaced ⟨2⟩ = false ∧
      nameInLine.checkPlace ⟨2⟩ = .ok () ∧ (nameInLine.token? ⟨2⟩).isSome := by
    decide +kernel
  have hrun : (after (fillWith ⟨2⟩ none) nameInLine).leaves = [⟨1⟩, ⟨2⟩] ∧
      (after (fillWith ⟨2⟩ none) nameInLine).role? ⟨1⟩ = some .name ∧
      ((after (fillWith ⟨2⟩ none) nameInLine).statementsAbove ⟨1⟩).head? = some ⟨0⟩ ∧
      (after (fillWith ⟨2⟩ none) nameInLine).token? ⟨1⟩ = some "x" ∧
      nameInLine.binding? ⟨0⟩ = none := by
    decide +kernel
  obtain ⟨hn, hl, hr, hp, hc, ht⟩ := hsign
  obtain ⟨hleaves, hname, hstatement, htoken, hnone⟩ := hrun
  have hnamed : Named (after (fillWith ⟨2⟩ none) nameInLine) ⟨1⟩ ⟨0⟩ := ⟨hname, hstatement⟩
  have hreached : Reached bindingGrammar nameInLine := (Reached.start {}).foldl (by decide +kernel)
  obtain ⟨_, -, xs, ys, rfl, hxs, -, hok, hbinds, -⟩ := sign_binds_name_before
    (Grammar.Definition.build_eq_ok (by decide +kernel)) hreached hn hl hr hp hc (hsuits ht)
  have hlast : xs.getLast? = some ⟨1⟩ := by
    rw [hleaves] at hxs
    rcases xs with _ | ⟨x, _ | ⟨y, xs⟩⟩ <;> simp_all
  obtain ⟨⟨t, ht, hb⟩, -⟩ := hbinds ⟨1⟩ ⟨0⟩ hlast hnamed
  exact ⟨_, hok.2 ⟨_, _, hlast, hnamed⟩, hleaves, hnone, hb.trans (ht.symm.trans htoken)⟩

end Cloze.Draft
