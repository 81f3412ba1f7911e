import Cloze.Proofs.Walking
import Cloze.View.Diagram
import Cloze.View.Outline

/-!
# Views of one tree

The outline and the diagram of a draft, its list of leaves and the walk from leaf to leaf go through
the draft in ways of their own. They all show what is placed, in preorder: the outline has a line
(`View.Outlined`) and the diagram a vertex and an edge (`Diagram.vertex`, `Diagram.edge`) for each
placed node, and the leaves are those that the diagram fills (`views_agree`). What a line says of its
node is told by rules for captions, signs, labels and clipped texts, apart from how these are made.
-/

namespace Cloze.View

open Draft

variable {d : Draft} {n m : NodeId}

/-! ### Lines of an outline -/

/-- The text that a kind of symbol is shown as. -/
inductive Captioned (g : Grammar) : Grammar.Kind → String → Prop where
  | literal (text : String) : Captioned g (.literal text) text
  | category (name : String) : Captioned g (.category name) name
  | rule (r : Grammar.RuleId) : Captioned g (.rule r) (g.rule r).name
  | group (body : Grammar.ChoiceId) : Captioned g (.group body) "(...)"
  | option (body : Grammar.ChoiceId) : Captioned g (.option body) "[...]"

/-- The sign of a kind of symbol. -/
inductive KindSigned : Grammar.Kind → String → Prop where
  | literal (text : String) : KindSigned (.literal text) "◦"
  | category (name : String) : KindSigned (.category name) "▪"
  | rule (r : Grammar.RuleId) : KindSigned (.rule r) "§"
  | group (body : Grammar.ChoiceId) : KindSigned (.group body) "◇"
  | option (body : Grammar.ChoiceId) : KindSigned (.option body) "□"

/-- The sign of a node. Newlines and the ends of blocks have signs of their own. -/
inductive Signed : Option Role → Grammar.Kind → String → Prop where
  | newline (kind : Grammar.Kind) : Signed (some .newline) kind "↵"
  | indent (kind : Grammar.Kind) : Signed (some .indent) kind "→"
  | dedent (kind : Grammar.Kind) : Signed (some .dedent) kind "←"
  | kind {role : Option Role} {kind : Grammar.Kind} {sign : String} (hn : role ≠ some .newline)
    (hi : role ≠ some .indent) (hd : role ≠ some .dedent) (hs : KindSigned kind sign) :
    Signed role kind sign

/-- What a node is called. The value of a category is told, unless there is nothing to be seen of
it. -/
inductive Labelled (d : Draft) (n : NodeId) : String → Prop where
  | valued {category token : String} (hk : (d.symbol n).kind = .category category)
    (hb : (d.node n).body = .leaf (some token)) (hw : ∃ c ∈ token.toList, Text.isWhite c = false) :
    Labelled d n (category ++ " " ++ token)
  | plain {text : String} (hw : ∀ category token, (d.symbol n).kind = .category category →
      (d.node n).body = .leaf (some token) → ∀ c ∈ token.toList, Text.isWhite c = true)
    (hc : Captioned d.grammar (d.symbol n).kind text) : Labelled d n text

/-- Dots stand for what is beyond the limit. -/
inductive Clipped (limit : Nat) : String → String → Prop where
  | whole {text : String} (hle : text.length ≤ limit) : Clipped limit text text
  | cut {start rest : String} (hs : start.length = limit) (hr : rest ≠ "") :
    Clipped limit (start ++ rest) (start ++ "...")

theorem captioned_symbolText (g : Grammar) (s : Grammar.SymbolId) :
    Captioned g (g.symbol s).kind (g.symbolText s) := by
  unfold Grammar.symbolText
  cases (g.symbol s).kind with
  | literal text => exact .literal text
  | category name => exact .category name
  | rule r => exact .rule r
  | group body => exact .group body
  | option body => exact .option body

theorem signed_sign (d : Draft) (n : NodeId) :
    Signed (d.role? n) (d.symbol n).kind (sign d n) := by
  unfold sign
  generalize d.role? n = role
  generalize (d.symbol n).kind = kind
  split
  · exact .newline _
  · exact .indent _
  · exact .dedent _
  all_goals exact .kind ‹_› ‹_› ‹_› (by constructor)

theorem category?_eq_some {category : String} :
    d.category? n = some category ↔ (d.symbol n).kind = .category category := by
  unfold Draft.category? Grammar.Symbol.category?
  split <;> simp_all

theorem token?_of_category {category : String} (hk : (d.symbol n).kind = .category category)
    {token : String} : d.token? n = some token ↔ (d.node n).body = .leaf (some token) := by
  unfold Draft.token? Draft.literal? Grammar.Symbol.literal?
  rw [hk]
  dsimp only
  split <;> simp_all

theorem labelled_label (d : Draft) (n : NodeId) : Labelled d n (label d n) := by
  have hcaption := captioned_symbolText d.grammar (d.node n).symbol
  unfold label
  split
  · next category token hc ht =>
    have hk := category?_eq_some.1 hc
    have hb := (token?_of_category hk).1 ht
    split
    · next hw =>
      refine .plain (fun _ token' _ hb' => ?_) hcaption
      rw [hb] at hb'
      cases hb'
      simpa [Text.allWhite] using hw
    · next hw =>
      have hseen : ∃ c ∈ token.toList, Text.isWhite c = false := by simpa [Text.allWhite] using hw
      exact .valued hk hb hseen
  · next hnone =>
    refine .plain (fun category token hk hb => ?_) hcaption
    exact (hnone category token (category?_eq_some.2 hk) ((token?_of_category hk).2 hb)).elim

theorem clipped_shorten (limit : Nat) (text : String) : Clipped limit text (shorten limit text) := by
  unfold shorten
  dsimp only
  split
  · next hlt =>
    have hsplit : text = String.ofList (text.toList.take limit)
        ++ String.ofList (text.toList.drop limit) := by
      rw [← String.ofList_append, List.take_append_drop, String.ofList_toList]
    conv => arg 2; rw [hsplit]
    refine .cut ?_ ?_
    · rw [String.length_ofList, List.length_take]
      omega
    · intro hrest
      have hlen := congrArg String.length hrest
      rw [String.length_ofList, List.length_drop] at hlen
      exact absurd hlen (Nat.sub_ne_zero_of_lt hlt)
  · next hle =>
    refine .whole ?_
    rw [← String.length_toList]
    omega

/-! ### Outlines -/

/-- The nodes that have the same holder, with the node itself. -/
def siblings (d : Draft) (n : NodeId) : List NodeId :=
  match d.holder? n with
  | none => d.top
  | some m => d.children m

def isLast (d : Draft) (n : NodeId) : Bool :=
  (siblings d n).getLast? == some n

/-- What is drawn below a node, to the left of what is under it. -/
def stroke (d : Draft) (n : NodeId) : String :=
  if isLast d n then "  " else "│ "

/-- What stands before the connector of a node. -/
def margin (d : Draft) (n : NodeId) : String :=
  String.join ((d.ancestors n).reverse.map (stroke d))

def connector (d : Draft) (n : NodeId) : String :=
  if isLast d n then "└─" else "├─"

/-- A line of the outline for a node. -/
inductive Outlined (d : Draft) (n : NodeId) : String → Prop where
  | line {sign label text : String} (hs : Signed (d.role? n) (d.symbol n).kind sign)
    (hl : Labelled d n label) (hc : Clipped 30 label text) :
    Outlined d n s!"{margin d n}{connector d n} {sign} {text}"

/-- The line of the outline for a node. -/
def line (d : Draft) (n : NodeId) : String :=
  s!"{margin d n}{connector d n} {sign d n} {shorten 30 (label d n)}"

theorem outlined_line (d : Draft) (n : NodeId) : Outlined d n (line d n) :=
  .line (signed_sign d n) (labelled_label d n) (clipped_shorten 30 (label d n))

theorem length_stroke (d : Draft) (n : NodeId) : (stroke d n).length = 2 := by
  unfold stroke
  split <;> rfl

theorem length_join {α : Type} {f : α → String} {k : Nat} (hf : ∀ x, (f x).length = k) :
    ∀ xs : List α, (String.join (xs.map f)).length = k * xs.length
  | [] => rfl
  | x :: xs => by
    rw [List.map_cons, String.join_cons, String.length_append, hf, length_join hf xs,
      List.length_cons, Nat.mul_succ, Nat.add_comm]

/-- Two characters for each level. -/
theorem length_margin (d : Draft) (n : NodeId) :
    (margin d n).length = 2 * (d.ancestors n).length := by
  rw [margin, length_join (length_stroke d), List.length_reverse]

theorem margin_of_top (hm : d.holder? n = none) : margin d n = "" := by
  rw [margin, ancestors, lineage_of_top hm]
  rfl

theorem margin_of_holder (h : d.Linked) (hn : d.HasNode n) (hm : d.holder? n = some m) :
    margin d n = margin d m ++ stroke d m := by
  obtain ⟨rest, hrest⟩ := d.exists_lineage_eq_cons m
  rw [margin, margin, ancestors, ancestors, h.lineage_of_holder hn hm, hrest]
  simp [String.join_append, String.join_cons]

/-- The last entry of a list is told by what follows it. -/
theorem outlineEach_eq {inside : Bool → NodeId → List String} : ∀ {ns : List NodeId}, ns.Nodup →
    outlineEach inside ns = ns.flatMap fun n => inside (ns.getLast? == some n) n
  | [], _ => rfl
  | n :: ns, hn => by
    obtain ⟨hmem, hns⟩ := List.nodup_cons.1 hn
    rw [outlineEach, outlineEach_eq hns, List.flatMap_cons]
    rcases ns with _ | ⟨m, ns⟩
    · simp
    · have hlast : ((n :: m :: ns).getLast? == some n) = false := by
        rw [List.getLast?_cons_cons, beq_eq_false_iff_ne]
        exact fun heq => hmem (List.mem_of_getLast? heq)
      rw [hlast]
      rfl

/-- Steps down and to the right find what is placed under a node. -/
theorem rowUnder_eq (h : d.Sound) (n : NodeId) : rowUnder d n = d.children n := by
  rw [rowUnder, firstChild]
  rcases hm : d.children n with _ | ⟨m, ms⟩
  · rfl
  · rcases hc : d.inner? n with _ | c
    · rw [children, hc] at hm
      cases hm
    · have hread : d.contentOf c = m :: ms := by rwa [children, hc] at hm
      exact (h.walk_right hread).trans hread

theorem outlineWithin_eq (h : d.Sound) : ∀ {bound : Nat} {n : NodeId}, (d.node n).placed = true →
    d.nodes.size ≤ n.index + bound →
    outlineWithin d bound (margin d n) (isLast d n) n = (d.subtree n).map (line d)
  | 0, n, hp, hb => absurd (hasNode_of_placed hp) (Nat.not_lt.2 hb)
  | bound + 1, n, hp, hb => by
    have hn := hasNode_of_placed hp
    rw [outlineWithin, h.subtree_eq hn, List.map_cons, List.map_flatMap, rowUnder_eq h,
      outlineEach_eq (h.nodup_children n)]
    refine congrArg (line d n :: ·) (List.flatMap_congr fun m hm => ?_)
    obtain ⟨hpm, hh⟩ := (h.settled.mem_children h.linked hn).1 hm
    obtain ⟨hmn, hlt⟩ := h.index_lt_of_mem_children hn hm
    have hlast : ((d.children n).getLast? == some m) = isLast d m := by rw [isLast, siblings, hh]
    rw [hlast]
    have hb' : d.nodes.size ≤ m.index + bound := by omega
    have ih := outlineWithin_eq h hpm hb'
    rwa [margin_of_holder h.linked hmn hh] at ih

/-- The outline has a line for each placed node, in preorder. -/
theorem outlineLines_eq (h : d.Sound) :
    outlineLines d = s!"⧉ {shorten 30 d.rootName}" :: d.preorder.map (line d) := by
  rw [outlineLines, top, outlineEach_eq (h.nodup_contentOf _), preorder, List.map_flatMap]
  refine congrArg (_ :: ·) (List.flatMap_congr fun n hn => ?_)
  obtain ⟨hp, hc⟩ := (h.settled.mem_contentOf h.linked).1 hn
  have htop : d.holder? n = none := by
    rw [holder?, hc]
    exact h.linked.root_holder
  have hlast : ((d.contentOf ⟨0⟩).getLast? == some n) = isLast d n := by
    rw [isLast, siblings, htop, top]
  rw [hlast, ← margin_of_top htop]
  exact outlineWithin_eq h hp (Nat.le_add_left ..)

end Cloze.View

namespace Cloze.Diagram

open Draft

variable {d : Draft} {n : NodeId}

/-! ### Diagrams -/

/-- The number of a node's vertex; none stands for the root. -/
def number (d : Draft) : Option NodeId → Nat
  | none => 0
  | some n => d.preorder.idxOf n + 1

def rootVertex (d : Draft) : Vertex where
  id := 0
  look := { label := d.rootName, shape := "oval", color := "black", fill := none }

/-- The vertex of a placed node: a box, blue for a reference to a rule and filled for a leaf. -/
def vertex (d : Draft) (n : NodeId) : Vertex where
  id := number d (some n)
  look := {
    label := d.caption n
    shape := "box"
    color := match (d.symbol n).kind with
      | .rule _ => "blue"
      | .literal _ | .category _ | .group _ | .option _ => "black"
    fill := if d.isLeaf n then some "orange" else none }

/-- The edge that leads to a node. -/
def edge (d : Draft) (n : NodeId) : Edge :=
  ⟨number d (d.holder? n), number d (some n), .solid⟩

/-- A diagram with nodes of the draft added. -/
def withNodes (d : Draft) (ns : List NodeId) (g : Diagram) : Diagram :=
  { g with
    vertices := g.vertices ++ (ns.map (vertex d)).toArray
    edges := g.edges ++ (ns.map (edge d)).toArray }

@[simp] theorem withNodes_nil (g : Diagram) : withNodes d [] g = g := by
  simp [withNodes]

theorem withNodes_append (xs ys : List NodeId) (g : Diagram) :
    withNodes d (xs ++ ys) g = withNodes d ys (withNodes d xs g) := by
  simp [withNodes]

theorem size_withNodes (ns : List NodeId) (g : Diagram) :
    (withNodes d ns g).vertices.size = g.vertices.size + ns.length := by
  simp [withNodes]

/-- Sketches are drawn one behind the other. -/
theorem drawAll_sketches {f : NodeId → Sketch} {parent : Nat} : ∀ (ns xs ys : List NodeId)
    (g : Diagram), d.preorder = xs ++ ns.flatMap d.subtree ++ ys → g.vertices.size = xs.length + 1 →
    (∀ n ∈ ns, ∀ xs ys g, d.preorder = xs ++ d.subtree n ++ ys → g.vertices.size = xs.length + 1 →
      draw parent (f n) g = withNodes d (d.subtree n) g) →
    drawAll parent (ns.map f) g = withNodes d (ns.flatMap d.subtree) g
  | [], _, _, _, _, _, _ => by simp [drawAll]
  | n :: ns, xs, ys, g, hread, hsize, hdraw => by
    obtain ⟨hn, hns⟩ := List.forall_mem_cons.1 hdraw
    rw [List.flatMap_cons] at hread ⊢
    rw [List.map_cons, drawAll, withNodes_append,
      hn xs (ns.flatMap d.subtree ++ ys) g (by simpa using hread) hsize]
    refine drawAll_sketches ns (xs ++ d.subtree n) ys _ (by simpa using hread) ?_ hns
    rw [size_withNodes, hsize, List.length_append]
    omega

/-- The vertices of the nodes come in preorder behind that of the root. -/
theorem number_of_preorder (h : d.Sound) {xs ys : List NodeId} (hread : d.preorder = xs ++ n :: ys) :
    number d (some n) = xs.length + 1 := by
  have hnodup := h.nodup_preorder
  rw [hread] at hnodup
  have hmem : n ∉ xs := fun hmem => (List.nodup_append.1 hnodup).2.2 n hmem n (by simp) rfl
  rw [number, hread, List.idxOf_append_of_notMem hmem, List.idxOf_cons_self, Nat.add_zero]

/-- Placed nodes look as their vertices do. -/
theorem lookOf_eq (hp : (d.node n).placed = true) : lookOf d n = (vertex d n).look := by
  unfold lookOf vertex Grammar.Symbol.isReference isPlaced
  rw [hp, Bool.true_and]
  cases (d.symbol n).kind <;> rfl

theorem draw_sketchPlaced (h : d.Sound) : ∀ {bound : Nat} {n : NodeId}, (d.node n).placed = true →
    d.nodes.size ≤ n.index + bound → ∀ xs ys g, d.preorder = xs ++ d.subtree n ++ ys →
      g.vertices.size = xs.length + 1 →
      draw (number d (d.holder? n)) (sketchPlaced d bound n) g = withNodes d (d.subtree n) g
  | 0, n, hp, hb => absurd (hasNode_of_placed hp) (Nat.not_lt.2 hb)
  | bound + 1, n, hp, hb => by
    intro xs ys g hread hsize
    have hn := hasNode_of_placed hp
    rw [h.subtree_eq hn] at hread ⊢
    have hnumber : number d (some n) = g.vertices.size := by
      rw [hsize]
      exact number_of_preorder h (by simpa using hread)
    have hadd : (g.addVertex (lookOf d n)).addEdge (number d (d.holder? n)) g.vertices.size
        (.solidIf (d.isPlaced n)) = withNodes d [n] g := by
      rw [lookOf_eq hp]
      simp [addVertex, addEdge, withNodes, vertex, edge, hnumber, isPlaced, hp, Style.solidIf]
    rw [← List.singleton_append, withNodes_append, sketchPlaced, draw, hadd, ← hnumber]
    refine drawAll_sketches (d.children n) (xs ++ [n]) ys _ (by simpa using hread) ?_ fun m hm => ?_
    · simp [withNodes, hsize]
    · obtain ⟨hpm, hh⟩ := (h.settled.mem_children h.linked hn).1 hm
      have hlt := (h.index_lt_of_mem_children hn hm).2
      rw [← hh]
      exact draw_sketchPlaced h hpm (by omega)

/-- The diagram of the placed nodes has a vertex and an edge for each of them, in preorder. -/
theorem placedOf_eq (h : d.Sound) : placedOf d =
    { label := d.rootName
      vertices := (rootVertex d :: d.preorder.map (vertex d)).toArray
      edges := (d.preorder.map (edge d)).toArray } := by
  have hdraw : placedOf d = withNodes d d.preorder
      (addVertex { label := d.rootName } { label := d.rootName }) := by
    refine drawAll_sketches d.top [] [] _ (by simp [preorder]) rfl fun n hn => ?_
    obtain ⟨hp, hc⟩ := (h.settled.mem_contentOf h.linked).1 hn
    have htop : d.holder? n = none := by
      rw [holder?, hc]
      exact h.linked.root_holder
    have hparent : number d (d.holder? n) = 0 := by rw [htop, number]
    rw [← hparent]
    exact draw_sketchPlaced h hp (Nat.le_add_left ..)
  rw [hdraw]
  simp [withNodes, addVertex, rootVertex]

/-- The filled vertices are those of the leaves, in the same order. -/
theorem filled_placedOf (h : d.Sound) :
    ((placedOf d).vertices.toList.filter fun v => v.look.fill == some "orange")
      = d.leaves.map (vertex d) := by
  rw [placedOf_eq h, leaves_eq_filter, List.filter_cons, List.filter_map]
  refine congrArg (List.map (vertex d)) (List.filter_congr fun n _ => ?_)
  cases hl : d.isLeaf n <;> simp [vertex, hl]

end Cloze.Diagram

namespace Cloze.Draft

variable {d : Draft} {g : Grammar}

/-- What the views of a draft show. -/
structure ViewsAgree (d : Draft) : Prop where
  /-- A node is listed before those under it, and these in reading order. -/
  order : d.preorder = d.top.flatMap d.subtree ∧
    ∀ n, d.isPlaced n = true → d.subtree n = n :: (d.children n).flatMap d.subtree
  /-- Each placed node is listed once, and no gap is. -/
  once : d.preorder.Nodup ∧ ∀ n, n ∈ d.preorder ↔ d.isPlaced n = true
  caption : ∀ n, View.Captioned d.grammar (d.symbol n).kind (d.caption n)
  rootName : d.rootName = (d.grammar.rule d.grammar.start).name
  /-- The outline has a line for the root and one for each node that is listed. -/
  outline : ∃ title lines, View.Clipped 30 d.rootName title ∧
    List.Forall₂ (View.Outlined d) d.preorder lines ∧
    View.outline d = String.join ((s!"⧉ {title}" :: lines).map (· ++ "\n"))
  margin : ∀ n, (View.margin d n).length = 2 * (d.ancestors n).length
  /-- The diagram has a vertex for the root and one for each node that is listed, and a solid edge
  to each of these from the vertex of its holder. -/
  diagram : Diagram.placedOf d =
    { label := d.rootName
      vertices := (Diagram.rootVertex d :: d.preorder.map (Diagram.vertex d)).toArray
      edges := (d.preorder.map (Diagram.edge d)).toArray }
  /-- The vertices of the leaves are filled. -/
  filled : ((Diagram.placedOf d).vertices.toList.filter fun v => v.look.fill == some "orange")
    = d.leaves.map (Diagram.vertex d)
  /-- Steps from the first leaf on lead to every leaf. -/
  walk : ∀ n, d.leaves.head? = some n → n :: d.walk n .leafAfter = d.leaves

/-- All views of a draft show the same tree. -/
theorem views_agree {definition : Grammar.Definition} (hg : definition.build = .ok g)
    (h : Reached g d) : d.ViewsAgree := by
  have hs := (h.sound (Grammar.Definition.wellFormed_build hg)).1
  exact {
    order := ⟨rfl, fun n hp => hs.subtree_eq (hasNode_of_placed hp)⟩
    once := ⟨hs.nodup_preorder, fun n => hs.mem_preorder⟩
    caption := fun n => View.captioned_symbolText d.grammar (d.node n).symbol
    rootName := by rw [rootName, hs.linked.root_rule]
    outline := ⟨_, _, View.clipped_shorten 30 d.rootName,
      List.forall₂_map_right_iff.2 (List.forall₂_same.2 fun n _ => View.outlined_line d n),
      by rw [View.outline, View.outlineLines_eq hs]⟩
    margin := View.length_margin d
    diagram := Diagram.placedOf_eq hs
    filled := Diagram.filled_placedOf hs
    walk := fun n hn => hs.walk_from_first hn }

/-- The option of a list with an item in it stands between the brackets. -/
theorem views_agree_oneItem : oneItem.ViewsAgree ∧
    oneItem.preorder = [⟨0⟩, ⟨1⟩, ⟨2⟩, ⟨3⟩, ⟨6⟩] ∧ oneItem.leaves = [⟨0⟩, ⟨3⟩, ⟨6⟩] ∧
    View.outline oneItem = String.join (["⧉ list", "├─ ◦ (", "├─ □ [...]", "│ └─ § item",
      "│   └─ ▪ name x", "└─ ◦ )"].map (· ++ "\n")) ∧
    Diagram.placedOf oneItem =
      { label := "list"
        vertices := #[
          ⟨0, { label := "list" }⟩,
          ⟨1, { label := "(", shape := "box", fill := some "orange" }⟩,
          ⟨2, { label := "[...]", shape := "box" }⟩,
          ⟨3, { label := "item", shape := "box", color := "blue" }⟩,
          ⟨4, { label := "name", shape := "box", fill := some "orange" }⟩,
          ⟨5, { label := ")", shape := "box", fill := some "orange" }⟩]
        edges := #[⟨0, 1, .solid⟩, ⟨0, 2, .solid⟩, ⟨2, 3, .solid⟩, ⟨3, 4, .solid⟩,
          ⟨0, 5, .solid⟩] } :=
  ⟨views_agree build_lists reached_oneItem, by decide +kernel⟩

end Cloze.Draft
