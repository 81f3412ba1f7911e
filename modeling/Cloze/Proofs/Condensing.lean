import Cloze.View.Diagram
import Mathlib.Data.List.Nodup
import Mathlib.Logic.Relation
import Mathlib.Tactic.Common

/-!
# Diagrams condensed to their boxes

A diagram of sketches is a tree with its vertices numbered from the root down (`IsTree`). To condense
it, the dotted edges are taken away with all that hangs below them, and every vertex left that is
neither a box nor the root is drawn into the one above it. `anchor?` follows the edges up to the box
or root that a vertex ends in. Sketches can be condensed before they are drawn, with the same result
(`condense_ofSketches`).
-/

namespace Cloze.Diagram

/-! ### Trees -/

/-- The vertices are numbered in their order; one edge leads to each but the first, and all edges lead
from smaller to greater numbers. -/
structure IsTree (g : Diagram) : Prop where
  ids : ∀ (i : Nat) v, g.vertices[i]? = some v → v.id = i
  incoming : ∀ i, 0 < i → i < g.vertices.size → g.edges.toList.countP (·.target == i) = 1
  source_lt : ∀ e ∈ g.edges, e.source < e.target ∧ e.target < g.vertices.size

/-- A tree whose edges come in the order of the vertices they lead to. -/
structure Rooted (g : Diagram) : Prop where
  ids : ∀ (i : Nat) v, g.vertices[i]? = some v → v.id = i
  edges : ∀ (i : Nat) e, g.edges[i]? = some e → e.target = i + 1 ∧ e.source ≤ i
  size : g.vertices.size = g.edges.size + 1

/-- The diagram with a vertex added below another. -/
def hang (g : Diagram) (parent : Nat) (look : Look) (link : Style) : Diagram :=
  (g.addVertex look).addEdge parent g.vertices.size link

variable {g h : Diagram} {parent i b : Nat} {look : Look} {link : Style} {s : Sketch}
  {ss : List Sketch} {label : String}

@[simp] theorem size_hang : (g.hang parent look link).vertices.size = g.vertices.size + 1 := by
  simp [hang, addVertex, addEdge]

theorem draw_vertex {below : List Sketch} : draw parent (.vertex look link below) g =
    drawAll g.vertices.size below (g.hang parent look link) := by
  rw [draw, hang]

theorem rooted_root (label : String) (look : Look) : (addVertex { label } look).Rooted where
  ids := fun i v hv => by
    rcases i with _ | i
    · obtain rfl : _ = v := by simpa [addVertex] using hv
      rfl
    · simp [addVertex] at hv
  edges := fun i e he => by simp [addVertex] at he
  size := rfl

theorem Rooted.hang (hg : g.Rooted) (hp : parent < g.vertices.size) (look : Look) (link : Style) :
    (g.hang parent look link).Rooted where
  ids := fun i v hv => by
    simp only [Diagram.hang, addVertex, addEdge, Array.getElem?_push] at hv
    split at hv
    · next hi =>
      cases hv
      exact hi.symm
    · exact hg.ids i v hv
  edges := fun i e he => by
    simp only [Diagram.hang, addVertex, addEdge, Array.getElem?_push] at he
    have hsize := hg.size
    split at he
    · next hi =>
      cases he
      dsimp only
      omega
    · exact hg.edges i e he
  size := by
    simp [Diagram.hang, addVertex, addEdge, hg.size]

theorem Rooted.target_lt (hg : g.Rooted) {e : Edge} (he : e ∈ g.edges) :
    0 < e.target ∧ e.target < g.vertices.size ∧ e.source < e.target := by
  obtain ⟨i, hi, rfl⟩ := Array.mem_iff_getElem.1 he
  have hedge := hg.edges i _ (Array.getElem?_eq_getElem hi)
  have hsize := hg.size
  omega

theorem Rooted.isTree (hg : g.Rooted) : g.IsTree where
  ids := hg.ids
  incoming := fun i hi hlt => by
    have htargets : g.edges.toList.map Edge.target = List.range' 1 g.edges.size := by
      refine List.ext_getElem (by simp) fun k hk _ => ?_
      have hk : k < g.edges.size := by simpa using hk
      have hedge := hg.edges k _ (Array.getElem?_eq_getElem hk)
      simp [hedge.1, Nat.add_comm]
    have hmem : i ∈ List.range' 1 g.edges.size := by
      have hsize := hg.size
      rw [List.mem_range'_1]
      omega
    have hcount := List.count_eq_one_of_mem (List.nodup_range' ..) hmem
    rwa [← htargets, List.count_eq_countP, List.countP_map] at hcount
  source_lt := fun e he => by
    have hlt := hg.target_lt he
    exact ⟨hlt.2.2, hlt.2.1⟩

/-! ### Vertices and the edges that lead to them -/

/-- The edge that leads to a vertex. -/
def edgeTo? (g : Diagram) (i : Nat) : Option Edge :=
  g.edges.find? (·.target == i)

def isBox (g : Diagram) (i : Nat) : Bool :=
  g.vertices.any fun v => v.id == i && v.look.shape == "box"

theorem edgeTo?_hang_of_ne (hi : i ≠ g.vertices.size) :
    (g.hang parent look link).edgeTo? i = g.edgeTo? i := by
  simp [edgeTo?, hang, addVertex, addEdge, Array.find?_push, Ne.symm hi]

theorem Rooted.edgeTo?_hang_self (hg : g.Rooted) :
    (g.hang parent look link).edgeTo? g.vertices.size = some ⟨parent, g.vertices.size, link⟩ := by
  have hnone : g.edges.find? (·.target == g.vertices.size) = none := by
    refine Array.find?_eq_none.2 fun e he heq => ?_
    have hlt := (hg.target_lt he).2.1
    simp at heq
    omega
  simp [edgeTo?, Diagram.hang, addVertex, addEdge, Array.find?_push, hnone]

theorem isBox_hang_of_ne (hi : i ≠ g.vertices.size) :
    (g.hang parent look link).isBox i = g.isBox i := by
  simp [isBox, hang, addVertex, addEdge, Ne.symm hi]

theorem Rooted.isBox_hang_self (hg : g.Rooted) :
    (g.hang parent look link).isBox g.vertices.size = (look.shape == "box") := by
  have hnone : g.vertices.any (fun v => v.id == g.vertices.size && v.look.shape == "box") = false := by
    refine Array.any_eq_false.2 fun i hi => ?_
    have hid := hg.ids i _ (Array.getElem?_eq_getElem hi)
    simp [hid, Nat.ne_of_lt hi]
  simp only [isBox, Diagram.hang, addVertex, addEdge, Array.any_push, hnone]
  simp

/-! ### Condensed diagrams -/

/-- The box or root that a vertex ends in: itself, or the first that the edges lead up to. There is
none behind a dotted edge. -/
def anchor? (g : Diagram) (i : Nat) : Option Nat :=
  if i = 0 then some 0
  else
    match g.edgeTo? i with
    | none => none
    | some e =>
      if e.source < i ∧ e.style = .solid then
        (g.anchor? e.source).map fun b => if g.isBox i then i else b
      else none
termination_by i

/-- The vertices that are neither taken away nor drawn into another. -/
def kept (g : Diagram) : List Vertex :=
  g.vertices.toList.filter fun v => g.anchor? v.id == some v.id

/-- The number that a vertex gets among those kept. -/
def place (g : Diagram) (i : Nat) : Nat :=
  g.kept.findIdx (·.id == i)

/-- An edge as it is left: from the vertex that its source is drawn into. -/
def lifted? (g : Diagram) (e : Edge) : Option Edge :=
  if g.anchor? e.target = some e.target then
    (g.anchor? e.source).map fun b => ⟨g.place b, g.place e.target, .solid⟩
  else none

/-- The diagram without its dotted edges and what hangs below them, and with every other vertex that
is neither a box nor the root drawn into the one above it. -/
def condense (g : Diagram) : Diagram where
  label := g.label
  vertices := (g.kept.mapIdx fun k v => ⟨k, v.look⟩).toArray
  edges := (g.edges.toList.filterMap g.lifted?).toArray

theorem anchor?_zero : g.anchor? 0 = some 0 := by
  rw [anchor?, if_pos rfl]

theorem anchor?_le {i b : Nat} (h : g.anchor? i = some b) : b ≤ i := by
  induction i using Nat.strongRecOn generalizing b with
  | ind i ih =>
    rw [anchor?] at h
    split at h
    · cases h
      exact Nat.zero_le i
    split at h
    · cases h
    split at h
    · next e _ he =>
      obtain ⟨b', hb, hi⟩ := Option.map_eq_some_iff.1 h
      have := ih _ he.1 hb
      split at hi <;> omega
    · cases h

/-- What vertices are drawn into is kept. -/
theorem anchor?_anchor {i b : Nat} (h : g.anchor? i = some b) : g.anchor? b = some b := by
  induction i using Nat.strongRecOn generalizing b with
  | ind i ih =>
    have hi := h
    rw [anchor?] at h
    split at h
    · cases h
      exact anchor?_zero
    split at h
    · cases h
    split at h
    · next e _ he =>
      obtain ⟨b', hb, hib⟩ := Option.map_eq_some_iff.1 h
      split at hib
      · rwa [← hib] at hi ⊢
      · exact hib ▸ ih _ he.1 hb
    · cases h

theorem anchor?_hang_of_lt {i : Nat} (hi : i < g.vertices.size) :
    (g.hang parent look link).anchor? i = g.anchor? i := by
  induction i using Nat.strongRecOn with
  | ind i ih =>
    rw [anchor?, anchor?, edgeTo?_hang_of_ne (Nat.ne_of_lt hi), isBox_hang_of_ne (Nat.ne_of_lt hi)]
    split
    · rfl
    split
    · rfl
    split
    · next e _ he => rw [ih _ he.1 (Nat.lt_trans he.1 hi)]
    · rfl

theorem Rooted.anchor?_hang_self (hg : g.Rooted) (hp : parent < g.vertices.size) :
    (g.hang parent look link).anchor? g.vertices.size =
      if link = .solid then
        (g.anchor? parent).map fun b => if look.shape = "box" then g.vertices.size else b
      else none := by
  rw [anchor?, if_neg (by omega), hg.edgeTo?_hang_self, hg.isBox_hang_self]
  simp only [hp, true_and, anchor?_hang_of_lt hp, beq_iff_eq]

theorem Rooted.id_lt (hg : g.Rooted) {v : Vertex} (hv : v ∈ g.vertices) : v.id < g.vertices.size := by
  obtain ⟨i, hi, rfl⟩ := Array.mem_iff_getElem.1 hv
  rwa [hg.ids i _ (Array.getElem?_eq_getElem hi)]

/-- The vertices kept when one more is hung. -/
theorem Rooted.kept_hang (hg : g.Rooted) : (g.hang parent look link).kept = g.kept ++
    if (g.hang parent look link).anchor? g.vertices.size = some g.vertices.size
      then [⟨g.vertices.size, look⟩] else [] := by
  have hold : g.vertices.toList.filter
      (fun v => (g.hang parent look link).anchor? v.id == some v.id) = g.kept := by
    refine List.filter_congr fun v hv => ?_
    rw [anchor?_hang_of_lt (hg.id_lt (Array.mem_toList_iff.1 hv))]
  have hvertices : (g.hang parent look link).vertices.toList =
      g.vertices.toList ++ [⟨g.vertices.size, look⟩] := by
    simp [Diagram.hang, addVertex, addEdge]
  rw [kept, hvertices, List.filter_append, hold, List.filter_cons, List.filter_nil]
  simp

theorem Rooted.id_kept_lt (hg : g.Rooted) {v : Vertex} (hv : v ∈ g.kept) :
    v.id < g.vertices.size :=
  hg.id_lt (Array.mem_toList_iff.1 (List.mem_filter.1 hv).1)

/-- A vertex is kept if it is drawn into itself. -/
theorem Rooted.exists_kept (hg : g.Rooted) (hb : b < g.vertices.size)
    (ha : g.anchor? b = some b) : ∃ v ∈ g.kept, v.id = b := by
  have hid := hg.ids b _ (Array.getElem?_eq_getElem hb)
  refine ⟨g.vertices[b], List.mem_filter.2 ⟨?_, ?_⟩, hid⟩
  · exact Array.mem_toList_iff.2 (Array.getElem_mem hb)
  · rw [hid, ha, beq_self_eq_true]

theorem Rooted.place_hang_of_lt (hg : g.Rooted) (hb : b < g.vertices.size)
    (ha : g.anchor? b = some b) : (g.hang parent look link).place b = g.place b := by
  obtain ⟨v, hv, hid⟩ := hg.exists_kept hb ha
  have hlt : g.kept.findIdx (·.id == b) < g.kept.length :=
    List.findIdx_lt_length.2 ⟨v, hv, by simp [hid]⟩
  rw [place, hg.kept_hang, List.findIdx_append, if_pos hlt, place]

theorem Rooted.place_hang_self (hg : g.Rooted)
    (ha : (g.hang parent look link).anchor? g.vertices.size = some g.vertices.size) :
    (g.hang parent look link).place g.vertices.size = g.kept.length := by
  have hnone : g.kept.findIdx (·.id == g.vertices.size) = g.kept.length := by
    refine List.findIdx_eq_length.2 fun v hv => ?_
    simpa using Nat.ne_of_lt (hg.id_kept_lt hv)
  rw [place, hg.kept_hang, if_pos ha, List.findIdx_append, hnone]
  simp

theorem size_condense (g : Diagram) : g.condense.vertices.size = g.kept.length := by
  simp [condense]

theorem edges_hang : (g.hang parent look link).edges.toList =
    g.edges.toList ++ [⟨parent, g.vertices.size, link⟩] := by
  simp [hang, addVertex, addEdge]

/-- An edge is left as it was when one more vertex is hung. -/
theorem Rooted.lifted?_hang (hg : g.Rooted) {e : Edge} (he : e ∈ g.edges) :
    (g.hang parent look link).lifted? e = g.lifted? e := by
  obtain ⟨-, htarget, hsource⟩ := hg.target_lt he
  rw [lifted?, lifted?, anchor?_hang_of_lt htarget, anchor?_hang_of_lt (by omega)]
  split
  · next hkept =>
    rw [hg.place_hang_of_lt htarget hkept]
    refine Option.map_congr fun b hb => ?_
    have hle := anchor?_le hb
    rw [hg.place_hang_of_lt (by omega) (anchor?_anchor hb)]
  · rfl

theorem Rooted.edges_condense_hang (hg : g.Rooted) :
    (g.hang parent look link).edges.toList.filterMap (g.hang parent look link).lifted? =
      g.edges.toList.filterMap g.lifted? ++
        ((g.hang parent look link).lifted? ⟨parent, g.vertices.size, link⟩).toList := by
  have hold : g.edges.toList.filterMap (g.hang parent look link).lifted? =
      g.edges.toList.filterMap g.lifted? :=
    List.filterMap_congr fun e he => hg.lifted?_hang (Array.mem_toList_iff.1 he)
  rw [edges_hang, List.filterMap_append, hold]
  rcases hn : (g.hang parent look link).lifted? ⟨parent, g.vertices.size, link⟩ <;> simp [hn]

/-- A box below a solid edge is condensed to a box. -/
theorem Rooted.condense_hang_box (hg : g.Rooted) (hp : parent < g.vertices.size)
    (hbox : look.shape = "box") (hb : g.anchor? parent = some b) :
    (g.hang parent look .solid).condense = g.condense.hang (g.place b) look .solid := by
  have hself : (g.hang parent look .solid).anchor? g.vertices.size = some g.vertices.size := by
    rw [hg.anchor?_hang_self hp, if_pos rfl, hb, Option.map_some, if_pos hbox]
  have hle := anchor?_le hb
  have hnew : (g.hang parent look .solid).lifted? ⟨parent, g.vertices.size, .solid⟩ =
      some ⟨g.place b, g.kept.length, .solid⟩ := by
    rw [lifted?, if_pos hself, anchor?_hang_of_lt hp, hb, Option.map_some,
      hg.place_hang_self hself, hg.place_hang_of_lt (by omega) (anchor?_anchor hb)]
  rw [condense, hg.kept_hang, if_pos hself, hg.edges_condense_hang, hnew]
  simp [condense, addVertex, addEdge, Diagram.hang]

/-- Any other vertex is drawn into the one above it or taken away. -/
theorem Rooted.condense_hang_other (hg : g.Rooted)
    (h : (g.hang parent look link).anchor? g.vertices.size ≠ some g.vertices.size) :
    (g.hang parent look link).condense = g.condense := by
  have hnew : (g.hang parent look link).lifted? ⟨parent, g.vertices.size, link⟩ = none := by
    rw [lifted?, if_neg h]
  rw [condense, hg.kept_hang, if_neg h, hg.edges_condense_hang, hnew]
  simp [condense, addVertex, addEdge, Diagram.hang]

/-! ### Drawing -/

/-- A diagram with more vertices, in which those there are drawn into the same as before. -/
structure Extends (g h : Diagram) : Prop where
  size_le : g.vertices.size ≤ h.vertices.size
  anchor : ∀ i < g.vertices.size, h.anchor? i = g.anchor? i
  place : ∀ b < g.vertices.size, g.anchor? b = some b → h.place b = g.place b
  edges : ∀ e ∈ h.edges, e.target < g.vertices.size → e ∈ g.edges

theorem Extends.refl (g : Diagram) : Extends g g :=
  ⟨Nat.le_refl _, fun _ _ => rfl, fun _ _ _ => rfl, fun _ he _ => he⟩

theorem Extends.trans {g h k : Diagram} (h₁ : Extends g h) (h₂ : Extends h k) : Extends g k where
  size_le := Nat.le_trans h₁.size_le h₂.size_le
  anchor := fun i hi => (h₂.anchor i (Nat.lt_of_lt_of_le hi h₁.size_le)).trans (h₁.anchor i hi)
  place := fun b hb ha => by
    have hb' := Nat.lt_of_lt_of_le hb h₁.size_le
    rw [h₂.place b hb' ((h₁.anchor b hb).trans ha), h₁.place b hb ha]
  edges := fun e he hlt => h₁.edges e (h₂.edges e he (Nat.lt_of_lt_of_le hlt h₁.size_le)) hlt

theorem mem_edges_hang {e : Edge} : e ∈ (g.hang parent look link).edges ↔
    e ∈ g.edges ∨ e = ⟨parent, g.vertices.size, link⟩ := by
  simp [hang, addVertex, addEdge]

theorem Rooted.extends_hang (hg : g.Rooted) (parent : Nat) (look : Look) (link : Style) :
    Extends g (g.hang parent look link) where
  size_le := by simp
  anchor := fun _ hi => anchor?_hang_of_lt hi
  place := fun _ hb ha => hg.place_hang_of_lt hb ha
  edges := fun e he hlt => (mem_edges_hang.1 he).resolve_right fun heq => by
    rw [heq] at hlt
    exact Nat.lt_irrefl _ hlt

mutual

theorem Rooted.draw {g : Diagram} (hg : g.Rooted) {parent : Nat} (hp : parent < g.vertices.size) :
    ∀ s : Sketch, (draw parent s g).Rooted ∧ Extends g (draw parent s g)
  | .vertex look link below => by
    rw [draw_vertex]
    have hk : g.vertices.size < (g.hang parent look link).vertices.size := by simp
    obtain ⟨hr, he⟩ := Rooted.drawAll (hg.hang hp look link) hk below
    exact ⟨hr, (hg.extends_hang parent look link).trans he⟩

theorem Rooted.drawAll {g : Diagram} (hg : g.Rooted) {parent : Nat}
    (hp : parent < g.vertices.size) : ∀ ss : List Sketch,
    (drawAll parent ss g).Rooted ∧ Extends g (drawAll parent ss g)
  | [] => by
    rw [Diagram.drawAll]
    exact ⟨hg, .refl g⟩
  | s :: rest => by
    rw [Diagram.drawAll]
    obtain ⟨hr, he⟩ := Rooted.draw hg hp s
    obtain ⟨hr', he'⟩ := Rooted.drawAll hr (Nat.lt_of_lt_of_le hp he.size_le) rest
    exact ⟨hr', he.trans he'⟩

end

mutual

/-- The sketches that are left of a sketch when it is condensed. -/
def Sketch.condense : Sketch → List Sketch
  | .vertex look link below =>
    if link = .dotted then []
    else if look.shape = "box" then [.vertex look .solid (condenseAll below)]
    else condenseAll below

def Sketch.condenseAll : List Sketch → List Sketch
  | [] => []
  | s :: rest => s.condense ++ condenseAll rest

end

theorem drawAll_append (parent : Nat) : ∀ (ss ts : List Sketch) (g : Diagram),
    drawAll parent (ss ++ ts) g = drawAll parent ts (drawAll parent ss g)
  | [], ts, g => by rw [List.nil_append, drawAll]
  | s :: ss, ts, g => by rw [List.cons_append, drawAll, drawAll, drawAll_append]

/-- Where the sketches below a vertex are drawn in the condensed diagram, if they are. -/
def drawBelow (anchor : Option Nat) (place : Nat → Nat) (ss : List Sketch) (g : Diagram) : Diagram :=
  match anchor with
  | none => g
  | some b => drawAll (place b) ss g

mutual

theorem condense_draw {g : Diagram} (hg : g.Rooted) {parent : Nat}
    (hp : parent < g.vertices.size) : ∀ s : Sketch, (draw parent s g).condense =
      drawBelow (g.anchor? parent) g.place s.condense g.condense
  | .vertex look link below => by
    have hk : g.vertices.size < (g.hang parent look link).vertices.size := by simp
    have hself : (g.hang parent look link).anchor? g.vertices.size = _ := hg.anchor?_hang_self hp
    rw [draw_vertex, condense_drawAll (hg.hang hp look link) hk below, Sketch.condense, hself]
    cases link with
    | dotted =>
      have hother : (g.hang parent look .dotted).anchor? g.vertices.size ≠
          some g.vertices.size := by simp [hself]
      rw [hg.condense_hang_other hother]
      cases g.anchor? parent <;> rfl
    | solid =>
      rcases hb : g.anchor? parent with _ | b
      · have hother : (g.hang parent look .solid).anchor? g.vertices.size ≠
            some g.vertices.size := by simp [hself, hb]
        rw [hg.condense_hang_other hother]
        rfl
      · have hle := anchor?_le hb
        rw [if_pos rfl, hb, Option.map_some] at hself
        by_cases hbox : look.shape = "box"
        · rw [if_pos hbox] at hself
          rw [if_pos rfl, Option.map_some, if_pos hbox, if_neg nofun, if_pos hbox, drawBelow,
            drawBelow, hg.place_hang_self hself, hg.condense_hang_box hp hbox hb, drawAll,
            draw_vertex, size_condense, drawAll]
        · rw [if_neg hbox] at hself
          have hother : (g.hang parent look .solid).anchor? g.vertices.size ≠
              some g.vertices.size := by
            rw [hself, ne_eq, Option.some.injEq]
            omega
          rw [if_pos rfl, Option.map_some, if_neg hbox, if_neg nofun, if_neg hbox, drawBelow,
            drawBelow, hg.condense_hang_other hother,
            hg.place_hang_of_lt (by omega) (anchor?_anchor hb)]

theorem condense_drawAll {g : Diagram} (hg : g.Rooted) {parent : Nat}
    (hp : parent < g.vertices.size) : ∀ ss : List Sketch, (drawAll parent ss g).condense =
      drawBelow (g.anchor? parent) g.place (Sketch.condenseAll ss) g.condense
  | [] => by
    rw [drawAll, Sketch.condenseAll]
    cases g.anchor? parent with
    | none => rfl
    | some b => rw [drawBelow, drawAll]
  | s :: rest => by
    obtain ⟨hr, he⟩ := hg.draw hp s
    rw [drawAll, condense_drawAll hr (Nat.lt_of_lt_of_le hp he.size_le) rest,
      condense_draw hg hp s, Sketch.condenseAll, he.anchor parent hp]
    rcases hb : g.anchor? parent with _ | b
    · rfl
    · have hle := anchor?_le hb
      rw [drawBelow, drawBelow, drawBelow, he.place b (by omega) (anchor?_anchor hb), drawAll_append]

end

/-- Sketches are condensed to the same diagram whether before or after they are drawn. -/
theorem condense_ofSketches (label : String) (ss : List Sketch) :
    (ofSketches label ss).condense = ofSketches label (Sketch.condenseAll ss) := by
  have hroot := rooted_root label { label }
  have hcondense : (addVertex { label } { label }).condense = addVertex { label } { label } := by
    simp [condense, kept, addVertex, anchor?_zero]
  have hplace : (addVertex { label } { label }).place 0 = 0 := by
    simp [place, kept, addVertex, anchor?_zero]
  rw [ofSketches, condense_drawAll hroot (by simp [addVertex]), anchor?_zero, drawBelow, hcondense,
    hplace, ofSketches]

/-! ### What hangs below dotted edges -/

/-- Edges lead from one vertex down to the other. -/
def Down (g : Diagram) : Nat → Nat → Prop :=
  Relation.ReflTransGen fun i j => ∃ e ∈ g.edges, e.source = i ∧ e.target = j

/-- Every edge below a dotted edge is dotted. -/
def Fades (g : Diagram) : Prop :=
  ∀ e ∈ g.edges, e.style = .dotted → ∀ f ∈ g.edges, g.Down e.target f.source → f.style = .dotted

/-- Every edge that hangs on a dotted edge is dotted. -/
def FadesNext (g : Diagram) : Prop :=
  ∀ e ∈ g.edges, e.style = .dotted → ∀ f ∈ g.edges, f.source = e.target → f.style = .dotted

theorem FadesNext.fades (hg : g.FadesNext) : g.Fades := by
  intro e he hdotted f hf hdown
  have hbelow : ∀ {j}, g.Down e.target j → ∀ f ∈ g.edges, f.source = j → f.style = .dotted := by
    intro j hdown
    induction hdown with
    | refl => exact hg e he hdotted
    | tail _ hstep ih =>
      obtain ⟨e', he', hsource, rfl⟩ := hstep
      exact hg e' he' (ih e' he' hsource)
  exact hbelow hdown f hf rfl

/-- Below an edge of a style a sketch has no solid edge that hangs on a dotted one. -/
inductive Sketch.Fades : Style → Sketch → Prop
  | vertex {above link : Style} {look : Look} {below : List Sketch}
    (h : above = .dotted → link = .dotted) (hbelow : ∀ s ∈ below, Fades link s) :
    Fades above (.vertex look link below)

theorem Rooted.fadesNext_hang (hg : g.Rooted) (hf : g.FadesNext)
    (h : ∀ e ∈ g.edges, e.target = parent → e.style = .dotted → link = .dotted) :
    (g.hang parent look link).FadesNext := by
  intro e he hdotted f hf' hsource
  have hlt : ∀ e ∈ g.edges, e.source < g.vertices.size := fun e he => by
    have := hg.target_lt he
    omega
  rcases mem_edges_hang.1 he with he | rfl <;> rcases mem_edges_hang.1 hf' with hf' | rfl
  · exact hf e he hdotted f hf' hsource
  · exact h e he hsource.symm hdotted
  · exact absurd hsource (Nat.ne_of_lt (hlt f hf'))
  · exact hdotted

mutual

theorem fadesNext_draw {g : Diagram} (hg : g.Rooted) {parent : Nat} (hp : parent < g.vertices.size)
    (hf : g.FadesNext) {above : Style}
    (h : ∀ e ∈ g.edges, e.target = parent → e.style = .dotted → above = .dotted) :
    ∀ s : Sketch, s.Fades above → (draw parent s g).FadesNext
  | .vertex look link below, hs => by
    rw [draw_vertex]
    have hk : g.vertices.size < (g.hang parent look link).vertices.size := by simp
    cases hs with
    | vertex hlink hbelow =>
      refine fadesNext_drawAll (hg.hang hp look link) hk
        (hg.fadesNext_hang hf fun e he ht hd => hlink (h e he ht hd)) (fun e he ht hd => ?_)
        below hbelow
      rcases mem_edges_hang.1 he with he | rfl
      · exact absurd ht (Nat.ne_of_lt (hg.target_lt he).2.1)
      · exact hd

theorem fadesNext_drawAll {g : Diagram} (hg : g.Rooted) {parent : Nat}
    (hp : parent < g.vertices.size) (hf : g.FadesNext) {above : Style}
    (h : ∀ e ∈ g.edges, e.target = parent → e.style = .dotted → above = .dotted) :
    ∀ ss : List Sketch, (∀ s ∈ ss, s.Fades above) → (drawAll parent ss g).FadesNext
  | [], _ => by rwa [drawAll]
  | s :: rest, hss => by
    obtain ⟨hs, hrest⟩ := List.forall_mem_cons.1 hss
    obtain ⟨hr, he⟩ := hg.draw hp s
    rw [drawAll]
    refine fadesNext_drawAll hr (Nat.lt_of_lt_of_le hp he.size_le) (fadesNext_draw hg hp hf h s hs)
      (fun e hmem ht => ?_) rest hrest
    exact h e (he.edges e hmem (ht ▸ hp)) ht

end

theorem isTree_ofSketches (label : String) (ss : List Sketch) : (ofSketches label ss).IsTree :=
  ((rooted_root label { label }).drawAll (by simp [addVertex]) ss).1.isTree

theorem fades_ofSketches (label : String) (h : ∀ s ∈ ss, s.Fades .solid) :
    (ofSketches label ss).Fades := by
  refine (fadesNext_drawAll (rooted_root label { label }) (by simp [addVertex])
    (fun e he => ?_) (fun e he => ?_) ss h).fades <;> simp [addVertex] at he

end Cloze.Diagram
