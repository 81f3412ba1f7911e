import Cloze.View.Diagram
import Mathlib.Data.List.TakeWhile
import Mathlib.Tactic.Common

/-!
# Digraphs are told apart by their texts

Every part of a digraph text shows where it ends: a number and a word before the first character of
another kind, a label before the first quote that has no backslash before it (`readLabel_escape`),
and a statement with its semicolon (`delimited_vertex`, `delimited_edge`). Hence two diagrams with the
same text are the same (`toDot_tells_apart`).
-/

namespace Cloze.Diagram

variable {l l' r r' xs ys : List Char} {c c' : Char}

/-! ### Texts that show where they end -/

/-- No text behind a text that `f` writes can be taken for a part of it. -/
def Delimited {α : Type} (P : α → Prop) (f : α → List Char) : Prop :=
  ∀ a b, P a → P b → ∀ r r', f a ++ r = f b ++ r' → a = b ∧ r = r'

/-- Texts one behind the other show where they end if what follows does not begin like one. -/
theorem Delimited.flatMap {α : Type} {P : α → Prop} {f : α → List Char} (hf : Delimited P f) :
    ∀ {as bs : List α}, (∀ a ∈ as, P a) → (∀ b ∈ bs, P b) →
      (∀ a ∈ as, ∀ s, f a ++ s ≠ r') → (∀ b ∈ bs, ∀ s, r ≠ f b ++ s) →
      as.flatMap f ++ r = bs.flatMap f ++ r' → as = bs ∧ r = r'
  | [], [], _, _, _, _, h => ⟨rfl, h⟩
  | [], b :: bs, _, _, _, hr, h => by
    rw [List.flatMap_cons, List.append_assoc] at h
    exact absurd h (hr b List.mem_cons_self _)
  | a :: as, [], _, _, hr', _, h => by
    rw [List.flatMap_cons, List.append_assoc] at h
    exact absurd h (hr' a List.mem_cons_self _)
  | a :: as, b :: bs, ha, hb, hr', hr, h => by
    obtain ⟨ha, has⟩ := List.forall_mem_cons.1 ha
    obtain ⟨hb, hbs⟩ := List.forall_mem_cons.1 hb
    rw [List.flatMap_cons, List.flatMap_cons, List.append_assoc, List.append_assoc] at h
    obtain ⟨rfl, hrest⟩ := hf a b ha hb _ _ h
    obtain ⟨rfl, hend⟩ := flatMap hf has hbs (List.forall_mem_cons.1 hr').2
      (List.forall_mem_cons.1 hr).2 hrest
    exact ⟨rfl, hend⟩

/-- A run of characters of one kind ends before the first of another. -/
theorem run_inj {p : Char → Bool} (hxs : ∀ x ∈ xs, p x = true) (hys : ∀ y ∈ ys, p y = true)
    (hc : p c = false) (hc' : p c' = false) (h : xs ++ c :: r = ys ++ c' :: r') :
    xs = ys ∧ c :: r = c' :: r' := by
  have hrun : xs = ys := by
    have htake := congrArg (List.takeWhile p) h
    rwa [List.takeWhile_append_of_pos hxs, List.takeWhile_append_of_pos hys,
      List.takeWhile_cons_of_neg (by simp [hc]), List.takeWhile_cons_of_neg (by simp [hc']),
      List.append_nil, List.append_nil] at htake
  exact ⟨hrun, List.append_cancel_left (hrun ▸ h)⟩

theorem number_inj {n m : Nat} (hc : c.isDigit = false) (hc' : c'.isDigit = false)
    (h : n.repr.toList ++ c :: r = m.repr.toList ++ c' :: r') : n = m ∧ c :: r = c' :: r' := by
  simp only [Nat.toList_repr] at h
  have hdigits : ∀ n : Nat, ∀ x ∈ Nat.toDigits 10 n, x.isDigit = true := fun n x hx =>
    Nat.isDigit_of_mem_toDigits (by decide) (by decide) hx
  obtain ⟨hrun, hrest⟩ := run_inj (hdigits n) (hdigits m) hc hc' h
  have hvalue := congrArg (Nat.ofDigitChars 10 · 0) hrun
  simp only [Nat.ofDigitChars_ten_toDigits] at hvalue
  exact ⟨hvalue, hrest⟩

/-- An ASCII letter, a digit or `_`. -/
def isWordChar (c : Char) : Bool :=
  c.isAlphanum || c == '_'

/-- A word that needs no quotes. -/
def IsWord (text : String) : Prop :=
  text ≠ "" ∧ ∀ c ∈ text.toList, isWordChar c = true

instance (text : String) : Decidable (IsWord text) :=
  decidable_of_iff (text ≠ "" ∧ text.toList.all isWordChar = true) (by rw [List.all_eq_true, IsWord])

theorem word_inj {v w : String} (hv : IsWord v) (hw : IsWord w) (hc : isWordChar c = false)
    (hc' : isWordChar c' = false) (h : v.toList ++ c :: r = w.toList ++ c' :: r') :
    v = w ∧ c :: r = c' :: r' := by
  obtain ⟨hword, hrest⟩ := run_inj hv.2 hw.2 hc hc' h
  exact ⟨String.toList_injective hword, hrest⟩

/-! ### Labels -/

/-- A label, read from behind its opening quote up to the first quote that has no backslash before
it, and the rest. A backslash stands for the character behind it. -/
def readLabel : List Char → Option (List Char × List Char)
  | [] | ['\\'] => none
  | '"' :: rest => some ([], rest)
  | '\\' :: c :: cs => (readLabel cs).map fun read => (c :: read.1, read.2)
  | c :: cs => (readLabel cs).map fun read => (c :: read.1, read.2)

/-- No label closes its own quotes: the quote behind it is the first that does. -/
theorem readLabel_escape (label : String) (rest : List Char) :
    readLabel ((escapeLabel label).toList ++ '"' :: rest) = some (label.toList, rest) := by
  rw [escapeLabel, String.toList_ofList]
  induction label.toList with
  | nil => rfl
  | cons c cs ih =>
    rw [List.flatMap_cons, List.append_assoc]
    by_cases hb : c = '\\'
    · subst hb
      simp [readLabel, ih]
    by_cases hq : c = '"'
    · subst hq
      simp [readLabel, ih]
    · simp [readLabel, hb, hq, ih]

theorem label_inj {a b : String}
    (h : (escapeLabel a).toList ++ '"' :: r = (escapeLabel b).toList ++ '"' :: r') :
    a = b ∧ r = r' := by
  have hread := congrArg readLabel h
  rw [readLabel_escape, readLabel_escape] at hread
  simp only [Option.some.injEq, Prod.mk.injEq] at hread
  exact ⟨String.toList_injective hread.1, hread.2⟩

/-! ### Statements -/

/-- Shape, color and fill are words. -/
structure Look.Plain (look : Look) : Prop where
  shape : IsWord look.shape
  color : IsWord look.color
  fill : ∀ fill ∈ look.fill, IsWord fill

instance (look : Look) : Decidable look.Plain :=
  decidable_of_iff (IsWord look.shape ∧ IsWord look.color ∧ ∀ fill ∈ look.fill, IsWord fill)
    ⟨fun h => ⟨h.1, h.2.1, h.2.2⟩, fun h => ⟨h.shape, h.color, h.fill⟩⟩

/-- What a vertex statement ends with. -/
def ending (fill : Option String) : List Char :=
  match fill with
  | none => ']' :: ";\n".toList
  | some fill => ',' :: ("style=filled,fillcolor=".toList ++ (fill.toList ++ ']' :: ";\n".toList))

theorem toList_vertex (v : Vertex) : v.toDot.toList =
    'n' :: (v.id.repr.toList ++ ' ' :: ("[label=\"".toList ++ ((escapeLabel v.look.label).toList ++
      '"' :: (",shape=".toList ++ (v.look.shape.toList ++ ',' :: ("color=".toList ++
        (v.look.color.toList ++ ending v.look.fill))))))) := by
  unfold Vertex.toDot ending
  cases v.look.fill <;> simp [toString]

theorem toList_edge (e : Edge) : e.toDot.toList =
    'n' :: (e.source.repr.toList ++ ' ' :: ("-> n".toList ++ (e.target.repr.toList ++
      ' ' :: ("[style=".toList ++ (e.style.name.toList ++ "];\n".toList))))) := by
  simp [Edge.toDot, toString]

theorem ending_inj {color color' : String} {fill fill' : Option String} (hc : IsWord color)
    (hc' : IsWord color') (hf : ∀ f ∈ fill, IsWord f) (hf' : ∀ f ∈ fill', IsWord f)
    (h : color.toList ++ (ending fill ++ r) = color'.toList ++ (ending fill' ++ r')) :
    color = color' ∧ fill = fill' ∧ r = r' := by
  rcases fill with _ | f <;> rcases fill' with _ | f' <;>
    simp only [ending, List.cons_append, List.append_assoc] at h <;>
    obtain ⟨hcolor, hend⟩ := word_inj hc hc' (by decide) (by decide) h
  · exact ⟨hcolor, rfl, List.append_cancel_left (List.cons.inj hend).2⟩
  · cases hend
  · cases hend
  · obtain ⟨hfill, hend⟩ := word_inj (hf f rfl) (hf' f' rfl) (by decide) (by decide)
      (List.append_cancel_left (List.cons.inj hend).2)
    exact ⟨hcolor, by rw [hfill], List.append_cancel_left (List.cons.inj hend).2⟩

theorem delimited_vertex : Delimited (fun v : Vertex => v.look.Plain) (·.toDot.toList) := by
  intro v w hv hw r r' h
  simp only [toList_vertex, List.cons_append, List.append_assoc] at h
  obtain ⟨hid, h⟩ := number_inj (by decide) (by decide) (List.cons.inj h).2
  obtain ⟨hlabel, h⟩ := label_inj (List.append_cancel_left (List.cons.inj h).2)
  obtain ⟨hshape, h⟩ := word_inj hv.shape hw.shape (by decide) (by decide)
    (List.append_cancel_left h)
  obtain ⟨hcolor, hfill, hr⟩ := ending_inj hv.color hw.color hv.fill hw.fill
    (List.append_cancel_left (List.cons.inj h).2)
  obtain ⟨id, label, shape, color, fill⟩ := v
  cases w
  simp_all

theorem delimited_edge : Delimited (fun _ : Edge => True) (·.toDot.toList) := by
  intro e f _ _ r r' h
  simp only [toList_edge, List.cons_append, List.append_assoc] at h
  obtain ⟨hsource, h⟩ := number_inj (by decide) (by decide) (List.cons.inj h).2
  obtain ⟨htarget, h⟩ := number_inj (by decide) (by decide)
    (List.append_cancel_left (List.cons.inj h).2)
  have h := List.append_cancel_left (List.cons.inj h).2
  obtain ⟨source, target, style⟩ := e
  obtain ⟨source', target', style'⟩ := f
  cases style <;> cases style' <;> simp_all [Style.name]

/-- No vertex is taken for an edge. -/
theorem vertex_ne_edge (v : Vertex) (e : Edge) : v.toDot.toList ++ r ≠ e.toDot.toList ++ r' := by
  intro h
  simp only [toList_vertex, toList_edge, List.cons_append, List.append_assoc] at h
  obtain ⟨-, h⟩ := number_inj (by decide) (by decide) (List.cons.inj h).2
  cases h

/-! ### Whole texts -/

theorem toList_toDot (g : Diagram) : g.toDot.toList =
    "digraph G \x7b\n".toList ++ ("labelloc=\"t\";fontsize=80;label=\"".toList ++
      ((escapeLabel g.label).toList ++ '"' :: (";\n".toList ++
        (g.vertices.toList.flatMap (·.toDot.toList) ++
          (g.edges.toList.flatMap (·.toDot.toList) ++ ['\x7d']))))) := by
  have hquote : "\";\n".toList = '"' :: ";\n".toList := rfl
  have hbrace : "\x7d".toList = ['\x7d'] := rfl
  -- Unfolded by its equation, the text would be compared with its own unfolding, byte by byte.
  delta toDot
  simp only [toString, String.toList_append, String.toList_join, List.flatMap_map,
    List.append_assoc, hquote, hbrace, List.cons_append]

/-- Shapes, colors and fills are words. -/
def Plain (g : Diagram) : Prop := ∀ v ∈ g.vertices, v.look.Plain

instance (g : Diagram) : Decidable g.Plain :=
  inferInstanceAs (Decidable (∀ v ∈ g.vertices, v.look.Plain))

theorem toDot_inj {g h : Diagram} (hg : g.Plain) (hh : h.Plain) (heq : g.toDot = h.toDot) :
    g = h := by
  have htext := congrArg String.toList heq
  rw [toList_toDot, toList_toDot] at htext
  obtain ⟨hlabel, htext⟩ := label_inj
    (List.append_cancel_left (List.append_cancel_left htext))
  have hvertex : ∀ (v : Vertex) (es : List Edge) s,
      v.toDot.toList ++ s ≠ es.flatMap (·.toDot.toList) ++ ['\x7d'] := by
    intro v es s
    rcases es with _ | ⟨e, es⟩
    · rw [toList_vertex]
      exact nofun
    · rw [List.flatMap_cons, List.append_assoc]
      exact vertex_ne_edge v e
  have hedge : ∀ (e : Edge) s, e.toDot.toList ++ s ≠ ['\x7d'] := by
    intro e s
    rw [toList_edge]
    exact nofun
  obtain ⟨hvertices, htext⟩ := delimited_vertex.flatMap
    (fun v hv => hg v (Array.mem_toList_iff.1 hv)) (fun v hv => hh v (Array.mem_toList_iff.1 hv))
    (fun v _ s => hvertex v _ s) (fun v _ s => (hvertex v _ s).symm)
    (List.append_cancel_left htext)
  obtain ⟨hedges, -⟩ := delimited_edge.flatMap (fun _ _ => trivial) (fun _ _ => trivial)
    (fun e _ s => hedge e s) (fun e _ s => (hedge e s).symm) htext
  obtain ⟨label, vertices, edges⟩ := g
  cases h
  simp_all

/-- Diagrams with the same text are the same. No label closes its own quotes, and whatever text a
label holds, no statement can be taken for another. -/
theorem toDot_tells_apart :
    (∀ g h : Diagram, g.Plain → h.Plain → g.toDot = h.toDot → g = h) ∧
    (∀ label rest,
      readLabel ((escapeLabel label).toList ++ '"' :: rest) = some (label.toList, rest)) ∧
    (∀ v w : Vertex, v.look.Plain → w.look.Plain → ∀ r r',
      v.toDot.toList ++ r = w.toDot.toList ++ r' → v = w ∧ r = r') ∧
    (∀ (e f : Edge) r r', e.toDot.toList ++ r = f.toDot.toList ++ r' → e = f ∧ r = r') ∧
    ∀ (v : Vertex) (e : Edge) r r', v.toDot.toList ++ r ≠ e.toDot.toList ++ r' :=
  ⟨fun _ _ => toDot_inj, readLabel_escape, delimited_vertex,
    fun e f => delimited_edge e f trivial trivial, fun v e _ _ => vertex_ne_edge v e⟩

/-- A label that spells the end of its statement and the beginning of another. -/
def slyLook : Look where
  label := "a\",shape=oval,color=black];\nn1 [label=\"b"
  fill := some "red"

def slyLabel : Diagram where
  label := "g"
  vertices := #[⟨0, slyLook⟩]

/-- The two vertices that the label spells. -/
def spelledOut : Diagram where
  label := "g"
  vertices := #[⟨0, { label := "a" }⟩, ⟨1, { label := "b", fill := some "red" }⟩]

theorem slyLabel_told_apart :
    slyLabel.Plain ∧ slyLabel.toDot = (addVertex { label := "g" } slyLook).toDot ∧
      slyLabel = addVertex { label := "g" } slyLook ∧
    spelledOut.Plain ∧ slyLabel.toDot ≠ spelledOut.toDot := by
  have hsly : slyLabel.Plain := by decide
  have hspelled : spelledOut.Plain := by decide
  have htext : slyLabel.toDot = (addVertex { label := "g" } slyLook).toDot := rfl
  exact ⟨hsly, htext, toDot_tells_apart.1 _ _ hsly hsly htext, hspelled,
    fun heq => absurd (toDot_tells_apart.1 _ _ hsly hspelled heq) (by decide)⟩

end Cloze.Diagram
