import Cloze.Proofs.Links
import Mathlib.Logic.Relation

/-!
# The sentences of a grammar

`Yields` reads a grammar in the usual way: a choice yields what one of its branches yields, a
branch what its slots yield one after the other, a slot one, at least one or any number of
occurrences of its symbol, and an option also nothing. A leaf yields its text. `Sentence` are the
words of a rule.

`Nullable` are the symbols that yield the empty word (`nullable_iff`). `Begins` tells what a symbol
yields from the first text on: before that stand only slots that can stay empty, and behind it what
its slot and its branch yield further (`Yields.starts`). A rule left-reaches the rules to which a
reference can come first in its words.
-/

namespace Cloze.Grammar

/-- A symbol that can stand for nothing. -/
inductive Nullable (g : Grammar) : SymbolId → Prop
  | option {x} (h : (g.symbol x).isOption = true) : Nullable g x
  | branch {x c b} (hc : g.bodyOf? (g.symbol x).kind = some c) (hb : b ∈ g.branchesOf c)
      (h : ∀ s ∈ b, (g.slot s).multiplicity ≠ .star → Nullable g (g.slot s).symbol) : Nullable g x

/-- A slot that can stay empty. -/
def Skippable (g : Grammar) (s : SlotId) : Prop :=
  (g.slot s).multiplicity = .star ∨ g.Nullable (g.slot s).symbol

theorem nullable_of_branch {g : Grammar} {x : SymbolId} {c : ChoiceId} {b : List SlotId}
    (hc : g.bodyOf? (g.symbol x).kind = some c) (hb : b ∈ g.branchesOf c)
    (h : ∀ s ∈ b, g.Skippable s) : g.Nullable x :=
  .branch hc hb fun s hs hm => (h s hs).resolve_left hm

/-- A symbol that is no option can stand for nothing only by a branch all of whose slots can. -/
theorem Nullable.exists_branch {g : Grammar} {x : SymbolId} (h : g.Nullable x)
    (ho : (g.symbol x).isOption = false) : ∃ c, g.bodyOf? (g.symbol x).kind = some c ∧
      ∃ b ∈ g.branchesOf c, ∀ s ∈ b, g.Skippable s := by
  cases h with
  | option h =>
    rw [ho] at h
    cases h
  | branch hc hb h => exact ⟨_, hc, _, hb, fun s hs => (em _).imp id (h s hs)⟩

theorem Nullable.isNode {g : Grammar} {x : SymbolId} (h : g.Nullable x) :
    (g.symbol x).isNode = true := by
  cases h with
  | option h =>
    unfold Symbol.isOption at h
    unfold Symbol.isNode
    split at h
    · rename_i hk
      rw [hk]
    · cases h
  | branch hc _ _ =>
    by_contra hn
    rw [Bool.not_eq_true, ← bodyOf?_eq_none (g := g), hc] at hn
    cases hn

/-- The parts of a grammar that yield words. -/
inductive Part where
  | symbol (x : SymbolId)
  /-- Any number of occurrences of a symbol. -/
  | many (x : SymbolId)
  | slot (s : SlotId)
  | branch (slots : List SlotId)

/-- The words that a part of a grammar yields. -/
inductive Yields (g : Grammar) : Part → List String → Prop
  | literal {x t} (h : (g.symbol x).kind = .literal t) : Yields g (.symbol x) [t]
  | category {x t} (h : (g.symbol x).kind = .category t) : Yields g (.symbol x) [t]
  | inner {x c b w} (hc : g.bodyOf? (g.symbol x).kind = some c) (hb : b ∈ g.branchesOf c)
      (h : Yields g (.branch b) w) : Yields g (.symbol x) w
  | omitted {x} (h : (g.symbol x).isOption = true) : Yields g (.symbol x) []
  | none {x} : Yields g (.many x) []
  | more {x u v} (h : Yields g (.symbol x) u) (h' : Yields g (.many x) v) :
      Yields g (.many x) (u ++ v)
  | once {s w} (hm : (g.slot s).multiplicity = .once)
      (h : Yields g (.symbol (g.slot s).symbol) w) : Yields g (.slot s) w
  | plus {s u v} (hm : (g.slot s).multiplicity = .plus)
      (h : Yields g (.symbol (g.slot s).symbol) u) (h' : Yields g (.many (g.slot s).symbol) v) :
      Yields g (.slot s) (u ++ v)
  | star {s w} (hm : (g.slot s).multiplicity = .star)
      (h : Yields g (.many (g.slot s).symbol) w) : Yields g (.slot s) w
  | nil : Yields g (.branch []) []
  | cons {s slots u v} (h : Yields g (.slot s) u) (h' : Yields g (.branch slots) v) :
      Yields g (.branch (s :: slots)) (u ++ v)

/-- The words of a rule. -/
def Sentence (g : Grammar) (r : RuleId) (w : List String) : Prop :=
  ∃ b ∈ g.branchesOf (g.rule r).body, g.Yields (.branch b) w

theorem yields_slot_nil {g : Grammar} {s : SlotId}
    (h : (g.slot s).multiplicity ≠ .star → g.Yields (.symbol (g.slot s).symbol) []) :
    g.Yields (.slot s) [] := by
  rcases hm : (g.slot s).multiplicity with _ | _ | _
  · exact .once hm (h (by simp [hm]))
  · exact .plus hm (h (by simp [hm])) .none
  · exact .star hm .none

theorem yields_branch_nil {g : Grammar} : ∀ {b : List SlotId},
    (∀ s ∈ b, g.Yields (.slot s) []) → g.Yields (.branch b) []
  | [], _ => .nil
  | s :: _, h => .cons (h s List.mem_cons_self)
      (yields_branch_nil fun t ht => h t (List.mem_cons_of_mem _ ht))

theorem Nullable.yields {g : Grammar} {x : SymbolId} (h : g.Nullable x) :
    g.Yields (.symbol x) [] := by
  induction h with
  | option h => exact .omitted h
  | branch hc hb _ ih =>
    exact .inner hc hb (yields_branch_nil fun s hs => yields_slot_nil (ih s hs))

theorem Skippable.yields {g : Grammar} {s : SlotId} (h : g.Skippable s) :
    g.Yields (.slot s) [] :=
  yields_slot_nil fun hm => (h.resolve_left hm).yields

/-- The parts that can stand for nothing. -/
def Part.CanBeEmpty (g : Grammar) : Part → Prop
  | .symbol x => g.Nullable x
  | .many _ => True
  | .slot s => g.Skippable s
  | .branch b => ∀ s ∈ b, g.Skippable s

theorem Yields.canBeEmpty {g : Grammar} {p : Part} {w : List String} (h : g.Yields p w)
    (hw : w = []) : p.CanBeEmpty g := by
  induction h with
  | literal | category => cases hw
  | inner hc hb _ ih => exact nullable_of_branch hc hb (ih hw)
  | omitted h => exact .option h
  | none | more => trivial
  | once _ _ ih => exact Or.inr (ih hw)
  | plus _ _ _ ih => exact Or.inr (ih (List.append_eq_nil_iff.1 hw).1)
  | star hm => exact Or.inl hm
  | nil =>
    intro s hs
    cases hs
  | cons _ _ ih ih' =>
    obtain ⟨hu, hv⟩ := List.append_eq_nil_iff.1 hw
    intro t ht
    rcases List.mem_cons.1 ht with rfl | ht
    · exact ih hu
    · exact ih' hv t ht

/-- The symbols that can stand for nothing are those that yield the empty word. -/
theorem nullable_iff {g : Grammar} {x : SymbolId} : g.Nullable x ↔ g.Yields (.symbol x) [] :=
  ⟨Nullable.yields, fun h => h.canBeEmpty rfl⟩

/-! ### First texts -/

/-- What further occurrences in a slot yield. -/
def Repeats (g : Grammar) (s : SlotId) (w : List String) : Prop :=
  (g.slot s).multiplicity = .once ∧ w = [] ∨
    (g.slot s).multiplicity ≠ .once ∧ g.Yields (.many (g.slot s).symbol) w

/-- What a symbol yields, told from the first text of it. -/
inductive Begins (g : Grammar) : SymbolId → String → List String → Prop
  | literal {x t} (h : (g.symbol x).kind = .literal t) : Begins g x t []
  | category {x t} (h : (g.symbol x).kind = .category t) : Begins g x t []
  | inner {x c before s after t u v w} (hc : g.bodyOf? (g.symbol x).kind = some c)
      (hb : before ++ s :: after ∈ g.branchesOf c) (hs : ∀ r ∈ before, g.Skippable r)
      (hu : Begins g (g.slot s).symbol t u) (hv : g.Repeats s v)
      (hw : g.Yields (.branch after) w) : Begins g x t (u ++ v ++ w)

theorem repeats_nil (g : Grammar) (s : SlotId) : g.Repeats s [] := by
  by_cases hm : (g.slot s).multiplicity = .once
  · exact Or.inl ⟨hm, rfl⟩
  · exact Or.inr ⟨hm, .none⟩

theorem yields_slot {g : Grammar} {s : SlotId} {u v : List String}
    (hu : g.Yields (.symbol (g.slot s).symbol) u) (hv : g.Repeats s v) :
    g.Yields (.slot s) (u ++ v) := by
  rcases hv with ⟨hm, rfl⟩ | ⟨hm, hv⟩
  · rw [List.append_nil]
    exact .once hm hu
  · rcases hs : (g.slot s).multiplicity with _ | _ | _
    · exact absurd hs hm
    · exact .plus hs hu hv
    · exact .star hs (.more hu hv)

theorem yields_branch_append {g : Grammar} : ∀ {b b' : List SlotId} {u v : List String},
    g.Yields (.branch b) u → g.Yields (.branch b') v → g.Yields (.branch (b ++ b')) (u ++ v)
  | [], _, _, _, .nil, h' => h'
  | _ :: _, _, _, _, .cons h h'', h' => by
    rw [List.append_assoc]
    exact .cons h (yields_branch_append h'' h')

/-- A branch whose first slots can stay empty yields what the others do. -/
theorem yields_branch_of_skippable {g : Grammar} {before after : List SlotId} {s : SlotId}
    {u v : List String} (hs : ∀ r ∈ before, g.Skippable r) (hu : g.Yields (.slot s) u)
    (hv : g.Yields (.branch after) v) : g.Yields (.branch (before ++ s :: after)) (u ++ v) :=
  yields_branch_append (u := []) (yields_branch_nil fun r hr => (hs r hr).yields) (.cons hu hv)

theorem Begins.yields {g : Grammar} {x : SymbolId} {t : String} {u : List String}
    (h : g.Begins x t u) : g.Yields (.symbol x) (t :: u) := by
  induction h with
  | literal h => exact .literal h
  | category h => exact .category h
  | inner hc hb hs _ hv hw ih =>
    exact .inner hc hb (yields_branch_of_skippable hs (yields_slot ih hv) hw)

/-- What a part yields, told from the first text of it. -/
def Part.Starts (g : Grammar) : Part → String → List String → Prop
  | .symbol x, t, w => g.Begins x t w
  | .many x, t, w => ∃ u v, w = u ++ v ∧ g.Begins x t u ∧ g.Yields (.many x) v
  | .slot s, t, w => ∃ u v, w = u ++ v ∧ g.Begins (g.slot s).symbol t u ∧ g.Repeats s v
  | .branch b, t, w => ∃ before s after u v v', b = before ++ s :: after
      ∧ (∀ r ∈ before, g.Skippable r) ∧ w = u ++ v ++ v' ∧ g.Begins (g.slot s).symbol t u
      ∧ g.Repeats s v ∧ g.Yields (.branch after) v'

/-- Occurrences that yield nothing do not matter. -/
theorem Yields.starts {g : Grammar} {p : Part} {w' : List String} (h : g.Yields p w') :
    ∀ {t : String} {w : List String}, w' = t :: w → p.Starts g t w := by
  induction h with
  | literal h =>
    rintro t w ⟨⟩
    exact .literal h
  | category h =>
    rintro t w ⟨⟩
    exact .category h
  | inner hc hb _ ih =>
    rintro t w rfl
    obtain ⟨before, s, after, u, v, v', rfl, hs, rfl, hu, hv, hv'⟩ := ih rfl
    exact .inner hc hb hs hu hv hv'
  | omitted | none | nil =>
    rintro t w ⟨⟩
  | @more x u v h h' ih ih' =>
    intro t w hw
    rcases u with _ | ⟨t', u⟩
    · exact ih' hw
    · cases hw
      exact ⟨u, v, rfl, ih rfl, h'⟩
  | once hm _ ih =>
    rintro t w rfl
    exact ⟨w, [], (List.append_nil w).symm, ih rfl, Or.inl ⟨hm, rfl⟩⟩
  | @plus s u v hm h h' ih ih' =>
    intro t w hw
    rcases u with _ | ⟨t', u⟩
    · obtain ⟨a, b, hab, ha, hb⟩ := ih' hw
      exact ⟨a, b, hab, ha, Or.inr ⟨by simp [hm], hb⟩⟩
    · cases hw
      exact ⟨u, v, rfl, ih rfl, Or.inr ⟨by simp [hm], h'⟩⟩
  | star hm _ ih =>
    rintro t w rfl
    obtain ⟨a, b, hab, ha, hb⟩ := ih rfl
    exact ⟨a, b, hab, ha, Or.inr ⟨by simp [hm], hb⟩⟩
  | @cons s slots u v h h' ih ih' =>
    intro t w hw
    rcases u with _ | ⟨t', u⟩
    · obtain ⟨before, s', after, a, b, b', rfl, hs, rfl, ha, hb, hb'⟩ := ih' hw
      refine ⟨s :: before, s', after, a, b, b', rfl, ?_, rfl, ha, hb, hb'⟩
      exact List.forall_mem_cons.2 ⟨h.canBeEmpty rfl, hs⟩
    · cases hw
      obtain ⟨a, b, rfl, ha, hb⟩ := ih rfl
      exact ⟨[], s, slots, a, b, v, rfl, List.forall_mem_nil _, rfl, ha, hb, h'⟩

/-! ### Left recursion -/

/-- A reference to a rule can come first in a choice: before it, and before each bracket around it,
stand only slots that can stay empty. -/
inductive Heads (g : Grammar) : ChoiceId → RuleId → Prop
  | reference {c before s after r} (hb : before ++ s :: after ∈ g.branchesOf c)
      (hs : ∀ t ∈ before, g.Skippable t) (hr : (g.symbol (g.slot s).symbol).kind = .rule r) :
      Heads g c r
  | bracket {c before s after inner r} (hb : before ++ s :: after ∈ g.branchesOf c)
      (hs : ∀ t ∈ before, g.Skippable t)
      (hi : (g.symbol (g.slot s).symbol).kind.bracketed? = some inner) (h : Heads g inner r) :
      Heads g c r

theorem Heads.exists_slot {g : Grammar} {c : ChoiceId} {r : RuleId} (h : g.Heads c r) :
    ∃ before s after, before ++ s :: after ∈ g.branchesOf c ∧ (∀ t ∈ before, g.Skippable t) ∧
      (g.symbol (g.slot s).symbol).isNode = true ∧
      ((g.symbol (g.slot s).symbol).isReference = true →
        (g.symbol (g.slot s).symbol).kind = .rule r) := by
  cases h with
  | reference hb hs hr => exact ⟨_, _, _, hb, hs, by rw [Symbol.isNode, hr], fun _ => hr⟩
  | bracket hb hs hi _ =>
    obtain ⟨hn, href, -⟩ := of_bracketed hi g
    refine ⟨_, _, _, hb, hs, hn, fun h => ?_⟩
    rw [href] at h
    cases h

/-- A reference to the second rule can come first in the body of the first. -/
def LeftReaches (g : Grammar) (a b : RuleId) : Prop :=
  g.Heads (g.rule a).body b

/-- A rule that left-reaches itself in one or more steps. -/
def LeftRecursive (g : Grammar) (r : RuleId) : Prop :=
  Relation.TransGen g.LeftReaches r r

end Cloze.Grammar
