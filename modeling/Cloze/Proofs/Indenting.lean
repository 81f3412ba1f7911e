import Cloze.Proofs.Lines
import Cloze.Script

/-!
# Indentation follows blocks

A writer who only writes at the end takes steps of a script, moves as they like, and makes every
choice with the cursor on the last leaf of the chain. Over a grammar of blocks the chain then lists
the leaves that are no layout, the search goes on from the last leaf of the draft
(`WrittenOn.trueCursor_eq`), and the lines stay indented.
-/

namespace Cloze

/-- The step chooses an offer. -/
def Script.Step.isChoice : Script.Step → Bool
  | literal _ | category _ _ => true
  | left | right => false

namespace Editor

open Draft Script

variable {e e₁ f : Editor} {n : NodeId} {g : Grammar} {settings : Settings} {s : Step}

/-! ### Steps of a script -/

theorem findOffer_eq_ok {text : String} (h : findOffer text e = .ok n e₁) :
    ∃ found, Editor.offers e = .ok found e₁ ∧ n ∈ found := by
  rw [findOffer_eq] at h
  split at h
  · rename_i found e' ho
    split at h
    · rename_i m hfind
      cases h
      exact ⟨found, ho, List.mem_of_find?_eq_some hfind⟩
    · cases h
  · cases h

/-- A step that succeeds moves the cursor or chooses what is offered. -/
theorem apply_eq_ok (h : apply s e = .ok () f) : f = e.moveLeft ∨ f = e.moveRight ∨
    s.isChoice = true ∧ ∃ found e₁ n value, Editor.offers e = .ok found e₁ ∧ n ∈ found ∧
      choose n value e₁ = .ok () f := by
  cases s with
  | left =>
    rw [apply, Edit.run_modify] at h
    cases h
    exact Or.inl rfl
  | right =>
    rw [apply, Edit.run_modify] at h
    cases h
    exact Or.inr (Or.inl rfl)
  | literal text =>
    obtain ⟨n, e₁, ho, h⟩ := Edit.exists_of_run_bind h
    obtain ⟨found, ho, hn⟩ := findOffer_eq_ok ho
    exact Or.inr (Or.inr ⟨rfl, found, e₁, n, none, ho, hn, h⟩)
  | category name value =>
    obtain ⟨n, e₁, ho, h⟩ := Edit.exists_of_run_bind h
    obtain ⟨found, ho, hn⟩ := findOffer_eq_ok ho
    exact Or.inr (Or.inr ⟨rfl, found, e₁, n, value, ho, hn, h⟩)

/-- The editors that steps lead to if all succeed and every choice is made with the cursor at the
end of the chain. -/
inductive Appends (g : Grammar) (settings : Settings) : Editor → Prop
  | start {shared : Draft} (h : Draft.Reached g shared) :
      Appends g settings (Editor.start g settings shared.unskippable)
  | step {e f : Editor} {s : Step} (h : Appends g settings e)
      (hs : s.isChoice = true → e.cursor = e.chain.getLast?) (hf : apply s e = .ok () f) :
      Appends g settings f

/-! ### Writing at the end -/

/-- An editor whose draft was only written on at its end. -/
structure WrittenOn (g : Grammar) (settings : Settings) (e : Editor) : Prop where
  reached : Reached g e
  settings : e.draft.settings = settings
  front : Front g e.draft e.draft.leaves.getLast?
  chain : e.chain = e.draft.leaves.filter fun n => !e.draft.isLayout n
  indented : e.draft.Indented

theorem writtenOn_start {shared : Draft} (h : Draft.Reached g shared) :
    WrittenOn g settings (Editor.start g settings shared.unskippable) := by
  have hreached : Reached g (Editor.start g settings shared.unskippable) :=
    .share (d := shared) (.start settings) h
  have hnil : (Editor.start g settings shared.unskippable).draft.leaves = [] := rfl
  refine ⟨hreached, rfl, ?_, by rw [hnil]; rfl, ?_, fun xs n ys heq => ?_⟩
  · rw [hnil]
    rfl
  · rw [hnil]
    exact ⟨fun n hn => (by cases hn), .nil⟩
  · simp [hnil] at heq

/-- The last block of a run of layout is where it ends. -/
theorem last?_blocksIn {d : Draft} {run : List NodeId} (h : d.OneWay run) :
    (d.blocksIn run).last? = run.getLast? := by
  rcases h with ⟨i, rfl, hi⟩ | h
  · simp [blocksIn, Blocks.last?, hi]
  · have hstarts : run.filter (fun n => d.role? n == some .indent) = [] :=
      List.filter_eq_nil_iff.2 fun x hx => by simp [h x hx]
    have hends : run.filter (fun n => d.role? n == some .dedent) = run :=
      List.filter_eq_self.2 fun x hx => by simp [h x hx]
    simp [blocksIn, Blocks.last?, hstarts, hends]

/-- At the end of the chain the search goes on from the last leaf of the draft. -/
theorem WrittenOn.trueCursor_eq (h : WrittenOn g settings e) (hc : e.cursor = e.chain.getLast?) :
    e.trueCursor = e.draft.leaves.getLast? := by
  have hin := h.indented.inLine
  rcases List.eq_nil_or_concat e.draft.leaves with hnil | ⟨ls, k, hl⟩
  · rw [trueCursor, hc, h.chain, hnil]
    rfl
  rw [List.concat_eq_append] at hl
  rw [hl] at hin
  by_cases hk : e.draft.role? k = some .newline ∨ e.draft.isLayout k = true
  · -- The cursor is on the newline of the last line, which knows the layout behind it.
    obtain ⟨ws, c, run, heq, hcn, hrun⟩ := hin.exists_run hk
    rw [heq] at hl
    have hlay := hrun.isLayout
    have hnone : run.filter (fun n => !e.draft.isLayout n) = [] :=
      List.filter_eq_nil_iff.2 fun x hx => by simp [hlay x hx]
    have hcursor : e.cursor = some c := by
      rw [hc, h.chain, hl]
      simp [hnone, not_isLayout_of_newline hcn]
    have hblocks := (h.indented.joins ws c run hl hcn).blocks
    rw [List.takeWhile_eq_self_iff.2 hlay] at hblocks
    rw [trueCursor, hcursor, Option.map_some, if_pos hcn, hblocks, Option.bind_some,
      last?_blocksIn hrun, hl, List.getLast?_append, List.getLast?_cons, Option.some_or]
  · rw [not_or, Bool.not_eq_true] at hk
    have hcursor : e.cursor = some k := by
      rw [hc, h.chain, hl]
      simp [hk.2]
    rw [trueCursor, hcursor, Option.map_some, if_neg hk.1, hl, List.getLast?_concat]

/-- The chain takes in what is chosen at its end, unless that is layout. -/
theorem chain_chosen {d : Draft} (hc : e.cursor = e.chain.getLast?) (hnodup : e.chain.Nodup) :
    (e.chosen n d).chain = e.chain ++ [n].filter fun m => !d.isLayout m := by
  rcases hlay : d.isLayout n with _ | _
  · rw [chosen, if_neg (by rw [← isLayout, hlay]; simp)]
    have hchain : (Editor.advance { e with draft := d } n).chain = e.chain ++ n :: [] :=
      chain_advance (List.append_nil _).symm hc.symm hnodup
    simpa [hlay] using hchain
  · rw [chosen, if_pos (by rw [← isLayout, hlay])]
    simp [hlay]

/-- What is chosen at the end is read last. -/
theorem WrittenOn.choose (h : WrittenOn g settings e) (hwf : g.WellFormed) (hg : g.NestsBlocks)
    (hc : e.cursor = e.chain.getLast?) {found : List NodeId} {value : Option String}
    (ho : Editor.offers e = .ok found e₁) (hn : n ∈ found)
    (hf : Editor.choose n value e₁ = .ok () f) : WrittenOn g settings f := by
  obtain ⟨hord, hd⟩ := h.reached.orderly hwf
  have hreached : Reached g (after (Editor.choose n value) e₁) :=
    (h.reached.of_offers ho).of_choose (hord.hasNode_of_offers ho n hn)
  rw [after, hf] at hreached
  have hblank := ((h.reached.of_offers ho).orderly hwf).1.blank
  obtain ⟨hfound, he₁⟩ := offers_eq_ok ho
  rw [h.trueCursor_eq hc] at hfound
  rw [choose_eq] at hf
  rcases hfill : fillWith n value e₁.draft with ⟨u, d⟩ | ⟨r, d⟩
  · rw [hfill] at hf
    obtain rfl : e₁.chosen n d = f := by simpa using hf
    obtain ⟨hk, hsl, hleaves, hindented, hfront⟩ :=
      (hd.over hwf).indents hg h.front h.indented hfound hblank hn hfill
    refine ⟨hreached, ?_, ?_, ?_, ?_⟩
    all_goals rw [draft_chosen]
    · rw [hsl.settings, hk.grows.settings, h.settings]
    · exact hfront
    · have hsame : ∀ m ∈ e.draft.leaves, d.isLayout m = e.draft.isLayout m := fun m hm => by
        rw [hsl.isLayout, isLayout, hk.grows.role? (hasNode_of_placed
          (hord.sound.mem_leaves.1 hm).1), isLayout]
      have hc₁ : e₁.cursor = e₁.chain.getLast? := by rw [he₁, hc]
      have hchain : e₁.chain = e.draft.leaves.filter fun m => !d.isLayout m := by
        rw [he₁, h.chain]
        exact List.filter_congr fun m hm => by rw [hsame m hm]
      rw [chain_chosen hc₁ (hchain ▸ hord.sound.nodup_leaves.filter _), hleaves,
        List.filter_append, hchain]
    · exact hindented
  · rw [hfill] at hf
    cases hf

theorem Appends.writtenOn (hwf : g.WellFormed) (hg : g.NestsBlocks) (h : Appends g settings e) :
    WrittenOn g settings e := by
  induction h with
  | start h => exact writtenOn_start h
  | @step e f s _ hs hf ih =>
    rcases apply_eq_ok hf with rfl | rfl | ⟨hchoice, found, e₁, n, value, ho, hn, hf⟩
    · exact ⟨ih.reached.act (a := .moveLeft) trivial, ih.settings, ih.front, ih.chain, ih.indented⟩
    · exact ⟨ih.reached.act (a := .moveRight) trivial, ih.settings, ih.front, ih.chain, ih.indented⟩
    · exact ih.choose hwf hg (hs hchoice) ho hn hf

end Editor

end Cloze
