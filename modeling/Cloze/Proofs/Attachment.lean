import Cloze.Proofs.Binding
import Cloze.Proofs.Lines

/-!
# Which newline a block joins

Whatever is called on a draft, the token of a newline is the indentation of its line all the time
(`Aligned`), and the newlines keep account of the block starts and ends: each was joined to the
newline that was the last before it when it was filled, and to no other. What was filled when, and
before which newline it came to stand, is written down along with the calls (`History`), and
the account agrees with it after every call (`Tallies`).
-/

namespace Cloze.Draft

open Edit

variable {d e f mid : Draft} {n m k : NodeId} {value : Option String} {g : Grammar}

/-! ### The tokens of newlines -/

/-- Newlines with blocks are placed, and have their indentation as their token. -/
def Aligned (d : Draft) : Prop :=
  ∀ n b, d.blocks? n = some b →
    n ∈ d.leaves ∧ (d.literal? n = none → d.token? n = some (d.indentation n))

theorem blocks?_indentLine (hn : d.HasNode n) (b : Blocks) (m : NodeId) :
    (d.indentLine n b).blocks? m = if m = n then some b else d.blocks? m := by
  split
  · rename_i hm
    rw [hm, blocks?_eq_some, note_indentLine hn]
  · rename_i hm
    exact blocks?_congr (by rw [node_indentLine_of_ne hm])

theorem blocks?_bind (d : Draft) (n : NodeId) (name : Option String) (m : NodeId) :
    (d.modifyNode n fun node => { node with note := some (.statement name) }).blocks? m
      = if n = m ∧ d.HasNode m then none else d.blocks? m := by
  split
  · rename_i hnm
    rw [blocks?, node_modifyNode, if_pos hnm]
  · rename_i hnm
    exact blocks?_congr (by rw [node_modifyNode, if_neg hnm])

theorem Aligned.start (g : Grammar) (settings : Settings) (u : List Grammar.SymbolId) :
    (Draft.start g settings u).Aligned := fun n b hb => by
  have hn := hasNode_of_note (blocks?_eq_some.1 hb)
  simp [HasNode, Draft.start, withChoice] at hn

/-- A node that is as it was keeps its token and its indentation. -/
theorem Aligned.of_same (ha : d.Aligned) (h : SameLinks d e) (hl : ∀ m ∈ d.leaves, m ∈ e.leaves)
    {b : Blocks} (hb : e.blocks? n = some b) (hnote : (e.node n).note = (d.node n).note)
    (hbody : (e.node n).body = (d.node n).body) :
    n ∈ e.leaves ∧ (e.literal? n = none → e.token? n = some (e.indentation n)) := by
  obtain ⟨hmem, htoken⟩ := ha n b ((blocks?_congr hnote).symm.trans hb)
  refine ⟨hl n hmem, fun hlit => ?_⟩
  rw [literal?, h.symbol] at hlit
  rw [token?_congr (h.symbol n) hbody, h.indentation hnote, htoken hlit]

theorem Aligned.indentLine (ha : d.Aligned) (h : d.Sound) (hk : k ∈ d.leaves) (b : Blocks) :
    (d.indentLine k b).Aligned := by
  have hr := retouches_indentLine d k b
  obtain ⟨hp, hl⟩ := h.mem_leaves.1 hk
  intro n b' hb
  by_cases hnk : n = k
  · subst hnk
    refine ⟨by rwa [hr.leaves], fun hlit => token?_indentLine (hasNode_of_placed hp) hl ?_⟩
    rwa [literal?, hr.links.symbol] at hlit
  · have hnode := node_indentLine_of_ne (d := d) hnk b
    exact ha.of_same hr.links (fun m hm => by rwa [hr.leaves]) hb (by rw [hnode]) (by rw [hnode])

theorem Aligned.acts (ha : d.Aligned) (h : d.Sound) (hn : n ∈ d.leaves) (hacts : Acts d n e) :
    e.Aligned := by
  obtain ⟨hp, hl⟩ := h.mem_leaves.1 hn
  cases hacts with
  | newline => exact ha.indentLine h hn _
  | block _ _ hm =>
    refine ha.indentLine h ?_ _
    rw [h.leaves_eq_around hp hl]
    exact List.mem_append_left _ (h.mem_leaves_of_walkTo hn hm).1
  | @binds p s =>
    have hr := retouches_note d s (some (.statement (d.token? p)))
    intro m b hb
    rw [blocks?_bind] at hb
    split at hb
    · cases hb
    · rename_i hms
      have hnode : (d.modifyNode s fun node =>
          { node with note := some (.statement (d.token? p)) }).node m = d.node m := by
        rw [node_modifyNode, if_neg hms]
      have hblocks := blocks?_congr (d := d) (e := _) (congrArg Node.note hnode)
      exact ha.of_same hr.links (fun m hm => by rwa [hr.leaves]) (hblocks.trans hb)
        (by rw [hnode]) (by rw [hnode])
  | idle => exact ha

theorem Aligned.change (ha : d.Aligned) (h : d.Sound) (hc : Change d e) : e.Aligned := by
  cases hc with
  | grow hk hw =>
    intro n b hb
    obtain ⟨hmem, htoken⟩ := ha n b ((blocks?_congr (hw n).1).symm.trans hb)
    have hn := hasNode_of_placed (h.mem_leaves.1 hmem).1
    refine ⟨by rwa [hk.leaves h], fun hlit => ?_⟩
    rw [literal?, hk.grows.symbol hn] at hlit
    rw [hk.grows.token? hn, hk.grows.indentation h.linked hk.sound.linked hn, htoken hlit]
  | @token k value hk hc =>
    have hr := retouches_writeToken d k value
    obtain ⟨-, hlit, ht, -⟩ := checkToken_eq_ok.1 hc
    intro n b hb
    have hnk : n ≠ k := by
      rintro rfl
      rw [(ha n b ((blocks?_congr (note_writeToken d n n value)).symm.trans hb)).2 hlit] at ht
      cases ht
    have hnode := node_writeToken_of_ne (d := d) hnk value
    exact ha.of_same hr.links (fun m hm => by rwa [hr.leaves]) hb (by rw [hnode]) (by rw [hnode])
  | @place k hk hl hp hc _ =>
    have hf := fills_place hl hp hc
    intro n b hb
    obtain ⟨p, placed, hmoved⟩ := moved_place d k n
    exact ha.of_same (hf.sound h hk).2 (hf.mem_leaves h hk).2 hb (by rw [hmoved]) (by rw [hmoved])
  | act hn hacts => exact ha.acts h hn hacts

theorem Reached.aligned (hg : g.WellFormed) (h : Reached g d) : d.Aligned :=
  h.invariant hg (Aligned.start g · []) fun hs hc ha => ha.change hs hc

/-! ### What roles do about blocks -/

/-- The last newline among the leaves before a leaf. -/
def newlineBefore? (d : Draft) (n : NodeId) : Option NodeId :=
  ((d.leaves.takeWhile (· != n)).filter fun m => d.role? m == some .newline).getLast?

theorem blocksAt_of_fitting (hf : d.Fitting) (hr : d.role? n = some .newline) :
    d.blocksAt n = .ok ((d.blocks? n).getD {}) := by
  rcases hnote : (d.node n).note with _ | note
  · simp [blocksAt, blocks?, hr, hnote]
  · have hrole := hf n note hnote
    rw [hr, Option.some.injEq] at hrole
    cases note with
    | newline b => simp [blocksAt, blocks?, hr, hnote]
    | statement name => cases hrole

theorem Fitting.blocks?_eq_none (hf : d.Fitting) (hr : d.role? n ≠ some .newline) :
    d.blocks? n = none := by
  rcases hb : d.blocks? n with _ | b
  · rfl
  · exact absurd (hf n _ (blocks?_eq_some.1 hb)) hr

/-- The walk to the left from a leaf meets the last newline before it first. -/
theorem Sound.head?_walkTo_newline (h : d.Sound) (hn : n ∈ d.leaves) :
    (d.walkTo n .leafBefore .newline).head? = d.newlineBefore? n := by
  obtain ⟨hp, hl⟩ := h.mem_leaves.1 hn
  have hleaves := h.leaves_eq_around hp hl
  have hnot : n ∉ d.before n := fun hmem => by
    have hnodup := h.nodup_leaves
    rw [hleaves] at hnodup
    exact (List.nodup_append.1 hnodup).2.2 n hmem n (by simp) rfl
  have htake : d.leaves.takeWhile (· != n) = d.before n := by
    have hne : ∀ m ∈ d.before n, (m != n) = true := fun m hm => by
      rw [bne_iff_ne]
      rintro rfl
      exact hnot hm
    rw [hleaves, List.takeWhile_append_of_pos hne]
    simp
  rw [walkTo, h.walk_leafBefore hn, newlineBefore?, htake, List.filter_reverse, List.head?_reverse]

/-- What the role of a placed leaf does about blocks. -/
inductive Attaches (d : Draft) (n : NodeId) : Except Refusal Draft → Prop
  | opens {e : Draft} (hr : d.role? n = some .newline) (he : Retouches d e)
      (hb : ∀ k, e.blocks? k = if k = n then some ((d.blocks? n).getD {}) else d.blocks? k) :
      Attaches d n (.ok e)
  | joins {role : Role} {m : NodeId} {e : Draft} (hrole : role = .indent ∨ role = .dedent)
      (hr : d.role? n = some role) (hm : d.newlineBefore? n = some m) (he : Retouches d e)
      (hb : ∀ k, e.blocks? k
        = if k = m then some (((d.blocks? m).getD {}).add n role) else d.blocks? k) :
      Attaches d n (.ok e)
  | apart {e : Draft} (hr : d.role? n ≠ some .newline) (hlay : d.isLayout n = false)
      (he : Retouches d e) (hb : ∀ k, e.blocks? k = d.blocks? k) : Attaches d n (.ok e)
  | refused {role : Role} {missing : Missing} (hr : d.role? n ≠ some .newline) :
      Attaches d n (.error (.missingContext n role missing))

theorem Sound.attaches_acts (h : d.Sound) (hf : d.Fitting) (hn : n ∈ d.leaves)
    (ha : Acts d n e) : Attaches d n (.ok e) := by
  have hhas : ∀ m ∈ d.leaves, d.HasNode m := fun m hm => hasNode_of_placed (h.mem_leaves.1 hm).1
  have hblocks : ∀ {m b}, d.role? m = some .newline → d.blocksAt m = .ok b →
      b = (d.blocks? m).getD {} := fun hr hb => by
    rw [blocksAt_of_fitting hf hr] at hb
    exact (Except.ok.inj hb).symm
  cases ha with
  | newline hr hb =>
    rw [hblocks hr hb]
    exact .opens hr (retouches_indentLine d n _) (blocks?_indentLine (hhas n hn) _)
  | @block role m b hrole hr hm hb =>
    obtain ⟨hbefore, hrm⟩ := h.mem_leaves_of_walkTo hn hm
    obtain ⟨hp, hl⟩ := h.mem_leaves.1 hn
    have hmem : m ∈ d.leaves := by
      rw [h.leaves_eq_around hp hl]
      exact List.mem_append_left _ hbefore
    rw [hblocks hrm hb]
    exact .joins hrole hr (h.head?_walkTo_newline hn ▸ hm) (retouches_indentLine d m _)
      (blocks?_indentLine (hhas m hmem) _)
  | @binds p s hr _ _ hs =>
    refine .apart (by simp [hr]) (by simp [isLayout, hr, Role.isLayout]) (retouches_note d s _)
      fun k => ?_
    rw [blocks?_bind]
    split
    · rename_i hsk
      rw [← hsk.1, hf.blocks?_eq_none (by rw [role?_of_statementsAbove hs]; simp)]
    · rfl
  | idle hidle =>
    refine .apart (fun hr => (hidle _ hr).1 rfl) ?_ (.refl d) fun _ => rfl
    rw [← Bool.not_eq_true, isLayout_iff]
    rintro (hr | hr)
    · exact (hidle _ hr).2.1 rfl
    · exact (hidle _ hr).2.2 rfl

theorem Sound.attaches_onFill (h : d.Sound) (hf : d.Fitting) (hn : n ∈ d.leaves) :
    Attaches d n (d.onFill n) := by
  rcases ha : d.onFill n with r | e
  · obtain ⟨role, missing, hr, rfl⟩ | ⟨m, role, note, hrole, hnote, hne, -⟩ := onFill_eq_error ha
    · refine .refused fun hnew => ?_
      simp only [onFill, hnew, fillNewline, blocksAt_of_fitting hf hnew] at ha
      cases ha
    · rw [hf m note hnote, Option.some.injEq] at hrole
      exact absurd hrole hne
  · exact h.attaches_acts hf hn (acts_onFill ha)

/-! ### History -/

/-- What calls have done about block starts and ends. -/
structure History where
  /-- The leaves whose filling was refused for want of something around them. -/
  lost : List NodeId := []
  /-- The block starts and ends that were filled, each with the last newline before it among the
  leaves at that moment. -/
  joined : List (NodeId × Option NodeId) := []

namespace History

/-- A leaf is filled, with or without a value. -/
def fill (r : History) (d : Draft) (n : NodeId) (value : Option String) : History :=
  match fillWith n value d with
  | .ok _ e =>
    if !d.isPlaced n && d.isLayout n then
      { r with joined := r.joined ++ [(n, e.newlineBefore? n)] }
    else
      r
  | .error (.missingContext _ _ _) _ => { r with lost := r.lost ++ [n] }
  | .error _ _ => r

/-- A call comes on a draft. -/
def call (r : History) (d : Draft) : Call → History
  | .fill n => r.fill d n none
  | .fillWith n value => r.fill d n value
  | .offers _ | .resume _ | .reveal _ | .giveToken _ _ => r

/-- What was filled when the newline was the last before it. -/
def joinedTo (r : History) (m : NodeId) : List NodeId :=
  (r.joined.filter fun p => p.2 == some m).map Prod.fst

end History

/-- The drafts that any calls lead to, together with what the calls have done. -/
inductive Recorded (g : Grammar) : Draft → History → Prop
  | start (settings : Settings) : Recorded g (Draft.start g settings []) {}
  | call {d : Draft} {r : History} {c : Call} (h : Recorded g d r) (hc : c.On d) :
      Recorded g (c.after d) (r.call d c)
  | share {d e : Draft} {r : History} (h : Recorded g d r) (h' : Reached g e) :
      Recorded g { d with unskippable := e.unskippable } r

variable {r : History}

/-- Calls on nodes that are there when they are made are recorded one after the other. -/
theorem Recorded.foldl : ∀ {cs : List Call} {d : Draft} {r : History}, Recorded g d r →
    (d.callAll? cs).isSome →
    Recorded g (cs.foldl (fun p c => (c.after p.1, p.2.call p.1 c)) (d, r)).1
      (cs.foldl (fun p c => (c.after p.1, p.2.call p.1 c)) (d, r)).2
  | [], _, _, h, _ => h
  | c :: cs, d, r, h, hon => by
    unfold callAll? at hon
    split at hon
    · rename_i hc
      exact (h.call hc).foldl hon
    · cases hon

theorem Recorded.reached (h : Recorded g d r) : Reached g d := by
  induction h with
  | start settings => exact .start settings
  | call _ hc ih => exact ih.call hc
  | share _ h' ih => exact ih.share h'

/-- Every draft in use has a history. -/
theorem Reached.recorded (h : Reached g d) : ∃ r, Recorded g d r := by
  induction h with
  | start settings => exact ⟨_, .start settings⟩
  | call _ hc ih =>
    obtain ⟨r, hr⟩ := ih
    exact ⟨_, hr.call hc⟩
  | share _ h' ih _ =>
    obtain ⟨r, hr⟩ := ih
    exact ⟨r, hr.share h'⟩

/-! ### Tallies -/

/-- What newlines keep account of is what calls have done. -/
structure Tallies (d : Draft) (r : History) : Prop where
  noted : ∀ m, (d.blocks? m).isSome ↔ m ∈ d.leaves ∧ d.role? m = some .newline
  lost : ∀ m ∈ r.lost, m ∈ d.leaves
  joined : (r.joined.map Prod.fst).Perm
    (d.leaves.filter fun n => d.isLayout n && !r.lost.contains n)
  newline : ∀ p ∈ r.joined, ∃ m, p.2 = some m ∧ (d.blocks? m).isSome
  blocks : ∀ m, (d.blocks? m).getD {} = d.blocksIn (r.joinedTo m)

theorem Tallies.start (g : Grammar) (settings : Settings) :
    Tallies (Draft.start g settings []) {} := by
  have hb : ∀ m, (Draft.start g settings []).blocks? m = none := fun m => by
    rw [blocks?, node_of_not_has (by simp [HasNode, Draft.start, withChoice])]
    rfl
  have hl : (Draft.start g settings []).leaves = [] := rfl
  exact ⟨fun m => by simp [hb, hl], by simp, by simp [hl], by simp, fun m => by
    simp [hb, blocksIn, History.joinedTo]⟩

theorem blocksIn_congr {ns : List NodeId} (h : ∀ n ∈ ns, e.role? n = d.role? n) :
    e.blocksIn ns = d.blocksIn ns := by
  rw [blocksIn, blocksIn, Blocks.mk.injEq]
  exact ⟨List.filter_congr fun n hn => by rw [h n hn], List.filter_congr fun n hn => by rw [h n hn]⟩

theorem blocksIn_concat {ns : List NodeId} {role : Role} (hrole : role = .indent ∨ role = .dedent)
    (hr : d.role? n = some role) : d.blocksIn (ns ++ [n]) = (d.blocksIn ns).add n role := by
  rcases hrole with rfl | rfl <;> simp [blocksIn, Blocks.add, hr]

theorem Tallies.mem_leaves (ht : Tallies d r) {p : NodeId × Option NodeId} (hp : p ∈ r.joined) :
    p.1 ∈ d.leaves :=
  List.mem_of_mem_filter (ht.joined.mem_iff.1 (List.mem_map_of_mem hp))

theorem Tallies.mem_joinedTo (ht : Tallies d r) (hn : n ∈ r.joinedTo m) : n ∈ d.leaves := by
  obtain ⟨p, hp, rfl⟩ := List.mem_map.1 hn
  exact ht.mem_leaves (List.mem_of_mem_filter hp)

/-- A call that places no leaf changes no tally. -/
theorem Tallies.of_same (ht : Tallies d r) (hl : e.leaves = d.leaves)
    (hb : ∀ m, e.blocks? m = d.blocks? m) (hr : ∀ m ∈ d.leaves, e.role? m = d.role? m) :
    Tallies e r where
  noted := fun m => by
    rw [hb, hl, ht.noted]
    exact and_congr_right fun hm => by rw [hr m hm]
  lost := fun m hm => hl ▸ ht.lost m hm
  joined := by
    rw [hl, List.filter_congr fun m hm => by rw [isLayout, hr m hm, ← isLayout]]
    exact ht.joined
  newline := fun p hp => by
    simp only [hb]
    exact ht.newline p hp
  blocks := fun m => by
    rw [hb, ht.blocks, blocksIn_congr fun n hn => hr n (ht.mem_joinedTo hn)]

/-- One more leaf is placed. -/
structure Gains (d : Draft) (n : NodeId) (e : Draft) : Prop where
  leaves : ∃ xs ys, d.leaves = xs ++ ys ∧ e.leaves = xs ++ n :: ys
  fresh : n ∉ d.leaves
  role? : ∀ m, e.role? m = d.role? m

theorem Gains.mem_leaves (h : Gains d n e) : k ∈ e.leaves ↔ k = n ∨ k ∈ d.leaves := by
  obtain ⟨xs, ys, hd, he⟩ := h.leaves
  rw [hd, he, List.mem_append, List.mem_cons, List.mem_append]
  tauto

theorem Gains.isLayout (h : Gains d n e) (m : NodeId) : e.isLayout m = d.isLayout m := by
  rw [Draft.isLayout, h.role?, Draft.isLayout]

theorem Gains.filter (h : Gains d n e) {p q : NodeId → Bool} (hpq : ∀ m ∈ d.leaves, q m = p m) :
    (e.leaves.filter q).Perm (if q n then n :: d.leaves.filter p else d.leaves.filter p) := by
  obtain ⟨xs, ys, hd, he⟩ := h.leaves
  rw [hd] at hpq ⊢
  rw [he, ← List.filter_congr hpq, ← List.filter_cons]
  exact List.perm_middle.filter q

/-- A leaf that joins no newline. -/
theorem Tallies.apart (ht : Tallies d r) (h : Gains d n e) {lost : List NodeId}
    (hlost : lost = r.lost ∧ d.isLayout n = false ∨ lost = r.lost ++ [n])
    (hnoted : ∀ m, (e.blocks? m).isSome ↔ m ∈ e.leaves ∧ e.role? m = some .newline)
    (hb : ∀ m, (d.blocks? m).isSome → (e.blocks? m).isSome)
    (hget : ∀ m, (e.blocks? m).getD {} = (d.blocks? m).getD {}) :
    Tallies e { r with lost := lost } where
  noted := hnoted
  lost := fun m hm => by
    rw [h.mem_leaves]
    rcases hlost with ⟨rfl, -⟩ | rfl
    · exact Or.inr (ht.lost m hm)
    · rcases List.mem_append.1 hm with hm | hm
      · exact Or.inr (ht.lost m hm)
      · exact Or.inl (List.mem_singleton.1 hm)
  joined := by
    have hfilter := h.filter (p := fun k => d.isLayout k && !r.lost.contains k)
      (q := fun k => e.isLayout k && !lost.contains k) fun k hk => by
        have hkn : k ≠ n := fun heq => h.fresh (heq ▸ hk)
        rw [h.isLayout]
        rcases hlost with ⟨rfl, -⟩ | rfl
        · rfl
        · simp [hkn]
    rw [if_neg (by
      rw [h.isLayout]
      rcases hlost with ⟨-, hlay⟩ | rfl <;> simp [*])] at hfilter
    exact ht.joined.trans hfilter.symm
  newline := fun p hp => (ht.newline p hp).imp fun m hm => ⟨hm.1, hb m hm.2⟩
  blocks := fun m => by
    rw [hget, ht.blocks]
    exact (blocksIn_congr fun n _ => h.role? n).symm

/-- A block start or end that joins the newline it was filled behind. -/
theorem Tallies.join (ht : Tallies d r) (h : Gains d n e) {role : Role}
    (hrole : role = .indent ∨ role = .dedent) (hr : d.role? n = some role)
    (hm : m ∈ d.leaves ∧ d.role? m = some .newline)
    (hb : ∀ k, e.blocks? k
      = if k = m then some (((d.blocks? m).getD {}).add n role) else d.blocks? k) :
    Tallies e { r with joined := r.joined ++ [(n, some m)] } where
  noted := fun k => by
    have hlay : d.isLayout n = true := isLayout_iff.2 (by rcases hrole with rfl | rfl <;> simp [hr])
    rw [hb, h.mem_leaves, h.role?]
    split
    · rename_i hk
      simp [hk, hm]
    · rw [ht.noted]
      refine and_congr_left fun hk => (or_iff_right ?_).symm
      rintro rfl
      exact not_newline_of_isLayout hlay hk
  lost := fun k hk => h.mem_leaves.2 (Or.inr (ht.lost k hk))
  joined := by
    have hlay : d.isLayout n = true := isLayout_iff.2 (by rcases hrole with rfl | rfl <;> simp [hr])
    have hfresh : n ∉ r.lost := fun hn => h.fresh (ht.lost n hn)
    have hfilter := h.filter (p := fun k => d.isLayout k && !r.lost.contains k)
      (q := fun k => e.isLayout k && !r.lost.contains k) fun k _ => by rw [h.isLayout]
    rw [if_pos (by simp [h.isLayout, hlay, hfresh])] at hfilter
    rw [List.map_append, List.map_singleton]
    exact List.perm_append_comm.trans ((ht.joined.cons n).trans hfilter.symm)
  newline := fun p hp => by
    rcases List.mem_append.1 hp with hp | hp
    · obtain ⟨k, hk, hsome⟩ := ht.newline p hp
      refine ⟨k, hk, ?_⟩
      rw [hb]
      split
      · rfl
      · exact hsome
    · rw [List.mem_singleton.1 hp]
      exact ⟨m, rfl, by simp [hb]⟩
  blocks := fun k => by
    have hto : ∀ {k}, History.joinedTo { r with joined := r.joined ++ [(n, some m)] } k
        = if k = m then r.joinedTo m ++ [n] else r.joinedTo k := fun {k} => by
      rw [History.joinedTo, List.filter_append, List.map_append]
      split
      · rename_i hk
        simp [hk, History.joinedTo]
      · rename_i hk
        have hmk : (some m == some k) = false := by simpa using Ne.symm hk
        simp [hmk, History.joinedTo]
    rw [blocksIn_congr fun n _ => h.role? n, hto, hb]
    split
    · rw [blocksIn_concat hrole hr, Option.getD_some, ht.blocks]
    · exact ht.blocks k

theorem Puts.gains (hp : Puts d n mid) (h : d.Sound) (hn : d.HasNode n)
    (hr : Retouches (mid.place n) e) : Gains d n e where
  leaves := by
    obtain ⟨behind, hd, he⟩ := (hp.fills hr).leaves h hn
    exact ⟨_, behind, hd, he⟩
  fresh := fun hmem => by
    have hgap := hp.gap
    rw [(h.mem_leaves.1 hmem).1] at hgap
    cases hgap
  role? := ((hp.fills hr).sound h hn).2.role?

theorem newlineBefore?_eq_some (hm : d.newlineBefore? n = some m) :
    m ∈ d.leaves ∧ m ≠ n ∧ d.role? m = some .newline := by
  obtain ⟨hmem, hr⟩ := List.mem_filter.1 (List.mem_of_getLast? hm)
  refine ⟨(List.takeWhile_sublist _).subset hmem, ?_, by simpa using hr⟩
  simpa using List.mem_takeWhile_imp hmem

theorem Retouches.newlineBefore? (h : Retouches d e) (n : NodeId) :
    e.newlineBefore? n = d.newlineBefore? n := by
  simp only [Draft.newlineBefore?, h.leaves, h.links.role?]

/-- A leaf that is no newline and leaves all blocks alone is noted by none. -/
theorem Tallies.noted_of_apart (ht : Tallies d r) (h : Gains d n e) (hr : d.role? n ≠ some .newline)
    (hb : ∀ k, e.blocks? k = d.blocks? k) (m : NodeId) :
    (e.blocks? m).isSome ↔ m ∈ e.leaves ∧ e.role? m = some .newline := by
  rw [hb, ht.noted, h.mem_leaves, h.role?]
  refine and_congr_left fun hm => (or_iff_right ?_).symm
  rintro rfl
  exact hr hm

section Placed

variable (ht : Tallies d r) (h : d.Sound) (hn : d.HasNode n) (hp : Puts d n mid)
include ht h hn hp

/-- A newline is placed, and opens an account. -/
theorem Tallies.opens (hr : d.role? n = some .newline) (he : Retouches (mid.place n) e)
    (hb : ∀ k, e.blocks? k = if k = n then some ((d.blocks? n).getD {}) else d.blocks? k) :
    Tallies e r := by
  have hgains := hp.gains h hn he
  have hnone : d.blocks? n = none := by
    by_contra hne
    exact hgains.fresh ((ht.noted n).1 (Option.isSome_iff_ne_none.2 hne)).1
  rw [hnone, Option.getD_none] at hb
  refine ht.apart hgains (Or.inl ⟨rfl, not_isLayout_of_newline hr⟩) (fun k => ?_) (fun k hk => ?_)
    fun k => ?_
  · rw [hb, hgains.mem_leaves, hgains.role?]
    split
    · rename_i hk
      simp [hk, hr]
    · rename_i hk
      rw [ht.noted, or_iff_right hk]
  · rw [hb]
    split
    · rfl
    · exact hk
  · rw [hb]
    split
    · rename_i hk
      rw [hk, hnone]
      rfl
    · rfl

/-- A leaf is placed, and its role has done its part. -/
theorem Tallies.filled (hat : Attaches (mid.place n) n (.ok e)) :
    Tallies e (if d.isLayout n then { r with joined := r.joined ++ [(n, e.newlineBefore? n)] }
      else r) := by
  have hblocks : ∀ k, (mid.place n).blocks? k = d.blocks? k := fun k => blocks?_congr (hp.note k)
  have hrole := ((hp.fills (.refl _)).sound h hn).2.role?
  cases hat with
  | opens hr he hb =>
    rw [hrole] at hr
    simp only [hblocks] at hb
    rw [not_isLayout_of_newline hr, if_neg Bool.false_ne_true]
    exact ht.opens h hn hp hr he hb
  | @joins role m _ hlay hr hm he hb =>
    obtain ⟨hmem, hmn, hrm⟩ := newlineBefore?_eq_some hm
    rw [hrole] at hr hrm
    have hmd : m ∈ d.leaves := ((hp.gains h hn (.refl _)).mem_leaves.1 hmem).resolve_left hmn
    simp only [hblocks] at hb
    rw [if_pos (isLayout_iff.2 (by rcases hlay with rfl | rfl <;> simp [hr])),
      he.newlineBefore?, hm]
    exact ht.join (hp.gains h hn he) hlay hr ⟨hmd, hrm⟩ hb
  | apart hr hlay he hb =>
    have hgains := hp.gains h hn he
    rw [hrole] at hr
    rw [isLayout, hrole, ← isLayout] at hlay
    simp only [hblocks] at hb
    rw [hlay, if_neg Bool.false_ne_true]
    exact ht.apart hgains (Or.inl ⟨rfl, hlay⟩) (ht.noted_of_apart hgains hr hb)
      (fun k hk => by rwa [hb]) fun k => by rw [hb]

/-- A leaf is placed, and its role has missed something around it. -/
theorem Tallies.stuck {refusal : Refusal} (hat : Attaches (mid.place n) n (.error refusal)) :
    Tallies (mid.place n) { r with lost := r.lost ++ [n] } := by
  have hblocks : ∀ k, (mid.place n).blocks? k = d.blocks? k := fun k => blocks?_congr (hp.note k)
  have hgains := hp.gains h hn (.refl _)
  cases hat with
  | refused hr =>
    rw [hgains.role?] at hr
    exact ht.apart hgains (Or.inr rfl) (ht.noted_of_apart hgains hr hblocks)
      (fun k hk => by rwa [hblocks]) fun k => by rw [hblocks]

end Placed

/-- Filling a leaf changes the tallies as it is written down. -/
theorem Tallies.fill (ht : Tallies d r) (h : d.Sound) (hf : d.Fitting) (hn : d.HasNode n)
    (value : Option String) : Tallies (after (fillWith n value) d) (r.fill d n value) := by
  have hattaches : ∀ {mid : Draft}, Puts d n mid →
      Attaches (mid.place n) n ((mid.place n).onFill n) := fun hp =>
    ((hp.fills (.refl _)).sound h hn).1.attaches_onFill (hp.fitting hf h hn)
      ((hp.fills (.refl _)).mem_leaves h hn).1
  rw [after, History.fill]
  have hout := fillOutcome_fillWith hn value
  generalize fillWith n value d = result at hout
  cases hout with
  | refused hr =>
    show Tallies d _
    split
    · rename_i heq
      cases heq
    · rename_i heq
      cases heq
      exact absurd rfl (hr _ _ _)
    · exact ht
  | already _ hp he =>
    simp only [isPlaced, hp, Bool.not_true, Bool.false_and, Bool.false_eq_true, if_false]
    exact ht.of_same he.retouches.leaves (fun m => blocks?_congr (he.note m))
      fun m _ => he.retouches.links.role? m
  | @filled mid e hp ha =>
    have hgap : (!d.isPlaced n) = true := by rw [isPlaced, hp.gap]; rfl
    dsimp only
    rw [hgap, Bool.true_and]
    exact ht.filled h hn hp (ha ▸ hattaches hp)
  | @stuck mid refusal hp ha =>
    have hat := hattaches hp
    rw [ha] at hat
    have hstuck := ht.stuck h hn hp hat
    cases hat with
    | refused => exact hstuck

/-- Whatever is called, the tallies go along with what is written down. -/
theorem Tallies.call (ht : Tallies d r) (h : d.Sound) (hf : d.Fitting) {c : Call} (hc : c.On d) :
    Tallies (c.after d) (r.call d c) := by
  cases hs : c.isSearch with
  | true =>
    obtain ⟨hk, hw⟩ := h.grows_of_search hc hs
    have hcall : r.call d c = r := by
      cases c <;> first | rfl | cases hs
    rw [hcall]
    exact ht.of_same (hk.leaves h) (fun m => blocks?_congr (hw m).1) fun m hm =>
      hk.grows.role? (hasNode_of_placed (h.mem_leaves.1 hm).1)
  | false =>
    cases c with
    | offers | resume | reveal => cases hs
    | giveToken n value =>
      simp only [Call.after, Draft.after, giveToken_eq]
      have hr := retouches_writeToken d n value
      cases d.checkToken n value with
      | error _ => exact ht
      | ok _ =>
        exact ht.of_same hr.leaves (fun m => blocks?_congr (note_writeToken d n m value))
          fun m _ => hr.links.role? m
    | fill n => exact ht.fill h hf hc none
    | fillWith n value => exact ht.fill h hf hc value

theorem Recorded.tallies (hg : g.WellFormed) (h : Recorded g d r) : Tallies d r := by
  induction h with
  | start settings => exact .start g settings
  | call h hc ih => exact ih.call (h.reached.sound hg).1 (h.reached.fitting hg) hc
  | share h h' ih =>
    obtain ⟨hd, hgd⟩ := h.reached.sound hg
    obtain ⟨he, hge⟩ := h'.sound hg
    have hk := hd.remember (by rw [hgd, ← hge]; exact he.honest)
    exact ih.of_same (hk.leaves hd) (fun _ => rfl) fun _ _ => rfl

/-- Entries that are sorted by where they belong are all there, each once. -/
theorem flatMap_filter_perm {α : Type} {keys : List NodeId} (hk : keys.Nodup) :
    ∀ {entries : List (α × Option NodeId)}, (∀ p ∈ entries, ∃ m ∈ keys, p.2 = some m) →
      (keys.flatMap fun m => entries.filter fun p => p.2 == some m).Perm entries
  | [], _ => by simp
  | p :: entries, h => by
    obtain ⟨⟨m, hm, hp⟩, hrest⟩ := List.forall_mem_cons.1 h
    have hsplit : ∀ k, (p :: entries).filter (fun q => q.2 == some k)
        = (if m = k then [p] else []) ++ entries.filter fun q => q.2 == some k := fun k => by
      rw [List.filter_cons, hp]
      by_cases hmk : m = k <;> simp [hmk]
    have hone : (keys.flatMap fun k => if m = k then [p] else []) = [p] := by
      obtain ⟨xs, ys, rfl⟩ := List.append_of_mem hm
      have hnot := (List.nodup_cons.1 (List.nodup_middle.1 hk)).1
      have hnil : ∀ zs : List NodeId, (∀ k ∈ zs, k ∈ xs ++ ys) →
          (zs.flatMap fun k => if m = k then [p] else []) = [] := fun zs hzs =>
        List.flatMap_eq_nil_iff.2 fun k hk => if_neg (by
          rintro rfl
          exact hnot (hzs m hk))
      rw [List.flatMap_append, List.flatMap_cons, if_pos rfl,
        hnil xs fun k hk => List.mem_append_left _ hk,
        hnil ys fun k hk => List.mem_append_right _ hk]
      rfl
    simp only [hsplit]
    refine (List.flatMap_append_perm keys _ _).symm.trans ?_
    rw [hone]
    exact (flatMap_filter_perm hk hrest).cons p

/-- The leaves of a role that newlines keep account of are all that were filled and not lost. -/
theorem Tallies.perm_listed (ht : Tallies d r) (h : d.Sound) {role : Role}
    (hrole : role = .indent ∨ role = .dedent) :
    (d.leaves.flatMap fun m => (r.joinedTo m).filter fun n => d.role? n == some role).Perm
      (d.leaves.filter fun n => d.role? n == some role && !r.lost.contains n) := by
  have hkeys : ∀ p ∈ r.joined, ∃ m ∈ d.leaves, p.2 = some m := fun p hp => by
    obtain ⟨m, hm, hsome⟩ := ht.newline p hp
    exact ⟨m, ((ht.noted m).1 hsome).1, hm⟩
  have hall : (d.leaves.flatMap r.joinedTo).Perm (r.joined.map Prod.fst) := by
    have hmap : d.leaves.flatMap r.joinedTo
        = (d.leaves.flatMap fun m => r.joined.filter fun p => p.2 == some m).map Prod.fst := by
      rw [List.map_flatMap]
      rfl
    rw [hmap]
    exact (flatMap_filter_perm h.nodup_leaves hkeys).map Prod.fst
  have hfilter := (hall.trans ht.joined).filter fun n => d.role? n == some role
  rw [List.filter_flatMap, List.filter_filter] at hfilter
  refine hfilter.trans (.of_eq (List.filter_congr fun n _ => ?_))
  by_cases hr : d.role? n = some role
  · have hlay : d.isLayout n = true := isLayout_iff.2 (by rcases hrole with rfl | rfl <;> simp [hr])
    simp [hr, hlay]
  · rw [beq_eq_false_iff_ne.2 hr, Bool.false_and, Bool.false_and]

/-- The tokens of newlines are the indentation of their lines, and newlines keep account of all
block starts and ends: each is listed once, by the newline that was the last before it when it was
filled, but for those that were refused then. -/
theorem newlines_keep_account {definition : Grammar.Definition} (hg : definition.build = .ok g)
    (h : Recorded g d r) :
    (∀ n ∈ d.leaves, d.role? n = some .newline → d.literal? n = none → ∃ b, d.blocks? n = some b ∧
      d.token? n = some (String.join (List.replicate
        ((d.ancestors n).countP (fun m => d.role? m == some .statement) - 1 + b.starts.length
          - b.ends.length) d.settings.indentUnit))) ∧
    (d.leaves.flatMap fun m => ((d.blocks? m).getD {}).starts).Perm
      (d.leaves.filter fun n => d.role? n == some .indent && !r.lost.contains n) ∧
    (d.leaves.flatMap fun m => ((d.blocks? m).getD {}).ends).Perm
      (d.leaves.filter fun n => d.role? n == some .dedent && !r.lost.contains n) ∧
    ∀ m b, d.blocks? m = some b → (m ∈ d.leaves ∧ d.role? m = some .newline) ∧
      ∀ n ∈ b.starts ++ b.ends, (n, some m) ∈ r.joined := by
  have hwf := Grammar.Definition.wellFormed_build hg
  have hs := (h.reached.sound hwf).1
  have ht := h.tallies hwf
  refine ⟨fun n hn hr hlit => ?_, ?_, ?_,
    fun m b hb => ⟨(ht.noted m).1 (by rw [hb]; rfl), fun n hn => ?_⟩⟩
  · obtain ⟨b, hb⟩ := Option.isSome_iff_exists.1 ((ht.noted n).2 ⟨hn, hr⟩)
    refine ⟨b, hb, ?_⟩
    rw [(h.reached.aligned hwf n b hb).2 hlit, indentation, indentCount, hb, Option.getD_some,
      statementsAbove, List.countP_eq_length_filter]
  · simp only [ht.blocks]
    exact ht.perm_listed hs (Or.inl rfl)
  · simp only [ht.blocks]
    exact ht.perm_listed hs (Or.inr rfl)
  · have hblocks := ht.blocks m
    rw [hb, Option.getD_some] at hblocks
    have hmem : n ∈ r.joinedTo m := by
      rw [hblocks] at hn
      exact (List.mem_append.1 hn).elim List.mem_of_mem_filter List.mem_of_mem_filter
    obtain ⟨p, hp, rfl⟩ := List.mem_map.1 hmem
    obtain ⟨hp, hat⟩ := List.mem_filter.1 hp
    rwa [← eq_of_beq hat]

/-- A statement is a newline or a block of statements. -/
def marks : Grammar.Definition where
  rules := [("marks", [[.rule "mark" .plus]]),
    ("mark", [[.category "NEWLINE" .once],
      [.category "INDENT" .once, .rule "mark" .star, .category "DEDENT" .once]])]
  roles := [("NEWLINE", .newline), ("INDENT", .indent), ("DEDENT", .dedent), ("mark", .statement)]

def markGrammar : Grammar := marks.build.toOption.getD default

/-- A block that starts with no newline before it. In it stand a newline that was given a value and
a block with nothing in it. -/
def marked : Draft × History :=
  [Call.offers none, .fill ⟨2⟩, .offers (some ⟨2⟩), .fillWith ⟨4⟩ (some "tab"), .offers (some ⟨4⟩),
    .fill ⟨9⟩, .offers (some ⟨9⟩), .fill ⟨13⟩].foldl (fun p c => (c.after p.1, p.2.call p.1 c))
      (Draft.start markGrammar {} [], {})

/-- The newline stands in two statements, and both ends of the inner block have joined it. Its value
has given way to the indentation. -/
theorem marked_keeps_account : marked.1.leaves = [⟨2⟩, ⟨4⟩, ⟨9⟩, ⟨13⟩] ∧ marked.2.lost = [⟨2⟩] ∧
    marked.2.joined = [(⟨9⟩, some ⟨4⟩), (⟨13⟩, some ⟨4⟩)] ∧
    ((marked.1.ancestors ⟨4⟩).countP fun m => marked.1.role? m == some .statement) = 2 ∧
    marked.1.token? ⟨4⟩ = some "    " ∧
    (marked.1.leaves.flatMap fun m => ((marked.1.blocks? m).getD {}).starts).Perm [⟨9⟩] ∧
    (marked.1.leaves.flatMap fun m => ((marked.1.blocks? m).getD {}).ends).Perm [⟨13⟩] := by
  have hrecorded : Recorded markGrammar marked.1 marked.2 :=
    (Recorded.start {}).foldl (by decide +kernel)
  obtain ⟨htoken, hstarts, hends, -⟩ := newlines_keep_account
    (Grammar.Definition.build_eq_ok (by decide +kernel)) hrecorded
  have hrun : (marked.1.leaves = [⟨2⟩, ⟨4⟩, ⟨9⟩, ⟨13⟩] ∧ marked.2.lost = [⟨2⟩] ∧
        marked.2.joined = [(⟨9⟩, some ⟨4⟩), (⟨13⟩, some ⟨4⟩)]) ∧
      (marked.1.role? ⟨4⟩ = some .newline ∧ marked.1.literal? ⟨4⟩ = none ∧
        marked.1.blocks? ⟨4⟩ = some ⟨[⟨9⟩], [⟨13⟩]⟩) ∧
      ((marked.1.ancestors ⟨4⟩).countP fun m => marked.1.role? m == some .statement) = 2 ∧
      marked.1.settings.indentUnit = "    " ∧
      (marked.1.leaves.filter fun n =>
        marked.1.role? n == some .indent && !marked.2.lost.contains n) = [⟨9⟩] ∧
      (marked.1.leaves.filter fun n =>
        marked.1.role? n == some .dedent && !marked.2.lost.contains n) = [⟨13⟩] := by
    decide +kernel
  obtain ⟨⟨hleaves, hlost, hjoined⟩, ⟨hrole, hlit, hblocks⟩, habove, hunit, hindents, hdedents⟩ :=
    hrun
  obtain ⟨b, hb, ht⟩ := htoken ⟨4⟩ (by simp [hleaves]) hrole hlit
  rw [hblocks, Option.some.injEq] at hb
  refine ⟨hleaves, hlost, hjoined, habove, ?_, hindents ▸ hstarts, hdedents ▸ hends⟩
  rw [ht, ← hb, habove, hunit]
  rfl

end Cloze.Draft
