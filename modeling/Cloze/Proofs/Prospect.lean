import Cloze.Proofs.Trail

/-!
# What a search finds

The search for offers, told by trails alone: `firsts` goes down from a gap, `ahead` goes on behind a
node, `ascend` climbs to the root, and `prospect` is what is found behind a placed node. `none`
stands for a search that runs into a rule nested too deep.

The leaves found under a gap are those before which all can be left out (`Descends`). Climbing from
the leftmost leaf under a gap finds these first and then what comes behind the gap
(`ascend_leftEnd`).
-/

namespace Cloze.Draft

/-! ### Frames that have the grammar's shape -/

/-- The rows of a frame are the branches of its shape. -/
def Frame.Shaped (g : Grammar) (f : Frame) : Prop :=
  f.rows.map (·.map Cell.shape) = g.branchesOf f.shape

/-- A place in one of the slots of a frame of the right shape. -/
structure Level.Fits (g : Grammar) (l : Level) : Prop where
  shaped : l.frame.Shaped g
  cell : ∃ c, itemAt? l.frame.rows l.branch l.slot = some c

/-- A bound on how far down a search can go from a frame. -/
def Frame.need (g : Grammar) (limit : Nat) (f : Frame) : Nat :=
  (limit - f.depth) * (g.choices.size + 1) + f.shape.index + 1

/-- The frame that a place's symbol stands for, whatever the limit. -/
def Level.Opens (g : Grammar) (l : Level) (f : Frame) : Prop :=
  ∃ c, g.bodyOf? (g.symbol (l.symbol g)).kind = some c ∧
    f = .empty g c (l.frame.depth + if (g.symbol (l.symbol g)).isReference then 1 else 0)

section Shapes

variable {g : Grammar} {limit : Nat} {l : Level} {f : Frame}

theorem Frame.shaped_empty (g : Grammar) (c : Grammar.ChoiceId) (depth : Nat) :
    (Frame.empty g c depth).Shaped g := by
  simp [Frame.Shaped, Frame.empty, Function.comp_def]

theorem Level.itemAt?_cell (h : l.Fits g) : itemAt? l.frame.rows l.branch l.slot = some l.cell := by
  obtain ⟨c, hc⟩ := h.cell
  rw [Level.cell, hc]
  rfl

/-- The slot of a place is one of its branch. -/
theorem Level.Fits.entry (h : l.Fits g) :
    itemAt? (g.branchesOf l.frame.shape) l.branch l.slot = some l.cell.shape := by
  rw [← h.shaped, itemAt?_map, Level.itemAt?_cell h]
  rfl

theorem Level.Fits.lt (h : l.Fits g) : l.frame.shape.index < g.choices.size := by
  obtain ⟨b, hb, -⟩ := mem_of_itemAt? h.entry
  exact Grammar.lt_of_mem_branchesOf hb

theorem Frame.fits_gap (hf : f.Shaped g) {k j : Nat} {c : Cell} (hk : itemAt? f.rows k j = some c) :
    (f.gap k j).Fits g :=
  ⟨hf, c, hk⟩

theorem Frame.mem_gaps {k : Nat} (h : l ∈ f.gaps k) :
    ∃ j c, l = f.gap k j ∧ itemAt? f.rows k j = some c := by
  obtain ⟨j, hj, rfl⟩ := List.mem_map.1 h
  rw [List.mem_range, List.getD_eq_getElem?_getD] at hj
  rcases hrow : f.rows[k]? with _ | row
  · simp [hrow] at hj
  · simp only [hrow, Option.getD_some] at hj
    exact ⟨j, row[j], rfl, itemAt?_eq_some.2 ⟨row, hrow, List.getElem?_eq_getElem hj⟩⟩

theorem Frame.mem_allGaps {row : List Level} (h : row ∈ f.allGaps) : ∃ k, row = f.gaps k := by
  obtain ⟨k, -, rfl⟩ := List.mem_map.1 h
  exact ⟨k, rfl⟩

/-- All gaps of a frame are gaps and stand in it. -/
theorem Frame.fits_of_mem (hf : f.Shaped g) {k : Nat} (h : l ∈ f.gaps k) :
    l.Fits g ∧ l.frame = f ∧ l.placed = false := by
  obtain ⟨j, c, rfl, hc⟩ := Frame.mem_gaps h
  exact ⟨Frame.fits_gap hf hc, rfl, rfl⟩

theorem Level.fits_of_mem_later {m : Level} (h : l.Fits g) (hm : m ∈ l.later) :
    m.Fits g ∧ m.frame = l.frame ∧ m.placed = false :=
  Frame.fits_of_mem h.shaped (List.mem_of_mem_drop hm)

theorem Level.inside_eq_leaf : l.inside g limit = some none ↔ l.isLeaf g = true := by
  unfold Level.inside Level.isLeaf Grammar.Symbol.isNode
  cases (g.symbol (l.symbol g)).kind with
  | literal | category | group | option => simp
  | rule r =>
    simp only [Bool.not_true, Bool.false_eq_true, iff_false]
    split <;> simp

theorem Level.opens_of_inside (h : l.inside g limit = some (some f)) : l.Opens g f := by
  unfold Level.inside at h
  unfold Level.Opens Grammar.Symbol.isReference Grammar.bodyOf?
  generalize (g.symbol (l.symbol g)).kind = kind at h
  cases kind with
  | literal | category => simp at h
  | rule r =>
    simp only at h
    split at h
    · cases h
    · cases h
      exact ⟨_, rfl, rfl⟩
  | group b | option b =>
    cases h
    exact ⟨b, rfl, rfl⟩

/-- A place that opens a frame opens it in a search too, unless it is too deep. -/
theorem Level.inside_of_opens (h : l.Opens g f) (hf : f.depth ≤ limit) :
    l.inside g limit = some (some f) := by
  obtain ⟨c, hc, rfl⟩ := h
  unfold Level.inside
  unfold Grammar.bodyOf? at hc
  unfold Grammar.Symbol.isReference at hf ⊢
  generalize (g.symbol (l.symbol g)).kind = kind at hc hf
  cases kind with
  | literal | category => cases hc
  | rule r =>
    cases hc
    simp only [Frame.empty, if_true] at hf
    simp [Nat.not_lt.2 hf]
  | group b | option b =>
    cases hc
    simp

theorem Level.Opens.isLeaf_eq_false (h : l.Opens g f) : l.isLeaf g = false := by
  obtain ⟨c, hc, -⟩ := h
  rw [Level.isLeaf, Bool.not_eq_false']
  by_contra hne
  rw [Bool.not_eq_true, ← Grammar.bodyOf?_eq_none (g := g), hc] at hne
  cases hne

theorem Level.Opens.unique {f' : Frame} (h : l.Opens g f) (h' : l.Opens g f') : f = f' := by
  obtain ⟨c, hc, rfl⟩ := h
  obtain ⟨c', hc', rfl⟩ := h'
  cases hc.symm.trans hc'
  rfl

theorem Level.Opens.shaped (h : l.Opens g f) : f.Shaped g := by
  obtain ⟨c, -, rfl⟩ := h
  exact Frame.shaped_empty g c _

theorem Frame.count_empty {c : Grammar.ChoiceId} {depth : Nat} {m : Level}
    (hm : m.frame = Frame.empty g c depth) : m.cell.count = 0 := by
  simp only [Level.cell, hm, Frame.empty]
  rw [itemAt?_map]
  cases itemAt? (g.branchesOf c) m.branch m.slot <;> rfl

theorem Level.Opens.count_eq_zero (h : l.Opens g f) {m : Level} (hm : m.frame = f) :
    m.cell.count = 0 := by
  obtain ⟨c, -, rfl⟩ := h
  exact Frame.count_empty hm

/-- Going down uses up the bound. -/
theorem Level.need_lt_of_inside (hg : g.WellFormed) (hl : l.Fits g)
    (h : l.inside g limit = some (some f)) : f.need g limit < l.frame.need g limit := by
  obtain ⟨b, hb, hs⟩ := mem_of_itemAt? hl.entry
  have hnest := hg.nested _ b hb _ hs
  have hrule := hg.rule (l.symbol g)
  unfold Level.inside at h
  have hsym : (g.symbol (g.slot l.cell.shape).symbol).kind = (g.symbol (l.symbol g)).kind := rfl
  rw [hsym] at hnest
  generalize (g.symbol (l.symbol g)).kind = kind at h hnest hrule
  cases kind with
  | literal | category => cases h
  | rule r =>
    simp only at h
    split at h
    · cases h
    · rename_i hle
      cases h
      have hc := hg.body r (hrule r rfl)
      obtain ⟨m, hm⟩ : ∃ m, limit - l.frame.depth = m + 1 := ⟨limit - l.frame.depth - 1, by omega⟩
      simp only [Frame.need, Frame.empty, show limit - (l.frame.depth + 1) = m by omega, hm,
        Nat.succ_mul]
      omega
  | group c | option c =>
    cases h
    have := hnest c rfl
    simp only [Frame.need, Frame.empty]
    omega

end Shapes

/-! ### The search -/

section Search

variable (g : Grammar) (limit : Nat)

open scoped Classical in
/-- The first leaves of slots up to the first that cannot be passed, and whether all can be. -/
noncomputable def stretch (first : Level → Option (List Trail)) :
    List Level → Option (List Trail × Bool)
  | [] => some ([], true)
  | l :: rest =>
    if l.isFull g then some ([], false)
    else do
      let found ← first l
      if l.CanPass g then
        let more ← stretch first rest
        some (found ++ more.1, more.2)
      else some (found, false)

/-- The first leaves of several branches. -/
noncomputable def spread (first : Level → Option (List Trail)) :
    List (List Level) → Option (List Trail)
  | [] => some []
  | row :: rows => do
    let found ← stretch g first row
    let more ← spread first rows
    some (found.1 ++ more)

/-- The first leaves under a gap. -/
noncomputable def firsts : (bound : Nat) → Level → Trail → Option (List Trail)
  | 0, _, _ => some []
  | bound + 1, l, above => do
    match ← l.inside g limit with
    | none => some [l :: above]
    | some f => spread g (fun k => firsts bound k (l :: above)) f.allGaps

/-- More levels than a search can go down. -/
def reach : Nat :=
  (limit + 2) * (g.choices.size + 1)

/-- The place behind a node in its own slot. -/
def Level.next (l : Level) : Level :=
  { l with position := l.position + 1, placed := false }

/-- Nothing stands behind it in its slot. -/
def Level.IsLast (l : Level) : Prop :=
  (if l.placed then l.position + 1 else l.position) = l.cell.count

/-- What may come right behind a node in its own slot. -/
noncomputable def again (l : Level) (above : Trail) : Option (List Trail) :=
  if l.placed = true ∧ l.isFull g = false then firsts g limit (reach g limit) l.next above
  else some []

open scoped Classical in
/-- What may follow a node in its branch, and whether the branch may end behind it. -/
noncomputable def ahead (l : Level) (above : Trail) : Option (List Trail × Bool) := do
  let found ← again g limit l above
  if l.IsLast then
    let next ← stretch g (fun k => firsts g limit (reach g limit) k above) l.later
    some (found ++ next.1, next.2)
  else some (found, false)

open scoped Classical in
/-- What may follow a node that can be left out or below which all could be. -/
noncomputable def follow (l : Level) (above : Trail) (passed : Bool) :
    Option (List Trail × Bool) :=
  if passed = true ∨ l.CanSkip g then ahead g limit l above else some ([], false)

/-- What is found on the way up a trail. `passed` says that all below could be left out. -/
noncomputable def ascend : Trail → (passed : Bool) → Option (List Trail)
  | [], _ => some []
  | l :: above, passed => do
    let following ← follow g limit l above passed
    let others ← spread g (fun k => firsts g limit (reach g limit) k above) l.others
    let higher ← ascend above following.2
    some ((if l.isLeaf g then [l :: above] else []) ++ following.1 ++ others ++ higher)

/-- The leaf reached from a gap by first branches and first slots. -/
def leftEnd : (bound : Nat) → Level → Trail → Option Trail
  | 0, l, above => some (l :: above)
  | bound + 1, l, above => do
    match ← l.inside g limit with
    | none => some (l :: above)
    | some f => leftEnd bound (f.gap 0 0) (l :: above)

/-- Where the search goes on behind a placed node. -/
def pickUp : Trail → Option (Option Trail)
  | [] => some none
  | l :: above =>
    if l.isFull g = false then some <$> leftEnd g limit (reach g limit) l.next above
    else
      match l.later with
      | [] => pickUp above
      | k :: _ =>
        if k.cell.count = 0 then some <$> leftEnd g limit (reach g limit) k above else some none

/-- What is found behind a placed node. -/
noncomputable def prospect (t : Trail) : Option (List Trail) := do
  match ← pickUp g limit t with
  | none => some []
  | some start => ascend g limit start false

end Search

section Down

variable {g : Grammar} {limit : Nat} {first first' : Level → Option (List Trail)}

/-- A place whose slot can stay empty is not full. -/
theorem Level.CanPass.isFull {l : Level} (h : l.CanPass g) : l.isFull g = false := by
  simp [Level.isFull, h.1]

theorem stretch_congr : ∀ (row : List Level), (∀ l ∈ row, first l = first' l) →
    stretch g first row = stretch g first' row
  | [], _ => rfl
  | l :: row, h => by
    simp only [stretch, h l List.mem_cons_self,
      stretch_congr row fun k hk => h k (List.mem_cons_of_mem _ hk)]

theorem spread_congr : ∀ (rows : List (List Level)), (∀ row ∈ rows, ∀ l ∈ row, first l = first' l) →
    spread g first rows = spread g first' rows
  | [], _ => rfl
  | row :: rows, h => by
    simp only [spread, stretch_congr row (h row List.mem_cons_self),
      spread_congr rows fun r hr => h r (List.mem_cons_of_mem _ hr)]

/-- A stretch by its first slot. -/
theorem stretch_cons_of_not_full {l : Level} {row : List Level} (hf : l.isFull g = false)
    {found : List Trail} (hl : first l = some found) :
    stretch g first (l :: row) = some (found, false) ∧ ¬ l.CanPass g ∨
      stretch g first (l :: row) = (stretch g first row).map (fun r => (found ++ r.1, r.2))
        ∧ l.CanPass g := by
  by_cases hp : l.CanPass g
  · right
    refine ⟨?_, hp⟩
    simp only [stretch, hf, hl, hp]
    cases stretch g first row <;> rfl
  · left
    refine ⟨?_, hp⟩
    simp [stretch, hf, hl, hp]

theorem stretch_eq_none_of_first {l : Level} {row : List Level} (hf : l.isFull g = false)
    (hl : first l = none) : stretch g first (l :: row) = none := by
  simp [stretch, hf, hl]

/-- A stretch goes through to its end if all slots can be passed. -/
theorem stretch_through : ∀ {row : List Level} {found : List Trail} {through : Bool},
    stretch g first row = some (found, through) → (through = true ↔ ∀ l ∈ row, l.CanPass g)
  | [], _, _, h => by
    cases h
    simp
  | l :: row, found, through, h => by
    by_cases hf : l.isFull g = true
    · simp only [stretch, hf, if_true, Option.some.injEq, Prod.mk.injEq] at h
      rw [← h.2]
      refine iff_of_false (by simp) fun hall => ?_
      rw [(hall l List.mem_cons_self).isFull] at hf
      cases hf
    · rw [Bool.not_eq_true] at hf
      rcases hl : first l with _ | us
      · rw [stretch_eq_none_of_first hf hl] at h
        cases h
      · rcases stretch_cons_of_not_full hf hl with ⟨hs, hp⟩ | ⟨hs, hp⟩
        · rw [hs] at h
          cases h
          exact iff_of_false (by simp) fun hall => hp (hall l List.mem_cons_self)
        · rw [hs] at h
          rcases hrest : stretch g first row with _ | ⟨more, thr⟩
          · simp [hrest] at h
          · simp only [hrest, Option.map_some, Option.some.injEq, Prod.mk.injEq] at h
            rw [← h.2, stretch_through hrest, List.forall_mem_cons]
            exact ⟨fun hr => ⟨hp, hr⟩, fun hr => hr.2⟩

/-- What a stretch finds lies in a slot before which all can be passed. -/
theorem mem_stretch_iff : ∀ {row : List Level} {found : List Trail} {through : Bool},
    stretch g first row = some (found, through) → ∀ t, t ∈ found ↔
      ∃ before l after, row = before ++ l :: after ∧ (∀ m ∈ before, m.CanPass g)
        ∧ l.isFull g = false ∧ ∃ us, first l = some us ∧ t ∈ us
  | [], _, _, h, t => by
    cases h
    simp
  | l :: row, found, through, h, t => by
    by_cases hf : l.isFull g = true
    · simp only [stretch, hf, if_true, Option.some.injEq, Prod.mk.injEq] at h
      obtain ⟨rfl, -⟩ := h
      refine iff_of_false (by simp) ?_
      rintro ⟨before, k, after, heq, hb, hk, -⟩
      cases before with
      | nil =>
        cases heq
        rw [hf] at hk
        cases hk
      | cons b before =>
        cases heq
        rw [(hb l List.mem_cons_self).isFull] at hf
        cases hf
    · rw [Bool.not_eq_true] at hf
      rcases hl : first l with _ | us
      · rw [stretch_eq_none_of_first hf hl] at h
        cases h
      · have hsplit : (∃ before k after, l :: row = before ++ k :: after
            ∧ (∀ m ∈ before, m.CanPass g) ∧ k.isFull g = false ∧ ∃ us, first k = some us ∧ t ∈ us)
            ↔ t ∈ us ∨ l.CanPass g ∧ ∃ before k after, row = before ++ k :: after
              ∧ (∀ m ∈ before, m.CanPass g) ∧ k.isFull g = false
              ∧ ∃ us, first k = some us ∧ t ∈ us := by
          constructor
          · rintro ⟨before, k, after, heq, hb, hk, vs, hvs, ht⟩
            cases before with
            | nil =>
              cases heq
              rw [hl] at hvs
              cases hvs
              exact Or.inl ht
            | cons b before =>
              cases heq
              exact Or.inr ⟨hb l List.mem_cons_self, before, k, after, rfl,
                fun m hm => hb m (List.mem_cons_of_mem _ hm), hk, vs, hvs, ht⟩
          · rintro (ht | ⟨hp, before, k, after, rfl, hb, hk, vs, hvs, ht⟩)
            · exact ⟨[], l, row, rfl, by simp, hf, us, hl, ht⟩
            · exact ⟨l :: before, k, after, rfl, List.forall_mem_cons.2 ⟨hp, hb⟩, hk, vs, hvs, ht⟩
        rw [hsplit]
        rcases stretch_cons_of_not_full hf hl with ⟨hs, hp⟩ | ⟨hs, hp⟩
        · rw [hs] at h
          cases h
          simp [hp]
        · rw [hs] at h
          rcases hrest : stretch g first row with _ | ⟨more, thr⟩
          · simp [hrest] at h
          · simp only [hrest, Option.map_some, Option.some.injEq, Prod.mk.injEq] at h
            rw [← h.1, List.mem_append, mem_stretch_iff hrest t]
            simp [hp]

theorem mem_spread_iff : ∀ {rows : List (List Level)} {found : List Trail},
    spread g first rows = some found → ∀ t, t ∈ found ↔
      ∃ before l after, before ++ l :: after ∈ rows ∧ (∀ m ∈ before, m.CanPass g)
        ∧ l.isFull g = false ∧ ∃ us, first l = some us ∧ t ∈ us
  | [], _, h, t => by
    cases h
    simp
  | row :: rows, found, h, t => by
    rcases hrow : stretch g first row with _ | ⟨us, thr⟩
    · simp [spread, hrow] at h
    · rcases hrest : spread g first rows with _ | more
      · simp [spread, hrow, hrest] at h
      · simp only [spread, hrow, hrest, Option.bind_eq_bind, Option.bind_some,
          Option.some.injEq] at h
        rw [← h, List.mem_append, mem_stretch_iff hrow t, mem_spread_iff hrest t]
        constructor
        · rintro (⟨before, l, after, rfl, hr⟩ | ⟨before, l, after, hmem, hr⟩)
          · exact ⟨before, l, after, List.mem_cons_self, hr⟩
          · exact ⟨before, l, after, List.mem_cons_of_mem _ hmem, hr⟩
        · rintro ⟨before, l, after, hmem, hr⟩
          rcases List.mem_cons.1 hmem with heq | hmem
          · exact Or.inl ⟨before, l, after, heq.symm, hr⟩
          · exact Or.inr ⟨before, l, after, hmem, hr⟩

/-- With enough levels to go, more make no difference. -/
theorem firsts_eq (hg : g.WellFormed) : ∀ {a b : Nat} {l : Level} {above : Trail}, l.Fits g →
    l.frame.need g limit ≤ a → l.frame.need g limit ≤ b →
    firsts g limit a l above = firsts g limit b l above
  | 0, _, l, _, _, ha, _ => by
    unfold Frame.need at ha
    omega
  | _, 0, l, _, _, _, hb => by
    unfold Frame.need at hb
    omega
  | a + 1, b + 1, l, above, hl, ha, hb => by
    rcases hi : l.inside g limit with _ | _ | f
    · simp [firsts, hi]
    · simp [firsts, hi]
    · have hlt := Level.need_lt_of_inside hg hl hi
      have hshaped := (Level.opens_of_inside hi).shaped
      simp only [firsts, hi, Option.bind_eq_bind, Option.bind_some]
      refine spread_congr _ fun row hrow k hk => ?_
      obtain ⟨i, rfl⟩ := Frame.mem_allGaps hrow
      obtain ⟨hfits, hframe, -⟩ := Frame.fits_of_mem hshaped hk
      exact firsts_eq hg hfits (by rw [hframe]; omega) (by rw [hframe]; omega)

theorem need_le_reach {l : Level} (hl : l.Fits g) : l.frame.need g limit ≤ reach g limit := by
  have hlt := hl.lt
  have hmul : (limit - l.frame.depth) * (g.choices.size + 1) ≤ limit * (g.choices.size + 1) :=
    Nat.mul_le_mul_right _ (Nat.sub_le _ _)
  unfold Frame.need reach
  rw [Nat.add_mul]
  omega

theorem firsts_eq_none {bound : Nat} {l : Level} {above : Trail} (h : l.inside g limit = none) :
    firsts g limit (bound + 1) l above = none := by
  simp [firsts, h]

/-- With as many levels to go as can be needed, the bound stays the same on the way down. -/
theorem firsts_of_inside (hg : g.WellFormed) {l : Level} {above : Trail} (hl : l.Fits g) {f : Frame}
    (h : l.inside g limit = some (some f)) : firsts g limit (reach g limit) l above
      = spread g (fun k => firsts g limit (reach g limit) k (l :: above)) f.allGaps := by
  have hlt := Level.need_lt_of_inside hg hl h
  obtain ⟨bound, hb⟩ : ∃ bound, l.frame.need g limit = bound + 1 := ⟨_, rfl⟩
  rw [firsts_eq (b := bound + 1) hg hl (need_le_reach hl) (by omega)]
  simp only [firsts, h, Option.bind_eq_bind, Option.bind_some]
  refine spread_congr _ fun row hrow k hk => ?_
  obtain ⟨i, rfl⟩ := Frame.mem_allGaps hrow
  obtain ⟨hfits, hframe, -⟩ := Frame.fits_of_mem (Level.opens_of_inside h).shaped hk
  exact firsts_eq hg hfits (by rw [hframe]; omega) (need_le_reach hfits)

theorem stretch_eq_none_of_rest {l : Level} {row : List Level} (hl : l.CanPass g)
    (h : stretch g first row = none) : stretch g first (l :: row) = none := by
  rcases hf : first l with _ | found
  · exact stretch_eq_none_of_first hl.isFull hf
  · rcases stretch_cons_of_not_full hl.isFull hf with ⟨-, hp⟩ | ⟨hs, -⟩
    · exact absurd hl hp
    · rw [hs, h]
      rfl

theorem exists_reach_eq_succ (g : Grammar) (limit : Nat) : ∃ m, reach g limit = m + 1 :=
  Nat.exists_eq_succ_of_ne_zero (Nat.mul_ne_zero (Nat.succ_ne_zero _) (Nat.succ_ne_zero _))

/-- The leaves that may come first under a gap. -/
inductive Descends (g : Grammar) : Trail → Trail → Prop
  | leaf {l above} (h : l.isLeaf g = true) : Descends g (l :: above) (l :: above)
  | into {l above f before k after t} (hf : l.Opens g f) (hrow : before ++ k :: after ∈ f.allGaps)
      (hs : ∀ m ∈ before, m.CanPass g) (h : Descends g (k :: l :: above) t) :
      Descends g (l :: above) t

theorem descends_of_mem_firsts : ∀ {bound : Nat} {l : Level} {above : Trail} {found : List Trail},
    firsts g limit bound l above = some found → ∀ t ∈ found, Descends g (l :: above) t
  | 0, l, above, found, h, t, ht => by
    cases h
    cases ht
  | bound + 1, l, above, found, h, t, ht => by
    rcases hi : l.inside g limit with _ | _ | f
    · simp [firsts, hi] at h
    · simp only [firsts, hi, Option.bind_eq_bind, Option.bind_some, Option.some.injEq] at h
      rw [← h, List.mem_singleton] at ht
      rw [ht]
      exact .leaf (Level.inside_eq_leaf.1 hi)
    · simp only [firsts, hi, Option.bind_eq_bind, Option.bind_some] at h
      obtain ⟨before, k, after, hrow, hs, -, us, hus, htu⟩ := (mem_spread_iff h t).1 ht
      exact .into (Level.opens_of_inside hi) hrow hs (descends_of_mem_firsts hus t htu)

/-- A stretch that is found to its end has looked into every slot it came to. -/
theorem stretch_first_isSome : ∀ {before : List Level} {l : Level} {after : List Level}
    {found : List Trail × Bool}, stretch g first (before ++ l :: after) = some found →
    (∀ m ∈ before, m.CanPass g) → l.isFull g = false → ∃ us, first l = some us
  | [], l, after, found, h, _, hf => by
    rcases hl : first l with _ | us
    · rw [List.nil_append, stretch_eq_none_of_first hf hl] at h
      cases h
    · exact ⟨us, rfl⟩
  | b :: before, l, after, found, h, hb, hf => by
    obtain ⟨hb1, hb2⟩ := List.forall_mem_cons.1 hb
    rcases hfb : first b with _ | us
    · rw [List.cons_append, stretch_eq_none_of_first hb1.isFull hfb] at h
      cases h
    · rcases stretch_cons_of_not_full hb1.isFull hfb with
        ⟨-, hp⟩ | ⟨hs, -⟩
      · exact absurd hb1 hp
      · rw [List.cons_append, hs] at h
        rcases hrest : stretch g first (before ++ l :: after) with _ | vs
        · simp [hrest] at h
        · exact stretch_first_isSome hrest hb2 hf

theorem stretch_isSome_of_spread : ∀ {rows : List (List Level)} {found : List Trail},
    spread g first rows = some found → ∀ row ∈ rows, ∃ us, stretch g first row = some us
  | row :: rows, found, h, row', hmem => by
    rcases hrow : stretch g first row with _ | us
    · simp [spread, hrow] at h
    · rcases List.mem_cons.1 hmem with rfl | hmem
      · exact ⟨us, hrow⟩
      · rcases hrest : spread g first rows with _ | more
        · simp [spread, hrow, hrest] at h
        · exact stretch_isSome_of_spread hrest row' hmem

theorem mem_firsts_of_descends (hg : g.WellFormed) {t u : Trail} (h : Descends g u t) :
    ∀ {l : Level} {above : Trail}, u = l :: above → l.Fits g → ∀ {bound : Nat} {found : List Trail},
      l.frame.need g limit ≤ bound → firsts g limit bound l above = some found → t ∈ found := by
  induction h with
  | @leaf l above hleaf =>
    rintro _ _ ⟨⟩ - bound found hb hf
    cases bound with
    | zero =>
      unfold Frame.need at hb
      omega
    | succ bound =>
      simp only [firsts, Level.inside_eq_leaf.2 hleaf, Option.bind_eq_bind, Option.bind_some,
        Option.some.injEq] at hf
      simp [← hf]
  | @into l above f before k after t hopen hrow hs hd ih =>
    rintro _ _ ⟨⟩ hfits bound found hb hf
    cases bound with
    | zero =>
      unfold Frame.need at hb
      omega
    | succ bound =>
      have hnode := hopen.isLeaf_eq_false
      rcases hi : l.inside g limit with _ | _ | f'
      · simp [firsts, hi] at hf
      · rw [Level.inside_eq_leaf.1 hi] at hnode
        cases hnode
      · obtain rfl := hopen.unique (Level.opens_of_inside hi)
        simp only [firsts, hi, Option.bind_eq_bind, Option.bind_some] at hf
        obtain ⟨i, hi'⟩ := Frame.mem_allGaps hrow
        have hk : k ∈ f.gaps i := hi' ▸ (by simp)
        obtain ⟨hkf, hkframe, -⟩ := Frame.fits_of_mem hopen.shaped hk
        have hfull : k.isFull g = false := by
          simp [Level.isFull, hopen.count_eq_zero hkframe]
        have hlt := Level.need_lt_of_inside hg hfits hi
        obtain ⟨vs, hvs⟩ := stretch_isSome_of_spread hf _ hrow
        obtain ⟨us, hus⟩ := stretch_first_isSome hvs hs hfull
        exact (mem_spread_iff hf t).2 ⟨before, k, after, hrow, hs, hfull, us, hus,
          ih rfl hkf (by rw [hkframe]; omega) hus⟩

end Down

/-! ### From the leftmost leaf up -/

section Up

variable {g : Grammar} {limit : Nat}

/-- What is found from a gap on, besides the leaves under it. -/
noncomputable def beyond (g : Grammar) (limit : Nat) (l : Level) (above : Trail) :
    Option (List Trail) := do
  let following ← follow g limit l above false
  let others ← spread g (fun k => firsts g limit (reach g limit) k above) l.others
  let higher ← ascend g limit above following.2
  some (following.1 ++ others ++ higher)

/-- What is found from a gap on. -/
noncomputable def fromGap (g : Grammar) (limit : Nat) (l : Level) (above : Trail) :
    Option (List Trail) := do
  let own ← firsts g limit (reach g limit) l above
  let rest ← beyond g limit l above
  some (own ++ rest)

theorem ascend_eq_beyond {l : Level} {above : Trail} {passed : Bool} (hl : l.isLeaf g = false)
    (hp : passed = true → l.CanSkip g) :
    ascend g limit (l :: above) passed = beyond g limit l above := by
  by_cases hs : l.CanSkip g
  · simp [ascend, beyond, follow, hl, hs]
  · have hpassed : passed = false := by
      rw [← Bool.not_eq_true]
      exact fun h => hs (hp h)
    simp [ascend, beyond, follow, hl, hs, hpassed]

theorem ascend_leaf {l : Level} {above : Trail} (hl : l.isLeaf g = true) :
    ascend g limit (l :: above) false
      = (beyond g limit l above).map fun rest => (l :: above) :: rest := by
  simp only [ascend, beyond, hl, if_true, Option.bind_eq_bind, Option.map_bind, Function.comp_def,
    Option.map_some, List.cons_append, List.nil_append]

theorem Frame.allGaps_eq_cons {f : Frame} {c : Cell} (h : itemAt? f.rows 0 0 = some c) :
    f.allGaps = (f.gap 0 0 :: (f.gap 0 0).later) :: (f.gap 0 0).others := by
  obtain ⟨row, hrow, hc⟩ := itemAt?_eq_some.1 h
  rcases hrows : f.rows with _ | ⟨r, rows⟩
  · simp [hrows] at hrow
  · rcases hr : r with _ | ⟨c', cells⟩
    · simp [hrows, hr] at hrow
      simp [← hrow] at hc
    · simp [Frame.allGaps, Level.later, Level.others, Frame.gap, Frame.gaps, hrows, hr,
        List.range_succ_eq_map]

/-- A frame that a symbol stands for has a first slot. -/
theorem Level.Opens.entry (hg : g.WellFormed) {l : Level} {f : Frame} (h : l.Opens g f) :
    ∃ c, itemAt? f.rows 0 0 = some c := by
  obtain ⟨c, hc, rfl⟩ := h
  have hne := hg.branches_ne c (Grammar.bodyOf?_lt hg hc)
  rcases hrows : g.branchesOf c with _ | ⟨b, rows⟩
  · exact absurd hrows hne
  · rcases hb : b with _ | ⟨s, slots⟩
    · exact absurd hb (hg.slots_ne c b (by simp [hrows]))
    · exact ⟨⟨s, 0⟩, by simp [itemAt?, Frame.empty, hrows, hb]⟩

theorem Level.canSkip_iff_canPass {l : Level} (hp : l.placed = false) (hc : l.cell.count = 0) :
    l.CanSkip g ↔ l.CanPass g := by
  simp [Level.CanSkip, Level.CanPass, hp, hc, Grammar.Skippable, Level.multiplicity, Level.symbol]

/-- A gap all of whose first branch can be passed can be left out. -/
theorem Level.Opens.canSkip {l : Level} {f : Frame} (h : l.Opens g f) (hp : l.placed = false)
    {c : Cell} (he : itemAt? f.rows 0 0 = some c) (hfirst : (f.gap 0 0).CanPass g)
    (hlater : ∀ m ∈ (f.gap 0 0).later, m.CanPass g) : l.CanSkip g := by
  have hall : ∀ m ∈ f.gaps 0, m.CanPass g := by
    have hgaps : f.gaps 0 = f.gap 0 0 :: (f.gap 0 0).later := by
      obtain ⟨row, hrow, hc⟩ := itemAt?_eq_some.1 he
      rcases hr : row with _ | ⟨c', cells⟩
      · simp [hr] at hc
      · simp [Level.later, Frame.gap, Frame.gaps, hrow, hr, List.range_succ_eq_map]
    rw [hgaps]
    exact List.forall_mem_cons.2 ⟨hfirst, hlater⟩
  obtain ⟨b, hb, rfl⟩ := h
  obtain ⟨row, hrow, -⟩ := itemAt?_eq_some.1 he
  simp only [Frame.empty, List.getElem?_map, Option.map_eq_some_iff] at hrow
  obtain ⟨slots, hslots, -⟩ := hrow
  refine ⟨hp, Or.inr (Or.inr (Grammar.nullable_of_branch hb (List.mem_of_getElem? hslots) ?_))⟩
  intro s hs
  obtain ⟨j, hj⟩ := List.mem_iff_getElem?.1 hs
  have hcell : itemAt? (Frame.empty g b (l.frame.depth
      + if (g.symbol (l.symbol g)).isReference then 1 else 0)).rows 0 j = some ⟨s, 0⟩ := by
    rw [Frame.empty, itemAt?_map]
    simp [itemAt?, hslots, hj]
  have hjlt : j < slots.length := (List.getElem?_eq_some_iff.1 hj).1
  have hmem := hall _ (List.mem_map.2 ⟨j, List.mem_range.2 (by simp [Frame.empty, hslots, hjlt]),
    rfl⟩)
  have := hmem.2
  simpa [Level.cell, Frame.gap, hcell] using this

theorem ahead_gap {l : Level} {above : Trail} (hp : l.placed = false)
    (hpos : l.position = l.cell.count) : ahead g limit l above
      = stretch g (fun k => firsts g limit (reach g limit) k above) l.later := by
  have hlast : l.IsLast := by
    rw [Level.IsLast, if_neg (by simp [hp])]
    exact hpos
  simp only [ahead, again, hp, hlast, Bool.false_eq_true, false_and, if_false, if_true,
    Option.bind_eq_bind, Option.bind_some, List.nil_append]
  cases stretch g (fun k => firsts g limit (reach g limit) k above) l.later <;> rfl

/-- Climbing from the leftmost leaf under a gap finds the first leaves under the gap, and then what
is found from the gap on. -/
theorem ascend_leftEnd (hg : g.WellFormed) : ∀ {bound : Nat} {l : Level} {above t : Trail},
    l.Fits g → l.placed = false → l.frame.need g limit ≤ bound →
    leftEnd g limit bound l above = some t →
    ascend g limit t false = fromGap g limit l above
  | 0, l, _, _, _, _, hb, _ => by
    unfold Frame.need at hb
    omega
  | bound + 1, l, above, t, hl, hp, hb, h => by
    have hreach : firsts g limit (bound + 1) l above = firsts g limit (reach g limit) l above :=
      firsts_eq hg hl hb (need_le_reach hl)
    rcases hi : l.inside g limit with _ | _ | f
    · simp [leftEnd, hi] at h
    · simp only [leftEnd, hi, Option.bind_eq_bind, Option.bind_some, Option.some.injEq] at h
      rw [← h, ascend_leaf (Level.inside_eq_leaf.1 hi), fromGap, ← hreach]
      simp only [firsts, hi, Option.bind_eq_bind, Option.bind_some, List.cons_append,
        List.nil_append]
      cases beyond g limit l above <;> rfl
    · simp only [leftEnd, hi, Option.bind_eq_bind, Option.bind_some] at h
      have ho := Level.opens_of_inside hi
      obtain ⟨c, hc⟩ := ho.entry hg
      have hlt := Level.need_lt_of_inside hg hl hi
      have hk := Frame.fits_gap ho.shaped hc
      have hneed : (f.gap 0 0).frame.need g limit ≤ bound := by
        change f.need g limit ≤ bound
        omega
      have hcount : (f.gap 0 0).cell.count = 0 := ho.count_eq_zero rfl
      have hleaf : l.isLeaf g = false := by
        by_contra hne
        rw [Bool.not_eq_false, ← Level.inside_eq_leaf, hi] at hne
        cases hne
      have hskip := Level.canSkip_iff_canPass (g := g) (l := f.gap 0 0) rfl hcount
      have hfull : (f.gap 0 0).isFull g = false := by simp [Level.isFull, hcount]
      rw [ascend_leftEnd hg hk rfl hneed h, fromGap, fromGap, ← hreach]
      simp only [firsts, hi, Option.bind_eq_bind, Option.bind_some]
      have hcongr : spread g (fun k => firsts g limit bound k (l :: above)) f.allGaps =
          spread g (fun k => firsts g limit (reach g limit) k (l :: above)) f.allGaps := by
        refine spread_congr f.allGaps fun row hrow k hk => ?_
        obtain ⟨i, rfl⟩ := Frame.mem_allGaps hrow
        obtain ⟨hfits, hframe, -⟩ := Frame.fits_of_mem ho.shaped hk
        exact firsts_eq hg hfits (by rw [hframe]; omega) (need_le_reach hfits)
      rw [hcongr, Frame.allGaps_eq_cons hc]
      simp only [spread]
      rw [beyond, follow, ahead_gap rfl hcount.symm]
      rcases hown : firsts g limit (reach g limit) (f.gap 0 0) (l :: above) with _ | own
      · rw [stretch_eq_none_of_first hfull (by exact hown)]
        rfl
      · rcases @stretch_cons_of_not_full g (fun k => firsts g limit (reach g limit) k (l :: above))
          _ (f.gap 0 0).later hfull _ hown with ⟨hs, hpass⟩ | ⟨hs, hpass⟩
        · rw [hs, if_neg (by simp [hskip, hpass])]
          rcases spread g (fun k => firsts g limit (reach g limit) k (l :: above))
            (f.gap 0 0).others with _ | others
          · rfl
          · simp only [Option.bind_eq_bind, Option.bind_some, List.nil_append]
            rw [ascend_eq_beyond hleaf (by simp)]
            cases beyond g limit l above <;> simp
        · rw [hs, if_pos (Or.inr (hskip.2 hpass))]
          rcases hlater : stretch g (fun k => firsts g limit (reach g limit) k (l :: above))
            (f.gap 0 0).later with _ | ⟨more, through⟩
          · rfl
          · rcases spread g (fun k => firsts g limit (reach g limit) k (l :: above))
              (f.gap 0 0).others with _ | others
            · rfl
            · simp only [Option.map_some, Option.bind_eq_bind, Option.bind_some]
              rw [ascend_eq_beyond hleaf fun hthr =>
                ho.canSkip hp hc hpass ((stretch_through hlater).1 hthr)]
              cases beyond g limit l above <;> simp

theorem leftEnd_eq (hg : g.WellFormed) : ∀ {a b : Nat} {l : Level} {above : Trail}, l.Fits g →
    l.frame.need g limit ≤ a → l.frame.need g limit ≤ b →
    leftEnd g limit a l above = leftEnd g limit b l above
  | 0, _, l, _, _, ha, _ => by
    unfold Frame.need at ha
    omega
  | _, 0, l, _, _, _, hb => by
    unfold Frame.need at hb
    omega
  | a + 1, b + 1, l, above, hl, ha, hb => by
    rcases hi : l.inside g limit with _ | _ | f
    · simp [leftEnd, hi]
    · simp [leftEnd, hi]
    · have hlt := Level.need_lt_of_inside hg hl hi
      obtain ⟨c, hc⟩ := (Level.opens_of_inside hi).entry hg
      have hneed : (f.gap 0 0).frame.need g limit = f.need g limit := rfl
      simp only [leftEnd, hi, Option.bind_eq_bind, Option.bind_some]
      exact leftEnd_eq hg (Frame.fits_gap (Level.opens_of_inside hi).shaped hc) (by omega) (by omega)

/-- The leftmost leaf under a gap, one level down at a time. -/
theorem leftEnd_reach (hg : g.WellFormed) {l : Level} {above : Trail} (hl : l.Fits g) :
    leftEnd g limit (reach g limit) l above = (l.inside g limit).bind fun
      | none => some (l :: above)
      | some f => leftEnd g limit (reach g limit) (f.gap 0 0) (l :: above) := by
  obtain ⟨m, hm⟩ := exists_reach_eq_succ g limit
  rcases hi : l.inside g limit with _ | _ | f
  · simp [hm, leftEnd, hi]
  · simp [hm, leftEnd, hi]
  · have hlt := Level.need_lt_of_inside hg hl hi
    have hreach : l.frame.need g limit ≤ reach g limit := need_le_reach hl
    obtain ⟨c, hc⟩ := (Level.opens_of_inside hi).entry hg
    have hk := Frame.fits_gap (Level.opens_of_inside hi).shaped hc
    have hneed : (f.gap 0 0).frame.need g limit ≤ m := by
      change f.need g limit ≤ m
      omega
    have hdown : leftEnd g limit (m + 1) l above = leftEnd g limit m (f.gap 0 0) (l :: above) := by
      simp [leftEnd, hi]
    rw [hm, hdown, ← hm, leftEnd_eq hg hk hneed (need_le_reach hk)]
    rfl

theorem leftEnd_isSome (hg : g.WellFormed) : ∀ {bound : Nat} {l : Level} {above : Trail}
    {found : List Trail}, firsts g limit bound l above = some found →
    ∃ t, leftEnd g limit bound l above = some t
  | 0, l, above, _, _ => ⟨l :: above, rfl⟩
  | bound + 1, l, above, found, h => by
    rcases hi : l.inside g limit with _ | _ | f
    · simp [firsts, hi] at h
    · exact ⟨l :: above, by simp [leftEnd, hi]⟩
    · have ho := Level.opens_of_inside hi
      obtain ⟨c, hc⟩ := ho.entry hg
      have hfull : (f.gap 0 0).isFull g = false := by
        simp [Level.isFull, ho.count_eq_zero (m := f.gap 0 0) rfl]
      simp only [firsts, hi, Option.bind_eq_bind, Option.bind_some, Frame.allGaps_eq_cons hc] at h
      obtain ⟨us, hus⟩ := stretch_isSome_of_spread h _ List.mem_cons_self
      obtain ⟨vs, hvs⟩ := stretch_first_isSome hus (List.forall_mem_nil _) hfull
      obtain ⟨t, ht⟩ := leftEnd_isSome hg hvs
      exact ⟨t, by simp [leftEnd, hi, ht]⟩

theorem leftEnd_bind_ascend (hg : g.WellFormed) {l : Level} {above : Trail} (hl : l.Fits g)
    (hp : l.placed = false) :
    ((leftEnd g limit (reach g limit) l above).bind fun t => ascend g limit t false)
      = fromGap g limit l above := by
  rcases h : leftEnd g limit (reach g limit) l above with _ | t
  · rcases hf : firsts g limit (reach g limit) l above with _ | found
    · simp [fromGap, hf]
    · obtain ⟨t, ht⟩ := leftEnd_isSome hg hf
      rw [h] at ht
      cases ht
  · exact ascend_leftEnd hg hl hp (need_le_reach hl) h

end Up

end Cloze.Draft
