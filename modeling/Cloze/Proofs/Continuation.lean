import Cloze.Proofs.Prospect

/-!
# What may come next

`Follows` says which gaps may come next behind a placed node: a further occurrence in its slot, and
the slots behind it as far as all between can be left out, on its own level and on every level above
that may end there. `Next` are the leaves that may come first under them.

What a search finds behind a placed node is of this kind (`next_of_mem_prospect`). Where nothing is
placed behind the node, a search finds all that is of this kind (`mem_prospect_of_next`).
-/

namespace Cloze.Draft

/-- The gaps that may come next behind a placed node. -/
inductive Follows (g : Grammar) : Trail → Trail → Prop
  | again {l above} (hf : l.isFull g = false) : Follows g (l :: above) (l.next :: above)
  | later {l above before k after} (hl : l.IsLast) (hrow : l.later = before ++ k :: after)
      (hs : ∀ m ∈ before, m.CanPass g) (hf : k.isFull g = false) :
      Follows g (l :: above) (k :: above)
  | up {l above t} (hl : l.IsLast) (hs : ∀ m ∈ l.later, m.CanPass g) (h : Follows g above t) :
      Follows g (l :: above) t

/-- The leaves that may come next behind a placed node. -/
def Next (g : Grammar) (t u : Trail) : Prop :=
  ∃ gap, Follows g t gap ∧ Descends g gap u

/-- A place taken by a node. -/
structure Level.Taken (g : Grammar) (l : Level) : Prop where
  fits : l.Fits g
  placed : l.placed = true
  position : l.position < l.cell.count
  once : l.multiplicity g = .once → l.cell.count ≤ 1

/-- The trail of a placed node. -/
structure Standing (g : Grammar) (t : Trail) : Prop where
  taken : ∀ l ∈ t, l.Taken g
  node : ∀ l ∈ t.tail, l.isLeaf g = false

/-- Nothing is placed behind it in its branch. -/
structure Level.Ends (l : Level) : Prop where
  last : l.IsLast
  empty : ∀ m ∈ l.later, m.cell.count = 0

/-- The trail of a placed node behind which nothing is placed. -/
structure AtEnd (g : Grammar) (t : Trail) : Prop extends Standing g t where
  ends : ∀ l ∈ t, l.Ends

section Standing

variable {g : Grammar} {limit : Nat} {l : Level} {above : Trail}

theorem Standing.of_cons (h : Standing g (l :: above)) : Standing g above :=
  ⟨fun m hm => h.taken m (List.mem_cons_of_mem _ hm), fun m hm => h.node m (List.mem_of_mem_tail hm)⟩

theorem AtEnd.of_cons (h : AtEnd g (l :: above)) : AtEnd g above :=
  ⟨h.toStanding.of_cons, fun m hm => h.ends m (List.mem_cons_of_mem _ hm)⟩

/-- The first of the later gaps stands at the front of a slot that is not the first, and the others
come behind it. -/
theorem Level.later_of_eq_cons {k : Level} {rest : List Level} (h : l.later = k :: rest) :
    k.later = rest ∧ k.position = 0 ∧ k.slot ≠ 0 := by
  have hlt : l.slot + 1 < (l.frame.gaps l.branch).length := by
    by_contra hge
    rw [Level.later, List.drop_eq_nil_of_le (Nat.le_of_not_lt hge)] at h
    cases h
  rw [Level.later, List.drop_eq_getElem_cons hlt, List.cons.injEq] at h
  obtain ⟨rfl, rfl⟩ := h
  simp [Frame.gaps, Frame.gap, Level.later]

theorem Level.Taken.fits_next (h : l.Taken g) : l.next.Fits g :=
  ⟨h.fits.shaped, h.fits.cell⟩

theorem Level.Taken.others (h : l.Taken g) : l.others = [] := by
  simp [Level.others, h.placed]

theorem Level.Taken.not_canSkip (h : l.Taken g) : ¬ l.CanSkip g := fun hs => by
  have hp := h.placed
  rw [hs.1] at hp
  cases hp

theorem Level.Taken.count_ne_zero (h : l.Taken g) : l.cell.count ≠ 0 :=
  Nat.ne_of_gt (Nat.lt_of_le_of_lt (Nat.zero_le _) h.position)

/-- A full slot has one node, which is the last. -/
theorem Level.Taken.isLast_of_full (h : l.Taken g) (hf : l.isFull g = true) : l.IsLast := by
  simp only [Level.isFull, Bool.and_eq_true, beq_iff_eq] at hf
  have h1 := h.once hf.1
  have h2 := h.position
  rw [Level.IsLast, if_pos h.placed]
  omega

theorem Level.Taken.canSkip_next (h : l.Taken g) (hf : l.isFull g = false) : l.next.CanSkip g := by
  have hne := h.count_ne_zero
  refine ⟨rfl, ?_⟩
  have hm : l.next.multiplicity g = l.multiplicity g := rfl
  have hc : l.next.cell.count = l.cell.count := rfl
  rw [hm, hc]
  rcases hx : l.multiplicity g with _ | _ | _
  · simp [Level.isFull, hx, hne] at hf
  · exact Or.inr (Or.inl ⟨rfl, hne⟩)
  · exact Or.inl rfl

/-- The leaves found under a gap are those that may come first there. -/
theorem mem_firsts_iff (hg : g.WellFormed) (hl : l.Fits g) {found : List Trail}
    (h : firsts g limit (reach g limit) l above = some found) (t : Trail) :
    t ∈ found ↔ Descends g (l :: above) t :=
  ⟨descends_of_mem_firsts h t,
    fun hd => mem_firsts_of_descends hg hd rfl hl (need_le_reach hl) h⟩

/-- Nothing is found above a placed node that something follows. -/
theorem ascend_false : ∀ {t : Trail}, (∀ l ∈ t, l.Taken g) → (∀ l ∈ t, l.isLeaf g = false) →
    ascend g limit t false = some []
  | [], _, _ => rfl
  | l :: above, ht, hn => by
    obtain ⟨hl, hrest⟩ := List.forall_mem_cons.1 ht
    obtain ⟨hleaf, hnode⟩ := List.forall_mem_cons.1 hn
    simp [ascend, follow, hl.not_canSkip, hleaf, hl.others, spread, ascend_false hrest hnode]

/-- What may come behind a place on its level or above, if the place itself is dealt with. -/
def Onward (g : Grammar) (limit : Nat) (l : Level) (above t : Trail) : Prop :=
  l.IsLast ∧ ((∃ before k after, l.later = before ++ k :: after ∧ (∀ m ∈ before, m.CanPass g)
      ∧ k.isFull g = false ∧ Descends g (k :: above) t) ∨
    (∀ m ∈ l.later, m.CanPass g) ∧ ∃ higher, ascend g limit above true = some higher ∧ t ∈ higher)

theorem mem_ahead_iff (hg : g.WellFormed) (hl : l.Fits g) (ht : ∀ m ∈ above, m.Taken g)
    (hn : ∀ m ∈ above, m.isLeaf g = false) {following : List Trail × Bool} {higher : List Trail}
    (hf : ahead g limit l above = some following)
    (hh : ascend g limit above following.2 = some higher) (t : Trail) :
    t ∈ following.1 ∨ t ∈ higher ↔
      (l.placed = true ∧ l.isFull g = false ∧ Descends g (l.next :: above) t)
        ∨ Onward g limit l above t := by
  have hnext : l.next.Fits g := ⟨hl.shaped, hl.cell⟩
  rcases hagain : again g limit l above with _ | found
  · simp [ahead, hagain] at hf
  · have hmem : t ∈ found ↔ l.placed = true ∧ l.isFull g = false
        ∧ Descends g (l.next :: above) t := by
      unfold again at hagain
      split at hagain
      · rename_i hc
        rw [mem_firsts_iff hg hnext hagain t]
        simp [hc]
      · rename_i hc
        cases hagain
        refine iff_of_false (by simp) fun h => hc ⟨h.1, h.2.1⟩
    by_cases hlast : l.IsLast
    · rcases hnext : stretch g (fun k => firsts g limit (reach g limit) k above) l.later with
        _ | ⟨more, through⟩
      · simp [ahead, hagain, hlast, hnext] at hf
      · simp only [ahead, hagain, hlast, if_true, hnext, Option.bind_eq_bind, Option.bind_some,
          Option.some.injEq] at hf
        subst hf
        have hmore : t ∈ more ↔ ∃ before k after, l.later = before ++ k :: after
            ∧ (∀ m ∈ before, m.CanPass g) ∧ k.isFull g = false ∧ Descends g (k :: above) t := by
          rw [mem_stretch_iff hnext t]
          constructor
          · rintro ⟨before, k, after, hrow, hs, hfull, us, hus, htu⟩
            exact ⟨before, k, after, hrow, hs, hfull, descends_of_mem_firsts hus t htu⟩
          · rintro ⟨before, k, after, hrow, hs, hfull, hd⟩
            rw [hrow] at hnext
            obtain ⟨us, hus⟩ := stretch_first_isSome hnext hs hfull
            have hk := (Level.fits_of_mem_later hl (hrow ▸ by simp : k ∈ l.later)).1
            exact ⟨before, k, after, hrow, hs, hfull, us, hus, (mem_firsts_iff hg hk hus t).2 hd⟩
        have hhigher : t ∈ higher ↔ (∀ m ∈ l.later, m.CanPass g)
            ∧ ∃ higher, ascend g limit above true = some higher ∧ t ∈ higher := by
          rw [← stretch_through hnext]
          cases through with
          | true =>
            refine ⟨fun h => ⟨rfl, higher, hh, h⟩, ?_⟩
            rintro ⟨-, higher', hh', h⟩
            rw [show ascend g limit above true = some higher from hh] at hh'
            cases hh'
            exact h
          | false =>
            have hnil := hh.symm.trans (ascend_false ht hn)
            cases hnil
            simp
        simp only [List.mem_append, hmem, hmore, hhigher, Onward, hlast, true_and, or_assoc]
    · simp only [ahead, hagain, hlast, if_false, Option.bind_eq_bind, Option.bind_some,
        Option.some.injEq] at hf
      subst hf
      have hnil := hh.symm.trans (ascend_false ht hn)
      cases hnil
      simp [Onward, hlast, hmem]

/-- What is found from a gap on. -/
theorem mem_fromGap_iff (hg : g.WellFormed) (hl : l.Fits g) (hp : l.placed = false)
    (ho : l.others = []) (ht : ∀ m ∈ above, m.Taken g) (hn : ∀ m ∈ above, m.isLeaf g = false)
    {found : List Trail} (h : fromGap g limit l above = some found) (t : Trail) :
    t ∈ found ↔ Descends g (l :: above) t ∨ l.CanSkip g ∧ Onward g limit l above t := by
  rcases hown : firsts g limit (reach g limit) l above with _ | own
  · simp [fromGap, hown] at h
  · by_cases hs : l.CanSkip g
    · rcases hf : ahead g limit l above with _ | following
      · simp [fromGap, beyond, follow, hown, hs, hf] at h
      · rcases hh : ascend g limit above following.2 with _ | higher
        · simp [fromGap, beyond, follow, hown, hs, hf, hh, ho, spread] at h
        · simp only [fromGap, beyond, follow, hown, hs, hf, hh, ho, spread, or_true, if_true,
            Option.bind_eq_bind,
            Option.bind_some, List.append_nil, Option.some.injEq] at h
          rw [← h, List.mem_append, List.mem_append, mem_ahead_iff hg hl ht hn hf hh t,
            mem_firsts_iff hg hl hown t]
          simp [hp, hs]
    · simp only [fromGap, beyond, follow, hown, hs, ho, spread, Bool.false_eq_true, or_self,
        if_false, Option.bind_eq_bind,
        Option.bind_some, List.append_nil, List.nil_append, ascend_false ht hn,
        Option.some.injEq] at h
      rw [← h, mem_firsts_iff hg hl hown t]
      simp [hs]

/-! ### What may come first -/

/-- The leaves that may come first in a frame. -/
def Frame.Opening (g : Grammar) (f : Frame) (t : Trail) : Prop :=
  ∃ before k after, before ++ k :: after ∈ f.allGaps ∧ (∀ m ∈ before, m.CanPass g)
    ∧ Descends g [k] t

/-- From the first gap of a frame that nothing holds, all its branches are searched. -/
theorem fromGap_first {f : Frame} {c : Cell} (hc : itemAt? f.rows 0 0 = some c)
    (hcount : (f.gap 0 0).cell.count = 0) : fromGap g limit (f.gap 0 0) []
      = spread g (fun k => firsts g limit (reach g limit) k []) f.allGaps := by
  have hskip := Level.canSkip_iff_canPass (g := g) (l := f.gap 0 0) rfl hcount
  have hfull : (f.gap 0 0).isFull g = false := by simp [Level.isFull, hcount]
  have hahead : ahead g limit (f.gap 0 0) [] = stretch g
      (fun k => firsts g limit (reach g limit) k []) (f.gap 0 0).later := ahead_gap rfl hcount.symm
  rw [Frame.allGaps_eq_cons hc]
  simp only [spread, fromGap, beyond, follow, hahead, ascend]
  rcases hown : firsts g limit (reach g limit) (f.gap 0 0) [] with _ | own
  · rw [stretch_eq_none_of_first hfull (by exact hown)]
    rfl
  · rcases @stretch_cons_of_not_full g (fun k => firsts g limit (reach g limit) k [])
      _ (f.gap 0 0).later hfull _ hown with ⟨hs, hpass⟩ | ⟨hs, hpass⟩
    · rw [hs, if_neg (by simp [hskip, hpass])]
      cases spread g (fun k => firsts g limit (reach g limit) k []) (f.gap 0 0).others <;> simp
    · rw [hs, if_pos (Or.inr (hskip.2 hpass))]
      rcases stretch g (fun k => firsts g limit (reach g limit) k []) (f.gap 0 0).later with _ | r
      · rfl
      · cases spread g (fun k => firsts g limit (reach g limit) k []) (f.gap 0 0).others <;> simp

theorem mem_fromGap_first_iff (hg : g.WellFormed) {f : Frame} (hf : f.Shaped g) {c : Cell}
    (hc : itemAt? f.rows 0 0 = some c) (hzero : ∀ m : Level, m.frame = f → m.cell.count = 0)
    {found : List Trail} (h : fromGap g limit (f.gap 0 0) [] = some found) (t : Trail) :
    t ∈ found ↔ f.Opening g t := by
  rw [fromGap_first hc (hzero _ rfl)] at h
  rw [mem_spread_iff h t]
  constructor
  · rintro ⟨before, k, after, hrow, hs, -, us, hus, htu⟩
    exact ⟨before, k, after, hrow, hs, descends_of_mem_firsts hus t htu⟩
  · rintro ⟨before, k, after, hrow, hs, hd⟩
    obtain ⟨i, hi⟩ := Frame.mem_allGaps hrow
    have hmem : k ∈ f.gaps i := by simp [← hi]
    obtain ⟨hk, hkf, -⟩ := Frame.fits_of_mem hf hmem
    have hfull : k.isFull g = false := by simp [Level.isFull, hzero k hkf]
    obtain ⟨vs, hvs⟩ := stretch_isSome_of_spread h _ hrow
    obtain ⟨us, hus⟩ := stretch_first_isSome hvs hs hfull
    exact ⟨before, k, after, hrow, hs, hfull, us, hus, (mem_firsts_iff hg hk hus t).2 hd⟩

/-- A search behind a placed node, by the gap it goes on from. -/
theorem prospect_cons (hg : g.WellFormed) (h : l.Taken g) : prospect g limit (l :: above) =
    if l.isFull g = false then fromGap g limit l.next above
    else match l.later with
      | [] => prospect g limit above
      | k :: _ => if k.cell.count = 0 then fromGap g limit k above else some [] := by
  by_cases hf : l.isFull g = false
  · rw [if_pos hf, ← leftEnd_bind_ascend hg h.fits_next rfl]
    simp only [prospect, pickUp, hf, if_true]
    cases leftEnd g limit (reach g limit) l.next above <;> rfl
  · rw [if_neg hf]
    rcases hlater : l.later with _ | ⟨k, rest⟩
    · simp [prospect, pickUp, hf, hlater]
    · by_cases hc : k.cell.count = 0
      · have hk := Level.fits_of_mem_later h.fits (hlater ▸ List.mem_cons_self : k ∈ l.later)
        simp only [hc, if_true]
        rw [← leftEnd_bind_ascend hg hk.1 hk.2.2]
        simp only [prospect, pickUp, hf, hlater, hc, if_true]
        cases leftEnd g limit (reach g limit) k above <;> rfl
      · simp [prospect, pickUp, hf, hlater, hc]

/-! ### What is found may come next -/

theorem next_of_onward {t : Trail} (ho : Onward g limit l above t)
    (hup : ∀ higher, ascend g limit above true = some higher → t ∈ higher → Next g above t) :
    Next g (l :: above) t := by
  obtain ⟨hlast, ⟨before, k, after, hrow, hs, hf, hd⟩ | ⟨hs, higher, hh, ht⟩⟩ := ho
  · exact ⟨k :: above, .later hlast hrow hs hf, hd⟩
  · obtain ⟨gap, hgap, hd⟩ := hup higher hh ht
    exact ⟨gap, .up hlast hs hgap, hd⟩

theorem next_of_mem_ascend (hg : g.WellFormed) : ∀ {t : Trail}, (∀ l ∈ t, l.Taken g) →
    (∀ l ∈ t, l.isLeaf g = false) → ∀ {found : List Trail}, ascend g limit t true = some found →
    ∀ u ∈ found, Next g t u
  | [], _, _, _, h, u, hu => by
    cases h
    cases hu
  | l :: above, ht, hn, found, h, u, hu => by
    obtain ⟨hl, hrest⟩ := List.forall_mem_cons.1 ht
    obtain ⟨hleaf, hnode⟩ := List.forall_mem_cons.1 hn
    rcases hf : ahead g limit l above with _ | following
    · simp [ascend, follow, hf] at h
    · rcases hh : ascend g limit above following.2 with _ | higher
      · simp [ascend, follow, hf, hh, hl.others, spread] at h
      · simp only [ascend, follow, hf, hh, hl.others, spread, hleaf, true_or, if_true, Bool.false_eq_true,
          if_false, Option.bind_eq_bind, Option.bind_some, List.nil_append, List.append_nil,
          Option.some.injEq] at h
        rw [← h, List.mem_append, mem_ahead_iff hg hl.fits hrest hnode hf hh u] at hu
        rcases hu with ⟨-, hfull, hd⟩ | ho
        · exact ⟨_, .again hfull, hd⟩
        · exact next_of_onward ho fun _ h' hu' => next_of_mem_ascend hg hrest hnode h' u hu'

/-- What a search finds behind a placed node may come next. -/
theorem next_of_mem_prospect (hg : g.WellFormed) : ∀ {t : Trail}, Standing g t →
    ∀ {found : List Trail}, prospect g limit t = some found → ∀ u ∈ found, Next g t u
  | [], _, _, h, u, hu => by
    cases h
    cases hu
  | l :: above, ht, found, h, u, hu => by
    have hl := ht.taken l List.mem_cons_self
    have hrest : ∀ m ∈ above, m.Taken g := fun m hm => ht.taken m (List.mem_cons_of_mem _ hm)
    have hnode : ∀ m ∈ above, m.isLeaf g = false := fun m hm => ht.node m hm
    have hhigher : ∀ higher, ascend g limit above true = some higher → u ∈ higher →
        Next g above u := fun _ h' hu' => next_of_mem_ascend hg hrest hnode h' u hu'
    rw [prospect_cons hg hl] at h
    by_cases hf : l.isFull g = false
    · rw [if_pos hf] at h
      rw [mem_fromGap_iff hg hl.fits_next rfl (by simp [Level.others, Level.next]) hrest hnode h
        u] at hu
      rcases hu with hd | ⟨-, ho⟩
      · exact ⟨_, .again hf, hd⟩
      · refine next_of_onward ⟨?_, ho.2⟩ hhigher
        have hlast := ho.1
        rw [Level.IsLast, if_neg (by simp [Level.next])] at hlast
        rw [Level.IsLast, if_pos hl.placed]
        exact hlast
    · rw [if_neg hf] at h
      have hlast := hl.isLast_of_full (Bool.not_eq_false _ ▸ hf)
      rcases hlater : l.later with _ | ⟨k, rest⟩
      · simp only [hlater] at h
        obtain ⟨gap, hgap, hd⟩ := next_of_mem_prospect hg ht.of_cons h u hu
        exact ⟨gap, .up hlast (by simp [hlater]) hgap, hd⟩
      · obtain ⟨hkf, hkframe, hkp⟩ :=
          Level.fits_of_mem_later hl.fits (hlater ▸ List.mem_cons_self : k ∈ l.later)
        by_cases hc : k.cell.count = 0
        · obtain ⟨hrow, hpos, hne⟩ := Level.later_of_eq_cons hlater
          simp only [hlater, hc, if_true] at h
          rw [mem_fromGap_iff hg hkf hkp (by simp [Level.others, hne]) hrest hnode h u] at hu
          rcases hu with hd | ⟨hskip, -, ho⟩
          · exact ⟨_, .later hlast hlater (List.forall_mem_nil _) (by simp [Level.isFull, hc]), hd⟩
          · have hpass := (Level.canSkip_iff_canPass hkp hc).1 hskip
            refine next_of_onward ⟨hlast, ?_⟩ hhigher
            rw [hrow] at ho
            rcases ho with ⟨before, m, after, rfl, hs, hm⟩ | ⟨hs, hup⟩
            · exact Or.inl ⟨k :: before, m, after, hlater,
                List.forall_mem_cons.2 ⟨hpass, hs⟩, hm⟩
            · exact Or.inr ⟨hlater ▸ List.forall_mem_cons.2 ⟨hpass, hs⟩, hup⟩
        · simp only [hlater, hc, if_false, Option.some.injEq] at h
          rw [← h] at hu
          cases hu

/-! ### Behind the last leaf all that may come next is found -/

theorem ahead_through {following : List Trail × Bool} (h : ahead g limit l above = some following)
    (hl : l.IsLast) : following.2 = true ↔ ∀ m ∈ l.later, m.CanPass g := by
  rcases hagain : again g limit l above with _ | found
  · simp [ahead, hagain] at h
  · rcases hnext : stretch g (fun k => firsts g limit (reach g limit) k above) l.later with
      _ | ⟨more, through⟩
    · simp [ahead, hagain, hl, hnext] at h
    · simp only [ahead, hagain, hl, if_true, hnext, Option.bind_eq_bind, Option.bind_some,
        Option.some.injEq] at h
      rw [← h]
      exact stretch_through hnext

theorem mem_ascend_of_next (hg : g.WellFormed) : ∀ {t : Trail}, AtEnd g t →
    (∀ l ∈ t, l.isLeaf g = false) → ∀ {found : List Trail}, ascend g limit t true = some found →
    ∀ {u : Trail}, Next g t u → u ∈ found
  | [], _, _, _, _, u, ⟨_, h, _⟩ => by cases h
  | l :: above, ht, hn, found, h, u, ⟨gap, hgap, hd⟩ => by
    have hl := ht.taken l List.mem_cons_self
    have hlast := (ht.ends l List.mem_cons_self).last
    obtain ⟨hleaf, hnode⟩ := List.forall_mem_cons.1 hn
    rcases hf : ahead g limit l above with _ | following
    · simp [ascend, follow, hf] at h
    · rcases hh : ascend g limit above following.2 with _ | higher
      · simp [ascend, follow, hf, hh, hl.others, spread] at h
      · simp only [ascend, follow, hf, hh, hl.others, spread, hleaf, true_or, if_true, Bool.false_eq_true,
          if_false, Option.bind_eq_bind, Option.bind_some, List.nil_append, List.append_nil,
          Option.some.injEq] at h
        rw [← h, List.mem_append, mem_ahead_iff hg hl.fits ht.of_cons.taken hnode hf hh u]
        cases hgap with
        | again hfull => exact Or.inl ⟨hl.placed, hfull, hd⟩
        | later _ hrow hs hfull => exact Or.inr ⟨hlast, Or.inl ⟨_, _, _, hrow, hs, hfull, hd⟩⟩
        | up _ hs hgap =>
          rw [(ahead_through hf hlast).2 hs] at hh
          exact Or.inr ⟨hlast, Or.inr ⟨hs, higher, hh,
            mem_ascend_of_next hg ht.of_cons hnode hh ⟨gap, hgap, hd⟩⟩⟩

/-- A search from a gap that can be left out goes on above where all behind the gap can be. -/
theorem exists_ascend_of_fromGap {found : List Trail} (h : fromGap g limit l above = some found)
    (hs : l.CanSkip g) (hl : l.IsLast) (hp : ∀ m ∈ l.later, m.CanPass g) (ho : l.others = []) :
    ∃ higher, ascend g limit above true = some higher := by
  rcases hown : firsts g limit (reach g limit) l above with _ | own
  · simp [fromGap, hown] at h
  · rcases hf : ahead g limit l above with _ | following
    · simp [fromGap, beyond, follow, hown, hs, hf] at h
    · rw [← (ahead_through hf hl).2 hp]
      rcases hh : ascend g limit above following.2 with _ | higher
      · simp [fromGap, beyond, follow, hown, hs, hf, hh, ho, spread] at h
      · exact ⟨higher, rfl⟩

/-- Behind the last leaf of a draft a search finds all that may come next. -/
theorem mem_prospect_of_next (hg : g.WellFormed) : ∀ {t : Trail}, AtEnd g t →
    ∀ {found : List Trail}, prospect g limit t = some found → ∀ {u : Trail}, Next g t u → u ∈ found
  | [], _, _, _, u, ⟨_, h, _⟩ => by cases h
  | l :: above, ht, found, h, u, ⟨gap, hgap, hd⟩ => by
    have hl := ht.taken l List.mem_cons_self
    have hlast := (ht.ends l List.mem_cons_self).last
    have hrest := ht.of_cons
    have hnode : ∀ m ∈ above, m.isLeaf g = false := fun m hm => ht.node m hm
    -- What comes next above is found above, once the search gets there.
    have hup : ∀ {k : Level}, fromGap g limit k above = some found → k.CanSkip g → k.IsLast →
        (∀ m ∈ k.later, m.CanPass g) → k.others = [] → Follows g above gap →
        Onward g limit k above u := fun hk hs hkl hp ho hfol => by
      obtain ⟨higher, hh⟩ := exists_ascend_of_fromGap hk hs hkl hp ho
      exact ⟨hkl, Or.inr ⟨hp, higher, hh,
        mem_ascend_of_next hg hrest hnode hh ⟨gap, hfol, hd⟩⟩⟩
    rw [prospect_cons hg hl] at h
    by_cases hf : l.isFull g = false
    · rw [if_pos hf] at h
      have hskip := hl.canSkip_next hf
      have hnlast : l.next.IsLast := by
        rw [Level.IsLast, if_neg (by simp [Level.next])]
        rw [Level.IsLast, if_pos hl.placed] at hlast
        exact hlast
      have hothers : l.next.others = [] := by simp [Level.others, Level.next]
      rw [mem_fromGap_iff hg hl.fits_next rfl hothers hrest.taken hnode h u]
      cases hgap with
      | again => exact Or.inl hd
      | later _ hrow hs hfull =>
        exact Or.inr ⟨hskip, hnlast, Or.inl ⟨_, _, _, hrow, hs, hfull, hd⟩⟩
      | up _ hs hgap => exact Or.inr ⟨hskip, hup h hskip hnlast hs hothers hgap⟩
    · rw [if_neg hf] at h
      rcases hlater : l.later with _ | ⟨k, rest⟩
      · simp only [hlater] at h
        cases hgap with
        | again hfull => exact absurd hfull hf
        | later _ hrow => simp [hlater] at hrow
        | up _ _ hgap => exact mem_prospect_of_next hg hrest h ⟨gap, hgap, hd⟩
      · have hmem : k ∈ l.later := hlater ▸ List.mem_cons_self
        obtain ⟨hkf, hkframe, hkp⟩ := Level.fits_of_mem_later hl.fits hmem
        have hc := (ht.ends l List.mem_cons_self).empty k hmem
        obtain ⟨hrow', hpos, hne⟩ := Level.later_of_eq_cons hlater
        have hothers : k.others = [] := by simp [Level.others, hne]
        have hklast : k.IsLast := by
          rw [Level.IsLast, if_neg (by simp [hkp]), hpos, hc]
        simp only [hlater, hc, if_true] at h
        rw [mem_fromGap_iff hg hkf hkp hothers hrest.taken hnode h u]
        cases hgap with
        | again hfull => exact absurd hfull hf
        | @later _ _ before m after _ hrow hs hfull =>
          rw [hlater] at hrow
          cases before with
          | nil =>
            cases hrow
            exact Or.inl hd
          | cons b before =>
            cases hrow
            obtain ⟨hpass, hs⟩ := List.forall_mem_cons.1 hs
            exact Or.inr ⟨(Level.canSkip_iff_canPass hkp hc).2 hpass, hklast,
              Or.inl ⟨before, m, after, hrow', hs, hfull, hd⟩⟩
        | up _ hs hgap =>
          rw [hlater] at hs
          obtain ⟨hpass, hs⟩ := List.forall_mem_cons.1 hs
          have hskip := (Level.canSkip_iff_canPass hkp hc).2 hpass
          exact Or.inr ⟨hskip, hup h hskip hklast (hrow' ▸ hs) hothers hgap⟩

end Standing

end Cloze.Draft
