import Cloze.Draft.Refusal

/-!
# What an edit ends in

`Ensures act d good bad` says of an edit run on the draft `d` that `good` holds of its value and
the draft it leaves if it succeeds, and `bad` of its refusal and the draft it leaves if not. The
rules follow the shape of an edit.
-/

namespace Cloze.Edit

open Draft

variable {α β : Type} {d : Draft} {good good' : α → Draft → Prop} {bad bad' : Refusal → Draft → Prop}

/-! ### Runs of the basic edits -/

section

variable {σ ε : Type}

theorem run_get (s : σ) : (get : EStateM ε σ σ) s = .ok s s := rfl

theorem run_set (s t : σ) : (set t : EStateM ε σ PUnit) s = .ok ⟨⟩ t := rfl

theorem run_modify (f : σ → σ) (s : σ) : (modify f : EStateM ε σ PUnit) s = .ok ⟨⟩ (f s) := rfl

theorem run_throw (r : ε) (s : σ) : (throw r : EStateM ε σ α) s = .error r s := rfl

theorem run_bind_of_ok {act : EStateM ε σ α} {k : α → EStateM ε σ β} {s t : σ} {a : α}
    (h : act s = .ok a t) : (act >>= k) s = k a t := by
  simp only [bind, EStateM.bind, h]

theorem exists_of_run_bind {act : EStateM ε σ α} {k : α → EStateM ε σ β} {s u : σ} {b : β}
    (h : (act >>= k) s = .ok b u) : ∃ a t, act s = .ok a t ∧ k a t = .ok b u := by
  simp only [bind, EStateM.bind] at h
  split at h
  · rename_i a t ha
    exact ⟨a, t, ha, h⟩
  · cases h

end

/-! ### Outcomes -/

/-- What holds after an edit, by whether it succeeds. -/
def Ensures (act : Edit α) (d : Draft) (good : α → Draft → Prop) (bad : Refusal → Draft → Prop) :
    Prop :=
  match act d with
  | .ok a e => good a e
  | .error r e => bad r e

instance {act : Edit α} [∀ a e, Decidable (good a e)] [∀ r e, Decidable (bad r e)] :
    Decidable (Ensures act d good bad) :=
  match h : act d with
  | .ok a e => decidable_of_iff (good a e) (by rw [Ensures, h])
  | .error r e => decidable_of_iff (bad r e) (by rw [Ensures, h])

theorem Ensures.exists_ok {act : Edit α} (h : Ensures act d good fun _ _ => False) :
    ∃ a e, act d = .ok a e ∧ good a e := by
  unfold Ensures at h
  split at h
  · rename_i a e ha
    exact ⟨a, e, ha, h⟩
  · exact h.elim

theorem Ensures.exists_error {act : Edit α} (h : Ensures act d (fun _ _ => False) bad) :
    ∃ r e, act d = .error r e ∧ bad r e := by
  unfold Ensures at h
  split at h
  · exact h.elim
  · rename_i r e hr
    exact ⟨r, e, hr, h⟩

theorem Ensures.mono {act : Edit α} (h : Ensures act d good bad)
    (hg : ∀ a e, good a e → good' a e) (hb : ∀ r e, bad r e → bad' r e) :
    Ensures act d good' bad' := by
  unfold Ensures at h ⊢
  split <;> simp_all

theorem Ensures.and {act : Edit α} (h : Ensures act d good bad) (h' : Ensures act d good' bad') :
    Ensures act d (fun a e => good a e ∧ good' a e) (fun r e => bad r e ∧ bad' r e) := by
  unfold Ensures at h h' ⊢
  split <;> simp_all

theorem ensures_bind {act : Edit β} {f : β → Edit α} :
    Ensures (act >>= f) d good bad ↔ Ensures act d (fun b e => Ensures (f b) e good bad) bad := by
  unfold Ensures
  show (match EStateM.bind act f d with | .ok a e => good a e | .error r e => bad r e) ↔ _
  unfold EStateM.bind
  cases act d <;> rfl

theorem ensures_map {act : Edit β} {f : β → α} :
    Ensures (f <$> act) d good bad ↔ Ensures act d (fun b e => good (f b) e) bad := by
  unfold Ensures
  show (match EStateM.map f act d with | .ok a e => good a e | .error r e => bad r e) ↔ _
  unfold EStateM.map
  cases act d <;> rfl

@[simp] theorem ensures_pure {a : α} : Ensures (pure a) d good bad ↔ good a d := Iff.rfl

@[simp] theorem ensures_get {good : Draft → Draft → Prop} :
    Ensures get d good bad ↔ good d d := Iff.rfl

@[simp] theorem ensures_set {e : Draft} {good : PUnit → Draft → Prop} :
    Ensures (set e) d good bad ↔ good ⟨⟩ e := Iff.rfl

@[simp] theorem ensures_modify {f : Draft → Draft} {good : PUnit → Draft → Prop} :
    Ensures (modify f) d good bad ↔ good ⟨⟩ (f d) := Iff.rfl

@[simp] theorem ensures_throw {r : Refusal} : Ensures (throw r : Edit α) d good bad ↔ bad r d :=
  Iff.rfl

/-- An edit that may not fail where it did not succeed gives a value. -/
theorem Ensures.of_ok {act : Edit α} (h : Ensures act d good bad) {a : α} {e : Draft}
    (ha : act d = .ok a e) : good a e := by
  unfold Ensures at h
  rwa [ha] at h

theorem Ensures.of_error {act : Edit α} (h : Ensures act d good bad) {r : Refusal} {e : Draft}
    (ha : act d = .error r e) : bad r e := by
  unfold Ensures at h
  rwa [ha] at h

end Cloze.Edit
