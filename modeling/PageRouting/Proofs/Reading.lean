/-!
# `PageRouting/Proofs/Reading.lean` — reading a list member by member

Page files and index names are read one after another, and the first fault ends the reading. So a list is read exactly if
each member is (`mapM_eq_ok_iff`), a fault is that of some member (`exists_of_mapM_eq_error`), and lists with the same
members are read to lists with the same members (`perm_of_mapM_eq_ok`).
-/

set_option autoImplicit false

namespace PageRouting

variable {ε α β : Type} {f : α → Except ε β}

@[simp] theorem mapError_error {ε' : Type} (g : ε → ε') (fault : ε) :
    (Except.error fault : Except ε α).mapError g = .error (g fault) := rfl

@[simp] theorem mapError_ok {ε' : Type} (g : ε → ε') (value : α) : (Except.ok value : Except ε α).mapError g = .ok value := rfl

theorem mapError_eq_ok_iff {ε' : Type} {g : ε → ε'} {result : Except ε α} {value : α} :
    result.mapError g = .ok value ↔ result = .ok value := by
  cases result <;> simp

theorem mapError_eq_error_iff {ε' : Type} {g : ε → ε'} {result : Except ε α} {fault : ε'} :
    result.mapError g = .error fault ↔ ∃ cause, result = .error cause ∧ g cause = fault := by
  cases result <;> simp

/-- Faults may be told in other words as they come up, or at the end. -/
theorem mapM_mapError {ε' : Type} (g : ε → ε') (xs : List α) :
    (xs.mapM fun x => (f x).mapError g) = (xs.mapM f).mapError g := by
  induction xs with
  | nil => rfl
  | cons x xs ih =>
    rw [List.mapM_cons, List.mapM_cons, ih]
    cases f x with
    | error fault => rfl
    | ok y => cases xs.mapM f <;> rfl

theorem mapM_eq_ok_iff {xs : List α} {ys : List β} : xs.mapM f = .ok ys ↔ xs.map f = ys.map .ok := by
  induction xs generalizing ys with
  | nil => cases ys <;> simp [pure, Except.pure]
  | cons x xs ih =>
    rw [List.mapM_cons]
    cases hx : f x with
    | error fault => cases ys <;> simp [bind, Except.bind, hx]
    | ok y =>
      cases hxs : xs.mapM f with
      | error fault =>
        have hne : ∀ zs : List β, xs.map f ≠ zs.map .ok := fun zs h => by
          rw [ih.mpr h] at hxs
          cases hxs
        cases ys <;> simp [bind, Except.bind, hx, hne]
      | ok zs =>
        have hzs := ih.mp hxs
        cases ys with
        | nil => simp [bind, Except.bind, pure, Except.pure]
        | cons y' ys =>
          simp only [bind, Except.bind, pure, Except.pure, Except.ok.injEq, List.cons.injEq, List.map_cons, hx, hzs]
          refine and_congr_right fun _ => ?_
          rw [List.map_inj_right fun a b => Except.ok.inj]

theorem exists_of_mapM_eq_error {xs : List α} {fault : ε} (h : xs.mapM f = .error fault) :
    ∃ x ∈ xs, f x = .error fault := by
  induction xs with
  | nil => cases h
  | cons x xs ih =>
    rw [List.mapM_cons] at h
    cases hx : f x with
    | error other =>
      simp only [hx, bind, Except.bind, Except.error.injEq] at h
      exact ⟨x, List.mem_cons_self, by rw [hx, h]⟩
    | ok y =>
      cases hxs : xs.mapM f with
      | error other =>
        simp only [hx, hxs, bind, Except.bind, Except.error.injEq] at h
        obtain ⟨x', hm, hx'⟩ := ih (by rw [hxs, h])
        exact ⟨x', List.mem_cons_of_mem _ hm, hx'⟩
      | ok ys => simp [hx, hxs, bind, Except.bind, pure, Except.pure] at h

theorem exists_mapM_eq_ok {xs : List α} (h : ∀ x ∈ xs, ∃ y, f x = .ok y) : ∃ ys, xs.mapM f = .ok ys := by
  cases hm : xs.mapM f with
  | ok ys => exact ⟨ys, rfl⟩
  | error fault =>
    obtain ⟨x, hx, hf⟩ := exists_of_mapM_eq_error hm
    obtain ⟨y, hy⟩ := h x hx
    rw [hf] at hy
    cases hy

theorem mem_iff_of_mapM_eq_ok {xs : List α} {ys : List β} (h : xs.mapM f = .ok ys) {y : β} :
    y ∈ ys ↔ ∃ x ∈ xs, f x = .ok y := by
  have hm : y ∈ ys ↔ Except.ok y ∈ xs.map f := by
    rw [mapM_eq_ok_iff.mp h, List.mem_map]
    exact ⟨fun hm => ⟨y, hm, rfl⟩, fun ⟨_, hm, he⟩ => Except.ok.inj he ▸ hm⟩
  rw [hm, List.mem_map]

theorem exists_of_mapM_eq_ok {xs : List α} {ys : List β} (h : xs.mapM f = .ok ys) {x : α} (hx : x ∈ xs) :
    ∃ y ∈ ys, f x = .ok y := by
  have hm : f x ∈ ys.map .ok := by
    rw [← mapM_eq_ok_iff.mp h]
    exact List.mem_map_of_mem hx
  obtain ⟨y, hy, he⟩ := List.mem_map.mp hm
  exact ⟨y, hy, he.symm⟩

theorem perm_of_mapM_eq_ok {xs xs' : List α} {ys ys' : List β} (h : xs.mapM f = .ok ys) (h' : xs'.mapM f = .ok ys')
    (hp : xs.Perm xs') : ys.Perm ys' := by
  have hm : (ys.map (Except.ok (ε := ε))).Perm (ys'.map .ok) := by
    rw [← mapM_eq_ok_iff.mp h, ← mapM_eq_ok_iff.mp h']
    exact hp.map f
  have hinv : ∀ zs : List β, (zs.map (Except.ok (ε := ε))).filterMap Except.toOption = zs := by
    intro zs
    rw [List.filterMap_map]
    exact List.filterMap_some
  rw [← hinv ys, ← hinv ys']
  exact hm.filterMap _

/-- What can be told of each result as well as of what it is read from can be told of the lists. -/
theorem map_eq_of_mapM_eq_ok {γ : Type} {g : α → γ} {h : β → γ} {xs : List α} {ys : List β}
    (hm : xs.mapM f = .ok ys) (hgh : ∀ x y, f x = .ok y → g x = h y) : xs.map g = ys.map h := by
  have hmap := mapM_eq_ok_iff.mp hm
  clear hm
  induction xs generalizing ys with
  | nil =>
    cases ys with
    | nil => rfl
    | cons y ys => cases hmap
  | cons x xs ih =>
    cases ys with
    | nil => cases hmap
    | cons y ys =>
      obtain ⟨hx, hxs⟩ := List.cons.inj hmap
      rw [List.map_cons, List.map_cons, hgh x y hx, ih hxs]

end PageRouting
