import PageRouting.Forest.Collapse
import PageRouting.Proofs.Reading
import PageRouting.Proofs.Siblings

/-!
# `PageRouting/Proofs/Collapsing.lean` — a collapse pass, level by level

What a pass does to one route depends on the index names among its siblings and on whether a child shows its page; below
the route it is a pass over the children, as a level of their own. Said so (`route_value`, `route_fault`), the pass is a
recursion on forests, and later proofs need not open it again.

The index names of a level are those of its names that have the ending, each read by itself (`ofNames_eq_mapM`). A pass
stops only where one of them cannot be read (`fault_collapse`).
-/

set_option autoImplicit false

namespace PageRouting

namespace IndexName

/-- A name, if it is that of an index route. -/
def text? (name : Option Text) : Option Text :=
  name.filter fun text => (stem? text).isSome

/-- The index names of a level are the names that have the ending, each read by itself. -/
theorem ofNames_eq_mapM (names : List (Option Text)) : ofNames names = (names.filterMap text?).mapM ofName := by
  fun_induction ofNames names with
  | case1 => rfl
  | case2 names ih => rw [ih]; rfl
  | case3 name names hs ih =>
    have : text? (some name) = none := by simp [text?, hs]
    rw [List.filterMap_cons, this, ih]
  | case4 name names stem hs ih =>
    have : text? (some name) = some name := by simp [text?, hs]
    rw [List.filterMap_cons, this, List.mapM_cons, ih]

theorem ofName_eq_error {name : Text} {fault : Fault} (h : ofName name = .error fault) : fault = .missingIndexPart := by
  unfold ofName at h
  dsimp only at h
  split at h
  · cases h
  · exact (Except.error.inj h).symm

theorem ofNames_eq_error {names : List (Option Text)} {fault : Fault} (h : ofNames names = .error fault) :
    fault = .missingIndexPart := by
  rw [ofNames_eq_mapM] at h
  obtain ⟨_, -, hn⟩ := exists_of_mapM_eq_error h
  exact ofName_eq_error hn

end IndexName

namespace Collapse

theorem route_value (indexes : List IndexName) (isChild : Bool) (route : Route) :
    (Collapse.route indexes isChild route).value =
      { name := if showsParent route.children then none else route.name.map IndexName.strip
        path := newPath indexes isChild route.name route.path
        component := route.component
        chunkName := route.chunkName
        children := (Forest.collapse true route.children).value } := by
  obtain ⟨name, path, component, chunkName, children⟩ := route
  rw [Collapse.route]
  unfold Forest.collapse
  dsimp only
  split <;> rfl

/-- A pass stops at a route only if it stops below it. -/
theorem route_fault (indexes : List IndexName) (isChild : Bool) (route : Route) :
    (Collapse.route indexes isChild route).fault = (Forest.collapse true route.children).fault := by
  obtain ⟨name, path, component, chunkName, children⟩ := route
  rw [Collapse.route]
  unfold Forest.collapse
  dsimp only
  split <;> rfl

theorem siblings_of_fault_eq_none (indexes : List IndexName) (isChild : Bool) {forest : Forest}
    (h : ∀ route ∈ forest, (Forest.collapse true route.children).fault = none) :
    (siblings indexes isChild forest).fault = none ∧
      (siblings indexes isChild forest).value = forest.map fun route => (Collapse.route indexes isChild route).value := by
  induction forest with
  | nil => exact ⟨rfl, rfl⟩
  | cons first others ih =>
    have hfirst : (route indexes isChild first).fault = none := by
      rw [route_fault]
      exact h first List.mem_cons_self
    obtain ⟨hfault, hvalue⟩ := ih fun route hm => h route (List.mem_cons_of_mem _ hm)
    rw [siblings]
    dsimp only
    rw [hfirst]
    exact ⟨hfault, by rw [List.map_cons, hvalue]⟩

theorem fault_siblings {indexes : List IndexName} {isChild : Bool} {forest : Forest} {fault : Fault}
    (h : (siblings indexes isChild forest).fault = some fault) :
    ∃ route ∈ forest, (Forest.collapse true route.children).fault = some fault := by
  induction forest with
  | nil => cases h
  | cons first others ih =>
    rw [siblings] at h
    dsimp only at h
    split at h
    · next hf =>
      rw [route_fault] at hf
      exact ⟨first, List.mem_cons_self, hf.trans h⟩
    · obtain ⟨route, hm, hf⟩ := ih h
      exact ⟨route, List.mem_cons_of_mem _ hm, hf⟩

end Collapse

namespace Forest

/-- **The one fault of a collapse pass** is an index name that cannot be read. -/
theorem fault_collapse {isChild : Bool} {forest : Forest} {fault : Fault}
    (h : (forest.collapse isChild).fault = some fault) : fault = .missingIndexPart := by
  induction forest using levelInduct generalizing isChild fault with
  | level forest below =>
    unfold collapse at h
    split at h
    · next hn => exact Option.some.inj h ▸ IndexName.ofNames_eq_error hn
    · obtain ⟨route, hm, hf⟩ := Collapse.fault_siblings h
      exact below route hm hf

end Forest

end PageRouting
