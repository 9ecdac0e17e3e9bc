import PageRouting.Forest.Insertion

/-!
# `PageRouting/Proofs/Siblings.lean` — one step on a list of siblings

Placing a page touches a list of siblings in two ways only: a new route is attached, or the first route of a name is
replaced. What every later proof needs of these two is said once here:

* `attach_perm`: an attached route is there beside all the others, wherever the order has put it;
* `split_of_named?`: a route that is found by its name cuts its siblings in two, and a replacement of that name changes
  the cut and nothing else.

The order of the siblings does not matter to what is below them, so the views `nodes` and `pages` are carried over
permutations (`nodes_perm`, `pages_perm`).
-/

set_option autoImplicit false

namespace PageRouting

/-- The page that a route shows, if it shows one: the component and its chunk. -/
def Route.page? (route : Route) : Option (Text × Option Text) :=
  route.component.map fun component => (component, route.chunkName)

namespace Forest

/-- What holds of a forest whenever it holds of the children of its routes holds of all forests. -/
theorem levelInduct {P : Forest → Prop} (level : ∀ forest : Forest, (∀ route ∈ forest, P route.children) → P forest)
    (forest : Forest) : P forest := by
  have below : ∀ route : Route, P route.children := by
    intro route
    induction route using Route.induct with
    | step route ih => exact level route.children ih
  exact level forest fun route _ => below route

/--
What holds of no routes at all, and of a list of siblings whenever it holds of the children of the first one and of the
others, holds of all forests.
-/
theorem induct {P : Forest → Prop} (nil : P [])
    (cons : ∀ (route : Route) (siblings : Forest), P route.children → P siblings → P (route :: siblings))
    (forest : Forest) : P forest := by
  induction forest using levelInduct with
  | level forest below =>
    induction forest with
    | nil => exact nil
    | cons route siblings ih =>
      have first : P route.children := below route List.mem_cons_self
      exact cons route siblings first (ih fun other hm => below other (List.mem_cons_of_mem _ hm))

/-! ## Attaching and replacing -/

theorem attach_perm (siblings : Forest) (route : Route) : (attach siblings route).Perm (route :: siblings) :=
  (stableSort_perm _ _).trans (List.perm_append_singleton _ _)

theorem name_ne_of_named?_eq_none {name : Text} {siblings : Forest} (h : named? name siblings = none) :
    ∀ sibling ∈ siblings, sibling.name ≠ some name := by
  intro sibling hm
  have := List.find?_eq_none.mp h sibling hm
  simpa using this

/-- A route found by its name cuts its siblings in two, and a replacement of that name takes its place. -/
theorem split_of_named? {name : Text} {siblings : Forest} {route : Route} (h : named? name siblings = some route) :
    ∃ before after, siblings = before ++ route :: after ∧ route.name = some name ∧
      ∀ other, replaceFirst name other siblings = before ++ other :: after := by
  induction siblings with
  | nil => exact absurd h (by simp [named?])
  | cons sibling siblings ih =>
    by_cases hs : sibling.name = some name
    · have hr : sibling = route := by simpa [named?, hs] using h
      subst hr
      exact ⟨[], siblings, rfl, hs, fun other => by simp [replaceFirst, hs]⟩
    · have h' : named? name siblings = some route := by simpa [named?, hs] using h
      obtain ⟨before, after, rfl, hname, hreplace⟩ := ih h'
      refine ⟨sibling :: before, after, rfl, hname, fun other => ?_⟩
      simp only [replaceFirst, hs, if_false, hreplace other, List.cons_append]

/-! ## The nodes of a rearranged forest -/

theorem mem_nodes_cons {node route : Route} {siblings : Forest} :
    node ∈ nodes (route :: siblings) ↔ node = route ∨ node ∈ nodes route.children ∨ node ∈ nodes siblings := by
  rw [nodes_cons, List.mem_cons, List.mem_append]

theorem exists_of_mem_nodes {node : Route} {forest : Forest} (h : node ∈ nodes forest) :
    ∃ route ∈ forest, node = route ∨ node ∈ nodes route.children := by
  induction forest with
  | nil => cases h
  | cons first others ih =>
    rcases mem_nodes_cons.mp h with rfl | hm | hm
    · exact ⟨node, List.mem_cons_self, .inl rfl⟩
    · exact ⟨first, List.mem_cons_self, .inr hm⟩
    · obtain ⟨route, hroute, hnode⟩ := ih hm
      exact ⟨route, List.mem_cons_of_mem _ hroute, hnode⟩

theorem mem_nodes_append {node : Route} {a b : Forest} : node ∈ nodes (a ++ b) ↔ node ∈ nodes a ∨ node ∈ nodes b := by
  rw [nodes_append, List.mem_append]

theorem nodes_perm {a b : Forest} (h : a.Perm b) : (nodes a).Perm (nodes b) := by
  induction h with
  | nil => exact .refl _
  | cons route _ ih =>
    rw [nodes_cons, nodes_cons]
    exact (ih.append_left _).cons _
  | swap x y siblings =>
    have hx : nodes (x :: y :: siblings) = nodes [x] ++ (nodes [y] ++ nodes siblings) := by
      rw [← nodes_append, ← nodes_append]; rfl
    have hy : nodes (y :: x :: siblings) = nodes [y] ++ (nodes [x] ++ nodes siblings) := by
      rw [← nodes_append, ← nodes_append]; rfl
    rw [hx, hy, ← List.append_assoc, ← List.append_assoc]
    exact List.perm_append_comm.append_right _
  | trans _ _ ih₁ ih₂ => exact ih₁.trans ih₂

theorem mem_nodes_attach {node route : Route} {siblings : Forest} :
    node ∈ nodes (attach siblings route) ↔
      node = route ∨ node ∈ nodes route.children ∨ node ∈ nodes siblings := by
  rw [(nodes_perm (attach_perm siblings route)).mem_iff, mem_nodes_cons]

/-! ## The pages of a rearranged forest -/

theorem pages_cons (route : Route) (siblings : Forest) :
    pages (route :: siblings) = route.page?.toList ++ (pages route.children ++ pages siblings) := by
  unfold pages Route.page?
  rw [nodes_cons, List.filterMap_cons, List.filterMap_append]
  cases route.component <;> rfl

theorem pages_append (a b : Forest) : pages (a ++ b) = pages a ++ pages b := by
  simp only [pages, nodes_append, List.filterMap_append]

theorem pages_perm {a b : Forest} (h : a.Perm b) : (pages a).Perm (pages b) :=
  (nodes_perm h).filterMap _

/-- A replacement that shows one page more, itself or below, adds that page to the forest. -/
theorem pages_replaceFirst {name : Text} {siblings : Forest} {route other : Route} {page : Text × Option Text}
    (h : named? name siblings = some route) (hp : (pages [other]).Perm (page :: pages [route])) :
    (pages (replaceFirst name other siblings)).Perm (page :: pages siblings) := by
  obtain ⟨before, after, rfl, -, hreplace⟩ := split_of_named? h
  have hcut : ∀ r : Route, pages (before ++ r :: after) = pages before ++ (pages [r] ++ pages after) := by
    intro r
    rw [pages_append, ← pages_append [r]]
    rfl
  rw [hreplace, hcut, hcut]
  exact ((hp.append_right _).append_left _).trans List.perm_middle

end Forest

end PageRouting
