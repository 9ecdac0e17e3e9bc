import PageRouting.Text

/-!
# `PageRouting/Route/Basic.lean` — routes, and forests of them

A route has a pattern, relative to that of its parent, and may have a name, a component with its chunk, and children.
A forest is a list of siblings. Forests are read through two views: all nodes depth first (`Forest.nodes`), and the
pages they hold (`Forest.pages`).

Routes nest through lists, so functions on them come in pairs, one for a route and one for siblings; a statement about
all routes follows from `Route.induct`, which assumes it of a route's children.
-/

set_option autoImplicit false

namespace PageRouting

/-- A route of the router's tree. -/
structure Route where
  /-- the name under which the router knows the route -/
  name : Option Text
  /-- the pattern, relative to that of the parent -/
  path : Text
  /-- the component that shows the page -/
  component : Option Text := none
  /-- the chunk that the component is built into -/
  chunkName : Option Text := none
  /-- the routes below this one -/
  children : List Route := []
deriving Repr, Inhabited

/-- A list of siblings with everything below them. -/
abbrev Forest := List Route

/-- What holds of a route whenever it holds of its children holds of all routes. -/
theorem Route.induct {P : Route → Prop} (step : ∀ route : Route, (∀ child ∈ route.children, P child) → P route)
    (route : Route) : P route :=
  Route.rec (motive_1 := P) (motive_2 := fun siblings => ∀ child ∈ siblings, P child)
    (fun name path component chunkName children ih => step ⟨name, path, component, chunkName, children⟩ ih)
    (fun child h => by cases h)
    (fun route siblings hr hs child h => by
      rcases List.mem_cons.mp h with rfl | h
      · exact hr
      · exact hs child h)
    route

namespace Route

/-- Does the route have no name? -/
def isWrapper (route : Route) : Bool :=
  route.name.isNone

mutual

/-- The route and everything below it, depth first. -/
def nodes : Route → List Route
  | ⟨name, path, component, chunkName, children⟩ =>
    ⟨name, path, component, chunkName, children⟩ :: nodesOfAll children

/-- All nodes of a list of siblings, depth first. -/
def nodesOfAll : List Route → List Route
  | [] => []
  | route :: siblings => route.nodes ++ nodesOfAll siblings

end

end Route

namespace Forest

/-- Every node of the forest, depth first. -/
def nodes (forest : Forest) : List Route :=
  Route.nodesOfAll forest

theorem nodes_cons (route : Route) (siblings : Forest) :
    nodes (route :: siblings) = route :: (nodes route.children ++ nodes siblings) := by
  cases route
  simp [nodes, Route.nodesOfAll, Route.nodes]

theorem nodes_append (a b : Forest) : nodes (a ++ b) = nodes a ++ nodes b := by
  induction a with
  | nil => rfl
  | cons route siblings ih => simp [nodes_cons, ih]

/-- The pages that the forest holds: component and chunk of every node with a component. -/
def pages (forest : Forest) : List (Text × Option Text) :=
  (nodes forest).filterMap fun route => route.component.map fun component => (component, route.chunkName)

end Forest

end PageRouting
