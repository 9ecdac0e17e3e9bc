import PageRouting.Forest.Flat
import PageRouting.Proofs.Naming

/-!
# `PageRouting/Proofs/Flattening.lean` — the paths of a forest, read off its trails

The walk over a forest carries the text in front of the siblings along, mends it as it goes, and gives extra paths for some
routes with children. For the forests that come out of page files none of this shows: as long as every route with children
has a pattern that is more than slashes, each leaf gives one path, which is read off the routes on the way to it
(`flatPathsWhere_eq_trails`), and a filter only decides which leaves are left.
-/

set_option autoImplicit false

namespace PageRouting

/-! ## Trails -/

namespace Route

mutual

/-- The ways from a route down to the leaves below it, each as the routes that it passes. -/
def trails : Route → List (List Route)
  | ⟨name, path, component, chunkName, []⟩ => [[⟨name, path, component, chunkName, []⟩]]
  | ⟨name, path, component, chunkName, child :: others⟩ =>
    (trailsOfAll (child :: others)).map (⟨name, path, component, chunkName, child :: others⟩ :: ·)

/-- The ways from the top of a list of siblings down to its leaves, depth first. -/
def trailsOfAll : List Route → List (List Route)
  | [] => []
  | route :: siblings => route.trails ++ trailsOfAll siblings

end

end Route

namespace Forest

/-- The ways from the top of a forest down to its leaves, depth first. -/
def trails (forest : Forest) : List (List Route) :=
  Route.trailsOfAll forest

theorem trails_cons (route : Route) (siblings : Forest) : trails (route :: siblings) = route.trails ++ trails siblings :=
  rfl

theorem trails_eq_flatMap (forest : Forest) : trails forest = List.flatMap Route.trails forest := by
  induction forest with
  | nil => rfl
  | cons route siblings ih => rw [trails_cons, List.flatMap_cons, ih]

theorem trails_route (route : Route) :
    route.trails = if route.children = [] then [[route]] else (trails route.children).map (route :: ·) := by
  obtain ⟨name, path, component, chunkName, children⟩ := route
  cases children with
  | nil => rfl
  | cons child others =>
    rw [if_neg (by simp)]
    rfl

/-- The patterns that the trails of a forest pass. -/
def patterns (forest : Forest) : List (List Text) :=
  forest.trails.map fun trail => trail.map Route.path

theorem patterns_route (route : Route) :
    (route.trails.map fun trail => trail.map Route.path) =
      (if route.children = [] then [[]] else patterns route.children).map (route.path :: ·) := by
  rw [trails_route]
  split
  · rfl
  · rw [patterns, List.map_map, List.map_map]
    rfl

end Forest

/-! ## Paths along trails -/

namespace Flat

/-- Patterns as one path: joined by slashes, with no slash for a last pattern that is empty. -/
def pathOf (patterns : List Text) : Text :=
  Text.join '/' (if patterns.getLast? = some [] then patterns.dropLast else patterns)

/-- The text that the walk carries in front of siblings below routes with the given patterns. -/
inductive Leads : List Text → Text → Prop where
  | top : Leads [] []
  | below {above : List Text} {c : Char} (ne_nil : above ≠ []) (mem : c ∈ Text.join '/' above) (ne_slash : c ≠ '/') :
      Leads above (Text.join '/' above ++ ['/'])

variable {above : List Text} {lead : Text}

/-- Such a text is never mended. -/
theorem Leads.reduceSlashes_eq (h : Leads above lead) : reduceSlashes lead = lead := by
  cases h with
  | top => rfl
  | @below _ c _ mem ne_slash =>
    have hlast : (Text.join '/' above ++ ['/']).getLast? ≠ some '\n' := by
      rw [List.getLast?_concat]
      decide
    have hmore : ¬ (Text.join '/' above ++ ['/']).all (· = '/') := by
      intro hall
      have := List.all_eq_true.mp hall c (List.mem_append_left _ mem)
      exact ne_slash (of_decide_eq_true this)
    rw [reduceSlashes, Text.dropFinalNewline, if_neg hlast]
    exact if_neg fun hs => hmore hs.2

theorem Leads.leadAfter_eq (h : Leads above lead) (accepts : Route → Bool) (route : Route) :
    leadAfter accepts lead route = lead := by
  rw [leadAfter, h.reduceSlashes_eq, ite_self]

theorem Leads.append_eq (h : Leads above lead) (path : Text) : lead ++ path = Text.join '/' (above ++ [path]) := by
  cases h with
  | top => rfl
  | below ne_nil => rw [Text.join_append_singleton _ ne_nil, List.append_assoc, List.singleton_append]

theorem Leads.extend (h : Leads above lead) {path : Text} {c : Char} (hm : c ∈ path) (hc : c ≠ '/') :
    Leads (above ++ [path]) (lead ++ path ++ ['/']) := by
  rw [h.append_eq]
  refine .below (by simp) ?_ hc
  rw [← h.append_eq]
  exact List.mem_append_right _ hm

theorem Leads.leafPath_eq (h : Leads above lead) (path : Text) :
    leafPath (reduceSlashes lead) path = pathOf (above ++ [path]) := by
  rw [h.reduceSlashes_eq, leafPath, pathOf, List.getLast?_concat, List.dropLast_concat]
  by_cases hp : path = []
  · subst hp
    cases h with
    | top => rfl
    | below => simp
  · rw [if_neg fun hl => hp hl.1, if_neg (by simpa using hp), h.append_eq]

theorem ofRoute_eq (accepts : Route → Bool) (lead : Text) (route : Route) :
    ofRoute accepts lead route =
      if accepts route then
        if route.children = [] then [leafPath (reduceSlashes lead) route.path]
        else (if lead = [] ∧ route.path = ['/'] then [['/']] else []) ++
          ofSiblings accepts (lead ++ route.path ++ ['/']) route.children
      else [] := by
  obtain ⟨name, path, component, chunkName, children⟩ := route
  cases children with
  | nil => rw [ofRoute, if_pos rfl]
  | cons child others => rw [ofRoute, if_neg (List.cons_ne_nil child others)]

/-- The walk over siblings below routes with the given patterns. -/
theorem ofSiblings_eq (accepts : Route → Bool) {forest : Forest} (h : Leads above lead)
    (hpatterns : ∀ node ∈ forest.nodes, node.children ≠ [] → ∃ c ∈ node.path, c ≠ '/') :
    ofSiblings accepts lead forest =
      (forest.trails.filter fun trail => trail.all accepts).map fun trail => pathOf (above ++ trail.map Route.path) := by
  induction forest using Forest.induct generalizing above lead with
  | nil => rfl
  | cons route siblings below ih =>
    have hnode := fun node hm => hpatterns node (Forest.mem_nodes_cons.mpr hm)
    have hroute : ofRoute accepts lead route =
        (route.trails.filter fun trail => trail.all accepts).map fun trail => pathOf (above ++ trail.map Route.path) := by
      rw [ofRoute_eq, Forest.trails_route]
      by_cases ha : accepts route
      · by_cases hc : route.children = []
        · simp [ha, hc, h.leafPath_eq]
        · -- the pattern is more than a slash, so nothing is given for the route itself
          obtain ⟨c, hm, hslash⟩ := hnode route (.inl rfl) hc
          have hpath : route.path ≠ ['/'] := by
            intro he
            rw [he, List.mem_singleton] at hm
            exact hslash hm
          rw [if_pos ha, if_neg hc, if_neg fun hp => hpath hp.2, List.nil_append,
            below (h.extend hm hslash) fun node hn => hnode node (.inr (.inl hn)), if_neg hc, List.filter_map,
            List.map_map]
          simp [Function.comp_def, ha]
      · -- every trail through a rejected route is filtered out
        have hnone : ∀ trails : List (List Route), (trails.map (route :: ·)).filter (fun trail => trail.all accepts) = [] := by
          intro trails
          simp [List.filter_map, Function.comp_def, ha]
        rw [if_neg ha]
        split
        · simp [ha]
        · rw [hnone]
          rfl
    rw [ofSiblings, h.leadAfter_eq, hroute, ih h fun node hm => hnode node (.inr (.inr hm)), Forest.trails_cons,
      List.filter_append, List.map_append]

end Flat

namespace Forest

/-- **Each leaf gives the path of its trail**, if the filter accepts every route on it. -/
theorem flatPathsWhere_eq_trails (accepts : Route → Bool) {forest : Forest}
    (hpatterns : ∀ node ∈ forest.nodes, node.children ≠ [] → ∃ c ∈ node.path, c ≠ '/') :
    forest.flatPathsWhere accepts [] =
      (forest.trails.filter fun trail => trail.all accepts).map fun trail => Flat.pathOf (trail.map Route.path) :=
  Flat.ofSiblings_eq accepts .top hpatterns

theorem flatPathsWhere_eq_patterns {accepts : Route → Bool} {acceptsPattern : Text → Bool}
    (haccepts : ∀ route : Route, accepts route = acceptsPattern route.path) {forest : Forest}
    (hpatterns : ∀ node ∈ forest.nodes, node.children ≠ [] → ∃ c ∈ node.path, c ≠ '/') :
    forest.flatPathsWhere accepts [] = (forest.patterns.filter fun patterns => patterns.all acceptsPattern).map Flat.pathOf := by
  obtain rfl : accepts = fun route => acceptsPattern route.path := funext haccepts
  rw [flatPathsWhere_eq_trails _ hpatterns, patterns, List.filter_map, List.map_map]
  simp [Function.comp_def]

end Forest

end PageRouting
