import Mathlib.Data.List.Chain
import PageRouting.Proofs.Flattening

/-!
# `PageRouting/Proofs/Leaves.lean` — a forest serves its leaves

Which paths a forest serves can be said without walking it with a text in hand. Each leaf is served once, in the order in
which a walk down and then on comes upon the leaves, and under the patterns on the way to it, parted by slashes. A filter
leaves out a leaf if it rejects the leaf or a route above it, and changes nothing about the others (`leaf_paths`).

The ways are the trails of the forest. That they are what they should be is said here once: each of them goes from the top
down to a child of the route before (`Forest.isDescent_trails`), and the routes in which they end are the leaves among the
nodes, each as often as it is there (`Forest.getLast?_trails`).

All this is for forests in which no route with children has a pattern of nothing but slashes. In other forests the walk
mends the text that it has in hand, and what a leaf is served under depends on the leaves before it.
-/

set_option autoImplicit false

namespace PageRouting

namespace Forest

/-- The leaves of a forest, depth first. -/
def leaves (forest : Forest) : List Route :=
  forest.nodes.filter fun node => node.children = []

/-- Does a way begin on the top level of a forest, and go on from each route to a child of it? -/
def IsDescent (forest : Forest) (way : List Route) : Prop :=
  (∃ first ∈ forest, way.head? = some first) ∧ way.IsChain fun above below => below ∈ above.children

theorem leaves_cons (route : Route) (siblings : Forest) :
    leaves (route :: siblings) = (if route.children = [] then [route] else leaves route.children) ++ leaves siblings := by
  unfold leaves
  rw [nodes_cons, List.filter_cons, List.filter_append]
  by_cases hleaf : route.children = []
  · simp [hleaf, nodes, Route.nodesOfAll]
  · simp [hleaf]

/-- **The trails of a forest end in its leaves**, one in each, depth first. -/
theorem getLast?_trails (forest : Forest) : forest.trails.map List.getLast? = forest.leaves.map some := by
  induction forest using Forest.induct with
  | nil => rfl
  | cons route siblings below ih =>
    rw [trails_cons, trails_route, leaves_cons, List.map_append, List.map_append, ih]
    congr 1
    by_cases hleaf : route.children = []
    · rw [if_pos hleaf, if_pos hleaf]
      rfl
    · rw [if_neg hleaf, if_neg hleaf, ← below, List.map_map]
      -- no trail is empty, so a route above it is not its end
      refine List.map_congr_left fun trail hm => ?_
      have hlast : trail.getLast? ∈ (leaves route.children).map some := below ▸ List.mem_map_of_mem hm
      obtain ⟨leaf, -, hleaf⟩ := List.mem_map.mp hlast
      rw [Function.comp_apply, List.getLast?_cons, ← hleaf]
      rfl

/-- Every trail descends. -/
theorem isDescent_trails (forest : Forest) : ∀ trail ∈ forest.trails, forest.IsDescent trail := by
  induction forest using Forest.induct with
  | nil => simp [trails, Route.trailsOfAll]
  | cons route siblings below ih =>
    intro trail hm
    rw [trails_cons, trails_route] at hm
    rcases List.mem_append.mp hm with hm | hm
    · by_cases hleaf : route.children = []
      · rw [if_pos hleaf] at hm
        obtain rfl := List.mem_singleton.mp hm
        exact ⟨⟨route, List.mem_cons_self, rfl⟩, .singleton route⟩
      · rw [if_neg hleaf] at hm
        obtain ⟨way, hway, rfl⟩ := List.mem_map.mp hm
        obtain ⟨⟨first, hfirst, hhead⟩, hchain⟩ := below way hway
        refine ⟨⟨route, List.mem_cons_self, rfl⟩, List.isChain_cons.mpr ⟨fun next hnext => ?_, hchain⟩⟩
        obtain rfl : first = next := Option.some.inj (hhead.symm.trans hnext)
        exact hfirst
    · obtain ⟨⟨first, hfirst, hhead⟩, hchain⟩ := ih trail hm
      exact ⟨⟨first, List.mem_cons_of_mem _ hfirst, hhead⟩, hchain⟩

end Forest

namespace Flat

/-- The path of a leaf below routes with the given patterns: an empty pattern of its own adds nothing below another one. -/
theorem pathOf_append_singleton (above : List Text) (own : Text) :
    pathOf (above ++ [own]) =
      if above = [] then own else if own = [] then Text.join '/' above else Text.join '/' above ++ '/' :: own := by
  rw [pathOf, List.getLast?_concat, List.dropLast_concat]
  by_cases habove : above = []
  · rw [if_pos habove, habove]
    by_cases hown : own = []
    · rw [hown]
      rfl
    · rw [if_neg (by simpa using hown)]
      rfl
  · rw [if_neg habove]
    by_cases hown : own = []
    · rw [if_pos hown, if_pos (by rw [hown])]
    · rw [if_neg hown, if_neg (by simpa using hown), Text.join_append_singleton '/' habove]

end Flat

namespace Forest

/--
**A forest serves one path for each leaf** that the filter leaves, together with all routes above it, and serves no other
path. The paths come depth first. A leaf below routes with patterns is served under these and its own, parted by slashes; an
empty pattern of its own adds no slash, and a leaf on the top level is served under its own pattern as it is.
-/
theorem leaf_paths (accepts : Route → Bool) (forest : Forest)
    (hpatterns : ∀ node ∈ forest.nodes, node.children ≠ [] → ∃ c ∈ node.path, c ≠ '/') :
    forest.trails.map List.getLast? = forest.leaves.map some ∧
      (∀ trail ∈ forest.trails, forest.IsDescent trail) ∧
      forest.flatPathsWhere accepts [] =
        (forest.trails.filter fun trail => trail.all accepts).map (fun trail => Flat.pathOf (trail.map Route.path)) ∧
      ∀ above own, Flat.pathOf (above ++ [own]) =
        if above = [] then own else if own = [] then Text.join '/' above else Text.join '/' above ++ '/' :: own :=
  ⟨getLast?_trails forest, isDescent_trails forest, flatPathsWhere_eq_trails accepts hpatterns, Flat.pathOf_append_singleton⟩

/--
A page of its own behind an empty pattern, two levels of it, a parameter that the filter rejects with what is below it, and
the two patterns that stand alone on the top level.
-/
theorem leaf_paths_manual :
    let page : Text → List Route → Route := fun path children => { name := none, path, children }
    let forest : Forest := [page "/docs".toList [page [] [], page "intro".toList [page [] [], page "a/b".toList []],
      page ":id".toList [page "edit".toList []]], page [] [], page ['/'] []]
    (∀ node ∈ forest.nodes, node.children ≠ [] → ∃ c ∈ node.path, c ≠ '/') ∧
      forest.flatPathsWhere Route.isStatic [] =
        ["/docs".toList, "/docs/intro".toList, "/docs/intro/a/b".toList, [], ['/']] := by
  intro page forest
  have hpatterns : ∀ node ∈ forest.nodes, node.children ≠ [] → ∃ c ∈ node.path, c ≠ '/' := by
    have hany : ∀ node ∈ forest.nodes, node.children ≠ [] → node.path.any (· ≠ '/') := by decide +kernel
    intro node hm hne
    simpa using hany node hm hne
  obtain ⟨-, -, hpaths, -⟩ := leaf_paths Route.isStatic forest hpatterns
  exact ⟨hpatterns, hpaths.trans (by decide +kernel)⟩

end Forest

end PageRouting
