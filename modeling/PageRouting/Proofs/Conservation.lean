import PageRouting.Proofs.Collapsing
import PageRouting.Proofs.Entries

/-!
# `PageRouting/Proofs/Conservation.lean` — no page is lost, doubled or overwritten

Placing a page may descend through any number of routes, make wrappers on its way, fill a wrapper, or nest the page below
one that has its name. Whichever it does, the forest afterwards holds the pages it held before and the new one
(`pages_place`), and the route that is handed back is in it and shows the new page. Nothing is assumed of the forest: it
need not have come out of insertion at all.

A collapse pass renames routes and rewrites their patterns and does nothing else. This is said by a view: the skeleton of
a route is the route without its names and patterns, and a pass keeps it, also if it stops half way
(`skeleton_collapse`). Pages are a view of the skeleton, and so is whether a route without children shows a page.
-/

set_option autoImplicit false

namespace PageRouting

/-- The page that an entry stands for. -/
def PageEntry.page (entry : PageEntry) : Text × Option Text :=
  (entry.component, entry.chunkName)

/-- Does the route show the page of the entry? -/
def Route.Shows (route : Route) (entry : PageEntry) : Prop :=
  route.component = some entry.component ∧ route.chunkName = entry.chunkName

namespace Forest

/-- Every route without children shows a page. -/
def LeavesShow (forest : Forest) : Prop :=
  ∀ route ∈ nodes forest, route.children = [] → route.component.isSome

/-! ## Placing a page -/

theorem pages_attachPage (entry : PageEntry) (name path : Text) (siblings : Forest) :
    (attachPage entry name path siblings).forest.pages.Perm (entry.page :: siblings.pages) := by
  refine (pages_perm (attach_perm siblings _)).trans ?_
  rw [pages_cons]
  exact .refl _

theorem pages_placeAt {entry : PageEntry} {name : Text} {route : Route} {siblings : Forest}
    (h : named? name siblings = some route) :
    (placeAt entry name route siblings).forest.pages.Perm (entry.page :: siblings.pages) := by
  unfold placeAt
  split
  · next hc =>
    refine pages_replaceFirst h ?_
    rw [pages_cons, pages_cons]
    simp only [Route.page?, hc, Option.map_some, Option.map_none, Option.toList_some, Option.toList_none]
    exact .refl _
  · refine pages_replaceFirst h ?_
    rw [pages_cons, pages_cons]
    exact ((pages_attachPage entry name [] route.children).append_right _ |>.append_left _).trans List.perm_middle

/-- **Placing a page adds that page** and keeps every other, on whatever level it starts and whatever it finds there. -/
theorem pages_place (entry : PageEntry) (segments : List Segment) (position : Nat) (name : Text) (siblings : Forest) :
    (place entry segments position name siblings).forest.pages.Perm (entry.page :: siblings.pages) := by
  fun_induction place entry segments position name siblings with
  | case1 => exact pages_attachPage ..
  | case2 _ _ _ _ _ _ found => exact pages_placeAt found
  | case3 => exact pages_attachPage ..
  | case4 _ _ _ _ _ _ _ route found ih =>
    -- a route is entered, and shows what it showed
    refine pages_replaceFirst found ?_
    rw [pages_cons, pages_cons]
    exact ((ih.append_right _).append_left _).trans List.perm_middle
  | case5 _ _ _ _ _ siblings _ _ ih =>
    -- a wrapper is made, which shows nothing itself
    refine (pages_perm (attach_perm siblings _)).trans ?_
    rw [pages_cons]
    exact ih.append_right _

theorem shows_node_place (entry : PageEntry) (segments : List Segment) (position : Nat) (name : Text)
    (siblings : Forest) : (place entry segments position name siblings).node.Shows entry := by
  fun_induction place entry segments position name siblings with
  | case1 | case3 => exact ⟨rfl, rfl⟩
  | case2 _ _ _ siblings _ route =>
    unfold placeAt
    split <;> exact ⟨rfl, rfl⟩
  | case4 _ _ _ _ _ _ _ _ _ ih | case5 _ _ _ _ _ _ _ _ ih => exact ih

theorem mem_nodes_replaceFirst {name : Text} {siblings : Forest} {route other node : Route}
    (h : named? name siblings = some route) (hm : node = other ∨ node ∈ nodes other.children) :
    node ∈ nodes (replaceFirst name other siblings) := by
  obtain ⟨before, after, -, -, hreplace⟩ := split_of_named? h
  rw [hreplace, mem_nodes_append, mem_nodes_cons]
  rcases hm with rfl | hm
  · exact .inr (.inl rfl)
  · exact .inr (.inr (.inl hm))

theorem node_mem_attachPage (entry : PageEntry) (name path : Text) (siblings : Forest) :
    (attachPage entry name path siblings).node ∈ nodes (attachPage entry name path siblings).forest :=
  mem_nodes_attach.mpr (.inl rfl)

theorem node_mem_place (entry : PageEntry) (segments : List Segment) (position : Nat) (name : Text)
    (siblings : Forest) :
    (place entry segments position name siblings).node ∈
      nodes (place entry segments position name siblings).forest := by
  fun_induction place entry segments position name siblings with
  | case1 | case3 => exact node_mem_attachPage ..
  | case2 _ _ _ _ _ route found =>
    unfold placeAt
    split
    · exact mem_nodes_replaceFirst found (.inl rfl)
    · exact mem_nodes_replaceFirst found (.inr (node_mem_attachPage ..))
  | case4 _ _ _ _ _ _ _ _ found ih => exact mem_nodes_replaceFirst found (.inr ih)
  | case5 _ _ _ _ _ _ _ _ ih => exact mem_nodes_attach.mpr (.inr (.inl ih))

/-! ## Routes without children -/

theorem mem_nodes_of_named? {name : Text} {siblings : Forest} {route node : Route}
    (h : named? name siblings = some route) (hm : node = route ∨ node ∈ nodes route.children) :
    node ∈ nodes siblings := by
  obtain ⟨before, after, rfl, -, -⟩ := split_of_named? h
  rw [mem_nodes_append, mem_nodes_cons]
  rcases hm with rfl | hm
  · exact .inr (.inl rfl)
  · exact .inr (.inr (.inl hm))

theorem of_mem_nodes_replaceFirst {name : Text} {siblings : Forest} {route other node : Route}
    (h : named? name siblings = some route) (hm : node ∈ nodes (replaceFirst name other siblings)) :
    node = other ∨ node ∈ nodes other.children ∨ node ∈ nodes siblings := by
  obtain ⟨before, after, rfl, -, hreplace⟩ := split_of_named? h
  rw [hreplace, mem_nodes_append, mem_nodes_cons] at hm
  rw [mem_nodes_append, mem_nodes_cons]
  rcases hm with hm | rfl | hm | hm
  · exact .inr (.inr (.inl hm))
  · exact .inl rfl
  · exact .inr (.inl hm)
  · exact .inr (.inr (.inr (.inr (.inr hm))))

theorem place_ne_nil (entry : PageEntry) (segments : List Segment) (position : Nat) (name : Text)
    (siblings : Forest) : (place entry segments position name siblings).forest ≠ [] := by
  intro h
  have hm := node_mem_place entry segments position name siblings
  rw [h] at hm
  exact absurd hm (by simp [nodes, Route.nodesOfAll])

theorem leavesShow_nil : LeavesShow [] := by
  intro route hm
  exact absurd hm (by simp [nodes, Route.nodesOfAll])

theorem LeavesShow.attachPage {siblings : Forest} (h : LeavesShow siblings) (entry : PageEntry) (name path : Text) :
    LeavesShow (attachPage entry name path siblings).forest := by
  intro node hm hc
  rcases mem_nodes_attach.mp hm with rfl | hm | hm
  · rfl
  · exact leavesShow_nil node hm hc
  · exact h node hm hc

theorem LeavesShow.children {name : Text} {siblings : Forest} {route : Route} (h : LeavesShow siblings)
    (found : named? name siblings = some route) : LeavesShow route.children :=
  fun node hm hc => h node (mem_nodes_of_named? found (.inr hm)) hc

theorem LeavesShow.placeAt {name : Text} {siblings : Forest} {route : Route} (h : LeavesShow siblings)
    (entry : PageEntry) (found : named? name siblings = some route) :
    LeavesShow (placeAt entry name route siblings).forest := by
  intro node hm hc
  unfold Forest.placeAt at hm
  split at hm
  · rcases of_mem_nodes_replaceFirst found hm with rfl | hm | hm
    · rfl
    · exact h.children found node hm hc
    · exact h node hm hc
  · next hp =>
    rcases of_mem_nodes_replaceFirst found hm with rfl | hm | hm
    · simp only [hp, Option.isSome_some]
    · exact (h.children found).attachPage entry name [] node hm hc
    · exact h node hm hc

/-- A wrapper is made only on the way to a page, so it never ends up without children. -/
theorem LeavesShow.place {siblings : Forest} (h : LeavesShow siblings) (entry : PageEntry) (segments : List Segment)
    (position : Nat) (name : Text) : LeavesShow (place entry segments position name siblings).forest := by
  fun_induction Forest.place entry segments position name siblings with
  | case1 | case3 => exact h.attachPage _ _ _
  | case2 _ _ _ _ _ _ found => exact h.placeAt entry found
  | case4 _ _ _ _ _ _ _ _ found ih =>
    -- the route that is entered has children afterwards, whether it had any before or not
    intro node hm hc
    rcases of_mem_nodes_replaceFirst found hm with rfl | hm | hm
    · exact absurd hc (place_ne_nil _ _ _ _ _)
    · exact ih (h.children found) node hm hc
    · exact h node hm hc
  | case5 _ _ _ _ _ _ _ _ ih =>
    intro node hm hc
    rcases mem_nodes_attach.mp hm with rfl | hm | hm
    · exact absurd hc (place_ne_nil _ _ _ _ _)
    · exact ih leavesShow_nil node hm hc
    · exact h node hm hc

/-! ## Placing all pages -/

theorem insertAll_fst (entries : List PageEntry) (forest : Forest) :
    (insertAll entries forest).1 = entries.foldl (fun forest entry => (insert entry forest).forest) forest := by
  unfold insertAll
  generalize ([] : List Notice) = notices
  induction entries generalizing forest notices with
  | nil => rfl
  | cons entry entries ih => exact ih _ _

theorem pages_insertAll (entries : List PageEntry) (forest : Forest) :
    (insertAll entries forest).1.pages.Perm (entries.map PageEntry.page ++ forest.pages) := by
  rw [insertAll_fst]
  induction entries generalizing forest with
  | nil => exact .refl _
  | cons entry entries ih =>
    refine (ih _).trans ?_
    refine ((pages_place entry entry.segments 0 [] forest).append_left _).trans ?_
    exact List.perm_middle

theorem LeavesShow.insertAll {forest : Forest} (h : LeavesShow forest) (entries : List PageEntry) :
    LeavesShow (insertAll entries forest).1 := by
  rw [insertAll_fst]
  induction entries generalizing forest with
  | nil => exact h
  | cons entry entries ih => exact ih (h.place entry entry.segments 0 [])

end Forest

/-! ## Skeletons, and what a collapse pass keeps -/

namespace Route

mutual

/-- The route without names and patterns, as far down as it goes. -/
def skeleton : Route → Route
  | ⟨_, _, component, chunkName, children⟩ => ⟨none, [], component, chunkName, skeletons children⟩

/-- The skeletons of siblings. -/
def skeletons : List Route → List Route
  | [] => []
  | route :: siblings => route.skeleton :: skeletons siblings

end

theorem skeletons_eq_map (siblings : List Route) : skeletons siblings = siblings.map skeleton := by
  induction siblings with
  | nil => rfl
  | cons route siblings ih => rw [skeletons, ih, List.map_cons]

theorem skeleton_eq (route : Route) :
    route.skeleton = ⟨none, [], route.component, route.chunkName, route.children.map skeleton⟩ := by
  obtain ⟨name, path, component, chunkName, children⟩ := route
  rw [skeleton, skeletons_eq_map]

end Route

namespace Forest

theorem nodes_skeleton (forest : Forest) : nodes (forest.map Route.skeleton) = (nodes forest).map Route.skeleton := by
  induction forest using Forest.induct with
  | nil => rfl
  | cons route siblings ihc ihs =>
    have hc : route.skeleton.children = route.children.map Route.skeleton := by rw [Route.skeleton_eq]
    rw [List.map_cons, nodes_cons, nodes_cons, hc, ihc, ihs, List.map_cons, List.map_append]

theorem pages_skeleton (forest : Forest) : pages (forest.map Route.skeleton) = pages forest := by
  unfold pages
  rw [nodes_skeleton, List.filterMap_map]
  congr 1
  funext route
  rw [Function.comp_apply, Route.skeleton_eq]

theorem leavesShow_skeleton (forest : Forest) : LeavesShow (forest.map Route.skeleton) ↔ LeavesShow forest := by
  unfold LeavesShow
  rw [nodes_skeleton]
  simp only [List.forall_mem_map, Route.skeleton_eq, List.map_eq_nil_iff]

/-- **A collapse pass keeps the skeleton**, however far it comes. -/
theorem skeleton_collapse (isChild : Bool) (forest : Forest) :
    (forest.collapse isChild).value.map Route.skeleton = forest.map Route.skeleton := by
  induction forest using levelInduct generalizing isChild with
  | level forest below =>
    have hroute : ∀ indexes, ∀ route ∈ forest,
        (Collapse.route indexes isChild route).value.skeleton = route.skeleton := by
      intro indexes route hm
      rw [Collapse.route_value, Route.skeleton_eq, Route.skeleton_eq, below route hm true]
    have hsiblings : ∀ indexes, ∀ siblings : Forest, (∀ route ∈ siblings, route ∈ forest) →
        (Collapse.siblings indexes isChild siblings).value.map Route.skeleton = siblings.map Route.skeleton := by
      intro indexes siblings hsub
      induction siblings with
      | nil => rfl
      | cons first others ih =>
        have hfirst := hroute indexes first (hsub first List.mem_cons_self)
        rw [Collapse.siblings]
        dsimp only
        -- a fault below the first route leaves the others as they were
        split
        · rw [List.map_cons, List.map_cons, hfirst]
        · rw [List.map_cons, List.map_cons, hfirst, ih fun route hm => hsub route (List.mem_cons_of_mem _ hm)]
    unfold collapse
    split
    · rfl
    · exact hsiblings _ forest fun _ hm => hm

theorem pages_collapse (isChild : Bool) (forest : Forest) : (forest.collapse isChild).value.pages = forest.pages := by
  rw [← pages_skeleton, skeleton_collapse, pages_skeleton]

theorem LeavesShow.collapse {forest : Forest} (h : LeavesShow forest) (isChild : Bool) :
    LeavesShow (forest.collapse isChild).value := by
  rw [← leavesShow_skeleton, skeleton_collapse, leavesShow_skeleton]
  exact h

/-! ## The pages of a compiled forest -/

/--
**No page is lost, doubled or overwritten.** Inserting an entry into any forest adds its page to those of the forest, and
the route handed back is there and shows it. Hence the pages of a compiled forest are those of its files, each file counted
once, and a route without children always shows one of them.
-/
theorem pages_conserved :
    (∀ (forest : Forest) (entry : PageEntry),
      (insert entry forest).forest.pages.Perm ((entry.component, entry.chunkName) :: forest.pages) ∧
      (insert entry forest).node ∈ (insert entry forest).forest.nodes ∧
      (insert entry forest).node.Shows entry) ∧
    ∀ (layout : Layout) (files : List Text) (forest : Forest), (compile layout files).result = .ok forest →
      (forest.pages.map fun page => (Except.ok page.1, page.2)).Perm ((Text.distinct files).map layout.pageOf) ∧
      forest.LeavesShow := by
  refine ⟨fun forest entry => ⟨?_, ?_, ?_⟩, fun layout files forest h => ?_⟩
  · exact pages_place entry entry.segments 0 [] forest
  · exact node_mem_place entry entry.segments 0 [] forest
  · exact shows_node_place entry entry.segments 0 [] forest
  · obtain ⟨entries, hentries, -, rfl⟩ := Compilation.compile_result_eq_ok h
    obtain ⟨read, hread, rfl⟩ := Compilation.entries_eq_ok hentries
    refine ⟨?_, (leavesShow_nil.insertAll _).collapse false⟩
    have hfiles : (Text.distinct files).map layout.pageOf = (read.map PageEntry.page).map fun page => (.ok page.1, page.2) := by
      rw [List.map_map]
      exact map_eq_of_mapM_eq_ok hread fun file entry => PageEntry.pageOf_of_ofFile
    rw [hfiles, pages_collapse]
    refine List.Perm.map _ ?_
    have hbuild := pages_insertAll (PageEntry.sort read) []
    rw [show pages [] = [] from rfl, List.append_nil] at hbuild
    exact hbuild.trans ((stableSort_perm _ read).map _)

/-- Of two pages of one name, one of them listed twice, both are there once, the second nested below the first. -/
theorem pages_conserved_twins :
    let layout : Layout := ⟨"/srv".toList, Layout.defaultPagesDir, Layout.defaultExtensions, .posix⟩
    let files := ["pages/a.vue".toList, "pages/a.js".toList, "pages/a.vue".toList]
    ∃ forest, (compile layout files).result = .ok forest ∧
      (forest.pages.map fun page => (Except.ok page.1, page.2)).Perm ((Text.distinct files).map layout.pageOf) ∧
      LeavesShow forest := by
  intro layout files
  have hreturns : (compile layout files).result.isOk := by decide +kernel
  cases hr : (compile layout files).result with
  | ok forest => exact ⟨forest, rfl, pages_conserved.2 layout files forest hr⟩
  | error fault => exact absurd (hr ▸ hreturns) (by simp [Except.isOk, Except.toBool])

end Forest

end PageRouting
