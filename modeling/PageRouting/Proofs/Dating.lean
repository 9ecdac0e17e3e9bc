import Mathlib.Data.List.Induction
import PageRouting.Proofs.Conservation
import PageRouting.Proofs.Sorting
import PageRouting.Proofs.Standing

/-!
# `PageRouting/Proofs/Dating.lean` — routes that know when they were attached

A route changes after it has been attached to its siblings: it may get a page, children below it, other siblings around it.
To say of a route that it is still the one that some page was placed at, or that it was there before its neighbour, routes
are given dates here. `Dated.place` follows `Forest.place` branch by branch; it dates each route that it attaches with the
number of pages placed before, and it gives back the way from the top level down to the route that shows the page. Without
the dates it is `Forest.place` (`routes_place`).

A placement touches a list of siblings in two ways: it attaches a new route, or it replaces one by itself with something
added, which keeps its date and its path. What both carry on from one number to the next (`Touches`) holds on every level of
the forest after a run (`everyLevel_insertAll`).
-/

set_option autoImplicit false

namespace PageRouting

/-- A route, and how many pages had been placed before the one it was attached for. -/
structure Dated where
  since : Nat
  name : Text
  path : Text
  component : Option Text := none
  chunkName : Option Text := none
  children : List Dated := []

namespace Dated

mutual

/-- The route without its date, and those below it without theirs. -/
def route : Dated → Route
  | ⟨_, name, path, component, chunkName, children⟩ => ⟨name, path, component, chunkName, routes children⟩

/-- Siblings without their dates. -/
def routes : List Dated → Forest
  | [] => []
  | dated :: siblings => dated.route :: routes siblings

end

/-- What placing a page results in. -/
structure Placement where
  forest : List Dated
  /-- from the top level down to the route that now shows the page -/
  way : List Dated

/-! ## Placing a page -/

def named? (name : Text) (siblings : List Dated) : Option Dated :=
  siblings.find? fun dated => dated.name = name

def replaceFirst (name : Text) (dated : Dated) : List Dated → List Dated
  | [] => []
  | sibling :: siblings =>
    if sibling.name = name then dated :: siblings else sibling :: replaceFirst name dated siblings

def attach (siblings : List Dated) (dated : Dated) : List Dated :=
  stableSort (fun a b => Pattern.compare a.path b.path == .lt) (siblings ++ [dated])

/-- The placement below a route of the level, seen from the level. -/
def Placement.lift (rebuild : Dated → List Dated) (dated : Dated) (below : Placement) : Placement :=
  let entered := { dated with children := below.forest }
  { forest := rebuild entered, way := entered :: below.way }

def attachPage (now : Nat) (entry : PageEntry) (name path : Text) (siblings : List Dated) : Placement :=
  let dated : Dated := { since := now, name, path, component := entry.component, chunkName := entry.chunkName }
  { forest := attach siblings dated, way := [dated] }

def placeAt (now : Nat) (entry : PageEntry) (name : Text) (dated : Dated) (siblings : List Dated) : Placement :=
  match dated.component with
  | none =>
    let filled := { dated with component := entry.component, chunkName := entry.chunkName }
    { forest := replaceFirst name filled siblings, way := [filled] }
  | some _ =>
    (attachPage now entry name [] dated.children).lift (fun entered => replaceFirst name entered siblings) dated

def place (now : Nat) (entry : PageEntry) : List Segment → (position : Nat) → (name : Text) → List Dated → Placement
  | [], _, name, siblings => attachPage now entry name [] siblings
  | [segment], position, name, siblings =>
    let name := Forest.extendName name segment.label
    match named? name siblings with
    | some dated => placeAt now entry name dated siblings
    | none => attachPage now entry name (segment.contribution position true) siblings
  | segment :: next :: rest, position, name, siblings =>
    let name := Forest.extendName name segment.label
    match named? name siblings with
    | some dated =>
      (place now entry (next :: rest) (position + 1) name dated.children).lift
        (fun entered => replaceFirst name entered siblings) dated
    | none =>
      (place now entry (next :: rest) (position + 1) name []).lift (attach siblings)
        { since := now, name, path := segment.contribution position false }

def insert (now : Nat) (entry : PageEntry) (forest : List Dated) : Placement :=
  place now entry entry.segments 0 [] forest

/-- The forest of entries that are inserted in this order, each at the number of those before it. -/
def insertAll (entries : List PageEntry) : List Dated :=
  entries.zipIdx.foldl (fun forest (entry, now) => (insert now entry forest).forest) []

theorem insertAll_append (entries : List PageEntry) (entry : PageEntry) :
    insertAll (entries ++ [entry]) = (insert entries.length entry (insertAll entries)).forest := by
  rw [insertAll, List.zipIdx_append, List.foldl_append, ← insertAll, Nat.zero_add]
  rfl

/-! ## Without the dates -/

@[simp] theorem route_name (dated : Dated) : dated.route.name = some dated.name := by
  cases dated; rfl

@[simp] theorem route_path (dated : Dated) : dated.route.path = dated.path := by
  cases dated; rfl

@[simp] theorem route_component (dated : Dated) : dated.route.component = dated.component := by
  cases dated; rfl

@[simp] theorem route_children (dated : Dated) : dated.route.children = routes dated.children := by
  cases dated; rfl

theorem route_eq (dated : Dated) :
    dated.route = ⟨dated.name, dated.path, dated.component, dated.chunkName, routes dated.children⟩ := by
  cases dated; rfl

theorem routes_eq_map (siblings : List Dated) : routes siblings = siblings.map route := by
  induction siblings with
  | nil => rfl
  | cons dated siblings ih => rw [routes, ih, List.map_cons]

theorem named?_routes (name : Text) (siblings : List Dated) :
    Forest.named? name (routes siblings) = (named? name siblings).map route := by
  have hname : ∀ dated : Dated, decide (dated.route.name = some name) = decide (dated.name = name) := by simp
  rw [Forest.named?, routes_eq_map, List.find?_map, named?]
  exact congrArg (fun p => (siblings.find? p).map route) (funext hname)

theorem replaceFirst_routes (name : Text) (dated : Dated) (siblings : List Dated) :
    Forest.replaceFirst name dated.route (routes siblings) = routes (replaceFirst name dated siblings) := by
  induction siblings with
  | nil => rfl
  | cons sibling siblings ih =>
    rw [routes, Forest.replaceFirst, replaceFirst, route_name]
    simp only [Option.some.injEq]
    split
    · rfl
    · rw [ih, routes]

theorem attach_routes (siblings : List Dated) (dated : Dated) :
    Forest.attach (routes siblings) dated.route = routes (attach siblings dated) := by
  have hwhole : routes siblings ++ [dated.route] = (siblings ++ [dated]).map route := by
    rw [routes_eq_map, List.map_append]
    rfl
  rw [Forest.attach, Forest.sort, hwhole, attach, routes_eq_map]
  exact stableSort_map (fun a b => by simp [Route.precedes]) _

/-- Without the dates it is the same placement. -/
structure Forgets (dated : Placement) (placement : Forest.Placement) : Prop where
  forest : routes dated.forest = placement.forest
  node : dated.way.getLast?.map route = some placement.node

theorem forgets_attachPage (now : Nat) (entry : PageEntry) (name path : Text) (siblings : List Dated) :
    Forgets (attachPage now entry name path siblings) (Forest.attachPage entry name path (routes siblings)) :=
  ⟨(attach_routes _ _).symm, rfl⟩

/-- What was placed below a route of the level is the way from there, and the level is what becomes of the route. -/
theorem Forgets.lift {below : Placement} {placement result : Forest.Placement} (h : Forgets below placement)
    {rebuild : Dated → List Dated} {dated : Dated}
    (hforest : result.forest = routes (rebuild { dated with children := below.forest }))
    (hnode : result.node = placement.node) : Forgets (below.lift rebuild dated) result := by
  refine ⟨hforest.symm, ?_⟩
  have hway : below.way ≠ [] := by
    intro hnil
    have := h.node
    simp [hnil] at this
  rw [Placement.lift, List.getLast?_cons_of_ne_nil hway, hnode]
  exact h.node

theorem replaceFirst_children (name : Text) (dated : Dated) (below siblings : List Dated) :
    Forest.replaceFirst name { dated.route with children := routes below } (routes siblings) =
      routes (replaceFirst name { dated with children := below } siblings) := by
  rw [← replaceFirst_routes]
  simp only [route_eq]

theorem forgets_placeAt (now : Nat) (entry : PageEntry) (name : Text) (dated : Dated) (siblings : List Dated) :
    Forgets (placeAt now entry name dated siblings) (Forest.placeAt entry name dated.route (routes siblings)) := by
  have hc := route_component dated
  unfold placeAt Forest.placeAt
  split
  · next hnone =>
    rw [hnone] at hc
    split
    · refine ⟨?_, by simp [route_eq]⟩
      rw [← replaceFirst_routes]
      simp only [route_eq]
    · next hsome => exact absurd (hsome.symm.trans hc) (by simp)
  · next hsome =>
    rw [hsome] at hc
    split
    · next hnone => exact absurd (hnone.symm.trans hc) (by simp)
    · have hbelow := forgets_attachPage now entry name [] dated.children
      rw [route_children]
      refine hbelow.lift ?_ rfl
      rw [← replaceFirst_children, hbelow.forest]
      rfl

/-- **Without the dates, placing a page is what it was.** -/
theorem forgets_place (now : Nat) (entry : PageEntry) (segments : List Segment) (position : Nat) (name : Text)
    (siblings : List Dated) :
    Forgets (place now entry segments position name siblings)
      (Forest.place entry segments position name (routes siblings)) := by
  -- a search finds the same route on both sides, so both take the same branch
  fun_induction place now entry segments position name siblings with
  | case1 => exact forgets_attachPage ..
  | case2 segment position name siblings name' dated found =>
    rw [Forest.place, named?_routes, found]
    exact forgets_placeAt ..
  | case3 segment position name siblings name' missing =>
    rw [Forest.place, named?_routes, missing]
    exact forgets_attachPage ..
  | case4 segment next rest position name siblings name' dated found ih =>
    rw [Forest.place, named?_routes, found, Option.map_some]
    dsimp only
    rw [route_children]
    refine ih.lift ?_ rfl
    rw [← replaceFirst_children, ih.forest]
    rfl
  | case5 segment next rest position name siblings name' missing ih =>
    rw [Forest.place, named?_routes, missing, Option.map_none]
    refine Forgets.lift ih ?_ rfl
    rw [← attach_routes, route_eq]
    dsimp only
    rw [ih.forest]
    rfl

theorem routes_insertAll (entries : List PageEntry) : routes (insertAll entries) = (Forest.insertAll entries []).1 := by
  rw [Forest.insertAll_fst]
  induction entries using List.reverseRecOn with
  | nil => rfl
  | append_singleton entries entry ih =>
    rw [insertAll_append, List.foldl_append, ← ih]
    exact (forgets_place entries.length entry entry.segments 0 [] (insertAll entries)).forest

/-! ## One step on a list of siblings -/

theorem attach_perm (siblings : List Dated) (dated : Dated) : (attach siblings dated).Perm (dated :: siblings) :=
  (stableSort_perm _ _).trans (List.perm_append_singleton _ _)

theorem split_of_named? {name : Text} {siblings : List Dated} {dated : Dated} (h : named? name siblings = some dated) :
    ∃ before after, siblings = before ++ dated :: after ∧ dated.name = name ∧
      ∀ other, replaceFirst name other siblings = before ++ other :: after := by
  induction siblings with
  | nil => exact absurd h (by simp [named?])
  | cons sibling siblings ih =>
    by_cases hs : sibling.name = name
    · obtain rfl : sibling = dated := by simpa [named?, hs] using h
      exact ⟨[], siblings, rfl, hs, fun other => by simp [replaceFirst, hs]⟩
    · have h' : named? name siblings = some dated := by simpa [named?, hs] using h
      obtain ⟨before, after, rfl, hname, hreplace⟩ := ih h'
      refine ⟨sibling :: before, after, rfl, hname, fun other => ?_⟩
      rw [replaceFirst, if_neg hs, hreplace, List.cons_append]

theorem mem_of_named? {name : Text} {siblings : List Dated} {dated : Dated} (h : named? name siblings = some dated) :
    dated ∈ siblings := by
  obtain ⟨before, after, rfl, -, -⟩ := split_of_named? h
  simp

/-- What never changes of a route. -/
def stamp (dated : Dated) : Nat × Text :=
  (dated.since, dated.path)

theorem map_stamp_replaceFirst {name : Text} {siblings : List Dated} {dated other : Dated}
    (h : named? name siblings = some dated) (hs : other.stamp = dated.stamp) :
    (replaceFirst name other siblings).map stamp = siblings.map stamp := by
  obtain ⟨before, after, rfl, -, hreplace⟩ := split_of_named? h
  rw [hreplace, List.map_append, List.map_append, List.map_cons, List.map_cons, hs]

theorem mem_replaceFirst {name : Text} {siblings : List Dated} {dated other : Dated} (h : named? name siblings = some dated)
    {sibling : Dated} (hm : sibling ∈ replaceFirst name other siblings) : sibling = other ∨ sibling ∈ siblings := by
  obtain ⟨before, after, rfl, -, hreplace⟩ := split_of_named? h
  rw [hreplace] at hm
  simp only [List.mem_append, List.mem_cons] at hm ⊢
  rcases hm with hm | hm | hm
  · exact .inr (.inl hm)
  · exact .inl hm
  · exact .inr (.inr (.inr hm))

section EveryLevel

variable {P Q : List Dated → Prop} {siblings : List Dated} {dated : Dated}

theorem everyLevel_attach (h : EveryLevel children Q siblings) (hnew : EveryLevel children Q dated.children)
    (hq : Q (attach siblings dated)) : EveryLevel children Q (attach siblings dated) := by
  refine h.change hq fun sibling hm => ?_
  rcases List.mem_cons.mp ((attach_perm siblings dated).mem_iff.mp hm) with rfl | hm
  · exact .inr hnew
  · exact .inl hm

theorem everyLevel_replaceFirst {name : Text} {other : Dated} (h : EveryLevel children Q siblings)
    (found : named? name siblings = some dated) (hnew : EveryLevel children Q other.children)
    (hq : Q (replaceFirst name other siblings)) : EveryLevel children Q (replaceFirst name other siblings) := by
  refine h.change hq fun sibling hm => ?_
  rcases mem_replaceFirst found hm with rfl | hm
  · exact .inr hnew
  · exact .inl hm

/--
The two ways in which one placement may touch a list of siblings, and what has to come of a condition on it. A route that is
replaced by itself with something added keeps its stamp.
-/
structure Touches (now : Nat) (accepts : Text → Prop) (P Q : List Dated → Prop) : Prop where
  nil : P []
  same : ∀ {siblings others}, P siblings → others.map stamp = siblings.map stamp → Q others
  attach : ∀ {siblings dated}, P siblings → dated.since = now → accepts dated.path → Q (attach siblings dated)

variable {now : Nat} {accepts : Text → Prop}

theorem everyLevel_attachPage (hstep : Touches now accepts P Q) (h : EveryLevel children P siblings) (entry : PageEntry)
    (name : Text) {path : Text} (hpath : accepts path) :
    EveryLevel children Q (attachPage now entry name path siblings).forest :=
  everyLevel_attach (h.mono fun _ h => hstep.same h rfl) (.nil (hstep.same hstep.nil rfl)) (hstep.attach h.here rfl hpath)

theorem everyLevel_placeAt (hstep : Touches now accepts P Q) (h : EveryLevel children P siblings) (entry : PageEntry)
    {name : Text} (found : named? name siblings = some dated) (hempty : accepts []) :
    EveryLevel children Q (placeAt now entry name dated siblings).forest := by
  have hbelow : EveryLevel children P dated.children := h.descend (mem_of_named? found)
  have hkeep : EveryLevel children Q siblings := h.mono fun _ h => hstep.same h rfl
  unfold placeAt
  split
  · exact everyLevel_replaceFirst hkeep found (hbelow.mono fun _ h => hstep.same h rfl) (hstep.same h.here (map_stamp_replaceFirst found rfl))
  · exact everyLevel_replaceFirst hkeep found (everyLevel_attachPage hstep hbelow entry name hempty)
      (hstep.same h.here (map_stamp_replaceFirst found rfl))

/-- **What placing a page does to a list of siblings, it does on every level**: it attaches, it replaces, or it does nothing. -/
theorem everyLevel_place (hstep : Touches now accepts P Q) (entry : PageEntry) (segments : List Segment) (position : Nat)
    (name : Text) (siblings : List Dated) (h : EveryLevel children P siblings) (hempty : accepts [])
    (hsegments : ∀ segment ∈ segments, ∀ position isLast, accepts (segment.contribution position isLast)) :
    EveryLevel children Q (place now entry segments position name siblings).forest := by
  fun_induction place now entry segments position name siblings with
  | case1 => exact everyLevel_attachPage hstep h entry _ hempty
  | case2 segment _ _ _ _ _ found => exact everyLevel_placeAt hstep h entry found hempty
  | case3 segment => exact everyLevel_attachPage hstep h entry _ (hsegments segment (by simp) _ _)
  | case4 segment next rest _ _ siblings name' dated found ih =>
    have hbelow : EveryLevel children P dated.children := h.descend (mem_of_named? found)
    have hplaced := ih hbelow fun segment hm => hsegments segment (List.mem_cons_of_mem _ hm)
    exact everyLevel_replaceFirst (h.mono fun _ h => hstep.same h rfl) found hplaced (hstep.same h.here (map_stamp_replaceFirst found rfl))
  | case5 segment next rest _ _ siblings name' missing ih =>
    -- a wrapper is filled before it is attached, so its own level starts from nothing
    have hplaced := ih (.nil hstep.nil) fun segment hm => hsegments segment (List.mem_cons_of_mem _ hm)
    exact everyLevel_attach (h.mono fun _ h => hstep.same h rfl) hplaced
      (hstep.attach h.here rfl (hsegments segment (by simp) _ _))

/-- A condition that each step carries on to the next number holds of every level after a run. -/
theorem everyLevel_insertAll {condition : Nat → List Dated → Prop}
    (hstep : ∀ now, Touches now accepts (condition now) (condition (now + 1))) (hempty : accepts [])
    {entries : List PageEntry}
    (hentries : ∀ entry ∈ entries, ∀ segment ∈ entry.segments, ∀ position isLast,
      accepts (segment.contribution position isLast)) :
    EveryLevel children (condition entries.length) (insertAll entries) := by
  induction entries using List.reverseRecOn with
  | nil => exact .nil (hstep 0).nil
  | append_singleton entries entry ih =>
    have hbefore := ih fun e he => hentries e (List.mem_append_left _ he)
    rw [insertAll_append, List.length_append]
    exact everyLevel_place (hstep _) entry entry.segments 0 [] _ hbefore hempty (hentries entry (by simp))

end EveryLevel

end Dated

end PageRouting
