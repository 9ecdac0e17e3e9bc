import Mathlib.Data.List.TakeWhile
import PageRouting.Proofs.Leading

/-!
# `PageRouting/Proofs/StaticPaths.lean` — the static paths among all paths

The static paths come from a walk of their own, which passes over every route with a parameter or a catch-all. The walk over
all routes meets the same leaves in the same order, and a leaf has a parameter or a catch-all on the way to it exactly if its
path has one. So the two lists agree path by path, but for one thing. Slashes in front of a level are reduced to one by the
first leaf that the walk meets there. If that leaf is passed over, they stay, and a path behind them begins with more slashes
than its twin.

So the static paths are the flat paths without parameters and catch-alls if slashes in front are counted once, and they are
exactly those wherever slashes are mended on both walks or on none (`static_paths_of_flat`).
-/

set_option autoImplicit false

namespace PageRouting

namespace Flat

/-- Has a path neither a parameter nor a catch-all? -/
def isStaticPath (path : Text) : Bool :=
  decide (':' ∉ path) && decide ('*' ∉ path)

/-- The path with the slashes in front of it counted once. -/
def frontOnce (path : Text) : Text :=
  if path.head? = some '/' then '/' :: Text.dropLeading '/' path else path

/--
Is a static route with children, wherever a leaf stands in front of it, also behind a static leaf? Then what is in front of
its children is mended on the walk over all routes exactly if it is on the walk over the static ones.
-/
def MendsAlike (siblings : Forest) : Prop :=
  ∀ before route after, siblings = before ++ route :: after → route.isStatic → route.children ≠ [] →
    (∃ leaf ∈ before, leaf.children = []) → ∃ leaf ∈ before, leaf.isStatic ∧ leaf.children = []

variable {lead other path : Text} {route : Route}

/-- A level that begins with a static leaf. -/
theorem mendsAlike_of_head? {siblings : Forest}
    (h : siblings.head?.any fun first => first.isStatic && first.children.isEmpty) : MendsAlike siblings := by
  rintro before route after rfl - - ⟨leaf, hm, -⟩
  cases before with
  | nil => cases hm
  | cons first before =>
    have hfirst : first.isStatic ∧ first.children = [] := by simpa using h
    exact ⟨first, List.mem_cons_self, hfirst⟩

/-! ## Static patterns and static paths -/

theorem isStatic_eq (route : Route) : route.isStatic = isStaticPath route.path :=
  rfl

theorem isStaticPath_iff : isStaticPath path = true ↔ ∀ c ∈ path, c ∉ [':', '*'] := by
  simp only [isStaticPath, Bool.and_eq_true, decide_eq_true_eq, List.mem_cons, List.not_mem_nil, or_false, not_or]
  constructor
  · intro ⟨hcolon, hstar⟩ c hm
    refine ⟨?_, ?_⟩ <;> rintro rfl <;> contradiction
  · intro h
    exact ⟨fun hm => (h _ hm).1 rfl, fun hm => (h _ hm).2 rfl⟩

theorem isStaticPath_append {s t : Text} : isStaticPath (s ++ t) = true ↔ isStaticPath s = true ∧ isStaticPath t = true := by
  simp only [isStaticPath_iff, List.forall_mem_append]

theorem isStaticPath_reduceSlashes (h : IsLead lead) (hlead : isStaticPath lead) : isStaticPath (reduceSlashes lead) := by
  rw [isStaticPath_iff] at *
  intro c hm
  by_cases hc : c = '/'
  · rw [hc]
    decide
  · exact hlead c ((mem_reduceSlashes_iff hc h).mp hm)

theorem isStaticPath_leadAfter (h : IsLead lead) (hlead : isStaticPath lead) (accepts : Route → Bool) (route : Route) :
    isStaticPath (leadAfter accepts lead route) := by
  unfold leadAfter
  split
  · exact isStaticPath_reduceSlashes h hlead
  · exact hlead

theorem isStaticPath_foldl (h : IsLead lead) (hlead : isStaticPath lead) (accepts : Route → Bool) (siblings : List Route) :
    isStaticPath (siblings.foldl (leadAfter accepts) lead) := by
  rw [foldl_leadAfter h]
  split
  · exact isStaticPath_reduceSlashes h hlead
  · exact hlead

theorem isStaticPath_leafPath (hlead : isStaticPath lead) (hpath : isStaticPath path) : isStaticPath (leafPath lead path) := by
  rw [isStaticPath_iff] at *
  intro c hm
  by_cases hc : c = '/'
  · rw [hc]
    decide
  · exact ((mem_leafPath_iff hc).mp hm).elim (hlead c) (hpath c)

theorem isStaticPath_below (hlead : isStaticPath lead) (hs : route.isStatic) : isStaticPath (lead ++ route.path ++ ['/']) :=
  isStaticPath_append.mpr ⟨isStaticPath_append.mpr ⟨hlead, hs⟩, rfl⟩

/-- No path of a route that is not static, and none below it, is static. -/
theorem filter_ofRoute_eq_nil (h : IsLead lead) (hs : ¬ route.isStatic) (accepts : Route → Bool) :
    (ofRoute accepts lead route).filter isStaticPath = [] := by
  rw [isStatic_eq, isStaticPath_iff] at hs
  push Not at hs
  obtain ⟨c, hm, hc⟩ := hs
  have hslash : c ≠ '/' := by
    rintro rfl
    exact absurd hc (by decide)
  refine List.filter_eq_nil_iff.mpr fun path hpath hstatic => ?_
  exact isStaticPath_iff.mp hstatic c (mem_of_mem_ofRoute hslash h hm path hpath) hc

theorem ofRoute_eq_nil (hs : ¬ route.isStatic) : ofRoute Route.isStatic lead route = [] := by
  rw [ofRoute_eq, if_neg hs]

/-- The path that a route at the top gives for itself is static. -/
theorem filter_own (lead path : Text) :
    (if lead = [] ∧ path = ['/'] then [['/']] else []).filter isStaticPath = if lead = [] ∧ path = ['/'] then [['/']] else [] := by
  split <;> rfl

/-! ## Slashes in front -/

theorem dropLeading_append (s t : Text) :
    Text.dropLeading '/' (Text.dropLeading '/' s ++ t) = Text.dropLeading '/' (s ++ t) := by
  induction s with
  | nil => rfl
  | cons c cs ih =>
    by_cases hc : c = '/'
    · subst hc
      simpa [Text.dropLeading] using ih
    · simp [Text.dropLeading, hc]

theorem frontOnce_append (s t : Text) : frontOnce (frontOnce s ++ t) = frontOnce (s ++ t) := by
  by_cases hs : s.head? = some '/'
  · obtain ⟨rest, rfl⟩ := List.head?_eq_some_iff.mp hs
    have h := dropLeading_append ('/' :: rest) t
    simpa [frontOnce, Text.dropLeading] using h
  · have hsame : frontOnce s = s := if_neg hs
    rw [hsame]

/-- What is put behind texts that agree so far agrees. -/
theorem frontOnce_append_congr {s s' : Text} (h : frontOnce s = frontOnce s') (t : Text) :
    frontOnce (s ++ t) = frontOnce (s' ++ t) := by
  rw [← frontOnce_append s, h, frontOnce_append]

theorem dropLeading_eq_nil_iff {t : Text} : Text.dropLeading '/' t = [] ↔ OnlySlashes t := by
  simp [Text.dropLeading, List.dropWhile_eq_nil_iff, OnlySlashes]

theorem frontOnce_eq_nil_iff {t : Text} : frontOnce t = [] ↔ t = [] := by
  unfold frontOnce
  split
  · next hslash =>
    obtain ⟨rest, rfl⟩ := List.head?_eq_some_iff.mp hslash
    simp
  · rfl

theorem frontOnce_eq_slash_iff {t : Text} : frontOnce t = ['/'] ↔ t ≠ [] ∧ OnlySlashes t := by
  unfold frontOnce
  split
  · next hslash =>
    have hne : t ≠ [] := by
      rintro rfl
      cases hslash
    simp [hne, dropLeading_eq_nil_iff]
  · next hslash =>
    constructor
    · rintro rfl
      exact absurd rfl hslash
    · intro ⟨hne, honly⟩
      obtain ⟨c, rest, rfl⟩ := List.exists_cons_of_ne_nil hne
      exact absurd (congrArg some (honly c List.mem_cons_self)) hslash

theorem frontOnce_concat {t : Text} (h : ¬ OnlySlashes t) : frontOnce (t ++ ['/']) = frontOnce t ++ ['/'] := by
  have hdrop : Text.dropLeading '/' (t ++ ['/']) = Text.dropLeading '/' t ++ ['/'] := by
    have hne : (t.dropWhile (· == '/')).isEmpty = false := by
      rw [List.isEmpty_eq_false_iff]
      exact fun hnil => h (dropLeading_eq_nil_iff.mp hnil)
    rw [Text.dropLeading, List.dropWhile_append, hne]
    rfl
  have hne : t ≠ [] := by
    rintro rfl
    exact h (by simp [OnlySlashes])
  unfold frontOnce
  rw [hdrop, List.head?_append_of_ne_nil _ hne]
  split <;> rfl

theorem frontOnce_reduceSlashes (h : IsLead lead) : frontOnce (reduceSlashes lead) = frontOnce lead := by
  rw [h.reduceSlashes_eq]
  split
  · next hslashes => rw [frontOnce_eq_slash_iff.mpr hslashes]; rfl
  · rfl

theorem frontOnce_leadAfter (h : IsLead lead) (accepts : Route → Bool) (route : Route) :
    frontOnce (leadAfter accepts lead route) = frontOnce lead := by
  unfold leadAfter
  split
  · exact frontOnce_reduceSlashes h
  · rfl

/-- Leaves with one pattern, behind texts that agree, have paths that agree. -/
theorem frontOnce_leafPath (h : IsLead lead) (h' : IsLead other) (hf : frontOnce lead = frontOnce other) (path : Text) :
    frontOnce (leafPath (reduceSlashes lead) path) = frontOnce (leafPath (reduceSlashes other) path) := by
  have hslashes : (lead ≠ [] ∧ OnlySlashes lead) ↔ (other ≠ [] ∧ OnlySlashes other) := by
    rw [← frontOnce_eq_slash_iff, hf, frontOnce_eq_slash_iff]
  by_cases honly : lead ≠ [] ∧ OnlySlashes lead
  · rw [h.reduceSlashes_eq, h'.reduceSlashes_eq, if_pos honly, if_pos (hslashes.mp honly)]
  · rw [h.reduceSlashes_eq, h'.reduceSlashes_eq, if_neg honly, if_neg fun ho => honly (hslashes.mpr ho)]
    by_cases hnil : lead = []
    · have hother : other = [] := by rwa [← frontOnce_eq_nil_iff, ← hf, frontOnce_eq_nil_iff]
      rw [hnil, hother]
    · have hother : other ≠ [] := fun ho => hnil (by rwa [← frontOnce_eq_nil_iff, hf, frontOnce_eq_nil_iff])
      obtain ⟨start, rfl⟩ := List.getLast?_eq_some_iff.mp (h.resolve_left hnil)
      obtain ⟨start', rfl⟩ := List.getLast?_eq_some_iff.mp (h'.resolve_left hother)
      by_cases hpath : path = []
      · -- an empty pattern takes the slash back, and what is in front of it agrees
        have hstart : ¬ OnlySlashes start := fun hs => honly ⟨hnil, onlySlashes_append.mpr ⟨hs, by simp [OnlySlashes]⟩⟩
        have hstart' : ¬ OnlySlashes start' := fun hs =>
          honly (hslashes.mpr ⟨hother, onlySlashes_append.mpr ⟨hs, by simp [OnlySlashes]⟩⟩)
        rw [frontOnce_concat hstart, frontOnce_concat hstart', List.append_cancel_right_eq] at hf
        simpa [leafPath, hpath] using hf
      · have hleaf : ∀ lead : Text, leafPath lead path = lead ++ path := fun lead => if_neg fun hp => hpath hp.1
        rw [hleaf, hleaf]
        exact frontOnce_append_congr hf path

/-! ## Two walks side by side -/

/--
At one route the walks agree, as far as a function tells paths apart, if they do at a leaf and below a route with children. A
route that is not static gives nothing on either side.
-/
theorem map_filter_ofRoute {β : Type} {f : Text → β} (h : IsLead lead) (hs : isStaticPath lead)
    (leaf : route.isStatic → f (leafPath (reduceSlashes lead) route.path) = f (leafPath (reduceSlashes other) route.path))
    (top : route.isStatic → route.children ≠ [] → (lead = [] ↔ other = []))
    (below : route.isStatic → route.children ≠ [] →
      ((ofSiblings (fun _ => true) (lead ++ route.path ++ ['/']) route.children).filter isStaticPath).map f =
        (ofSiblings Route.isStatic (other ++ route.path ++ ['/']) route.children).map f) :
    ((ofRoute (fun _ => true) lead route).filter isStaticPath).map f = (ofRoute Route.isStatic other route).map f := by
  by_cases hroute : route.isStatic
  · rw [ofRoute_eq, ofRoute_eq, if_pos rfl, if_pos hroute]
    by_cases hleaf : route.children = []
    · have hpath : isStaticPath (leafPath (reduceSlashes lead) route.path) :=
        isStaticPath_leafPath (isStaticPath_reduceSlashes h hs) hroute
      rw [if_pos hleaf, if_pos hleaf, List.filter_cons_of_pos hpath, List.filter_nil, List.map_singleton, List.map_singleton,
        leaf hroute]
    · have hown : (lead = [] ∧ route.path = ['/']) ↔ (other = [] ∧ route.path = ['/']) :=
        and_congr_left fun _ => top hroute hleaf
      rw [if_neg hleaf, if_neg hleaf, List.filter_append, List.map_append, List.map_append, filter_own, below hroute hleaf,
        if_congr hown rfl rfl]
  · rw [filter_ofRoute_eq_nil h hroute, ofRoute_eq_nil hroute, List.map_nil]

/-- **The walks agree path by path**, with slashes in front counted once. -/
theorem map_frontOnce_ofSiblings {forest : Forest} (h : IsLead lead) (h' : IsLead other) (hs : isStaticPath lead)
    (hf : frontOnce lead = frontOnce other) :
    ((ofSiblings (fun _ => true) lead forest).filter isStaticPath).map frontOnce =
      (ofSiblings Route.isStatic other forest).map frontOnce := by
  induction forest using Forest.induct generalizing lead other with
  | nil => rfl
  | cons route siblings below ih =>
    have hhead : ((ofRoute (fun _ => true) lead route).filter isStaticPath).map frontOnce =
        (ofRoute Route.isStatic other route).map frontOnce := by
      refine map_filter_ofRoute h hs (fun _ => frontOnce_leafPath h h' hf _) (fun _ _ => ?_) (fun hroute _ => ?_)
      · rw [← frontOnce_eq_nil_iff, hf, frontOnce_eq_nil_iff]
      · exact below (isLead_below _ _) (isLead_below _ _) (isStaticPath_below hs hroute)
          (frontOnce_append_congr (frontOnce_append_congr hf route.path) ['/'])
    have htail := ih (h.leadAfter (fun _ => true) route) (h'.leadAfter Route.isStatic route) (isStaticPath_leadAfter h hs _ _)
      (by rw [frontOnce_leadAfter h, frontOnce_leadAfter h', hf])
    rw [ofSiblings, ofSiblings, List.filter_append, List.map_append, List.map_append, hhead, htail]

/-- Is there nothing to mend on a level, or is it mended on both walks where it matters? -/
def LevelMends (lead : Text) (siblings : Forest) : Prop :=
  reduceSlashes lead = lead ∨ MendsAlike siblings

theorem levelMends_below (hmend : OnlySlashes route.path → MendsAlike route.children) :
    LevelMends (lead ++ route.path ++ ['/']) route.children := by
  by_cases honly : OnlySlashes route.path
  · exact .inr (hmend honly)
  · refine .inl ((isLead_below lead route.path).reduceSlashes_of_not fun hs => honly ?_)
    exact (onlySlashes_append.mp (onlySlashes_append.mp hs).1).2

/-- In front of the children of a static route both walks carry the same. -/
theorem LevelMends.foldl_leadAfter_eq {before after : Forest} (hmend : LevelMends lead (before ++ route :: after))
    (h : IsLead lead) (hroute : route.isStatic) (hbranch : route.children ≠ []) :
    before.foldl (leadAfter fun _ => true) lead = before.foldl (leadAfter Route.isStatic) lead := by
  rw [foldl_leadAfter h, foldl_leadAfter h]
  rcases hmend with hid | hmend
  · rw [hid, ite_self, ite_self]
  · refine if_congr ⟨fun ⟨leaf, hm, _, hc⟩ => ?_, fun ⟨leaf, hm, _, hc⟩ => ⟨leaf, hm, rfl, hc⟩⟩ rfl rfl
    exact hmend before route after rfl hroute hbranch ⟨leaf, hm, hc⟩

/-- **The walks agree** where slashes are mended on both of them, or on neither. -/
theorem filter_ofSiblings_eq {forest : Forest} (h : IsLead lead) (hs : isStaticPath lead) (hmend : LevelMends lead forest)
    (hnodes : ∀ node ∈ forest.nodes, OnlySlashes node.path → MendsAlike node.children) :
    (ofSiblings (fun _ => true) lead forest).filter isStaticPath = ofSiblings Route.isStatic lead forest := by
  induction forest using Forest.levelInduct generalizing lead with
  | level forest below =>
    -- the routes before the cut have been passed; what is carried on has been mended by them, or not
    have hcut : ∀ rest before, forest = before ++ rest →
        (ofSiblings (fun _ => true) (before.foldl (leadAfter fun _ => true) lead) rest).filter isStaticPath =
          ofSiblings Route.isStatic (before.foldl (leadAfter Route.isStatic) lead) rest := by
      intro rest
      induction rest with
      | nil => exact fun _ _ => rfl
      | cons route siblings ih =>
        rintro before rfl
        have hcarried := isStaticPath_foldl h hs (fun _ => true) before
        have hnode : ∀ node, node = route ∨ node ∈ Forest.nodes route.children →
            node ∈ Forest.nodes (before ++ route :: siblings) := by
          intro node hm
          rw [Forest.mem_nodes_append, Forest.mem_nodes_cons]
          exact .inr (hm.imp_right .inl)
        have hhead : ((ofRoute (fun _ => true) (before.foldl (leadAfter fun _ => true) lead) route).filter isStaticPath).map id =
            (ofRoute Route.isStatic (before.foldl (leadAfter Route.isStatic) lead) route).map id := by
          refine map_filter_ofRoute (h.foldl _ before) hcarried (fun _ => ?_) (fun hroute hbranch => ?_) (fun hroute hbranch => ?_)
          · rw [reduceSlashes_foldl h, reduceSlashes_foldl h]
          · rw [hmend.foldl_leadAfter_eq h hroute hbranch]
          · rw [← hmend.foldl_leadAfter_eq h hroute hbranch, below route (by simp) (isLead_below _ _)
              (isStaticPath_below hcarried hroute) (levelMends_below (hnodes route (hnode route (.inl rfl))))
              fun node hm => hnodes node (hnode node (.inr hm))]
        have htail := ih (before ++ [route]) (by simp)
        rw [List.foldl_append, List.foldl_append] at htail
        rw [List.map_id, List.map_id] at hhead
        rw [ofSiblings, ofSiblings, List.filter_append, hhead]
        exact congrArg _ htail
    exact hcut forest [] rfl

end Flat

namespace Forest

/--
**The static paths are the flat paths without parameters and catch-alls**, in order, once the slashes in front of each are
counted once. They are exactly those if below every route whose pattern has nothing but slashes a static route with children
that stands behind a leaf also stands behind a static leaf.
-/
theorem static_paths_of_flat (forest : Forest) :
    forest.staticPaths.map Flat.frontOnce = (forest.flatPaths.filter Flat.isStaticPath).map Flat.frontOnce ∧
      ((∀ route ∈ forest.nodes, Flat.OnlySlashes route.path → Flat.MendsAlike route.children) →
        forest.staticPaths = forest.flatPaths.filter Flat.isStaticPath) := by
  refine ⟨?_, fun hnodes => ?_⟩
  · exact (Flat.map_frontOnce_ofSiblings Flat.isLead_nil Flat.isLead_nil rfl rfl).symm
  · exact (Flat.filter_ofSiblings_eq Flat.isLead_nil rfl (.inl rfl) hnodes).symm

/-- The first leaf below the slash has a parameter. Only the walk over all routes mends the slashes in front of the others. -/
theorem static_paths_behind_parameter :
    let intro : Route := { name := some "docs-intro".toList, path := "intro".toList }
    let docs : Route := { name := some "docs".toList, path := "docs".toList, children := [intro] }
    let id : Route := { name := some "id".toList, path := ":id".toList }
    let forest : Forest := [{ name := none, path := "/".toList, children := [id, docs] }]
    forest.staticPaths ≠ forest.flatPaths.filter Flat.isStaticPath := by
  decide +kernel

/-- A static leaf in front of both mends the slashes on either walk. -/
theorem static_paths_behind_page :
    let intro : Route := { name := some "docs-intro".toList, path := "intro".toList }
    let docs : Route := { name := some "docs".toList, path := "docs".toList, children := [intro] }
    let id : Route := { name := some "id".toList, path := ":id".toList }
    let about : Route := { name := some "about".toList, path := "about".toList }
    let forest : Forest := [{ name := none, path := "/".toList, children := [about, id, docs] }]
    forest.staticPaths = forest.flatPaths.filter Flat.isStaticPath ∧
      forest.staticPaths = ["/".toList, "/about".toList, "/docs/intro".toList] := by
  intro _ docs id about forest
  have hslashes : ∀ route ∈ forest.nodes, Flat.OnlySlashes route.path →
      route.children.head?.any fun first => first.isStatic && first.children.isEmpty := by decide +kernel
  refine ⟨(static_paths_of_flat forest).2 fun route hm honly => ?_, by decide +kernel⟩
  exact Flat.mendsAlike_of_head? (hslashes route hm honly)

end Forest

end PageRouting
