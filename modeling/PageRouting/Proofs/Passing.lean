import PageRouting.Proofs.Naming

/-!
# `PageRouting/Proofs/Passing.lean` — collapse passes that go through

A pass reads the index names of a level before it changes any route on it, and one name that cannot be read stops it. So it
goes through a forest exactly if every name in the forest can be read (`Forest.fault_collapse_eq_none_iff`), and a pass that
goes through changes each route by itself (`Forest.collapse_eq_map`).

A forest that is built to a plan is then built to another plan afterwards, as soon as the two agree on one level at a time.
`Plan.Settles` says what has to be shown of a level, and `Plan.Settles.built_collapse` makes the induction over the levels.
-/

set_option autoImplicit false

namespace PageRouting

/-! ## Names that cannot be read -/

namespace IndexName

/--
Is this taken for the name of an index route, and then has no part `index`? The ending is looked for before a final newline,
but the parts are those of the whole name.
-/
def IsUnreadable (name : Text) : Prop :=
  (name = Segment.indexKey ++ ['\n'] ∨ ending ++ ['\n'] <:+ name) ∧ Segment.indexKey ∉ Text.split '-' name

instance (name : Text) : Decidable (IsUnreadable name) :=
  inferInstanceAs (Decidable ((_ ∨ _) ∧ _))

theorem isSome_stem?_iff_body {name : Text} : (stem? name).isSome ↔
    (Text.dropFinalNewline name).1 = Segment.indexKey ∨ ending <:+ (Text.dropFinalNewline name).1 := by
  unfold stem?
  dsimp only
  split
  · next hkey => simp [hkey]
  · next hkey => split <;> simp_all

theorem isSome_stem?_iff {name : Text} :
    (stem? name).isSome ↔ (name = Segment.indexKey ∨ ending <:+ name) ∨
      (name = Segment.indexKey ++ ['\n'] ∨ ending ++ ['\n'] <:+ name) := by
  -- both endings end in x, so no name that ends in a newline has one of them
  have hnewline : ∀ body tail : Text, tail.getLast? = some 'x' → ¬ tail <:+ body ++ ['\n'] := by
    intro body tail htail hs
    obtain ⟨start, he⟩ := hs
    have hlast := congrArg List.getLast? he
    rw [List.getLast?_append, htail] at hlast
    simp at hlast
  rw [isSome_stem?_iff_body]
  by_cases hlast : name.getLast? = some '\n'
  · obtain ⟨body, rfl⟩ := List.getLast?_eq_some_iff.mp hlast
    have hkey : body ++ ['\n'] ≠ Segment.indexKey := fun he =>
      hnewline body Segment.indexKey rfl (he ▸ List.suffix_refl _)
    have hending : ¬ ending <:+ body ++ ['\n'] := hnewline body ending rfl
    have hsuffix : ending ++ ['\n'] <:+ body ++ ['\n'] ↔ ending <:+ body := by
      rw [List.suffix_append_inj_of_length_eq rfl]
      exact and_iff_left rfl
    simp [Text.dropFinalNewline, hkey, hending, hsuffix]
  · have hkey : name ≠ Segment.indexKey ++ ['\n'] := by
      rintro rfl
      exact hlast (by simp)
    have hending : ¬ ending ++ ['\n'] <:+ name := by
      rintro ⟨start, rfl⟩
      exact hlast (by simp)
    simp [Text.dropFinalNewline, hlast, hkey, hending]

theorem indexKey_mem_split {name : Text} (h : name = Segment.indexKey ∨ ending <:+ name) :
    Segment.indexKey ∈ Text.split '-' name := by
  have hkey : Text.split '-' Segment.indexKey = [Segment.indexKey] := by decide
  rcases h with rfl | ⟨start, rfl⟩
  · simp [hkey]
  · rw [ending, Text.split_append_sep, hkey]
    simp

theorem isOk_ofName_iff {name : Text} : (∃ index, ofName name = .ok index) ↔ Segment.indexKey ∈ Text.split '-' name := by
  unfold ofName
  dsimp only
  cases hf : (Text.split '-' name).findIdx? (· = Segment.indexKey) with
  | none =>
    have hnone := List.findIdx?_eq_none_iff.mp hf
    simp only [reduceCtorEq, exists_false, false_iff]
    intro hm
    exact absurd (hnone _ hm) (by simp)
  | some position =>
    obtain ⟨hlt, hkey, -⟩ := List.findIdx?_eq_some_iff_getElem.mp hf
    simp only [Except.ok.injEq, exists_eq', true_iff]
    exact of_decide_eq_true hkey ▸ List.getElem_mem hlt

theorem isUnreadable_iff {name : Text} :
    IsUnreadable name ↔ (stem? name).isSome ∧ Segment.indexKey ∉ Text.split '-' name := by
  unfold IsUnreadable
  rw [isSome_stem?_iff]
  constructor
  · rintro ⟨hend, hpart⟩
    exact ⟨.inr hend, hpart⟩
  · rintro ⟨hend, hpart⟩
    exact ⟨hend.resolve_left fun h => hpart (indexKey_mem_split h), hpart⟩

theorem not_isUnreadable_of_not_mem {name : Text} (h : '\n' ∉ name) : ¬ IsUnreadable name := by
  intro ⟨hend, _⟩
  rcases hend with rfl | hend
  · exact h (by simp)
  · exact h (hend.subset (by simp))

/-- The index names of a level can be read exactly if no name on it is unreadable. -/
theorem exists_ofNames_eq_ok_iff {names : List (Option Text)} :
    (∃ indexes, ofNames names = .ok indexes) ↔ ∀ name, some name ∈ names → ¬ IsUnreadable name := by
  rw [ofNames_eq_mapM]
  have hmem : ∀ {name : Text}, name ∈ names.filterMap text? ↔ some name ∈ names ∧ (stem? name).isSome := by
    intro name
    simp [text?, List.mem_filterMap, Option.filter_eq_some_iff]
  constructor
  · rintro ⟨indexes, hok⟩ name hm hbad
    obtain ⟨hstem, hpart⟩ := isUnreadable_iff.mp hbad
    obtain ⟨index, -, hindex⟩ := exists_of_mapM_eq_ok hok (hmem.mpr ⟨hm, hstem⟩)
    exact hpart (isOk_ofName_iff.mp ⟨index, hindex⟩)
  · intro h
    apply exists_mapM_eq_ok
    intro name hm
    obtain ⟨hm, hstem⟩ := hmem.mp hm
    apply isOk_ofName_iff.mpr
    by_contra hpart
    exact h name hm (isUnreadable_iff.mpr ⟨hstem, hpart⟩)

theorem eq_nil_iff_of_ofNames {names : List (Option Text)} {indexes : List IndexName} (h : ofNames names = .ok indexes) :
    indexes = [] ↔ ∀ name, some name ∈ names → stem? name = none := by
  rw [ofNames_eq_mapM, mapM_eq_ok_iff] at h
  have hnil : indexes = [] ↔ names.filterMap text? = [] := by
    rw [← List.map_eq_nil_iff (f := Except.ok), ← h, List.map_eq_nil_iff]
  rw [hnil, List.filterMap_eq_nil_iff]
  constructor
  · intro hnone name hm
    have htext := hnone (some name) hm
    simpa [text?] using htext
  · intro hnone name hm
    cases name with
    | none => rfl
    | some name => simp [text?, hnone name hm]

/-- Which index names there are does not depend on the order of the routes. -/
theorem exists_ofNames_perm {names others : List (Option Text)} {indexes : List IndexName} (hp : names.Perm others)
    (h : ofNames others = .ok indexes) : ∃ found, ofNames names = .ok found ∧ found.Perm indexes := by
  obtain ⟨found, hfound⟩ : ∃ found, ofNames names = .ok found := by
    apply exists_ofNames_eq_ok_iff.mpr
    intro name hm
    exact exists_ofNames_eq_ok_iff.mp ⟨indexes, h⟩ name (hp.mem_iff.mp hm)
  refine ⟨found, hfound, ?_⟩
  rw [ofNames_eq_mapM] at h hfound
  exact perm_of_mapM_eq_ok hfound h (hp.filterMap _)

end IndexName

/-! ## Passes that go through -/

theorem Collapse.fault_siblings_eq_none_iff {indexes : List IndexName} {isChild : Bool} {forest : Forest} :
    (Collapse.siblings indexes isChild forest).fault = none ↔
      ∀ route ∈ forest, (Forest.collapse true route.children).fault = none := by
  constructor
  · intro h route hm
    induction forest with
    | nil => cases hm
    | cons first others ih =>
      rw [Collapse.siblings] at h
      dsimp only at h
      split at h
      · cases h
      · next hfirst =>
        rcases List.mem_cons.mp hm with rfl | hm
        · rwa [Collapse.route_fault] at hfirst
        · exact ih h hm
  · intro h
    exact (Collapse.siblings_of_fault_eq_none indexes isChild h).1

namespace Forest

/-- A pass that goes through changes each route by itself, given the index names of the level. -/
theorem collapse_eq_map {isChild : Bool} {forest : Forest} (h : (forest.collapse isChild).fault = none) :
    ∃ indexes, IndexName.ofNames (forest.map Route.name) = .ok indexes ∧
      (∀ route ∈ forest, (Forest.collapse true route.children).fault = none) ∧
      (forest.collapse isChild).value = forest.map fun route => (Collapse.route indexes isChild route).value := by
  unfold collapse at h ⊢
  cases hn : IndexName.ofNames (forest.map Route.name) with
  | error fault => simp [hn] at h
  | ok indexes =>
    simp only [hn] at h ⊢
    have hbelow := Collapse.fault_siblings_eq_none_iff.mp h
    exact ⟨indexes, rfl, hbelow, (Collapse.siblings_of_fault_eq_none indexes isChild hbelow).2⟩

/-- The other way round: readable index names, and passes that go through below, make a pass that goes through. -/
theorem collapse_of_ofNames (isChild : Bool) {forest : Forest} {indexes : List IndexName}
    (hn : IndexName.ofNames (forest.map Route.name) = .ok indexes)
    (hbelow : ∀ route ∈ forest, (Forest.collapse true route.children).fault = none) :
    (forest.collapse isChild).fault = none ∧
      (forest.collapse isChild).value = forest.map fun route => (Collapse.route indexes isChild route).value := by
  unfold collapse
  rw [hn]
  exact Collapse.siblings_of_fault_eq_none indexes isChild hbelow

/-- **A pass goes through exactly if every name in the forest can be read.** -/
theorem fault_collapse_eq_none_iff {isChild : Bool} {forest : Forest} :
    (forest.collapse isChild).fault = none ↔
      ∀ node ∈ forest.nodes, ∀ name, node.name = some name → ¬ IndexName.IsUnreadable name := by
  induction forest using levelInduct generalizing isChild with
  | level forest below =>
    constructor
    · intro h node hm name hname
      obtain ⟨indexes, hn, hbelow, -⟩ := collapse_eq_map h
      obtain ⟨route, hroute, hnode⟩ := exists_of_mem_nodes hm
      rcases hnode with rfl | hnode
      · exact IndexName.exists_ofNames_eq_ok_iff.mp ⟨indexes, hn⟩ name (hname ▸ List.mem_map_of_mem hroute)
      · exact (below route hroute).mp (hbelow route hroute) node hnode name hname
    · intro h
      have hnodes : ∀ route ∈ forest, route ∈ forest.nodes ∧ ∀ node ∈ nodes route.children, node ∈ forest.nodes := by
        intro route hroute
        obtain ⟨before, after, rfl⟩ := List.append_of_mem hroute
        simp only [mem_nodes_append, mem_nodes_cons]
        exact ⟨.inr (.inl trivial), fun node hnode => .inr (.inr (.inl hnode))⟩
      obtain ⟨indexes, hn⟩ : ∃ indexes, IndexName.ofNames (forest.map Route.name) = .ok indexes := by
        apply IndexName.exists_ofNames_eq_ok_iff.mpr
        intro name hm
        obtain ⟨route, hroute, hname⟩ := List.mem_map.mp hm
        exact h route (hnodes route hroute).1 name hname
      have hbelow : ∀ route ∈ forest, (Forest.collapse true route.children).fault = none := by
        intro route hroute
        apply (below route hroute).mpr
        intro node hnode
        exact h node ((hnodes route hroute).2 node hnode)
      exact (collapse_of_ofNames isChild hn hbelow).1

end Forest

/-! ## Plans before and after a pass -/

namespace Plan

variable {α : Type}

/--
Does a pass make routes of the second plan out of those of the first? On each level the index names can be read; with them,
every route that stands at a place, once its children have gone through the pass, becomes the route that the second plan has
there, and the guests become its guests.
-/
structure Settles (before after : Plan α) : Prop where
  keeps : before.KeepsChildren
  reaches : ∀ place, after.reaches place ↔ before.reaches place
  level : ∀ {place siblings}, before.Built place siblings →
    ∃ indexes, IndexName.ofNames (siblings.map Route.name) = .ok indexes ∧
      (∀ a children, before.reaches (place ++ [a]) → before.Built (place ++ [a]) children →
        (Collapse.route indexes (decide (place ≠ [])) (before.node (place ++ [a]) children)).value =
          after.node (place ++ [a]) (children.collapse true).value) ∧
      (before.guests place).map (fun guest => (Collapse.route indexes (decide (place ≠ [])) guest).value) =
        after.guests place

/-- **A pass turns a forest of the one plan into a forest of the other.** -/
theorem Settles.built_collapse {before after : Plan α} (hs : before.Settles after) {place : List α} {siblings : Forest}
    (h : before.Built place siblings) :
    (siblings.collapse (decide (place ≠ []))).fault = none ∧
      after.Built place (siblings.collapse (decide (place ≠ []))).value := by
  induction h with
  | @level place siblings steps nodup mem below perm ih =>
    have hreach : ∀ step ∈ steps, before.reaches (place ++ [step.1]) := fun step hm =>
      (mem step.1).mp (List.mem_map_of_mem hm)
    have hsteps : ∀ step ∈ steps, (step.2.collapse true).fault = none ∧
        after.Built (place ++ [step.1]) (step.2.collapse true).value := by
      intro step hm
      have hstep := ih step hm
      rwa [show decide (place ++ [step.1] ≠ []) = true by simp] at hstep
    obtain ⟨indexes, hnames, hnode, hguests⟩ := hs.level (.level steps nodup mem below perm)
    have hbelow : ∀ route ∈ siblings, (Forest.collapse true route.children).fault = none := by
      intro route hm
      rcases List.mem_append.mp (perm.mem_iff.mp hm) with hm | hm
      · obtain ⟨step, hstep, rfl⟩ := List.mem_map.mp hm
        rw [hs.keeps.node]
        exact (hsteps step hstep).1
      · rw [hs.keeps.guests place route hm]
        rfl
    obtain ⟨hfault, hvalue⟩ := Forest.collapse_of_ofNames (decide (place ≠ [])) hnames hbelow
    refine ⟨hfault, ?_⟩
    rw [hvalue]
    refine .level (steps.map fun step => (step.1, (step.2.collapse true).value)) ?_ (fun a => ?_) (fun step' hm' => ?_) ?_
    · rwa [List.map_map]
    · rw [List.map_map, hs.reaches]
      exact mem a
    · obtain ⟨step, hm, rfl⟩ := List.mem_map.mp hm'
      exact (hsteps step hm).2
    · refine (perm.map _).trans (.of_eq ?_)
      rw [List.map_append, List.map_map, List.map_map, hguests]
      exact congrArg (· ++ _) (List.map_congr_left fun step hm => hnode step.1 step.2 (hreach step hm) (below step hm))

end Plan

end PageRouting
