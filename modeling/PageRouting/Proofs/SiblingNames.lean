import PageRouting.Proofs.Following
import PageRouting.Proofs.Settling
import PageRouting.Proofs.Standing

/-!
# `PageRouting/Proofs/SiblingNames.lean` — when two siblings of a compiled forest have one name

Insertion merges pages by name, so among the siblings that it leaves a name stands for one route. There is one exception that
is meant: pages whose name is taken are nested below the route that has it, with its name and the empty pattern, and there may
be several (`Trie.pairwise_names`). The collapse takes the ending `index` from names, and so may make two names of siblings
equal that were different. There is no third way (`sibling_names`).

A compiled forest no longer shows what its names have lost. So each route of it is looked at beside the route that it was
before the pass, which is the one in the same position, since a pass moves nothing.
-/

set_option autoImplicit false

namespace PageRouting

/-- Is this a page that was nested because its name was taken: shown under the empty pattern, with nothing below it? -/
def Route.IsNested (route : Route) : Prop :=
  route.path = [] ∧ route.component.isSome ∧ route.children = []

/-- A route before and after a collapse pass. -/
structure Passed where
  before : Route
  after : Route

namespace Passed

/-- Siblings before a pass, each beside what has become of it. -/
def siblings (before after : Forest) : List Passed :=
  List.zipWith Passed.mk before after

def children (passed : Passed) : List Passed :=
  siblings passed.before.children passed.after.children

/-- Is the name what a name with the ending `index` was left with? -/
def LostIndex (passed : Passed) (name : Text) : Prop :=
  ∃ whole, passed.before.name = some whole ∧ IndexName.stem? whole = some name

/-- If two siblings have one name, were both nested under one name, or has one of them lost the ending `index`? -/
def MayShare (a b : Passed) : Prop :=
  ∀ name, name ≠ [] → a.after.name = some name → b.after.name = some name →
    (a.before.IsNested ∧ b.before.IsNested ∧ a.before.name = b.before.name) ∨ a.LostIndex name ∨ b.LostIndex name

theorem siblings_map (f : Route → Route) (forest : Forest) :
    siblings forest (forest.map f) = forest.map fun route => ⟨route, f route⟩ := by
  rw [siblings, List.zipWith_map_right, List.zipWith_self]

variable (indexes : List IndexName) (isChild : Bool) {route a b : Route}

/-- A name that a pass leaves is the old one, or the old one without its ending. -/
theorem lostIndex_or_eq {name : Text} (h : (Collapse.route indexes isChild route).value.name = some name) :
    LostIndex ⟨route, (Collapse.route indexes isChild route).value⟩ name ∨ route.name = some name := by
  rw [Collapse.route_value] at h
  dsimp only at h
  split at h
  · cases h
  · obtain ⟨whole, hwhole, hstrip⟩ := Option.map_eq_some_iff.mp h
    rw [IndexName.strip] at hstrip
    cases hstem : IndexName.stem? whole with
    | none =>
      rw [hstem, Option.getD_none] at hstrip
      exact .inr (hstrip ▸ hwhole)
    | some stem =>
      rw [hstem, Option.getD_some] at hstrip
      exact .inl ⟨whole, hwhole, hstrip ▸ hstem⟩

theorem mayShare_of_names (h : a.name = b.name → a.IsNested ∧ b.IsNested) :
    MayShare ⟨a, (Collapse.route indexes isChild a).value⟩ ⟨b, (Collapse.route indexes isChild b).value⟩ := by
  intro name _ ha hb
  rcases lostIndex_or_eq indexes isChild ha with hlost | ha
  · exact .inr (.inl hlost)
  · rcases lostIndex_or_eq indexes isChild hb with hlost | hb
    · exact .inr (.inr hlost)
    · have hab : a.name = b.name := ha.trans hb.symm
      obtain ⟨hna, hnb⟩ := h hab
      exact .inl ⟨hna, hnb, hab⟩

end Passed

namespace Trie

variable {entries : List PageEntry} {place : List Text} {siblings : Forest}

theorem isNested_of_mem_guests {guest : Route} (hm : guest ∈ (plan entries).guests place) : guest.IsNested := by
  obtain ⟨entry, -, rfl⟩ := List.mem_map.mp hm
  exact ⟨rfl, rfl, rfl⟩

/-- Before the pass siblings have different names, but for pages whose name was taken. -/
theorem pairwise_names (hentries : ∀ e ∈ entries, e.IsLabelled) (h : (plan entries).Built place siblings) :
    siblings.Pairwise fun a b => a.name = b.name → a.IsNested ∧ b.IsNested := by
  obtain ⟨steps, nodup, mem, below, perm⟩ := h
  refine List.Pairwise.perm ?_ perm.symm fun hab hba => (hab hba.symm).symm
  refine List.pairwise_append.mpr ⟨List.pairwise_map.mpr ?_, ?_, ?_⟩
  · -- the routes of two steps extend one name by different labels
    refine (List.pairwise_map.mp nodup).imp fun {a b} hne hname => ?_
    simp only [plan, routeName_append, Option.some.injEq] at hname
    exact absurd (extendName_injective hname) hne
  · refine List.pairwise_of_forall_mem_list fun a ha b hb _ => ?_
    exact ⟨isNested_of_mem_guests ha, isNested_of_mem_guests hb⟩
  · -- and a guest has the name that they extend
    intro route hroute guest hguest hname
    obtain ⟨step, hs, rfl⟩ := List.mem_map.mp hroute
    obtain ⟨hne, -, hown, -⟩ := reaches_of_mem_guests hentries hguest
    have hlabels := ne_nil_of_reaches hentries ((mem step.1).mp (List.mem_map_of_mem hs))
    rw [hown] at hname
    simp only [plan, routeName_append, Option.some.injEq] at hname
    exact absurd hname (extendName_ne_self (routeName_ne_nil hne hlabels))

theorem everyLevel_mayShare (hentries : ∀ e ∈ entries, e.IsLabelled) (h : (plan entries).Built place siblings)
    {isChild : Bool} (hf : (siblings.collapse isChild).fault = none) :
    EveryLevel Passed.children (List.Pairwise Passed.MayShare) (Passed.siblings siblings (siblings.collapse isChild).value) := by
  induction h generalizing isChild with
  | @level place siblings steps nodup mem below perm ih =>
    obtain ⟨indexes, -, hbelow, hvalue⟩ := Forest.collapse_eq_map hf
    rw [hvalue, Passed.siblings_map]
    refine .level (List.pairwise_map.mpr ?_) fun passed hm => ?_
    · have hnames := pairwise_names hentries (.level steps nodup mem below perm)
      exact hnames.imp fun hab => Passed.mayShare_of_names indexes isChild hab
    · obtain ⟨route, hroute, rfl⟩ := List.mem_map.mp hm
      rw [Passed.children, Collapse.route_value]
      rcases List.mem_append.mp (perm.mem_iff.mp hroute) with hstep | hguest
      · have hfault := hbelow route hroute
        obtain ⟨step, hs, rfl⟩ := List.mem_map.mp hstep
        exact ih step hs hfault
      · rw [(isNested_of_mem_guests hguest).2.2]
        exact .nil .nil

end Trie

namespace Compilation

/--
**Two siblings of a compiled forest have one name in two cases only.** Both are pages that were nested under a name that was
taken, or the collapse has taken the ending `index` from the name of one of them. The forest has the skeleton of the forest
before its collapse, so every route of it is looked at.
-/
theorem sibling_names (layout : Layout) (files : List Text) (forest : Forest) (h : (compile layout files).result = .ok forest) :
    ∃ entries, Compilation.entries layout files = .ok entries ∧
      forest.map Route.skeleton = (build entries).1.map Route.skeleton ∧
      EveryLevel Passed.children (List.Pairwise Passed.MayShare) (Passed.siblings (build entries).1 forest) := by
  obtain ⟨entries, he, hfault, rfl⟩ := compile_result_eq_ok h
  have hentries := isLabelled_of_entries he
  have hlevels := Trie.everyLevel_mayShare hentries (Trie.built_insertAll entries hentries) hfault
  exact ⟨entries, he, Forest.skeleton_collapse false _, hlevels⟩

/-- Three pages of one name. The second and the third are nested below the first, side by side. -/
theorem sibling_names_shared :
    let layout : Layout := ⟨"/srv/app".toList, Layout.defaultPagesDir, Layout.defaultExtensions, .posix⟩
    let files := ["pages/a.vue".toList, "pages/a.js".toList, "pages/_a.vue".toList]
    ¬ ∀ forest, (compile layout files).result = .ok forest →
      EveryLevel Route.children (List.Pairwise fun a b => ∀ name, name ≠ [] → ¬ (a.name = some name ∧ b.name = some name))
        forest := by
  intro layout files hclaim
  have hnames : ((compile layout files).result.map fun forest => forest.map fun route => route.children.map Route.name) =
      .ok [[some "a".toList, some "a".toList]] := by
    decide +kernel
  cases hr : (compile layout files).result with
  | error fault =>
    rw [hr] at hnames
    cases hnames
  | ok forest =>
    rw [hr] at hnames
    obtain ⟨route, rfl, hroute⟩ := List.map_eq_singleton_iff.mp (Except.ok.inj hnames)
    obtain ⟨first, others, hchildren, hfirst, hothers⟩ := List.map_eq_cons_iff.mp hroute
    obtain ⟨second, rfl, hsecond⟩ := List.map_eq_singleton_iff.mp hothers
    have hlevel := ((hclaim [route] hr).descend List.mem_cons_self).here
    rw [hchildren] at hlevel
    have hpair := (List.pairwise_cons.mp hlevel).1 second List.mem_cons_self
    exact hpair "a".toList (by decide) ⟨hfirst, hsecond⟩

/-- Both cases at once: below `a` stand two pages that were nested, and `b-index` has become another `b`. -/
theorem sibling_names_twice :
    let layout : Layout := ⟨"/srv".toList, Layout.defaultPagesDir, Layout.defaultExtensions, .posix⟩
    let files := ["pages/a.vue".toList, "pages/a.js".toList, "pages/_a.vue".toList, "pages/b.vue".toList, "pages/b-index.vue".toList]
    ∃ forest, (compile layout files).result = .ok forest ∧
      forest.map (fun route => (route.name, route.children.map Route.name)) =
        [(some "b".toList, []), (some "b".toList, []), (none, [some "a".toList, some "a".toList])] ∧
      ∃ entries, Compilation.entries layout files = .ok entries ∧
        forest.map Route.skeleton = (build entries).1.map Route.skeleton ∧
        EveryLevel Passed.children (List.Pairwise Passed.MayShare) (Passed.siblings (build entries).1 forest) := by
  intro layout files
  have hnames : ((compile layout files).result.map fun forest => forest.map fun route => (route.name, route.children.map Route.name)) =
      .ok [(some "b".toList, []), (some "b".toList, []), (none, [some "a".toList, some "a".toList])] := by
    decide +kernel
  cases hr : (compile layout files).result with
  | error fault =>
    rw [hr] at hnames
    cases hnames
  | ok forest =>
    rw [hr] at hnames
    exact ⟨forest, rfl, Except.ok.inj hnames, sibling_names layout files forest hr⟩

end Compilation

end PageRouting
