import Mathlib.Data.List.Dedup
import Mathlib.Data.List.Infix
import PageRouting.Proofs.Keys
import PageRouting.Proofs.Naming

/-!
# `PageRouting/Proofs/Following.lean` — the trie, read through names

`Trie.built_insertAll` says what insertion builds by places, that is by lists of labels. The forest itself holds no labels,
only names, in which the labels are joined by dashes and may hold dashes themselves. Read through the names it is still the
trie: following the names that the beginnings of a list of labels have leads to one route, that of the place
(`Trie.follow_eq`), although two places may well share the last of these names. And the routes of the places with their
guests are all the nodes there are (`Trie.nodes_perm_of_built`).
-/

set_option autoImplicit false

namespace PageRouting

/-- The route by itself, without what is below it. -/
def Route.own (route : Route) : Route :=
  { route with children := [] }

theorem Forest.nodes_eq_flatMap (forest : Forest) :
    forest.nodes = List.flatMap (fun route : Route => route :: Forest.nodes route.children) forest := by
  induction forest with
  | nil => rfl
  | cons route siblings ih => rw [nodes_cons, ih, List.flatMap_cons, List.cons_append]

namespace Trie

/--
The routes that labels lead to, below those `above`: on each level the routes whose name is made of the labels so far,
joined by dashes.
-/
def follow : List Text → List Text → Forest → List Route
  | _, [], _ => []
  | above, [label], siblings => siblings.filter fun route => route.name = some (Text.join '-' (above ++ [label]))
  | above, label :: next :: rest, siblings =>
    (siblings.filter fun route => route.name = some (Text.join '-' (above ++ [label]))).flatMap fun route =>
      follow (above ++ [label]) (next :: rest) route.children

/-- The names on the way to a place, from that of the top on. -/
def namesTo (place : List Text) : List Text :=
  place.inits.map (Text.join '-')

/-- The places that the entries reach, each once; the top is not one of them. -/
def places (entries : List PageEntry) : List (List Text) :=
  (entries.flatMap fun entry => entry.labels.inits.filter (· ≠ [])).dedup

variable {entries : List PageEntry} {above place : List Text} {siblings : Forest}

theorem mem_places : place ∈ places entries ↔ place ≠ [] ∧ (plan entries).reaches place := by
  simp only [places, List.mem_dedup, List.mem_flatMap, List.mem_filter, List.mem_inits, decide_eq_true_eq, plan]
  constructor
  · rintro ⟨entry, hm, hp, hne⟩
    exact ⟨hne, entry, hm, hp⟩
  · rintro ⟨hne, entry, hm, hp⟩
    exact ⟨entry, hm, hp, hne⟩

/-! ## Names -/

/-- The last label may be empty; it leaves a dash behind the others. -/
theorem routeName_concat_eq_join (h : ∀ a ∈ above, a ≠ []) (label : Text) :
    routeName (above ++ [label]) = Text.join '-' (above ++ [label]) := by
  rw [routeName_append, routeName_eq_join h]
  by_cases hnil : above = []
  · subst hnil
    rfl
  · rw [Text.join_append_singleton _ hnil, Forest.extendName, if_neg]
    rw [← routeName_eq_join h]
    exact routeName_ne_nil hnil h

theorem ne_nil_of_reaches (hentries : ∀ e ∈ entries, e.IsLabelled) {label : Text}
    (hr : (plan entries).reaches (above ++ [label])) : ∀ a ∈ above, a ≠ [] := by
  obtain ⟨entry, hm, hp⟩ := hr
  exact (hentries entry hm).ne_nil_of_mem hp

/-- **The names on the way to a place tell the place**, whatever dashes its labels hold. -/
theorem eq_of_namesTo {other : List Text} (hp : ∀ a ∈ place.dropLast, a ≠ []) (ho : ∀ a ∈ other.dropLast, a ≠ [])
    (h : namesTo place = namesTo other) : place = other := by
  have hlength : place.length = other.length := by
    have := congrArg List.length h
    simpa [namesTo] using this
  -- read from the end, the last of the names adds one label to what the names before it tell
  have concat : ∀ (above : List Text) (label : Text),
      namesTo (above ++ [label]) = namesTo above ++ [Text.join '-' (above ++ [label])] := by
    intro above label
    simp [namesTo, List.inits_append]
  induction place using List.reverseRecOn generalizing other with
  | nil => exact (List.eq_nil_of_length_eq_zero hlength.symm).symm
  | append_singleton above a ih =>
    obtain ⟨above', b, rfl⟩ : ∃ above' b, other = above' ++ [b] := by
      rcases List.eq_nil_or_concat other with rfl | ⟨above', b, rfl⟩
      · simp at hlength
      · exact ⟨above', b, List.concat_eq_append⟩
    rw [List.dropLast_concat] at hp ho
    rw [concat, concat] at h
    obtain ⟨habove, hlast⟩ := List.append_inj' h rfl
    have hlength' : above.length = above'.length := by simpa using hlength
    obtain rfl := ih (fun c hc => hp c (List.mem_of_mem_dropLast hc)) (fun c hc => ho c (List.mem_of_mem_dropLast hc))
      habove hlength'
    have hname : routeName (above ++ [a]) = routeName (above ++ [b]) := by
      rw [routeName_concat_eq_join hp, routeName_concat_eq_join hp]
      exact List.head_eq_of_cons_eq hlast
    rw [routeName_append, routeName_append] at hname
    rw [extendName_injective hname]

/-! ## Following -/

/-- Below one route, the name of a step is that of no other step. -/
theorem name_node_iff {a label : Text} (children : Forest) :
    ((plan entries).node (above ++ [a]) children).name = some (routeName (above ++ [label])) ↔ a = label := by
  simp only [plan, routeName_append, Option.some.injEq]
  constructor
  · exact extendName_injective
  · rintro rfl
    rfl

theorem filter_fst_eq {steps : List (Text × Forest)} (nodup : (steps.map Prod.fst).Nodup) {step : Text × Forest}
    (h : step ∈ steps) : (steps.filter fun other => other.1 = step.1) = [step] := by
  induction steps with
  | nil => cases h
  | cons first others ih =>
    rw [List.map_cons, List.nodup_cons] at nodup
    rcases List.mem_cons.mp h with rfl | h
    · have hnone : (others.filter fun other => other.1 = step.1) = [] := by
        refine List.filter_eq_nil_iff.mpr fun other hm ho => nodup.1 ?_
        exact of_decide_eq_true ho ▸ List.mem_map_of_mem hm
      rw [List.filter_cons, hnone]
      simp
    · have hne : first.1 ≠ step.1 := fun he => nodup.1 (he ▸ List.mem_map_of_mem h)
      rw [List.filter_cons_of_neg (by simpa using hne), ih nodup.2 h]

/-- On a level, the name of a step that leads on is that of one route. -/
theorem filter_name_eq (hentries : ∀ e ∈ entries, e.IsLabelled) {label : Text}
    (hr : (plan entries).reaches (above ++ [label])) (h : (plan entries).Built above siblings) :
    ∃ children, (plan entries).Built (above ++ [label]) children ∧
      (siblings.filter fun route => route.name = some (routeName (above ++ [label]))) =
        [(plan entries).node (above ++ [label]) children] := by
  obtain ⟨entry, hentry, rest, hl⟩ := hr
  have hlabels : entry.labels = above ++ label :: rest := by rw [← hl, List.append_assoc, List.singleton_append]
  have hguests := guest_name_ne hentries (hentries entry hentry) hlabels
  -- guests of the place above stand on this level too, but an entry that goes on has another name than theirs
  obtain ⟨steps, nodup, mem, below, perm⟩ := h
  obtain ⟨step, hstep, rfl⟩ := List.mem_map.mp ((mem label).mpr ⟨entry, hentry, rest, hl⟩)
  refine ⟨step.2, below step hstep, List.perm_singleton.mp ((perm.filter _).trans (.of_eq ?_))⟩
  have hsteps : ((steps.map fun other => (plan entries).node (above ++ [other.1]) other.2).filter fun route =>
      route.name = some (routeName (above ++ [step.1]))) = [(plan entries).node (above ++ [step.1]) step.2] := by
    rw [List.filter_map]
    simp only [Function.comp_def, name_node_iff]
    rw [filter_fst_eq nodup hstep]
    rfl
  rw [List.filter_append, hsteps, List.filter_eq_nil_iff.mpr fun sibling hm hs => hguests sibling hm (of_decide_eq_true hs)]
  rfl

/-- **Following the names of a place leads to its route**, and to no other. -/
theorem follow_eq (hentries : ∀ e ∈ entries, e.IsLabelled) {rest : List Text} (hne : rest ≠ [])
    (hr : (plan entries).reaches (above ++ rest)) (h : (plan entries).Built above siblings) :
    ∃ children, (plan entries).Built (above ++ rest) children ∧
      follow above rest siblings = [(plan entries).node (above ++ rest) children] := by
  induction rest generalizing above siblings with
  | nil => exact absurd rfl hne
  | cons label rest ih =>
    have hassoc : above ++ label :: rest = (above ++ [label]) ++ rest := by simp
    have hstep : (plan entries).reaches (above ++ [label]) := by
      obtain ⟨entry, hm, hp⟩ := hr
      exact ⟨entry, hm, (List.prefix_append _ rest).trans (hassoc ▸ hp)⟩
    obtain ⟨children, hbuilt, hfilter⟩ := filter_name_eq hentries hstep h
    rw [routeName_concat_eq_join (ne_nil_of_reaches hentries hstep)] at hfilter
    cases rest with
    | nil => exact ⟨children, hbuilt, by rw [follow, hfilter]⟩
    | cons next rest =>
      rw [hassoc] at hr ⊢
      obtain ⟨below, hbelow, hfollow⟩ := ih (by simp) hr hbuilt
      refine ⟨below, hbelow, ?_⟩
      rw [follow, hfilter, List.flatMap_singleton]
      exact hfollow

/-- The children that have the name of their parent are the guests of the place. -/
theorem filter_name_children (hentries : ∀ e ∈ entries, e.IsLabelled) (hne : place ≠ [])
    {children : Forest} (h : (plan entries).Built place children) :
    (children.filter fun child => child.name = some (routeName place)).Perm ((plan entries).guests place) := by
  obtain ⟨steps, nodup, mem, below, perm⟩ := h
  refine (perm.filter _).trans (.of_eq ?_)
  rw [List.filter_append]
  have hsteps : ((steps.map fun step => (plan entries).node (place ++ [step.1]) step.2).filter fun child =>
      child.name = some (routeName place)) = [] := by
    refine List.filter_eq_nil_iff.mpr fun child hm hname => ?_
    obtain ⟨step, hs, rfl⟩ := List.mem_map.mp hm
    have hlabels := ne_nil_of_reaches hentries ((mem step.1).mp (List.mem_map_of_mem hs))
    have hname := of_decide_eq_true hname
    simp only [plan, routeName_append, Option.some.injEq] at hname
    exact extendName_ne_self (routeName_ne_nil hne hlabels) hname
  rw [hsteps, List.nil_append]
  refine List.filter_eq_self.mpr fun child hm => ?_
  obtain ⟨entry, -, rfl⟩ := List.mem_map.mp hm
  exact decide_eq_true rfl

/-! ## All nodes -/

/-- The places strictly below a place. -/
def placesBelow (entries : List PageEntry) (place : List Text) : List (List Text) :=
  (places entries).filter fun other => place <+: other ∧ other ≠ place

theorem mem_placesBelow {other : List Text} :
    other ∈ placesBelow entries place ↔ (plan entries).reaches other ∧ place <+: other ∧ other ≠ place := by
  simp only [placesBelow, List.mem_filter, mem_places, decide_eq_true_eq]
  constructor
  · rintro ⟨⟨-, hr⟩, hp, hne⟩
    exact ⟨hr, hp, hne⟩
  · rintro ⟨hr, hp, hne⟩
    refine ⟨⟨?_, hr⟩, hp, hne⟩
    rintro rfl
    exact hne (List.prefix_nil.mp hp).symm

theorem placesBelow_perm {steps : List Text} (nodup : steps.Nodup)
    (mem : ∀ a, a ∈ steps ↔ (plan entries).reaches (place ++ [a])) :
    (placesBelow entries place).Perm (steps.flatMap fun a => (place ++ [a]) :: placesBelow entries (place ++ [a])) := by
  have hnext : ∀ other ∈ placesBelow entries place, ∃ a ∈ steps, other[place.length]? = some a := by
    intro other hm
    obtain ⟨⟨entry, hentry, ho⟩, hp, hne⟩ := mem_placesBelow.mp hm
    obtain ⟨a, ha⟩ := (eq_or_exists_step hp).resolve_left hne
    exact ⟨a, (mem a).mpr ⟨entry, hentry, ha.trans ho⟩, (step_prefix_iff.mp ha).2⟩
  have hnodup : ∀ place, (placesBelow entries place).Nodup := fun place => (List.nodup_dedup _).filter _
  refine (perm_flatMap_filter nodup hnext).trans (List.Perm.flatMap_left _ fun a ha => ?_)
  refine (List.perm_ext_iff_of_nodup ((hnodup place).filter _) ?_).mpr fun other => ?_
  · refine List.nodup_cons.mpr ⟨fun hm => ?_, hnodup _⟩
    exact (mem_placesBelow.mp hm).2.2 rfl
  · rw [List.mem_filter, List.mem_cons, mem_placesBelow, mem_placesBelow, decide_eq_true_eq]
    constructor
    · rintro ⟨⟨hr, hp, -⟩, hnext⟩
      by_cases hself : other = place ++ [a]
      · exact .inl hself
      · exact .inr ⟨hr, step_prefix_iff.mpr ⟨hp, hnext⟩, hself⟩
    · have hproper : ∀ {other : List Text}, place ++ [a] <+: other → other ≠ place := by
        rintro _ hp rfl
        exact absurd hp.length_le (by simp)
      rintro (rfl | ⟨hr, hp, -⟩)
      · exact ⟨⟨(mem a).mp ha, List.prefix_append _ _, hproper (List.prefix_refl _)⟩, by simp⟩
      · exact ⟨⟨hr, (List.prefix_append _ _).trans hp, hproper hp⟩, (step_prefix_iff.mp hp).2⟩

theorem own_nodes_guests (place : List Text) :
    (Forest.nodes ((plan entries).guests place)).map Route.own = (plan entries).guests place := by
  simp only [plan]
  induction (endingAt entries place).tail with
  | nil => rfl
  | cons entry others ih =>
    rw [List.map_cons, Forest.nodes_cons, List.map_cons, List.map_append, ih]
    rfl

/-- **There are no other nodes**: below a place stand the routes of the places below it, each with its guests. -/
theorem nodes_perm_of_built (h : (plan entries).Built place siblings) :
    (siblings.nodes.map Route.own).Perm
      (((placesBelow entries place).flatMap fun other => (plan entries).node other [] :: (plan entries).guests other) ++
        (plan entries).guests place) := by
  induction h with
  | @level place siblings steps nodup mem below perm ih =>
    refine ((Forest.nodes_perm perm).map _).trans ?_
    rw [Forest.nodes_append, List.map_append, own_nodes_guests]
    refine List.Perm.append_right _ ?_
    have hplaces := placesBelow_perm nodup mem
    refine List.Perm.trans ?_ (hplaces.flatMap_right _).symm
    rw [Forest.nodes_eq_flatMap, List.flatMap_map, List.map_flatMap, List.flatMap_assoc, List.flatMap_map]
    refine List.Perm.flatMap_left _ fun step hs => ?_
    rw [List.map_cons, List.flatMap_cons]
    exact ((ih step hs).trans List.perm_append_comm).cons _

/-! ## What insertion builds -/

/--
**The builder refines a trie.** Whatever entries are inserted, in whatever order, the names on the way to a place lead to
one route. The first entry that reaches the place decides its pattern; the first that ends there decides its page; those
that end there later are guests below it, with its name and the empty pattern. There are no other nodes, and entries with
different labels are told apart by the names on their ways.
-/
theorem insertAll_trie (entries : List PageEntry) (hread : ∀ entry ∈ entries, entry.IsRead) :
    (∀ place, place ≠ [] → (∃ entry ∈ entries, place <+: entry.labels) →
      ∃ node first, follow [] place (Forest.insertAll entries []).1 = [node] ∧
        node.name = some (Text.join '-' place) ∧
        firstThrough entries place = some first ∧ node.path = first.contributionAt (place.length - 1) ∧
        node.component = (endingAt entries place).head?.map PageEntry.component ∧
        node.chunkName = (endingAt entries place).head?.bind PageEntry.chunkName ∧
        (node.children.filter fun child => child.name = node.name).Perm
          ((endingAt entries place).tail.map fun entry =>
            ⟨node.name, [], some entry.component, entry.chunkName, []⟩)) ∧
    ((Forest.insertAll entries []).1.nodes.map Route.own).Perm
      ((places entries).flatMap fun place => (plan entries).node place [] :: (plan entries).guests place) ∧
    ∀ entry ∈ entries, ∀ other ∈ entries, entry.labels ≠ other.labels → namesTo entry.labels ≠ namesTo other.labels := by
  have hentries : ∀ entry ∈ entries, entry.IsLabelled := fun entry hm => (hread entry hm).isLabelled
  have hbuilt := built_insertAll entries hentries
  refine ⟨fun place hne hr => ?_, ?_, fun entry hm other ho hl hnames => hl ?_⟩
  · have hreaches : (plan entries).reaches ([] ++ place) := hr
    obtain ⟨children, hbelow, hfollow⟩ := follow_eq hentries hne hreaches hbuilt
    rw [List.nil_append] at hbelow hfollow
    obtain ⟨above, label, rfl⟩ := (List.eq_nil_or_concat place).resolve_left hne
    rw [List.concat_eq_append] at *
    have hname : routeName (above ++ [label]) = Text.join '-' (above ++ [label]) :=
      routeName_concat_eq_join (ne_nil_of_reaches hentries hr) label
    obtain ⟨first, hfirst⟩ : ∃ first, firstThrough entries (above ++ [label]) = some first := by
      obtain ⟨entry, hm, hp⟩ := hr
      exact Option.isSome_iff_exists.mp (List.find?_isSome.mpr ⟨entry, hm, decide_eq_true hp⟩)
    refine ⟨_, first, hfollow, congrArg some hname, hfirst, ?_, rfl, rfl, filter_name_children hentries hne hbelow⟩
    simp only [plan, hfirst, Option.map_some, Option.getD_some]
  · have hall : placesBelow entries [] = places entries := by
      refine List.filter_eq_self.mpr fun place hm => decide_eq_true ?_
      exact ⟨List.nil_prefix, (mem_places.mp hm).1⟩
    have hnone : (plan entries).guests [] = [] := by
      have hends : endingAt entries [] = [] := by
        refine List.filter_eq_nil_iff.mpr fun entry hm hl => ?_
        exact (hentries entry hm).segments_ne_nil (List.map_eq_nil_iff.mp (of_decide_eq_true hl))
      simp only [plan, hends, List.tail_nil, List.map_nil]
    have hnodes := nodes_perm_of_built hbuilt
    rwa [hall, hnone, List.append_nil] at hnodes
  · have hlabels : ∀ entry ∈ entries, ∀ a ∈ entry.labels.dropLast, a ≠ [] := by
      intro entry hm a ha
      have hlast := List.dropLast_append_getLast (List.ne_nil_of_mem (List.mem_of_mem_dropLast ha))
      exact (hentries entry hm).ne_nil_of_mem ⟨[], by rw [hlast, List.append_nil]⟩ a ha
    exact eq_of_namesTo (hlabels entry hm) (hlabels other ho) hnames

/-- Three pages under the name `a-b`: two files of one place, and one of another place. -/
theorem insertAll_trie_dashes :
    let layout : Layout := ⟨"/srv".toList, Layout.defaultPagesDir, Layout.defaultExtensions, .posix⟩
    let entries := PageEntry.readable layout
      ["pages/a/b.vue".toList, "pages/a-b.vue".toList, "pages/_a/b.js".toList, "pages/a.vue".toList]
    (∀ entry ∈ entries, entry.IsRead) ∧
      (∃ node, follow [] ["a".toList, "b".toList] (Forest.insertAll entries []).1 = [node] ∧
        node.name = some "a-b".toList ∧ node.component = some "/srv/pages/a/b.vue".toList ∧
        (node.children.filter fun child => child.name = node.name).map Route.component =
          [some "/srv/pages/_a/b.js".toList]) ∧
      ∃ node, follow [] ["a-b".toList] (Forest.insertAll entries []).1 = [node] ∧
        node.name = some "a-b".toList ∧ node.component = some "/srv/pages/a-b.vue".toList := by
  intro layout entries
  have hread : ∀ entry ∈ entries, entry.IsRead := PageEntry.isRead_of_mem_readable
  have htrie := insertAll_trie entries hread
  refine ⟨hread, ?_, ?_⟩
  · obtain ⟨node, -, hnode, hname, -, -, hcomponent, -, hguests⟩ :=
      htrie.1 ["a".toList, "b".toList] (by decide) (by decide +kernel)
    have hlater : (endingAt entries ["a".toList, "b".toList]).tail.map (fun entry => some entry.component) =
        [some "/srv/pages/_a/b.js".toList] := by decide +kernel
    have hone := hguests.map Route.component
    rw [List.map_map] at hone
    exact ⟨node, hnode, hname, hcomponent.trans (by decide +kernel), List.perm_singleton.mp (hone.trans (.of_eq hlater))⟩
  · obtain ⟨node, -, hnode, hname, -, -, hcomponent, -⟩ := htrie.1 ["a-b".toList] (by decide) (by decide +kernel)
    exact ⟨node, hnode, hname, hcomponent.trans (by decide +kernel)⟩

end Trie

end PageRouting
