import PageRouting.Proofs.Keys
import PageRouting.Proofs.Passing

/-!
# `PageRouting/Proofs/Settling.lean` — the compiled forest of any page files

Insertion builds the trie of labels, whatever the page files are (`Trie.built_insertAll`). The pass that follows goes through
exactly if every name in the trie can be read (`Trie.fault_collapse_eq_none_iff`), and then leaves the trie as it was but for
names and patterns: it is built to `Trie.settled`, in which

* the pattern of a route is what the index names on its level make of the pattern that insertion gave it;
* the ending `index` is gone from every name;
* a route has no name at all where a child stood with the empty pattern when the pass came by.

So what is true of a compiled forest can be read off a plan, and the plan off the entries.
-/

set_option autoImplicit false

namespace PageRouting

theorem Compilation.isLabelled_of_entries {layout : Layout} {files : List Text} {entries : List PageEntry}
    (h : Compilation.entries layout files = .ok entries) : ∀ entry ∈ entries, entry.IsLabelled := by
  intro entry hm
  obtain ⟨file, -, hread⟩ := (Compilation.mem_entries_iff h).mp hm
  exact PageEntry.IsRead.isLabelled ⟨layout, file, hread⟩

namespace Trie

/-! ## The settled trie -/

section

variable (entries : List PageEntry)

/-- The labels that lead on from a place, each once. -/
def steps (place : List Text) : List Text :=
  Text.distinct (entries.filterMap fun entry => if place <+: entry.labels then entry.labels[place.length]? else none)

/-- The names of the routes below a place, as insertion gave them. -/
def namesBelow (place : List Text) : List (Option Text) :=
  (steps entries place).map (fun label => some (routeName (place ++ [label]))) ++ ((plan entries).guests place).map Route.name

/-- The index names among them, if they can be read. -/
def indexesBelow (place : List Text) : List IndexName :=
  (IndexName.ofNames (namesBelow entries place)).toOption.getD []

/-- Does a child show the page of the place? Every guest does, and so does a step that adds nothing to the pattern. -/
def IsShownBelow (place : List Text) : Prop :=
  (plan entries).guests place ≠ [] ∨ ∃ label ∈ steps entries place, ((plan entries).node (place ++ [label]) []).path = []

instance (place : List Text) : Decidable (IsShownBelow entries place) :=
  inferInstanceAs (Decidable (_ ∨ _))

/-- The forest of the entries after its collapse, by places. -/
def settled : Plan Text where
  reaches := (plan entries).reaches
  node place children :=
    { (plan entries).node place children with
      name := if IsShownBelow entries place then none else some (IndexName.strip (routeName place))
      path := Collapse.newPath (indexesBelow entries place.dropLast) (decide (place.dropLast ≠ [])) (some (routeName place))
        ((plan entries).node place children).path }
  guests place := ((plan entries).guests place).map fun guest => { guest with name := guest.name.map IndexName.strip }

def IsReadable : Prop :=
  ∀ place, place ≠ [] → (plan entries).reaches place → ¬ IndexName.IsUnreadable (routeName place)

end

variable {entries : List PageEntry} {place : List Text} {siblings : Forest}

theorem mem_steps {label : Text} : label ∈ steps entries place ↔ (plan entries).reaches (place ++ [label]) := by
  simp only [steps, Text.mem_distinct, List.mem_filterMap, plan]
  constructor
  · rintro ⟨entry, hm, hlabel⟩
    split at hlabel
    · next hp => exact ⟨entry, hm, step_prefix_iff.mpr ⟨hp, hlabel⟩⟩
    · cases hlabel
  · rintro ⟨entry, hm, hp⟩
    obtain ⟨hplace, hlabel⟩ := step_prefix_iff.mp hp
    exact ⟨entry, hm, by rw [if_pos hplace, hlabel]⟩

theorem keepsChildren_plan (entries : List PageEntry) : (plan entries).KeepsChildren where
  node _ _ := rfl
  guests place guest hm := by
    obtain ⟨entry, -, rfl⟩ := List.mem_map.mp hm
    rfl

theorem keepsChildren_settled (entries : List PageEntry) : (settled entries).KeepsChildren where
  node _ _ := rfl
  guests place guest hm := by
    obtain ⟨before, hbefore, rfl⟩ := List.mem_map.mp hm
    exact (keepsChildren_plan entries).guests place before hbefore

theorem reaches_of_append (above below : List Text) (h : (plan entries).reaches (above ++ below)) :
    (plan entries).reaches above := by
  obtain ⟨entry, hm, hp⟩ := h
  exact ⟨entry, hm, (List.prefix_append _ _).trans hp⟩

/-- Guests stand below places only, and not on the top level. -/
theorem reaches_of_mem_guests (hentries : ∀ e ∈ entries, e.IsLabelled) {guest : Route} (hm : guest ∈ (plan entries).guests place) :
    place ≠ [] ∧ (plan entries).reaches place ∧ guest.name = some (routeName place) ∧ guest.path = [] := by
  obtain ⟨entry, hentry, rfl⟩ := List.mem_map.mp hm
  obtain ⟨hends, hlabels⟩ := List.mem_filter.mp (List.mem_of_mem_tail hentry)
  obtain rfl := of_decide_eq_true hlabels
  refine ⟨fun hnil => ?_, ⟨entry, hends, List.prefix_refl _⟩, rfl, rfl⟩
  exact (hentries entry hends).segments_ne_nil (List.map_eq_nil_iff.mp hnil)

/-- The pattern of a place is what the segment of an entry adds there that passes the place, or ends at it. -/
theorem exists_passing {label : Text} (hr : (plan entries).reaches (place ++ [label])) (children : Forest) :
    ∃ entry ∈ entries, ∃ done segment rest, entry.segments = done ++ segment :: rest ∧
      (done ++ [segment]).map Segment.label = place ++ [label] ∧
      ((plan entries).node (place ++ [label]) children).path = segment.contribution place.length (decide (rest = [])) := by
  obtain ⟨first, hfirst⟩ : ∃ first, firstThrough entries (place ++ [label]) = some first := by
    obtain ⟨entry, hm, hp⟩ := hr
    exact Option.isSome_iff_exists.mp (List.find?_isSome.mpr ⟨entry, hm, decide_eq_true hp⟩)
  obtain ⟨hm, rest, hlabels⟩ := firstThrough_eq_some hfirst
  rw [List.append_assoc, PageEntry.labels] at hlabels
  obtain ⟨done, after, hsegments, hdone, hafter⟩ := List.map_eq_append_iff.mp hlabels.symm
  obtain ⟨segment, behind, rfl, hlabel, -⟩ := List.map_eq_cons_iff.mp hafter
  have hcontribution := contributionAt_of_segments hsegments
  rw [← List.length_map Segment.label, hdone] at hcontribution
  refine ⟨first, hm, done, segment, behind, hsegments, by rw [List.map_append, hdone, List.map_singleton, hlabel], ?_⟩
  simp only [plan, hfirst, Option.map_some, Option.getD_some, List.length_append, List.length_singleton, Nat.add_sub_cancel]
  exact hcontribution

/-- The pattern of a place is what the segment of some entry adds there. -/
theorem exists_segment {label : Text} (hr : (plan entries).reaches (place ++ [label])) (children : Forest) :
    ∃ entry ∈ entries, ∃ segment ∈ entry.segments, ∃ isLast, segment.label = label ∧
      ((plan entries).node (place ++ [label]) children).path = segment.contribution place.length isLast := by
  obtain ⟨entry, hm, done, segment, rest, hsegments, hlabels, hpath⟩ := exists_passing hr children
  have hlabel : segment.label = label := by simpa using congrArg List.getLast? hlabels
  exact ⟨entry, hm, segment, by simp [hsegments], _, hlabel, hpath⟩

/-! ## When the pass goes through -/

/-- The names in the trie are those of its places. -/
theorem exists_name_iff (hentries : ∀ e ∈ entries, e.IsLabelled) (h : (plan entries).Built [] siblings) {name : Text} :
    (∃ node ∈ Forest.nodes siblings, node.name = some name) ↔
      ∃ place, place ≠ [] ∧ (plan entries).reaches place ∧ routeName place = name := by
  constructor
  · intro ⟨node, hm, hname⟩
    rcases h.cases_of_mem_nodes (keepsChildren_plan entries) hm with ⟨above, label, children, hr, -, rfl⟩ | ⟨above, hguest⟩
    · exact ⟨above ++ [label], by simp, hr, Option.some.inj hname⟩
    · obtain ⟨hne, hr, hguestName, -⟩ := reaches_of_mem_guests hentries hguest
      exact ⟨above, hne, hr, Option.some.inj (hguestName.symm.trans hname)⟩
  · intro ⟨place, hne, hr, hname⟩
    obtain ⟨children, -, hm⟩ := h.mem_nodes_of_reaches (keepsChildren_plan entries) reaches_of_append hne hr
    exact ⟨_, hm, congrArg some hname⟩

/-- **The pass goes through exactly if the names of all places can be read.** -/
theorem fault_collapse_eq_none_iff (hentries : ∀ e ∈ entries, e.IsLabelled) (h : (plan entries).Built [] siblings)
    (isChild : Bool) : (siblings.collapse isChild).fault = none ↔ IsReadable entries := by
  rw [Forest.fault_collapse_eq_none_iff]
  constructor
  · intro hnodes place hne hr
    obtain ⟨node, hm, hname⟩ := (exists_name_iff hentries h).mpr ⟨place, hne, hr, rfl⟩
    exact hnodes node hm _ hname
  · intro hreadable node hm name hname
    obtain ⟨place, hne, hr, rfl⟩ := (exists_name_iff hentries h).mp ⟨node, hm, hname⟩
    exact hreadable place hne hr

theorem not_mem_routeName {c : Char} (hc : c ≠ '-') (h : ∀ label ∈ place, c ∉ label) : c ∉ routeName place := by
  induction place using List.reverseRecOn with
  | nil => simp [routeName]
  | append_singleton above label ih =>
    have habove := ih fun other hm => h other (List.mem_append_left _ hm)
    have hlabel := h label (by simp)
    rw [routeName_append, Forest.extendName]
    split
    · exact hlabel
    · simp [habove, hc, hlabel]

theorem isReadable_of_not_mem (h : ∀ e ∈ entries, ∀ label ∈ e.labels, '\n' ∉ label) : IsReadable entries := by
  intro place _ ⟨entry, hm, hp⟩
  apply IndexName.not_isUnreadable_of_not_mem
  exact not_mem_routeName (by decide) fun label hlabel => h entry hm label (hp.subset hlabel)

/-! ## One level -/

theorem names_perm (h : (plan entries).Built place siblings) : (siblings.map Route.name).Perm (namesBelow entries place) := by
  obtain ⟨built, nodup, mem, -, perm⟩ := h
  have hsteps : (built.map Prod.fst).Perm (steps entries place) :=
    (List.perm_ext_iff_of_nodup nodup (Text.distinct_nodup _)).mpr fun label => (mem label).trans mem_steps.symm
  refine (perm.map Route.name).trans ?_
  rw [List.map_append, List.map_map]
  refine List.Perm.append_right _ (.trans (.of_eq ?_) (hsteps.map _))
  rw [List.map_map]
  rfl

theorem ofNames_namesBelow (hentries : ∀ e ∈ entries, e.IsLabelled) (hreadable : IsReadable entries) (place : List Text) :
    IndexName.ofNames (namesBelow entries place) = .ok (indexesBelow entries place) := by
  have hnames : ∀ name, some name ∈ namesBelow entries place → ¬ IndexName.IsUnreadable name := by
    intro name hm
    rcases List.mem_append.mp hm with hm | hm
    · obtain ⟨label, hlabel, hname⟩ := List.mem_map.mp hm
      obtain rfl := Option.some.inj hname
      exact hreadable _ (by simp) (mem_steps.mp hlabel)
    · obtain ⟨guest, hguest, hname⟩ := List.mem_map.mp hm
      obtain ⟨hne, hr, hown, -⟩ := reaches_of_mem_guests hentries hguest
      obtain rfl := Option.some.inj (hown.symm.trans hname)
      exact hreadable place hne hr
  obtain ⟨indexes, hok⟩ := IndexName.exists_ofNames_eq_ok_iff.mpr hnames
  rw [indexesBelow, hok]
  rfl

/-- The index names of a level can be read, and they are those that the plan has for it. -/
theorem exists_indexes (hentries : ∀ e ∈ entries, e.IsLabelled) (hreadable : IsReadable entries)
    (h : (plan entries).Built place siblings) :
    ∃ indexes, IndexName.ofNames (siblings.map Route.name) = .ok indexes ∧ indexes.Perm (indexesBelow entries place) :=
  IndexName.exists_ofNames_perm (names_perm h) (ofNames_namesBelow hentries hreadable place)

theorem indexesBelow_eq_nil_iff (hentries : ∀ e ∈ entries, e.IsLabelled) (hreadable : IsReadable entries) :
    indexesBelow entries place = [] ↔ ∀ name, some name ∈ namesBelow entries place → IndexName.stem? name = none :=
  IndexName.eq_nil_iff_of_ofNames (ofNames_namesBelow hentries hreadable place)

/-- In any plan that empties no pattern and fills none, a child has the empty pattern exactly if it had it before. -/
theorem exists_path_eq_nil_iff (hentries : ∀ e ∈ entries, e.IsLabelled) (other : Plan Text)
    (hreaches : ∀ place, other.reaches place ↔ (plan entries).reaches place)
    (hguests : (other.guests place).map Route.path = ((plan entries).guests place).map Route.path)
    (hnode : ∀ label children, (plan entries).reaches (place ++ [label]) →
      ((other.node (place ++ [label]) children).path = [] ↔ ((plan entries).node (place ++ [label]) []).path = []))
    (h : other.Built place siblings) : (∃ child ∈ siblings, child.path = []) ↔ IsShownBelow entries place := by
  obtain ⟨built, nodup, mem, below, perm⟩ := h
  constructor
  · intro ⟨child, hm, hpath⟩
    rcases List.mem_append.mp (perm.mem_iff.mp hm) with hm | hm
    · obtain ⟨step, hs, rfl⟩ := List.mem_map.mp hm
      have hr := (hreaches _).mp ((mem step.1).mp (List.mem_map_of_mem hs))
      exact .inr ⟨step.1, mem_steps.mpr hr, (hnode _ _ hr).mp hpath⟩
    · refine .inl fun hnil => ?_
      rw [hnil, List.map_nil, List.map_eq_nil_iff] at hguests
      rw [hguests] at hm
      cases hm
  · rintro (hne | ⟨label, hlabel, hpath⟩)
    · obtain ⟨guest, hguest⟩ := List.exists_mem_of_ne_nil _ hne
      have hpath := (reaches_of_mem_guests hentries hguest).2.2.2
      have hm : ([] : Text) ∈ (other.guests place).map Route.path := by
        rw [hguests, ← hpath]
        exact List.mem_map_of_mem hguest
      obtain ⟨child, hchild, hempty⟩ := List.mem_map.mp hm
      exact ⟨child, perm.mem_iff.mpr (List.mem_append_right _ hchild), hempty⟩
    · have hr := mem_steps.mp hlabel
      obtain ⟨step, hs, rfl⟩ := List.mem_map.mp ((mem label).mpr ((hreaches _).mpr hr))
      exact ⟨_, perm.mem_iff.mpr (List.mem_append_left _ (List.mem_map_of_mem hs)), (hnode _ _ hr).mpr hpath⟩

theorem showsParent_iff (hentries : ∀ e ∈ entries, e.IsLabelled) (h : (plan entries).Built place siblings) :
    Collapse.showsParent siblings = true ↔ IsShownBelow entries place := by
  rw [← exists_path_eq_nil_iff hentries (plan entries) (fun _ => Iff.rfl) rfl (fun _ _ _ => Iff.rfl) h]
  simp [Collapse.showsParent]

/-! ## The pass -/

/-- **The pass settles the trie**, if the names of all places can be read. -/
theorem settles (hentries : ∀ e ∈ entries, e.IsLabelled) (hreadable : IsReadable entries) :
    (plan entries).Settles (settled entries) where
  keeps := keepsChildren_plan entries
  reaches _ := Iff.rfl
  level {place siblings} hb := by
    obtain ⟨indexes, hnames, hindexes⟩ := exists_indexes hentries hreadable hb
    refine ⟨indexes, hnames, fun label children _ hbelow => ?_, ?_⟩
    · have hshown : (if Collapse.showsParent children then none else some (IndexName.strip (routeName (place ++ [label])))) =
          if IsShownBelow entries (place ++ [label]) then none else some (IndexName.strip (routeName (place ++ [label]))) :=
        if_congr (showsParent_iff hentries hbelow) rfl rfl
      rw [Collapse.route_value, Collapse.newPath_perm hindexes]
      simp only [settled, plan, List.dropLast_concat, Option.map_some]
      exact congrArg (fun name => Route.mk name _ _ _ _) hshown
    · refine List.map_congr_left fun guest hm => ?_
      obtain ⟨hne, -, -, hpath⟩ := reaches_of_mem_guests hentries hm
      have hchildren := (keepsChildren_plan entries).guests place guest hm
      obtain ⟨name, path, component, chunkName, children⟩ := guest
      obtain rfl : path = [] := hpath
      obtain rfl : children = [] := hchildren
      rw [Collapse.route_value, decide_eq_true hne]
      rfl

/-- **The compiled forest of any page files is the settled trie of their entries.** -/
theorem built_of_compile {layout : Layout} {files : List Text} {forest : Forest}
    (h : (compile layout files).result = .ok forest) :
    ∃ entries, Compilation.entries layout files = .ok entries ∧ (∀ e ∈ entries, e.IsLabelled) ∧ IsReadable entries ∧
      (settled entries).Built [] forest := by
  obtain ⟨entries, he, hfault, rfl⟩ := Compilation.compile_result_eq_ok h
  have hentries := Compilation.isLabelled_of_entries he
  have hbuilt := built_insertAll entries hentries
  have hreadable := (fault_collapse_eq_none_iff hentries hbuilt false).mp hfault
  have hsettled := ((settles hentries hreadable).built_collapse hbuilt).2
  exact ⟨entries, he, hentries, hreadable, hsettled⟩

end Trie

/-- With its entries read a compilation can only fail in the collapse pass, at a name. -/
theorem Compilation.ofEntries_cases {entries : List PageEntry} (hentries : ∀ entry ∈ entries, entry.IsLabelled) :
    (¬ Trie.IsReadable entries ∧ (Compilation.ofEntries entries).result = .error .missingIndexPart) ∨
      (Trie.IsReadable entries ∧ ∃ forest, (Compilation.ofEntries entries).result = .ok forest) := by
  have hgoes := Trie.fault_collapse_eq_none_iff hentries (Trie.built_insertAll entries hentries) false
  rw [Compilation.ofEntries_result]
  change ((Compilation.build entries).1.collapse false).fault = none ↔ _ at hgoes
  cases hf : ((Compilation.build entries).1.collapse false).fault with
  | none => exact .inr ⟨hgoes.mp hf, _, rfl⟩
  | some fault =>
    obtain rfl := Forest.fault_collapse hf
    refine .inl ⟨fun hreadable => ?_, rfl⟩
    rw [hgoes.mpr hreadable] at hf
    cases hf

theorem Compilation.result_of_entries_eq_ok {layout : Layout} {files : List Text} {entries : List PageEntry}
    (he : Compilation.entries layout files = .ok entries) :
    (¬ Trie.IsReadable entries ∧ (compile layout files).result = .error .missingIndexPart) ∨
      (Trie.IsReadable entries ∧ ∃ forest, (compile layout files).result = .ok forest) := by
  rw [Compilation.compile_of_entries_eq_ok he]
  exact Compilation.ofEntries_cases (Compilation.isLabelled_of_entries he)

section

variable {layout : Layout} {files : List Text} (hnewline : ∀ file ∈ files, ∀ label ∈ layout.labels file, '\n' ∉ label)

include hnewline

/-- Where no label holds a newline all names can be read. -/
theorem Compilation.isReadable_of_labels {entries : List PageEntry} (he : Compilation.entries layout files = .ok entries) :
    Trie.IsReadable entries := by
  apply Trie.isReadable_of_not_mem
  intro entry hm
  obtain ⟨file, hfile, hread⟩ := (Compilation.mem_entries_iff he).mp hm
  rw [PageEntry.labels_of_ofFile hread]
  exact hnewline file hfile

/-- If its files are accepted, such a compilation returns, unless a component path would hold a null character. -/
theorem Compilation.compile_ends (haccepted : ∀ file ∈ files, (layout.keys file).isOk) :
    ((compile layout files).result = .error .nullInPath ∧ ∃ file ∈ files, layout.componentOf file = .error .nullInPath) ∨
      ∃ forest, (compile layout files).result = .ok forest := by
  cases he : Compilation.entries layout files with
  | error fault =>
    obtain ⟨file, hfile, hf⟩ := Compilation.entries_eq_error he
    rcases PageEntry.ofFile_eq_error hf with hk | hc
    · have hok := haccepted file hfile
      rw [hk] at hok
      cases hok
    · obtain rfl := Layout.componentOf_eq_error hc
      rw [Compilation.compile_of_entries_eq_error he]
      exact .inl ⟨rfl, file, hfile, hc⟩
  | ok entries =>
    rcases Compilation.result_of_entries_eq_ok he with ⟨hnot, -⟩ | ⟨-, hforest⟩
    · exact absurd (Compilation.isReadable_of_labels hnewline he) hnot
    · exact .inr hforest

end

end PageRouting
