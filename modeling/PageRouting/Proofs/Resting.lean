import Mathlib.Logic.Function.Iterate
import PageRouting.Proofs.ClosedForm
import PageRouting.Proofs.PassChanges
import PageRouting.Proofs.Wrappers

/-!
# `PageRouting/Proofs/Resting.lean` — forests that a pass leaves as they are

A collapse pass takes a slash, an ending and some question marks each time it comes by. There is nothing left for it exactly if
no name in the forest is that of an index route, no route with a child under the empty pattern has a name, and no pattern holds a
slash below the top level (`Forest.collapse_eq_self_iff`). Question marks need not be looked at, for without an index route no
pattern loses one; on the top level a pattern that holds one must begin with a slash.

One pass is enough to get there from a forest that insertion has built, as long as labels that end in the part `index` are those
of directory pages only. The name of a place is that of its labels, so the ending that a pass takes was put there by the last one,
and the one before it ends in no `index`. So compiled forests are at rest (`collapse_compiled_again`).
-/

set_option autoImplicit false

namespace PageRouting

/-! ## Routes and forests at rest -/

/-- Is there nothing on the route itself that a pass would change, if no route beside it has an index name? -/
structure Route.IsAtRest (isChild : Bool) (route : Route) : Prop where
  name : ∀ name, route.name = some name → IndexName.stem? name = none
  shown : Collapse.showsParent route.children → route.name = none
  slash : isChild = true → '/' ∉ route.path
  mark : isChild = false → '?' ∈ route.path → route.path.head? = some '/'

/-- Is no route of the forest one that a pass would change? -/
inductive Forest.IsAtRest : Bool → Forest → Prop
  | level {isChild : Bool} {forest : Forest} (here : ∀ route ∈ forest, route.IsAtRest isChild)
      (below : ∀ route ∈ forest, Forest.IsAtRest true route.children) : Forest.IsAtRest isChild forest

namespace IndexName

/-- A name with an ending loses it. -/
theorem length_lt_of_stem? {name rest : Text} (h : stem? name = some rest) : rest.length < name.length := by
  rcases stem?_eq_some_iff.mp h with _ | start <;> simp only [Segment.indexKey, ending, List.length_append, List.length_cons] <;> omega

theorem strip_eq_self_iff {name : Text} : strip name = name ↔ stem? name = none := by
  unfold strip
  cases h : stem? name with
  | none => simp
  | some rest =>
    have hne : rest ≠ name := by
      rintro rfl
      exact Nat.lt_irrefl _ (length_lt_of_stem? h)
    simp [hne]

/-- A level without index names. -/
theorem ofNames_eq_nil {names : List (Option Text)} (h : ∀ name, some name ∈ names → stem? name = none) :
    ofNames names = .ok [] := by
  have hreadable : ∀ name, some name ∈ names → ¬ IsUnreadable name := by
    intro name hm hbad
    obtain ⟨hstem, -⟩ := isUnreadable_iff.mp hbad
    rw [h name hm] at hstem
    cases hstem
  obtain ⟨indexes, hok⟩ := exists_ofNames_eq_ok_iff.mpr hreadable
  rw [hok, (eq_nil_iff_of_ofNames hok).mpr h]

end IndexName

namespace Collapse

/-- Without index names a pattern loses its slash below the top level, and on the top level the text in front of a slash. -/
theorem newPath_nil_eq_self_iff {isChild : Bool} {name : Option Text} {path : Text} :
    newPath [] isChild name path = path ↔
      (isChild = true → '/' ∉ path) ∧ (isChild = false → '?' ∈ path → path.head? = some '/') := by
  cases isChild with
  | true =>
    have hpath : newPath [] true name path = path.erase '/' := (loses_newPath [] name fun h => by cases h).2 rfl
    rw [hpath]
    simp [List.erase_eq_self_iff]
  | false =>
    constructor
    · intro hpath
      refine ⟨fun h => (by cases h), fun _ hmark => ?_⟩
      rw [newPath, if_neg Bool.false_ne_true, if_pos hmark, resolveOptional, if_neg Bool.false_ne_true] at hpath
      rw [← hpath]
      rfl
    · rintro ⟨-, hmark⟩
      exact (loses_newPath [] name hmark).2 rfl

/-- On a level without index names a route stays as it is if it is at rest, and what is below it stays as it is. -/
theorem route_value_eq_self_iff {isChild : Bool} {route : Route}
    (hname : ∀ name, route.name = some name → IndexName.stem? name = none) :
    (Collapse.route [] isChild route).value = route ↔
      route.IsAtRest isChild ∧ (Forest.collapse true route.children).value = route.children := by
  have hstrip : route.name.map IndexName.strip = route.name := by
    cases hn : route.name with
    | none => rfl
    | some name => rw [Option.map_some, IndexName.strip_eq_self_iff.mpr (hname name hn)]
  have hshown : (if showsParent route.children then none else route.name) = route.name ↔
      (showsParent route.children → route.name = none) := by
    by_cases hs : showsParent route.children
    · simp [hs, eq_comm]
    · simp [hs]
  have hvalue : (Collapse.route [] isChild route).value = route ↔
      (if showsParent route.children then none else route.name) = route.name ∧
        newPath [] isChild route.name route.path = route.path ∧
          (Forest.collapse true route.children).value = route.children := by
    rw [route_value, hstrip]
    obtain ⟨name, path, component, chunkName, children⟩ := route
    simp
  rw [hvalue, hshown, newPath_nil_eq_self_iff]
  constructor
  · rintro ⟨hshown, ⟨hslash, hmark⟩, hbelow⟩
    exact ⟨⟨hname, hshown, hslash, hmark⟩, hbelow⟩
  · rintro ⟨⟨-, hshown, hslash, hmark⟩, hbelow⟩
    exact ⟨hshown, ⟨hslash, hmark⟩, hbelow⟩

end Collapse

namespace Forest

/-- **A pass leaves a forest as it is exactly if the forest is at rest.** -/
theorem collapse_eq_self_iff {isChild : Bool} {forest : Forest} :
    (forest.collapse isChild).fault = none ∧ (forest.collapse isChild).value = forest ↔ IsAtRest isChild forest := by
  induction forest using levelInduct generalizing isChild with
  | level forest below =>
    constructor
    · intro ⟨hfault, hvalue⟩
      obtain ⟨indexes, hn, hbelow, hmap⟩ := collapse_eq_map hfault
      have hroute : ∀ route ∈ forest, (Collapse.route indexes isChild route).value = route :=
        List.map_inj_left.mp ((hvalue.symm.trans hmap).symm.trans (List.map_id forest).symm)
      -- a name that stays has no ending, so the level has no index names
      have hname : ∀ route ∈ forest, ∀ name, route.name = some name → IndexName.stem? name = none := by
        intro route hm name hname
        have hkept := congrArg Route.name (hroute route hm)
        rw [Collapse.route_value, hname] at hkept
        dsimp only at hkept
        split at hkept
        · cases hkept
        · exact IndexName.strip_eq_self_iff.mp (Option.some.inj hkept)
      have hnil : indexes = [] := by
        refine (IndexName.eq_nil_iff_of_ofNames hn).mpr fun name hm => ?_
        obtain ⟨route, hroute, hrname⟩ := List.mem_map.mp hm
        exact hname route hroute name hrname
      subst hnil
      refine .level (fun route hm => ?_) (fun route hm => ?_)
      · exact ((Collapse.route_value_eq_self_iff (hname route hm)).mp (hroute route hm)).1
      · exact (below route hm).mp ⟨hbelow route hm, ((Collapse.route_value_eq_self_iff (hname route hm)).mp (hroute route hm)).2⟩
    · rintro ⟨here, hbelow⟩
      have hn : IndexName.ofNames (forest.map Route.name) = .ok [] := by
        refine IndexName.ofNames_eq_nil fun name hm => ?_
        obtain ⟨route, hroute, hrname⟩ := List.mem_map.mp hm
        exact (here route hroute).name name hrname
      have hrest := fun route hm => (below route hm).mpr (hbelow route hm)
      obtain ⟨hfault, hvalue⟩ := collapse_of_ofNames isChild hn fun route hm => (hrest route hm).1
      refine ⟨hfault, hvalue.trans ?_⟩
      refine (List.map_congr_left fun route hm => ?_).trans (List.map_id forest)
      exact (Collapse.route_value_eq_self_iff (here route hm).name).mpr ⟨here route hm, (hrest route hm).2⟩

end Forest

/-! ## What one pass leaves of the patterns of page files -/

/-- A pass leaves no slash in the pattern of a segment but the one in front on the top level. -/
theorem Segment.newPath_contribution (indexes : List IndexName) (name : Option Text) {segment : Segment}
    (hslash : '/' ∉ segment.key) (hq : '?' ∉ segment.key) (position : Nat) (isLast : Bool) :
    (position ≠ 0 → '/' ∉ Collapse.newPath indexes true name (segment.contribution position isLast)) ∧
      (position = 0 → (Collapse.newPath indexes false name (segment.contribution position isLast)).head? = some '/') := by
  unfold contribution
  by_cases hindex : segment = .index ∧ isLast
  · rw [if_pos hindex]
    constructor
    · intro hbelow
      rw [if_neg hbelow]
      simp [Collapse.newPath]
    · intro htop
      rw [if_pos htop]
      rfl
  · rw [if_neg hindex]
    constructor
    · intro _
      have herase := erase_text hq
      rw [newPath_text indexes true name hslash hq, if_pos rfl, List.nil_append, ← herase]
      split
      · exact slash_not_mem_text hslash
      · exact fun hm => slash_not_mem_text hslash (List.mem_of_mem_erase hm)
    · intro _
      rw [newPath_text indexes false name hslash hq]
      rfl

/-! ## The settled trie -/

/-- Does the label make the name that it ends that of an index route? -/
def IsIndexLabel (label : Text) : Prop :=
  label = Segment.indexKey ∨ IndexName.ending <:+ label

instance : DecidablePred IsIndexLabel :=
  fun _ => inferInstanceAs (Decidable (_ ∨ _))

/-- Entries of which a pass can take no ending twice: they have readable keys, and labels like `index` end the entries that they are in. -/
structure PageEntry.EndsOnce (entry : PageEntry) : Prop where
  key : ∀ segment ∈ entry.segments, segment.key ≠ [] ∧ '/' ∉ segment.key ∧ '?' ∉ segment.key
  label : ∀ label ∈ entry.labels, label ≠ [] ∧ '\n' ∉ label
  index : ∀ above label below, entry.labels = above ++ label :: below → IsIndexLabel label →
    label = Segment.indexKey ∧ below = []

namespace Trie

variable {entries : List PageEntry} {place : List Text} {label : Text}

/-- A name that ends in another label is not that of an index route. -/
theorem stem?_routeName (hends : ∀ e ∈ entries, e.EndsOnce) (hr : (plan entries).reaches (place ++ [label]))
    (hlabel : ¬ IsIndexLabel label) : IndexName.stem? (routeName (place ++ [label])) = none := by
  obtain ⟨entry, hm, hp⟩ := hr
  obtain ⟨hne, hnewline⟩ := (hends entry hm).label label (hp.subset (by simp))
  rw [routeName_append]
  exact IndexName.stem?_extendName_label _ hne hnewline (fun h => hlabel (.inl h)) fun h => hlabel (.inr h)

/-- **One pass takes all that there is to take from a name.** -/
theorem stem?_strip_routeName (hends : ∀ e ∈ entries, e.EndsOnce) (hne : place ≠ []) (hr : (plan entries).reaches place) :
    IndexName.stem? (IndexName.strip (routeName place)) = none := by
  obtain ⟨above, label, rfl⟩ := (List.eq_nil_or_concat place).resolve_left hne
  rw [List.concat_eq_append] at hr ⊢
  by_cases hlabel : IsIndexLabel label
  · -- the ending is that of the last label, and what is left is the name of the place above
    obtain ⟨entry, hm, below, hbelow⟩ := hr
    obtain ⟨rfl, -⟩ := (hends entry hm).index above label below (by rw [← hbelow, List.append_assoc]; rfl) hlabel
    rw [routeName_append, IndexName.strip, IndexName.stem?_extendName_index, Option.getD_some]
    rcases List.eq_nil_or_concat above with rfl | ⟨start, last, rfl⟩
    · rfl
    · rw [List.concat_eq_append] at hbelow ⊢
      have hlabels : entry.labels = start ++ last :: (Segment.indexKey :: below) := by
        rw [← hbelow]
        simp
      refine stem?_routeName hends ⟨entry, hm, step_prefix_of_eq hlabels⟩ fun hlast => ?_
      have hnil := ((hends entry hm).index start last _ hlabels hlast).2
      cases hnil
  · have hnone := stem?_routeName hends hr hlabel
    rw [IndexName.strip_eq_self_iff.mpr hnone, hnone]

theorem isAtRest_node (hentries : ∀ e ∈ entries, e.IsLabelled) (hends : ∀ e ∈ entries, e.EndsOnce) {children : Forest}
    (hr : (plan entries).reaches (place ++ [label])) (hb : (settled entries).Built (place ++ [label]) children) :
    ((settled entries).node (place ++ [label]) children).IsAtRest (decide (place ≠ [])) := by
  have hkeys : ∀ e ∈ entries, ∀ segment ∈ e.segments, segment.key ≠ [] ∧ '/' ∉ segment.key ∧ '?' ∉ segment.key :=
    fun e hm => (hends e hm).key
  obtain ⟨entry, hm, segment, hsegment, isLast, -, hcontribution⟩ := exists_segment hr children
  obtain ⟨-, hslash, hq⟩ := hkeys entry hm segment hsegment
  have hpath : ((settled entries).node (place ++ [label]) children).path =
      Collapse.newPath (indexesBelow entries place) (decide (place ≠ [])) (some (routeName (place ++ [label])))
        (segment.contribution place.length isLast) := by
    rw [← hcontribution]
    simp only [settled, List.dropLast_concat]
  obtain ⟨hchild, htop⟩ := Segment.newPath_contribution (indexesBelow entries place)
    (some (routeName (place ++ [label]))) hslash hq place.length isLast
  refine ⟨fun name hname => ?_, fun hshown => ?_, fun hne => ?_, fun hnil _ => ?_⟩
  · simp only [settled] at hname
    split at hname
    · cases hname
    · rw [← Option.some.inj hname]
      exact stem?_strip_routeName hends (by simp) hr
  · have hempty := Collapse.showsParent_iff.mp hshown
    exact if_pos ((exists_settled_path_eq_nil_iff hentries hkeys (by simp) hb).mp hempty)
  · rw [hpath, hne]
    exact hchild (by simpa using hne)
  · rw [hpath, hnil]
    exact htop (by simpa using hnil)

/-- A guest has the name of its place, the empty pattern, and nothing below it. -/
theorem isAtRest_guest (hentries : ∀ e ∈ entries, e.IsLabelled) (hends : ∀ e ∈ entries, e.EndsOnce) {guest : Route}
    (hm : guest ∈ (settled entries).guests place) : guest.IsAtRest (decide (place ≠ [])) := by
  obtain ⟨before, hbefore, rfl⟩ := List.mem_map.mp hm
  obtain ⟨hne, hr, hname, hpath⟩ := reaches_of_mem_guests hentries hbefore
  have hchildren := (keepsChildren_plan entries).guests place before hbefore
  refine ⟨fun name hn => ?_, fun hshown => ?_, fun _ => ?_, fun hnil => ?_⟩
  · rw [hname, Option.map_some] at hn
    rw [← Option.some.inj hn]
    exact stem?_strip_routeName hends hne hr
  · rw [hchildren] at hshown
    cases hshown
  · rw [hpath]
    exact List.not_mem_nil
  · simp [hne] at hnil

/-- **The settled trie is at rest**, on every level. -/
theorem isAtRest_settled (hentries : ∀ e ∈ entries, e.IsLabelled) (hends : ∀ e ∈ entries, e.EndsOnce) {siblings : Forest}
    (h : (settled entries).Built place siblings) : Forest.IsAtRest (decide (place ≠ [])) siblings := by
  induction h with
  | @level place siblings steps nodup mem below perm ih =>
    refine .level (fun route hm => ?_) (fun route hm => ?_)
    · rcases List.mem_append.mp (perm.mem_iff.mp hm) with hm | hm
      · obtain ⟨step, hs, rfl⟩ := List.mem_map.mp hm
        exact isAtRest_node hentries hends ((mem step.1).mp (List.mem_map_of_mem hs)) (below step hs)
      · exact isAtRest_guest hentries hends hm
    · rcases List.mem_append.mp (perm.mem_iff.mp hm) with hm | hm
      · obtain ⟨step, hs, rfl⟩ := List.mem_map.mp hm
        have hrest := ih step hs
        rw [decide_eq_true (by simp)] at hrest
        exact hrest
      · rw [(keepsChildren_settled entries).guests place route hm]
        exact .level (by simp) (by simp)

end Trie

/-! ## Compiled forests -/

namespace Listing

/--
Are all files accepted, are their keys neither empty nor spelled with a question mark or a newline, and is a label that ends in
the part `index` only ever that of a directory's own page?
-/
structure IndexPagesOnly (listing : Listing) : Prop where
  accepted : ∀ file ∈ listing.files, (listing.layout.keys file).isOk
  key_ne_nil : ∀ file ∈ listing.files, ∀ key ∈ listing.keysOf file, key ≠ []
  key_chars : ∀ file ∈ listing.files, ∀ key ∈ listing.keysOf file, '?' ∉ key ∧ '\n' ∉ key
  index_last : ∀ file ∈ listing.files, ∀ key ∈ (listing.keysOf file).dropLast, ¬ IsIndexLabel (keyLabel key)
  index_key : ∀ file ∈ listing.files, ∀ key ∈ (listing.keysOf file).getLast?, IsIndexLabel (keyLabel key) → key = Segment.indexKey

variable {listing : Listing}

instance : Decidable listing.IndexPagesOnly :=
  decidable_of_iff
    ((∀ file ∈ listing.files, (listing.layout.keys file).isOk) ∧
      (∀ file ∈ listing.files, ∀ key ∈ listing.keysOf file, key ≠ []) ∧
      (∀ file ∈ listing.files, ∀ key ∈ listing.keysOf file, '?' ∉ key ∧ '\n' ∉ key) ∧
      (∀ file ∈ listing.files, ∀ key ∈ (listing.keysOf file).dropLast, ¬ IsIndexLabel (keyLabel key)) ∧
      ∀ file ∈ listing.files, ∀ key ∈ (listing.keysOf file).getLast?, IsIndexLabel (keyLabel key) → key = Segment.indexKey)
    ⟨fun ⟨accepted, ne_nil, chars, last, key⟩ => ⟨accepted, ne_nil, chars, last, key⟩,
      fun h => ⟨h.accepted, h.key_ne_nil, h.key_chars, h.index_last, h.index_key⟩⟩

theorem IndexPagesOnly.newline_not_mem_labels (h : listing.IndexPagesOnly) :
    ∀ file ∈ listing.files, ∀ label ∈ listing.layout.labels file, '\n' ∉ label := by
  intro file hfile label hlabel
  obtain ⟨key, hk, rfl⟩ := List.mem_map.mp hlabel
  exact newline_not_mem_keyLabel (h.key_chars file hfile key hk).2

theorem IndexPagesOnly.endsOnce (h : listing.IndexPagesOnly) {entries : List PageEntry}
    (he : Compilation.entries listing.layout listing.files = .ok entries) : ∀ entry ∈ entries, entry.EndsOnce := by
  intro entry hm
  obtain ⟨file, hfile, hread⟩ := (Compilation.mem_entries_iff he).mp hm
  refine ⟨fun segment hsegment => ?_, fun label hlabel => ?_, fun above label below hlabels hindex => ?_⟩
  · rw [segments_of_ofFile hread] at hsegment
    obtain ⟨key, hk, rfl⟩ := List.mem_map.mp hsegment
    rw [Segment.key_ofKey]
    exact ⟨h.key_ne_nil file hfile key hk, slash_not_mem_of_mem_keysOf hk, (h.key_chars file hfile key hk).1⟩
  · rw [labels_of_ofFile hread] at hlabel
    obtain ⟨key, hk, rfl⟩ := List.mem_map.mp hlabel
    exact ⟨keyLabel_ne_nil (h.key_ne_nil file hfile key hk), newline_not_mem_keyLabel (h.key_chars file hfile key hk).2⟩
  · rw [labels_of_ofFile hread] at hlabels
    obtain ⟨front, back, hkeys, -, hback⟩ := List.map_eq_append_iff.mp hlabels
    obtain ⟨key, rest, rfl, rfl, rfl⟩ := List.map_eq_cons_iff.mp hback
    have hrest : rest = [] := by
      by_contra hne
      refine h.index_last file hfile key ?_ hindex
      rw [hkeys, List.dropLast_append_of_ne_nil (List.cons_ne_nil _ _), List.dropLast_cons_of_ne_nil hne]
      simp
    subst hrest
    have hlast : key ∈ (listing.keysOf file).getLast? := by
      rw [hkeys, List.getLast?_concat]
      rfl
    rw [h.index_key file hfile key hlast hindex]
    exact ⟨rfl, rfl⟩

/--
**A compiled forest does not change when it is collapsed again**, however often, if labels that end in the part `index` are those
of directory pages only. Names may be taken twice, and pages may be nested under them. Only a null character in a component path
keeps such a listing from being compiled.
-/
theorem collapse_compiled_again (listing : Listing) (h : listing.IndexPagesOnly) :
    (∃ forest, (compile listing.layout listing.files).result = .ok forest ∧
        (forest.collapse false).fault = none ∧ (forest.collapse false).value = forest ∧
        ∀ passes, (fun forest => (Forest.collapse false forest).value)^[passes] forest = forest) ∨
      ((compile listing.layout listing.files).result = .error .nullInPath ∧
        ∃ file ∈ listing.files, listing.layout.componentOf file = .error .nullInPath) := by
  rcases Compilation.compile_ends h.newline_not_mem_labels h.accepted with hnull | ⟨forest, hc⟩
  · exact .inr hnull
  · obtain ⟨entries, he, hentries, -, hbuilt⟩ := Trie.built_of_compile hc
    obtain ⟨hfault, hvalue⟩ := Forest.collapse_eq_self_iff.mpr (Trie.isAtRest_settled hentries (h.endsOnce he) hbuilt)
    exact .inl ⟨forest, hc, hfault, hvalue, fun passes => Function.iterate_fixed hvalue passes⟩

/-- A directory with two pages of its own, a parameter beside them and one that stands alone, and a name that is taken twice. -/
def doubles : Listing where
  layout := ⟨"/srv".toList, Layout.defaultPagesDir, Layout.defaultExtensions, .posix⟩
  files := ["pages/a/index.vue".toList, "pages/a/index.js".toList, "pages/a/_id.vue".toList, "pages/b.vue".toList,
    "pages/_b.vue".toList, "pages/index.vue".toList, "pages/c/_x/d.vue".toList]

theorem collapse_compiled_again_doubles : doubles.IndexPagesOnly ∧
    ((compile doubles.layout doubles.files).result.map fun forest => forest.nodes.map fun node => (node.name, node.path)) =
      .ok [(none, "/a".toList), (none, []), (some "a".toList, []), (some "a-id".toList, ":id".toList), (some "c".toList, "/c".toList),
        (some "c-x".toList, ":x?".toList), (some "c-x-d".toList, ['d']), (some [], ['/']), (none, "/:b".toList), (some ['b'], [])] ∧
    ∃ forest, (compile doubles.layout doubles.files).result = .ok forest ∧
      (forest.collapse false).fault = none ∧ (forest.collapse false).value = forest := by
  have hpages : doubles.IndexPagesOnly := by decide +kernel
  have hreadable : ∀ file ∈ doubles.files, doubles.layout.componentOf file ≠ .error .nullInPath := by decide +kernel
  refine ⟨hpages, by decide +kernel, ?_⟩
  rcases collapse_compiled_again doubles hpages with ⟨forest, hc, hfault, hvalue, -⟩ | ⟨-, file, hfile, hnull⟩
  · exact ⟨forest, hc, hfault, hvalue⟩
  · exact absurd hnull (hreadable file hfile)

end Listing

end PageRouting
