import PageRouting.Proofs.ClosedForm

/-!
# `PageRouting/Proofs/Requiring.lean` — which parameters of a compiled forest are required

Every parameter comes out of insertion optional. Whether the collapse makes it required is decided by the names of its siblings
alone: one of them has to end in the part `index`. Most often that is the page of the directory. But a directory that is itself
called `index` has such a name as well, and so has every page whose own name ends like that.

In a clean listing the names of siblings extend one name by different labels, so it is the labels of the keys that follow a
place which decide about the parameters there (`Clean.indexesBelow_eq_nil_iff`). Nothing is asked of where `index` stands, so
the closed form of plain listings is not to be had here. The settled trie is, read by keys (`Clean.built_settled`).
-/

set_option autoImplicit false

namespace PageRouting

/-- A name that a label extends is taken for that of an index route if the label ends in the part `index`. -/
theorem IndexName.isSome_stem?_extendName {label : Text} (name : Text)
    (h : label = Segment.indexKey ∨ ending <:+ label) : (stem? (Forest.extendName name label)).isSome := by
  rcases h with rfl | hending
  · rw [stem?_extendName_index]
    rfl
  · have hsuffix : label <:+ Forest.extendName name label := by
      unfold Forest.extendName
      split
      · exact List.suffix_refl _
      · exact (List.suffix_cons _ _).trans (List.suffix_append _ _)
    exact isSome_stem?_iff.mpr (.inl (.inr (hending.trans hsuffix)))

namespace Listing

variable (listing : Listing)

/-- The compiled forest by keys: the settled trie, with keys in the place of their labels. -/
def settled (entries : List PageEntry) : Plan Text where
  reaches := listing.Reaches
  node place := (Trie.settled entries).node (place.map keyLabel)

/-- Does the label of some key that follows a place end in the part `index`? -/
def HasIndexBelow (above : List Text) : Prop :=
  ∃ key, listing.Reaches (above ++ [key]) ∧ (keyLabel key = Segment.indexKey ∨ IndexName.ending <:+ keyLabel key)

variable {listing} {entries : List PageEntry} {above : List Text}

theorem Clean.built_settled (h : listing.Clean) (he : Compilation.entries listing.layout listing.files = .ok entries)
    {forest : Forest} (hb : (Trie.settled entries).Built [] forest) : (listing.settled entries).Built [] forest := by
  have hreaches : ∀ place b, listing.Inside place →
      ((Trie.settled entries).reaches (place.map keyLabel ++ [b]) ↔ ∃ a, listing.Reaches (place ++ [a]) ∧ keyLabel a = b) :=
    fun place b hin => h.reaches_labels he hin b
  refine Plan.Built.relabel keyLabel listing.Inside (fun place a _ hr => .inr hr) hreaches
    (fun place a a' _ ha ha' => h.label_injective place a a' ha ha') (fun place a children _ _ => ?_) (fun place hin => ?_)
    (.inl rfl) hb
  · simp only [settled, List.map_append, List.map_singleton]
  · obtain ⟨-, -, hguests⟩ := h.page_of_entries he hin
    simp only [Trie.settled, Trie.plan, hguests, List.map_nil]
    rfl

theorem Clean.indexesBelow_eq_nil_iff (h : listing.Clean)
    (he : Compilation.entries listing.layout listing.files = .ok entries) (hin : listing.Inside above) :
    Trie.indexesBelow entries (above.map keyLabel) = [] ↔ ¬ listing.HasIndexBelow above := by
  obtain ⟨-, -, hguests⟩ := h.page_of_entries he hin
  have hnames : ∀ name, some name ∈ Trie.namesBelow entries (above.map keyLabel) ↔
      ∃ key, listing.Reaches (above ++ [key]) ∧ Forest.extendName (Trie.routeName (above.map keyLabel)) (keyLabel key) = name := by
    intro name
    have hnone : (Trie.plan entries).guests (above.map keyLabel) = [] := by simp only [Trie.plan, hguests, List.map_nil]
    simp only [Trie.namesBelow, hnone, List.map_nil, List.append_nil, List.mem_map, Trie.mem_steps,
      h.reaches_labels he hin, Trie.routeName_append, Option.some.injEq]
    constructor
    · rintro ⟨_, ⟨key, hr, rfl⟩, hname⟩
      exact ⟨key, hr, hname⟩
    · rintro ⟨key, hr, hname⟩
      exact ⟨keyLabel key, ⟨key, hr, rfl⟩, hname⟩
  -- without a newline in a label, a name has the ending only from its last label
  rw [Trie.indexesBelow_eq_nil_iff (h.isLabelled he) (h.isReadable he)]
  constructor
  · rintro hnone ⟨key, hr, hindex⟩
    have hsome := IndexName.isSome_stem?_extendName (Trie.routeName (above.map keyLabel)) hindex
    rw [hnone _ ((hnames _).mpr ⟨key, hr, rfl⟩)] at hsome
    cases hsome
  · intro hnone name hm
    obtain ⟨key, hr, rfl⟩ := (hnames name).mp hm
    have hkey : IsCleanKey key := h.isCleanKey hr (by simp)
    apply IndexName.stem?_extendName_label _ hkey.label_ne_nil hkey.newline_not_mem_label
    · exact fun hindex => hnone ⟨key, hr, .inl hindex⟩
    · exact fun hending => hnone ⟨key, hr, .inr hending⟩

/-- The pattern of a parameter: its token is required or optional, behind a slash at the top level. -/
theorem Clean.path_settled (h : listing.Clean) (he : Compilation.entries listing.layout listing.files = .ok entries)
    {name : Text} (hne : name ≠ []) (hr : listing.Reaches (above ++ ['_' :: name])) (children : Forest) :
    ((listing.settled entries).node (above ++ ['_' :: name]) children).path =
      (if above = [] then ['/'] else []) ++
        if Trie.indexesBelow entries (above.map keyLabel) = [] then ':' :: name ++ ['?'] else ':' :: name := by
  obtain ⟨first, hfirst, -, -, below, -, hcontribution⟩ := h.firstThrough he hr
  have hsegment : Segment.ofKey ('_' :: name) = .param name := by simp [Segment.ofKey, hne]
  have hkey : IsCleanKey ('_' :: name) := h.isCleanKey hr (by simp)
  have hslash : '/' ∉ (Segment.param name).key := fun hm => hkey.not_mem _ hm (by simp)
  have hq : '?' ∉ (Segment.param name).key := fun hm => hkey.not_mem _ hm (by simp)
  have hpath : first.contributionAt above.length = '/' :: (Segment.param name).token.text := by
    rw [hcontribution, hsegment]
    rfl
  have hlead : (if decide (above.map keyLabel ≠ []) then [] else ['/']) = if above = [] then ['/'] else ([] : Text) := by
    cases above <;> simp
  rw [List.map_append, List.map_singleton] at hfirst
  simp only [settled, Trie.settled, Trie.plan, List.map_append, List.map_singleton, List.dropLast_concat, hfirst,
    Option.map_some, Option.getD_some, List.length_append, List.length_map, List.length_singleton, Nat.add_sub_cancel, hpath]
  rw [Segment.newPath_text _ _ _ hslash hq, hlead]
  simp [Segment.token, Token.text, Segment.required]

/--
**A parameter is required exactly if some key beside it ends in the part `index`.** The compiled forest of a clean listing has
one route for each place that a file reaches. At a parameter its token is `:name` if a key that follows the same place has a
label that is `index` or ends in `-index`, be it the key of a page or of a directory, and `:name?` if there is none. Only a
null character in a component path keeps a clean listing from being compiled.
-/
theorem param_tokens (listing : Listing) (h : listing.Clean) :
    (∃ forest entries, (compile listing.layout listing.files).result = .ok forest ∧
        Compilation.entries listing.layout listing.files = .ok entries ∧ (listing.settled entries).Built [] forest ∧
        ∀ above name children, name ≠ [] → listing.Reaches (above ++ ['_' :: name]) →
          (listing.HasIndexBelow above → ((listing.settled entries).node (above ++ ['_' :: name]) children).path =
            (if above = [] then ['/'] else []) ++ ':' :: name) ∧
          (¬ listing.HasIndexBelow above → ((listing.settled entries).node (above ++ ['_' :: name]) children).path =
            (if above = [] then ['/'] else []) ++ ':' :: name ++ ['?'])) ∨
      ((compile listing.layout listing.files).result = .error .nullInPath ∧
        ∃ file ∈ listing.files, listing.layout.componentOf file = .error .nullInPath) := by
  rcases h.compile_ends with hnull | ⟨forest, hc⟩
  · exact .inr hnull
  · obtain ⟨entries, he, -, -, hbuilt⟩ := Trie.built_of_compile hc
    refine .inl ⟨forest, entries, hc, he, h.built_settled he hbuilt, fun above name children hne hr => ?_⟩
    have hin : listing.Inside above := Inside.of_prefix (.inr hr) (List.prefix_append _ _)
    have hindexes := h.indexesBelow_eq_nil_iff he hin
    rw [h.path_settled he hne hr]
    constructor
    · intro hbelow
      rw [if_neg fun hnil => hindexes.mp hnil hbelow]
    · intro hnone
      rw [if_pos (hindexes.mpr hnone), List.append_assoc]

/-- A parameter beside a directory called `index`, and one that has nothing beside it. -/
def manual : Listing where
  layout := ⟨"/srv/app".toList, Layout.defaultPagesDir, Layout.defaultExtensions, .posix⟩
  files := ["pages/index/about.vue".toList, "pages/_x.vue".toList, "pages/b/_y.vue".toList]

/-- No file of the listing is the page of the top directory, and its parameter is required all the same. -/
theorem param_required_without_page :
    manual.Clean ∧ manual.Reaches [['_', 'x']] ∧ ¬ manual.HasPage [Segment.indexKey] ∧
      ((compile manual.layout manual.files).result.map fun forest => forest.map fun route => (route.chunkName, route.path)) =
        .ok [(none, "/b".toList), (none, "/index".toList), (some "pages/_x".toList, "/:x".toList)] := by
  refine ⟨by decide +kernel, ?_, by decide +kernel, by decide +kernel⟩
  exact mem_places.mp (by decide +kernel)

theorem param_tokens_manual : manual.Clean ∧
    ∃ forest entries, (compile manual.layout manual.files).result = .ok forest ∧ (manual.settled entries).Built [] forest ∧
      ((manual.settled entries).node [['_', 'x']] []).path = ['/', ':', 'x'] ∧
      ((manual.settled entries).node [['b'], ['_', 'y']] []).path = [':', 'y', '?'] := by
  have hclean : manual.Clean := by decide +kernel
  have hreadable : ∀ file ∈ manual.files, manual.layout.componentOf file ≠ .error .nullInPath := by decide +kernel
  rcases param_tokens manual hclean with ⟨forest, entries, hc, -, hbuilt, htokens⟩ | ⟨-, file, hfile, hnull⟩
  · refine ⟨hclean, forest, entries, hc, hbuilt, ?_, ?_⟩
    · have hr : manual.Reaches ([] ++ [['_', 'x']]) := mem_places.mp (by decide +kernel)
      have hindex : manual.HasIndexBelow [] := ⟨Segment.indexKey, mem_places.mp (by decide +kernel), .inl (by decide)⟩
      exact (htokens [] ['x'] [] (by decide) hr).1 hindex
    · have hr : manual.Reaches ([['b']] ++ [['_', 'y']]) := mem_places.mp (by decide +kernel)
      have hnone : ¬ manual.HasIndexBelow [['b']] := by
        rintro ⟨key, hkey, hindex⟩
        have hall : ∀ place ∈ manual.places, place.dropLast = [['b']] →
            keyLabel (place.getLastD []) ≠ Segment.indexKey ∧ ¬ IndexName.ending <:+ keyLabel (place.getLastD []) := by
          decide +kernel
        have hlast := hall _ (mem_places.mpr hkey) (by simp)
        rw [List.getLastD_concat] at hlast
        exact hindex.elim hlast.1 hlast.2
      exact (htokens [['b']] ['y'] [] (by decide) hr).2 hnone
  · exact absurd hnull (hreadable file hfile)

end Listing

end PageRouting
