import PageRouting.Proofs.Listing
import PageRouting.Proofs.Settling

/-!
# `PageRouting/Proofs/ClosedForm.lean` — the compiled forest of a plain listing

A compilation merges page files into routes one after another and then changes patterns and names as it finds index routes.
For a plain listing all this comes to a form that can be written down at once (`Listing.plan`): one route for each place
that a file reaches, whose pattern is the token of the last key, and whose name is made of the labels of all keys.

The proof has two halves. The forest before its collapse is that of `Listing.rawPlan`, which is the trie of labels
(`Trie.built_insertAll`) read by keys. And a collapse pass turns a forest that is built to the one plan into a forest that
is built to the other (`Plain.settles`), level by level.
-/

set_option autoImplicit false

namespace PageRouting

namespace Listing

variable (listing : Listing)

/-! ## The closed form -/

/-- The file with exactly these keys. -/
def page? (keys : List Text) : Option Text :=
  listing.files.find? fun file => listing.keysOf file = keys

/--
The token of a key below others: a parameter is required where the directory has a page of its own, and optional
otherwise.
-/
def token (above : List Text) (key : Text) : Text :=
  match Segment.ofKey key with
  | .static key => key
  | .index => []
  | .param name => ':' :: name ++ if listing.HasPage (above ++ [Segment.indexKey]) then [] else ['?']
  | .catchAll => ['*']

/-- The pattern at a place: the token of its last key, behind a slash at the top level. -/
def path (place : List Text) : Text :=
  (if place.length = 1 then ['/'] else []) ++ listing.token place.dropLast (place.getLastD [])

/-- The keys without a final `index`. -/
def withoutIndex (keys : List Text) : List Text :=
  if keys.getLast? = some Segment.indexKey then keys.dropLast else keys

/-- The name at a place: its labels without a final `index`, or none if the directory's own page is shown there. -/
def name (place : List Text) : Option Text :=
  if listing.HasPage (place ++ [Segment.indexKey]) then none
  else some (Text.join '-' ((withoutIndex place).map keyLabel))

/-- The route at a place, with the page of the file that has exactly these keys. -/
def node (place : List Text) (children : Forest) : Route where
  name := listing.name place
  path := listing.path place
  component := (listing.page? place).bind fun file => (listing.layout.componentOf file).toOption
  chunkName := (listing.page? place).bind (Layout.stem? listing.layout.extensions)
  children := children

/-- The compiled forest: a route at every place that is reached. -/
def plan : Plan Text where
  reaches := listing.Reaches
  node := listing.node

/-- The forest before its collapse: every parameter is optional, and names and patterns are those of insertion. -/
def rawPlan : Plan Text where
  reaches := listing.Reaches
  node place children :=
    { listing.node place children with
      name := Trie.routeName (place.map keyLabel)
      path := (Segment.ofKey (place.getLastD [])).contribution (place.length - 1) true }

/-! ## Entries of a clean listing -/

variable {listing} {entries : List PageEntry}

theorem labels_of_ofFile {file : Text} {entry : PageEntry} (h : PageEntry.ofFile listing.layout file = .ok entry) :
    entry.labels = (listing.keysOf file).map keyLabel :=
  PageEntry.labels_of_ofFile h

theorem segments_of_ofFile {file : Text} {entry : PageEntry} (h : PageEntry.ofFile listing.layout file = .ok entry) :
    entry.segments = (listing.keysOf file).map Segment.ofKey := by
  obtain ⟨keys, component, hk, -, rfl⟩ := PageEntry.ofFile_eq_ok_iff.mp h
  rw [keysOf_of_keys hk]

theorem Clean.isLabelled (h : listing.Clean) (he : Compilation.entries listing.layout listing.files = .ok entries) :
    ∀ entry ∈ entries, entry.IsLabelled := by
  intro entry hm
  obtain ⟨file, hfile, hread⟩ := (Compilation.mem_entries_iff he).mp hm
  refine ⟨fun hnil => h.keysOf_ne_nil hfile ?_, fun {above label below} hl _ => ?_⟩
  · rwa [segments_of_ofFile hread, List.map_eq_nil_iff] at hnil
  · have hlabel : label ∈ entry.labels := by
      rw [hl]
      simp
    rw [labels_of_ofFile hread] at hlabel
    obtain ⟨key, hk, rfl⟩ := List.mem_map.mp hlabel
    exact (h.isCleanKey ⟨file, hfile, List.prefix_refl _⟩ hk).label_ne_nil

theorem page?_eq_some {keys : List Text} {file : Text} (h : listing.page? keys = some file) :
    file ∈ listing.files ∧ listing.keysOf file = keys :=
  ⟨List.mem_of_find?_eq_some h, by simpa using List.find?_some h⟩

/-- The entries that end at a place are as many as there are files with these keys: none or one. -/
theorem Clean.endingAt (h : listing.Clean) (he : Compilation.entries listing.layout listing.files = .ok entries)
    {place : List Text} (hp : listing.Inside place) :
    match listing.page? place with
    | none => Trie.endingAt entries (place.map keyLabel) = []
    | some file => ∃ entry, PageEntry.ofFile listing.layout file = .ok entry ∧
        Trie.endingAt entries (place.map keyLabel) = [entry] := by
  have hends : ∀ entry ∈ Trie.endingAt entries (place.map keyLabel), ∃ file ∈ listing.files,
      PageEntry.ofFile listing.layout file = .ok entry ∧ listing.keysOf file = place := by
    intro entry hm
    obtain ⟨hentry, hl⟩ := List.mem_filter.mp hm
    obtain ⟨file, hfile, hread⟩ := (Compilation.mem_entries_iff he).mp hentry
    have hl := of_decide_eq_true hl
    rw [labels_of_ofFile hread] at hl
    exact ⟨file, hfile, hread, h.eq_of_labels (.inr ⟨file, hfile, List.prefix_refl _⟩) hp hl⟩
  cases hf : listing.page? place with
  | none =>
    refine List.eq_nil_iff_forall_not_mem.mpr fun entry hm => ?_
    obtain ⟨file, hfile, -, hk⟩ := hends entry hm
    exact List.find?_eq_none.mp hf file hfile (decide_eq_true hk)
  | some file =>
    obtain ⟨hfile, hk⟩ := page?_eq_some hf
    obtain ⟨entry, hentry, hread⟩ := Compilation.exists_entry he hfile
    have hnodup : entries.Nodup :=
      .of_map PageEntry.file ((Compilation.files_of_entries he).nodup_iff.mpr (Text.distinct_nodup _))
    refine ⟨entry, hread, List.perm_singleton.mp ?_⟩
    refine (List.perm_ext_iff_of_nodup (hnodup.filter _) (List.nodup_singleton _)).mpr fun other => ?_
    rw [List.mem_singleton]
    constructor
    · intro hm
      obtain ⟨file', hfile', hread', hk'⟩ := hends other hm
      obtain rfl := h.keys_injective file' hfile' file hfile (hk'.trans hk.symm)
      exact Except.ok.inj (hread'.symm.trans hread)
    · rintro rfl
      refine List.mem_filter.mpr ⟨hentry, decide_eq_true ?_⟩
      rw [labels_of_ofFile hread, hk]

theorem Clean.page_of_entries (h : listing.Clean) (he : Compilation.entries listing.layout listing.files = .ok entries)
    {place : List Text} (hp : listing.Inside place) :
    (Trie.endingAt entries (place.map keyLabel)).head?.map PageEntry.component =
        ((listing.page? place).bind fun file => (listing.layout.componentOf file).toOption) ∧
      (Trie.endingAt entries (place.map keyLabel)).head?.bind PageEntry.chunkName =
        (listing.page? place).bind (Layout.stem? listing.layout.extensions) ∧
      (Trie.endingAt entries (place.map keyLabel)).tail = [] := by
  have hends := h.endingAt he hp
  cases hf : listing.page? place with
  | none =>
    rw [hf] at hends
    rw [hends]
    exact ⟨rfl, rfl, rfl⟩
  | some file =>
    rw [hf] at hends
    obtain ⟨entry, hread, hone⟩ := hends
    obtain ⟨keys, component, -, hc, rfl⟩ := PageEntry.ofFile_eq_ok_iff.mp hread
    rw [hone]
    exact ⟨by simp [hc, Except.toOption], rfl, rfl⟩

/-! ## The forest before its collapse -/

/-- The first entry that reaches a place is that of a file with the keys of the place, since its labels tell them. -/
theorem Clean.firstThrough (h : listing.Clean) (he : Compilation.entries listing.layout listing.files = .ok entries)
    {place : List Text} {key : Text} (hr : listing.Reaches (place ++ [key])) :
    ∃ entry, Trie.firstThrough entries ((place ++ [key]).map keyLabel) = some entry ∧
      ∃ file ∈ listing.files, ∃ below, listing.keysOf file = place ++ key :: below ∧
        entry.contributionAt place.length = (Segment.ofKey key).contribution place.length (decide (below = [])) := by
  obtain ⟨file, hfile, hprefix⟩ := hr
  obtain ⟨entry, hentry, hread⟩ := Compilation.exists_entry he hfile
  cases hf : Trie.firstThrough entries ((place ++ [key]).map keyLabel) with
  | none =>
    refine absurd (List.find?_eq_none.mp hf entry hentry) (not_not_intro (decide_eq_true ?_))
    rw [labels_of_ofFile hread]
    exact hprefix.map _
  | some first =>
    -- this may be the entry of another file, but by its labels that file passes the same place
    obtain ⟨hfirst, hlabels⟩ := Trie.firstThrough_eq_some hf
    obtain ⟨file', hfile', hread'⟩ := (Compilation.mem_entries_iff he).mp hfirst
    rw [labels_of_ofFile hread', List.prefix_map_iff] at hlabels
    obtain ⟨place', hplace', hmap⟩ := hlabels
    obtain rfl := h.eq_of_labels (.inr ⟨file, hfile, hprefix⟩) (.inr ⟨file', hfile', hplace'⟩) hmap
    obtain ⟨below, hk⟩ := hplace'
    rw [List.append_assoc, List.singleton_append] at hk
    have hsegments : first.segments = place.map Segment.ofKey ++ Segment.ofKey key :: below.map Segment.ofKey := by
      rw [segments_of_ofFile hread', ← hk, List.map_append, List.map_cons]
    have hcontribution := Trie.contributionAt_of_segments hsegments
    simp only [List.length_map, List.map_eq_nil_iff] at hcontribution
    exact ⟨first, rfl, file', hfile', below, hk.symm, hcontribution⟩

/-- An index key is the last one of its file, so what a key adds to a pattern does not depend on who adds it. -/
theorem Plain.firstThrough (h : listing.Plain) (he : Compilation.entries listing.layout listing.files = .ok entries)
    {place : List Text} {key : Text} (hr : listing.Reaches (place ++ [key])) :
    ∃ entry, Trie.firstThrough entries ((place ++ [key]).map keyLabel) = some entry ∧
      entry.contributionAt place.length = (Segment.ofKey key).contribution place.length true := by
  obtain ⟨entry, hentry, file, hfile, below, hk, hcontribution⟩ := h.toClean.firstThrough he hr
  refine ⟨entry, hentry, ?_⟩
  rw [hcontribution]
  by_cases hindex : key = Segment.indexKey
  · subst hindex
    have hbelow : below = [] := by
      have hall := h.keysOf_eq_of_index hfile (step_prefix_of_eq hk)
      rw [hk, List.append_cancel_left_eq] at hall
      exact (List.cons.inj hall).2
    simp [hbelow]
  · have hne : Segment.ofKey key ≠ .index := fun ho => hindex (Segment.ofKey_injective ho)
    rw [Segment.contribution_of_ne_index hne, Segment.contribution_of_ne_index hne]

/-- A step leads on in the trie of labels exactly if it is the label of a key that leads on. -/
theorem Clean.reaches_labels (h : listing.Clean) (he : Compilation.entries listing.layout listing.files = .ok entries)
    {place : List Text} (hin : listing.Inside place) (b : Text) :
    (Trie.plan entries).reaches (place.map keyLabel ++ [b]) ↔ ∃ a, listing.Reaches (place ++ [a]) ∧ keyLabel a = b := by
  constructor
  · rintro ⟨entry, hm, hp⟩
    obtain ⟨file, hfile, hread⟩ := (Compilation.mem_entries_iff he).mp hm
    rw [labels_of_ofFile hread] at hp
    obtain ⟨other, hother, hmap⟩ := List.prefix_map_iff.mp hp
    obtain ⟨place', last, rfl, hplace, hlast⟩ := List.map_eq_append_iff.mp hmap.symm
    obtain ⟨a, rfl, rfl⟩ := List.map_eq_singleton_iff.mp hlast
    have hin' : listing.Inside place' := .inr ⟨file, hfile, (List.prefix_append _ _).trans hother⟩
    obtain rfl := h.eq_of_labels hin hin' hplace.symm
    exact ⟨a, ⟨file, hfile, hother⟩, rfl⟩
  · rintro ⟨a, ⟨file, hfile, hp⟩, rfl⟩
    obtain ⟨entry, hm, hread⟩ := Compilation.exists_entry he hfile
    have hlabel : (place ++ [a]).map keyLabel <+: (listing.keysOf file).map keyLabel := hp.map _
    rw [List.map_append, ← labels_of_ofFile hread] at hlabel
    exact ⟨entry, hm, hlabel⟩

/-- **Before its collapse the forest of a plain listing is built to the raw plan**: the trie of labels, read by keys. -/
theorem Plain.built_raw (h : listing.Plain) (he : Compilation.entries listing.layout listing.files = .ok entries) :
    listing.rawPlan.Built [] (Compilation.build entries).1 := by
  refine Plan.Built.relabel keyLabel listing.Inside (fun place a _ hr => .inr hr)
    (fun place b hin => h.reaches_labels he hin b) (fun place a a' _ ha ha' => h.label_injective place a a' ha ha')
    (fun place a children _ hr => ?_) (fun place hin => ?_) (.inl rfl) (Trie.built_insertAll entries (h.isLabelled he))
  · obtain ⟨first, hfirst, hcontribution⟩ := h.firstThrough he hr
    have hin : listing.Inside (place ++ [a]) := .inr hr
    obtain ⟨hcomponent, hchunk, -⟩ := h.page_of_entries he hin
    rw [List.map_append, List.map_singleton] at hfirst hcomponent hchunk
    simp only [Trie.plan, rawPlan, node, List.map_append, List.map_singleton, hfirst, hcomponent, hchunk]
    simp [hcontribution]
  · obtain ⟨-, -, hguests⟩ := h.page_of_entries he hin
    simp only [Trie.plan, rawPlan, hguests, List.map_nil]

/-! ## The collapse -/

theorem routeName_keys (place : List Text) (key : Text) :
    Trie.routeName ((place ++ [key]).map keyLabel) = Forest.extendName (Trie.routeName (place.map keyLabel)) (keyLabel key) := by
  rw [List.map_append, List.map_singleton, Trie.routeName_append]

/-- No name but that of a directory's own page is taken for the name of an index route. -/
theorem Plain.stem?_eq_none (h : listing.Plain) {place : List Text} {key : Text} (hr : listing.Reaches (place ++ [key]))
    (hindex : key ≠ Segment.indexKey) : IndexName.stem? (Trie.routeName ((place ++ [key]).map keyLabel)) = none := by
  have hkey : IsCleanKey key := h.isCleanKey hr (by simp)
  obtain ⟨file, hfile, hp⟩ := hr
  obtain ⟨hlabel, hending⟩ := h.label_not_index file hfile key (hp.subset (by simp)) hindex
  rw [routeName_keys]
  exact IndexName.stem?_extendName_label _ hkey.label_ne_nil hkey.newline_not_mem_label hlabel hending

theorem Plain.strip_routeName (h : listing.Plain) {place : List Text} {key : Text} (hr : listing.Reaches (place ++ [key])) :
    IndexName.strip (Trie.routeName ((place ++ [key]).map keyLabel)) =
      Text.join '-' ((withoutIndex (place ++ [key])).map keyLabel) := by
  have hlabels : ∀ label ∈ (place ++ [key]).map keyLabel, label ≠ [] := by
    intro label hm
    obtain ⟨k, hk, rfl⟩ := List.mem_map.mp hm
    exact (h.isCleanKey hr hk).label_ne_nil
  have hmap : (place ++ [key]).map keyLabel = place.map keyLabel ++ [keyLabel key] := List.map_append
  by_cases hindex : key = Segment.indexKey
  · subst hindex
    have habove : ∀ label ∈ place.map keyLabel, label ≠ [] := fun label hm =>
      hlabels label (hmap ▸ List.mem_append_left _ hm)
    have hkey : keyLabel Segment.indexKey = Segment.indexKey := by decide
    have hwithout : withoutIndex (place ++ [Segment.indexKey]) = place := by simp [withoutIndex]
    rw [hmap, Trie.routeName_append, hkey, IndexName.strip, IndexName.stem?_extendName_index, hwithout,
      Trie.routeName_eq_join habove]
    rfl
  · have hstem := h.stem?_eq_none hr hindex
    have hwithout : withoutIndex (place ++ [key]) = place ++ [key] := by simp [withoutIndex, hindex]
    rw [IndexName.strip, hstem, hwithout, Trie.routeName_eq_join hlabels]
    rfl

theorem Plain.newPath (h : listing.Plain) {place : List Text} {key : Text} (hr : listing.Reaches (place ++ [key]))
    {indexes : List IndexName}
    (hindexes : indexes = [] ↔ ¬ listing.HasPage (place ++ [Segment.indexKey])) (name : Option Text) :
    Collapse.newPath indexes (decide (place ≠ [])) name ((Segment.ofKey key).contribution place.length true) =
      listing.path (place ++ [key]) := by
  have hkey : IsCleanKey key := h.isCleanKey hr (by simp)
  have hlead : (if decide (place ≠ []) then [] else ['/']) = if (place ++ [key]).length = 1 then ['/'] else ([] : Text) := by
    cases place <;> simp
  have hslash : '/' ∉ (Segment.ofKey key).key := by
    rw [Segment.key_ofKey]
    exact fun hm => hkey.not_mem _ hm (by simp)
  have hq : '?' ∉ (Segment.ofKey key).key := by
    rw [Segment.key_ofKey]
    exact fun hm => hkey.not_mem _ hm (by simp)
  have htext := Segment.newPath_text indexes (decide (place ≠ [])) name hslash hq
  rw [hlead] at htext
  cases hk : Segment.ofKey key with
  | index =>
    by_cases hnil : place = []
    · subst hnil
      have hroot : Collapse.newPath indexes false name ('/' :: []) = _ :=
        Collapse.newPath_token indexes false name (by simp) (by simp)
      simpa [Segment.contribution, path, token, hk] using hroot
    · simp [Segment.contribution, Collapse.newPath, path, token, hk, hnil]
  | static text =>
    rw [hk] at htext
    simpa [Segment.contribution, path, token, hk, Segment.token, Token.text, Segment.required] using htext
  | param text =>
    rw [hk] at htext
    by_cases hi : indexes = []
    · have hnone := hindexes.mp hi
      simpa [Segment.contribution, path, token, hk, hi, hnone, Segment.token, Token.text] using htext
    · have hpage := not_not.mp fun hn => hi (hindexes.mpr hn)
      simpa [Segment.contribution, path, token, hk, hi, hpage, Segment.token, Token.text, Segment.required] using htext
  | catchAll =>
    rw [hk] at htext
    simpa [Segment.contribution, path, token, hk, Segment.token, Token.text, Segment.required] using htext

/-- A child shows the page of its directory exactly if the directory has a page of its own. -/
theorem Plain.showsParent (h : listing.Plain) {place : List Text} {children : Forest} (hne : place ≠ [])
    (hb : listing.rawPlan.Built place children) :
    Collapse.showsParent children = decide (listing.HasPage (place ++ [Segment.indexKey])) := by
  have hempty : ∀ a children, (listing.rawPlan.node (place ++ [a]) children).path = [] ↔ a = Segment.indexKey := by
    intro a children
    have hread : Segment.ofKey a = .index ↔ a = Segment.indexKey :=
      ⟨fun hi => Segment.ofKey_injective (hi.trans (by decide)), fun hi => hi ▸ by decide⟩
    simp [rawPlan, Segment.contribution, hne, hread]
  rw [Bool.eq_iff_iff, decide_eq_true_iff, h.hasPage_index_iff, Collapse.showsParent, List.any_eq_true]
  constructor
  · rintro ⟨child, hm, hpath⟩
    obtain ⟨a, below, hr, -, rfl⟩ := hb.exists_of_mem rfl hm
    exact (hempty a below).mp (of_decide_eq_true hpath) ▸ hr
  · intro hr
    obtain ⟨below, -, hm⟩ := hb.exists_of_reaches hr
    exact ⟨_, hm, decide_eq_true ((hempty _ below).mpr rfl)⟩

/-- The index names of a level can be read, and there are some exactly if the directory has a page of its own. -/
theorem Plain.level (h : listing.Plain) {place : List Text} {siblings : Forest} (hb : listing.rawPlan.Built place siblings) :
    ∃ indexes, IndexName.ofNames (siblings.map Route.name) = .ok indexes ∧
      (indexes = [] ↔ ¬ listing.HasPage (place ++ [Segment.indexKey])) := by
  have hnames : ∀ name, some name ∈ siblings.map Route.name →
      ∃ key, listing.Reaches (place ++ [key]) ∧ name = Trie.routeName ((place ++ [key]).map keyLabel) := by
    intro name hm
    obtain ⟨route, hroute, hname⟩ := List.mem_map.mp hm
    obtain ⟨key, children, hr, -, rfl⟩ := hb.exists_of_mem rfl hroute
    exact ⟨key, hr, (Option.some.inj hname).symm⟩
  have hreadable : ∀ name, some name ∈ siblings.map Route.name → ¬ IndexName.IsUnreadable name := by
    intro name hm
    obtain ⟨key, hr, rfl⟩ := hnames name hm
    apply IndexName.not_isUnreadable_of_not_mem
    apply Trie.not_mem_routeName (by decide)
    intro label hlabel
    obtain ⟨k, hk, rfl⟩ := List.mem_map.mp hlabel
    exact (h.isCleanKey hr hk).newline_not_mem_label
  obtain ⟨indexes, hok⟩ := IndexName.exists_ofNames_eq_ok_iff.mpr hreadable
  refine ⟨indexes, hok, ?_⟩
  rw [IndexName.eq_nil_iff_of_ofNames hok, h.hasPage_index_iff]
  constructor
  · intro hnone hr
    obtain ⟨children, -, hm⟩ := hb.exists_of_reaches hr
    have hkey : keyLabel Segment.indexKey = Segment.indexKey := by decide
    have hstem := hnone _ (List.mem_map_of_mem hm)
    rw [routeName_keys, hkey, IndexName.stem?_extendName_index] at hstem
    cases hstem
  · intro hindex name hm
    obtain ⟨key, hr, rfl⟩ := hnames name hm
    apply h.stem?_eq_none hr
    rintro rfl
    exact hindex hr

/-- One route of a level, with its subtree already collapsed. -/
theorem Plain.route_value (h : listing.Plain) {place : List Text} {key : Text} {children : Forest}
    (hr : listing.Reaches (place ++ [key])) (hb : listing.rawPlan.Built (place ++ [key]) children)
    {indexes : List IndexName} (hindexes : indexes = [] ↔ ¬ listing.HasPage (place ++ [Segment.indexKey])) :
    (Collapse.route indexes (decide (place ≠ [])) (listing.rawPlan.node (place ++ [key]) children)).value =
      listing.plan.node (place ++ [key]) (children.collapse true).value := by
  have hshows := h.showsParent (by simp) hb
  have hpath := h.newPath hr hindexes (some (Trie.routeName ((place ++ [key]).map keyLabel)))
  have hname : (if Collapse.showsParent children then none
      else some (IndexName.strip (Trie.routeName ((place ++ [key]).map keyLabel)))) = listing.name (place ++ [key]) := by
    rw [hshows, h.strip_routeName hr, name]
    simp only [decide_eq_true_eq]
  rw [Collapse.route_value]
  simp only [rawPlan, plan, node, List.getLastD_concat, List.length_append, List.length_singleton, Nat.add_sub_cancel,
    Option.map_some, hname, hpath]

/--
**A collapse pass turns the raw plan into the closed form**, level by level. Each level is read before it is changed, so the
index names that a route is held against are those that insertion gave.
-/
theorem Plain.settles (h : listing.Plain) : listing.rawPlan.Settles listing.plan where
  keeps := ⟨fun _ _ => rfl, fun _ _ hm => by cases hm⟩
  reaches _ := Iff.rfl
  level hb := by
    obtain ⟨indexes, hnames, hindexes⟩ := h.level hb
    exact ⟨indexes, hnames, fun a children hr hbelow => h.route_value hr hbelow hindexes, rfl⟩

theorem Plain.built_of_compile (h : listing.Plain) {forest : Forest}
    (hc : (compile listing.layout listing.files).result = .ok forest) : listing.plan.Built [] forest := by
  obtain ⟨entries, he, -, rfl⟩ := Compilation.compile_result_eq_ok hc
  exact (h.settles.built_collapse (h.built_raw he)).2

theorem Clean.newline_not_mem_labels (h : listing.Clean) :
    ∀ file ∈ listing.files, ∀ label ∈ listing.layout.labels file, '\n' ∉ label := by
  intro file hfile label hlabel
  obtain ⟨key, hk, rfl⟩ := List.mem_map.mp hlabel
  exact (h.isCleanKey ⟨file, hfile, List.prefix_refl _⟩ hk).newline_not_mem_label

/-- The names of a clean listing can be read: its keys hold no newline. -/
theorem Clean.isReadable (h : listing.Clean) (he : Compilation.entries listing.layout listing.files = .ok entries) :
    Trie.IsReadable entries :=
  Compilation.isReadable_of_labels h.newline_not_mem_labels he

/-- A compilation of a clean listing returns, unless a component path would hold a null character. -/
theorem Clean.compile_ends (h : listing.Clean) :
    ((compile listing.layout listing.files).result = .error .nullInPath ∧
        ∃ file ∈ listing.files, listing.layout.componentOf file = .error .nullInPath) ∨
      ∃ forest, (compile listing.layout listing.files).result = .ok forest :=
  Compilation.compile_ends h.newline_not_mem_labels h.accepted

/--
**The compiled forest of a plain listing is its closed form.** Up to the order of siblings it has one route for each place
that a file reaches, and no other, with the pattern, the name and the page that the listing says; each route has for
children the routes one key further down. Only a null character in a component path keeps a plain listing from being
compiled.
-/
theorem compile_plain (listing : Listing) (h : listing.Plain) :
    (∃ forest, (compile listing.layout listing.files).result = .ok forest ∧ listing.plan.Built [] forest) ∨
      ((compile listing.layout listing.files).result = .error .nullInPath ∧
        ∃ file ∈ listing.files, listing.layout.componentOf file = .error .nullInPath) := by
  rcases h.compile_ends with hnull | ⟨forest, hc⟩
  · exact .inr hnull
  · exact .inl ⟨forest, hc, h.built_of_compile hc⟩

/-- A directory with a page of its own and a parameter. -/
def users : Listing where
  layout := ⟨"/srv".toList, Layout.defaultPagesDir, Layout.defaultExtensions, .posix⟩
  files := ["pages/users/_id.vue".toList, "pages/index.vue".toList, "pages/users/index.vue".toList]

theorem compile_plain_users : users.Plain ∧
    ∃ forest, (compile users.layout users.files).result = .ok forest ∧ users.plan.Built [] forest := by
  have hplain : users.Plain := by decide +kernel
  have hreadable : ∀ file ∈ users.files, users.layout.componentOf file ≠ .error .nullInPath := by decide +kernel
  refine ⟨hplain, (compile_plain users hplain).resolve_right ?_⟩
  rintro ⟨-, file, hfile, hnull⟩
  exact hreadable file hfile hnull

end Listing

end PageRouting
