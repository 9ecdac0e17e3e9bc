import PageRouting.Proofs.Failing
import PageRouting.Proofs.PagePaths
import PageRouting.Session

/-!
# `PageRouting/Proofs/Discovery.lean` — discovered page files, as the layout reads them

The settings of a project are read twice. Discovery follows the pages directory component by component and looks at the names of
files. The layout takes the pages directory from the front of a path as it is written, and the longest extension from its end.

The two agree as long as the pages directory is written the way the disk writes it. If it is not, discovery finds what there is
and the layout rejects all of it: it waits for a text that no discovered path begins with. And they agree as long as no
extension is empty, since every name ends in the empty text, which is no extension to the layout (`discovered_accepted_iff`).
-/

set_option autoImplicit false

namespace PageRouting

/-! ## Text between slashes -/

namespace Text

variable {c : Char}

/-- The last piece ends the whole. -/
theorem getLast?_suffix_join {pieces : List Text} {last : Text} (h : pieces.getLast? = some last) :
    last <:+ join c pieces := by
  obtain ⟨front, rfl⟩ := List.getLast?_eq_some_iff.mp h
  by_cases hnil : front = []
  · rw [hnil]
    exact List.suffix_refl _
  · rw [join_append_singleton c hnil]
    exact (List.suffix_cons _ _).trans (List.suffix_append _ _)

/-- A text that does not end in a cut has something behind its last one. -/
theorem getLast?_split_ne_nil {t : Text} (hne : t ≠ []) (h : t.getLast? ≠ some c) : (split c t).getLast? ≠ some [] := by
  intro hlast
  obtain ⟨front, hsplit⟩ := List.getLast?_eq_some_iff.mp hlast
  have ht := join_split c t
  rw [hsplit] at ht
  by_cases hnil : front = []
  · exact hne (by rw [← ht, hnil]; rfl)
  · rw [join_append_singleton c hnil] at ht
    exact h (by rw [← ht, List.getLast?_concat])

theorem getLast?_trim (c : Char) (t : Text) : (trim c t).getLast? ≠ some c := by
  rw [trim, dropTrailing, List.getLast?_reverse]
  exact head?_dropLeading c _

end Text

namespace Location

/-- Does a component say where a path leads? -/
def IsTelling (component : Text) : Prop :=
  component ≠ [] ∧ component ≠ ['.']

instance : DecidablePred IsTelling :=
  fun component => inferInstanceAs (Decidable (component ≠ [] ∧ component ≠ ['.']))

theorem components_eq (path : Text) : components path = (Text.split '/' path).filter fun component => IsTelling component :=
  rfl

theorem isTelling_of_mem_components {path component : Text} (h : component ∈ components path) : IsTelling component :=
  of_decide_eq_true (List.mem_filter.mp h).2

theorem slash_not_mem_of_mem_components {path component : Text} (h : component ∈ components path) : '/' ∉ component :=
  Text.not_mem_of_mem_split _ _ component (List.mem_of_mem_filter h)

theorem components_append_slash (a b : Text) : components (a ++ '/' :: b) = components a ++ components b := by
  rw [components_eq, Text.split_append_sep, List.filter_append]
  rfl

theorem components_dropLeading (path : Text) : components (Text.dropLeading '/' path) = components path := by
  induction path with
  | nil => rfl
  | cons c path ih =>
    by_cases hc : c = '/'
    · have hdrop : Text.dropLeading '/' (c :: path) = Text.dropLeading '/' path := by simp [Text.dropLeading, hc]
      rw [hdrop, ih, hc]
      exact (components_append_slash [] path).symm
    · have hdrop : Text.dropLeading '/' (c :: path) = c :: path := by simp [Text.dropLeading, hc]
      rw [hdrop]

theorem components_dropTrailing (path : Text) : components (Text.dropTrailing '/' path) = components path := by
  induction path using List.reverseRecOn with
  | nil => rfl
  | append_singleton path c ih =>
    by_cases hc : c = '/'
    · have hdrop : Text.dropTrailing '/' (path ++ [c]) = Text.dropTrailing '/' path := by
        simp [Text.dropTrailing, Text.dropLeading, hc]
      have hlast : components (path ++ ['/']) = components path ++ components [] := components_append_slash path []
      rw [hdrop, ih, hc, hlast]
      exact (List.append_nil _).symm
    · have hdrop : Text.dropTrailing '/' (path ++ [c]) = path ++ [c] := by simp [Text.dropTrailing, Text.dropLeading, hc]
      rw [hdrop]

/-- Slashes around a path say nothing. -/
theorem components_trim (path : Text) : components (Text.trim '/' path) = components path := by
  rw [Text.trim, components_dropTrailing, components_dropLeading]

/-- Components say the same once more. -/
theorem filter_components (path : Text) : (components path).filter (fun component => IsTelling component) = components path := by
  rw [components_eq, List.filter_filter]
  simp

end Location

/-! ## What discovery finds -/

/-- No name on the disk holds a slash. -/
def Disk.HasNames (disk : Disk) : Prop :=
  ∀ file ∈ disk.files, ∀ name ∈ file.1, '/' ∉ name

namespace Project

variable (project : Project)

/-- Is the pages directory written as the disk writes it: by its components, without empty ones and dots between them? -/
def SpellsPagesDir : Prop :=
  Text.join '/' project.pagesComponents = project.layout.root

instance : Decidable project.SpellsPagesDir :=
  inferInstanceAs (Decidable (_ = _))

/-- A page file by its components: those of the pages directory, and those below it. -/
structure IsFound (disk : Disk) (below : List Text) : Prop where
  ne_nil : below ≠ []
  visible : isVisible (project.pagesComponents ++ below) = true
  page : ∃ extension ∈ project.extensions, ∃ name, below.getLast? = some name ∧ extension <:+ name
  onDisk : ∃ file ∈ disk.files, below <:+ file.1

variable {project} {disk : Disk} {below : List Text}

theorem exists_of_mem_visibleFiles {components : List Text} (h : components ∈ project.visibleFiles disk) :
    isVisible components = true ∧
      ∃ below, below ≠ [] ∧ components = project.pagesComponents ++ below ∧ ∃ file ∈ disk.files, below <:+ file.1 := by
  unfold visibleFiles at h
  split at h
  · next location _ =>
    obtain ⟨hm, hvisible⟩ := List.mem_filter.mp h
    obtain ⟨place, hplace, rfl⟩ := List.mem_map.mp hm
    obtain ⟨hplace, hbelow⟩ := List.mem_filter.mp hplace
    obtain ⟨file, hfile, rfl⟩ := List.mem_map.mp hplace
    obtain ⟨⟨below, hsplit⟩, hne⟩ := of_decide_eq_true hbelow
    have hdrop : file.1.drop location.length = below := by rw [← hsplit, List.drop_left]
    rw [hdrop] at hvisible ⊢
    refine ⟨hvisible, below, ?_, rfl, file, hfile, hsplit ▸ List.suffix_append _ _⟩
    rintro rfl
    exact hne (by rw [← hsplit, List.append_nil])
  · cases h

theorem exists_of_mem_pageFiles {file : Text} (h : file ∈ project.pageFiles disk) :
    ∃ below, project.IsFound disk below ∧ file = Text.join '/' (project.pagesComponents ++ below) := by
  rw [pageFiles, (stableSort_perm _ _).mem_iff] at h
  obtain ⟨components, hm, rfl⟩ := List.mem_map.mp h
  obtain ⟨hm, hpage⟩ := List.mem_filter.mp hm
  obtain ⟨hvisible, below, hnil, rfl, hdisk⟩ := exists_of_mem_visibleFiles hm
  obtain ⟨name, hname⟩ : ∃ name, below.getLast? = some name := ⟨_, List.getLast?_eq_some_getLast hnil⟩
  refine ⟨below, ⟨hnil, hvisible, ?_, hdisk⟩, rfl⟩
  obtain ⟨extension, he, hends⟩ := List.any_eq_true.mp hpage
  rw [List.getLast?_append_of_ne_nil _ hnil, hname] at hends
  exact ⟨extension, he, name, hname, of_decide_eq_true hends⟩

/-- The names in a discovered path hold no slash, neither those of the pages directory nor those on the disk. -/
theorem not_mem_of_mem_components (hnames : disk.HasNames) (hdisk : ∃ file ∈ disk.files, below <:+ file.1) :
    ∀ name ∈ project.pagesComponents ++ below, '/' ∉ name := by
  intro name hm
  rcases List.mem_append.mp hm with hm | hm
  · exact Location.slash_not_mem_of_mem_components hm
  · obtain ⟨file, hfile, hbelow⟩ := hdisk
    exact hnames file hfile name (hbelow.subset hm)

theorem exists_of_discover {files : List Text} (h : (project.discover disk).1 = .ok files) :
    ∀ file ∈ files, ∃ below, project.IsFound disk below ∧ file = Text.join '/' (project.pagesComponents ++ below) := by
  intro file hm
  unfold discover at h
  split at h
  · cases h
  · cases h
    cases hm
  · split at h
    · cases h
    · cases h
      exact exists_of_mem_pageFiles hm

/-! ## The two readings side by side -/

/-- A pages directory that is written as the disk writes it is in front of each file, and the names below it behind. -/
theorem SpellsPagesDir.belowRoot? (h : project.SpellsPagesDir) (hne : below ≠ []) :
    project.layout.belowRoot? (Text.join '/' (project.pagesComponents ++ below)) =
        some ((Text.join '/' (project.pagesComponents ++ below)).drop project.layout.root.length) ∧
      Text.join '/' below <:+ (Text.join '/' (project.pagesComponents ++ below)).drop project.layout.root.length := by
  unfold SpellsPagesDir at h
  by_cases hroot : project.pagesComponents = []
  · rw [hroot] at h ⊢
    rw [← h, Layout.belowRoot?, ← h]
    exact ⟨rfl, List.suffix_refl _⟩
  · rw [Text.join_append hroot hne, h, List.drop_left]
    refine ⟨?_, List.suffix_cons _ _⟩
    unfold Layout.belowRoot?
    split
    · next hnil => rw [hnil, List.nil_append]
    · rw [if_pos ⟨Text.join '/' below, by simp⟩, List.drop_left]

/--
If it is written otherwise, no file begins with it. Cut at its slashes, the root would lead on from the components of the pages
directory into the names of a file, and end in a dot there.
-/
theorem belowRoot?_eq_none (h : ¬ project.SpellsPagesDir) (hnames : disk.HasNames) (hfound : project.IsFound disk below) :
    project.layout.belowRoot? (Text.join '/' (project.pagesComponents ++ below)) = none := by
  have hcomponents : project.pagesComponents = Location.components project.layout.root := (Location.components_trim _).symm
  have hroot : project.layout.root ≠ [] := by
    intro hnil
    rw [SpellsPagesDir, hcomponents, hnil] at h
    exact h rfl
  unfold Layout.belowRoot?
  rw [if_neg hroot, if_neg]
  rintro ⟨rest, hrest⟩
  have hslash : ∀ piece ∈ project.pagesComponents ++ below, '/' ∉ piece := not_mem_of_mem_components hnames hfound.onDisk
  have hsplit : Text.split '/' project.layout.root ++ Text.split '/' rest = project.pagesComponents ++ below := by
    rw [← Text.split_append_sep, ← Text.split_join '/' _ (by simp [hfound.ne_nil]) hslash, ← hrest]
    simp
  obtain ⟨extra, hextra⟩ : project.pagesComponents <+: Text.split '/' project.layout.root := by
    refine List.prefix_of_prefix_length_le (List.prefix_append _ below) (hsplit ▸ List.prefix_append _ _) ?_
    rw [hcomponents]
    exact List.length_filter_le _ _
  by_cases hnil : extra = []
  · rw [hnil, List.append_nil] at hextra
    exact h (by rw [SpellsPagesDir, hextra, Text.join_split])
  · obtain ⟨last, hlast⟩ : ∃ last, extra.getLast? = some last := ⟨_, List.getLast?_eq_some_getLast hnil⟩
    have hlastm : last ∈ extra := List.mem_of_getLast? hlast
    -- the components are all that is told, so what is left of the root tells nothing
    have htelling : ¬ Location.IsTelling last := by
      have hsame : project.pagesComponents.filter (fun component => Location.IsTelling component) = project.pagesComponents :=
        Location.filter_components project.pagesDir
      have hfilter := Location.components_eq project.layout.root
      rw [← hcomponents, ← hextra, List.filter_append, hsame, List.self_eq_append_right] at hfilter
      simpa using List.filter_eq_nil_iff.mp hfilter last hlastm
    have hne : last ≠ [] := by
      rintro rfl
      refine Text.getLast?_split_ne_nil hroot (Text.getLast?_trim '/' _) ?_
      rw [← hextra, List.getLast?_append_of_ne_nil _ hnil, hlast]
    have hdot : last = ['.'] := by
      by_contra hother
      exact htelling ⟨hne, hother⟩
    have hbelow : last ∈ project.pagesComponents ++ below := by
      rw [← hsplit, ← hextra]
      exact List.mem_append_left _ (List.mem_append_right _ hlastm)
    have hvisible := List.all_eq_true.mp hfound.visible last hbelow
    rw [hdot] at hvisible
    cases hvisible

/-! ## What is accepted -/

/-- A discovered file of a project whose pages directory is written as the disk writes it. -/
theorem SpellsPagesDir.exists_keys_iff (h : project.SpellsPagesDir) (hfound : project.IsFound disk below) {file : Text}
    (hfile : file = Text.join '/' (project.pagesComponents ++ below)) :
    (∃ keys, project.layout.keys file = .ok keys) ↔
      ∃ extension ∈ project.extensions, extension ≠ [] ∧ extension <:+ file.drop project.layout.root.length := by
  rw [hfile]
  exact Layout.exists_keys_iff (h.belowRoot? hfound.ne_nil).1

theorem SpellsPagesDir.exists_keys (h : project.SpellsPagesDir) (hextensions : [] ∉ project.extensions)
    (hfound : project.IsFound disk below) {file : Text} (hfile : file = Text.join '/' (project.pagesComponents ++ below)) :
    ∃ keys, project.layout.keys file = .ok keys := by
  obtain ⟨extension, he, name, hname, hends⟩ := hfound.page
  refine (h.exists_keys_iff hfound hfile).mpr ⟨extension, he, fun hnil => hextensions (hnil ▸ he), ?_⟩
  rw [hfile]
  exact (hends.trans (Text.getLast?_suffix_join hname)).trans (h.belowRoot? hfound.ne_nil).2

/-- Discovery itself fails only where the host system refuses a path. -/
theorem discover_eq_error {fault : Fault} (h : (project.discover disk).1 = .error fault) : ∃ path refusal, fault = .refused path refusal := by
  unfold discover at h
  split at h
  · exact ⟨_, _, (Except.error.inj h).symm⟩
  · cases h
  · split at h
    · exact ⟨_, _, (Except.error.inj h).symm⟩
    · cases h

end Project

namespace Session

/-- A read stops for a page file only if the layout rejects one that is discovered. -/
theorem isRejectedPage_of_forest {session : Session} {fault : Fault} (h : session.forest.result = .error fault)
    (hrejected : fault.isRejectedPage) : ∃ files, session.discover.result = .ok files ∧ ∃ file ∈ files, session.project.layout.Rejects file := by
  unfold forest at h
  split at h
  · cases h
  · split at h
    · next hd =>
      obtain rfl := Except.error.inj h
      obtain ⟨path, refusal, rfl⟩ := Project.discover_eq_error (congrArg Prod.fst hd)
      cases hrejected
    · next files found hd =>
      refine ⟨files, congrArg Prod.fst hd, ?_⟩
      dsimp only at h
      split at h
      · next hc =>
        obtain rfl := Except.error.inj h
        obtain ⟨before, file, after, rfl, hfile, -⟩ := Compilation.isRejected_iff.mp ⟨_, hc, hrejected⟩
        exact ⟨file, by simp, hfile⟩
      · cases h

/--
**Discovery and layout agree** on the page files of a project whose pages directory is written as the disk writes it and whose
extensions are not empty: whatever is discovered is accepted, and no read is stopped by a page file. With an empty extension a
discovered file is accepted exactly if it ends in some other one. With any other way to write the pages directory every
discovered file is rejected.
-/
theorem discovered_accepted_iff (session : Session) :
    (session.project.SpellsPagesDir → [] ∉ session.project.extensions →
      (∀ files, session.discover.result = .ok files → ∀ file ∈ files, ∃ keys, session.project.layout.keys file = .ok keys) ∧
        ∀ fault, session.forest.result = .error fault → ¬ fault.isRejectedPage) ∧
    (session.project.SpellsPagesDir → ∀ files, session.discover.result = .ok files → ∀ file ∈ files,
      ((∃ keys, session.project.layout.keys file = .ok keys) ↔ ∃ extension ∈ session.project.extensions,
        extension ≠ [] ∧ extension <:+ file.drop session.project.layout.root.length)) ∧
    (¬ session.project.SpellsPagesDir → session.disk.HasNames → ∀ files, session.discover.result = .ok files → ∀ file ∈ files,
      session.project.layout.keys file = .error (.outsideRoot file session.project.layout.root)) := by
  refine ⟨fun hspells hextensions => ?_, fun hspells files hfiles file hm => ?_, fun hspells hnames files hfiles file hm => ?_⟩
  · have haccepted : ∀ files, session.discover.result = .ok files → ∀ file ∈ files,
        ∃ keys, session.project.layout.keys file = .ok keys := by
      intro files hfiles file hm
      obtain ⟨below, hfound, hfile⟩ := Project.exists_of_discover hfiles file hm
      exact hspells.exists_keys hextensions hfound hfile
    refine ⟨haccepted, fun fault hfault hrejected => ?_⟩
    obtain ⟨files, hfiles, file, hm, hrejects⟩ := isRejectedPage_of_forest hfault hrejected
    obtain ⟨keys, hkeys⟩ := haccepted files hfiles file hm
    rw [Layout.Rejects, hkeys] at hrejects
    cases hrejects
  · obtain ⟨below, hfound, hfile⟩ := Project.exists_of_discover hfiles file hm
    exact hspells.exists_keys_iff hfound hfile
  · obtain ⟨below, hfound, rfl⟩ := Project.exists_of_discover hfiles file hm
    exact Layout.keys_of_belowRoot?_eq_none (Project.belowRoot?_eq_none hspells hnames hfound)

/-- The dot in front of the pages directory says nothing to the disk. The layout takes it for a part of the root's name. -/
theorem discovered_rejected :
    let project : Project :=
      { root := ["srv".toList, "app".toList], pagesDir := "./pages".toList, extensions := Layout.defaultExtensions }
    let disk : Disk :=
      { directories := [["srv".toList], ["srv".toList, "app".toList], ["srv".toList, "app".toList, "pages".toList]]
        files := [(["srv".toList, "app".toList, "pages".toList, "about.vue".toList], [])] }
    let session : Session := { project, disk, base := "/".toList }
    ¬ ∀ files, session.discover.result = .ok files → ∀ file ∈ files, ∃ keys, session.project.layout.keys file = .ok keys := by
  intro project disk session hclaim
  have hfiles : session.discover.result = .ok ["pages/about.vue".toList] := by decide +kernel
  obtain ⟨keys, hkeys⟩ := hclaim _ hfiles _ List.mem_cons_self
  have hrejects : (session.project.layout.keys "pages/about.vue".toList).isOk = false := by decide +kernel
  rw [hkeys] at hrejects
  cases hrejects

/-- A pages directory two levels down, whose page files end in one of two extensions, one of which ends in the other. -/
theorem discovered_accepted_nested :
    let project : Project :=
      { root := ["srv".toList, "app".toList], pagesDir := "src/pages".toList, extensions := [".page.vue".toList, ".vue".toList] }
    let disk : Disk :=
      { directories := [["srv".toList], ["srv".toList, "app".toList], ["srv".toList, "app".toList, "src".toList],
          ["srv".toList, "app".toList, "src".toList, "pages".toList]]
        files := [(["srv".toList, "app".toList, "src".toList, "pages".toList, "about.page.vue".toList], []),
          (["srv".toList, "app".toList, "src".toList, "pages".toList, "index.vue".toList], [])] }
    let session : Session := { project, disk, base := "/".toList }
    session.discover.result = .ok ["src/pages/about.page.vue".toList, "src/pages/index.vue".toList] ∧
      (∀ files, session.discover.result = .ok files → ∀ file ∈ files, ∃ keys, session.project.layout.keys file = .ok keys) ∧
      ∀ fault, session.forest.result = .error fault → ¬ fault.isRejectedPage := by
  intro project disk session
  have hspells : session.project.SpellsPagesDir := by decide +kernel
  have hextensions : [] ∉ session.project.extensions := by decide +kernel
  exact ⟨by decide +kernel, (discovered_accepted_iff session).1 hspells hextensions⟩

end Session

end PageRouting
