import PageRouting.Proofs.Entries
import PageRouting.Proofs.Keys
import PageRouting.Proofs.Runs

/-!
# `PageRouting/Proofs/PagePaths.lean` — which paths are those of page files

A path is that of a page file if it leads below the pages root and ends in a known extension that is not empty. The layout reads
such a path, and rejects every other one with the reason (`Layout.exists_keys_iff_isBelowRoot`, `Layout.fault_of_keys`).

What it reads are the keys, and they tell the path up to two things: which of the known extensions is the longest that it ends
in, and how many slashes are written in a row. So a path that is composed of keys is read as these keys, however many slashes
stand between them, as long as the extension that was put behind them is the one that is taken off again
(`Layout.keys_of_path`). A longer one may get in the way: with the extension `a.vue` beside `.vue` the page `aa.vue` has the key `a`.
-/

set_option autoImplicit false

namespace PageRouting.Layout

/-! ## The extension of a path -/

theorem foldl_longer_mem (first : Text) (others : List Text) : others.foldl longer first ∈ first :: others := by
  induction others generalizing first with
  | nil => exact List.mem_singleton_self _
  | cons other others ih =>
    rw [List.foldl_cons]
    rcases List.mem_cons.mp (ih (longer first other)) with hm | hm
    · rw [hm, longer]
      split <;> simp
    · exact List.mem_cons_of_mem _ (List.mem_cons_of_mem _ hm)

theorem length_le_foldl_longer (first : Text) (others : List Text) :
    ∀ extension ∈ first :: others, extension.length ≤ (others.foldl longer first).length := by
  induction others generalizing first with
  | nil => simp
  | cons other others ih =>
    have hfirst : first.length ≤ (longer first other).length := by
      unfold longer
      split <;> omega
    have hother : other.length ≤ (longer first other).length := by
      unfold longer
      split <;> omega
    have hbest := ih (longer first other) _ List.mem_cons_self
    rw [List.foldl_cons]
    intro extension hm
    rcases List.mem_cons.mp hm with rfl | hm
    · exact hfirst.trans hbest
    · rcases List.mem_cons.mp hm with rfl | hm
      · exact hother.trans hbest
      · exact ih _ extension (List.mem_cons_of_mem _ hm)

/-- Is the extension the longest one, of those that are known and not empty, in which the text ends? -/
structure IsLongest (extensions : List Text) (text extension : Text) : Prop where
  known : extension ∈ extensions
  ne_nil : extension ≠ []
  suffix : extension <:+ text
  length_le : ∀ other ∈ extensions, other <:+ text → other.length ≤ extension.length

variable {extensions : List Text} {text extension : Text}

theorem extension?_isSome_iff : (extension? extensions text).isSome ↔
    ∃ extension ∈ extensions, extension ≠ [] ∧ extension <:+ text := by
  unfold extension?
  split
  · next hnone =>
    rw [List.filter_eq_nil_iff] at hnone
    simpa using hnone
  · next first others hsome =>
    have hm : first ∈ extensions.filter fun extension => extension ≠ [] ∧ extension <:+ text := by
      rw [hsome]
      exact List.mem_cons_self
    obtain ⟨hm, hends⟩ := List.mem_filter.mp hm
    simpa using ⟨first, hm, of_decide_eq_true hends⟩

theorem isLongest_of_extension? (h : extension? extensions text = some extension) : IsLongest extensions text extension := by
  unfold extension? at h
  split at h
  · cases h
  · next first others hfilter =>
    obtain rfl := Option.some.inj h
    have hm := foldl_longer_mem first others
    rw [← hfilter] at hm
    obtain ⟨hknown, hends⟩ := List.mem_filter.mp hm
    obtain ⟨hne, hsuffix⟩ := of_decide_eq_true hends
    refine ⟨hknown, hne, hsuffix, fun other ho hother => ?_⟩
    by_cases hnil : other = []
    · rw [hnil]
      exact Nat.zero_le _
    · apply length_le_foldl_longer
      rw [← hfilter]
      exact List.mem_filter.mpr ⟨ho, decide_eq_true ⟨hnil, hother⟩⟩

/-- Two endings of one text that are equally long are the same. -/
theorem IsLongest.unique {other : Text} (h : IsLongest extensions text extension) (ho : IsLongest extensions text other) :
    extension = other := by
  have hle := ho.length_le extension h.known h.suffix
  have hge := h.length_le other ho.known ho.suffix
  exact (List.suffix_of_suffix_length_le h.suffix ho.suffix hle).eq_of_length (Nat.le_antisymm hle hge)

theorem extension?_eq_some_iff : extension? extensions text = some extension ↔ IsLongest extensions text extension := by
  refine ⟨isLongest_of_extension?, fun h => ?_⟩
  obtain ⟨found, hfound⟩ := Option.isSome_iff_exists.mp (extension?_isSome_iff.mpr ⟨extension, h.known, h.ne_nil, h.suffix⟩)
  rw [hfound, (isLongest_of_extension? hfound).unique h]

/-- What remains without the extension is what is in front of the longest one. -/
theorem stem?_eq_some_iff {stem : Text} : stem? extensions text = some stem ↔
    ∃ extension, text = stem ++ extension ∧ IsLongest extensions text extension := by
  unfold stem?
  rw [Option.map_eq_some_iff]
  constructor
  · rintro ⟨extension, he, rfl⟩
    have hlongest := extension?_eq_some_iff.mp he
    refine ⟨extension, ?_, hlongest⟩
    obtain ⟨front, rfl⟩ := hlongest.suffix
    simp
  · rintro ⟨extension, htext, hlongest⟩
    refine ⟨extension, extension?_eq_some_iff.mpr hlongest, ?_⟩
    rw [htext]
    simp

/-! ## Paths that are read, and paths that are not -/

section

variable (layout : Layout) (file : Text)

/-- Does the path lead below the pages root? Without a root every path does. -/
def IsBelowRoot : Prop :=
  layout.root = [] ∨ layout.root ++ ['/'] <+: file

instance : Decidable (layout.IsBelowRoot file) :=
  inferInstanceAs (Decidable (_ ∨ _))

theorem belowRoot?_eq : layout.belowRoot? file = if layout.IsBelowRoot file then some (file.drop layout.root.length) else none := by
  unfold belowRoot? IsBelowRoot
  by_cases hroot : layout.root = []
  · simp [hroot]
  · simp [hroot]

end

variable {layout : Layout} {file rest : Text} {keys : List Text}

theorem keys_of_belowRoot?_eq_none (h : layout.belowRoot? file = none) : layout.keys file = .error (.outsideRoot file layout.root) := by
  rw [Layout.keys, h]

/-- Below the root a file is accepted exactly if it ends in some extension that is not empty. -/
theorem exists_keys_iff (h : layout.belowRoot? file = some rest) :
    (∃ keys, layout.keys file = .ok keys) ↔ ∃ extension ∈ layout.extensions, extension ≠ [] ∧ extension <:+ rest := by
  rw [← extension?_isSome_iff, Layout.keys, h]
  cases he : extension? layout.extensions rest with
  | none => simp [stem?, he]
  | some extension => simp [stem?, he]

theorem keys_eq_ok_iff : layout.keys file = .ok keys ↔ layout.IsBelowRoot file ∧
    ∃ stem extension, file.drop layout.root.length = stem ++ extension ∧
      IsLongest layout.extensions (file.drop layout.root.length) extension ∧ keys = keysOfStem stem := by
  rw [Layout.keys, belowRoot?_eq]
  by_cases hbelow : layout.IsBelowRoot file
  · simp only [hbelow, if_true, true_and]
    cases hstem : stem? layout.extensions (file.drop layout.root.length) with
    | none =>
      simp only [reduceCtorEq, false_iff]
      rintro ⟨stem, extension, hrest, hlongest, -⟩
      rw [stem?_eq_some_iff.mpr ⟨extension, hrest, hlongest⟩] at hstem
      cases hstem
    | some stem =>
      simp only [Except.ok.injEq]
      constructor
      · rintro rfl
        obtain ⟨extension, hrest, hlongest⟩ := stem?_eq_some_iff.mp hstem
        exact ⟨stem, extension, hrest, hlongest, rfl⟩
      · rintro ⟨other, extension, hrest, hlongest, rfl⟩
        rw [stem?_eq_some_iff.mpr ⟨extension, hrest, hlongest⟩] at hstem
        rw [Option.some.inj hstem]
  · simp [hbelow]

/-- A path is read exactly if it leads below the root and ends there in some extension that is not empty. -/
theorem exists_keys_iff_isBelowRoot : (∃ keys, layout.keys file = .ok keys) ↔ layout.IsBelowRoot file ∧
    ∃ extension ∈ layout.extensions, extension ≠ [] ∧ extension <:+ file.drop layout.root.length := by
  by_cases hbelow : layout.IsBelowRoot file
  · have hrest : layout.belowRoot? file = some (file.drop layout.root.length) := by rw [belowRoot?_eq, if_pos hbelow]
    rw [exists_keys_iff hrest]
    exact (and_iff_right hbelow).symm
  · have hnone : layout.belowRoot? file = none := by rw [belowRoot?_eq, if_neg hbelow]
    simp [keys_of_belowRoot?_eq_none hnone, hbelow]

/-- A path that is not read is rejected for the root if it does not lead below it, and for the extension otherwise. -/
theorem fault_of_keys {fault : Fault} (h : layout.keys file = .error fault) :
    fault = if layout.IsBelowRoot file then .unknownExtension file layout.extensions else .outsideRoot file layout.root := by
  rw [Layout.keys, belowRoot?_eq] at h
  split
  · next hbelow =>
    simp only [hbelow, if_true] at h
    split at h
    · exact (Except.error.inj h).symm
    · cases h
  · next hbelow =>
    simp only [hbelow, if_false, Except.error.injEq] at h
    exact h.symm

/-- The keys that are read, joined, are what is in front of the extension, with one slash for each run and none in front. -/
theorem join_of_keys (h : layout.keys file = .ok keys) :
    ∃ stem extension reduced, file.drop layout.root.length = stem ++ extension ∧
      IsLongest layout.extensions (file.drop layout.root.length) extension ∧
      Text.Repeats '/' reduced stem ∧ Text.HasNoRun '/' reduced ∧ Text.join '/' keys = Text.dropLeading '/' reduced := by
  obtain ⟨-, stem, extension, hrest, hlongest, rfl⟩ := keys_eq_ok_iff.mp h
  have hjoin : Text.join '/' (keysOfStem stem) = Text.dropLeading '/' (Text.squeeze '/' stem) := Text.join_split '/' _
  exact ⟨stem, extension, _, hrest, hlongest, Text.repeats_squeeze '/' stem, Text.hasNoRun_squeeze '/' stem, hjoin⟩

/-! ## Paths that are composed of keys -/

/-- What stands behind the root in a path with the given keys, in front of its extension. Without a root no slash is in front. -/
def composed (layout : Layout) (keys : List Text) : Text :=
  if layout.root = [] then Text.join '/' keys else '/' :: Text.join '/' keys

theorem hasNoRun_composed (hkeys : ∀ key ∈ keys, key ≠ [] ∧ '/' ∉ key) : Text.HasNoRun '/' (layout.composed keys) := by
  unfold composed
  split
  · exact Text.hasNoRun_join hkeys
  · refine List.isChain_cons.mpr ⟨fun next hnext hrun => Text.head?_join hkeys ?_, Text.hasNoRun_join hkeys⟩
    exact hrun.2 ▸ hnext

theorem dropLeading_composed (hkeys : ∀ key ∈ keys, key ≠ [] ∧ '/' ∉ key) :
    Text.dropLeading '/' (layout.composed keys) = Text.join '/' keys := by
  have hhead : Text.dropLeading '/' (Text.join '/' keys) = Text.join '/' keys := by
    cases hjoin : Text.join '/' keys with
    | nil => rfl
    | cons c rest =>
      have hc : c ≠ '/' := by
        rintro rfl
        exact Text.head?_join hkeys (by rw [hjoin]; rfl)
      simp [Text.dropLeading, hc]
  unfold composed
  split
  · exact hhead
  · exact hhead

/-- However many slashes are written between keys, the keys are the same. -/
theorem keysOfStem_of_repeats (hne : keys ≠ []) (hkeys : ∀ key ∈ keys, key ≠ [] ∧ '/' ∉ key) {spelling : Text}
    (h : Text.Repeats '/' (layout.composed keys) spelling) : keysOfStem spelling = keys := by
  rw [keysOfStem, h.squeeze_eq, (hasNoRun_composed hkeys).squeeze_eq, dropLeading_composed hkeys]
  exact Text.split_join '/' keys hne fun key hm => (hkeys key hm).2

/-- Slashes in a row do not bring in a longer extension, unless it holds slashes in a row itself. -/
theorem IsLongest.of_repeats {stem spelling : Text} (hlongest : IsLongest extensions (stem ++ extension) extension)
    (hstem : Text.HasNoRun '/' stem) (h : Text.Repeats '/' stem spelling)
    (hruns : ∀ other ∈ extensions, Text.HasNoRun '/' other) : IsLongest extensions (spelling ++ extension) extension := by
  refine ⟨hlongest.known, hlongest.ne_nil, List.suffix_append _ _, fun other ho hother => ?_⟩
  rcases List.suffix_or_suffix_of_suffix hother (List.suffix_append spelling extension) with hshort | hlong
  · exact hshort.length_le
  · obtain ⟨front, rfl⟩ := hlong
    -- what the other extension has in front of this one holds no run, so it stands in the stem as well
    have hfront : front <:+ stem := by
      have hsuffix := Text.squeeze_suffix (c := '/') ((List.suffix_append_inj_of_length_eq rfl).mp hother).1
      have hnone := (Text.hasNoRun_append.mp (hruns _ ho)).1
      rwa [hnone.squeeze_eq, h.squeeze_eq, hstem.squeeze_eq] at hsuffix
    refine hlongest.length_le _ ho ?_
    exact (List.suffix_append_inj_of_length_eq rfl).mpr ⟨hfront, rfl⟩

theorem isBelowRoot_append {spelling : Text} (h : Text.Repeats '/' (layout.composed keys) spelling) (rest : Text) :
    layout.IsBelowRoot (layout.root ++ (spelling ++ rest)) := by
  by_cases hroot : layout.root = []
  · exact .inl hroot
  · have hhead := h.head?_eq
    rw [composed, if_neg hroot] at hhead
    obtain ⟨below, rfl⟩ := List.head?_eq_some_iff.mp hhead
    exact .inr ⟨below ++ rest, by simp⟩

/-- A path that is composed of keys is read as them, if the extension behind them is the one that is taken off. -/
theorem keys_of_repeats (hne : keys ≠ []) (hkeys : ∀ key ∈ keys, key ≠ [] ∧ '/' ∉ key) {spelling : Text}
    (h : Text.Repeats '/' (layout.composed keys) spelling)
    (hlongest : IsLongest layout.extensions (spelling ++ extension) extension) :
    layout.keys (layout.root ++ (spelling ++ extension)) = .ok keys := by
  refine keys_eq_ok_iff.mpr ⟨isBelowRoot_append h extension, spelling, extension, ?_⟩
  rw [List.drop_left]
  exact ⟨rfl, hlongest, (keysOfStem_of_repeats hne hkeys h).symm⟩

/-! ## Both directions -/

/--
**The layout reads the paths below its root that end in a known extension, and no others, and it reads what they are composed of.**

* A path is read exactly if it leads below the root and what follows the root ends in some extension that is not empty. Any other
  path is rejected as a page, for one of the two reasons.
* Keys that are read hold no slash, and none but the last is empty. Joined by slashes they are what follows the root, without the
  longest extension, with one slash for each run of them and none in front.
* Keys that are not empty and hold no slash are read from every path that is composed of them, whatever slashes are repeated, if
  the extension behind them is the longest that the path ends in. For extensions without slashes in a row it is enough to look at
  the path with single slashes.
-/
theorem keys_of_path (layout : Layout) :
    (∀ file, (∃ keys, layout.keys file = .ok keys) ↔ layout.IsBelowRoot file ∧
      ∃ extension ∈ layout.extensions, extension ≠ [] ∧ extension <:+ file.drop layout.root.length) ∧
    (∀ file fault, layout.keys file = .error fault → fault.isRejectedPage ∧
      fault = if layout.IsBelowRoot file then .unknownExtension file layout.extensions else .outsideRoot file layout.root) ∧
    (∀ file keys, layout.keys file = .ok keys →
      keys ≠ [] ∧ (∀ key ∈ keys, '/' ∉ key) ∧ (∀ key ∈ keys.dropLast, key ≠ []) ∧
      ∃ stem extension reduced, file.drop layout.root.length = stem ++ extension ∧
        IsLongest layout.extensions (file.drop layout.root.length) extension ∧
        Text.Repeats '/' reduced stem ∧ Text.HasNoRun '/' reduced ∧ Text.join '/' keys = Text.dropLeading '/' reduced) ∧
    ∀ keys, keys ≠ [] → (∀ key ∈ keys, key ≠ [] ∧ '/' ∉ key) →
      ∀ spelling, Text.Repeats '/' (layout.composed keys) spelling → ∀ extension,
        IsLongest layout.extensions (spelling ++ extension) extension ∨
          (IsLongest layout.extensions (layout.composed keys ++ extension) extension ∧
            ∀ other ∈ layout.extensions, Text.HasNoRun '/' other) →
        layout.keys (layout.root ++ (spelling ++ extension)) = .ok keys := by
  refine ⟨fun file => exists_keys_iff_isBelowRoot, fun file fault h => ⟨isRejectedPage_of_keys h, fault_of_keys h⟩,
    fun file keys h => ⟨ne_nil_of_keys h, fun key hm => slash_not_mem_of_keys_eq h hm, ne_nil_of_keys_eq h, join_of_keys h⟩, ?_⟩
  intro keys hne hkeys spelling hrepeats extension h
  rcases h with hlongest | ⟨hlongest, hruns⟩
  · exact keys_of_repeats hne hkeys hrepeats hlongest
  · exact keys_of_repeats hne hkeys hrepeats (hlongest.of_repeats (hasNoRun_composed hkeys) hrepeats hruns)

/-- A root with slashes around it, extensions of which one ends in another and one is empty, and slashes in two rows. -/
theorem keys_of_path_repeated :
    let layout : Layout := ⟨"/srv".toList, "/src/pages/".toList, [".vue".toList, ".page.vue".toList, []], .posix⟩
    let keys := ["users".toList, "_id".toList]
    Text.Repeats '/' (layout.composed keys) "//users///_id".toList ∧
      IsLongest layout.extensions "//users///_id.page.vue".toList ".page.vue".toList ∧
      layout.keys "src/pages//users///_id.page.vue".toList = .ok keys := by
  intro layout keys
  have hrepeats : Text.Repeats '/' (layout.composed keys) "//users///_id".toList :=
    Text.repeats_squeeze '/' "//users///_id".toList
  have hlongest : IsLongest layout.extensions "//users///_id.page.vue".toList ".page.vue".toList :=
    ⟨by decide, by decide, by decide, by decide⟩
  obtain ⟨-, -, -, hcomposed⟩ := keys_of_path layout
  exact ⟨hrepeats, hlongest, hcomposed keys (by decide) (by decide) _ hrepeats ".page.vue".toList (.inl hlongest)⟩

end PageRouting.Layout
