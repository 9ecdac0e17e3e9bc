import PageRouting.Proofs.Listing
import PageRouting.Proofs.Runs
import PageRouting.Proofs.Trie

/-!
# `PageRouting/Proofs/Keys.lean` — the keys of a page file, whatever its path

Nothing is asked of the paths of page files: they may hold any characters, slashes in a row, dots in any place. One thing is
true of their keys all the same: no key but the last is empty, since slashes in a row count once and those in front not at all
(`Layout.ne_nil_of_keys_eq`). The last one may be empty, where a path has nothing between its last slash and its extension.

Insertion needs that. A key that is not empty has a label that is not empty, so the entries of page files are labelled
(`isLabelled_of_keys`), and the names of routes tell their places.
-/

set_option autoImplicit false

namespace PageRouting

/-! ## Keys -/

namespace Layout

theorem exists_stem_of_keys_eq {layout : Layout} {file : Text} {keys : List Text} (h : layout.keys file = .ok keys) :
    ∃ stem, keys = keysOfStem stem := by
  unfold Layout.keys at h
  split at h
  · cases h
  · split at h
    · cases h
    · next stem _ =>
      cases h
      exact ⟨stem, rfl⟩

/-- The labels of a file's keys; none if the layout rejects it. -/
def labels (layout : Layout) (file : Text) : List Text :=
  ((layout.keys file).toOption.getD []).map keyLabel

theorem slash_not_mem_of_keys_eq {layout : Layout} {file key : Text} {keys : List Text} (h : layout.keys file = .ok keys)
    (hk : key ∈ keys) : '/' ∉ key := by
  obtain ⟨stem, rfl⟩ := exists_stem_of_keys_eq h
  exact Text.not_mem_of_mem_split _ _ key hk

/-- **No key but the last is empty.** -/
theorem ne_nil_of_keys_eq {layout : Layout} {file : Text} {keys : List Text} (h : layout.keys file = .ok keys) :
    ∀ key ∈ keys.dropLast, key ≠ [] := by
  obtain ⟨stem, rfl⟩ := exists_stem_of_keys_eq h
  exact (Text.ne_nil_of_mem_split (Text.hasNoRun_squeeze _ _).dropLeading).2 (Text.head?_dropLeading _ _)

end Layout

/-! ## Entries -/

namespace PageEntry

theorem labels_of_ofFileWith {ε : Type} {resolve : Text → Except ε Text} {layout : Layout} {file : Text} {entry : PageEntry}
    (h : ofFileWith resolve layout file = .ok entry) : entry.labels = layout.labels file := by
  obtain ⟨keys, _, hk, -, rfl⟩ := ofFileWith_eq_ok_iff.mp h
  rw [Layout.labels, hk, PageEntry.labels, List.map_map]
  rfl

theorem labels_of_ofFile {layout : Layout} {file : Text} {entry : PageEntry} (h : ofFile layout file = .ok entry) :
    entry.labels = layout.labels file :=
  labels_of_ofFileWith (mapError_eq_ok_iff.mp h)

/-- Has the entry been read from a page file? -/
def IsRead (entry : PageEntry) : Prop :=
  ∃ layout file, ofFile layout file = .ok entry

/-- The entries of those page files that can be read, in the order of the files. -/
def readable (layout : Layout) (files : List Text) : List PageEntry :=
  files.filterMap fun file => (ofFile layout file).toOption

theorem isRead_of_mem_readable {layout : Layout} {files : List Text} : ∀ entry ∈ readable layout files, entry.IsRead := by
  intro entry hm
  obtain ⟨file, -, hf⟩ := List.mem_filterMap.mp hm
  cases hr : ofFile layout file with
  | error fault => simp [hr, Except.toOption] at hf
  | ok other =>
    rw [hr] at hf
    exact ⟨layout, file, hr.trans (congrArg _ (Option.some.inj hf))⟩

variable {entry : PageEntry}

/-- **Page files are labelled**: only the last label may be empty. -/
theorem isLabelled_of_keys {layout : Layout} {file : Text} {keys : List Text} (hk : layout.keys file = .ok keys)
    (hs : entry.segments = keys.map Segment.ofKey) : entry.IsLabelled := by
  have hlabels : entry.labels = keys.map keyLabel := by
    rw [labels, hs, List.map_map]
    rfl
  refine ⟨fun hnil => ?_, fun {above label below} hl hbelow => ?_⟩
  · rw [hs, List.map_eq_nil_iff] at hnil
    exact Layout.ne_nil_of_keys hk hnil
  · rw [hlabels] at hl
    obtain ⟨front, back, rfl, -, hback⟩ := List.map_eq_append_iff.mp hl
    obtain ⟨key, rest, rfl, rfl, hrest⟩ := List.map_eq_cons_iff.mp hback
    have hmore : key :: rest ≠ [] := by simp
    have hkey : key ∈ (front ++ key :: rest).dropLast := by
      rw [List.dropLast_append_of_ne_nil hmore]
      refine List.mem_append_right _ ?_
      cases rest with
      | nil => exact absurd hrest.symm hbelow
      | cons next rest => exact List.mem_cons_self
    exact keyLabel_ne_nil (Layout.ne_nil_of_keys_eq hk key hkey)

theorem isLabelled_of_ofFileWith {ε : Type} {resolve : Text → Except ε Text} {layout : Layout} {file : Text}
    (h : ofFileWith resolve layout file = .ok entry) : entry.IsLabelled := by
  obtain ⟨keys, _, hk, -, rfl⟩ := ofFileWith_eq_ok_iff.mp h
  exact isLabelled_of_keys hk rfl

theorem IsRead.exists_keys (h : entry.IsRead) :
    ∃ layout file keys, Layout.keys layout file = .ok keys ∧ entry.segments = keys.map Segment.ofKey := by
  obtain ⟨layout, file, hf⟩ := h
  obtain ⟨keys, _, hk, -, rfl⟩ := ofFile_eq_ok_iff.mp hf
  exact ⟨layout, file, keys, hk, rfl⟩

theorem IsRead.isLabelled (h : entry.IsRead) : entry.IsLabelled := by
  obtain ⟨layout, file, keys, hk, hs⟩ := h.exists_keys
  exact isLabelled_of_keys hk hs

end PageEntry

end PageRouting
