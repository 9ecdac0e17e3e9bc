import PageRouting.Compilation
import PageRouting.Proofs.Reading
import PageRouting.Proofs.Sorting

/-!
# `PageRouting/Proofs/Entries.lean` — reading the page files of a compilation

A compilation begins by reading its files, each once, and putting the entries in order. Here stands what that first part
leaves for the rest:

* `ofFile_eq_ok_iff`, `ofFile_eq_error`: what an entry holds of its file, and the two ways in which a file has none;
* `entries_eq_ok`: the entries are those of the distinct files, in some order;
* `entries_congr`: which order that is, and whether there are entries at all, depends on the set of files only;
* `compile_result_eq_ok`: what a compilation returns, in terms of its entries.
-/

set_option autoImplicit false

namespace PageRouting

/-! ## One page file -/

/-- The page of a file: its component path, or why there is none, and its chunk. -/
def Layout.pageOf (layout : Layout) (file : Text) : Except Fault Text × Option Text :=
  (layout.componentOf file, stem? layout.extensions file)

/-- A component path is missing only if it would hold a null character. -/
theorem Layout.componentOf_eq_error {layout : Layout} {file : Text} {fault : Fault}
    (h : layout.componentOf file = .error fault) : fault = .nullInPath := by
  simp only [Layout.componentOf, Path.absolute, List.getLast?_cons_cons, List.getLast?_singleton] at h
  split at h
  · cases h
  · unfold Location.ofParts at h
    split at h
    · cases h; rfl
    · cases h

namespace PageEntry

section

variable {ε : Type} {resolve : Text → Except ε Text} {layout : Layout} {file : Text} {entry : PageEntry}

theorem ofFileWith_eq_ok_iff : ofFileWith resolve layout file = .ok entry ↔ ∃ keys component, layout.keys file = .ok keys ∧
    resolve file = .ok component ∧
    entry = ⟨file, component, Layout.stem? layout.extensions file, keys.map Segment.ofKey⟩ := by
  unfold ofFileWith Layout.segments
  cases layout.keys file with
  | error fault => simp [bind, Except.bind, Except.map]
  | ok keys =>
    cases resolve file with
    | error cause => simp [bind, Except.bind, Except.map]
    | ok component => simp [bind, Except.bind, Except.map, pure, Except.pure, eq_comm]

/-- A file is rejected, or it is not and has no component path. -/
theorem ofFileWith_eq_error_iff {cause : Fault ⊕ ε} : ofFileWith resolve layout file = .error cause ↔
    (∃ fault, layout.keys file = .error fault ∧ cause = .inl fault) ∨
      ∃ keys other, layout.keys file = .ok keys ∧ resolve file = .error other ∧ cause = .inr other := by
  unfold ofFileWith Layout.segments
  cases layout.keys file with
  | error fault => simp [bind, Except.bind, Except.map, eq_comm]
  | ok keys =>
    cases resolve file with
    | error other => simp [bind, Except.bind, Except.map, eq_comm]
    | ok component => simp [bind, Except.bind, Except.map, pure, Except.pure]

theorem ofFile_eq_ok_iff : ofFile layout file = .ok entry ↔ ∃ keys component, layout.keys file = .ok keys ∧
    layout.componentOf file = .ok component ∧
    entry = ⟨file, component, Layout.stem? layout.extensions file, keys.map Segment.ofKey⟩ :=
  mapError_eq_ok_iff.trans ofFileWith_eq_ok_iff

end

theorem pageOf_of_ofFile {layout : Layout} {file : Text} {entry : PageEntry} (h : ofFile layout file = .ok entry) :
    layout.pageOf file = (.ok entry.component, entry.chunkName) := by
  obtain ⟨keys, component, -, hc, rfl⟩ := ofFile_eq_ok_iff.mp h
  rw [Layout.pageOf, hc]

theorem ofFile_eq_error {layout : Layout} {file : Text} {fault : Fault} (h : ofFile layout file = .error fault) :
    layout.keys file = .error fault ∨ layout.componentOf file = .error fault := by
  obtain ⟨cause, hcause, rfl⟩ := mapError_eq_error_iff.mp h
  rcases ofFileWith_eq_error_iff.mp hcause with ⟨fault, hkeys, rfl⟩ | ⟨keys, fault, -, hcomponent, rfl⟩
  · exact .inl hkeys
  · exact .inr hcomponent

theorem file_of_ofFile {layout : Layout} {file : Text} {entry : PageEntry} (h : ofFile layout file = .ok entry) :
    entry.file = file := by
  obtain ⟨keys, component, -, -, rfl⟩ := ofFile_eq_ok_iff.mp h
  rfl

theorem eq_of_file_eq {layout : Layout} {file other : Text} {a b : PageEntry} (ha : ofFile layout file = .ok a)
    (hb : ofFile layout other = .ok b) (h : a.file = b.file) : a = b := by
  rw [file_of_ofFile ha, file_of_ofFile hb] at h
  subst h
  exact Except.ok.inj (ha.symm.trans hb)

instance : Std.TransCmp PageEntry.compare :=
  have : Std.TransCmp fun a b : PageEntry => Text.compareAll a.keys b.keys :=
    { eq_swap := Std.OrientedCmp.eq_swap, isLE_trans := Std.TransCmp.isLE_trans }
  have : Std.TransCmp fun a b : PageEntry => Text.compare a.file b.file :=
    { eq_swap := Std.OrientedCmp.eq_swap, isLE_trans := Std.TransCmp.isLE_trans }
  inferInstanceAs (Std.TransCmp (compareLex (fun a b : PageEntry => Text.compareAll a.keys b.keys)
    fun a b => Text.compare a.file b.file))

end PageEntry

theorem Layout.isRejectedPage_of_keys {layout : Layout} {file : Text} {fault : Fault}
    (h : layout.keys file = .error fault) : fault.isRejectedPage := by
  unfold Layout.keys at h
  split at h
  · cases h; rfl
  · split at h <;> cases h
    rfl

/-! ## All page files -/

namespace Compilation

variable {layout : Layout} {files others : List Text}

theorem entriesWith_eq_ok {ε : Type} {resolve : Text → Except ε Text} {entries : List PageEntry}
    (h : entriesWith resolve layout files = .ok entries) :
    ∃ read, (Text.distinct files).mapM (PageEntry.ofFileWith resolve layout) = .ok read ∧ entries = PageEntry.sort read := by
  unfold entriesWith at h
  cases hm : (Text.distinct files).mapM (PageEntry.ofFileWith resolve layout) with
  | error cause => simp [hm, Except.map] at h
  | ok read =>
    refine ⟨read, rfl, ?_⟩
    simpa [hm, Except.map, eq_comm] using h

/-- The files are read one by one, up to the first one that cannot be read. -/
theorem entries_eq (layout : Layout) (files : List Text) : Compilation.entries layout files =
    ((Text.distinct files).mapM (PageEntry.ofFile layout)).map PageEntry.sort := by
  unfold Compilation.entries entriesWith PageEntry.ofFile
  rw [mapM_mapError]
  cases (Text.distinct files).mapM (PageEntry.ofFileWith layout.componentOf layout) <;> rfl

theorem entries_eq_ok {entries : List PageEntry} (h : Compilation.entries layout files = .ok entries) :
    ∃ read, (Text.distinct files).mapM (PageEntry.ofFile layout) = .ok read ∧ entries = PageEntry.sort read := by
  rw [Compilation.entries_eq] at h
  cases hm : (Text.distinct files).mapM (PageEntry.ofFile layout) with
  | error fault => simp [hm, Except.map] at h
  | ok read =>
    refine ⟨read, rfl, ?_⟩
    simpa [hm, Except.map, eq_comm] using h

theorem files_of_entries {entries : List PageEntry} (h : Compilation.entries layout files = .ok entries) :
    (entries.map PageEntry.file).Perm (Text.distinct files) := by
  obtain ⟨read, hread, rfl⟩ := entries_eq_ok h
  have hfile : (Text.distinct files).map id = read.map PageEntry.file :=
    map_eq_of_mapM_eq_ok hread fun file entry he => (PageEntry.file_of_ofFile he).symm
  rw [List.map_id] at hfile
  rw [hfile]
  exact (stableSort_perm _ read).map _

theorem mem_entriesWith_iff {ε : Type} {resolve : Text → Except ε Text} {entries : List PageEntry}
    (h : entriesWith resolve layout files = .ok entries) {entry : PageEntry} :
    entry ∈ entries ↔ ∃ file ∈ files, PageEntry.ofFileWith resolve layout file = .ok entry := by
  obtain ⟨read, hread, rfl⟩ := entriesWith_eq_ok h
  rw [PageEntry.sort, (stableSort_perm _ read).mem_iff, mem_iff_of_mapM_eq_ok hread]
  simp only [Text.mem_distinct]

theorem exists_entryWith {ε : Type} {resolve : Text → Except ε Text} {entries : List PageEntry}
    (h : entriesWith resolve layout files = .ok entries) {file : Text} (hm : file ∈ files) :
    ∃ entry ∈ entries, PageEntry.ofFileWith resolve layout file = .ok entry := by
  obtain ⟨read, hread, rfl⟩ := entriesWith_eq_ok h
  obtain ⟨entry, he, hf⟩ := exists_of_mapM_eq_ok hread ((Text.mem_distinct _ _).mpr hm)
  exact ⟨entry, (stableSort_perm _ read).mem_iff.mpr he, hf⟩

theorem mem_entries_iff {entries : List PageEntry} (h : Compilation.entries layout files = .ok entries)
    {entry : PageEntry} : entry ∈ entries ↔ ∃ file ∈ files, PageEntry.ofFile layout file = .ok entry := by
  simp only [mem_entriesWith_iff (mapError_eq_ok_iff.mp h), PageEntry.ofFile, mapError_eq_ok_iff]

theorem exists_entry {entries : List PageEntry} (h : Compilation.entries layout files = .ok entries) {file : Text}
    (hm : file ∈ files) : ∃ entry ∈ entries, PageEntry.ofFile layout file = .ok entry := by
  obtain ⟨entry, he, hread⟩ := exists_entryWith (mapError_eq_ok_iff.mp h) hm
  exact ⟨entry, he, mapError_eq_ok_iff.mpr hread⟩

theorem distinct_perm (same : ∀ file, file ∈ files ↔ file ∈ others) :
    (Text.distinct files).Perm (Text.distinct others) := by
  refine (List.perm_ext_iff_of_nodup (Text.distinct_nodup _) (Text.distinct_nodup _)).mpr fun file => ?_
  rw [Text.mem_distinct, Text.mem_distinct]
  exact same file

/-- **The entries depend on the set of files.** Two files never tie, so there is one order to put them in. -/
theorem entries_congr {entries : List PageEntry} (same : ∀ file, file ∈ files ↔ file ∈ others)
    (h : Compilation.entries layout files = .ok entries) : Compilation.entries layout others = .ok entries := by
  obtain ⟨read, hread, rfl⟩ := entries_eq_ok h
  have hp := distinct_perm same
  have hok : ∀ file ∈ Text.distinct others, ∃ entry, PageEntry.ofFile layout file = .ok entry := by
    intro file hm
    obtain ⟨entry, -, he⟩ := exists_of_mapM_eq_ok hread (hp.mem_iff.mpr hm)
    exact ⟨entry, he⟩
  obtain ⟨read', hread'⟩ := exists_mapM_eq_ok hok
  have hperm : read.Perm read' := perm_of_mapM_eq_ok hread hread' hp
  have hsort : PageEntry.sort read = PageEntry.sort read' := by
    -- the sort is stable, so only entries that tie could keep the order of the listing; none do
    refine stableSort_eq_of_compare PageEntry.compare (fun a ha b hb hab => ?_) hperm
    obtain ⟨_, -, hfa⟩ := (mem_iff_of_mapM_eq_ok hread).mp ha
    obtain ⟨_, -, hfb⟩ := (mem_iff_of_mapM_eq_ok hread).mp hb
    exact PageEntry.eq_of_file_eq hfa hfb (PageEntry.file_eq_of_compare_eq hab)
  rw [Compilation.entries_eq, hread', hsort]
  rfl

theorem entries_eq_error {fault : Fault} (h : Compilation.entries layout files = .error fault) :
    ∃ file ∈ files, PageEntry.ofFile layout file = .error fault := by
  rw [Compilation.entries_eq] at h
  cases hm : (Text.distinct files).mapM (PageEntry.ofFile layout) with
  | ok read => simp [hm, Except.map] at h
  | error other =>
    obtain ⟨file, hfile, hf⟩ := exists_of_mapM_eq_error hm
    simp only [hm, Except.map, Except.error.injEq] at h
    exact ⟨file, (Text.mem_distinct _ _).mp hfile, h ▸ hf⟩

/-! ## What a compilation returns -/

theorem compile_of_entries_eq_ok {entries : List PageEntry} (h : Compilation.entries layout files = .ok entries) :
    compile layout files = Compilation.ofEntries entries := by
  rw [compile, compileWith, mapError_eq_ok_iff.mp h]

theorem compile_of_entries_eq_error {fault : Fault} (h : Compilation.entries layout files = .error fault) :
    compile layout files = { result := .error fault, notices := [] } := by
  obtain ⟨cause, hcause, rfl⟩ := mapError_eq_error_iff.mp h
  rw [compile, compileWith, hcause]
  cases cause <;> rfl

theorem ofEntries_result (entries : List PageEntry) :
    (Compilation.ofEntries entries).result =
      match ((Compilation.build entries).1.collapse false).fault with
      | some fault => .error fault
      | none => .ok ((Compilation.build entries).1.collapse false).value := by
  unfold Compilation.ofEntries
  cases hf : ((Compilation.build entries).1.collapse false).fault with
  | none => simp only [hf]
  | some fault => simp only [hf]

theorem compile_result_eq_ok {forest : Forest} (h : (compile layout files).result = .ok forest) :
    ∃ entries, Compilation.entries layout files = .ok entries ∧
      ((Compilation.build entries).1.collapse false).fault = none ∧
      ((Compilation.build entries).1.collapse false).value = forest := by
  cases he : Compilation.entries layout files with
  | error fault =>
    rw [compile_of_entries_eq_error he] at h
    cases h
  | ok entries =>
    refine ⟨entries, rfl, ?_⟩
    rw [compile_of_entries_eq_ok he, ofEntries_result] at h
    split at h
    · cases h
    · next hf => exact ⟨hf, Except.ok.inj h⟩

end Compilation

end PageRouting
