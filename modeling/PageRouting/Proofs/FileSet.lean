import PageRouting.Proofs.Collapsing
import PageRouting.Proofs.Entries

/-!
# `PageRouting/Proofs/FileSet.lean` — the compiled forest is a function of the set of files

Placing pages depends on their order: the first page of a name gets the route, later ones are nested below it. What makes
the result depend on the set of files alone is the order in which a compilation places them, which it derives itself
(`Compilation.entries_congr`). What is left is the case in which a file cannot be read. Then nothing is placed, and
whether the fault is that of one bad file or of another is decided by the order of the listing.
-/

set_option autoImplicit false

namespace PageRouting

/--
Does the fault lie in a value that was given? That of a rejected page file does: it is the special case that names the
file and the reason.
-/
def Fault.isValueFault : Fault → Bool
  | .outsideRoot .. | .unknownExtension .. | .missingIndexPart | .nullInPath | .notAnInteger .. => true
  | _ => false

theorem Fault.isValueFault_of_isRejectedPage {fault : Fault} (h : fault.isRejectedPage) : fault.isValueFault := by
  cases fault with
  | outsideRoot | unknownExtension => rfl
  | _ => exact absurd h (by simp [Fault.isRejectedPage])

namespace Compilation

/-- Has the compilation been refused because of a page file that the layout rejects? -/
def IsRejected (compilation : Compilation) : Prop :=
  ∃ fault, compilation.result = .error fault ∧ fault.isRejectedPage

/-- Has the compilation stopped because of a value that was given? -/
def HasValueFault (compilation : Compilation) : Prop :=
  ∃ fault, compilation.result = .error fault ∧ fault.isValueFault

/-- The warnings of a compilation, in order. -/
def warnings (compilation : Compilation) : List Notice :=
  Notice.atLeast .warning compilation.notices

theorem IsRejected.hasValueFault {compilation : Compilation} (h : compilation.IsRejected) :
    compilation.HasValueFault :=
  let ⟨fault, hr, hf⟩ := h
  ⟨fault, hr, Fault.isValueFault_of_isRejectedPage hf⟩

variable {layout : Layout} {files others : List Text}

/-- Where the entries cannot be read, a file is rejected, or there is no component path for it. -/
theorem refused_of_entries_eq_error {fault : Fault} (h : Compilation.entries layout files = .error fault) :
    (compile layout files).IsRejected ∨
      compile layout files = ⟨.error .nullInPath, []⟩ ∧ ∃ file ∈ files, layout.componentOf file = .error .nullInPath := by
  obtain ⟨file, hm, hf⟩ := entries_eq_error h
  rw [compile_of_entries_eq_error h]
  rcases PageEntry.ofFile_eq_error hf with hk | hc
  · exact .inl ⟨fault, rfl, Layout.isRejectedPage_of_keys hk⟩
  · obtain rfl := Layout.componentOf_eq_error hc
    exact .inr ⟨rfl, file, hm, hc⟩

theorem ofEntries_ends (entries : List PageEntry) :
    (Compilation.ofEntries entries).HasValueFault ∨ ∃ forest, (Compilation.ofEntries entries).result = .ok forest := by
  cases hf : ((Compilation.build entries).1.collapse false).fault with
  | none => exact .inr ⟨_, by rw [ofEntries_result, hf]⟩
  | some fault =>
    obtain rfl := Forest.fault_collapse hf
    exact .inl ⟨.missingIndexPart, by rw [ofEntries_result, hf], rfl⟩

/--
**The compiled forest is a function of the set of files.** Listings with the same files are both rejected, or both stop at
a value that was given, or give the same forest; and they give the same warnings unless one is rejected.

The second case is needed where a listing holds both a file that is rejected and a file without a component path: which of
them stops the compilation depends on the order. The last part says that there is no other such case. As long as every
file has a component path, listings with the same files are both rejected, or nothing tells the two compilations apart.
-/
theorem compile_same_files (same : ∀ file, file ∈ files ↔ file ∈ others) :
    ((compile layout files).IsRejected ∧ (compile layout others).IsRejected ∨
      (compile layout files).HasValueFault ∧ (compile layout others).HasValueFault ∨
      ∃ forest, (compile layout files).result = .ok forest ∧ (compile layout others).result = .ok forest) ∧
    (¬ (compile layout files).IsRejected → ¬ (compile layout others).IsRejected →
      (compile layout files).warnings = (compile layout others).warnings) ∧
    ((∀ file ∈ files, ∃ component, layout.componentOf file = .ok component) →
      (compile layout files).IsRejected ∧ (compile layout others).IsRejected ∨
        compile layout files = compile layout others) := by
  cases he : Compilation.entries layout files with
  | ok entries =>
    have hsame : compile layout files = compile layout others := by
      rw [compile_of_entries_eq_ok he, compile_of_entries_eq_ok (entries_congr same he)]
    refine ⟨.inr ?_, fun _ _ => congrArg warnings hsame, fun _ => .inr hsame⟩
    rw [← hsame, compile_of_entries_eq_ok he]
    rcases ofEntries_ends entries with hv | ⟨forest, hr⟩
    · exact .inl ⟨hv, hv⟩
    · exact .inr ⟨forest, hr, hr⟩
  | error fault =>
    -- the other listing cannot be read either, but its first bad file may be another one
    obtain ⟨fault', he'⟩ : ∃ fault', Compilation.entries layout others = .error fault' := by
      cases ho : Compilation.entries layout others with
      | error fault' => exact ⟨fault', rfl⟩
      | ok entries =>
        rw [entries_congr (fun file => (same file).symm) ho] at he
        cases he
    have hleft := refused_of_entries_eq_error he
    have hright := refused_of_entries_eq_error he'
    have hvalue : ∀ {listing : List Text} {P : Prop}, (compile layout listing).IsRejected ∨
        compile layout listing = ⟨.error .nullInPath, []⟩ ∧ P → (compile layout listing).HasValueFault := by
      rintro listing P (hr | ⟨hn, -⟩)
      · exact hr.hasValueFault
      · exact ⟨.nullInPath, by rw [hn], rfl⟩
    refine ⟨.inr (.inl ⟨hvalue hleft, hvalue hright⟩), fun hnl hnr => ?_, fun hlocated => .inl ?_⟩
    · rcases hleft with hl | ⟨hl, -⟩
      · exact absurd hl hnl
      · rcases hright with hr | ⟨hr, -⟩
        · exact absurd hr hnr
        · rw [hl, hr]
    · have hno : ∀ {file : Text}, file ∈ files → layout.componentOf file ≠ .error .nullInPath := by
        intro file hm hc
        obtain ⟨component, hok⟩ := hlocated file hm
        rw [hok] at hc
        cases hc
      refine ⟨hleft.resolve_right ?_, hright.resolve_right ?_⟩
      · rintro ⟨-, file, hm, hc⟩
        exact hno hm hc
      · rintro ⟨-, file, hm, hc⟩
        exact hno ((same file).mpr hm) hc

/-- Two pages of one name, one of them listed twice, are nested the same way round in either order. -/
theorem compile_same_files_twins :
    let layout : Layout := ⟨"/srv".toList, Layout.defaultPagesDir, Layout.defaultExtensions, .posix⟩
    let files := ["pages/a.vue".toList, "pages/a.js".toList, "pages/a.vue".toList]
    let others := ["pages/a.js".toList, "pages/a.vue".toList]
    (∀ file, file ∈ files ↔ file ∈ others) ∧ (∀ file ∈ files, ∃ component, layout.componentOf file = .ok component) ∧
      compile layout files = compile layout others := by
  intro layout files others
  have hsame : ∀ file, file ∈ files ↔ file ∈ others := by
    intro file
    simp only [files, others, List.mem_cons, List.not_mem_nil, or_false]
    grind
  have hok : ∀ file ∈ files, (layout.componentOf file).isOk := by decide +kernel
  have hlocated : ∀ file ∈ files, ∃ component, layout.componentOf file = .ok component := by
    intro file hm
    cases hc : layout.componentOf file with
    | ok component => exact ⟨component, rfl⟩
    | error fault => exact absurd (hc ▸ hok file hm) (by simp [Except.isOk, Except.toBool])
  have hreturns : (compile layout files).result.isOk := by decide +kernel
  refine ⟨hsame, hlocated, ?_⟩
  rcases (compile_same_files hsame).2.2 hlocated with ⟨⟨fault, hr, -⟩, -⟩ | hcompile
  · rw [hr] at hreturns
    cases hreturns
  · exact hcompile

end Compilation

end PageRouting
