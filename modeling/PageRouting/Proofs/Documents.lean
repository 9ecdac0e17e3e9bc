import PageRouting.CommandLine.Run
import PageRouting.Proofs.Directories

/-!
# `PageRouting/Proofs/Documents.lean` — a document is put in one place, left behind, or nowhere

A document is put on the disk with all directories that it needs, and that can stop half way. Of the files none but one is touched
(`CommandLine.writeDocument_cases`): the document is put in one place, or its draft is left behind under the temporary name, or there
is a fault and all files are as they were. A draft is left behind only if the document cannot be encoded, or for a null character in
its path; what the host system refuses is cleared away.

The place is where the path leads by its text, with one exception. A path that goes up again can lead to a directory once the missing
ones have been made on the way, though it led nowhere before; the document is then put into that directory under the name that it was
kept under until then (`Disk.Made.mem_up_or_isDirectory`).
-/

set_option autoImplicit false

namespace PageRouting

/-! ## Files by their places -/

namespace Disk

/-- The text of the file at a location, if there is one. -/
def text? (disk : Disk) (location : Location) : Option Text :=
  (disk.files.find? fun file => file.1 = location).map Prod.snd

variable {disk after : Disk} {location other : Location} {text : Text}

theorem text?_congr (h : after.files = disk.files) (location : Location) : after.text? location = disk.text? location := by
  rw [text?, h, text?]

theorem text?_putFile_self (disk : Disk) (location : Location) (text : Text) :
    (disk.putFile location text).text? location = some text := by
  have hgone : (disk.files.filter fun file => file.1 ≠ location).find? (fun file => file.1 = location) = none := by
    simp
  simp only [text?, putFile, List.find?_append, hgone]
  simp

theorem text?_putFile_ne (disk : Disk) (text : Text) (h : other ≠ location) :
    (disk.putFile location text).text? other = disk.text? other := by
  have hkept : (disk.files.filter fun file => file.1 ≠ location).find? (fun file => file.1 = other) =
      disk.files.find? fun file => file.1 = other := by
    rw [List.find?_filter]
    congr 1
    funext file
    by_cases hfile : file.1 = other <;> simp [hfile, h]
  simp only [text?, putFile, List.find?_append, hkept]
  simp [h.symm]

theorem putFile_files (h : after.files = disk.files) (location : Location) (text : Text) :
    (after.putFile location text).files = (disk.putFile location text).files := by
  simp only [putFile, h]

end Disk

/-! ## Paths by their text -/

theorem Location.along_of_plain {components : List Text} (h : ['.', '.'] ∉ components) (start : Location) :
    start.along components = start ++ components := by
  induction components using List.reverseRecOn with
  | nil => simp [along]
  | append_singleton components name ih =>
    simp only [List.mem_append, List.mem_singleton, not_or] at h
    rw [along_concat, ih h.1, step, if_neg (Ne.symm h.2), List.append_assoc]

namespace DiskPath

/-- Where the path leads by its text. -/
def target (path : DiskPath) (workingDirectory : Location) : Location :=
  (path.start workingDirectory).along path.components

/-- A path without components is too short to be refused. -/
theorem isTooLong_of_nil {text : Text} (h : (ofText text).components = []) : (ofText text).isTooLong = false := by
  have hleading : leadingSlashes text = [] ∨ leadingSlashes text = ['/'] ∨ leadingSlashes text = ['/', '/'] := by
    unfold leadingSlashes
    split <;> simp
  unfold isTooLong DiskPath.text
  rw [h]
  rcases hleading with hl | hl | hl <;> simp only [ofText, hl] <;> decide

/-- A path that leads to no directory has components. -/
theorem components_ne_nil {disk : Disk} {workingDirectory : Location} {text : Text}
    (h : ∀ location, disk.find workingDirectory (ofText text) ≠ .directory location) : (ofText text).components ≠ [] := by
  intro hnil
  refine h ((ofText text).start workingDirectory) ?_
  rw [Disk.find, isTooLong_of_nil hnil, hnil]
  rfl

end DiskPath

namespace Disk

variable {disk : Disk} {directory workingDirectory : Location} {path : DiskPath} {above : List Text} {name : Text}

/-- Does every directory lie in one? -/
def IsClosed (disk : Disk) : Prop :=
  ∀ location ∈ disk.directories, disk.isDirectory location.dropLast = true

instance (disk : Disk) : Decidable disk.IsClosed :=
  inferInstanceAs (Decidable (∀ location ∈ disk.directories, disk.isDirectory location.dropLast = true))

theorem IsClosed.isDirectory_above (h : disk.IsClosed) {location : Location}
    (hlocation : disk.isDirectory (location ++ [name]) = true) : disk.isDirectory location = true := by
  have hthere : location ++ [name] ∈ disk.directories := by simpa [isDirectory] using hlocation
  simpa using h _ hthere

/-- A directory is found along names that are not too long, if all those above it are there. -/
theorem IsClosed.foldl_step (h : disk.IsClosed) {start : Location} {components : List Text} (hplain : ['.', '.'] ∉ components)
    (hnames : ∀ name ∈ components, Refusal.isLongName name = false) (hlocation : disk.isDirectory (start ++ components) = true) :
    components.foldl disk.step (.directory start) = .directory (start ++ components) := by
  induction components using List.reverseRecOn with
  | nil => simp
  | append_singleton components name ih =>
    simp only [List.mem_append, List.mem_singleton, not_or] at hplain
    obtain ⟨hnamesAbove, hname⟩ := List.forall_mem_append.mp hnames
    rw [← List.append_assoc] at hlocation ⊢
    rw [List.foldl_append, ih hplain.1 hnamesAbove (h.isDirectory_above hlocation), List.foldl_cons, List.foldl_nil, step,
      if_neg (Ne.symm hplain.2), named, if_neg (by simp [List.forall_mem_singleton.mp hname]), if_pos hlocation]

/-- Where a path that does not go up leads to a directory by its text, that directory is found. -/
theorem IsClosed.find_target (h : disk.IsClosed) (hplain : ['.', '.'] ∉ path.components) (hfits : path.Fits)
    (hdirectory : disk.isDirectory (path.target workingDirectory) = true) :
    disk.find workingDirectory path = .directory (path.target workingDirectory) := by
  rw [DiskPath.target, Location.along_of_plain hplain] at hdirectory ⊢
  rw [find, if_neg (Bool.eq_false_iff.mp hfits.length)]
  exact h.foldl_step hplain hfits.names hdirectory

/-! ## The last component -/

theorem entry_eq (hpath : path.components = above ++ [name]) :
    disk.entry directory path = if path.isTooLong then .nowhere .nameTooLong else disk.step (.directory directory) name := by
  simp [entry, hpath]

/-- Texts are put below the directory, under the last component of their path, or none is and nothing is changed. -/
theorem writeIn_cases (disk : Disk) (directory : Location) (hpath : path.components = above ++ [name]) :
    (∃ fault, ∀ text, disk.writeIn directory path text = { result := .error fault, disk }) ∨
    (∀ text, disk.writeIn directory path text = { result := .ok (), disk := disk.putFile (directory ++ [name]) text }) ∧
      path.holdsNull = false ∧ path.isTooLong = false ∧ Refusal.isLongName name = false ∧
      Location.step directory name = directory ++ [name] := by
  unfold writeIn
  rw [entry_eq hpath]
  cases hnull : path.holdsNull with
  | true => exact .inl ⟨_, fun _ => rfl⟩
  | false =>
    cases hlength : path.isTooLong with
    | true => exact .inl ⟨_, fun _ => rfl⟩
    | false =>
      rcases disk.step_cases directory name with ⟨hstep, -⟩ | ⟨hname, ⟨hstep, -⟩ | ⟨hbelow, ⟨hstep, -⟩ | hstep⟩⟩
      · exact .inl ⟨.refused path.text .nameTooLong, by simp [hstep, refuse]⟩
      · exact .inl ⟨.refused path.text .isADirectory, by simp [hstep, refuse]⟩
      · exact .inr ⟨by simp [hstep], rfl, rfl, hname, hbelow⟩
      · exact .inr ⟨by simp [hstep, hpath], rfl, rfl, hname, hbelow⟩

/-- Without a null character in its path, a text is kept from its place by a refusal alone. -/
theorem writeIn_null {text : Text} {fault : Fault} (h : (disk.writeIn directory path text).result = .error fault) :
    path.holdsNull = true ∨ ∃ refused refusal, fault = .refused refused refusal := by
  unfold writeIn at h
  split at h
  · next hnull => exact .inl hnull
  · split at h <;> cases h <;> exact .inr ⟨_, _, rfl⟩

/-- A text is put where there is no directory, if the path fits. -/
theorem writeIn_result (hpath : path.components = above ++ [name]) (hfits : path.Fits)
    (hentry : ∀ location, disk.entry directory path ≠ .directory location) (text : Text) :
    (disk.writeIn directory path text).result = .ok () := by
  have hname : Refusal.isLongName name = false := hfits.names name (by simp [hpath])
  have hstep : disk.entry directory path = disk.step (.directory directory) name := by
    rw [entry_eq hpath, if_neg (Bool.eq_false_iff.mp hfits.length)]
  rw [hstep] at hentry
  unfold writeIn
  rw [if_neg (Bool.eq_false_iff.mp hfits.null), hstep]
  rcases disk.step_cases directory name with ⟨-, hlong⟩ | ⟨-, ⟨hfound, -⟩ | ⟨-, ⟨hfound, -⟩ | hfound⟩⟩
  · rw [hname] at hlong
    contradiction
  · exact absurd hfound (hentry _)
  · rw [hfound]
  · rw [hfound]

/-- A directory where a path leads by its text was there before those above it were made, unless the path goes up. -/
theorem Made.mem_up_or_isDirectory {start : Location} {change : Change Location} (h : Made disk start above change)
    (hdirectory : change.disk.isDirectory (start.along (above ++ [name])) = true) :
    ['.', '.'] ∈ above ++ [name] ∨ disk.isDirectory (start.along (above ++ [name])) = true := by
  by_cases hup : ['.', '.'] ∈ above ++ [name]
  · exact .inl hup
  · refine .inr ((h.directories _ hdirectory).resolve_right ?_)
    rintro ⟨beginning, hbegins, heq⟩
    have hupBeginning : ['.', '.'] ∉ beginning := fun hm => hup (List.mem_append_left _ (hbegins.subset hm))
    rw [Location.along_of_plain hup, Location.along_of_plain hupBeginning] at heq
    have hlength := congrArg List.length (List.append_cancel_left heq)
    have hle := hbegins.length_le
    rw [List.length_append, List.length_singleton] at hlength
    omega

end Disk

namespace CommandLine

open Disk

variable {disk : Disk} {directory workingDirectory : Location} {path : DiskPath} {above : List Text}
  {name temporaryName content : Text}

/-- The document is put under the last component, or below the directory that this is, or nothing is changed. -/
theorem putDocument_cases (disk : Disk) (temporaryName : Text) (directory : Location) (hpath : path.components = above ++ [name])
    (content : Text) :
    (∃ fault, putDocument disk temporaryName directory path content = { result := .error fault, disk }) ∨
    (∃ place, putDocument disk temporaryName directory path content =
        { result := .ok (), disk := disk.putFile place content } ∧
      (place = Location.step directory name ∨ place = Location.step directory name ++ [temporaryName] ∧
        (name = ['.', '.'] ∨ disk.isDirectory (Location.step directory name) = true))) ∧
    path.holdsNull = false ∧ path.isTooLong = false ∧ Refusal.isLongName name = false := by
  unfold putDocument
  split
  · next location hentry =>
    have hchild : (path.child temporaryName).components = (above ++ [name]) ++ [temporaryName] := by
      rw [DiskPath.child, hpath]
    rw [entry_eq hpath] at hentry
    split at hentry
    · contradiction
    · next hlength =>
      rcases disk.step_cases directory name with ⟨hstep, -⟩ | ⟨hname, ⟨hstep, hdirectory⟩ | ⟨-, ⟨hstep, -⟩ | hstep⟩⟩ <;>
        rw [hstep] at hentry <;> cases hentry
      rcases disk.writeIn_cases (Location.step directory name) hchild with ⟨fault, hfault⟩ | ⟨hwritten, hnull, -⟩
      · exact .inl ⟨fault, hfault content⟩
      · have hnullPath : path.holdsNull = false := (Location.holdsNull_append.mp hnull).1
        exact .inr ⟨⟨_, hwritten content, .inr ⟨rfl, hdirectory⟩⟩, hnullPath, Bool.eq_false_iff.mpr hlength, hname⟩
  · rcases disk.writeIn_cases directory hpath with ⟨fault, hfault⟩ | ⟨hwritten, hnull, hlength, hname, hbelow⟩
    · exact .inl ⟨fault, hfault content⟩
    · exact .inr ⟨⟨_, hwritten content, .inl hbelow.symm⟩, hnull, hlength, hname⟩

/-- A document has been put at a place, all other files are as they were. -/
structure Stored (disk : Disk) (workingDirectory : Location) (temporaryName : Text) (path : DiskPath) (content : Text) (after : Disk)
    (place : Location) : Prop where
  files : after.files = (disk.putFile place content).files
  fits : path.Fits
  leads : place = path.target workingDirectory ∨ place = path.target workingDirectory ++ [temporaryName] ∧
    (['.', '.'] ∈ path.components ∨ disk.isDirectory (path.target workingDirectory) = true)

/-- A document has been given up: a text of it is left under its temporary name, all other files are as they were. -/
def Left (disk : Disk) (workingDirectory : Location) (temporaryName : Text) (path : DiskPath) (after : Disk) (text : Text) : Prop :=
  after.files = (disk.putFile (path.parent.target workingDirectory ++ [temporaryName]) text).files

/-- Without a null character, a document is kept from its place by a refusal alone. -/
theorem putDocument_null {fault : Fault} (h : (putDocument disk temporaryName directory path content).result = .error fault) :
    path.holdsNull = true ∨ (path.child temporaryName).holdsNull = true ∨ ∃ refused refusal, fault = .refused refused refusal := by
  unfold putDocument at h
  split at h
  · exact .inr (writeIn_null h)
  · exact (writeIn_null h).imp_right .inr

/-- What has been given up is told as a fault; a refusal leaves the first of the two disks. -/
theorem giveUp_cases (path : Text) (cleared left : Disk) (fault : Fault) :
    (∃ told, (giveUp path cleared left fault).1.result = .error told) ∧
      ((giveUp path cleared left fault).1.disk = cleared ∨
        (giveUp path cleared left fault).1.disk = left ∧ ¬ ∃ refused refusal, fault = .refused refused refusal) := by
  unfold giveUp
  split
  · exact ⟨⟨_, rfl⟩, .inl rfl⟩
  · next hfault => exact ⟨⟨_, rfl⟩, .inr ⟨rfl, fun ⟨refused, refusal, heq⟩ => hfault refused refusal heq⟩⟩

/-- In a directory that exists, a document is put at its place, or left under its temporary name, or no file is touched. -/
theorem writeDocumentIn_cases (strays : Strays) (disk : Disk) (temporaryName : Text) (directory : Location) {path : Text}
    (hpath : (DiskPath.ofText path).components = above ++ [name]) (content : Text) :
    let written := (writeDocumentIn strays disk temporaryName directory path content).1
    (∃ fault, written.result = .error fault ∧ written.disk = disk) ∨
    (∃ fault text, written.result = .error fault ∧ written.disk = disk.putFile (directory ++ [temporaryName]) text ∧
      (strays.IsFree content → (DiskPath.ofText path).holdsNull = true)) ∨
    strays.IsFree content ∧ written = putDocument disk temporaryName directory (.ofText path) content ∧ written.result = .ok () := by
  have hpathDraft : ((DiskPath.ofText path).parent.child temporaryName).components = above ++ [temporaryName] := by
    simp [DiskPath.child, DiskPath.parent, hpath]
  unfold writeDocumentIn
  rcases disk.writeIn_cases directory hpathDraft with ⟨fault, hdraft⟩ | ⟨hdraft, hnullDraft, -⟩
  · obtain ⟨⟨told, htold⟩, hdisk⟩ := giveUp_cases path disk disk fault
    simp only [hdraft]
    exact .inl ⟨told, htold, hdisk.elim id And.left⟩
  · simp only [hdraft]
    split
    · next run hrun =>
      have hstray : ¬ strays.IsFree content := fun hfree => by
        rw [Strays.first?_eq_none_iff.mpr hfree] at hrun
        contradiction
      exact .inr (.inl ⟨_, [], rfl, rfl, fun hfree => absurd hfree hstray⟩)
    · next hnone =>
      split
      · next fault hput =>
        obtain ⟨⟨told, htold⟩, hcleared | ⟨hleft, hunrefused⟩⟩ :=
          giveUp_cases path disk (disk.putFile (directory ++ [temporaryName]) content) fault
        · exact .inl ⟨told, htold, hcleared⟩
        · refine .inr (.inl ⟨told, content, htold, hleft, fun _ => ?_⟩)
          by_contra hfree
          rw [Bool.not_eq_true] at hfree
          have htemporary : Location.holdsNull [temporaryName] = false := (Location.holdsNull_append.mp hnullDraft).2
          have hchild : ((DiskPath.ofText path).child temporaryName).holdsNull = false :=
            Location.holdsNull_append.mpr ⟨hfree, htemporary⟩
          rcases putDocument_null hput with hnull | hnull | hrefused
          · exact absurd hfree (by simp [hnull])
          · exact absurd hchild (by simp [hnull])
          · exact hunrefused hrefused
      · next hput => exact .inr (.inr ⟨Strays.first?_eq_none_iff.mp hnone, rfl, hput⟩)

/-- Without the directories that it needs the document is not put anywhere. -/
theorem writeDocument_of_error (strays : Strays) (temporaryName content : Text) {path : Text} {fault : Fault}
    (h : (disk.makeDirectories workingDirectory (DiskPath.ofText path).parent).result = .error fault) :
    let written := (writeDocument strays disk workingDirectory temporaryName path content).1
    (∃ fault, written.result = .error fault) ∧
      written.disk = (disk.makeDirectories workingDirectory (DiskPath.ofText path).parent).disk := by
  unfold writeDocument
  dsimp only
  rw [h]
  cases fault <;> exact ⟨⟨_, rfl⟩, rfl⟩

/-- With them it is put into the last of them. -/
theorem writeDocument_of_ok (strays : Strays) (temporaryName content : Text) {path : Text}
    (h : (disk.makeDirectories workingDirectory (DiskPath.ofText path).parent).result = .ok directory) :
    writeDocument strays disk workingDirectory temporaryName path content =
      writeDocumentIn strays (disk.makeDirectories workingDirectory (DiskPath.ofText path).parent).disk temporaryName directory
        path content := by
  unfold writeDocument
  dsimp only
  rw [h]

/--
**A document is put in one place, or left under its temporary name, or no file is touched.** It is left only if it cannot be encoded, or
for a null character in its path.
-/
theorem writeDocument_cases (strays : Strays) (disk : Disk) (workingDirectory : Location) (temporaryName : Text) {path : Text}
    (hpath : (DiskPath.ofText path).components ≠ []) (content : Text) :
    let written := (writeDocument strays disk workingDirectory temporaryName path content).1
    (∃ fault, written.result = .error fault ∧ written.disk.files = disk.files) ∨
    (∃ fault text, written.result = .error fault ∧
      Left disk workingDirectory temporaryName (.ofText path) written.disk text ∧
      (strays.IsFree content → (DiskPath.ofText path).holdsNull = true)) ∨
    (written.result = .ok () ∧ strays.IsFree content ∧
      ∃ place, Stored disk workingDirectory temporaryName (.ofText path) content written.disk place) := by
  intro written
  obtain ⟨above, name, habove⟩ : ∃ above name, (DiskPath.ofText path).components = above ++ [name] :=
    ⟨_, _, (List.dropLast_append_getLast hpath).symm⟩
  have hparent : (DiskPath.ofText path).parent.components = above := by
    simp [DiskPath.parent, habove]
  have htarget : (DiskPath.ofText path).target workingDirectory =
      Location.step (((DiskPath.ofText path).start workingDirectory).along above) name := by
    rw [DiskPath.target, habove, Location.along_concat]
  have hmade : Made disk ((DiskPath.ofText path).start workingDirectory) above
      (disk.makeDirectories workingDirectory (DiskPath.ofText path).parent) :=
    hparent ▸ disk.made_makeDirectories workingDirectory (DiskPath.ofText path).parent
  cases hresult : (disk.makeDirectories workingDirectory (DiskPath.ofText path).parent).result with
  | error fault =>
    -- some of the directories may be there, but no file has been come to
    obtain ⟨⟨named, hnamed⟩, hdisk⟩ := writeDocument_of_error strays temporaryName content hresult
    exact .inl ⟨named, hnamed, (congrArg Disk.files hdisk).trans hmade.files⟩
  | ok directory =>
    obtain ⟨rfl, hnames⟩ := hmade.location directory hresult
    have hwritten := writeDocument_of_ok strays temporaryName content hresult
    rcases writeDocumentIn_cases strays _ temporaryName _ habove content with
      ⟨fault, herror, hdisk⟩ | ⟨fault, text, herror, hdisk, hnull⟩ | ⟨hfree, hput, hok⟩
    · rw [← hwritten] at herror hdisk
      exact .inl ⟨fault, herror, (congrArg Disk.files hdisk).trans hmade.files⟩
    · rw [← hwritten] at herror hdisk
      refine .inr (.inl ⟨fault, text, herror, ?_, hnull⟩)
      rw [Left, DiskPath.target, hparent]
      exact (congrArg Disk.files hdisk).trans (putFile_files hmade.files _ text)
    · rw [← hwritten] at hput hok
      refine .inr (.inr ⟨hok, hfree, ?_⟩)
      rcases putDocument_cases _ temporaryName _ habove content with
        ⟨fault, hfault⟩ | ⟨⟨place, hplaced, hplace⟩, hnull, hlength, hname⟩
      · rw [hput, hfault] at hok
        contradiction
      · refine ⟨place, ?_, ⟨hnull, hlength, ?_⟩, ?_⟩
        · exact (congrArg (Disk.files ∘ Change.disk) (hput.trans hplaced)).trans (putFile_files hmade.files place content)
        · rw [habove]
          exact List.forall_mem_append.mpr ⟨hnames, List.forall_mem_singleton.mpr hname⟩
        · rw [htarget]
          rcases hplace with hplace | ⟨hplace, rfl | hdirectory⟩
          · exact .inl hplace
          · exact .inr ⟨hplace, .inl (habove ▸ List.mem_append_right _ (List.mem_singleton_self _))⟩
          · rw [← Location.along_concat] at hdirectory hplace ⊢
            exact .inr ⟨hplace, habove ▸ hmade.mem_up_or_isDirectory hdirectory⟩

/-! ## When it is put there -/

/--
What makes sure that a document can be put at a path: no file is in the way, nothing in the path is too long, even with the name that
the document is kept under until it is complete, and that name is one that nothing has.
-/
structure Accepts (disk : Disk) (workingDirectory : Location) (temporaryName : Text) (path : DiskPath) : Prop where
  clear : disk.IsClear (path.start workingDirectory) path.components.dropLast
  fits : (path.child temporaryName).Fits
  temporary : temporaryName ≠ ['.', '.'] ∧ temporaryName ∉ workingDirectory ∧ temporaryName ∉ path.components ∧
    ∀ location ∈ disk.directories, temporaryName ∉ location

/-- No directory has the temporary name after directories have been made, either. -/
theorem Accepts.not_isDirectory (h : Accepts disk workingDirectory temporaryName path) {change : Disk.Change Location}
    (hmade : Made disk (path.start workingDirectory) path.components.dropLast change) (location : Location) :
    change.disk.isDirectory (location ++ [temporaryName]) ≠ true := by
  obtain ⟨-, hworking, hpath, hdisk⟩ := h.temporary
  intro hdirectory
  rcases hmade.directories _ hdirectory with hbefore | ⟨beginning, hbegins, heq⟩
  · have hthere : location ++ [temporaryName] ∈ disk.directories := by simpa [isDirectory] using hbefore
    exact hdisk _ hthere (List.mem_append_right _ (List.mem_singleton_self _))
  · -- one that has been made on the way has its names from the path
    have hmem : temporaryName ∈ (path.start workingDirectory).along beginning := heq ▸ by simp
    rcases Location.mem_along hmem with hstart | hbeginning
    · unfold DiskPath.start at hstart
      split at hstart
      · exact hworking hstart
      · cases hstart
    · exact hpath (List.dropLast_subset _ (hbegins.subset hbeginning))

theorem Accepts.entry_ne_directory (h : Accepts disk workingDirectory temporaryName path) {change : Disk.Change Location}
    (hmade : Made disk (path.start workingDirectory) path.components.dropLast change) (location : Location) {draft : DiskPath}
    (hdraft : draft.components = above ++ [temporaryName]) (found : Location) :
    change.disk.entry location draft ≠ .directory found := by
  have hbelow : Location.step location temporaryName = location ++ [temporaryName] := if_neg h.temporary.1
  rw [entry_eq hdraft]
  split
  · exact nofun
  · rcases change.disk.step_cases location temporaryName with
      ⟨hstep, -⟩ | ⟨-, ⟨-, hthere⟩ | ⟨-, ⟨hstep, -⟩ | hstep⟩⟩
    · rw [hstep]
      exact nofun
    · have hdirectory := hthere.resolve_left h.temporary.1
      rw [hbelow] at hdirectory
      exact absurd hdirectory (h.not_isDirectory hmade location)
    · rw [hstep]
      exact nofun
    · rw [hstep]
      exact nofun

section

variable {path : Text} (h : Accepts disk workingDirectory temporaryName (.ofText path)) (strays : Strays)

include h

/-- The directories above the path are made, and the document is begun in the last of them. -/
theorem Accepts.begun :
    let made := disk.makeDirectories workingDirectory (DiskPath.ofText path).parent
    let directory := (DiskPath.ofText path).parent.target workingDirectory
    made.result = .ok directory ∧
      Made disk ((DiskPath.ofText path).start workingDirectory) (DiskPath.ofText path).components.dropLast made ∧
      ∀ text, made.disk.writeIn directory ((DiskPath.ofText path).parent.child temporaryName) text =
        { result := .ok (), disk := made.disk.putFile (directory ++ [temporaryName]) text } := by
  intro made directory
  have hfits : (DiskPath.ofText path).Fits := h.fits.above
  have hmade := disk.made_makeDirectories workingDirectory (DiskPath.ofText path).parent
  refine ⟨makeDirectories_result hfits.parent h.clear, hmade, ?_⟩
  have hdraft : ((DiskPath.ofText path).parent.child temporaryName).components =
      (DiskPath.ofText path).parent.components ++ [temporaryName] := rfl
  rcases made.disk.writeIn_cases directory hdraft with ⟨fault, hfault⟩ | ⟨hwritten, -⟩
  · have hok := writeIn_result hdraft h.fits.beside (h.entry_ne_directory hmade directory hdraft) []
    rw [hfault] at hok
    contradiction
  · exact hwritten

/-- **A document that the path accepts is put on the disk**, if it can be encoded. -/
theorem Accepts.writeDocument_result (hpath : (DiskPath.ofText path).components ≠ []) (hfree : strays.IsFree content) :
    (writeDocument strays disk workingDirectory temporaryName path content).1.result = .ok () := by
  obtain ⟨above, name, habove⟩ : ∃ above name, (DiskPath.ofText path).components = above ++ [name] :=
    ⟨_, _, (List.dropLast_append_getLast hpath).symm⟩
  obtain ⟨hresult, hmade, hdraft⟩ := h.begun
  have hput : (putDocument (disk.makeDirectories workingDirectory (DiskPath.ofText path).parent).disk temporaryName
      ((DiskPath.ofText path).parent.target workingDirectory) (.ofText path) content).result = .ok () := by
    unfold putDocument
    split
    · next location hentry => exact writeIn_result rfl h.fits (h.entry_ne_directory hmade location rfl) content
    · next hentry => exact writeIn_result habove h.fits.above hentry content
  rw [writeDocument_of_ok strays temporaryName content hresult, writeDocumentIn]
  simp only [hdraft, Strays.first?_eq_none_iff.mpr hfree, hput]

/-- Where it cannot be encoded, it is left without any text. -/
theorem Accepts.writeDocument_left {run : Strays.Run} (hrun : strays.first? content = some run) :
    let written := (writeDocument strays disk workingDirectory temporaryName path content).1
    written.result = .error (.unwritable (.unencodable run)) ∧
      Left disk workingDirectory temporaryName (.ofText path) written.disk [] := by
  obtain ⟨hresult, hmade, hdraft⟩ := h.begun
  have hwritten := writeDocument_of_ok strays temporaryName content hresult
  rw [writeDocumentIn] at hwritten
  simp only [hdraft, hrun, giveUp] at hwritten
  rw [hwritten]
  exact ⟨rfl, putFile_files hmade.files _ []⟩

end

end CommandLine

end PageRouting
