import PageRouting.Proofs.Documents
import PageRouting.Proofs.JsonReading

/-!
# `PageRouting/Proofs/Outputs.lean` — the two outputs of `routes`

The command `routes` shows what a project compiles to on the standard output, or puts it into a file. The two are printed in different
ways: records in ASCII and in Unicode, lists of paths line by line and as a document. What is read back from them is the same
(`run_outputs`).

Everything that can fail for the project's sake is done before anything is written, and a rejected page leaves the disk as it was. What
can fail later is the writing itself. A path that the host system refuses leaves all files as they were. A document with a name in it
that is not UTF-8, though, cannot be encoded; that is found out after its file has been begun, and the file stays
(`run_outputs_not_utf8`).
-/

set_option autoImplicit false

namespace PageRouting

/-! ## Characters beyond ASCII -/

namespace Json

theorem escapeChar_beyond_ascii {c : Char} (hc : 0x7F < c.toNat) : escapeChar .unicode c = [c] := by
  have hne : ∀ d : Char, d.toNat ≤ 0x7F → c ≠ d := fun d hd heq => by
    subst heq
    omega
  have hcontrol : ¬ c.toNat < 0x20 := by omega
  simp [escapeChar, hne '"' (by decide), hne '\\' (by decide), hne '\n' (by decide), hne '\r' (by decide), hne '\t' (by decide),
    hne '\x08' (by decide), hne '\x0c' (by decide), hcontrol]

theorem mem_renderString {c : Char} (hc : 0x7F < c.toNat) {text : Text} (h : c ∈ text) : c ∈ renderString .unicode text := by
  refine List.mem_cons_of_mem _ (List.mem_append_left _ (List.mem_flatMap.mpr ⟨c, h, ?_⟩))
  rw [escapeChar_beyond_ascii hc]
  exact List.mem_singleton_self c

theorem mem_renderItems {c : Char} {charset : Charset} {depth : Nat} {item : Json} {items : List Json} (hitem : item ∈ items)
    (h : c ∈ renderAt charset depth item) : c ∈ renderItems charset depth items := by
  induction items with
  | nil => cases hitem
  | cons first rest ih =>
    rw [renderItems]
    refine List.mem_cons_of_mem _ ?_
    rcases List.mem_cons.mp hitem with rfl | hitem
    · exact List.mem_append_left _ (List.mem_append_right _ h)
    · exact List.mem_append_right _ (ih hitem)

/-- Beyond ASCII, the characters of strings stand in the text of their list. -/
theorem mem_render_ofTexts {c : Char} (hc : 0x7F < c.toNat) {text : Text} {texts : List Text} (htext : text ∈ texts)
    (h : c ∈ text) : c ∈ render .unicode (ofTexts texts) := by
  cases texts with
  | nil => cases htext
  | cons first rest =>
    rw [render, ofTexts, List.map_cons, renderAt]
    simp only [List.mem_cons, List.mem_append]
    rcases List.mem_cons.mp htext with rfl | htext
    · exact .inr (.inl (.inl (.inl (.inr (by rw [renderAt]; exact mem_renderString hc h)))))
    · refine .inr (.inl (.inl (.inr (mem_renderItems (List.mem_map_of_mem htext) ?_))))
      rw [renderAt]
      exact mem_renderString hc h

end Json

namespace CommandLine

/-! ## What is shown -/

namespace Shown

variable {strays : Strays} {shown : Shown}

/-- Has every character of the document an encoding? -/
def IsEncodable (strays : Strays) (shown : Shown) : Prop :=
  strays.IsFree shown.document

/-- Then every line of the standard output has one. -/
theorem IsEncodable.lines (h : shown.IsEncodable strays) : ∀ line ∈ shown.lines, strays.IsFree line := by
  intro line hline c hc
  cases shown with
  | records value => cases hline
  | paths texts =>
    by_contra hstray
    have hbeyond := strays.beyond_ascii c (Option.isSome_iff_ne_none.mpr hstray)
    exact hstray (h c (List.mem_append_left _ (Json.mem_render_ofTexts hbeyond hline hc)))

/-- Printing ends well if and only if every line has an encoding. -/
theorem print_exit : (shown.print strays).1 = .ok 0 ↔ ∀ line ∈ shown.lines, strays.IsFree line := by
  cases shown with
  | records value => exact ⟨nofun, fun _ => rfl⟩
  | paths texts =>
    rw [print]
    cases hfound : texts.findSome? strays.first? with
    | none => simpa [lines, Strays.first?_eq_none_iff] using hfound
    | some run =>
      obtain ⟨line, hline, hrun⟩ := List.exists_of_findSome?_eq_some hfound
      refine ⟨nofun, fun hfree => ?_⟩
      rw [Strays.first?_eq_none_iff.mpr (hfree line hline)] at hrun
      contradiction

/-- What an encodable value is printed as. -/
theorem IsEncodable.print (h : shown.IsEncodable strays) : shown.print strays = (.ok 0, shown.output) := by
  have hlines := h.lines
  cases shown with
  | records value => rfl
  | paths texts =>
    have hnone : texts.findSome? strays.first? = none :=
      List.findSome?_eq_none_iff.mpr fun line hline => Strays.first?_eq_none_iff.mpr (hlines line hline)
    rw [Shown.print, hnone]

end Shown

namespace RoutesOptions

/-- The project that the options name, with what it compiles to. -/
def compiled (options : RoutesOptions) (world : World) : Except Fault (Project × Forest) :=
  match options.project world with
  | .error fault => .error fault
  | .ok project =>
    if options.dependsOnBlank project world.disk then .error .blankExtension
    else
      match (world.session project world.settings.base).forest.result with
      | .error fault => .error (options.refine fault)
      | .ok forest => .ok (project, forest)

/-- What the options ask to see of a project and its forest. -/
def shown (options : RoutesOptions) (project : Project) (forest : Forest) : Shown :=
  match options.view with
  | .tree => .records (Forest.records (project.recordStyle options.relative) forest)
  | .flat => .paths forest.flatPaths
  | .static => .paths forest.staticPaths

/-- What is read of a project is what it compiles to. -/
theorem exists_read_eq (options : RoutesOptions) (world : World) : ∃ notices,
    options.read world = ((options.compiled world).map fun (project, forest) => options.shown project forest, notices) := by
  refine ⟨_, Prod.ext ?_ rfl⟩
  unfold read compiled
  cases options.project world with
  | error fault => rfl
  | ok project =>
    dsimp only
    split
    · rfl
    · unfold showIn shown Session.records Session.flatPaths Session.staticPaths Reading.map
      cases (world.session project world.settings.base).forest.result <;> cases options.view <;> rfl

end RoutesOptions

/-- The text on the standard output and a document say the same. -/
def Agree (stdout : Text) (document : Json) : Shown → Prop
  | .records _ => Json.read stdout = some document
  | .paths texts => stdout = texts.flatMap (fun text => text ++ ['\n']) ∧ document = Json.ofTexts texts

/-- A document is read back from its text, and says the same as the standard output. -/
theorem read_document (shown : Shown) : Json.read shown.document = some shown.json ∧ Agree shown.output shown.json shown := by
  have hgap : ∀ c ∈ ['\n'], Json.isGap c = true := List.forall_mem_singleton.mpr rfl
  refine ⟨Json.read_render .unicode shown.json hgap, ?_⟩
  cases shown with
  | records value => exact Json.read_render .ascii value hgap
  | paths texts => exact ⟨rfl, rfl⟩

/-! ## Outcomes -/

/-- A rejected page: the status 1, and nothing else but a message on the error output. -/
structure Rejected (world : World) (outcome : Outcome) : Prop where
  exit : outcome.exit = .ok 1
  stdout : outcome.stdout = []
  disk : outcome.disk = world.disk

/-- The document has been put at a place, where it says the same as a text on the standard output; all other files are as they were. -/
structure SavedAt (world : World) (path : DiskPath) (shown : Shown) (stdout : Text) (outcome : Outcome) (place : Location) :
    Prop where
  exit : outcome.exit = .ok 0
  leads : place = path.target world.workingDirectory ∨
    ['.', '.'] ∈ path.components ∧ place = path.target world.workingDirectory ++ [world.temporaryName]
  document : ∃ document, (outcome.disk.text? place).bind Json.read = some document ∧ Agree stdout document shown
  others : ∀ other, other ≠ place → outcome.disk.text? other = world.disk.text? other

/-- The document has been put on the disk. -/
def Saved (world : World) (path : DiskPath) (shown : Shown) (stdout : Text) (outcome : Outcome) : Prop :=
  ∃ place, SavedAt world path shown stdout outcome place

/-- The document could not be put on the disk; all files are as they were. -/
structure Unsaved (world : World) (outcome : Outcome) : Prop where
  exit : ∃ fault, outcome.exit = .error fault
  files : outcome.disk.files = world.disk.files

/-- The document could not be put on the disk, and a text of it is left under its temporary name; all other files are as they were. -/
structure Stranded (world : World) (path : DiskPath) (outcome : Outcome) (text : Text) : Prop where
  exit : ∃ fault, outcome.exit = .error fault
  draft : outcome.disk.text? (path.parent.target world.workingDirectory ++ [world.temporaryName]) = some text
  others : ∀ other, other ≠ path.parent.target world.workingDirectory ++ [world.temporaryName] →
    outcome.disk.text? other = world.disk.text? other

/--
What comes of a document that is to be put at a path: which of the three outcomes it is, and what it takes for each of them. Only for a
document that cannot be encoded, or for a null character in its path, is a draft of it left behind.
-/
structure Attempted (world : World) (path : DiskPath) (shown : Shown) (stdout : Text) (outcome : Outcome) : Prop where
  cases : Saved world path shown stdout outcome ∨ Unsaved world outcome ∨ ∃ text, Stranded world path outcome text
  accepted : Accepts world.disk world.workingDirectory world.temporaryName path → shown.IsEncodable world.strays →
    Saved world path shown stdout outcome
  stranded : Accepts world.disk world.workingDirectory world.temporaryName path →
    ∀ run, world.strays.first? shown.document = some run →
      outcome.exit = .error (.unwritable (.unencodable run)) ∧ Stranded world path outcome []
  unstranded : shown.IsEncodable world.strays → path.holdsNull = false →
    Saved world path shown stdout outcome ∨ Unsaved world outcome
  fits : outcome.exit = .ok 0 → path.Fits ∧ shown.IsEncodable world.strays

variable {world : World} {options : RoutesOptions} {fault : Fault} {project : Project} {forest : Forest}

/-- A rejected page is told before anything is written, whatever the options say about a file. -/
theorem runRoutes_rejected (h : options.compiled world = .error fault) (hfault : fault.isRejectedPage = true) :
    Rejected world (runRoutes world options) := by
  obtain ⟨notices, hread⟩ := options.exists_read_eq world
  rw [h] at hread
  rw [runRoutes, hread]
  dsimp only [Except.map]
  rw [if_pos hfault]
  exact ⟨rfl, rfl, rfl⟩

/-- Without a file, what is shown goes to the standard output. -/
theorem runRoutes_shown (h : options.compiled world = .ok (project, forest)) (houtput : options.output.getD [] = []) :
    (runRoutes world options).exit = ((options.shown project forest).print world.strays).1 ∧
      (runRoutes world options).stdout = ((options.shown project forest).print world.strays).2 ∧
      (runRoutes world options).disk = world.disk := by
  obtain ⟨notices, hread⟩ := options.exists_read_eq world
  rw [h] at hread
  rw [runRoutes, hread]
  dsimp only [Except.map]
  rw [if_pos houtput]
  exact ⟨rfl, rfl, rfl⟩

/-- With a file, it is put there as a document. -/
theorem runRoutes_written {output : Text} (h : options.compiled world = .ok (project, forest))
    (houtput : options.output.getD [] = output) (hne : output ≠ []) :
    let written := (writeDocument world.strays world.disk world.workingDirectory world.temporaryName output
      (options.shown project forest).document).1
    (runRoutes world options).exit = written.result.map (fun _ => 0) ∧ (runRoutes world options).stdout = [] ∧
      (runRoutes world options).disk = written.disk := by
  obtain ⟨notices, hread⟩ := options.exists_read_eq world
  rw [h] at hread
  rw [runRoutes, hread]
  dsimp only [Except.map]
  rw [houtput, if_neg hne]
  split
  · next hwritten =>
    rw [hwritten]
    exact ⟨rfl, rfl, rfl⟩
  · next hwritten =>
    rw [hwritten]
    exact ⟨rfl, rfl, rfl⟩

variable {output : Text}

/-- A document that has been written says the same as the standard output. -/
theorem savedAt_of_stored {outcome : Outcome} {shown : Shown} {place : Location} (hexit : outcome.exit = .ok 0)
    (hstored : Stored world.disk world.workingDirectory world.temporaryName (.ofText output) shown.document outcome.disk place)
    (hclosed : world.disk.IsClosed)
    (hnew : ∀ location, world.disk.find world.workingDirectory (.ofText output) ≠ .directory location) :
    SavedAt world (.ofText output) shown shown.output outcome place := by
  obtain ⟨hread, hagree⟩ := read_document shown
  refine ⟨hexit, ?_, ⟨shown.json, ?_, hagree⟩, fun other hother => ?_⟩
  · refine hstored.leads.imp_right fun ⟨hbelow, hup⟩ => ⟨?_, hbelow⟩
    by_contra hplain
    exact hnew _ (hclosed.find_target hplain hstored.fits (hup.resolve_left hplain))
  · rw [Disk.text?_congr hstored.files, Disk.text?_putFile_self]
    exact hread
  · rw [Disk.text?_congr hstored.files, Disk.text?_putFile_ne _ _ hother]

/-- A document that is left under its temporary name. -/
theorem stranded_of_left {outcome : Outcome} {path : DiskPath} {text : Text} (hexit : ∃ fault, outcome.exit = .error fault)
    (hleft : Left world.disk world.workingDirectory world.temporaryName path outcome.disk text) :
    Stranded world path outcome text := by
  refine ⟨hexit, ?_, fun other hother => ?_⟩
  · rw [Disk.text?_congr hleft, Disk.text?_putFile_self]
  · rw [Disk.text?_congr hleft, Disk.text?_putFile_ne _ _ hother]

section

variable (h : options.compiled world = .ok (project, forest)) (houtput : options.output.getD [] = output) (hne : output ≠ [])
  (hclosed : world.disk.IsClosed)
  (hnew : ∀ location, world.disk.find world.workingDirectory (.ofText output) ≠ .directory location)

include h houtput hne

/-- Where a document cannot be encoded, it is left at a path that accepts it. -/
theorem runRoutes_stranded (haccepts : Accepts world.disk world.workingDirectory world.temporaryName (.ofText output))
    (run : Strays.Run) (hrun : world.strays.first? (options.shown project forest).document = some run) :
    (runRoutes world options).exit = .error (.unwritable (.unencodable run)) ∧
      Stranded world (.ofText output) (runRoutes world options) [] := by
  obtain ⟨hexit, -, hdisk⟩ := runRoutes_written h houtput hne
  obtain ⟨hresult, hleft⟩ := haccepts.writeDocument_left world.strays hrun
  rw [hresult] at hexit
  exact ⟨hexit, stranded_of_left ⟨_, hexit⟩ (hdisk ▸ hleft)⟩

include hclosed hnew

/-- The document is in one place, or left under its temporary name, or no file has been touched. -/
theorem runRoutes_cases :
    let shown := options.shown project forest
    let path := DiskPath.ofText output
    Unsaved world (runRoutes world options) ∨
    (∃ text, Stranded world path (runRoutes world options) text ∧ (shown.IsEncodable world.strays → path.holdsNull = true)) ∨
    (shown.IsEncodable world.strays ∧ path.Fits ∧ Saved world path shown shown.output (runRoutes world options)) := by
  obtain ⟨hexit, -, hdisk⟩ := runRoutes_written h houtput hne
  rcases writeDocument_cases world.strays world.disk world.workingDirectory world.temporaryName
      (DiskPath.components_ne_nil hnew) (options.shown project forest).document with
    ⟨fault, hresult, hfiles⟩ | ⟨fault, text, hresult, hleft, hnull⟩ | ⟨hresult, hfree, place, hstored⟩ <;>
    rw [hresult] at hexit
  · exact .inl ⟨⟨fault, hexit⟩, hdisk ▸ hfiles⟩
  · exact .inr (.inl ⟨text, stranded_of_left ⟨fault, hexit⟩ (hdisk ▸ hleft), hnull⟩)
  · exact .inr (.inr ⟨hfree, hstored.fits, place, savedAt_of_stored hexit (hdisk ▸ hstored) hclosed hnew⟩)

/-- What comes of a document is up to its path and its characters. -/
theorem runRoutes_attempted {stdout : Text}
    (hstdout : (options.shown project forest).IsEncodable world.strays → stdout = (options.shown project forest).output) :
    Attempted world (.ofText output) (options.shown project forest) stdout (runRoutes world options) := by
  have hfails : ∀ {fault}, (runRoutes world options).exit = .error fault → (runRoutes world options).exit ≠ .ok 0 :=
    fun hfault hexit => by
      rw [hexit] at hfault
      contradiction
  have hcases := runRoutes_cases h houtput hne hclosed hnew
  have haccepted (haccepts : Accepts world.disk world.workingDirectory world.temporaryName (.ofText output))
      (hfree : (options.shown project forest).IsEncodable world.strays) : (runRoutes world options).exit = .ok 0 := by
    rw [(runRoutes_written h houtput hne).1,
      haccepts.writeDocument_result world.strays (DiskPath.components_ne_nil hnew) hfree]
    rfl
  have hstranded := runRoutes_stranded h houtput hne
  rcases hcases with hunsaved | ⟨text, hleft, hnull⟩ | ⟨hfree, hfits, hsaved⟩
  · obtain ⟨fault, hfault⟩ := hunsaved.exit
    exact
      { cases := .inr (.inl hunsaved)
        accepted := fun haccepts hfree => absurd (haccepted haccepts hfree) (hfails hfault)
        stranded := hstranded
        unstranded := fun _ _ => .inr hunsaved
        fits := fun hexit => absurd hexit (hfails hfault) }
  · obtain ⟨fault, hfault⟩ := hleft.exit
    exact
      { cases := .inr (.inr ⟨text, hleft⟩)
        accepted := fun haccepts hfree => absurd (haccepted haccepts hfree) (hfails hfault)
        stranded := hstranded
        unstranded := fun hfree hplain => absurd (hnull hfree) (by simp [hplain])
        fits := fun hexit => absurd hexit (hfails hfault) }
  · rw [hstdout hfree]
    exact
      { cases := .inl hsaved
        accepted := fun _ _ => hsaved
        stranded := hstranded
        unstranded := fun _ _ => .inl hsaved
        fits := fun _ => ⟨hfits, hfree⟩ }

end

/-- The same of the program, which gets its options from an argument list. -/
theorem run_attempted {saved : List Text} {stdout : Text}
    (hsaved : Invocation.ofArguments world.settings saved = .routes { options with output := some output })
    (h : options.compiled world = .ok (project, forest)) (hne : output ≠ []) (hclosed : world.disk.IsClosed)
    (hnew : ∀ location, world.disk.find world.workingDirectory (.ofText output) ≠ .directory location)
    (hstdout : (options.shown project forest).IsEncodable world.strays → stdout = (options.shown project forest).output) :
    (run world saved).stdout = [] ∧
      Attempted world (.ofText output) (options.shown project forest) stdout (run world saved) := by
  have hrun : run world saved = runRoutes world { options with output := some output } := by rw [run, hsaved]; rfl
  have hforest : ({ options with output := some output } : RoutesOptions).compiled world = .ok (project, forest) := h
  rw [hrun]
  exact ⟨(runRoutes_written hforest rfl hne).2.1, runRoutes_attempted hforest rfl hne hclosed hnew hstdout⟩

/--
**The two outputs of `routes` agree, and its error path writes nothing.** Of two argument lists that differ in the file that gets the
result alone: a rejected page ends both with status 1, an empty standard output and the disk as it was. If the project compiles, the
one without a file leaves the disk as it was, and shows the result unless there is a line without an encoding. The other one shows
nothing, and either puts a document that says the same in one place, with all other files as they were, or fails. A failure leaves all
files as they were, too, or one more under the temporary name. Which it is, is up to the path and to the characters of the document.
-/
theorem run_outputs {plain saved : List Text}
    (hplain : Invocation.ofArguments world.settings plain = .routes { options with output := none })
    (hsaved : Invocation.ofArguments world.settings saved = .routes { options with output := some output })
    (hne : output ≠ []) (hclosed : world.disk.IsClosed)
    (hnew : ∀ location, world.disk.find world.workingDirectory (.ofText output) ≠ .directory location) :
    (∀ fault, options.compiled world = .error fault → fault.isRejectedPage = true →
      Rejected world (run world plain) ∧ Rejected world (run world saved)) ∧
    ∀ project forest, options.compiled world = .ok (project, forest) →
      let shown := options.shown project forest
      ((run world plain).exit = .ok 0 ↔ ∀ line ∈ shown.lines, world.strays.IsFree line) ∧
      (run world plain).disk = world.disk ∧ (run world saved).stdout = [] ∧
      Attempted world (.ofText output) shown (run world plain).stdout (run world saved) := by
  have hrunPlain : run world plain = runRoutes world { options with output := none } := by rw [run, hplain]; rfl
  have hrunSaved : run world saved = runRoutes world { options with output := some output } := by rw [run, hsaved]; rfl
  rw [hrunPlain]
  refine ⟨fun fault hfault hrejected => ⟨runRoutes_rejected hfault hrejected, ?_⟩, fun project forest hforest => ?_⟩
  · rw [hrunSaved]
    exact runRoutes_rejected hfault hrejected
  · have hforestPlain : ({ options with output := none } : RoutesOptions).compiled world = .ok (project, forest) := hforest
    obtain ⟨hexit, hstdout, hdisk⟩ := runRoutes_shown hforestPlain rfl
    refine ⟨?_, hdisk, run_attempted hsaved hforest hne hclosed hnew fun hfree => ?_⟩
    · rw [hexit]
      exact Shown.print_exit
    · rw [hstdout]
      exact congrArg Prod.snd hfree.print

theorem exists_of_isOk {ε α : Type} {result : Except ε α} (h : result.isOk = true) : ∃ value, result = .ok value := by
  cases result with
  | ok value => exact ⟨value, rfl⟩
  | error fault => cases h

/-- A world with the given files in the pages directory of its working directory, and nothing else. -/
def World.ofPages (names : List Text) (strays : Strays := {}) : World where
  disk :=
    { directories := [["srv".toList], ["srv".toList, Layout.defaultPagesDir]]
      files := names.map fun name => (["srv".toList, Layout.defaultPagesDir, name], ['x']) }
  workingDirectory := ["srv".toList]
  settings := .standard
  elapsed := "0.000".toList
  strays := strays

/-- Names beyond ASCII, one of them beyond 16 bits: the file is put into a directory that was not there, and says the same. -/
theorem run_outputs_beyond_ascii :
    let world := World.ofPages ["😀.vue".toList, "_straße.vue".toList]
    let options : RoutesOptions := { pagesDir := some Layout.defaultPagesDir, relative := true }
    let output := "out/routes.json".toList
    let plain := ["routes".toList, "--relative".toList]
    let saved := ["routes".toList, "--relative".toList, "--output".toList, output]
    Accepts world.disk world.workingDirectory world.temporaryName (.ofText output) ∧
    ∃ project forest, options.compiled world = .ok (project, forest) ∧
      Saved world (.ofText output) (options.shown project forest) (run world plain).stdout (run world saved) := by
  intro world options output plain saved
  have hplain : Invocation.ofArguments world.settings plain = .routes { options with output := none } := by decide +kernel
  have hsaved : Invocation.ofArguments world.settings saved = .routes { options with output := some output } := by decide +kernel
  have hmissing : world.disk.find world.workingDirectory (.ofText output) = .nowhere .missing := by decide +kernel
  have hnew : ∀ location, world.disk.find world.workingDirectory (.ofText output) ≠ .directory location := by
    rw [hmissing]
    exact nofun
  have haccepts : Accepts world.disk world.workingDirectory world.temporaryName (.ofText output) :=
    ⟨by decide +kernel, ⟨by decide +kernel, by decide +kernel, by decide +kernel⟩, by decide +kernel⟩
  have hcompiles : (options.compiled world).isOk := by decide +kernel
  obtain ⟨⟨project, forest⟩, hcompiled⟩ := exists_of_isOk hcompiles
  have houtputs := (run_outputs hplain hsaved (by decide) (by decide +kernel) hnew).2 project forest hcompiled
  have hfree : (options.shown project forest).IsEncodable world.strays := fun _ _ => rfl
  exact ⟨haccepts, project, forest, hcompiled, houtputs.2.2.2.accepted haccepts hfree⟩

-- the path leads to the working directory itself, as soon as `new` has been made
example : ((run (World.ofPages ["about.vue".toList]) ["routes".toList, "--output".toList, "new/..".toList]).disk.text?
    ["srv".toList, "document".toList]).isSome := by decide +kernel

-- a name of more than 255 bytes is refused
example : (run (World.ofPages ["about.vue".toList]) ["routes".toList, "--output".toList, List.replicate 256 'a']).exit.isOk = false := by
  decide +kernel

/--
A page whose name is not UTF-8: the project compiles, and nothing is in the way of the file. It is not there afterwards, and an empty one
under the temporary name is.
-/
theorem run_outputs_not_utf8 :
    let world := World.ofPages ["caf\uE0E9.vue".toList] .privateUse
    let options : RoutesOptions := { pagesDir := some Layout.defaultPagesDir }
    let output := "out/routes.json".toList
    let plain := ["routes".toList]
    let saved := ["routes".toList, "--output".toList, output]
    Invocation.ofArguments world.settings plain = .routes { options with output := none } ∧
    Invocation.ofArguments world.settings saved = .routes { options with output := some output } ∧
    world.disk.IsClosed ∧ (∀ location, world.disk.find world.workingDirectory (.ofText output) ≠ .directory location) ∧
    Accepts world.disk world.workingDirectory world.temporaryName (.ofText output) ∧
    ∃ project forest, options.compiled world = .ok (project, forest) ∧
      ¬ Saved world (.ofText output) (options.shown project forest) (run world plain).stdout (run world saved) ∧
      Stranded world (.ofText output) (run world saved) [] := by
  intro world options output plain saved
  have hplain : Invocation.ofArguments world.settings plain = .routes { options with output := none } := by decide +kernel
  have hsaved : Invocation.ofArguments world.settings saved = .routes { options with output := some output } := by decide +kernel
  have hmissing : world.disk.find world.workingDirectory (.ofText output) = .nowhere .missing := by decide +kernel
  have hnew : ∀ location, world.disk.find world.workingDirectory (.ofText output) ≠ .directory location := by
    rw [hmissing]
    exact nofun
  have haccepts : Accepts world.disk world.workingDirectory world.temporaryName (.ofText output) :=
    ⟨by decide +kernel, ⟨by decide +kernel, by decide +kernel, by decide +kernel⟩, by decide +kernel⟩
  have hclosed : world.disk.IsClosed := by decide +kernel
  have hfails : (run world saved).exit.isOk = false := by decide +kernel
  have hcompiles : (options.compiled world).isOk := by decide +kernel
  obtain ⟨⟨project, forest⟩, hcompiled⟩ := exists_of_isOk hcompiles
  have hunsaved (stdout : Text) : ¬ Saved world (.ofText output) (options.shown project forest) stdout (run world saved) := by
    rintro ⟨place, hplace⟩
    rw [hplace.exit] at hfails
    exact absurd hfails (by simp [Except.isOk, Except.toBool])
  have hattempted := (run_attempted hsaved hcompiled (by decide) hclosed hnew fun _ => rfl).2
  obtain ⟨run, hrun⟩ := Strays.exists_first? fun hfree => hunsaved _ (hattempted.accepted haccepts hfree)
  exact ⟨hplain, hsaved, hclosed, hnew, haccepts, project, forest, hcompiled, hunsaved _,
    (hattempted.stranded haccepts run hrun).2⟩

-- without a file, the flat view stops in front of the page
example : (run (World.ofPages ["caf\uE0E9.vue".toList] .privateUse) ["routes".toList, "--flat".toList]).exit.isOk = false := by
  decide +kernel

end CommandLine

end PageRouting
