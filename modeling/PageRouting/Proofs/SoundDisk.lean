import PageRouting.Proofs.Directories
import PageRouting.Proofs.Discovery
import PageRouting.Proofs.Keeping

/-!
# `PageRouting/Proofs/SoundDisk.lean` — a disk has each file once

A disk is sound if no two of its files have one location and no name holds a slash. No step of a session can spoil that, one that
stops half way no more than one that goes through (`Session.sound_step`): directories are made beside the files, a file is put in place of
the one that was there, and names are only ever those that a path has asked for.

On a sound disk every page file is discovered once (`Project.discover_nodup`). Files at different locations below the pages directory
have different paths, since a path can be cut at its slashes into the names that it was made of.
-/

set_option autoImplicit false

namespace PageRouting

/-- Does no name on the way hold a slash? -/
def Location.IsNamed (location : Location) : Prop :=
  ∀ name ∈ location, '/' ∉ name

theorem Location.IsNamed.along {start : Location} {components : List Text} (h : start.IsNamed)
    (hc : ∀ component ∈ components, '/' ∉ component) : (start.along components).IsNamed :=
  fun name hm => (mem_along hm).elim (h name) (hc name)

namespace Disk

/-- Is each file there once, under names that a disk can hold? -/
structure Sound (disk : Disk) : Prop where
  files_nodup : (disk.files.map Prod.fst).Nodup
  names : disk.HasNames

/-! ## Names that paths lead to -/

/-- The place itself, where there is one. -/
def Place.location : Place → Location
  | .directory location => location
  | .file location => location
  | .nowhere _ => []

variable {disk : Disk} {workingDirectory above : Location} {path : DiskPath}

theorem Follows.isNamed {components : List Text} {place : Place} (h : Follows disk above components place) (habove : above.IsNamed)
    (hc : ∀ component ∈ components, '/' ∉ component) : place.location.IsNamed := by
  cases place with
  | directory location => exact h.1 ▸ habove.along hc
  | file location => exact h.1 ▸ habove.along hc
  | nowhere cause => exact nofun

theorem isNamed_start (h : workingDirectory.IsNamed) : (path.start workingDirectory).IsNamed := by
  unfold DiskPath.start
  split
  · exact h
  · exact nofun

/-- Directories are made beside the files, and where a path leads. -/
theorem makeDirectories_spec (disk : Disk) (h : workingDirectory.IsNamed) (hpath : ∀ name ∈ path.components, '/' ∉ name) :
    (disk.makeDirectories workingDirectory path).disk.files = disk.files ∧
      ∀ location, (disk.makeDirectories workingDirectory path).result = .ok location → location.IsNamed := by
  have hmade := disk.made_makeDirectories workingDirectory path
  refine ⟨hmade.files, fun location hlocation => ?_⟩
  rw [(hmade.location location hlocation).1]
  exact (isNamed_start h).along hpath

/-! ## Changes keep a disk sound -/

/-- Soundness is a matter of the files alone. -/
theorem Sound.congr {other : Disk} (h : disk.Sound) (hfiles : other.files = disk.files) : other.Sound where
  files_nodup := hfiles ▸ h.files_nodup
  names file hm := h.names file (hfiles ▸ hm)

theorem Sound.putFile (h : disk.Sound) {location : Location} (hlocation : location.IsNamed) (text : Text) :
    (disk.putFile location text).Sound where
  files_nodup := by
    unfold Disk.putFile
    rw [List.map_append]
    refine List.nodup_append.mpr ⟨h.files_nodup.sublist (List.filter_sublist.map _), by simp, fun a ha b hb hab => ?_⟩
    obtain ⟨file, hm, rfl⟩ := List.mem_map.mp ha
    obtain rfl : b = location := by simpa using hb
    simp [hab] at hm
  names file hm name hn := by
    rcases List.mem_append.mp hm with hm | hm
    · exact h.names file (List.mem_of_mem_filter hm) name hn
    · exact hlocation name (by simpa [List.mem_singleton.mp hm] using hn)

theorem Sound.erase (h : disk.Sound) (location : Location) : (disk.erase location).Sound where
  files_nodup := h.files_nodup.sublist (List.filter_sublist.map _)
  names file hm := h.names file (List.mem_of_mem_filter hm)

theorem Sound.writeIn (h : disk.Sound) (habove : above.IsNamed) (hpath : ∀ name ∈ path.components, '/' ∉ name) (text : Text) :
    (disk.writeIn above path text).disk.Sound := by
  have hlast : ∀ name ∈ path.components.getLast?.toList, '/' ∉ name := fun name hm =>
    hpath name (List.mem_of_getLast? (Option.mem_toList.mp hm))
  have hentry : (disk.entry above path).location.IsNamed := by
    unfold entry
    split
    · exact nofun
    · exact (disk.follows_foldl above _).isNamed habove hlast
  have hnew : Location.IsNamed (above ++ path.components.getLast?.toList) := List.forall_mem_append.mpr ⟨habove, hlast⟩
  unfold Disk.writeIn
  split
  · exact h
  · split
    · exact h
    · next location hfound =>
      rw [hfound] at hentry
      exact h.putFile hentry text
    · exact h.putFile hnew text
    · exact h

theorem Sound.write (h : disk.Sound) (hworking : workingDirectory.IsNamed) (hpath : ∀ name ∈ path.components, '/' ∉ name)
    (text : Text) : (disk.write workingDirectory path text).disk.Sound := by
  have hparent : ∀ name ∈ path.parent.components, '/' ∉ name := fun name hm => hpath name (List.mem_of_mem_dropLast hm)
  obtain ⟨hfiles, hmade⟩ := makeDirectories_spec disk hworking hparent
  unfold Disk.write
  dsimp only
  split
  · next directory hdirectory => exact (h.congr hfiles).writeIn (hmade directory hdirectory) hpath text
  · exact h.congr hfiles

theorem Sound.remove (h : disk.Sound) (workingDirectory : Location) (path : DiskPath) :
    (disk.remove workingDirectory path).disk.Sound := by
  unfold Disk.remove
  split
  · exact h
  · split
    · exact h.erase _
    · exact h.erase _
    · exact h

end Disk

/-! ## Steps keep a disk sound -/

namespace Step

/-- Are the names of files and directories that the step asks for free of slashes? -/
def IsNamed : Step → Prop
  | .write path _ => ∀ name ∈ path.components, '/' ∉ name
  | .makeDirectory path => ∀ name ∈ path.components, '/' ∉ name
  | _ => True

end Step

/-- The names of a path that has been read hold no slash. -/
theorem DiskPath.isNamed_ofText (text : Text) : ∀ name ∈ (DiskPath.ofText text).components, '/' ∉ name :=
  fun _ hm => Location.slash_not_mem_of_mem_components hm

namespace Session

theorem forest_disk (session : Session) : session.forest.session.disk = session.disk := by
  unfold forest
  split
  · rfl
  · split
    · rfl
    · dsimp only
      split <;> rfl

theorem collapse_disk (session : Session) (isChild : Bool) : (session.collapse isChild).session.disk = session.disk := by
  unfold collapse
  dsimp only
  split <;> exact session.forest_disk

theorem respond_disk (request : Request) (session : Session) : (Service.respond request session).session.disk = session.disk := by
  unfold Service.respond
  split
  · next resource _ =>
    cases resource with
    | health => rfl
    | invalidate => rfl
    | routes => exact (congrArg Session.disk (answer_spec _ _).1).trans session.forest_disk
    | flat =>
      refine (congrArg Session.disk (answer_spec _ _).1).trans ?_
      split <;> exact session.forest_disk
  · rfl

/-- **A step keeps the disk sound**, whatever it finds and wherever it stops. -/
theorem sound_step {session : Session} (h : session.disk.Sound) {step : Step} (hstep : step.IsNamed) :
    (session.step step).session.disk.Sound := by
  have hroot : Location.IsNamed [] := fun name hm => by cases hm
  cases step with
  | write path text => exact h.write hroot hstep text
  | makeDirectory path => exact h.congr (Disk.makeDirectories_spec session.disk hroot hstep).1
  | remove path => exact h.remove [] path
  | discover => exact h
  | invalidate => exact h
  | compile project => exact h
  | flat => exact session.forest_disk ▸ h
  | static => exact session.forest_disk ▸ h
  | tree relative => exact session.forest_disk ▸ h
  | statistics => exact session.forest_disk ▸ h
  | collapse isChild => exact session.collapse_disk isChild ▸ h
  | request request => exact respond_disk request session ▸ h

end Session

/-! ## Every page file is discovered once -/

namespace Project

variable {project : Project} {disk : Disk}

theorem visibleFiles_nodup (h : disk.Sound) : (project.visibleFiles disk).Nodup := by
  unfold visibleFiles
  split
  · next location _ =>
    refine List.Nodup.filter _ ?_
    have hbelow : (disk.filesBelow location).Nodup := h.files_nodup.filter _
    refine hbelow.map_on fun a ha b hb hab => ?_
    obtain ⟨⟨below, rfl⟩, -⟩ := of_decide_eq_true (List.mem_filter.mp ha).2
    obtain ⟨⟨other, rfl⟩, -⟩ := of_decide_eq_true (List.mem_filter.mp hb).2
    have hsame := List.append_cancel_left hab
    rw [List.drop_left, List.drop_left] at hsame
    rw [hsame]
  · exact .nil

/-- **Page files are listed once.** -/
theorem pageFiles_nodup (h : disk.Sound) : (project.pageFiles disk).Nodup := by
  refine (stableSort_perm _ _).nodup_iff.mpr ?_
  refine ((visibleFiles_nodup h).filter _).map_on fun a ha b hb hab => ?_
  have hcut : ∀ components ∈ (project.visibleFiles disk).filter project.isPage,
      Text.split '/' (Text.join '/' components) = components := by
    intro components hm
    obtain ⟨-, below, hnil, rfl, hdisk⟩ := exists_of_mem_visibleFiles (List.mem_of_mem_filter hm)
    exact Text.split_join '/' _ (by simp [hnil]) (not_mem_of_mem_components h.names hdisk)
  rw [← hcut a ha, hab, hcut b hb]

theorem discover_nodup (h : disk.Sound) {files : List Text} (hfiles : (project.discover disk).1 = .ok files) : files.Nodup := by
  unfold discover at hfiles
  split at hfiles
  · cases hfiles
  · cases hfiles
    exact .nil
  · split at hfiles
    · cases hfiles
    · cases hfiles
      exact pageFiles_nodup h

end Project

end PageRouting
