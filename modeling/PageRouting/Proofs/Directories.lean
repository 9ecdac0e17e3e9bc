import Mathlib.Data.List.Infix
import Mathlib.Tactic.Tauto
import PageRouting.Disk
import PageRouting.Proofs.Naming

/-!
# `PageRouting/Proofs/Directories.lean` — where paths lead, and the directories made on the way

A path is followed on the disk, one component after the other, and it can also be followed by its text alone. Wherever the first
way ends in a file or a directory, the second one ends there too (`Disk.follows_foldl`); if it leads nowhere, something on it is
missing, is a file, or has too long a name.

Directories are made beside the files, each where a beginning of the path leads by its text (`Disk.made_makeDirectories`), and only
if no name on the path is too long. They are made for certain if, besides, no beginning of the path is a file and the path is not too
long as a whole (`Disk.makeDirectories_result`): then whatever is not there yet is made before it is followed.
-/

set_option autoImplicit false

namespace PageRouting

/-- Where components lead from a location, by their text. -/
def Location.along (start : Location) (components : List Text) : Location :=
  components.foldl Location.step start

theorem Location.along_concat (start : Location) (components : List Text) (name : Text) :
    start.along (components ++ [name]) = Location.step (start.along components) name := by
  simp [along]

theorem Location.mem_along {start : Location} {components : List Text} {name : Text} (h : name ∈ start.along components) :
    name ∈ start ∨ name ∈ components := by
  induction components using List.reverseRecOn with
  | nil => exact .inl h
  | append_singleton components last ih =>
    rw [along_concat, step] at h
    split at h
    · exact (ih (List.dropLast_subset _ h)).imp_right (List.mem_append_left _)
    · rcases List.mem_append.mp h with h | h
      · exact (ih h).imp_right (List.mem_append_left _)
      · exact .inr (List.mem_append_right _ h)

/-! ## Paths that are not refused for themselves -/

theorem Location.holdsNull_append {texts more : List Text} :
    holdsNull (texts ++ more) = false ↔ holdsNull texts = false ∧ holdsNull more = false := by
  simp [holdsNull, List.any_append]

namespace Text

theorem byteLength_append (s t : Text) : byteLength (s ++ t) = byteLength s + byteLength t := by
  have hcount : ∀ start, t.foldl (fun bytes c => bytes + c.utf8Size) start = start + byteLength t := by
    unfold byteLength
    induction t with
    | nil => exact fun start => rfl
    | cons c cs ih =>
      intro start
      rw [List.foldl_cons, List.foldl_cons, ih, ih (0 + c.utf8Size)]
      omega
  rw [byteLength, List.foldl_append, hcount]
  rfl

theorem byteLength_mono {s t : Text} (h : s <+: t) : byteLength s ≤ byteLength t := by
  obtain ⟨rest, rfl⟩ := h
  rw [byteLength_append]
  exact Nat.le_add_right _ _

theorem join_prefix_concat (sep : Char) (pieces : List Text) (last : Text) : join sep pieces <+: join sep (pieces ++ [last]) := by
  by_cases hnil : pieces = []
  · subst hnil
    exact List.nil_prefix
  · rw [join_append_singleton sep hnil]
    exact List.prefix_append _ _

/-- A last piece takes no more room without the one in front of it. -/
theorem byteLength_join_concat_le (sep : Char) (pieces : List Text) (name last : Text) :
    byteLength (join sep (pieces ++ [last])) ≤ byteLength (join sep (pieces ++ [name] ++ [last])) := by
  rw [join_append_singleton sep (by simp : pieces ++ [name] ≠ []), byteLength_append]
  by_cases hnil : pieces = []
  · subst hnil
    have hlast := byteLength_append [sep] last
    simp only [List.nil_append, join, List.singleton_append] at hlast ⊢
    omega
  · rw [join_append_singleton sep hnil, byteLength_append]
    have hle := byteLength_mono (join_prefix_concat sep pieces name)
    omega

end Text

namespace DiskPath

variable {path : DiskPath} {leading : Text} {components : List Text} {name : Text}

/-- A path is no shorter than the path above it; that one can be a dot, though, which no path can be too long for. -/
theorem isTooLong_above (h : (DiskPath.mk leading (components ++ [name])).isTooLong = false) :
    (DiskPath.mk leading components).isTooLong = false := by
  unfold isTooLong text at h ⊢
  split
  · rfl
  · rw [if_neg (by simp)] at h
    have hle := Text.byteLength_mono ((List.prefix_append_right_inj leading).mpr (Text.join_prefix_concat '/' components name))
    simp only [Refusal.isLongPath, decide_eq_false_iff_not] at h ⊢
    omega

/-- Does the path hold no null character, and is nothing in it too long? -/
structure Fits (path : DiskPath) : Prop where
  null : path.holdsNull = false
  length : path.isTooLong = false
  names : ∀ name ∈ path.components, Refusal.isLongName name = false

theorem Fits.above (h : (DiskPath.mk leading (components ++ [name])).Fits) : (DiskPath.mk leading components).Fits where
  null := (Location.holdsNull_append.mp h.null).1
  length := isTooLong_above h.length
  names other hm := h.names other (List.mem_append_left _ hm)

theorem parent_concat : (DiskPath.mk leading (components ++ [name])).parent = ⟨leading, components⟩ := by
  simp [parent]

theorem Fits.parent (h : path.Fits) : path.parent.Fits := by
  obtain ⟨leading, components⟩ := path
  rcases List.eq_nil_or_concat' components with rfl | ⟨above, name, rfl⟩
  · exact h
  · rw [parent_concat]
    exact h.above

/-- What fits below a path, fits beside it. -/
theorem Fits.beside (h : (path.child name).Fits) : (path.parent.child name).Fits := by
  obtain ⟨leading, components⟩ := path
  rcases List.eq_nil_or_concat' components with rfl | ⟨above, last, rfl⟩
  · exact h
  · rw [parent_concat]
    obtain ⟨hnull, hlength, hnames⟩ := h
    simp only [child, holdsNull] at hnull hlength hnames ⊢
    obtain ⟨hnullPath, hnullName⟩ := Location.holdsNull_append.mp hnull
    refine ⟨Location.holdsNull_append.mpr ⟨(Location.holdsNull_append.mp hnullPath).1, hnullName⟩, ?_, fun other hm => ?_⟩
    · have hle := Text.byteLength_join_concat_le '/' above last name
      unfold isTooLong text at hlength ⊢
      rw [if_neg (by simp)] at hlength ⊢
      simp only [Refusal.isLongPath, decide_eq_false_iff_not, Text.byteLength_append] at hlength ⊢
      omega
    · simp only [List.mem_append, List.mem_singleton] at hm
      exact hnames other (by simp only [List.mem_append, List.mem_singleton]; tauto)

end DiskPath

namespace Disk

variable {disk : Disk} {start above : Location} {components : List Text}

/-! ## Following a path -/

theorem isLongName_up : Refusal.isLongName ['.', '.'] = false := by decide

/-- How one component more is followed from a directory. -/
theorem step_cases (disk : Disk) (above : Location) (name : Text) :
    (disk.step (.directory above) name = .nowhere .nameTooLong ∧ Refusal.isLongName name = true) ∨
    Refusal.isLongName name = false ∧
      (disk.step (.directory above) name = .directory (Location.step above name) ∧
        (name = ['.', '.'] ∨ disk.isDirectory (Location.step above name) = true) ∨
       Location.step above name = above ++ [name] ∧
        (disk.step (.directory above) name = .file (above ++ [name]) ∧ disk.isFile (above ++ [name]) = true ∨
         disk.step (.directory above) name = .nowhere .missing)) := by
  by_cases hup : name = ['.', '.']
  · subst hup
    exact .inr ⟨isLongName_up, .inl ⟨by simp [Disk.step, Location.step], .inl rfl⟩⟩
  · have hstep : Location.step above name = above ++ [name] := if_neg hup
    simp only [Disk.step, if_neg hup, hstep, named]
    cases hlong : Refusal.isLongName name with
    | true => simp
    | false =>
      refine .inr ⟨rfl, ?_⟩
      cases hdirectory : disk.isDirectory (above ++ [name]) <;> cases hfile : disk.isFile (above ++ [name]) <;> simp

/-- What is found where components lead from a directory: by their text the same place, or a reason why there is none. -/
def Follows (disk : Disk) (start : Location) (components : List Text) : Place → Prop
  | .directory location => location = start.along components ∧ ∀ name ∈ components, Refusal.isLongName name = false
  | .file location => location = start.along components ∧ disk.isFile location = true
  | .nowhere cause =>
    cause = .missing ∨ (∃ name ∈ components, Refusal.isLongName name = true) ∨
      ∃ beginning, beginning <+: components ∧ disk.isFile (start.along beginning) = true

theorem follows_foldl (disk : Disk) (start : Location) (components : List Text) :
    Follows disk start components (components.foldl disk.step (.directory start)) := by
  induction components using List.reverseRecOn with
  | nil => exact ⟨rfl, nofun⟩
  | append_singleton components name ih =>
    rw [List.foldl_append, List.foldl_cons, List.foldl_nil]
    have hlast := start.along_concat components name
    cases hplace : components.foldl disk.step (.directory start) with
    | directory location =>
      rw [hplace] at ih
      obtain ⟨rfl, hshort⟩ := ih
      rcases disk.step_cases (start.along components) name with
        ⟨hstep, hlong⟩ | ⟨hshortName, ⟨hstep, -⟩ | ⟨hbelow, ⟨hstep, hfile⟩ | hstep⟩⟩
      · rw [hstep]
        exact .inr (.inl ⟨name, by simp, hlong⟩)
      · rw [hstep]
        exact ⟨hlast.symm, List.forall_mem_append.mpr ⟨hshort, List.forall_mem_singleton.mpr hshortName⟩⟩
      · rw [hstep]
        exact ⟨(hlast.trans hbelow).symm, hfile⟩
      · rw [hstep]
        exact .inl rfl
    | file location =>
      rw [hplace] at ih
      obtain ⟨rfl, hfile⟩ := ih
      exact .inr (.inr ⟨components, List.prefix_append _ _, hfile⟩)
    | nowhere cause =>
      rw [hplace] at ih
      rcases ih with rfl | ⟨long, hm, hlong⟩ | ⟨beginning, hbegins, hfile⟩
      · exact .inl rfl
      · exact .inr (.inl ⟨long, List.mem_append_left _ hm, hlong⟩)
      · exact .inr (.inr ⟨beginning, hbegins.trans (List.prefix_append _ _), hfile⟩)

/-- Following a path that is not too long as a whole. -/
theorem follows_find {workingDirectory : Location} {path : DiskPath} (h : path.isTooLong = false) :
    Follows disk (path.start workingDirectory) path.components (disk.find workingDirectory path) := by
  rw [find, h]
  exact disk.follows_foldl _ _

/-! ## Making directories -/

/-- What making directories along components comes to: files stay, and every directory stands where a beginning leads. -/
structure Made (disk : Disk) (start : Location) (components : List Text) (change : Change Location) : Prop where
  files : change.disk.files = disk.files
  location : ∀ location, change.result = .ok location →
    location = start.along components ∧ ∀ name ∈ components, Refusal.isLongName name = false
  directories : ∀ location, change.disk.isDirectory location = true →
    disk.isDirectory location = true ∨ ∃ beginning, beginning <+: components ∧ location = start.along beginning

/-- Nothing has to be made. -/
theorem made_along (disk : Disk) (start : Location) (h : ∀ name ∈ components, Refusal.isLongName name = false) :
    Made disk start components { result := .ok (start.along components), disk } where
  files := rfl
  location _ ho := ⟨(Except.ok.inj ho).symm, h⟩
  directories _ h := .inl h

/-- Nothing can be made. -/
theorem made_nothing (disk : Disk) (start : Location) (components : List Text) (fault : Fault) :
    Made disk start components { result := .error fault, disk } where
  files := rfl
  location _ ho := nomatch ho
  directories _ h := .inl h

/-- Seen from further on, directories stand where a beginning leads as well. -/
theorem Made.directories_append {change : Change Location} (h : Made disk start components change) (more : List Text) :
    ∀ location, change.disk.isDirectory location = true →
      disk.isDirectory location = true ∨ ∃ beginning, beginning <+: components ++ more ∧ location = start.along beginning :=
  fun location hl => (h.directories location hl).imp_right fun ⟨beginning, hbegins, heq⟩ =>
    ⟨beginning, hbegins.trans (List.prefix_append _ _), heq⟩

/-- Directories further on are refused, or have not been come to; those that were made before stay. -/
theorem Made.refused {change : Change Location} (h : Made disk start components change) (fault : Fault) (more : List Text) :
    Made disk start (components ++ more) { result := .error fault, disk := change.disk } where
  files := h.files
  location _ ho := nomatch ho
  directories := h.directories_append more

theorem isDirectory_add {location made : Location}
    (h : ({ disk with directories := disk.directories ++ [made] } : Disk).isDirectory location = true) :
    disk.isDirectory location = true ∨ location = made := by
  simp only [isDirectory, List.mem_append, List.mem_singleton, Bool.or_eq_true, decide_eq_true_eq] at h ⊢
  tauto

/-- One directory more, on the disk that those above it have left. -/
theorem Made.makeDirectory {change : Change Location} (h : Made disk start components change)
    (habove : change.result = .ok above) (name : Text) (path : DiskPath) :
    Made disk start (components ++ [name]) (change.disk.makeDirectory above name path) := by
  obtain ⟨rfl, hnames⟩ := h.location above habove
  have hlast := start.along_concat components name
  have hbefore := h.directories_append [name]
  unfold Disk.makeDirectory
  rcases change.disk.step_cases (start.along components) name with ⟨hstep, -⟩ | ⟨hshort, hfound⟩
  · rw [hstep]
    exact h.refused _ [name]
  · have hall : ∀ other ∈ components ++ [name], Refusal.isLongName other = false :=
      List.forall_mem_append.mpr ⟨hnames, List.forall_mem_singleton.mpr hshort⟩
    rcases hfound with ⟨hstep, -⟩ | ⟨hbelow, ⟨hstep, -⟩ | hstep⟩
    · rw [hstep]
      exact ⟨h.files, fun location ho => ⟨(Except.ok.inj ho).symm.trans hlast.symm, hall⟩, hbefore⟩
    · rw [hstep]
      exact h.refused _ [name]
    · rw [hstep]
      refine ⟨h.files, fun location ho => ⟨?_, hall⟩, fun location hl => ?_⟩
      · exact (Except.ok.inj ho).symm.trans (hlast.trans hbelow).symm
      · rcases isDirectory_add hl with hl | rfl
        · exact hbefore location hl
        · exact .inr ⟨_, List.prefix_refl _, (hlast.trans hbelow).symm⟩

variable {workingDirectory : Location} {leading : Text} {names : List Text} {path : DiskPath}

theorem made_makeReversed (disk : Disk) (workingDirectory : Location) (leading : Text) (names : List Text) :
    Made disk ((DiskPath.mk leading []).start workingDirectory) names.reverse
      (disk.makeReversed workingDirectory leading names) := by
  induction names with
  | nil => exact made_along disk _ nofun
  | cons name above ih =>
    rw [List.reverse_cons]
    unfold makeReversed
    dsimp only
    split
    · exact made_nothing disk _ _ _
    · next hshort =>
      rw [Bool.not_eq_true, List.reverse_cons] at hshort
      have hfollows : Follows disk ((DiskPath.mk leading []).start workingDirectory) above.reverse
          (disk.find workingDirectory ⟨leading, above.reverse⟩) := follows_find (DiskPath.isTooLong_above hshort)
      rw [List.reverse_cons, DiskPath.parent_concat]
      split
      · next location hfound =>
        rw [hfound] at hfollows
        exact (made_along disk _ hfollows.2).makeDirectory (congrArg Except.ok hfollows.1.symm) name _
      · exact made_nothing disk _ _ _
      · -- those above are made first; where that stops, what has been made of them stays
        split
        · next location hlocation => exact ih.makeDirectory hlocation name _
        · next fault hfault =>
          have hstop := ih.refused fault [name]
          rwa [← hfault] at hstop
      · exact made_nothing disk _ _ _

theorem made_makeDirectories (disk : Disk) (workingDirectory : Location) (path : DiskPath) :
    Made disk (path.start workingDirectory) path.components (disk.makeDirectories workingDirectory path) := by
  unfold makeDirectories
  split
  · exact made_nothing disk _ _ _
  · have h := disk.made_makeReversed workingDirectory path.leading path.components.reverse
    rwa [List.reverse_reverse] at h

/-! ## When they can be made -/

/-- Beside the files of the disk, a name that is not too long leads to a directory, or one can be made there. -/
theorem exists_makeDirectory {other : Disk} (hfiles : other.files = disk.files) {name : Text}
    (hshort : Refusal.isLongName name = false) (hfree : disk.isFile (Location.step above name) = false) (path : DiskPath) :
    ∃ location, (other.makeDirectory above name path).result = .ok location := by
  unfold Disk.makeDirectory
  rcases other.step_cases above name with ⟨-, hlong⟩ | ⟨-, ⟨hstep, -⟩ | ⟨hbelow, ⟨-, hfile⟩ | hstep⟩⟩
  · rw [hshort] at hlong
    contradiction
  · rw [hstep]
    exact ⟨_, rfl⟩
  · rw [hbelow, isFile, ← hfiles, ← isFile, hfile] at hfree
    contradiction
  · rw [hstep]
    exact ⟨_, rfl⟩

/-- No beginning of the components leads to a file. -/
def IsClear (disk : Disk) (start : Location) (components : List Text) : Prop :=
  ∀ beginning, beginning <+: components → disk.isFile (start.along beginning) = false

instance (disk : Disk) (start : Location) (components : List Text) : Decidable (disk.IsClear start components) :=
  decidable_of_iff (∀ beginning ∈ components.inits, disk.isFile (start.along beginning) = false) (by simp [IsClear])

theorem exists_makeReversed (hfits : (DiskPath.mk leading names.reverse).Fits)
    (hclear : disk.IsClear ((DiskPath.mk leading []).start workingDirectory) names.reverse) :
    ∃ location, (disk.makeReversed workingDirectory leading names).result = .ok location := by
  induction names with
  | nil => exact ⟨_, rfl⟩
  | cons name above ih =>
    rw [List.reverse_cons] at hfits hclear
    have hname : Refusal.isLongName name = false := hfits.names name (List.mem_append_right _ (List.mem_singleton_self _))
    have hclearAbove : disk.IsClear ((DiskPath.mk leading []).start workingDirectory) above.reverse :=
      fun beginning hbegins => hclear beginning (hbegins.trans (List.prefix_append _ _))
    have hfree := hclear _ (List.prefix_refl _)
    rw [Location.along_concat] at hfree
    have hfollows : Follows disk ((DiskPath.mk leading []).start workingDirectory) above.reverse
        (disk.find workingDirectory ⟨leading, above.reverse⟩) := follows_find hfits.above.length
    unfold makeReversed
    dsimp only
    rw [List.reverse_cons, if_neg (Bool.eq_false_iff.mp hfits.length), DiskPath.parent_concat]
    split
    · next location hfound =>
      rw [hfound] at hfollows
      obtain ⟨rfl, -⟩ := hfollows
      exact exists_makeDirectory rfl hname hfree _
    · next location hfound =>
      rw [hfound] at hfollows
      obtain ⟨rfl, hfile⟩ := hfollows
      rw [hclearAbove _ (List.prefix_refl _)] at hfile
      contradiction
    · obtain ⟨location, hlocation⟩ := ih hfits.above hclearAbove
      have hmade := disk.made_makeReversed workingDirectory leading above
      obtain ⟨rfl, -⟩ := hmade.location location hlocation
      rw [hlocation]
      exact exists_makeDirectory hmade.files hname hfree _
    · next cause hmissing hfound =>
      -- on a path that fits and meets no file, a directory can only be missing
      rw [hfound] at hfollows
      rcases hfollows with rfl | ⟨long, hm, hlong⟩ | ⟨beginning, hbegins, hfile⟩
      · exact absurd rfl hmissing
      · rw [hfits.above.names long hm] at hlong
        contradiction
      · rw [hclearAbove beginning hbegins] at hfile
        contradiction

/-- **Directories are made wherever a path leads by its text**, if no file is in the way and the path fits. -/
theorem makeDirectories_result (hfits : path.Fits) (hclear : disk.IsClear (path.start workingDirectory) path.components) :
    (disk.makeDirectories workingDirectory path).result = .ok ((path.start workingDirectory).along path.components) := by
  have hmade := disk.made_makeDirectories workingDirectory path
  obtain ⟨location, hlocation⟩ : ∃ location, (disk.makeDirectories workingDirectory path).result = .ok location := by
    rw [makeDirectories, hfits.null]
    rw [← path.components.reverse_reverse] at hclear
    refine exists_makeReversed ?_ hclear
    rwa [List.reverse_reverse]
  rw [hlocation, (hmade.location location hlocation).1]

end Disk

end PageRouting
