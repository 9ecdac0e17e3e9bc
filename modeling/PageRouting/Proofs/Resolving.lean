import PageRouting.Proofs.Discovery
import PageRouting.Proofs.Standing

/-!
# `PageRouting/Proofs/Resolving.lean` — the way to a place leads back to it

A relative path is made of names: as many steps up as the directory has names that the target does not share, and then the names
of the target that are left. Read again from the directory, it takes back what is not shared and adds what is missing, so it ends at the
target (`follow_relativeText`). That needs nothing of the paths that directory and target were given by, since what they lead to has
only proper names in it (`isProper_resolve`): no empty one, no dot, no step up, and no slash.

The one thing that paths can be refused for is a null character. A way has none that is not in the target, so a path that is
resolved by such a detour is refused if it is refused itself, or if the directory is (`Path.absolute_relative`).
-/

set_option autoImplicit false

namespace PageRouting

theorem Text.mem_join {sep c : Char} {pieces : List Text} (h : c ∈ join sep pieces) :
    c = sep ∨ ∃ piece ∈ pieces, c ∈ piece := by
  induction pieces using List.reverseRecOn with
  | nil => cases h
  | append_singleton pieces piece ih =>
    by_cases hnil : pieces = []
    · subst hnil
      exact .inr ⟨piece, by simp, h⟩
    · rw [join_append_singleton sep hnil] at h
      rcases List.mem_append.mp h with hm | hm
      · exact (ih hm).imp_right fun ⟨other, ho, hc⟩ => ⟨other, List.mem_append_left _ ho, hc⟩
      · exact (List.mem_cons.mp hm).imp_right fun hc => ⟨piece, by simp, hc⟩

namespace Location

/-! ## Proper names -/

/-- Can the text be the name of a place, and nothing that leads elsewhere? -/
structure IsProperName (name : Text) : Prop where
  telling : IsTelling name
  not_up : name ≠ ['.', '.']
  slash : '/' ∉ name

/-- Are all names on the way from the root proper? -/
def IsProper (location : Location) : Prop :=
  ∀ name ∈ location, IsProperName name

theorem isProper_step {location : Location} {component : Text} (h : location.IsProper) (htelling : IsTelling component)
    (hslash : '/' ∉ component) : (location.step component).IsProper := by
  unfold step
  split
  · exact fun name hm => h name (List.mem_of_mem_dropLast hm)
  · next hup =>
    exact List.forall_mem_append.mpr ⟨h, List.forall_mem_singleton.mpr ⟨htelling, hup, hslash⟩⟩

theorem isProper_foldl {location : Location} {steps : List Text} (h : location.IsProper)
    (hsteps : ∀ component ∈ steps, IsTelling component ∧ '/' ∉ component) : (steps.foldl step location).IsProper := by
  induction steps generalizing location with
  | nil => exact h
  | cons component steps ih =>
    obtain ⟨htelling, hslash⟩ := hsteps component List.mem_cons_self
    exact ih (isProper_step h htelling hslash) fun other hm => hsteps other (List.mem_cons_of_mem _ hm)

theorem isProper_follow {location : Location} (h : location.IsProper) (path : Text) : (location.follow path).IsProper := by
  have hcomponents : ∀ component ∈ components path, IsTelling component ∧ '/' ∉ component := fun component hm =>
    ⟨isTelling_of_mem_components hm, slash_not_mem_of_mem_components hm⟩
  unfold follow
  split
  · exact isProper_foldl (fun name hm => by cases hm) hcomponents
  · exact isProper_foldl h hcomponents

/-- **What parts lead to has proper names only**, whatever is written in the parts. -/
theorem isProper_resolve {start : Location} (h : start.IsProper) (parts : List Text) : (resolve start parts).IsProper := by
  induction parts generalizing start with
  | nil => exact h
  | cons part parts ih => exact ih (isProper_follow h part)

theorem isProper_of_root (parts : List Text) : (resolve [] parts).IsProper :=
  isProper_resolve (fun name hm => by cases hm) parts

/-! ## Up and down -/

theorem foldl_step_names {names : List Text} (h : ∀ name ∈ names, name ≠ ['.', '.']) (location : Location) :
    names.foldl step location = location ++ names := by
  induction names generalizing location with
  | nil => exact (List.append_nil _).symm
  | cons name names ih =>
    rw [List.foldl_cons, step, if_neg (h name List.mem_cons_self), ih fun other hm => h other (List.mem_cons_of_mem _ hm)]
    simp

theorem foldl_step_up (above below : Location) : (List.replicate below.length ['.', '.']).foldl step (above ++ below) = above := by
  induction below using List.reverseRecOn with
  | nil => exact List.append_nil _
  | append_singleton below name ih =>
    have hup : step (above ++ (below ++ [name])) ['.', '.'] = above ++ below := by
      rw [step, if_pos rfl, ← List.append_assoc, List.dropLast_concat]
    rw [List.length_append, List.length_singleton, List.replicate_succ, List.foldl_cons, hup, ih]

/-- What is shared is in front of both. -/
theorem common_prefix (a b : Location) : common a b <+: a ∧ common a b <+: b := by
  induction a generalizing b with
  | nil => exact ⟨List.nil_prefix, List.nil_prefix⟩
  | cons x a ih =>
    cases b with
    | nil => exact ⟨List.nil_prefix, List.nil_prefix⟩
    | cons y b =>
      rw [common]
      split
      · next hxy =>
        obtain ⟨ha, hb⟩ := ih b
        exact ⟨(List.prefix_cons_inj x).mpr ha, hxy ▸ (List.prefix_cons_inj x).mpr hb⟩
      · exact ⟨List.nil_prefix, List.nil_prefix⟩

/-- Directory and target from where their ways part, and the steps from one to the other. -/
theorem exists_between (directory target : Location) : ∃ shared up down : Location, directory = shared ++ up ∧
    target = shared ++ down ∧ between directory target = List.replicate up.length ['.', '.'] ++ down := by
  obtain ⟨hdirectory, htarget⟩ := common_prefix directory target
  refine ⟨common directory target, directory.drop (common directory target).length,
    target.drop (common directory target).length, ?_, ?_, ?_⟩
  · exact (List.prefix_iff_eq_append.mp hdirectory).symm
  · exact (List.prefix_iff_eq_append.mp htarget).symm
  · rw [between, List.length_drop]

/-- **The steps between two places lead from one to the other.** -/
theorem foldl_between (directory : Location) {target : Location} (h : target.IsProper) :
    (between directory target).foldl step directory = target := by
  obtain ⟨shared, up, down, rfl, rfl, hbetween⟩ := exists_between directory target
  rw [hbetween, List.foldl_append, foldl_step_up]
  exact foldl_step_names (fun name hm => (h name (List.mem_append_right _ hm)).not_up) shared

/-! ## The way as text -/

/-- Components are read back from the path that joins them. -/
theorem components_join {steps : List Text} (h : ∀ component ∈ steps, IsTelling component ∧ '/' ∉ component) :
    components (Text.join '/' steps) = steps := by
  by_cases hnil : steps = []
  · rw [hnil]
    rfl
  · rw [components_eq, Text.split_join '/' steps hnil fun component hm => (h component hm).2]
    exact List.filter_eq_self.mpr fun component hm => decide_eq_true (h component hm).1

theorem of_mem_between {directory target : Location} (h : target.IsProper) :
    ∀ component ∈ between directory target, IsTelling component ∧ '/' ∉ component := by
  obtain ⟨shared, up, down, -, rfl, hbetween⟩ := exists_between directory target
  intro component hm
  rw [hbetween] at hm
  rcases List.mem_append.mp hm with hm | hm
  · rw [List.eq_of_mem_replicate hm]
    exact ⟨by decide, by decide⟩
  · obtain ⟨htelling, -, hslash⟩ := h component (List.mem_append_right _ hm)
    exact ⟨htelling, hslash⟩

/-- Whether or not a dot was put in front of the way, it is made of the steps. -/
theorem components_relativeText (directory : Location) {target : Location} (h : target.IsProper) :
    components (relativeText directory target) = between directory target := by
  have hjoin : components (Text.join '/' (between directory target)) = between directory target :=
    components_join (of_mem_between h)
  unfold relativeText
  split
  · next hnil => exact hnil.symm
  · dsimp only
    split
    · exact hjoin
    · exact (components_append_slash ['.'] _).trans hjoin

/-- A way always begins with a dot, so it is neither absolute nor an alias. -/
theorem head?_relativeText (directory target : Location) : (relativeText directory target).head? = some '.' := by
  unfold relativeText
  split
  · rfl
  · dsimp only
    split
    · next hdot => exact hdot
    · rfl

/-- **The way to a place leads there.** -/
theorem follow_relativeText (directory : Location) {target : Location} (h : target.IsProper) :
    directory.follow (relativeText directory target) = target := by
  rw [follow, head?_relativeText, if_neg (by decide), components_relativeText directory h, foldl_between directory h]

/-! ## Null characters -/

theorem mem_foldl_step {location : Location} {steps : List Text} {name : Text} (h : name ∈ steps.foldl step location) :
    name ∈ location ∨ name ∈ steps := by
  induction steps generalizing location with
  | nil => exact .inl h
  | cons component steps ih =>
    rcases ih h with hm | hm
    · unfold step at hm
      split at hm
      · exact .inl (List.mem_of_mem_dropLast hm)
      · rcases List.mem_append.mp hm with hm | hm
        · exact .inl hm
        · exact .inr (List.mem_singleton.mp hm ▸ List.mem_cons_self)
    · exact .inr (List.mem_cons_of_mem _ hm)

theorem effective_concat (parts : List Text) (part : Text) :
    effective (parts ++ [part]) = if part.head? = some '/' then [part] else effective parts ++ [part] := by
  rw [effective, List.foldl_append]
  rfl

/-- The names of what parts lead to stand in the parts that count. -/
theorem exists_of_mem_resolve {parts : List Text} {name : Text} (h : name ∈ resolve [] parts) :
    ∃ part ∈ effective parts, name ∈ components part := by
  induction parts using List.reverseRecOn with
  | nil => cases h
  | append_singleton parts part ih =>
    have hfollow : resolve [] (parts ++ [part]) = (resolve [] parts).follow part := List.foldl_concat ..
    rw [hfollow, follow] at h
    rw [effective_concat]
    split at h
    · next habsolute =>
      rw [if_pos habsolute]
      exact ⟨part, List.mem_singleton_self part, (mem_foldl_step h).resolve_left (by simp)⟩
    · next hrelative =>
      rw [if_neg hrelative]
      rcases mem_foldl_step h with hm | hm
      · obtain ⟨other, ho, hother⟩ := ih hm
        exact ⟨other, List.mem_append_left _ ho, hother⟩
      · exact ⟨part, by simp, hm⟩

/-- A way has no characters but those of its target, dots and slashes. -/
theorem mem_relativeText {directory target : Location} {c : Char} (h : c ∈ relativeText directory target) (hdot : c ≠ '.')
    (hslash : c ≠ '/') : ∃ name ∈ target, c ∈ name := by
  obtain ⟨shared, up, down, -, rfl, hbetween⟩ := exists_between directory target
  have hjoin : c ∈ Text.join '/' (between directory (shared ++ down)) := by
    unfold relativeText at h
    split at h
    · exact absurd (List.mem_singleton.mp h) hdot
    · dsimp only at h
      split at h
      · exact h
      · simpa [hdot, hslash] using h
  obtain ⟨component, hm, hc⟩ := (Text.mem_join hjoin).resolve_left hslash
  rw [hbetween] at hm
  rcases List.mem_append.mp hm with hm | hm
  · rw [List.eq_of_mem_replicate hm] at hc
    simp [hdot] at hc
  · exact ⟨component, List.mem_append_right _ hm, hc⟩

theorem holdsNull_eq_false_iff {texts : List Text} : holdsNull texts = false ↔ ∀ text ∈ texts, '\x00' ∉ text := by
  simp [holdsNull]

/-- Without a null character in the parts that count there is none in the way. -/
theorem null_not_mem_relativeText (directory : Location) {parts : List Text} (h : holdsNull (effective parts) = false) :
    '\x00' ∉ relativeText directory (resolve [] parts) := by
  intro hnull
  obtain ⟨name, hname, hc⟩ := mem_relativeText hnull (by decide) (by decide)
  obtain ⟨part, hpart, hcomponent⟩ := exists_of_mem_resolve hname
  exact holdsNull_eq_false_iff.mp h part hpart (Text.mem_of_mem_split (List.mem_of_mem_filter hcomponent) _ hc)

/-- A single part counts, whether or not it begins with a slash. -/
theorem effective_singleton (part : Text) : effective [part] = [part] := by
  rw [← List.nil_append [part], effective_concat]
  split <;> rfl

/-- So does a directory with a way from it. -/
theorem effective_detour (part : Text) (directory target : Location) :
    effective [part, relativeText directory target] = [part, relativeText directory target] := by
  rw [← List.singleton_append, effective_concat, head?_relativeText, if_neg (by decide), effective_singleton]

end Location

namespace Path

open Location

theorem isAlias_relativeText (directory target : Location) : isAlias (relativeText directory target) = false := by
  rw [isAlias, head?_relativeText]
  rfl

/-- The way is what there is to say, unless a null character stands in the parts that count, or in the directory. -/
theorem relative_eq {parts : List Text} {last : Text} (hlast : parts.getLast? = some last) (halias : isAlias last = false)
    (directory : Text) : relative .posix directory parts =
      if holdsNull (effective parts) || holdsNull [directory] then .error .nullInPath
      else .ok (relativeText (resolve [] [directory]) (resolve [] parts)) := by
  unfold relative
  rw [hlast]
  dsimp only
  rw [halias, if_neg (by decide), ofParts, ofParts, effective_singleton]
  cases holdsNull (effective parts) <;> cases holdsNull [directory] <;> rfl

/-- No way begins with a slash: it begins with a dot, or is an alias. -/
theorem head?_relative {directory way : Text} {parts : List Text} (h : relative .posix directory parts = .ok way) :
    way.head? ≠ some '/' := by
  cases hlast : parts.getLast? with
  | none => simp [relative, hlast] at h
  | some last =>
    cases halias : isAlias last with
    | true =>
      have hway : last = way := by simpa [relative, hlast, halias, Host.componentPath] using h
      intro hslash
      rw [isAlias, hway, hslash] at halias
      cases halias
    | false =>
      rw [relative_eq hlast halias] at h
      split at h
      · cases h
      · rw [← Except.ok.inj h, head?_relativeText]
        decide

theorem absolute_eq {parts : List Text} {last : Text} (hlast : parts.getLast? = some last) (halias : isAlias last = false) :
    absolute .posix parts = if holdsNull (effective parts) then .error .nullInPath else .ok (resolve [] parts).text := by
  unfold absolute
  rw [hlast]
  dsimp only
  rw [halias, if_neg (by decide), ofParts]
  cases holdsNull (effective parts) <;> rfl

/--
**The way to where parts lead resolves back to it.** Whatever empty components, dots and steps up directory and parts are written
with, and wherever the one lies as seen from the other, the way from the directory leads from the directory to the place that the
parts lead to; a part that does not begin with a slash counts from the place before it, the first one from the root.

So if the way is resolved from the directory, the result is that of the parts themselves: the same absolute path, the same alias, or
the same fault. Only a directory that cannot be on a disk, since it holds a null character, is refused where the parts alone would
not be; an alias is not resolved and stands for itself even then. The way is never an absolute path itself.
-/
theorem absolute_relative (directory : Text) (parts : List Text) :
    (∀ way, relative .posix directory parts = .ok way → way.head? ≠ some '/') ∧
    resolve [] [directory, relativeText (resolve [] [directory]) (resolve [] parts)] = resolve [] parts ∧
    (relative .posix directory parts >>= fun way => absolute .posix [directory, way]) =
      if '\x00' ∈ directory ∧ parts.getLast?.map isAlias = some false then .error .nullInPath else absolute .posix parts := by
  have hback : resolve [] [directory, relativeText (resolve [] [directory]) (resolve [] parts)] = resolve [] parts :=
    follow_relativeText _ (isProper_of_root parts)
  refine ⟨fun way hway => head?_relative hway, hback, ?_⟩
  cases hlast : parts.getLast? with
  | none => simp [relative, absolute, hlast, bind, Except.bind]
  | some last =>
    cases halias : isAlias last with
    | true => simp [relative, absolute, hlast, halias, Host.componentPath, bind, Except.bind]
    | false =>
      have hdetour : absolute .posix [directory, relativeText (resolve [] [directory]) (resolve [] parts)] =
          if holdsNull [directory, relativeText (resolve [] [directory]) (resolve [] parts)] then .error .nullInPath
          else .ok (resolve [] parts).text := by
        rw [absolute_eq rfl (isAlias_relativeText _ _), effective_detour, hback]
      rw [relative_eq hlast halias, absolute_eq hlast halias]
      cases hparts : holdsNull (effective parts) with
      | true => simp [bind, Except.bind]
      | false =>
        have hway := null_not_mem_relativeText (resolve [] [directory]) hparts
        by_cases hdirectory : '\x00' ∈ directory <;> simp [holdsNull, halias, hdirectory, hway, hdetour, bind, Except.bind]

/-- A way that goes up and down again, to parts the last one of which is no alias; each of them is written with detours. -/
theorem absolute_relative_detours :
    let directory := "/srv//app/./lib/..".toList
    let parts := ["/srv/app".toList, "../.hidden/@x".toList, "page.vue".toList]
    let way := "../.hidden/@x/page.vue".toList
    relative .posix directory parts = .ok way ∧ way.head? ≠ some '/' ∧
      absolute .posix [directory, way] = absolute .posix parts ∧ absolute .posix parts = .ok "/srv/.hidden/@x/page.vue".toList := by
  intro directory parts way
  obtain ⟨hrelative, -, hback⟩ := absolute_relative directory parts
  have hway : relative .posix directory parts = .ok way := by decide +kernel
  have hfree : ¬ ('\x00' ∈ directory ∧ parts.getLast?.map isAlias = some false) := by decide +kernel
  rw [hway, if_neg hfree] at hback
  exact ⟨hway, hrelative way hway, hback, by decide +kernel⟩

example : relative .posix "/srv//app/./lib/..".toList ["/srv/app".toList, "../.hidden".toList, "@x/page.vue".toList] =
    .ok "@x/page.vue".toList := by decide +kernel

end Path

end PageRouting
