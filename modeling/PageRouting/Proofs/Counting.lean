import PageRouting.Proofs.Conservation
import PageRouting.Proofs.SiblingOrder
import PageRouting.Proofs.SoundDisk

/-!
# `PageRouting/Proofs/Counting.lean` — the statistics count what is in the forest

The statistics take the number of pages from the kept listing and the number of routes from the kept forest. The one is never looked
at again, the other is changed in place by later passes. All the same they agree: the forest was compiled from that listing, each
file of it is a page of the forest (`Compilation.pages_length`), and a pass that renames routes, even one that stops half way,
neither adds nor takes a page.

So what a session keeps is a listing and a forest that agree (`Snapshot.Agrees`). A step keeps that (`IsInStep.step`), and with it
a run of any length (`IsInStep.after`).
-/

set_option autoImplicit false

namespace PageRouting

namespace Forest

/-- The routes that show a page. -/
def shown (forest : Forest) : List Route :=
  forest.nodes.filter fun route => route.component.isSome

theorem length_pages (forest : Forest) : forest.pages.length = forest.shown.length := by
  rw [pages, List.length_filterMap_eq_countP, shown, List.countP_eq_length_filter]
  simp only [Option.isSome_map]

end Forest

/-- **The forest of a listing without repetitions has a page for each file of it.** -/
theorem Compilation.pages_length {layout : Layout} {files : List Text} {forest : Forest} (hfiles : files.Nodup)
    (h : (compile layout files).result = .ok forest) : forest.pages.length = files.length := by
  obtain ⟨entries, hentries, -, rfl⟩ := compile_result_eq_ok h
  have hread : entries.length = files.length := by
    simpa [Text.distinct_of_nodup hfiles] using (files_of_entries hentries).length_eq
  have hbuild : (build entries).1.pages.Perm (entries.map PageEntry.page ++ []) := Forest.pages_insertAll entries []
  rw [Forest.pages_collapse, hbuild.length_eq, List.append_nil, List.length_map, hread]

/-- In a compiled forest every route without children shows a page. -/
theorem Compilation.leavesShow {layout : Layout} {files : List Text} {forest : Forest}
    (h : (compile layout files).result = .ok forest) : forest.LeavesShow := by
  obtain ⟨entries, -, -, rfl⟩ := compile_result_eq_ok h
  exact (Forest.leavesShow_nil.insertAll entries).collapse false

/-- Do the statistics count the routes of a forest, and is none there for nothing? -/
structure Statistics.Counts (statistics : Statistics) (forest : Forest) : Prop where
  pages : statistics.pages = forest.shown.length
  routes : statistics.routes = forest.nodes.length
  leaves : ∀ route ∈ forest.nodes, route.component = none → route.children ≠ []

/-- Do listing and forest agree on the pages, and does every route without children show one? -/
structure Snapshot.Agrees (snapshot : Snapshot) : Prop where
  pages : snapshot.forest.pages.length = snapshot.files.length
  leaves : snapshot.forest.LeavesShow

theorem Snapshot.Agrees.counts {snapshot : Snapshot} (h : snapshot.Agrees) (project : Project) :
    (Session.count project snapshot.files snapshot.forest).Counts snapshot.forest where
  pages := h.pages.symm.trans snapshot.forest.length_pages
  routes := rfl
  leaves route hm hnone hnil := by
    have hshows := h.leaves route hm hnil
    rw [hnone] at hshows
    cases hshows

/-- What a sound disk is compiled to agrees with its listing. -/
theorem Project.agrees_of_snapshot {project : Project} {disk : Disk} (hdisk : disk.Sound) {snapshot : Snapshot}
    (h : project.snapshot disk = .ok snapshot) : snapshot.Agrees := by
  unfold Project.snapshot at h
  split at h
  · cases h
  · next files hfiles =>
    cases hc : (compile project.layout files).result with
    | error fault =>
      rw [hc] at h
      cases h
    | ok forest =>
      rw [hc] at h
      obtain rfl := Except.ok.inj h
      exact ⟨Compilation.pages_length (discover_nodup hdisk hfiles) hc, Compilation.leavesShow hc⟩

namespace Session

/-- Does the session keep nothing, or a listing and a forest that agree? -/
structure IsInStep (session : Session) : Prop where
  sound : session.disk.Sound
  kept : ∃ kept, session.Keeps kept ∧ ∀ snapshot ∈ kept, snapshot.Agrees

variable {session : Session} {kept : Option Snapshot}

/-- What a read finds agrees, whether it was kept or is compiled now. -/
theorem agrees_of_read (hdisk : session.disk.Sound) (hkept : ∀ snapshot ∈ kept, snapshot.Agrees) {snapshot : Snapshot}
    (h : session.read kept = .ok snapshot) : snapshot.Agrees := by
  cases kept with
  | none => exact Project.agrees_of_snapshot hdisk h
  | some found => exact hkept snapshot (congrArg some (Except.ok.inj h))

/-- A pass over the kept forest changes no page, even if it stops half way. -/
theorem IsInStep.collapse (h : session.IsInStep) (isChild : Bool) : (session.collapse isChild).session.IsInStep := by
  refine ⟨session.collapse_disk isChild ▸ h.sound, ?_⟩
  obtain ⟨kept, hkeeps, hagrees⟩ := h.kept
  obtain ⟨hresult, hthen, -⟩ := forest_spec hkeeps
  unfold Session.collapse
  dsimp only
  rw [hresult]
  cases hread : session.read kept with
  | error fault =>
    rw [hread] at hthen
    exact ⟨none, hthen, nofun⟩
  | ok snapshot =>
    rw [hread] at hthen
    have hsnapshot := agrees_of_read h.sound hagrees hread
    refine ⟨some { snapshot with forest := (snapshot.forest.collapse isChild).value }, ⟨hthen.files, rfl⟩, ?_⟩
    rintro _ ⟨⟩
    exact ⟨(congrArg List.length (Forest.pages_collapse isChild snapshot.forest)).trans hsnapshot.pages,
      hsnapshot.leaves.collapse isChild⟩

/-- What is kept does not depend on the disk. -/
theorem IsInStep.withDisk (h : session.IsInStep) {disk : Disk} (hdisk : disk.Sound) : { session with disk }.IsInStep :=
  let ⟨kept, hkeeps, hagrees⟩ := h.kept
  ⟨hdisk, kept, ⟨hkeeps.files, hkeeps.forest⟩, hagrees⟩

/-- A read changes what is kept only to what it finds. -/
theorem IsInStep.forest (h : session.IsInStep) : session.forest.session.IsInStep := by
  refine ⟨session.forest_disk ▸ h.sound, ?_⟩
  obtain ⟨kept, hkeeps, hagrees⟩ := h.kept
  refine ⟨_, (forest_spec hkeeps).2.1, fun snapshot hsnapshot => ?_⟩
  cases hread : session.read kept with
  | error fault =>
    rw [hread] at hsnapshot
    cases hsnapshot
  | ok found =>
    rw [hread] at hsnapshot
    cases hsnapshot
    exact agrees_of_read h.sound hagrees hread

theorem IsInStep.invalidate (h : session.IsInStep) : session.invalidate.session.IsInStep :=
  ⟨h.sound, none, ⟨rfl, rfl⟩, nofun⟩

/-- A request comes to nothing but a read or an emptying of the caches, whatever framework hands it over. -/
theorem IsInStep.respond (h : session.IsInStep) (request : Request) : (Service.respond request session).session.IsInStep := by
  unfold Service.respond
  split
  · next resource _ =>
    cases resource with
    | health => exact h
    | routes =>
      unfold Service.serve
      rw [(answer_spec _ _).1]
      exact h.forest
    | flat =>
      unfold Service.serve
      rw [(answer_spec _ _).1]
      split <;> exact h.forest
    | invalidate => exact h.invalidate
  · exact h

/-- **One step more.** -/
theorem IsInStep.step (h : session.IsInStep) {step : Step} (hstep : step.IsNamed) : (session.step step).session.IsInStep := by
  have hsound : (session.step step).session.disk.Sound := sound_step h.sound hstep
  cases step with
  | write path text => exact h.withDisk hsound
  | makeDirectory path => exact h.withDisk hsound
  | remove path => exact h.withDisk hsound
  | discover => exact h
  | compile project => exact h
  | flat => exact h.forest
  | static => exact h.forest
  | tree relative => exact h.forest
  | statistics => exact h.forest
  | invalidate => exact h.invalidate
  | collapse isChild => exact h.collapse isChild
  | request request => exact h.respond request

/-- Any number of steps. -/
theorem IsInStep.after (h : session.IsInStep) {steps : List Step} (hsteps : ∀ step ∈ steps, step.IsNamed) :
    (session.after steps).IsInStep := by
  induction steps using List.reverseRecOn with
  | nil => exact h
  | append_singleton steps step ih =>
    rw [after_concat]
    exact (ih fun other hm => hsteps other (List.mem_append_left _ hm)).step (hsteps step (by simp))

/--
**The statistics count what is in the forest.** Take a session that keeps nothing, on a disk that has each file once, and any steps,
a further collapse of the kept forest included, whether they succeed or not. If the statistics can be given then, their number of
pages is the number of routes in the kept forest that show a component, their number of routes is that of all its routes, and a route
that is not counted as a page has children. The statistics that the server gives with the routes are no others.
-/
theorem statistics_count {session : Session} (hfiles : session.keptFiles = none) (hforest : session.keptForest = none)
    (hdisk : session.disk.Sound) {steps : List Step} (hsteps : ∀ step ∈ steps, step.IsNamed) :
    let now := session.after steps
    (∀ statistics, now.statistics.result = .ok statistics →
      ∃ forest, now.statistics.session.keptForest = some forest ∧ statistics.Counts forest) ∧
    (now.gateway.Documented → ∀ request response, request.asksToSee "/_routes".toList →
      (Service.respond request now).result = .ok response → response.status = 200 →
      ∃ statistics forest, (Service.respond request now).session.keptForest = some forest ∧ statistics.Counts forest ∧
        response = Service.success (Service.routesFields now statistics forest)) := by
  intro now
  have hstart : session.IsInStep := ⟨hdisk, none, ⟨hfiles, hforest⟩, nofun⟩
  obtain ⟨hsound, kept, hkeeps, hagrees⟩ : now.IsInStep := hstart.after hsteps
  obtain ⟨hresult, hthen, -⟩ := forest_spec hkeeps
  refine ⟨fun statistics h => ?_, fun hgateway request response hasks h hstatus => ?_⟩
  · change (now.forest.result.map (count now.project (now.forest.session.keptFiles.getD []))) = _ at h
    change ∃ forest, now.forest.session.keptForest = some forest ∧ _
    rw [hresult, hthen.files] at h
    rw [hthen.forest]
    cases hread : now.read kept with
    | error fault =>
      rw [hread] at h
      cases h
    | ok snapshot =>
      rw [hread] at h
      obtain rfl := Except.ok.inj h
      exact ⟨snapshot.forest, rfl, (agrees_of_read hsound hagrees hread).counts now.project⟩
  · have hreads : (Step.request request).reads := Bool.or_eq_true_iff.mpr (.inl hasks)
    obtain ⟨hsession, hanswer⟩ := respond_of_reads hgateway hreads hkeeps
    rw [hanswer] at h
    rw [hsession, hthen.forest]
    cases hread : now.read kept with
    | error fault =>
      rw [hread, responseTo] at h
      split at h
      · cases h
        cases hstatus
      · cases h
    | ok snapshot =>
      rw [hread, responseTo, if_pos hasks] at h
      obtain rfl := Except.ok.inj h
      exact ⟨_, snapshot.forest, rfl, (agrees_of_read hsound hagrees hread).counts now.project, rfl⟩

/-- A session of a project with one page. -/
def onePage : Session where
  project := { root := ["app".toList], pagesDir := "pages".toList, extensions := Layout.defaultExtensions }
  disk :=
    { directories := [["app".toList], ["app".toList, "pages".toList]]
      files := [(["app".toList, "pages".toList, "about.vue".toList], [])] }
  base := "/".toList

/-- The project gets a page in a directory, is read and collapsed again, and loses its first page from the disk. -/
def busy : List Step :=
  [.write (DiskPath.ofText "/app/pages/users/list.vue".toList) [], .statistics, .collapse true,
   .remove (DiskPath.ofText "/app/pages/about.vue".toList)]

/-- Two pages are still kept and counted, and the wrapper of the directory beside them. -/
theorem statistics_count_busy :
    ∃ statistics forest, (onePage.after busy).statistics.result = .ok statistics ∧
      (onePage.after busy).statistics.session.keptForest = some forest ∧
      statistics.pages = 2 ∧ statistics.routes = 3 ∧ statistics.Counts forest := by
  have hdisk : onePage.disk.Sound := ⟨by decide +kernel, by unfold Disk.HasNames; decide +kernel⟩
  have hsteps : ∀ step ∈ busy, step.IsNamed := by
    intro step hm
    simp only [busy, List.mem_cons, List.not_mem_nil, or_false] at hm
    rcases hm with rfl | rfl | rfl | rfl
    · exact DiskPath.isNamed_ofText _
    all_goals exact trivial
  have hcounted : (onePage.after busy).statistics.result.toOption.map (fun statistics => (statistics.pages, statistics.routes)) =
      some (2, 3) := by decide +kernel
  cases hresult : (onePage.after busy).statistics.result with
  | error fault =>
    rw [hresult] at hcounted
    cases hcounted
  | ok statistics =>
    obtain ⟨forest, hforest, hcounts⟩ := (statistics_count rfl rfl hdisk hsteps).1 statistics hresult
    rw [hresult] at hcounted
    obtain ⟨htwo, hthree⟩ := Prod.mk.inj (Option.some.inj hcounted)
    exact ⟨statistics, forest, rfl, hforest, htwo, hthree, hcounts⟩

end Session

end PageRouting
