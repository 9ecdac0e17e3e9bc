import Mathlib.Data.List.Induction
import PageRouting.Session.Step

/-!
# `PageRouting/Proofs/Keeping.lean` — what a session keeps

A session has two caches, one for a listing of page files and one for the forest that was compiled from it. Many steps fill
them, some through the server, and any step may find a disk that has changed, or page files that cannot be compiled. All the
same the caches can be told from the history of the session alone, without following them through it:

* they hold what the first read gave that could be compiled, of those since the last step that empties them (`keptOf`);
* so both are full or both are empty, and a read that fails leaves them empty;
* a read answers from what is kept, or else from what it compiles itself and keeps (`answerTo`).

That is `run_keeps`. One step is `keeps_step`: it rests on `forest_spec`, since every read of a session goes through
`Session.forest`. Which requests read and which empty the caches is said by their methods and paths alone. That the server's
resources are mounted there is proved (`Step.reads_request_iff`); that they get these requests is what the documentation of the
framework says (`Gateway.Documented`).
-/

set_option autoImplicit false

namespace PageRouting

/-- The page files on a disk with the forest that they compile to, or why there is none. -/
def Project.snapshot (project : Project) (disk : Disk) : Except Fault Snapshot :=
  match (project.discover disk).1 with
  | .error fault => .error fault
  | .ok files => (compile project.layout files).result.map fun forest => { files, forest }

/-! ## Requests -/

namespace Request

/-- Is it a request for a path, by one of the methods? A newline at the end of the path that it names does not count. -/
def asks (request : Request) (methods : List Text) (path : Text) : Bool :=
  methods.contains request.method && (decide (request.path = path) || decide (request.path = path ++ ['\n']))

/-- Is it a request to see what is at a path? -/
def asksToSee (request : Request) (path : Text) : Bool :=
  request.asks ["GET".toList, "HEAD".toList] path

/-- The resource that the request is for. -/
def resource? (request : Request) : Option Resource :=
  (Service.mounts.find? fun mount => mount.isAt request.path && mount.takes request.method).map Mount.resource

variable {request : Request} {resource : Resource} {gateway : Gateway}

/-- A request is handed to the resource that it is for. -/
theorem handle_of_resource? (hgateway : gateway.Documented) (h : request.resource? = some resource) :
    gateway.handle Service.mounts request = .handed resource := by
  obtain ⟨mount, hfound, rfl⟩ := Option.map_eq_some_iff.mp h
  exact hgateway.handed _ _ _ Service.isLiteral_of_mem_mounts hfound

/-- A request that is for no resource is answered without one. -/
theorem handle_of_resource?_eq_none (hgateway : gateway.Documented) (h : request.resource? = none) :
    ∃ response, gateway.handle Service.mounts request = .answered response :=
  hgateway.answered _ _ Service.isLiteral_of_mem_mounts (Option.map_eq_none_iff.mp h)

/-- Mounts at the path of one request are one mount. -/
theorem eq_of_isAt {mount other : Mount} (hm : mount ∈ Service.mounts) (ho : other ∈ Service.mounts)
    (h : mount.isAt request.path) (h' : other.isAt request.path) : mount = other := by
  have hends : ∀ mount ∈ Service.mounts, mount.path.getLast? ≠ some '\n' := by decide
  have hpaths : ∀ mount ∈ Service.mounts, ∀ other ∈ Service.mounts, mount.path = other.path → mount = other := by decide
  apply hpaths mount hm other ho
  simp only [Mount.isAt, Bool.or_eq_true, decide_eq_true_iff] at h h'
  rcases h with h | h <;> rcases h' with h' | h' <;> rw [h] at h'
  · exact h'
  · exact absurd (by simp [h']) (hends mount hm)
  · exact absurd (by simp [← h']) (hends other ho)
  · exact List.append_cancel_right h'

/-- A request is for a resource exactly if it comes to the one place where that is mounted, by a method that is taken there. -/
theorem resource?_eq_iff (mount : Mount) (hm : mount ∈ Service.mounts) :
    request.resource? = some mount.resource ↔ mount.isAt request.path ∧ mount.takes request.method := by
  have hone : ∀ mount ∈ Service.mounts, ∀ other ∈ Service.mounts, other.resource = mount.resource → other = mount := by decide
  unfold resource?
  constructor
  · intro h
    obtain ⟨other, hfound, hresource⟩ := Option.map_eq_some_iff.mp h
    have hserves := List.find?_some hfound
    rw [Bool.and_eq_true] at hserves
    rw [← hone mount hm other (List.mem_of_find?_eq_some hfound) hresource]
    exact hserves
  · intro ⟨hat, htakes⟩
    cases hfound : Service.mounts.find? fun mount => mount.isAt request.path && mount.takes request.method with
    | none => exact absurd (Bool.and_eq_true_iff.mpr ⟨hat, htakes⟩) (List.find?_eq_none.mp hfound mount hm)
    | some other =>
      have hserves := List.find?_some hfound
      rw [Bool.and_eq_true] at hserves
      rw [eq_of_isAt (List.mem_of_find?_eq_some hfound) hm hserves.1 hat]
      rfl

theorem asksToSee_iff (path : Text) (resource : Resource) : request.asksToSee path ↔
    (⟨path, none, resource⟩ : Mount).isAt request.path ∧ (⟨path, none, resource⟩ : Mount).takes request.method := by
  simp [Mount.isAt, Mount.takes, asksToSee, asks, and_comm]

theorem asks_post_iff (path : Text) (resource : Resource) : request.asks ["POST".toList] path ↔
    (⟨path, some ["POST".toList], resource⟩ : Mount).isAt request.path ∧
      (⟨path, some ["POST".toList], resource⟩ : Mount).takes request.method := by
  simp [Mount.isAt, Mount.takes, asks, and_comm]

theorem resource?_eq_routes_iff : request.resource? = some .routes ↔ request.asksToSee "/_routes".toList :=
  (resource?_eq_iff ⟨"/_routes".toList, none, .routes⟩ (by decide)).trans (asksToSee_iff _ _).symm

theorem resource?_eq_flat_iff : request.resource? = some .flat ↔ request.asksToSee "/_routes/flat".toList :=
  (resource?_eq_iff ⟨"/_routes/flat".toList, none, .flat⟩ (by decide)).trans (asksToSee_iff _ _).symm

theorem resource?_eq_invalidate_iff :
    request.resource? = some .invalidate ↔ request.asks ["POST".toList] "/_routes/invalidate".toList :=
  (resource?_eq_iff ⟨"/_routes/invalidate".toList, some ["POST".toList], .invalidate⟩ (by decide)).trans (asks_post_iff _ _).symm

end Request

namespace Step

/-- Does the step read the project's forest, for itself or for an answer of the server? -/
def reads : Step → Bool
  | .flat | .static | .tree _ | .statistics => true
  | .request call => call.asksToSee "/_routes".toList || call.asksToSee "/_routes/flat".toList
  | _ => false

/-- Does the step empty the caches, itself or through the server? -/
def forgets : Step → Bool
  | .invalidate => true
  | .request call => call.asks ["POST".toList] "/_routes/invalidate".toList
  | _ => false

/-- Does the step change the forest that is kept? Only another collapse does. -/
def collapses : Step → Bool
  | .collapse _ => true
  | _ => false

theorem reads_request_iff (call : Request) :
    (Step.request call).reads ↔ call.resource? = some .routes ∨ call.resource? = some .flat := by
  rw [Request.resource?_eq_routes_iff, Request.resource?_eq_flat_iff, reads, Bool.or_eq_true]

theorem forgets_request_iff (call : Request) : (Step.request call).forgets ↔ call.resource? = some .invalidate :=
  Request.resource?_eq_invalidate_iff.symm

theorem forgets_eq_false_of_reads {step : Step} (h : step.reads) : step.forgets = false := by
  cases step with
  | request call =>
    rw [Bool.eq_false_iff, ne_eq, forgets_request_iff]
    intro hforgets
    rw [reads_request_iff, hforgets] at h
    simp at h
  | invalidate => cases h
  | _ => rfl

end Step

namespace Session

/-! ## What is kept, and what is answered -/

/-- The session after some steps. -/
def after (session : Session) (steps : List Step) : Session :=
  steps.foldl (fun session step => (session.step step).session) session

/-- Each of some steps, with the disk that it finds. -/
def history (session : Session) : List Step → List (Disk × Step)
  | [] => []
  | step :: steps => (session.disk, step) :: (session.step step).session.history steps

/-- The part of a history behind the last step that empties the caches. -/
def sinceForgotten (history : List (Disk × Step)) : List (Disk × Step) :=
  (history.reverse.takeWhile fun event => !event.2.forgets).reverse

/-- What is kept after a history: what the first read since then gave that could be compiled. -/
def keptOf (project : Project) (history : List (Disk × Step)) : Option Snapshot :=
  (sinceForgotten history).findSome? fun event => if event.2.reads then (project.snapshot event.1).toOption else none

/-- What a read finds: what is kept, or else what the disk compiles to now. -/
def read (session : Session) (kept : Option Snapshot) : Except Fault Snapshot :=
  kept.elim (session.project.snapshot session.disk) .ok

/--
The server's answer to a request that reads, from what the read finds: what is at the path, or that the page files cannot be
compiled, which has a status of its own. With any other fault there is no answer.
-/
def responseTo (session : Session) (request : Request) : Except Fault Snapshot → Except Fault Response
  | .error fault =>
    if fault.isRejectedPage then .ok { status := 500, body := .json (.obj [("error".toList, .str fault.message)]) }
    else .error fault
  | .ok { files, forest } =>
    if request.asksToSee "/_routes".toList then
      .ok
        { status := 200
          body := .json (.obj
            [("base".toList, .str session.base), ("routes".toList, forest.records (session.project.recordStyle false)),
             ("stats".toList, .obj (count session.project files forest).fields)]) }
    else
      let value := (session.gateway.parameter? "static".toList request.query).getD []
      let isStatic := ["1".toList, "true".toList, "yes".toList].contains (value.map Char.toLower)
      let paths := if isStatic then forest.staticPaths else forest.flatPaths
      .ok
        { status := 200
          body := .json (.obj
            [("static".toList, .bool isStatic),
             ("routes".toList, Json.ofTexts (paths.map fun path => Url.join [session.base, path]))]) }

/-- The answer to a step that reads, from what the read finds. -/
def answerTo (session : Session) (found : Except Fault Snapshot) : Step → Except Fault Answer
  | .flat => found.map fun snapshot => .paths snapshot.forest.flatPaths
  | .static => found.map fun snapshot => .paths snapshot.forest.staticPaths
  | .tree relative => found.map fun snapshot => .records (snapshot.forest.records (session.project.recordStyle relative))
  | .statistics => found.map fun snapshot => .statistics (count session.project snapshot.files snapshot.forest)
  | .request request => (session.responseTo request found).map .response
  | _ => .ok .nothing

/-- Do the caches hold a snapshot, or nothing? -/
structure Keeps (session : Session) (kept : Option Snapshot) : Prop where
  files : session.keptFiles = kept.map Snapshot.files
  forest : session.keptForest = kept.map Snapshot.forest

/-- Are two sessions of one project, behind the same base path and the same framework? -/
structure SameSetting (session other : Session) : Prop where
  project : session.project = other.project
  base : session.base = other.base
  gateway : session.gateway = other.gateway

variable {session other : Session} {kept : Option Snapshot}

theorem SameSetting.refl (session : Session) : session.SameSetting session :=
  ⟨rfl, rfl, rfl⟩

theorem SameSetting.trans {third : Session} (h : session.SameSetting other) (h' : other.SameSetting third) :
    session.SameSetting third :=
  ⟨h.project.trans h'.project, h.base.trans h'.base, h.gateway.trans h'.gateway⟩

/-! ## One step -/

/-- **What a read of the forest gives, and what it leaves behind.** -/
theorem forest_spec (h : session.Keeps kept) : session.forest.result = (session.read kept).map Snapshot.forest ∧
    session.forest.session.Keeps (session.read kept).toOption ∧ session.forest.session.SameSetting session := by
  unfold forest read Project.snapshot
  rw [h.forest]
  cases kept with
  | some snapshot => exact ⟨rfl, h, .refl session⟩
  | none =>
    dsimp only [Option.map_none, Option.elim]
    cases hd : session.project.discover session.disk with
    | mk found notices =>
      cases found with
      | error fault => exact ⟨rfl, h, .refl session⟩
      | ok files =>
        dsimp only
        cases hc : (compile session.project.layout files).result with
        | error fault => exact ⟨rfl, h, .refl session⟩
        | ok forest => exact ⟨rfl, ⟨rfl, rfl⟩, rfl, rfl, rfl⟩

/-- What the server makes of a read: the caches are those that the read has left behind. -/
theorem answer_spec {α : Type} (respond : α → Response) (reading : Reading α) :
    (Service.answer respond reading).session = reading.session ∧ (Service.answer respond reading).result =
      match reading.result with
      | .error fault =>
        if fault.isRejectedPage then .ok { status := 500, body := .json (.obj [("error".toList, .str fault.message)]) }
        else .error fault
      | .ok value => .ok (respond value) := by
  unfold Service.answer
  cases reading.result with
  | ok value => exact ⟨rfl, rfl⟩
  | error fault =>
    dsimp only
    split <;> exact ⟨rfl, rfl⟩

/-- The routes are shown as the read of the forest finds them. -/
theorem serve_routes_spec {request : Request} (h : session.Keeps kept) (hasks : request.asksToSee "/_routes".toList) :
    (Service.serve .routes request session).session = session.forest.session ∧
      (Service.serve .routes request session).result = session.responseTo request (session.read kept) := by
  obtain ⟨hresult, hkept, -⟩ := forest_spec h
  obtain ⟨hsession, hanswer⟩ := answer_spec (fun forest =>
    Service.success (Service.routesFields session (count session.project (session.forest.session.keptFiles.getD []) forest) forest))
    session.forest
  refine ⟨hsession, hanswer.trans ?_⟩
  rw [hresult, hkept.files]
  cases session.read kept with
  | error fault => rfl
  | ok snapshot => exact (if_pos hasks).symm

/-- So are their paths. -/
theorem serve_flat_spec {request : Request} (h : session.Keeps kept) (hasks : request.asksToSee "/_routes".toList = false) :
    (Service.serve .flat request session).session = session.forest.session ∧
      (Service.serve .flat request session).result = session.responseTo request (session.read kept) := by
  obtain ⟨hresult, -, -⟩ := forest_spec h
  unfold Service.serve
  dsimp only
  generalize hvalue : Service.isOn (session.gateway.parameter? "static".toList request.query) = isStatic
  obtain ⟨hsession, hanswer⟩ := answer_spec (fun paths => Service.success (Service.flatFields session isStatic paths))
    (if isStatic then session.staticPaths else session.flatPaths)
  have hpaths : (if isStatic then session.staticPaths else session.flatPaths).result = (session.read kept).map fun snapshot =>
      if isStatic then snapshot.forest.staticPaths else snapshot.forest.flatPaths := by
    rw [apply_ite Reading.result, staticPaths, flatPaths, Reading.map, Reading.map, hresult]
    cases isStatic <;> cases session.read kept <;> rfl
  refine ⟨hsession.trans (by cases isStatic <;> rfl), hanswer.trans ?_⟩
  rw [hpaths]
  cases session.read kept with
  | error fault => rfl
  | ok snapshot =>
    subst hvalue
    simp only [responseTo, hasks]
    rfl

/-- A request that does not read leaves the session alone, unless it empties the caches. -/
theorem respond_of_not_reads (hgateway : session.gateway.Documented) {request : Request}
    (h : (Step.request request).reads = false) : (Service.respond request session).session =
      if (Step.request request).forgets then { session with keptFiles := none, keptForest := none } else session := by
  rw [Bool.eq_false_iff, ne_eq, Step.reads_request_iff] at h
  simp only [Step.forgets_request_iff]
  unfold Service.respond
  cases hresource : request.resource? with
  | none =>
    obtain ⟨response, hhandle⟩ := Request.handle_of_resource?_eq_none hgateway hresource
    rw [hhandle]
    rfl
  | some resource =>
    rw [Request.handle_of_resource? hgateway hresource]
    cases resource with
    | health => rfl
    | routes => exact absurd (.inl hresource) h
    | flat => exact absurd (.inr hresource) h
    | invalidate => rfl

/-- A request that reads is answered from what the read finds. -/
theorem respond_of_reads (hgateway : session.gateway.Documented) {request : Request} (h : (Step.request request).reads)
    (hk : session.Keeps kept) : (Service.respond request session).session = session.forest.session ∧
      (Service.respond request session).result = session.responseTo request (session.read kept) := by
  unfold Service.respond
  rcases (Step.reads_request_iff request).mp h with hresource | hresource <;>
    rw [Request.handle_of_resource? hgateway hresource]
  · exact serve_routes_spec hk (Request.resource?_eq_routes_iff.mp hresource)
  · refine serve_flat_spec hk ?_
    rw [Bool.eq_false_iff, ne_eq, ← Request.resource?_eq_routes_iff, hresource]
    simp

/-- What a step leaves behind, from what was kept before it. -/
def keptNext (session : Session) (kept : Option Snapshot) (step : Step) : Option Snapshot :=
  if step.forgets then none else if step.reads then (session.read kept).toOption else kept

/-- An answer is made for a project in its setting, whatever the session keeps and finds. -/
theorem SameSetting.answerTo_eq (h : session.SameSetting other) (found : Except Fault Snapshot) (step : Step) :
    session.answerTo found step = other.answerTo found step := by
  cases step with
  | request request =>
    cases found with
    | error fault => rfl
    | ok snapshot => simp only [answerTo, responseTo, h.project, h.base, h.gateway]
  | _ => simp only [answerTo, h.project]

theorem keptNext_eq (session : Session) (kept : Option Snapshot) (step : Step) : session.keptNext kept step =
    if step.forgets then none
    else kept.or (if step.reads then (session.project.snapshot session.disk).toOption else none) := by
  unfold keptNext read
  refine if_congr Iff.rfl rfl ?_
  cases kept <;> cases step.reads <;> rfl

/-- **One step more.** The caches still hold a snapshot or nothing, and a read is answered from what it finds. -/
theorem keeps_step (hgateway : session.gateway.Documented) (h : session.Keeps kept) {step : Step}
    (hstep : step.collapses = false) : (session.step step).session.Keeps (session.keptNext kept step) ∧
      (session.step step).session.SameSetting session ∧
      (step.reads → (session.step step).result = session.answerTo (session.read kept) step) := by
  obtain ⟨hresult, hkept, hsetting⟩ := forest_spec h
  have hsame : session.SameSetting session := .refl session
  have hread : ∀ {α : Type} (f : Forest → α) (g : α → Answer) (view : Snapshot → Answer), (∀ s, g (f s.forest) = view s) →
      ((session.forest.map f).map g).result = (session.read kept).map view := by
    intro α f g view hview
    rw [Reading.map, Reading.map, hresult]
    cases session.read kept with
    | error fault => rfl
    | ok snapshot => exact congrArg Except.ok (hview snapshot)
  cases step with
  | write path text => exact ⟨⟨h.files, h.forest⟩, ⟨rfl, rfl, rfl⟩, nofun⟩
  | makeDirectory path => exact ⟨⟨h.files, h.forest⟩, ⟨rfl, rfl, rfl⟩, nofun⟩
  | remove path => exact ⟨⟨h.files, h.forest⟩, ⟨rfl, rfl, rfl⟩, nofun⟩
  | discover => exact ⟨h, hsame, nofun⟩
  | compile project => exact ⟨h, hsame, nofun⟩
  | invalidate => exact ⟨⟨rfl, rfl⟩, ⟨rfl, rfl, rfl⟩, nofun⟩
  | collapse isChild => cases hstep
  | flat => exact ⟨hkept, hsetting, fun _ => hread _ _ _ fun _ => rfl⟩
  | static => exact ⟨hkept, hsetting, fun _ => hread _ _ _ fun _ => rfl⟩
  | tree relative => exact ⟨hkept, hsetting, fun _ => hread _ _ _ fun _ => rfl⟩
  | statistics =>
    refine ⟨hkept, hsetting, fun _ => ?_⟩
    change ((session.forest.map (count session.project (session.forest.session.keptFiles.getD []))).map Answer.statistics).result = _
    rw [Reading.map, Reading.map, hresult, hkept.files]
    cases session.read kept <;> rfl
  | request request =>
    cases hreads : (Step.request request).reads with
    | false =>
      have hsession : (session.step (.request request)).session = _ := respond_of_not_reads hgateway hreads
      rw [hsession, keptNext, hreads]
      split
      · exact ⟨⟨rfl, rfl⟩, ⟨rfl, rfl, rfl⟩, nofun⟩
      · exact ⟨h, hsame, nofun⟩
    | true =>
      obtain ⟨hsession, hanswer⟩ := respond_of_reads hgateway hreads h
      have hsession : (session.step (.request request)).session = session.forest.session := hsession
      rw [hsession, keptNext, Step.forgets_eq_false_of_reads hreads, hreads]
      exact ⟨hkept, hsetting, fun _ => congrArg (Except.map Answer.response) hanswer⟩

/-! ## A run -/

theorem after_concat (session : Session) (steps : List Step) (step : Step) :
    session.after (steps ++ [step]) = ((session.after steps).step step).session := by
  rw [after, List.foldl_append]
  rfl

theorem history_concat (session : Session) (steps : List Step) (step : Step) :
    session.history (steps ++ [step]) = session.history steps ++ [((session.after steps).disk, step)] := by
  induction steps generalizing session with
  | nil => rfl
  | cons first steps ih =>
    rw [List.cons_append, history, ih]
    rfl

/-- The readings of a run are those of the sessions that the steps find. -/
theorem run_getElem? (session : Session) (before rest : List Step) (step : Step) :
    (session.run (before ++ step :: rest))[before.length]? = some ((session.after before).step step) := by
  induction before generalizing session with
  | nil => rfl
  | cons first before ih =>
    rw [List.cons_append, run, List.length_cons, List.getElem?_cons_succ, ih]
    rfl

/-- What is kept after one event more: nothing, what was kept, or else what the event reads. -/
theorem keptOf_concat (project : Project) (history : List (Disk × Step)) (event : Disk × Step) :
    keptOf project (history ++ [event]) =
      if event.2.forgets then none
      else (keptOf project history).or (if event.2.reads then (project.snapshot event.1).toOption else none) := by
  have hsince : sinceForgotten (history ++ [event]) = if event.2.forgets then [] else sinceForgotten history ++ [event] := by
    unfold sinceForgotten
    rw [List.reverse_append, List.reverse_singleton, List.singleton_append, List.takeWhile_cons]
    cases event.2.forgets <;> simp
  rw [keptOf, hsince]
  split
  · rfl
  · rw [List.findSome?_append, List.findSome?_singleton]
    rfl

/-- The caches hold what the history tells. -/
theorem keeps_after (hgateway : session.gateway.Documented) (h : session.Keeps none) {steps : List Step}
    (hsteps : ∀ step ∈ steps, step.collapses = false) :
    (session.after steps).Keeps (keptOf session.project (session.history steps)) ∧
      (session.after steps).SameSetting session := by
  induction steps using List.reverseRecOn with
  | nil => exact ⟨h, .refl session⟩
  | append_singleton steps step ih =>
    obtain ⟨hkept, hsetting⟩ := ih fun step hm => hsteps step (List.mem_append_left _ hm)
    have hgatewayNow : (session.after steps).gateway.Documented := hsetting.gateway ▸ hgateway
    obtain ⟨hkept', hsetting', -⟩ := keeps_step hgatewayNow hkept (hsteps step (by simp))
    rw [after_concat, history_concat, keptOf_concat]
    rw [keptNext_eq, hsetting.project] at hkept'
    exact ⟨hkept', hsetting'.trans hsetting⟩

/--
**A session keeps the first snapshot that it could compile.** Take any steps from a session that keeps nothing, in any order, but
for a second collapse of the kept forest. After each of them both caches are full or both are empty, and what is in them is the
listing and the forest of one disk: the one that the first read found that could be compiled, of all reads since the caches were
last emptied. A read is answered from that, or if nothing is kept from what the disk compiles to now; if that fails, nothing is
kept either. What is kept is lost again only to a step that empties the caches.

A request reads if it asks by `GET` or `HEAD` for `/_routes` or `/_routes/flat`, and empties the caches if it is a `POST` to
`/_routes/invalidate`; of the framework that hands it over, no more is assumed than what its documentation says.
-/
theorem run_keeps (session : Session) (hgateway : session.gateway.Documented) (hfiles : session.keptFiles = none)
    (hforest : session.keptForest = none) (steps : List Step) (hsteps : ∀ step ∈ steps, step.collapses = false) :
    ∀ before step rest, steps = before ++ step :: rest →
      let now := session.after before
      let reading := now.step step
      let kept := keptOf session.project (session.history before)
      let found := kept.elim (session.project.snapshot now.disk) .ok
      let keptThen := keptOf session.project (session.history (before ++ [step]))
      (session.run steps)[before.length]? = some reading ∧
        reading.session.keptFiles = keptThen.map Snapshot.files ∧ reading.session.keptForest = keptThen.map Snapshot.forest ∧
        (step.reads → reading.result = session.answerTo found step ∧ keptThen = found.toOption) ∧
        (kept ≠ none → keptThen = if step.forgets then none else kept) := by
  rintro before step rest rfl now reading kept found keptThen
  have hbefore : ∀ step ∈ before, step.collapses = false := fun step hm => hsteps step (List.mem_append_left _ hm)
  have hstep : step.collapses = false := hsteps step (by simp)
  have hnothing : session.Keeps none := ⟨hfiles, hforest⟩
  obtain ⟨hkept, hsetting⟩ := keeps_after hgateway hnothing hbefore
  have hgatewayNow : now.gateway.Documented := hsetting.gateway ▸ hgateway
  obtain ⟨hkeptThen, -, hresult⟩ := keeps_step hgatewayNow hkept hstep
  have hthen : keptThen = now.keptNext kept step := by
    rw [keptNext_eq, hsetting.project]
    exact (congrArg (keptOf session.project) (history_concat session before step)).trans (keptOf_concat _ _ _)
  have hfound : now.read kept = found := by rw [read, hsetting.project]
  rw [hthen]
  refine ⟨run_getElem? session before rest step, hkeptThen.files, hkeptThen.forest, fun hreads => ⟨?_, ?_⟩, fun hne => ?_⟩
  · rw [← hfound, ← hsetting.answerTo_eq]
    exact hresult hreads
  · rw [keptNext, Step.forgets_eq_false_of_reads hreads, if_neg (by simp), if_pos hreads, hfound]
  · obtain ⟨snapshot, hsome⟩ := Option.ne_none_iff_exists'.mp hne
    rw [keptNext_eq, hsome]
    rfl

/-- The status and the text of an answer of the server. -/
def shown? : Except Fault Answer → Option (Nat × Text)
  | .ok (.response response) => some (response.status, response.body.content)
  | _ => none

/-- A session of a project with one page, in which the empty ending lets notes in that cannot be compiled. -/
def withNotes : Session where
  project := { root := ["app".toList], pagesDir := "pages".toList, extensions := [".vue".toList, []] }
  disk :=
    { directories := [["app".toList], ["app".toList, "pages".toList]]
      files := [(["app".toList, "pages".toList, "about.vue".toList], []), (["app".toList, "pages".toList, "notes.txt".toList], [])] }
  base := "/docs".toList

/-- Requests, with changes to the page files between them. -/
def visits : List Step :=
  [.request { path := "/_routes".toList },
   .remove (DiskPath.ofText "/app/pages/notes.txt".toList),
   .request { method := "HEAD".toList, path := "/_routes".toList },
   .write (DiskPath.ofText "/app/pages/_user.vue".toList) [],
   .request { path := "/_routes/flat".toList, query := "static=Yes".toList },
   .request { method := "POST".toList, path := "/_routes/invalidate".toList },
   .write (DiskPath.ofText "/app/pages/notes.txt".toList) [],
   .request { path := "/_routes/flat\n".toList }]

/--
The notes are rejected, and nothing is kept. Without them the page is shown and kept, and a new page is not noticed. Once the caches
have been emptied, the notes, which are there again, are rejected again.
-/
theorem run_keeps_visits :
    let view (reading : Reading Answer) := (shown? reading.result, reading.session.keptFiles)
    let seen := (withNotes.run visits).map view
    let rejected := Json.obj [("error".toList, .str
      "Invalid page path 'pages/notes.txt': extension not in ['', '.vue']".toList)]
    let about := Json.obj [("name".toList, .str "about".toList), ("path".toList, .str "/about".toList),
      ("component".toList, .str "/app/pages/about.vue".toList), ("chunkName".toList, .str "pages/about".toList)]
    let stats := Json.obj [("project_root".toList, .str "/app".toList), ("pages_dir".toList, .str "/app/pages".toList),
      ("pages".toList, .num 1), ("routes".toList, .num 1), ("wrappers".toList, .num 0)]
    let routes := Json.obj [("base".toList, .str "/docs".toList), ("routes".toList, .arr [about]), ("stats".toList, stats)]
    let paths := Json.obj [("static".toList, .bool true), ("routes".toList, .arr [.str "/docs/about".toList])]
    seen[0]? = some (some (500, rejected.render .ascii), none) ∧
      seen[2]? = some (some (200, routes.render .ascii), some ["pages/about.vue".toList]) ∧
      seen[4]? = some (some (200, paths.render .ascii), some ["pages/about.vue".toList]) ∧
      (seen[5]?).map Prod.snd = some none ∧
      seen[7]? = some (some (500, rejected.render .ascii), none) := by
  intro view seen rejected about stats routes paths
  have hsteps : ∀ step ∈ visits, step.collapses = false := by decide +kernel
  have hkeeps := run_keeps withNotes Gateway.standard_documented rfl rfl visits hsteps
  have hseen : ∀ before step rest, visits = before ++ step :: rest → step.reads → seen[before.length]? =
      let kept := keptOf withNotes.project (withNotes.history before)
      let found := kept.elim (withNotes.project.snapshot (withNotes.after before).disk) .ok
      some (shown? (withNotes.answerTo found step), (keptOf withNotes.project (withNotes.history (before ++ [step]))).map Snapshot.files) := by
    intro before step rest hvisits hreads
    obtain ⟨hrun, hfiles, -, hanswer, -⟩ := hkeeps before step rest hvisits
    rw [List.getElem?_map, hrun, Option.map_some]
    dsimp only [view]
    rw [(hanswer hreads).1, hfiles]
  obtain ⟨hrun, hfiles, -⟩ := hkeeps (visits.take 5) _ (visits.drop 6) rfl
  refine ⟨(hseen [] _ (visits.drop 1) rfl (by decide +kernel)).trans (by decide +kernel),
    (hseen (visits.take 2) _ (visits.drop 3) rfl (by decide +kernel)).trans (by decide +kernel),
    (hseen (visits.take 4) _ (visits.drop 5) rfl (by decide +kernel)).trans (by decide +kernel), ?_,
    (hseen (visits.take 7) _ [] rfl (by decide +kernel)).trans (by decide +kernel)⟩
  change (((withNotes.run visits).map view)[5]?).map Prod.snd = _
  rw [List.getElem?_map, show (withNotes.run visits)[5]? = some _ from hrun]
  exact congrArg some (hfiles.trans (by decide +kernel))

end Session

end PageRouting
