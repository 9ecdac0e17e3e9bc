import PageRouting.Session
import PageRouting.Url

/-!
# `PageRouting/Session/Service.lean` — what the server answers

The server shows what a project compiles to:

```
GET  /health              is it running, and for which pages directory
GET  /_routes             the route records and the statistics
GET  /_routes/flat        the flat paths behind the base path; only the static ones on request
POST /_routes/invalidate  forget what is kept
```

Where a read is rejected because of the page files, the answer says so with status 500; any other fault is the server's
own. Which of its resources a request is handed to, if any, is up to the framework behind which the session runs. Page files
whose names are not UTF-8 are left out here.
-/

set_option autoImplicit false

namespace PageRouting.Service

/-- The path at which the routes are shown. -/
def routesPath : Text := "/_routes".toList

/-- The resources, each where it is mounted. -/
def mounts : List Mount :=
  [{ path := "/health".toList, resource := .health },
   { path := routesPath, resource := .routes },
   { path := routesPath ++ "/flat".toList, resource := .flat },
   { path := routesPath ++ "/invalidate".toList, methods := some ["POST".toList], resource := .invalidate }]

theorem isLiteral_of_mem_mounts : ∀ mount ∈ mounts, mount.IsLiteral := by
  unfold Mount.IsLiteral
  decide

/-- Does the value of a parameter switch something on? The words for it are `1`, `true` and `yes`, in any case. -/
def isOn (value : Option Text) : Bool :=
  ["1".toList, "true".toList, "yes".toList].contains ((value.getD []).map Char.toLower)

/-- A successful answer. -/
def success (fields : List (Text × Json)) : Response :=
  { status := 200, body := .json (.obj fields) }

/-- Turns the rejection of page files into an answer. -/
def answer {α : Type} (respond : α → Response) (reading : Reading α) : Reading Response :=
  match reading.result with
  | .ok value => { reading with result := .ok (respond value) }
  | .error fault =>
    if fault.isRejectedPage then
      { reading with
        result := .ok { status := 500, body := .json (.obj [("error".toList, .str fault.message)]) }
        notices := reading.notices ++ [.compileFailed fault.message] }
    else { reading with result := .error fault }

/-- The paths behind the base path of the session. -/
def flatFields (session : Session) (isStatic : Bool) (paths : List Text) : List (Text × Json) :=
  [("static".toList, .bool isStatic),
   ("routes".toList, Json.ofTexts (paths.map fun path => Url.join [session.base, path]))]

/-- The route records with the statistics, both of one forest. -/
def routesFields (session : Session) (statistics : Statistics) (forest : Forest) : List (Text × Json) :=
  [("base".toList, .str session.base), ("routes".toList, forest.records (session.project.recordStyle false)),
   ("stats".toList, .obj statistics.fields)]

/-- The answer of a resource to a request. -/
def serve (resource : Resource) (request : Request) (session : Session) : Reading Response :=
  match resource with
  | .health =>
    .of session (success
      [("status".toList, .str "healthy".toList), ("app".toList, .str "pagetree dev server".toList),
       ("pages_dir".toList, .str session.project.pagesPath.text)])
  | .routes =>
    let reading := session.forest
    let files := reading.session.keptFiles.getD []
    answer (fun forest => success (routesFields session (Session.count session.project files forest) forest)) reading
  | .flat =>
    let isStatic := isOn (session.gateway.parameter? "static".toList request.query)
    answer (fun paths => success (flatFields session isStatic paths))
      (if isStatic then session.staticPaths else session.flatPaths)
  | .invalidate =>
    session.invalidate.map fun _ => success [("status".toList, .str "invalidated".toList)]

/-- Answers a request. -/
def respond (request : Request) (session : Session) : Reading Response :=
  match session.gateway.handle mounts request with
  | .handed resource => serve resource request session
  | .answered response => .of session response

end PageRouting.Service
