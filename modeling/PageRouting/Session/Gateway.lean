import PageRouting.Json

/-!
# `PageRouting/Session/Gateway.lean` — requests, and who hands them over

The server lists its resources, each with a path and the methods that it takes, and leaves the rest to an HTTP framework: which
resource a request is handed to, what is answered to a request that is handed to none, and how a query string is read. The
framework is not part of this library. A server runs behind any `Gateway`; what it may rely on is `Gateway.Documented`.
-/

set_option autoImplicit false

namespace PageRouting

/-- A request to the server. -/
structure Request where
  method : Text := "GET".toList
  path : Text
  query : Text := []
deriving DecidableEq, Repr

/-- The body of a response. -/
inductive Body where
  | json (value : Json)
  | text (value : Text)

/-- The text of a body. -/
def Body.content : Body → Text
  | .json value => value.render .ascii
  | .text value => value

/-- The server's answer to a request. -/
structure Response where
  status : Nat
  body : Body

/-- The resources that the server has. -/
inductive Resource where
  | health
  | routes
  | flat
  | invalidate
deriving DecidableEq, Repr

/-- A resource with its path; the methods are left out where they are the usual ones. -/
structure Mount where
  path : Text
  methods : Option (List Text) := none
  resource : Resource
deriving DecidableEq, Repr

namespace Mount

/-- Does the mount take a method? The usual one is `GET`, and who takes that takes `HEAD` as well. -/
def takes (mount : Mount) (method : Text) : Bool :=
  let methods := mount.methods.getD ["GET".toList]
  methods.contains method || (decide (method = "HEAD".toList) && methods.contains "GET".toList)

/-- Is the mount at a path? The path of a mount ends as a regular expression does, perhaps in front of a final newline. -/
def isAt (mount : Mount) (path : Text) : Bool :=
  decide (path = mount.path) || decide (path = mount.path ++ ['\n'])

/-- Does the path of the mount stand for itself? In a brace it would have a parameter. -/
def IsLiteral (mount : Mount) : Prop :=
  '\x7b' ∉ mount.path

end Mount

/-- What becomes of a request. -/
inductive Handling where
  /-- a resource answers it -/
  | handed (resource : Resource)
  /-- no resource gets to see it -/
  | answered (response : Response)

/-- An HTTP framework, as far as the server depends on it. -/
structure Gateway where
  /-- what becomes of a request, where some resources are mounted -/
  handle : List Mount → Request → Handling
  /-- the value of a name in a query string -/
  parameter? : (name query : Text) → Option Text

/--
What is known of a framework: of the mounts that are at the path of a request, the first one that takes its method gets it, and if
there is none, no other mount does.
-/
structure Gateway.Documented (gateway : Gateway) : Prop where
  handed : ∀ mounts request mount, (∀ other ∈ mounts, other.IsLiteral) →
    mounts.find? (fun mount => mount.isAt request.path && mount.takes request.method) = some mount →
      gateway.handle mounts request = .handed mount.resource
  answered : ∀ mounts request, (∀ other ∈ mounts, other.IsLiteral) →
    mounts.find? (fun mount => mount.isAt request.path && mount.takes request.method) = none →
      ∃ response, gateway.handle mounts request = .answered response

end PageRouting
