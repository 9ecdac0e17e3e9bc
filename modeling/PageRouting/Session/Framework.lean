import PageRouting.Session.Gateway
import PageRouting.Session.Query

/-!
# `PageRouting/Session/Framework.lean` — the framework that the program runs behind

A request that no mount gets is answered with status 405 if there is a mount at its path, and with a redirection if there is one at
the path with the slashes at its end taken away, or with one put there. Any other is answered with status 404.
-/

set_option autoImplicit false

namespace PageRouting.Gateway

/-- The path with the slash at its end that it lacks, or without the slashes that it has there. -/
def otherEnding (path : Text) : Text :=
  if path.getLast? = some '/' then Text.dropTrailing '/' path else path ++ ['/']

/-- The answer to a request that no mount gets. -/
def refusal (mounts : List Mount) (path : Text) : Response :=
  if mounts.any fun mount => mount.isAt path then { status := 405, body := .text "Method Not Allowed".toList }
  else if path ≠ ['/'] ∧ mounts.any fun mount => mount.isAt (otherEnding path) then { status := 307, body := .text [] }
  else { status := 404, body := .text "Not Found".toList }

/-- The framework of the program. -/
def standard : Gateway where
  handle mounts request :=
    match mounts.find? fun mount => mount.isAt request.path && mount.takes request.method with
    | some mount => .handed mount.resource
    | none => .answered (refusal mounts request.path)
  parameter? := Query.value?

theorem standard_documented : standard.Documented where
  handed mounts request mount _ hfound := by
    simp only [standard, hfound]
  answered mounts request _ hnone := by
    refine ⟨refusal mounts request.path, ?_⟩
    simp only [standard, hnone]

end PageRouting.Gateway
