import PageRouting.Pattern.Specificity
import PageRouting.Route.Basic
import PageRouting.StableSort

/-!
# `PageRouting/Route/Order.lean` — siblings from most to least specific
-/

set_option autoImplicit false

namespace PageRouting

/-- Has the first route to be tried before the second? -/
def Route.precedes (a b : Route) : Bool :=
  Pattern.compare a.path b.path == .lt

namespace Forest

/-- The siblings from most to least specific; equally specific ones keep their order, and nothing below them moves. -/
def sort (siblings : Forest) : Forest :=
  stableSort Route.precedes siblings

/-- The siblings with one more, in its place. -/
def attach (siblings : Forest) (route : Route) : Forest :=
  sort (siblings ++ [route])

end Forest

end PageRouting
