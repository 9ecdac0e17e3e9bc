/-!
# `PageRouting/StableSort.lean` — a sort that keeps what nothing moves

Insertion sort by a relation `precedes b a`, read "`b` has to stand before `a`". An element is moved over another only
if the relation asks for it, so elements that it does not separate keep the order in which they came. Nothing is
assumed of the relation: on a strict weak order the result is the one stable arrangement, and on any relation it is a
permutation of the input (`stableSort_perm`).

The list is worked from its end, so that sorting a sorted list with one new element at the end looks at two neighbours
per element.
-/

set_option autoImplicit false

namespace PageRouting

variable {α : Type}

/-- Puts `a` behind those first elements that have to stand before it. -/
def insertStable (precedes : α → α → Bool) (a : α) : List α → List α
  | [] => [a]
  | b :: bs => if precedes b a then b :: insertStable precedes a bs else a :: b :: bs

/-- The elements in an order that the relation asks for, moved no more than it asks for. -/
def stableSort (precedes : α → α → Bool) : List α → List α
  | [] => []
  | a :: as => insertStable precedes a (stableSort precedes as)

theorem insertStable_perm (precedes : α → α → Bool) (a : α) (bs : List α) :
    (insertStable precedes a bs).Perm (a :: bs) := by
  fun_induction insertStable precedes a bs with
  | case1 => exact .refl _
  | case2 b bs _ ih => exact (ih.cons b).trans (.swap a b bs)
  | case3 => exact .refl _

/-- Nothing is lost or made up. -/
theorem stableSort_perm (precedes : α → α → Bool) (as : List α) : (stableSort precedes as).Perm as := by
  induction as with
  | nil => exact .refl _
  | cons a as ih => exact (insertStable_perm precedes a _).trans (ih.cons a)

theorem mem_stableSort {precedes : α → α → Bool} {a : α} {as : List α} :
    a ∈ stableSort precedes as ↔ a ∈ as :=
  (stableSort_perm precedes as).mem_iff

end PageRouting
