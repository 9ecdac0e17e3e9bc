import PageRouting.Text

/-!
# `PageRouting/Text/Order.lean` — the order of texts by code point

Texts are ordered by their first differing code point, a shorter text before its extensions, and lists of texts in the
same way by their first differing text. Both are instances of one lexicographic comparison, so that what holds of
characters carries over to texts and to their lists: each comparison is transitive and turns round with its arguments
(`Std.TransCmp`), and only equal ones tie (`compare_eq_eq`, `compareAll_eq_eq`).
-/

set_option autoImplicit false

namespace PageRouting.Text

/-- Characters by code point. -/
def compareChars (a b : Char) : Ordering :=
  if a.toNat < b.toNat then .lt else if b.toNat < a.toNat then .gt else .eq

/-- Texts by their first differing code point. -/
protected def compare (a b : Text) : Ordering :=
  List.compareLex compareChars a b

/-- Lists of texts by their first differing text. -/
def compareAll (a b : List Text) : Ordering :=
  List.compareLex Text.compare a b

/-- Does the first text stand strictly before the second? -/
def precedes (a b : Text) : Bool :=
  Text.compare a b == .lt

theorem compareChars_eq_eq {a b : Char} : compareChars a b = .eq ↔ a = b := by
  unfold compareChars
  constructor
  · intro h
    split at h
    · cases h
    · split at h
      · cases h
      · exact Char.toNat_inj.mp (by omega)
  · rintro rfl
    simp

theorem compareChars_swap (a b : Char) : (compareChars a b).swap = compareChars b a := by
  unfold compareChars
  split
  · split
    · omega
    · rfl
  · split <;> rfl

theorem isLE_compareChars {a b : Char} : (compareChars a b).isLE ↔ a.toNat ≤ b.toNat := by
  unfold compareChars
  split
  · simp only [Ordering.isLE_lt, true_iff]
    omega
  · split
    · simp only [Ordering.isLE_gt, Bool.false_eq_true, false_iff]
      omega
    · simp only [Ordering.isLE_eq, true_iff]
      omega

/-! ## The laws of the three comparisons -/

instance : Std.TransCmp compareChars where
  eq_swap := (compareChars_swap _ _).symm
  isLE_trans hab hbc := by
    rw [isLE_compareChars] at *
    exact Nat.le_trans hab hbc

instance : Std.LawfulEqCmp compareChars where
  compare_self := compareChars_eq_eq.mpr rfl
  eq_of_compare := compareChars_eq_eq.mp

instance : Std.TransCmp Text.compare :=
  inferInstanceAs (Std.TransCmp (List.compareLex compareChars))

instance : Std.LawfulEqCmp Text.compare :=
  inferInstanceAs (Std.LawfulEqCmp (List.compareLex compareChars))

instance : Std.TransCmp compareAll :=
  inferInstanceAs (Std.TransCmp (List.compareLex Text.compare))

instance : Std.LawfulEqCmp compareAll :=
  inferInstanceAs (Std.LawfulEqCmp (List.compareLex Text.compare))

/-- Texts tie only if they are equal. -/
theorem compare_eq_eq {a b : Text} : Text.compare a b = .eq ↔ a = b :=
  Std.LawfulEqCmp.compare_eq_iff_eq

/-- Lists of texts tie only if they are equal. -/
theorem compareAll_eq_eq {a b : List Text} : compareAll a b = .eq ↔ a = b :=
  Std.LawfulEqCmp.compare_eq_iff_eq

end PageRouting.Text
