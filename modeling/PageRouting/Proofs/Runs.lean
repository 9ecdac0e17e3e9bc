import Mathlib.Data.List.Chain
import Mathlib.Data.List.Pairwise
import PageRouting.Text

/-!
# `PageRouting/Proofs/Runs.lean` — a character in a row

Slashes in a row count once. Two things can be said of a text and a character for that: whether the character ever follows
itself (`Text.HasNoRun`), and whether one text is the other one with some occurrences written several times over
(`Text.Repeats`).

`squeeze` leaves each run one occurrence long. So what it returns has no run, its argument repeats it, and texts that repeat the
same text are squeezed to the same (`Repeats.squeeze_eq`). Cut at the character, a text without runs has no empty piece between
two others.
-/

set_option autoImplicit false

namespace PageRouting.Text

variable {c : Char}

/-! ## Texts without runs -/

/-- Does the character never follow itself? -/
def HasNoRun (c : Char) (t : Text) : Prop :=
  t.IsChain fun a b => ¬ (a = c ∧ b = c)

instance (c : Char) : DecidablePred (HasNoRun c) :=
  fun t => inferInstanceAs (Decidable (t.IsChain fun a b => ¬ (a = c ∧ b = c)))

theorem hasNoRun_append {s t : Text} :
    HasNoRun c (s ++ t) ↔ HasNoRun c s ∧ HasNoRun c t ∧ ¬ (s.getLast? = some c ∧ t.head? = some c) := by
  rw [HasNoRun, List.isChain_append]
  refine and_congr_right fun _ => and_congr_right fun _ => ⟨fun h ⟨hs, ht⟩ => h c hs c ht ⟨rfl, rfl⟩, fun h => ?_⟩
  rintro x hx y hy ⟨rfl, rfl⟩
  exact h ⟨hx, hy⟩

theorem hasNoRun_of_not_mem {t : Text} (h : c ∉ t) : HasNoRun c t := by
  refine (List.pairwise_of_forall_mem_list fun a ha b _ hab => ?_).isChain
  exact h (hab.1 ▸ ha)

theorem HasNoRun.append_of_not_mem {s t : Text} (hs : HasNoRun c s) (ht : c ∉ t) : HasNoRun c (s ++ t) :=
  hasNoRun_append.mpr ⟨hs, hasNoRun_of_not_mem ht, fun ⟨_, hhead⟩ => ht (List.mem_of_mem_head? hhead)⟩

/-! ## Runs reduced -/

theorem head?_squeeze (c : Char) (t : Text) : (squeeze c t).head? = t.head? := by
  fun_induction squeeze c t with
  | case1 => rfl
  | case2 => rfl
  | case3 a b rest hab ih =>
    rw [ih, List.head?_cons, List.head?_cons, hab.1, hab.2]
  | case4 => rfl

theorem hasNoRun_squeeze (c : Char) (t : Text) : HasNoRun c (squeeze c t) := by
  fun_induction squeeze c t with
  | case1 => exact .nil
  | case2 a => exact .singleton a
  | case3 a b rest hab ih => exact ih
  | case4 a b rest hab ih =>
    refine List.isChain_cons.mpr ⟨fun next hnext => ?_, ih⟩
    rw [head?_squeeze] at hnext
    obtain rfl : b = next := by simpa using hnext
    exact hab

theorem HasNoRun.dropLeading {t : Text} (h : HasNoRun c t) : HasNoRun c (dropLeading c t) :=
  List.IsChain.suffix h (List.dropWhile_suffix _)

theorem head?_dropLeading (c : Char) (t : Text) : (dropLeading c t).head? ≠ some c := by
  intro hc
  have := List.head?_dropWhile_not (· == c) t
  rw [dropLeading] at hc
  rw [hc] at this
  simp at this

theorem squeeze_cons (c a : Char) (t : Text) :
    squeeze c (a :: t) = if a = c ∧ t.head? = some c then squeeze c t else a :: squeeze c t := by
  cases t with
  | nil => simp [squeeze]
  | cons b rest => simp [squeeze]

/-- Without runs there is nothing to reduce. -/
theorem HasNoRun.squeeze_eq {t : Text} (h : HasNoRun c t) : squeeze c t = t := by
  induction t with
  | nil => rfl
  | cons a t ih =>
    have hrun : ¬ (a = c ∧ t.head? = some c) := by
      rintro ⟨ha, hhead⟩
      exact (List.isChain_cons.mp h).1 c hhead ⟨ha, rfl⟩
    rw [squeeze_cons, if_neg hrun, ih (List.isChain_cons.mp h).2]

/-- Where a text ends in another one, so do the two with their runs reduced. -/
theorem squeeze_suffix {s t : Text} (h : s <:+ t) : squeeze c s <:+ squeeze c t := by
  induction t with
  | nil =>
    obtain rfl := List.suffix_nil.mp h
    exact List.suffix_refl _
  | cons a t ih =>
    rcases List.suffix_cons_iff.mp h with rfl | h
    · exact List.suffix_refl _
    · rw [squeeze_cons]
      split
      · exact ih h
      · exact (ih h).trans (List.suffix_cons _ _)

/-! ## Runs written out -/

/-- The second text is the first one, with any occurrence of the character written several times over. -/
inductive Repeats (c : Char) : Text → Text → Prop
  | nil : Repeats c [] []
  | keep (a : Char) {t u : Text} (h : Repeats c t u) : Repeats c (a :: t) (a :: u)
  | again {t u : Text} (h : Repeats c (c :: t) u) : Repeats c (c :: t) (c :: u)

namespace Repeats

variable {t u : Text}

theorem refl (t : Text) : Repeats c t t := by
  induction t with
  | nil => exact .nil
  | cons a t ih => exact .keep a ih

theorem head?_eq (h : Repeats c t u) : u.head? = t.head? := by
  cases h <;> rfl

theorem append {t' u' : Text} (h : Repeats c t u) (h' : Repeats c t' u') : Repeats c (t ++ t') (u ++ u') := by
  induction h with
  | nil => exact h'
  | keep a h ih => exact .keep a ih
  | again h ih => exact .again ih

/-- How often an occurrence is written makes no difference once runs are reduced. -/
theorem squeeze_eq (h : Repeats c t u) : squeeze c u = squeeze c t := by
  induction h with
  | nil => rfl
  | keep a h ih => rw [squeeze_cons, squeeze_cons, h.head?_eq, ih]
  | again h ih => rw [squeeze_cons, if_pos ⟨rfl, h.head?_eq⟩, ih]

end Repeats

theorem repeats_squeeze (c : Char) (t : Text) : Repeats c (squeeze c t) t := by
  fun_induction squeeze c t with
  | case1 => exact .nil
  | case2 a => exact .refl [a]
  | case3 a b rest hab ih =>
    obtain ⟨reduced, hreduced⟩ : ∃ reduced, squeeze c (b :: rest) = c :: reduced := by
      refine List.head?_eq_some_iff.mp ?_
      rw [head?_squeeze, hab.2]
      rfl
    rw [hreduced] at ih ⊢
    rw [hab.1]
    exact ih.again
  | case4 a b rest hab ih => exact .keep a ih

/-- Texts that differ in their runs only still do so with other such texts behind them. -/
theorem squeeze_append_congr {s s' t t' : Text} (hs : squeeze c s = squeeze c s') (ht : squeeze c t = squeeze c t') :
    squeeze c (s ++ t) = squeeze c (s' ++ t') := by
  have reduced : ∀ a b : Text, squeeze c (a ++ b) = squeeze c (squeeze c a ++ squeeze c b) := fun a b =>
    ((repeats_squeeze c a).append (repeats_squeeze c b)).squeeze_eq
  rw [reduced s t, reduced s' t', hs, ht]

/-! ## Pieces between the runs -/

/--
Between two cuts there is something, except where the text ends in a cut. What is before the first cut may be nothing too,
if the text begins with it.
-/
theorem ne_nil_of_mem_split {t : Text} (h : HasNoRun c t) :
    (∀ piece ∈ (split c t).tail.dropLast, piece ≠ []) ∧
      (t.head? ≠ some c → ∀ piece ∈ (split c t).dropLast, piece ≠ []) := by
  induction t with
  | nil => simp [split]
  | cons a rest ih =>
    obtain ⟨htail, hwhole⟩ := ih h.tail
    obtain ⟨first, others, hs⟩ := List.exists_cons_of_ne_nil (split_ne_nil c rest)
    by_cases ha : a = c
    · subst ha
      -- what follows a cut does not begin with another one
      have hrest : rest.head? ≠ some a := by
        intro hr
        exact (List.isChain_cons.mp h).1 a (by simpa using hr) ⟨rfl, rfl⟩
      refine ⟨?_, fun hne => absurd rfl hne⟩
      simpa [split] using hwhole hrest
    · have hsplit : split c (a :: rest) = (a :: first) :: others := by simp [split, ha, hs]
      rw [hs, List.tail_cons] at htail
      rw [hsplit, List.tail_cons]
      refine ⟨htail, fun _ piece hp => ?_⟩
      cases others with
      | nil => simp at hp
      | cons next others =>
        rw [List.dropLast_cons_cons] at hp
        rcases List.mem_cons.mp hp with rfl | hp
        · exact List.cons_ne_nil _ _
        · exact htail piece hp

/-- What is joined from pieces that are not empty does not begin with the separator. -/
theorem head?_join {pieces : List Text} (h : ∀ piece ∈ pieces, piece ≠ [] ∧ c ∉ piece) : (join c pieces).head? ≠ some c := by
  cases pieces with
  | nil => simp [join]
  | cons piece rest =>
    obtain ⟨hne, hc⟩ := h piece List.mem_cons_self
    have hhead : (join c (piece :: rest)).head? = piece.head? := by
      cases rest with
      | nil => rfl
      | cons next rest => rw [join, List.head?_append_of_ne_nil _ hne]
    rw [hhead]
    exact fun hm => hc (List.mem_of_mem_head? hm)

/-- Nor does it hold separators in a row. -/
theorem hasNoRun_join {pieces : List Text} (h : ∀ piece ∈ pieces, piece ≠ [] ∧ c ∉ piece) : HasNoRun c (join c pieces) := by
  induction pieces with
  | nil => exact .nil
  | cons piece rest ih =>
    have hc := (h piece List.mem_cons_self).2
    cases rest with
    | nil => exact hasNoRun_of_not_mem hc
    | cons next rest =>
      have hrest : ∀ other ∈ next :: rest, other ≠ [] ∧ c ∉ other := fun other hm => h other (List.mem_cons_of_mem _ hm)
      have hjoin : HasNoRun c (c :: join c (next :: rest)) := by
        refine List.isChain_cons.mpr ⟨fun a ha hrun => head?_join hrest ?_, ih hrest⟩
        exact hrun.2 ▸ ha
      rw [join]
      exact hasNoRun_append.mpr ⟨hasNoRun_of_not_mem hc, hjoin, fun hcut => hc (List.mem_of_getLast? hcut.1)⟩

end PageRouting.Text
