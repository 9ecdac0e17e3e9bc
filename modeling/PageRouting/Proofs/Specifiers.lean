import PageRouting.Proofs.Resolving

/-!
# `PageRouting/Proofs/Specifiers.lean` — which ways are written as paths

A bundler takes `./pages/about.vue` and `../pages/about.vue` for paths, and anything that does not begin like that for the name of
a package. A way therefore gets `./` in front unless it begins with a dot already. That says which ways end up as paths: all but
those to a target below the directory, in a file or directory that is hidden. Its name begins with a dot, but not with `./` or `../`
(`Path.relative_isExplicit_iff`).
-/

set_option autoImplicit false

namespace PageRouting

theorem Text.head?_join_cons (sep : Char) {piece : Text} (hne : piece ≠ []) (rest : List Text) :
    (join sep (piece :: rest)).head? = piece.head? := by
  cases rest with
  | nil => rfl
  | cons next rest => rw [join, List.head?_append_of_ne_nil _ hne]

namespace Path

/-- Is a relative path written as one: with a dot or two for its first component? -/
def IsExplicit (way : Text) : Prop :=
  way = ['.'] ∨ way = ['.', '.'] ∨ ['.', '/'] <+: way ∨ ['.', '.', '/'] <+: way

instance (way : Text) : Decidable (IsExplicit way) :=
  inferInstanceAs (Decidable (_ ∨ _ ∨ _ ∨ _))

/-- It is the first component that decides. -/
theorem isExplicit_join_iff {first : Text} (hslash : '/' ∉ first) (rest : List Text) :
    IsExplicit (Text.join '/' (first :: rest)) ↔ first = ['.'] ∨ first = ['.', '.'] := by
  constructor
  · intro h
    have hfirst : (Text.split '/' (Text.join '/' (first :: rest))).head? = some first := by
      cases rest with
      | nil => rw [Text.join, Text.split_of_not_mem '/' first hslash, List.head?_cons]
      | cons next rest => rw [Text.join, Text.split_append_cons '/' first _ hslash, List.head?_cons]
    rcases h with h | h | ⟨below, h⟩ | ⟨below, h⟩
    · rw [h] at hfirst
      exact .inl (Option.some.inj hfirst).symm
    · rw [h] at hfirst
      exact .inr (Option.some.inj hfirst).symm
    · rw [← h] at hfirst
      exact .inl (Option.some.inj hfirst).symm
    · rw [← h] at hfirst
      exact .inr (Option.some.inj hfirst).symm
  · intro h
    cases rest with
    | nil => exact h.imp_right .inl
    | cons next rest =>
      rcases h with rfl | rfl
      · exact .inr (.inr (.inl ⟨_, rfl⟩))
      · exact .inr (.inr (.inr ⟨_, rfl⟩))

end Path

namespace Location

/-- Does the target lie below the directory, first of all in something hidden? -/
def IsHiddenBelow (directory target : Location) : Prop :=
  ∃ name rest, target = directory ++ name :: rest ∧ name.head? = some '.'

theorem common_append (directory below : Location) : common directory (directory ++ below) = directory := by
  induction directory with
  | nil => cases below <;> rfl
  | cons name directory ih => rw [List.cons_append, common, if_pos rfl, ih]

theorem between_append (directory below : Location) : between directory (directory ++ below) = below := by
  rw [between, common_append, Nat.sub_self, List.replicate_zero, List.nil_append, List.drop_left]

theorem relativeText_of_between {directory target : Location} {first : Text} {rest : List Text} (hne : first ≠ [])
    (h : between directory target = first :: rest) : relativeText directory target =
      if first.head? = some '.' then Text.join '/' (first :: rest) else '.' :: '/' :: Text.join '/' (first :: rest) := by
  rw [relativeText, h]
  dsimp only
  rw [Text.head?_join_cons '/' hne]

/-- **A way is written as a path unless the first name below the directory is hidden.** -/
theorem isExplicit_relativeText_iff (directory : Location) {target : Location} (h : target.IsProper) :
    Path.IsExplicit (relativeText directory target) ↔ ¬ IsHiddenBelow directory target := by
  obtain ⟨shared, up, down, rfl, rfl, hbetween⟩ := exists_between directory target
  cases up with
  | cons name up =>
    -- the way leads up first, and so it would if the target were below the directory
    have hup : between (shared ++ name :: up) (shared ++ down) =
        ['.', '.'] :: (List.replicate up.length ['.', '.'] ++ down) := hbetween
    have hexplicit : Path.IsExplicit (relativeText (shared ++ name :: up) (shared ++ down)) := by
      rw [relativeText_of_between (by decide) hup, List.head?_cons, if_pos rfl]
      exact (Path.isExplicit_join_iff (by decide) _).mpr (.inr rfl)
    refine iff_of_true hexplicit ?_
    rintro ⟨first, rest, htarget, -⟩
    rw [htarget, between_append] at hup
    obtain ⟨rfl, -⟩ := List.cons.inj hup
    exact (h ['.', '.'] (by rw [htarget]; simp)).not_up rfl
  | nil =>
    rw [List.append_nil] at *
    cases down with
    | nil =>
      have hdot : relativeText shared (shared ++ []) = ['.'] := by rw [relativeText, hbetween]; rfl
      refine iff_of_true (.inl hdot) ?_
      rintro ⟨first, rest, htarget, -⟩
      simp at htarget
    | cons name rest =>
      obtain ⟨⟨hne, hdot⟩, hup, hslash⟩ := h name (by simp)
      have hhidden : IsHiddenBelow shared (shared ++ name :: rest) ↔ name.head? = some '.' := by
        refine ⟨?_, fun hname => ⟨name, rest, rfl, hname⟩⟩
        rintro ⟨first, others, htarget, hname⟩
        obtain ⟨rfl, -⟩ := List.cons.inj (List.append_cancel_left htarget)
        exact hname
      rw [hhidden, relativeText_of_between hne hbetween]
      split
      · next hname =>
        rw [Path.isExplicit_join_iff hslash]
        exact iff_of_false (fun hfirst => hfirst.elim hdot hup) (fun hno => hno hname)
      · next hname => exact iff_of_true (.inr (.inr (.inl ⟨_, rfl⟩))) hname

end Location

namespace Path

open Location

/--
**Ways are written as paths, but for hidden targets.** The way from a directory to where parts lead, which no alias ends, is `.`,
`..`, or begins with `./` or `../`, exactly if the target does not lie below the directory in something whose name begins with a dot.
There is such a way unless a null character stands in the directory or in the parts that count.
-/
theorem relative_isExplicit_iff (directory : Text) {parts : List Text} {last : Text} (hlast : parts.getLast? = some last)
    (halias : isAlias last = false) :
    (holdsNull (directory :: effective parts) = false → ∃ way, relative .posix directory parts = .ok way) ∧
    ∀ way, relative .posix directory parts = .ok way →
      (IsExplicit way ↔ ¬ IsHiddenBelow (resolve [] [directory]) (resolve [] parts)) := by
  rw [relative_eq hlast halias]
  refine ⟨fun hnull => ?_, fun way hway => ?_⟩
  · refine ⟨_, if_neg ?_⟩
    rw [holdsNull_eq_false_iff] at hnull
    simpa [holdsNull] using ⟨fun part hm => hnull part (List.mem_cons_of_mem _ hm), hnull directory List.mem_cons_self⟩
  · split at hway
    · cases hway
    · rw [← Except.ok.inj hway]
      exact isExplicit_relativeText_iff _ (isProper_of_root parts)

/-- The way to a page of a sibling directory is written as a path, up and down again. -/
theorem relative_isExplicit_sibling :
    relative .posix "/srv/app/src".toList ["/srv/app".toList, ".nuxt/../pages".toList, "about.vue".toList] =
        .ok "../pages/about.vue".toList ∧
      IsExplicit "../pages/about.vue".toList := by
  have hway : relative .posix "/srv/app/src".toList ["/srv/app".toList, ".nuxt/../pages".toList, "about.vue".toList] =
      .ok "../pages/about.vue".toList := by decide +kernel
  have hiff := (relative_isExplicit_iff "/srv/app/src".toList rfl (by decide +kernel)).2 _ hway
  refine ⟨hway, hiff.mpr ?_⟩
  rintro ⟨name, rest, htarget, -⟩
  have hnames : resolve [] ["/srv/app".toList, ".nuxt/../pages".toList, "about.vue".toList] =
      ["srv".toList, "app".toList, "pages".toList, "about.vue".toList] := by decide +kernel
  have hdirectory : resolve [] ["/srv/app/src".toList] = ["srv".toList, "app".toList, "src".toList] := by decide +kernel
  rw [hnames, hdirectory] at htarget
  simp at htarget

/-- The way to a hidden directory begins with its name. -/
theorem relative_hidden :
    relative .posix "/srv/app".toList ["/srv/app/.hidden/x.vue".toList] = .ok ".hidden/x.vue".toList ∧
      ¬ IsExplicit ".hidden/x.vue".toList := by
  decide +kernel

end Path

end PageRouting
