import PageRouting.Proofs.Flattening

/-!
# `PageRouting/Proofs/Leading.lean` — the text that the walk over a forest carries

In front of the top level the walk carries nothing, and in front of the children of a route a text that ends in a slash
(`IsLead`). Such a text is mended only if there is nothing but slashes in it, and then by the first leaf of the level, for
that leaf and for all that comes behind it (`foldl_leadAfter`).

Whatever is mended, no character but a slash is lost or added on the way to a path (`mem_leafPath_iff`), so that a parameter or
a catch-all in a pattern can be seen in every path below it (`mem_of_mem_ofRoute`).
-/

set_option autoImplicit false

namespace PageRouting.Flat

/-- Is there nothing but slashes in the text? -/
def OnlySlashes (t : Text) : Prop :=
  ∀ c ∈ t, c = '/'

instance : DecidablePred OnlySlashes :=
  fun t => decidable_of_iff (t.all (· = '/')) (by simp [OnlySlashes])

/-- Is the text one that the walk may carry: nothing, or one that ends in a slash? -/
def IsLead (lead : Text) : Prop :=
  lead = [] ∨ lead.getLast? = some '/'

variable {lead path : Text} {c : Char} {accepts : Route → Bool}

theorem onlySlashes_append {s t : Text} : OnlySlashes (s ++ t) ↔ OnlySlashes s ∧ OnlySlashes t :=
  List.forall_mem_append

/-! ## Mending -/

theorem isLead_nil : IsLead [] :=
  .inl rfl

theorem isLead_below (lead path : Text) : IsLead (lead ++ path ++ ['/']) :=
  .inr (List.getLast?_concat ..)

theorem IsLead.reduceSlashes_eq (h : IsLead lead) :
    reduceSlashes lead = if lead ≠ [] ∧ OnlySlashes lead then ['/'] else lead := by
  have hlast : lead.getLast? ≠ some '\n' := by
    rcases h with rfl | h
    · simp
    · rw [h]
      decide
  rw [Flat.reduceSlashes, Text.dropFinalNewline, if_neg hlast]
  refine if_congr (and_congr_right fun _ => ?_) rfl rfl
  simp [OnlySlashes, List.all_eq_true]

theorem IsLead.reduceSlashes (h : IsLead lead) : IsLead (reduceSlashes lead) := by
  rw [h.reduceSlashes_eq]
  split
  · exact .inr rfl
  · exact h

theorem reduceSlashes_reduceSlashes (h : IsLead lead) : reduceSlashes (reduceSlashes lead) = reduceSlashes lead := by
  rw [h.reduceSlashes_eq]
  split
  · rfl
  · next hn => rw [h.reduceSlashes_eq, if_neg hn]

/-- A text with anything but slashes in it is never mended. -/
theorem IsLead.reduceSlashes_of_not (h : IsLead lead) (ho : ¬ OnlySlashes lead) : Flat.reduceSlashes lead = lead := by
  rw [h.reduceSlashes_eq, if_neg fun hs => ho hs.2]

theorem IsLead.leadAfter (h : IsLead lead) (accepts : Route → Bool) (route : Route) : IsLead (leadAfter accepts lead route) := by
  unfold Flat.leadAfter
  split
  · exact h.reduceSlashes
  · exact h

/-- What is in front of the siblings that follow: mended, if one of the routes before them is a leaf. -/
theorem foldl_leadAfter (h : IsLead lead) (accepts : Route → Bool) (siblings : List Route) :
    siblings.foldl (leadAfter accepts) lead =
      if ∃ leaf ∈ siblings, accepts leaf ∧ leaf.children = [] then reduceSlashes lead else lead := by
  induction siblings generalizing lead with
  | nil => simp
  | cons route siblings ih =>
    rw [List.foldl_cons, ih (h.leadAfter accepts route)]
    by_cases hleaf : accepts route ∧ route.children = []
    · have hafter : leadAfter accepts lead route = Flat.reduceSlashes lead := by simp [Flat.leadAfter, hleaf]
      have hsome : ∃ leaf ∈ route :: siblings, accepts leaf ∧ leaf.children = [] := ⟨route, List.mem_cons_self, hleaf⟩
      rw [hafter, reduceSlashes_reduceSlashes h, ite_self, if_pos hsome]
    · have hafter : leadAfter accepts lead route = lead := by
        rw [Flat.leadAfter, if_neg (by simpa using hleaf)]
      simp [hafter, hleaf]

/-- A leaf has the same in front of it, whatever has come before it. -/
theorem reduceSlashes_foldl (h : IsLead lead) (accepts : Route → Bool) (siblings : List Route) :
    reduceSlashes (siblings.foldl (leadAfter accepts) lead) = reduceSlashes lead := by
  rw [foldl_leadAfter h]
  split
  · exact reduceSlashes_reduceSlashes h
  · rfl

theorem IsLead.foldl (h : IsLead lead) (accepts : Route → Bool) (siblings : List Route) :
    IsLead (siblings.foldl (Flat.leadAfter accepts) lead) := by
  rw [foldl_leadAfter h]
  split
  · exact h.reduceSlashes
  · exact h

/-! ## What is seen in a path -/

/-- A path of a route is that of a leaf, or the slash that a route at the top gives for itself, or it comes from below. -/
theorem cases_of_mem_ofRoute {route : Route} (hm : path ∈ ofRoute accepts lead route) :
    (route.children = [] ∧ path = leafPath (reduceSlashes lead) route.path) ∨
      (route.children ≠ [] ∧ ((lead = [] ∧ route.path = ['/'] ∧ path = ['/']) ∨
        path ∈ ofSiblings accepts (lead ++ route.path ++ ['/']) route.children)) := by
  rw [ofRoute_eq] at hm
  split at hm
  · split at hm
    · next hleaf => exact .inl ⟨hleaf, List.mem_singleton.mp hm⟩
    · next hbranch =>
      refine .inr ⟨hbranch, (List.mem_append.mp hm).imp (fun hown => ?_) id⟩
      split at hown
      · next htop => exact ⟨htop.1, htop.2, List.mem_singleton.mp hown⟩
      · cases hown
  · cases hm

theorem mem_reduceSlashes_iff (hc : c ≠ '/') (h : IsLead lead) : c ∈ reduceSlashes lead ↔ c ∈ lead := by
  rw [h.reduceSlashes_eq]
  split
  · next hslashes => simp only [List.mem_singleton, hc, false_iff]; exact fun hm => hc (hslashes.2 c hm)
  · rfl

theorem mem_leafPath_iff (hc : c ≠ '/') : c ∈ leafPath lead path ↔ c ∈ lead ∨ c ∈ path := by
  unfold leafPath
  split
  · next hempty =>
    obtain ⟨start, rfl⟩ := List.getLast?_eq_some_iff.mp hempty.2
    simp [hempty.1, hc]
  · exact List.mem_append

theorem mem_of_mem_ofRoute_of_below {route : Route} (hc : c ≠ '/') (h : IsLead lead) (hm : c ∈ lead ∨ c ∈ route.path)
    (below : ∀ path ∈ ofSiblings accepts (lead ++ route.path ++ ['/']) route.children, c ∈ path) :
    ∀ path ∈ ofRoute accepts lead route, c ∈ path := by
  intro path hpath
  rcases cases_of_mem_ofRoute hpath with ⟨-, rfl⟩ | ⟨-, ⟨rfl, hslash, -⟩ | hpath⟩
  · exact (mem_leafPath_iff hc).mpr (hm.imp (mem_reduceSlashes_iff hc h).mpr id)
  · rw [hslash] at hm
    simp [hc] at hm
  · exact below path hpath

/-- What is in front of siblings is in every path below them. -/
theorem mem_of_mem_ofSiblings {forest : Forest} (hc : c ≠ '/') (h : IsLead lead) (hm : c ∈ lead) :
    ∀ path ∈ ofSiblings accepts lead forest, c ∈ path := by
  induction forest using Forest.induct generalizing lead with
  | nil =>
    intro path hpath
    cases hpath
  | cons route siblings below ih =>
    intro path hpath
    rw [ofSiblings] at hpath
    rcases List.mem_append.mp hpath with hpath | hpath
    · refine mem_of_mem_ofRoute_of_below hc h (.inl hm) (below (isLead_below _ _) ?_) path hpath
      simp [hm]
    · refine ih (h.leadAfter accepts route) ?_ path hpath
      unfold leadAfter
      split
      · exact (mem_reduceSlashes_iff hc h).mpr hm
      · exact hm

/-- What is in the pattern of a route is in every path of the route and below it. -/
theorem mem_of_mem_ofRoute {route : Route} (hc : c ≠ '/') (h : IsLead lead) (hm : c ∈ route.path) :
    ∀ path ∈ ofRoute accepts lead route, c ∈ path := by
  refine mem_of_mem_ofRoute_of_below hc h (.inr hm) (mem_of_mem_ofSiblings hc (isLead_below _ _) ?_)
  simp [hm]

end PageRouting.Flat
