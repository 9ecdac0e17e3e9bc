import PageRouting.Proofs.OptionalMarkers
import PageRouting.Proofs.Passing

/-!
# `PageRouting/Proofs/PassChanges.lean` — what a collapse pass may change

A pass that goes through leaves every route where it was, with its component and its chunk. Of a pattern it takes the first
slash, below the top level, and question marks, where the level has an index route; of a name it takes the ending `index`, or
the name altogether where a child has the empty pattern (`Route.MayBecome`). That is all it does on any level, whatever the
forest is (`Forest.collapse_mayBecome`).

One thing has to be asked for. On the top level the text in front of the first slash is thrown away when the pass looks for
question marks, so a pattern that holds one has to begin with the slash.
-/

set_option autoImplicit false

namespace PageRouting

/-! ## Characters left out -/

/-- The second text is the first one, with zero or more occurrences of the character left out. -/
inductive Text.Loses (c : Char) : Text → Text → Prop
  | nil : Loses c [] []
  | keep (a : Char) {t t' : Text} (h : Loses c t t') : Loses c (a :: t) (a :: t')
  | drop {t t' : Text} (h : Loses c t t') : Loses c (c :: t) t'

namespace Text.Loses

variable {c : Char}

theorem refl (t : Text) : Loses c t t := by
  induction t with
  | nil => exact .nil
  | cons a t ih => exact .keep a ih

theorem append {a a' b b' : Text} (ha : Loses c a a') (hb : Loses c b b') : Loses c (a ++ b) (a' ++ b') := by
  induction ha with
  | nil => exact hb
  | keep a _ ih => exact .keep a ih
  | drop _ ih => exact .drop ih

theorem eraseFirst (count : Nat) (t : Text) : Loses c t (eraseFirst c count t) := by
  fun_induction Text.eraseFirst c count t with
  | case1 t => exact refl t
  | case2 => exact .nil
  | case3 count t ih => exact .drop ih
  | case4 count a t _ ih => exact .keep a ih

theorem join_mapIdx (sep : Char) {f : Nat → Text → Text} (h : ∀ k t, Loses c t (f k t)) (pieces : List Text) :
    Loses c (join sep pieces) (join sep (pieces.mapIdx f)) := by
  induction pieces generalizing f with
  | nil => exact .nil
  | cons piece rest ih =>
    cases rest with
    | nil => exact h 0 piece
    | cons next rest =>
      have hrest := ih fun k => h (k + 1)
      rw [List.mapIdx_cons] at hrest ⊢
      rw [List.mapIdx_cons]
      exact (h 0 piece).append (.keep sep hrest)

end Text.Loses

/-! ## Patterns -/

namespace Collapse

theorem loses_requireAll (indexes : List IndexName) (parts tokens : List Text) :
    Text.Loses '?' (Text.join '/' tokens) (Text.join '/' (requireAll indexes parts tokens)) := by
  cases h : IndexName.anchor? indexes with
  | none =>
    rw [requireAll, h]
    exact .refl _
  | some least =>
    rw [requireAll_eq_mapIdx h]
    exact .join_mapIdx '/' (fun _ token => .eraseFirst _ token) tokens

/-- The pattern with which a pass begins: below the top level its first slash is gone. -/
def enteringPath (isChild : Bool) (path : Text) : Text :=
  if isChild then path.erase '/' else path

theorem loses_resolveOptional (indexes : List IndexName) {isChild : Bool} (name : Option Text) {path : Text}
    (hslash : isChild = false → path.head? = some '/') :
    Text.Loses '?' path (resolveOptional indexes isChild name path) ∧
      (indexes = [] → resolveOptional indexes isChild name path = path) := by
  have hnone : ∀ parts tokens, requireAll [] parts tokens = tokens := fun _ _ => rfl
  unfold resolveOptional
  cases isChild with
  | true =>
    have hloses := loses_requireAll indexes (nameParts name) (Text.split '/' path)
    rw [Text.join_split] at hloses
    refine ⟨hloses, ?_⟩
    rintro rfl
    rw [if_pos rfl, hnone, Text.join_split]
  | false =>
    obtain ⟨rest, rfl⟩ := List.head?_eq_some_iff.mp (hslash rfl)
    have htail : (Text.split '/' ('/' :: rest)).tail = Text.split '/' rest := by simp [Text.split]
    have hloses := loses_requireAll indexes (nameParts name) (Text.split '/' rest)
    rw [Text.join_split] at hloses
    rw [if_neg Bool.false_ne_true, htail]
    refine ⟨.keep '/' hloses, ?_⟩
    rintro rfl
    rw [hnone, Text.join_split]

theorem loses_newPath (indexes : List IndexName) {isChild : Bool} (name : Option Text) {path : Text}
    (hslash : isChild = false → '?' ∈ path → path.head? = some '/') :
    Text.Loses '?' (enteringPath isChild path) (newPath indexes isChild name path) ∧
      (indexes = [] → newPath indexes isChild name path = enteringPath isChild path) := by
  have hpath : newPath indexes isChild name path =
      if '?' ∈ enteringPath isChild path then resolveOptional indexes isChild name (enteringPath isChild path)
      else enteringPath isChild path := rfl
  rw [hpath]
  by_cases hq : '?' ∈ enteringPath isChild path
  · rw [if_pos hq]
    refine loses_resolveOptional indexes name fun htop => ?_
    subst htop
    exact hslash rfl hq
  · rw [if_neg hq]
    exact ⟨.refl _, fun _ => rfl⟩

end Collapse

/-! ## Names -/

namespace IndexName

/--
The ending that makes a name that of an index route, and what remains of the name without it. The ending is the whole name or
begins with a dash; a newline may stand behind it, and remains.
-/
inductive Matches : Text → Text → Prop
  | whole {newline : Text} (h : newline = [] ∨ newline = ['\n']) : Matches (Segment.indexKey ++ newline) newline
  | ending (start : Text) {newline : Text} (h : newline = [] ∨ newline = ['\n']) :
      Matches (start ++ ending ++ newline) (start ++ newline)

/-- The second name is the first one without its ending, or the first one itself if it has none. -/
def Stripped (name rest : Text) : Prop :=
  Matches name rest ∨ (¬ ∃ other, Matches name other) ∧ rest = name

theorem dropFinalNewline_append {body newline : Text} (hbody : body.getLast? ≠ some '\n')
    (h : newline = [] ∨ newline = ['\n']) : Text.dropFinalNewline (body ++ newline) = (body, newline) := by
  rcases h with rfl | rfl
  · rw [List.append_nil, Text.dropFinalNewline, if_neg hbody]
  · rw [Text.dropFinalNewline, if_pos List.getLast?_concat, List.dropLast_concat]

theorem exists_dropFinalNewline (name : Text) :
    ∃ body newline, Text.dropFinalNewline name = (body, newline) ∧ name = body ++ newline ∧ (newline = [] ∨ newline = ['\n']) := by
  by_cases hlast : name.getLast? = some '\n'
  · obtain ⟨body, rfl⟩ := List.getLast?_eq_some_iff.mp hlast
    exact ⟨body, ['\n'], by simp [Text.dropFinalNewline], rfl, .inr rfl⟩
  · exact ⟨name, [], by simp [Text.dropFinalNewline, hlast], (List.append_nil name).symm, .inl rfl⟩

theorem stem?_eq_some_iff {name rest : Text} : stem? name = some rest ↔ Matches name rest := by
  constructor
  · intro h
    obtain ⟨body, newline, hdrop, rfl, hnewline⟩ := exists_dropFinalNewline name
    rw [stem?, hdrop] at h
    dsimp only at h
    split at h
    · next hkey =>
      obtain rfl := Option.some.inj h
      rw [hkey]
      exact .whole hnewline
    · split at h
      · next hending =>
        obtain ⟨start, rfl⟩ := hending
        obtain rfl := Option.some.inj h
        rw [List.length_append, Nat.add_sub_cancel, List.take_left]
        exact .ending start hnewline
      · cases h
  · intro h
    cases h with
    | @whole newline hnewline =>
      rw [stem?, dropFinalNewline_append (by decide) hnewline]
      dsimp only
      rw [if_pos rfl]
    | @ending start newline hnewline =>
      have hlast : (start ++ ending).getLast? = some 'x' := by
        rw [List.getLast?_append]
        rfl
      have hlong : start ++ ending ≠ Segment.indexKey := by
        intro he
        have hlength := congrArg List.length he
        simp only [ending, List.length_append, List.length_cons] at hlength
        omega
      rw [stem?, dropFinalNewline_append (by simp [hlast]) hnewline]
      dsimp only
      rw [if_neg hlong, if_pos (List.suffix_append _ _), List.length_append, Nat.add_sub_cancel, List.take_left]

theorem stripped_strip (name : Text) : Stripped name (strip name) := by
  unfold strip
  cases h : stem? name with
  | some rest => exact .inl (stem?_eq_some_iff.mp h)
  | none =>
    refine .inr ⟨?_, rfl⟩
    rintro ⟨rest, hrest⟩
    rw [stem?_eq_some_iff.mpr hrest] at h
    cases h

end IndexName

/-! ## Routes and levels -/

/-- Has one of the siblings the name of an index route? -/
def Forest.HasIndex (siblings : Forest) : Prop :=
  ∃ route ∈ siblings, ∃ name rest, route.name = some name ∧ IndexName.Matches name rest

/-- What a pass may make of a route itself, on a level that has an index route or has none. -/
structure Route.MayBecome (indexed : Prop) (isChild : Bool) (before after : Route) : Prop where
  component : after.component = before.component
  chunkName : after.chunkName = before.chunkName
  path : Text.Loses '?' (Collapse.enteringPath isChild before.path) after.path
  path_eq : ¬ indexed → after.path = Collapse.enteringPath isChild before.path
  unnamed : (before.name = none ∨ ∃ child ∈ before.children, child.path = []) → after.name = none
  named : ∀ name, before.name = some name → (¬ ∃ child ∈ before.children, child.path = []) →
    ∃ rest, after.name = some rest ∧ IndexName.Stripped name rest

/-- What a pass may make of a forest: as many routes on each level, each of them what it may make of the route in its place. -/
inductive Forest.MayBecome : Bool → Forest → Forest → Prop
  | level {isChild : Bool} {before after : Forest} (length_eq : after.length = before.length)
      (route : ∀ pair ∈ before.zip after, pair.1.MayBecome before.HasIndex isChild pair.2)
      (below : ∀ pair ∈ before.zip after, MayBecome true pair.1.children pair.2.children) : MayBecome isChild before after

theorem Forest.eq_nil_of_not_hasIndex {siblings : Forest} {indexes : List IndexName}
    (hn : IndexName.ofNames (siblings.map Route.name) = .ok indexes) (h : ¬ HasIndex siblings) : indexes = [] := by
  rw [IndexName.eq_nil_iff_of_ofNames hn]
  intro name hm
  obtain ⟨route, hroute, hname⟩ := List.mem_map.mp hm
  cases hstem : IndexName.stem? name with
  | none => rfl
  | some rest => exact absurd ⟨route, hroute, name, rest, hname, IndexName.stem?_eq_some_iff.mp hstem⟩ h

theorem Collapse.showsParent_iff {children : Forest} : showsParent children = true ↔ ∃ child ∈ children, child.path = [] := by
  simp [showsParent]

theorem Collapse.route_mayBecome {siblings : Forest} {indexes : List IndexName} {isChild : Bool}
    (hn : IndexName.ofNames (siblings.map Route.name) = .ok indexes) (before : Route)
    (hslash : isChild = false → '?' ∈ before.path → before.path.head? = some '/') :
    before.MayBecome siblings.HasIndex isChild (Collapse.route indexes isChild before).value := by
  obtain ⟨hloses, hsame⟩ := loses_newPath indexes before.name hslash
  rw [route_value]
  refine ⟨rfl, rfl, hloses, fun h => hsame (Forest.eq_nil_of_not_hasIndex hn h), fun h => ?_, fun name hname hshown => ?_⟩
  · rcases h with hnone | hshown
    · rw [hnone]
      exact ite_self none
    · exact if_pos (showsParent_iff.mpr hshown)
  · refine ⟨IndexName.strip name, ?_, IndexName.stripped_strip name⟩
    rw [hname]
    exact if_neg fun h => hshown (showsParent_iff.mp h)

/-- **What a collapse pass that goes through may change**, on every level of any forest. -/
theorem Forest.collapse_mayBecome (isChild : Bool) (forest : Forest) (h : (forest.collapse isChild).fault = none)
    (hslash : isChild = false → ∀ route ∈ forest, '?' ∈ route.path → route.path.head? = some '/') :
    MayBecome isChild forest (forest.collapse isChild).value := by
  induction forest using levelInduct generalizing isChild with
  | level forest below =>
    obtain ⟨indexes, hn, hbelow, hvalue⟩ := collapse_eq_map h
    have hpairs : forest.zip (forest.collapse isChild).value =
        forest.map fun route => (route, (Collapse.route indexes isChild route).value) := by
      rw [hvalue]
      exact List.map_prod_left_eq_zip.symm
    refine .level (by rw [hvalue, List.length_map]) (fun pair hm => ?_) fun pair hm => ?_
    · rw [hpairs] at hm
      obtain ⟨route, hroute, rfl⟩ := List.mem_map.mp hm
      exact Collapse.route_mayBecome hn route fun htop => hslash htop route hroute
    · rw [hpairs] at hm
      obtain ⟨route, hroute, rfl⟩ := List.mem_map.mp hm
      rw [Collapse.route_value]
      exact below route hroute true (hbelow route hroute) fun htop => nomatch htop

/-- A level with an index route above one that has none of its own, and a pattern of two tokens written by hand. -/
theorem Forest.collapse_mayBecome_hand_written :
    let forest : Forest :=
      [{ name := some "index".toList, path := "/".toList },
        { name := some "blog".toList, path := "/:year?/:tag?".toList, component := some "blog.vue".toList
          children := [{ name := some "index-blog-index\n".toList, path := "/".toList },
            { name := some "blog-slug".toList, path := "/a/:slug?".toList }] },
        { name := some "a".toList, path := "/a".toList
          children := [{ name := some "a-b".toList, path := [] }, { name := none, path := "b?".toList }] }]
    (forest.collapse false).fault = none ∧
      (∀ route ∈ forest, '?' ∈ route.path → route.path.head? = some '/') ∧
      (forest.collapse false).value.nodes.map (fun node => (node.name, node.path)) =
        [(some [], "/".toList), (some "blog".toList, "/:year/:tag?".toList), (some "index-blog\n".toList, []),
          (some "blog-slug".toList, "a/:slug?".toList), (none, "/a".toList), (some "a-b".toList, []), (none, "b?".toList)] ∧
      MayBecome false forest (forest.collapse false).value := by
  intro forest
  have hfault : (forest.collapse false).fault = none := by decide +kernel
  have hslash : ∀ route ∈ forest, '?' ∈ route.path → route.path.head? = some '/' := by decide +kernel
  exact ⟨hfault, hslash, by decide +kernel, collapse_mayBecome false forest hfault fun _ => hslash⟩

end PageRouting
