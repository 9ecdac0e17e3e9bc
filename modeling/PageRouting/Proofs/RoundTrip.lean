import PageRouting.Proofs.Addresses

/-!
# `PageRouting/Proofs/RoundTrip.lean` — from page files to the paths that are served

Compiling page files and flattening the forest again gives a path for each file that is not also a directory, and the path
is made of the keys of the file. Through the closed form this becomes a statement about ways: the trails of the forest are
the ways to the leaf files (`Clean.patterns_perm`), and the patterns on a way, put together, are the path of the file
(`Plain.pathOf_patternsFrom`).
-/

set_option autoImplicit false

namespace PageRouting

namespace Listing

variable (listing : Listing)

/-! ## Leaf files and their paths -/

/-- The leaf files whose keys begin with the given ones. -/
def leavesThrough (place : List Text) : List Text :=
  (Text.distinct listing.files).filter fun file => listing.IsLeaf file ∧ place <+: listing.keysOf file

/-- The patterns at the places of a file below a given place. -/
def patternsFrom (place : List Text) (file : Text) : List Text :=
  alongFrom (fun above key => listing.path (above ++ [key])) place ((listing.keysOf file).drop place.length)

/-! ## Trails of the closed form -/

variable {listing}

theorem mem_leavesThrough {place : List Text} {file : Text} :
    file ∈ listing.leavesThrough place ↔ file ∈ listing.files ∧ listing.IsLeaf file ∧ place <+: listing.keysOf file := by
  simp only [leavesThrough, List.mem_filter, Text.mem_distinct, decide_eq_true_eq]

theorem leavesThrough_nodup (place : List Text) : (listing.leavesThrough place).Nodup :=
  (Text.distinct_nodup _).filter _

theorem patternsFrom_step {place : List Text} {key file : Text} (h : place ++ [key] <+: listing.keysOf file) :
    listing.patternsFrom place file = listing.path (place ++ [key]) :: listing.patternsFrom (place ++ [key]) file := by
  obtain ⟨below, hk⟩ := h
  have hdrop : (listing.keysOf file).drop place.length = key :: below := by
    rw [← hk, List.append_assoc]
    simp
  have hdrop' : (listing.keysOf file).drop (place ++ [key]).length = below := by
    rw [← hk]
    simp
  rw [patternsFrom, patternsFrom, hdrop, hdrop', alongFrom]

/-- Where no leaf file ends, the leaf files that come through go on by one step or another. -/
theorem leavesThrough_perm {place steps : List Text} (nodup : steps.Nodup)
    (mem : ∀ a, a ∈ steps ↔ listing.Reaches (place ++ [a]))
    (hproper : ∀ file ∈ listing.files, listing.IsLeaf file → listing.keysOf file ≠ place) :
    (listing.leavesThrough place).Perm (steps.flatMap fun a => listing.leavesThrough (place ++ [a])) := by
  have hnext : ∀ file ∈ listing.leavesThrough place, ∃ a ∈ steps, (listing.keysOf file)[place.length]? = some a := by
    intro file hm
    obtain ⟨hfile, hleaf, hp⟩ := mem_leavesThrough.mp hm
    rcases eq_or_exists_step hp with hk | ⟨a, ha⟩
    · exact absurd hk (hproper file hfile hleaf)
    · exact ⟨a, (mem a).mpr ⟨file, hfile, ha⟩, (step_prefix_iff.mp ha).2⟩
  refine (perm_flatMap_filter nodup hnext).trans (.of_eq (List.flatMap_congr fun a _ => ?_))
  rw [leavesThrough, List.filter_filter]
  refine List.filter_congr fun file _ => ?_
  rw [← Bool.decide_and, decide_eq_decide, step_prefix_iff]
  exact ⟨fun ⟨hk, hleaf, hp⟩ => ⟨hleaf, hp, hk⟩, fun ⟨hleaf, hp, hk⟩ => ⟨hk, hleaf, hp⟩⟩

theorem Clean.leavesThrough_eq (h : listing.Clean) {place : List Text} (hr : listing.Reaches place)
    (hlast : ∀ a, ¬ listing.Reaches (place ++ [a])) :
    ∃ file, listing.keysOf file = place ∧ listing.leavesThrough place = [file] := by
  have hends : ∀ file ∈ listing.files, place <+: listing.keysOf file → listing.keysOf file = place := by
    intro file hfile hp
    rcases eq_or_exists_step hp with hk | ⟨a, ha⟩
    · exact hk
    · exact absurd ⟨file, hfile, ha⟩ (hlast a)
  obtain ⟨file, hfile, hp⟩ := hr
  have hk := hends file hfile hp
  refine ⟨file, hk, List.perm_singleton.mp ?_⟩
  refine (List.perm_ext_iff_of_nodup (leavesThrough_nodup place) (List.nodup_singleton _)).mpr fun other => ?_
  rw [mem_leavesThrough, List.mem_singleton]
  constructor
  · rintro ⟨hother, -, hpo⟩
    exact h.keys_injective other hother file hfile ((hends other hother hpo).trans hk.symm)
  · rintro rfl
    refine ⟨hfile, fun other hother hpo => ?_, hp⟩
    rw [hk] at hpo ⊢
    exact hends other hother hpo

/-- **The trails of the closed form are the ways to the leaf files.** -/
theorem Clean.patterns_perm (h : listing.Clean) {place : List Text} {siblings : Forest}
    (hb : listing.plan.Built place siblings)
    (hproper : ∀ file ∈ listing.files, listing.IsLeaf file → listing.keysOf file ≠ place) :
    siblings.patterns.Perm ((listing.leavesThrough place).map (listing.patternsFrom place)) := by
  induction hb with
  | @level place siblings steps nodup mem below perm ih =>
    have hperm : siblings.Perm (steps.map fun step => listing.plan.node (place ++ [step.1]) step.2) := by
      rwa [show listing.plan.guests place = [] from rfl, List.append_nil] at perm
    have hstep : ∀ step ∈ steps,
        ((listing.plan.node (place ++ [step.1]) step.2).trails.map fun trail => trail.map Route.path).Perm
          ((listing.leavesThrough (place ++ [step.1])).map (listing.patternsFrom place)) := by
      intro step hs
      have hr : listing.Reaches (place ++ [step.1]) := (mem step.1).mp (List.mem_map_of_mem hs)
      have hfrom : (listing.leavesThrough (place ++ [step.1])).map (listing.patternsFrom place) =
          ((listing.leavesThrough (place ++ [step.1])).map (listing.patternsFrom (place ++ [step.1]))).map
            (listing.path (place ++ [step.1]) :: ·) := by
        rw [List.map_map]
        exact List.map_congr_left fun file hm => patternsFrom_step (mem_leavesThrough.mp hm).2.2
      rw [hfrom, Forest.patterns_route]
      refine List.Perm.map _ ?_
      -- a route without children is at the end of a file, one with children is not at the end of a leaf file
      split
      · next hc =>
        have hlast : ∀ b, ¬ listing.Reaches (place ++ [step.1] ++ [b]) := by
          intro b hrb
          obtain ⟨children, -, hm⟩ := (below step hs).exists_of_reaches hrb
          rw [show step.2 = [] from hc] at hm
          cases hm
        obtain ⟨file, hk, hone⟩ := h.leavesThrough_eq hr hlast
        rw [hone, List.map_singleton, patternsFrom, hk, List.drop_length]
        exact .refl _
      · next hc =>
        refine ih step hs fun file _ hleaf hk => ?_
        obtain ⟨route, hroute⟩ := List.exists_mem_of_ne_nil step.2 hc
        obtain ⟨b, _, ⟨other, hother, hp⟩, -, -⟩ := (below step hs).exists_of_mem rfl hroute
        have hsame := hleaf other hother (hk ▸ (List.prefix_append _ _).trans hp)
        rw [hsame, hk] at hp
        exact absurd hp.length_le (by simp)
    have htrails : siblings.patterns.Perm (steps.flatMap fun step =>
        (listing.plan.node (place ++ [step.1]) step.2).trails.map fun trail => trail.map Route.path) := by
      rw [Forest.patterns, Forest.trails_eq_flatMap, List.map_flatMap]
      refine (hperm.flatMap_right _).trans (.of_eq ?_)
      rw [List.flatMap_map]
    have hfiles := leavesThrough_perm nodup mem hproper
    rw [List.flatMap_map] at hfiles
    refine htrails.trans ((List.Perm.flatMap_left steps hstep).trans ?_)
    rw [← List.map_flatMap]
    exact (hfiles.map _).symm

/-! ## The paths of a plain listing -/

theorem patternsFrom_nil {key file : Text} {below : List Text} (hk : listing.keysOf file = key :: below) :
    listing.patternsFrom [] file = ('/' :: listing.token [] key) :: alongFrom listing.token [key] below := by
  have hbelow : ∀ (above keys : List Text), above ≠ [] →
      alongFrom (fun above key => listing.path (above ++ [key])) above keys = alongFrom listing.token above keys := by
    intro above keys hne
    induction keys generalizing above with
    | nil => rfl
    | cons k keys ih =>
      rw [alongFrom, alongFrom, ih _ (by simp)]
      simp [path, hne]
  rw [patternsFrom, List.length_nil, List.drop_zero, hk, alongFrom, hbelow _ _ (by simp)]
  simp [path]

/-- The patterns on the way to a file make up its path. -/
theorem Plain.pathOf_patternsFrom (h : listing.Plain) {file : Text} (hm : file ∈ listing.files) :
    Flat.pathOf (listing.patternsFrom [] file) = listing.url file := by
  have hslash : ∀ (token : Text) (tokens : List Text),
      Text.join '/' (('/' :: token) :: tokens) = '/' :: Text.join '/' (token :: tokens) := by
    intro token tokens
    cases tokens <;> rfl
  obtain ⟨key, below, hk⟩ := List.exists_cons_of_ne_nil (h.keysOf_ne_nil hm)
  rw [patternsFrom_nil hk]
  rcases eq_withoutIndex (listing.keysOf file) with hw | hw
  · have hlast : (('/' :: listing.token [] key) :: alongFrom listing.token [key] below).getLast? ≠ some [] := by
      intro hl
      rcases List.mem_cons.mp (List.mem_of_getLast? hl) with he | he
      · cases he
      · obtain ⟨above, k, hkey, ht⟩ := mem_alongFrom he
        have hkeys : k ∈ listing.keysOf file := hk ▸ List.mem_cons_of_mem _ hkey
        have hindex := (token_eq_nil_iff (h.isCleanKey ⟨file, hm, List.prefix_refl _⟩ hkeys)).mp ht.symm
        exact h.index_not_mem_withoutIndex hm (hw ▸ hindex ▸ hkeys)
    rw [Flat.pathOf, if_neg hlast, hslash, url, ← hw, hk]
    rfl
  · -- the empty pattern of a final `index` is dropped, but at the top level it is a slash
    rw [url]
    cases hcut : withoutIndex (listing.keysOf file) with
    | nil =>
      rw [hcut, hk] at hw
      obtain ⟨rfl, rfl⟩ := List.cons.inj hw
      rfl
    | cons first others =>
      rw [hcut, hk, List.cons_append] at hw
      obtain ⟨rfl, rfl⟩ := List.cons.inj hw
      have hend : alongFrom listing.token [key] (others ++ [Segment.indexKey]) =
          alongFrom listing.token [key] others ++ [[]] := alongFrom_append ..
      rw [hend, ← List.cons_append, Flat.pathOf, List.getLast?_concat, if_pos rfl, List.dropLast_concat, hslash]
      rfl

theorem Plain.all_patternsFrom (h : listing.Plain) {file : Text} (hm : file ∈ listing.files) :
    ((listing.patternsFrom [] file).all fun pattern => decide (':' ∉ pattern) && decide ('*' ∉ pattern)) =
      decide (∀ key ∈ listing.keysOf file, key.head? ≠ some '_') := by
  rw [patternsFrom, List.length_nil, List.drop_zero,
    all_alongFrom (q := fun key => decide (key.head? ≠ some '_')) fun above key hk => ?_]
  · rw [Bool.eq_iff_iff]
    simp
  · have hkey := h.isCleanKey ⟨file, hm, List.prefix_refl _⟩ hk
    rw [← Bool.decide_and, decide_eq_decide, ← static_token_iff listing above hkey, path]
    split <;> simp

/-- A route of the closed form that has children has a pattern of more than slashes. -/
theorem Plain.exists_ne_slash (h : listing.Plain) {forest : Forest} (hb : listing.plan.Built [] forest) :
    ∀ node ∈ forest.nodes, node.children ≠ [] → ∃ c ∈ node.path, c ≠ '/' := by
  intro node hm hc
  obtain ⟨above, key, children, hr, hbelow, rfl⟩ := hb.exists_of_mem_nodes (fun _ => rfl) (fun _ _ => rfl) hm
  have hkey : IsCleanKey key := h.isCleanKey hr (by simp)
  obtain ⟨route, hroute⟩ := List.exists_mem_of_ne_nil children hc
  obtain ⟨next, _, ⟨file, hfile, hp⟩, -, -⟩ := hbelow.exists_of_mem rfl hroute
  have hindex : key ≠ Segment.indexKey := by
    rintro rfl
    rw [h.keysOf_eq_of_index hfile ((List.prefix_append _ _).trans hp)] at hp
    exact absurd hp.length_le (by simp)
  have htoken : listing.token above key ≠ [] := fun ht => hindex ((token_eq_nil_iff hkey).mp ht)
  obtain ⟨c, hc⟩ := List.exists_mem_of_ne_nil _ htoken
  refine ⟨c, ?_, ?_⟩
  · simp [plan, node, path, hc]
  · rintro rfl
    exact slash_not_mem_token hkey hc

theorem leavesThrough_nil : listing.leavesThrough [] = (Text.distinct listing.files).filter fun file => listing.IsLeaf file := by
  simp [leavesThrough]

/-- A walk that looks at patterns only gives the paths of the leaf files whose patterns it accepts. -/
theorem Plain.flatPathsWhere_perm (h : listing.Plain) {forest : Forest} (hb : listing.plan.Built [] forest)
    (accepts : Route → Bool) (acceptsPattern : Text → Bool)
    (haccepts : ∀ route : Route, accepts route = acceptsPattern route.path) :
    (forest.flatPathsWhere accepts []).Perm
      (((listing.leavesThrough []).filter fun file => (listing.patternsFrom [] file).all acceptsPattern).map listing.url) := by
  have hproper : ∀ file ∈ listing.files, listing.IsLeaf file → listing.keysOf file ≠ [] := fun file hm _ =>
    h.keysOf_ne_nil hm
  rw [Forest.flatPathsWhere_eq_patterns haccepts (h.exists_ne_slash hb)]
  refine (((h.patterns_perm hb hproper).filter _).map _).trans (.of_eq ?_)
  rw [List.filter_map, List.map_map]
  refine List.map_congr_left fun file hm => ?_
  exact h.pathOf_patternsFrom (mem_leavesThrough.mp (List.mem_of_mem_filter hm)).1

theorem Plain.flatPaths_perm (h : listing.Plain) {forest : Forest} (hb : listing.plan.Built [] forest) :
    forest.flatPaths.Perm (((Text.distinct listing.files).filter fun file => listing.IsLeaf file).map listing.url) := by
  have hall : ∀ file ∈ listing.leavesThrough [], (listing.patternsFrom [] file).all fun _ => true := by simp
  have hperm := h.flatPathsWhere_perm hb (fun _ => true) (fun _ => true) fun _ => rfl
  rwa [List.filter_eq_self.mpr hall, leavesThrough_nil] at hperm

theorem Plain.staticPaths_perm (h : listing.Plain) {forest : Forest} (hb : listing.plan.Built [] forest) :
    forest.staticPaths.Perm (((Text.distinct listing.files).filter fun file =>
      listing.IsLeaf file ∧ ∀ key ∈ listing.keysOf file, key.head? ≠ some '_').map listing.url) := by
  have hperm := h.flatPathsWhere_perm hb Route.isStatic
    (fun pattern => decide (':' ∉ pattern) && decide ('*' ∉ pattern)) fun _ => rfl
  refine hperm.trans (.of_eq (congrArg _ ?_))
  rw [leavesThrough_nil, List.filter_filter]
  refine List.filter_congr fun file hm => ?_
  rw [h.all_patternsFrom ((Text.mem_distinct _ _).mp hm), Bool.and_comm, Bool.decide_and]

theorem Plain.url_nodup (h : listing.Plain) {p : Text → Bool} (hp : ∀ file, p file → listing.IsLeaf file) :
    (((Text.distinct listing.files).filter p).map listing.url).Nodup := by
  refine List.Nodup.map_on (fun file hm other ho he => ?_) ((Text.distinct_nodup _).filter _)
  obtain ⟨hm, hfile⟩ := List.mem_filter.mp hm
  obtain ⟨ho, hother⟩ := List.mem_filter.mp ho
  exact h.url_injective ((Text.mem_distinct _ _).mp hm) ((Text.mem_distinct _ _).mp ho) (hp file hfile) (hp other hother) he

/--
**From page files to paths.** The paths that the compiled forest of a plain listing serves are those of the files whose
keys go on in no other file, one for each file; those that it serves without parameters and catch-alls are the ones of
files without a key that begins with an underscore. No two of these files share a path.
-/
theorem flat_paths_plain (listing : Listing) (h : listing.Plain) :
    (∃ forest, (compile listing.layout listing.files).result = .ok forest ∧
        forest.flatPaths.Perm (((Text.distinct listing.files).filter fun file => listing.IsLeaf file).map listing.url) ∧
        forest.staticPaths.Perm (((Text.distinct listing.files).filter fun file =>
          listing.IsLeaf file ∧ ∀ key ∈ listing.keysOf file, key.head? ≠ some '_').map listing.url) ∧
        forest.flatPaths.Nodup ∧ forest.staticPaths.Nodup) ∨
      ((compile listing.layout listing.files).result = .error .nullInPath ∧
        ∃ file ∈ listing.files, listing.layout.componentOf file = .error .nullInPath) := by
  rcases h.compile_ends with hnull | ⟨forest, hc⟩
  · exact .inr hnull
  have hb := h.built_of_compile hc
  have hflat := h.flatPaths_perm hb
  have hstatic := h.staticPaths_perm hb
  refine .inl ⟨forest, hc, hflat, hstatic, ?_, ?_⟩
  · exact hflat.nodup_iff.mpr (h.url_nodup fun file hp => of_decide_eq_true hp)
  · exact hstatic.nodup_iff.mpr (h.url_nodup fun file hp => (of_decide_eq_true hp).1)

/-- The page of a directory stands for the directory, and makes its parameter required. -/
theorem flat_paths_plain_users :
    users.Plain ∧ ∃ forest, (compile users.layout users.files).result = .ok forest ∧
      forest.flatPaths.Perm ["/users/:id".toList, "/".toList, "/users".toList] ∧
      forest.staticPaths.Perm ["/".toList, "/users".toList] := by
  have hplain : users.Plain := by decide +kernel
  have hreadable : ∀ file ∈ users.files, users.layout.componentOf file ≠ .error .nullInPath := by decide +kernel
  rcases flat_paths_plain users hplain with ⟨forest, hc, hflat, hstatic, -, -⟩ | ⟨-, file, hfile, hnull⟩
  · refine ⟨hplain, forest, hc, hflat.trans (.of_eq ?_), hstatic.trans (.of_eq ?_)⟩
    · decide +kernel
    · decide +kernel
  · exact absurd hnull (hreadable file hfile)

end Listing

end PageRouting
