import PageRouting.Proofs.ClosedForm
import PageRouting.Proofs.Leading
import PageRouting.Proofs.Settling

/-!
# `PageRouting/Proofs/SingleSlashes.lean` — paths without slashes in a row

The walk over a forest puts a slash behind every pattern with children, whatever the pattern is. The patterns of a compiled
forest hold no slash but the one in front at the top level, so two slashes can come together in one way only: behind a pattern
that is empty, or behind the bare slash. Such a pattern belongs to the page of a directory, or its key was nothing but question
marks.

That does no harm while there is nothing below it but pages with the empty pattern again, whose path takes the slash back. Nor
does it below the bare slash, as long as there are only leaves, for a leaf mends the slashes in front of it. Where neither is so
the slashes stay: `index.vue` beside `index/about/team.vue` gives the path `//about/team` (`double_slash_below_index`). In all
other listings no path has slashes in a row, whatever the keys are and however names collide (`single_slashes`).
-/

set_option autoImplicit false

namespace PageRouting

/-! ## Patterns that can be put behind a slash -/

namespace Flat

/--
A pattern below the top level: it holds no slash, and if it is empty there is nothing below it but pages with the empty
pattern.
-/
structure IsPiece (route : Route) : Prop where
  slash_not_mem : '/' ∉ route.path
  below_empty : route.path = [] → ∀ child ∈ route.children, child.path = [] ∧ child.children = []

/--
A pattern at the top level: it holds the slash in front only. If it is nothing else there are only leaves below it, and
otherwise whatever can be put behind a slash.
-/
structure IsTopPiece (route : Route) : Prop where
  slash_front : ∃ rest, route.path = '/' :: rest ∧ '/' ∉ rest
  below_slash : route.path = ['/'] → ∀ child ∈ route.children, '/' ∉ child.path ∧ child.children = []
  below_text : route.path ≠ ['/'] → ∀ node ∈ Forest.nodes route.children, IsPiece node

variable {lead path : Text} {accepts : Route → Bool} {route : Route}

theorem hasNoRun_leafPath (hlead : Text.HasNoRun '/' lead) (hpath : '/' ∉ path) : Text.HasNoRun '/' (leafPath lead path) := by
  unfold leafPath
  split
  · exact List.IsChain.prefix hlead (List.dropLast_prefix lead)
  · exact hlead.append_of_not_mem hpath

/-- A text in front of patterns that is never mended, and need not be. -/
structure IsClear (lead : Text) : Prop where
  isLead : IsLead lead
  not_onlySlashes : ¬ OnlySlashes lead
  hasNoRun : Text.HasNoRun '/' lead

theorem IsClear.ne_nil (h : IsClear lead) : lead ≠ [] := by
  rintro rfl
  exact h.not_onlySlashes (by simp [OnlySlashes])

theorem IsClear.reduceSlashes_eq (h : IsClear lead) : reduceSlashes lead = lead :=
  h.isLead.reduceSlashes_of_not h.not_onlySlashes

/-- What is in front of the children of a pattern with text in it. -/
theorem isClear_below {front path : Text} (hfront : Text.HasNoRun '/' front) (hne : path ≠ []) (hpath : '/' ∉ path) :
    IsClear (front ++ path ++ ['/']) := by
  obtain ⟨c, hc⟩ := List.exists_mem_of_ne_nil _ hne
  refine ⟨isLead_below front path, fun hs => hpath (hs c (by simp [hc]) ▸ hc), ?_⟩
  have hlast : (front ++ path).getLast? ≠ some '/' := by
    rw [List.getLast?_append_of_ne_nil _ hne]
    exact fun hl => hpath (List.mem_of_getLast? hl)
  exact Text.hasNoRun_append.mpr ⟨hfront.append_of_not_mem hpath, .singleton _, fun ⟨hl, _⟩ => hlast hl⟩

/-- Leaves have one text in front of them all, mended. -/
theorem exists_leaf_of_mem_ofSiblings {leaves : Forest} (h : IsLead lead) (hleaves : ∀ leaf ∈ leaves, leaf.children = [])
    (hm : path ∈ ofSiblings accepts lead leaves) : ∃ leaf ∈ leaves, path = leafPath (reduceSlashes lead) leaf.path := by
  induction leaves generalizing lead with
  | nil => cases hm
  | cons first others ih =>
    rw [ofSiblings] at hm
    rcases List.mem_append.mp hm with hm | hm
    · rcases cases_of_mem_ofRoute hm with ⟨-, rfl⟩ | ⟨hbranch, -⟩
      · exact ⟨first, List.mem_cons_self, rfl⟩
      · exact absurd (hleaves first List.mem_cons_self) hbranch
    · obtain ⟨leaf, hleaf, rfl⟩ := ih (h.leadAfter accepts first) (fun leaf hl => hleaves leaf (List.mem_cons_of_mem _ hl)) hm
      have hmended : reduceSlashes (leadAfter accepts lead first) = reduceSlashes lead := reduceSlashes_foldl h accepts [first]
      exact ⟨leaf, List.mem_cons_of_mem _ hleaf, by rw [hmended]⟩

/-- Below the top level slashes are never in a row. -/
theorem hasNoRun_ofSiblings {forest : Forest} (h : IsClear lead) (hnodes : ∀ node ∈ forest.nodes, IsPiece node) :
    ∀ path ∈ ofSiblings accepts lead forest, Text.HasNoRun '/' path := by
  induction forest using Forest.induct generalizing lead with
  | nil =>
    intro path hm
    cases hm
  | cons route siblings below ih =>
    intro path hm
    have hnode := fun node hn => hnodes node (Forest.mem_nodes_cons.mpr hn)
    have hroute := hnode route (.inl rfl)
    rw [ofSiblings, leadAfter, h.reduceSlashes_eq, ite_self] at hm
    rcases List.mem_append.mp hm with hm | hm
    · rcases cases_of_mem_ofRoute hm with ⟨-, rfl⟩ | ⟨-, ⟨hnil, -⟩ | hm⟩
      · rw [h.reduceSlashes_eq]
        exact hasNoRun_leafPath h.hasNoRun hroute.slash_not_mem
      · exact absurd hnil h.ne_nil
      · by_cases hempty : route.path = []
        · -- two slashes are in front of the pages below, and each page takes one back
          have hchildren := hroute.below_empty hempty
          obtain ⟨leaf, hleaf, rfl⟩ := exists_leaf_of_mem_ofSiblings (isLead_below _ _) (fun leaf hl => (hchildren leaf hl).2) hm
          have honly : ¬ OnlySlashes (lead ++ route.path ++ ['/']) := fun hs =>
            h.not_onlySlashes (onlySlashes_append.mp (onlySlashes_append.mp hs).1).1
          rw [(isLead_below _ _).reduceSlashes_of_not honly, (hchildren leaf hleaf).1, hempty, List.append_nil]
          simpa [leafPath] using h.hasNoRun
        · have hclear := isClear_below h.hasNoRun hempty hroute.slash_not_mem
          exact below hclear (fun node hn => hnode node (.inr (.inl hn))) path hm
    · exact ih h (fun node hn => hnode node (.inr (.inr hn))) path hm

/-- **Slashes are never in a row** in the paths of a forest whose patterns can be put behind slashes. -/
theorem hasNoRun_ofSiblings_top {forest : Forest} (hforest : ∀ route ∈ forest, IsTopPiece route) :
    ∀ path ∈ ofSiblings accepts [] forest, Text.HasNoRun '/' path := by
  induction forest with
  | nil =>
    intro path hm
    cases hm
  | cons route siblings ih =>
    intro path hm
    obtain ⟨⟨rest, hpath, hrest⟩, hslash, htext⟩ := hforest route List.mem_cons_self
    have hnil : leadAfter accepts [] route = [] := ite_self _
    rw [ofSiblings, hnil] at hm
    rcases List.mem_append.mp hm with hm | hm
    · have hone : Text.HasNoRun '/' ['/'] := .singleton _
      rcases cases_of_mem_ofRoute hm with ⟨-, rfl⟩ | ⟨-, ⟨-, -, rfl⟩ | hm⟩
      · -- in front of the top level there is nothing, so the path is the pattern
        rw [hpath]
        exact hone.append_of_not_mem hrest
      · exact hone
      · by_cases hbare : route.path = ['/']
        · have hleaves := hslash hbare
          obtain ⟨leaf, hleaf, rfl⟩ := exists_leaf_of_mem_ofSiblings (isLead_below _ _) (fun leaf hl => (hleaves leaf hl).2) hm
          rw [hbare]
          exact hasNoRun_leafPath hone (hleaves leaf hleaf).1
        · have hne : rest ≠ [] := fun hr => hbare (hr ▸ hpath)
          have hclear := isClear_below hone hne hrest
          refine hasNoRun_ofSiblings ?_ (htext hbare) path hm
          rwa [hpath]
    · exact ih (fun route hr => hforest route (List.mem_cons_of_mem _ hr)) path hm

end Flat

/-! ## Patterns of a compiled forest -/

namespace Collapse

/-- Whatever the index routes of a level have to say, a single token loses nothing but question marks. -/
theorem exists_requireAll_singleton (indexes : List IndexName) (parts : List Text) (token : Text) :
    ∃ rest, requireAll indexes parts [token] = [rest] ∧ rest.Sublist token ∧ ∀ c ∈ token, c ≠ '?' → c ∈ rest := by
  unfold requireAll
  split
  · exact ⟨token, rfl, .refl _, fun c hc _ => hc⟩
  · next anchor hanchor =>
    clear hanchor
    induction indexes generalizing token with
    | nil => exact ⟨token, rfl, .refl _, fun c hc _ => hc⟩
    | cons first others ih =>
      rw [List.foldl_cons, requireAt_singleton]
      obtain ⟨rest, hrest, hsub, hmem⟩ := ih (if first.position ≤ anchor then token.erase '?' else token)
      refine ⟨rest, hrest, hsub.trans ?_, fun c hc hq => hmem c ?_ hq⟩
      · split
        · exact List.erase_sublist
        · exact .refl _
      · split
        · exact (List.mem_erase_of_ne hq).mpr hc
        · exact hc

/-- So a token with anything but question marks in it stays a token, behind a slash or not. -/
theorem exists_newPath_token (indexes : List IndexName) (isChild : Bool) (name : Option Text) {token : Text}
    (ht : '/' ∉ token) (hq : ∃ c ∈ token, c ≠ '?') :
    ∃ rest, newPath indexes isChild name ('/' :: token) = (if isChild then [] else ['/']) ++ rest ∧ '/' ∉ rest ∧ rest ≠ [] := by
  obtain ⟨c, hc, hne⟩ := hq
  have hsplit : Text.split '/' token = [token] := Text.split_of_not_mem _ _ ht
  obtain ⟨rest, hrest, hsub, hmem⟩ := exists_requireAll_singleton indexes (nameParts name) token
  by_cases hmark : '?' ∈ token
  · refine ⟨rest, ?_, fun hs => ht (hsub.subset hs), List.ne_nil_of_mem (hmem c hc hne)⟩
    cases isChild <;> simp [newPath, resolveOptional, hmark, Text.split, hsplit, hrest, Text.join]
  · refine ⟨token, ?_, ht, List.ne_nil_of_mem hc⟩
    cases isChild <;> simp [newPath, hmark]

end Collapse

/-- A key with anything but question marks in it gives a token with anything but question marks in it. -/
theorem Segment.exists_mem_text {segment : Segment} (h : ∃ c ∈ segment.key, c ≠ '?') : ∃ c ∈ segment.token.text, c ≠ '?' := by
  cases segment with
  | static key => exact h
  | index => exact ⟨'i', by decide, by decide⟩
  | param name => exact ⟨':', by simp [token, Token.text], by decide⟩
  | catchAll => exact ⟨'*', by decide, by decide⟩

namespace PageEntry

/-- Is the entry the page of a directory? -/
def IsIndex (entry : PageEntry) : Prop :=
  entry.segments.getLast? = some .index

/-- Can every key of the entry stand between slashes, whatever the collapse takes from it? -/
def HasSolidKeys (entry : PageEntry) : Prop :=
  ∀ segment ∈ entry.segments, '/' ∉ segment.key ∧ ∃ c ∈ segment.key, c ≠ '?'

end PageEntry

namespace Trie

variable {entries : List PageEntry} {place : List Text} {siblings : Forest}

/-- Is nothing below the name of a directory's page, but for pages right below that of the top directory? -/
def IndexesStandAlone (entries : List PageEntry) : Prop :=
  ∀ index ∈ entries, index.IsIndex → ∀ entry ∈ entries, index.labels <+: entry.labels → entry.labels = index.labels ∨
    (index.labels.length = 1 ∧ entry.labels.length = 2 ∧ ∀ other ∈ entries, other.labels = entry.labels → other = entry)

/-- A settled pattern is text behind a slash, or without it below the top level. There is no text only at a directory's page. -/
theorem exists_path_settled (hkeys : ∀ e ∈ entries, e.HasSolidKeys) {label : Text}
    (hr : (plan entries).reaches (place ++ [label])) (children : Forest) :
    ∃ rest, ((settled entries).node (place ++ [label]) children).path = (if place = [] then ['/'] else []) ++ rest ∧
      '/' ∉ rest ∧ (rest = [] → ∃ index ∈ entries, index.IsIndex ∧ index.labels = place ++ [label]) := by
  obtain ⟨entry, hm, done, segment, behind, hsegments, hlabels, hpath⟩ := exists_passing hr children
  have hslash : (if decide (place ≠ []) then [] else ['/']) = if place = [] then ['/'] else ([] : Text) := by
    cases place <;> simp
  simp only [settled, List.dropLast_concat, hpath]
  unfold Segment.contribution
  split
  · next hindex =>
    obtain ⟨rfl, hend⟩ := hindex
    obtain rfl := of_decide_eq_true hend
    refine ⟨[], ?_, by simp, fun _ => ⟨entry, hm, ?_, ?_⟩⟩
    · cases place <;> simp [Collapse.newPath]
    · rw [PageEntry.IsIndex, hsegments, List.getLast?_concat]
    · rw [PageEntry.labels, hsegments, hlabels]
  · obtain ⟨hkey, htext⟩ := hkeys entry hm segment (by simp [hsegments])
    obtain ⟨rest, hnew, hrest, hne⟩ := Collapse.exists_newPath_token (indexesBelow entries place) (decide (place ≠ []))
      (some (routeName (place ++ [label]))) (Segment.slash_not_mem_text hkey) (Segment.exists_mem_text htext)
    exact ⟨rest, by rw [hnew, hslash], hrest, fun hnil => absurd hnil hne⟩

/-- What stands among the children of a place: a place that a step leads to, or a page with the empty pattern. -/
theorem cases_of_mem_built (hentries : ∀ e ∈ entries, e.IsLabelled) (h : (settled entries).Built place siblings) {route : Route}
    (hm : route ∈ siblings) :
    (∃ label children, (plan entries).reaches (place ++ [label]) ∧ (settled entries).Built (place ++ [label]) children ∧
        route = (settled entries).node (place ++ [label]) children) ∨
      (place ≠ [] ∧ route.path = [] ∧ route.children = []) := by
  obtain ⟨steps, nodup, mem, below, perm⟩ := h
  rcases List.mem_append.mp (perm.mem_iff.mp hm) with hm | hm
  · obtain ⟨step, hs, rfl⟩ := List.mem_map.mp hm
    exact .inl ⟨step.1, step.2, (mem step.1).mp (List.mem_map_of_mem hs), below step hs, rfl⟩
  · obtain ⟨guest, hguest, rfl⟩ := List.mem_map.mp hm
    obtain ⟨hne, -, -, hpath⟩ := reaches_of_mem_guests hentries hguest
    exact .inr ⟨hne, hpath, (keepsChildren_plan entries).guests place guest hguest⟩

theorem guests_settled_eq_nil (hnodup : entries.Nodup)
    (hone : ∀ a ∈ entries, ∀ b ∈ entries, a.labels = place → b.labels = place → a = b) : (settled entries).guests place = [] := by
  have hends : (endingAt entries place).tail = [] := by
    have hends : (endingAt entries place).Nodup := hnodup.filter _
    have hmem : ∀ e ∈ endingAt entries place, e ∈ entries ∧ e.labels = place := fun e he => by
      simpa [endingAt] using he
    generalize endingAt entries place = ending at hends hmem
    rcases ending with _ | ⟨first, _ | ⟨second, others⟩⟩
    · rfl
    · rfl
    · obtain ⟨hfirst, hfirst'⟩ := hmem first (by simp)
      obtain ⟨hsecond, hsecond'⟩ := hmem second (by simp)
      exact absurd (hone first hfirst second hsecond hfirst' hsecond') (by simp_all)
  simp only [settled, plan, hends, List.map_nil]

/-- If something is below the page of a directory after all, it is right below that of the top directory. -/
theorem IndexesStandAlone.below (hstand : IndexesStandAlone entries) {index entry : PageEntry} (hi : index ∈ entries)
    (hindex : index.IsIndex) (he : entry ∈ entries) {label : Text} (hp : index.labels ++ [label] <+: entry.labels) :
    index.labels.length = 1 ∧ entry.labels = index.labels ++ [label] ∧
      ∀ other ∈ entries, other.labels = entry.labels → other = entry := by
  have hlonger : entry.labels ≠ index.labels := by
    intro hsame
    rw [hsame] at hp
    exact absurd hp.length_le (by simp)
  obtain ⟨hone, htwo, halone⟩ := (hstand index hi hindex entry he ((List.prefix_append _ _).trans hp)).resolve_left hlonger
  exact ⟨hone, (hp.eq_of_length (by simp [hone, htwo])).symm, halone⟩

/-- Below the top level every pattern can be put behind a slash. -/
theorem isPiece_of_built (hentries : ∀ e ∈ entries, e.IsLabelled) (hkeys : ∀ e ∈ entries, e.HasSolidKeys)
    (hstand : IndexesStandAlone entries) (hne : place ≠ []) (h : (settled entries).Built place siblings) :
    ∀ node ∈ Forest.nodes siblings, Flat.IsPiece node := by
  induction siblings using Forest.levelInduct generalizing place with
  | level siblings below =>
    intro node hm
    obtain ⟨route, hroute, hnode⟩ := Forest.exists_of_mem_nodes hm
    rcases cases_of_mem_built hentries h hroute with ⟨label, children, hr, hbuilt, rfl⟩ | ⟨-, hpath, hchildren⟩
    · rcases hnode with rfl | hnode
      · obtain ⟨rest, hpath, hrest, hindex⟩ := exists_path_settled hkeys hr children
        rw [if_neg hne, List.nil_append] at hpath
        refine ⟨hpath ▸ hrest, fun hempty child hchild => ?_⟩
        obtain ⟨index, hi, hisIndex, hlabels⟩ := hindex (hpath ▸ hempty)
        rcases cases_of_mem_built hentries hbuilt hchild with ⟨next, _, ⟨entry, he, hp⟩, -, -⟩ | ⟨-, hguest⟩
        · rw [← hlabels] at hp
          have hone := (hstand.below hi hisIndex he hp).1
          rw [hlabels, List.length_append, List.length_singleton] at hone
          exact absurd (List.eq_nil_of_length_eq_zero (Nat.succ.inj hone)) hne
        · exact hguest
      · exact below _ hroute (by simp) hbuilt node hnode
    · rcases hnode with rfl | hnode
      · refine ⟨by simp [hpath], fun _ child hchild => ?_⟩
        rw [hchildren] at hchild
        cases hchild
      · rw [hchildren] at hnode
        cases hnode

/-- Every pattern at the top level stands in front of what it may. -/
theorem isTopPiece_of_built (hentries : ∀ e ∈ entries, e.IsLabelled) (hnodup : entries.Nodup)
    (hkeys : ∀ e ∈ entries, e.HasSolidKeys) (hstand : IndexesStandAlone entries) (h : (settled entries).Built [] siblings) :
    ∀ route ∈ siblings, Flat.IsTopPiece route := by
  intro route hroute
  obtain ⟨label, children, hr, hbuilt, rfl⟩ :=
    (cases_of_mem_built hentries h hroute).resolve_right fun hguest => hguest.1 rfl
  obtain ⟨rest, hpath, hrest, hindex⟩ := exists_path_settled hkeys hr children
  refine ⟨⟨rest, hpath, hrest⟩, fun hslash child hchild => ?_, fun _ => isPiece_of_built hentries hkeys hstand (by simp) hbuilt⟩
  have hnil : rest = [] := by
    rw [hpath] at hslash
    simpa using hslash
  obtain ⟨index, hi, hisIndex, hlabels⟩ := hindex hnil
  rcases cases_of_mem_built hentries hbuilt hchild with ⟨next, below, hnext, hbelow, rfl⟩ | ⟨-, hempty, hleaf⟩
  · obtain ⟨rest, hpath, hrest, -⟩ := exists_path_settled hkeys hnext below
    rw [if_neg (by simp), List.nil_append] at hpath
    refine ⟨hpath ▸ hrest, ?_⟩
    -- a page with this name is the only one, and none is below it
    have hends : ∀ entry ∈ entries, [] ++ [label] ++ [next] <+: entry.labels → entry.labels = [] ++ [label] ++ [next] ∧
        ∀ other ∈ entries, other.labels = entry.labels → other = entry := by
      intro entry he hp
      rw [← hlabels] at hp ⊢
      exact (hstand.below hi hisIndex he hp).2
    refine hbelow.eq_nil (fun last ⟨entry, he, hp⟩ => ?_) (guests_settled_eq_nil hnodup fun a ha b hb hla hlb => ?_)
    · have hlabels := (hends entry he ((List.prefix_append _ _).trans hp)).1
      rw [hlabels] at hp
      exact absurd hp.length_le (by simp)
    · exact (hends b hb (hlb ▸ List.prefix_refl _)).2 a ha (hla.trans hlb.symm)
  · exact ⟨by simp [hempty], hleaf⟩

end Trie

namespace Listing

variable (listing : Listing)

/--
Is nothing below the name of a directory's page? Only right below the page of the top directory there may be pages, each with
its name to itself.
-/
def IndexesStandAlone : Prop :=
  ∀ index ∈ listing.files, (listing.keysOf index).getLast? = some Segment.indexKey →
    ∀ file ∈ listing.files, listing.layout.labels index <+: listing.layout.labels file →
      listing.layout.labels file = listing.layout.labels index ∨
        ((listing.layout.labels index).length = 1 ∧ (listing.layout.labels file).length = 2 ∧
          ∀ other ∈ listing.files, listing.layout.labels other = listing.layout.labels file → other = file)

instance : Decidable listing.IndexesStandAlone :=
  inferInstanceAs (Decidable (∀ index ∈ listing.files, (listing.keysOf index).getLast? = some Segment.indexKey →
    ∀ file ∈ listing.files, listing.layout.labels index <+: listing.layout.labels file →
      listing.layout.labels file = listing.layout.labels index ∨
        ((listing.layout.labels index).length = 1 ∧ (listing.layout.labels file).length = 2 ∧
          ∀ other ∈ listing.files, listing.layout.labels other = listing.layout.labels file → other = file)))

variable {listing} {entries : List PageEntry}

theorem hasSolidKeys_of_entries (hkeys : ∀ file ∈ listing.files, ∀ key ∈ listing.keysOf file, ∃ c ∈ key, c ≠ '?')
    (he : Compilation.entries listing.layout listing.files = .ok entries) : ∀ entry ∈ entries, entry.HasSolidKeys := by
  intro entry hm segment hsegment
  obtain ⟨file, hfile, hread⟩ := (Compilation.mem_entries_iff he).mp hm
  rw [segments_of_ofFile hread] at hsegment
  obtain ⟨key, hk, rfl⟩ := List.mem_map.mp hsegment
  rw [Segment.key_ofKey]
  exact ⟨slash_not_mem_of_mem_keysOf hk, hkeys file hfile key hk⟩

theorem IndexesStandAlone.of_entries (h : listing.IndexesStandAlone)
    (he : Compilation.entries listing.layout listing.files = .ok entries) : Trie.IndexesStandAlone entries := by
  intro index hi hindex entry hm hp
  obtain ⟨file, hfile, hread⟩ := (Compilation.mem_entries_iff he).mp hi
  obtain ⟨file', hfile', hread'⟩ := (Compilation.mem_entries_iff he).mp hm
  have hlast : (listing.keysOf file).getLast? = some Segment.indexKey := by
    rw [PageEntry.IsIndex, segments_of_ofFile hread, List.getLast?_map, Option.map_eq_some_iff] at hindex
    obtain ⟨key, hk, hsegment⟩ := hindex
    rw [hk, ← Segment.key_ofKey key, hsegment]
    rfl
  rw [PageEntry.labels_of_ofFile hread, PageEntry.labels_of_ofFile hread'] at hp ⊢
  refine (h file hfile hlast file' hfile' hp).imp_right fun ⟨hone, htwo, halone⟩ => ⟨hone, htwo, fun other ho hlabels => ?_⟩
  obtain ⟨third, hthird, hread''⟩ := (Compilation.mem_entries_iff he).mp ho
  rw [PageEntry.labels_of_ofFile hread''] at hlabels
  obtain rfl := halone third hthird hlabels
  exact Except.ok.inj (hread''.symm.trans hread')

/--
**No path has two slashes in a row**, if no key consists of question marks and nothing but pages right below the top one is
below the name of a directory's page. This is so whatever routes a filter passes over.
-/
theorem single_slashes (listing : Listing) (hkeys : ∀ file ∈ listing.files, ∀ key ∈ listing.keysOf file, ∃ c ∈ key, c ≠ '?')
    (hindex : listing.IndexesStandAlone) (forest : Forest)
    (h : (compile listing.layout listing.files).result = .ok forest) (accepts : Route → Bool) :
    ∀ path ∈ forest.flatPathsWhere accepts [], Text.HasNoRun '/' path := by
  obtain ⟨entries, he, hentries, -, hbuilt⟩ := Trie.built_of_compile h
  have hnodup : entries.Nodup :=
    .of_map PageEntry.file ((Compilation.files_of_entries he).nodup_iff.mpr (Text.distinct_nodup _))
  exact Flat.hasNoRun_ofSiblings_top
    (Trie.isTopPiece_of_built hentries hnodup (hasSolidKeys_of_entries hkeys he) (hindex.of_entries he) hbuilt)

/-- The page of the top directory with a page two steps below its name. No key is empty, and a path begins with two slashes. -/
theorem double_slash_below_index :
    let listing : Listing :=
      ⟨⟨"/srv/app".toList, Layout.defaultPagesDir, Layout.defaultExtensions, .posix⟩,
        ["pages/index.vue".toList, "pages/index/about/team.vue".toList]⟩
    ¬ ((∀ file ∈ listing.files, ∀ key ∈ listing.keysOf file, key ≠ []) →
      ∀ forest, (compile listing.layout listing.files).result = .ok forest →
        ∀ path ∈ forest.flatPaths, Text.HasNoRun '/' path) := by
  intro listing hclaim
  have hflat : (compile listing.layout listing.files).result.map Forest.flatPaths =
      .ok ["/".toList, "//about/team".toList] := by decide +kernel
  cases hc : (compile listing.layout listing.files).result with
  | error fault =>
    rw [hc] at hflat
    cases hflat
  | ok forest =>
    rw [hc] at hflat
    have hpath : "//about/team".toList ∈ forest.flatPaths := by
      rw [Except.ok.inj hflat]
      simp
    exact absurd (hclaim (by decide +kernel) forest hc _ hpath) (by decide +kernel)

/-- Pages below the name of the top one, two pages of one directory, and a key that loses a question mark. -/
theorem single_slashes_busy :
    let listing : Listing :=
      ⟨⟨"/srv/app".toList, Layout.defaultPagesDir, Layout.defaultExtensions, .posix⟩,
        ["pages/index.vue".toList, "pages/index/about.vue".toList, "pages/users/index.vue".toList,
          "pages/users/index.js".toList, "pages//users/a?/team.vue".toList]⟩
    ∃ forest, (compile listing.layout listing.files).result = .ok forest ∧
      ∀ path ∈ forest.flatPathsWhere (fun _ => true) [], Text.HasNoRun '/' path := by
  intro listing
  have hmarks : ∀ file ∈ listing.files, ∀ key ∈ listing.keysOf file, key.any (· ≠ '?') := by decide +kernel
  have hkeys : ∀ file ∈ listing.files, ∀ key ∈ listing.keysOf file, ∃ c ∈ key, c ≠ '?' := fun file hm key hk => by
    simpa using List.any_eq_true.mp (hmarks file hm key hk)
  have hindex : listing.IndexesStandAlone := by decide +kernel
  have hok : (compile listing.layout listing.files).result.isOk := by decide +kernel
  cases hc : (compile listing.layout listing.files).result with
  | error fault =>
    rw [hc] at hok
    cases hok
  | ok forest => exact ⟨forest, rfl, single_slashes listing hkeys hindex forest hc fun _ => true⟩

end Listing

end PageRouting
