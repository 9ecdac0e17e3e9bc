import PageRouting.Proofs.Dating
import PageRouting.Proofs.Keys

/-!
# `PageRouting/Proofs/Mounting.lean` — the pattern under which a page is mounted

A router matches a page against the patterns on the way from the top level down to its route. The routes on this way are
found by name, and a route keeps the pattern that the first page gave it, whatever pages come later. So the page is mounted
under what the first entries through its places contribute (`Trie.mountedPattern`), which need not be what its own segments
say: `_x` and `x` have one name, and `x` comes second.

The way is followed from the moment at which the page is placed to the end of the run. It stays the way with the same dates
(`Leads.place`), there is no other (`Leads.unique`), and no pattern on it changes.
-/

set_option autoImplicit false

namespace PageRouting

namespace Dated

variable {siblings way : List Dated} {dated : Dated}

/-- Is this a way down from the siblings, each route on it among the children of the one before? -/
inductive Leads : List Dated → List Dated → Prop
  | last {siblings : List Dated} {dated : Dated} (mem : dated ∈ siblings) : Leads siblings [dated]
  | more {siblings way : List Dated} {dated : Dated} (mem : dated ∈ siblings) (below : Leads dated.children way) :
      Leads siblings (dated :: way)

theorem Leads.ne_nil (h : Leads siblings way) : way ≠ [] := by
  cases h <;> simp

/-! ## The way to a page that is placed -/

theorem mem_attach_self (siblings : List Dated) (dated : Dated) : dated ∈ attach siblings dated :=
  (attach_perm siblings dated).mem_iff.mpr List.mem_cons_self

theorem mem_replaceFirst_self {name : Text} (other : Dated) (found : named? name siblings = some dated) :
    other ∈ replaceFirst name other siblings := by
  obtain ⟨before, after, -, -, hreplace⟩ := split_of_named? found
  rw [hreplace]
  simp

theorem leads_way_attachPage (now : Nat) (entry : PageEntry) (name path : Text) (siblings : List Dated) :
    Leads (attachPage now entry name path siblings).forest (attachPage now entry name path siblings).way :=
  .last (mem_attach_self _ _)

theorem leads_way_place (now : Nat) (entry : PageEntry) (segments : List Segment) (position : Nat) (name : Text)
    (siblings : List Dated) :
    Leads (place now entry segments position name siblings).forest (place now entry segments position name siblings).way := by
  fun_induction place now entry segments position name siblings with
  | case1 => exact leads_way_attachPage ..
  | case2 _ _ _ _ _ dated found =>
    unfold placeAt
    split
    · exact .last (mem_replaceFirst_self _ found)
    · exact .more (mem_replaceFirst_self _ found) (leads_way_attachPage ..)
  | case3 => exact leads_way_attachPage ..
  | case4 _ _ _ _ _ _ _ dated found ih => exact .more (mem_replaceFirst_self _ found) ih
  | case5 _ _ _ _ _ _ _ _ ih => exact .more (mem_attach_self _ _) ih

/-! ## A way stays, with its dates and patterns -/

theorem Leads.attach (h : Leads siblings way) (dated : Dated) : Leads (attach siblings dated) way := by
  have hsub : ∀ sibling ∈ siblings, sibling ∈ Dated.attach siblings dated := fun sibling hm =>
    (attach_perm siblings dated).mem_iff.mpr (List.mem_cons_of_mem _ hm)
  cases h with
  | last mem => exact .last (hsub _ mem)
  | more mem below => exact .more (hsub _ mem) below

theorem Leads.replaceFirst {name : Text} {other : Dated} (h : Leads siblings way)
    (found : named? name siblings = some dated) (hstamp : other.stamp = dated.stamp)
    (hbelow : ∀ {way}, Leads dated.children way → ∃ way', Leads other.children way' ∧ way'.map stamp = way.map stamp) :
    ∃ way', Leads (replaceFirst name other siblings) way' ∧ way'.map stamp = way.map stamp := by
  have hmem := mem_replaceFirst_self other found
  -- a way through the replaced route goes through the other one now, any other way is as it was
  have hrest : ∀ sibling ∈ siblings, sibling = dated ∨ sibling ∈ Dated.replaceFirst name other siblings := by
    obtain ⟨before, after, rfl, -, hreplace⟩ := split_of_named? found
    intro sibling hm
    rw [hreplace]
    simp only [List.mem_append, List.mem_cons] at hm ⊢
    rcases hm with hm | hm | hm
    · exact .inr (.inl hm)
    · exact .inl hm
    · exact .inr (.inr (.inr hm))
  cases h with
  | last mem =>
    rcases hrest _ mem with rfl | hm
    · exact ⟨[other], .last hmem, by rw [List.map_singleton, List.map_singleton, hstamp]⟩
    · exact ⟨_, .last hm, rfl⟩
  | more mem below =>
    rcases hrest _ mem with rfl | hm
    · obtain ⟨way', hway, hs⟩ := hbelow below
      exact ⟨other :: way', .more hmem hway, by rw [List.map_cons, List.map_cons, hstamp, hs]⟩
    · exact ⟨_, .more hm below, rfl⟩

/-- **A way stays**: after another page has been placed there is one with the same dates and patterns. -/
theorem Leads.place (h : Leads siblings way) (now : Nat) (entry : PageEntry) (segments : List Segment) (position : Nat)
    (name : Text) :
    ∃ way', Leads (place now entry segments position name siblings).forest way' ∧ way'.map stamp = way.map stamp := by
  fun_induction Dated.place now entry segments position name siblings generalizing way with
  | case1 => exact ⟨way, h.attach _, rfl⟩
  | case2 =>
    rename_i dated found
    unfold placeAt
    split
    · exact h.replaceFirst found rfl fun hb => ⟨_, hb, rfl⟩
    · exact h.replaceFirst found rfl fun hb => ⟨_, hb.attach _, rfl⟩
  | case3 => exact ⟨way, h.attach _, rfl⟩
  | case4 =>
    rename_i dated found ih
    exact h.replaceFirst found rfl fun hb => ih hb
  | case5 => exact ⟨way, h.attach _, rfl⟩

theorem Leads.insertAll {entries : List PageEntry} (h : Leads (Dated.insertAll entries) way) (after : List PageEntry) :
    ∃ way', Leads (Dated.insertAll (entries ++ after)) way' ∧ way'.map stamp = way.map stamp := by
  induction after using List.reverseRecOn with
  | nil => exact ⟨way, by rwa [List.append_nil], rfl⟩
  | append_singleton after entry ih =>
    obtain ⟨way', hway, hs⟩ := ih
    obtain ⟨way'', hway', hs'⟩ := hway.place (entries ++ after).length entry entry.segments 0 []
    refine ⟨way'', ?_, hs'.trans hs⟩
    rw [← List.append_assoc, insertAll_append]
    exact hway'

/-! ## Dates tell routes apart -/

/-- The dates on any level are different, and all in the past. -/
structure Distinct (now : Nat) (stamps : List (Nat × Text)) : Prop where
  earlier : ∀ a ∈ stamps, a.1 < now
  nodup : (stamps.map Prod.fst).Nodup

theorem touches_distinct (now : Nat) : Touches now (fun _ => True) (fun siblings => Distinct now (siblings.map stamp))
    (fun siblings => Distinct (now + 1) (siblings.map stamp)) where
  nil := ⟨by simp, .nil⟩
  same h hs := by
    rw [hs]
    exact ⟨fun a hm => Nat.lt_succ_of_lt (h.earlier a hm), h.nodup⟩
  attach {siblings dated} h hsince _ := by
    have hperm := (attach_perm siblings dated).map stamp
    refine ⟨fun a hm => ?_, (hperm.map Prod.fst).nodup_iff.mpr (List.nodup_cons.mpr ⟨fun hm => ?_, h.nodup⟩)⟩
    · rcases List.mem_cons.mp (hperm.mem_iff.mp hm) with rfl | hm
      · exact hsince ▸ Nat.lt_succ_self _
      · exact Nat.lt_succ_of_lt (h.earlier a hm)
    · obtain ⟨a, ha, hfst⟩ := List.mem_map.mp hm
      have hlt := h.earlier a ha
      rw [hfst, ← hsince] at hlt
      exact Nat.lt_irrefl _ hlt

theorem dates_nodup (entries : List PageEntry) :
    EveryLevel children (fun siblings => (siblings.map since).Nodup) (insertAll entries) := by
  have hlevels : EveryLevel children (fun siblings => Distinct entries.length (siblings.map stamp)) (insertAll entries) :=
    everyLevel_insertAll touches_distinct trivial fun _ _ _ _ _ _ => trivial
  refine hlevels.mono fun siblings h => ?_
  have hnodup := h.nodup
  rwa [List.map_map] at hnodup

/-- **The dates on a way tell the way.** -/
theorem Leads.unique {other : List Dated} (hdates : EveryLevel children (fun siblings => (siblings.map since).Nodup) siblings)
    (h : Leads siblings way) (ho : Leads siblings other) (hs : way.map since = other.map since) : way = other := by
  have hsame : ∀ {siblings : List Dated}, (siblings.map since).Nodup → ∀ a ∈ siblings, ∀ b ∈ siblings,
      a.since = b.since → a = b := by
    intro siblings hn a ha b hb hab
    exact List.inj_on_of_nodup_map hn ha hb hab
  induction h generalizing other with
  | last mem =>
    cases ho with
    | last mem' => rw [hsame hdates.here _ mem _ mem' (List.cons.inj hs).1]
    | more mem' below' => exact absurd (List.map_eq_nil_iff.mp (List.cons.inj hs).2.symm) below'.ne_nil
  | more mem below ih =>
    cases ho with
    | last mem' => exact absurd (List.map_eq_nil_iff.mp (List.cons.inj hs).2) below.ne_nil
    | more mem' below' =>
      obtain ⟨hsince, hrest⟩ := List.cons.inj hs
      obtain rfl := hsame hdates.here _ mem _ mem' hsince
      rw [ih (hdates.descend mem) below' hrest]

end Dated

namespace Trie

variable {entries : List PageEntry} {entry : PageEntry} {place : List Text} {siblings : List Dated}

/-! ## The patterns on the way -/

/-- The pattern of the route at a place: what the first entry that reaches the place contributes there. -/
def patternAt (entries : List PageEntry) (place : List Text) : Text :=
  ((firstThrough entries place).map fun entry => entry.contributionAt (place.length - 1)).getD []

/-- The pattern under which the page of an entry is mounted, its route's pattern and those above put together. -/
def mountedPattern (entries : List PageEntry) (entry : PageEntry) : Text :=
  ((List.range entry.segments.length).map fun i => patternAt entries (entry.labels.take (i + 1))).flatten

/-- A route that the new entry finds has the pattern of its place, and the forest below it is built to plan. -/
theorem path_of_named? (entry : PageEntry) {label : Text} {dated : Dated} (h : (plan entries).Built place (Dated.routes siblings))
    (hguests : ∀ sibling ∈ (plan entries).guests place, sibling.name ≠ some (routeName (place ++ [label])))
    (found : Dated.named? (routeName (place ++ [label])) siblings = some dated) :
    dated.path = patternAt (entries ++ [entry]) (place ++ [label]) ∧
      (plan entries).Built (place ++ [label]) (Dated.routes dated.children) := by
  have hf : Forest.named? (routeName (place ++ [label])) (Dated.routes siblings) = some dated.route := by
    rw [Dated.named?_routes, found]
    rfl
  obtain ⟨children, -, hroute, hr, hbelow, -, -⟩ := Trie.found h hguests hf
  have hpath : dated.path = patternAt entries (place ++ [label]) := by
    rw [← Dated.route_path, hroute]
    rfl
  have hchildren : Dated.routes dated.children = children := by
    rw [← Dated.route_children, hroute]
    rfl
  rw [hpath, hchildren, patternAt, patternAt, firstThrough_append (.inl hr)]
  exact ⟨rfl, hbelow⟩

/-- Where it finds none, the pattern of the place is its own, and there is nothing below. -/
theorem path_of_missing {done rest : List Segment} {segment : Segment}
    (h : (plan entries).Built (done.map Segment.label) (Dated.routes siblings))
    (hs : entry.segments = done ++ segment :: rest)
    (missing : Dated.named? (routeName (done.map Segment.label ++ [segment.label])) siblings = none) :
    segment.contribution done.length (decide (rest = [])) =
        patternAt (entries ++ [entry]) (done.map Segment.label ++ [segment.label]) ∧
      (plan entries).Built (done.map Segment.label ++ [segment.label]) [] := by
  have hf : Forest.named? (routeName (done.map Segment.label ++ [segment.label])) (Dated.routes siblings) = none := by
    rw [Dated.named?_routes, missing]
    rfl
  have hlabels : done.map Segment.label ++ [segment.label] <+: entry.labels :=
    step_prefix_of_eq (PageEntry.labels_of_segments hs)
  have hr := (Trie.not_found h hf).1
  rw [patternAt, firstThrough_append_new hr hlabels, ← contributionAt_of_segments hs]
  exact ⟨by simp, built_nil hr⟩

/-- The patterns on the way to a page that is placed on a level are those of its places from there on. -/
theorem paths_place (now : Nat) (hentries : ∀ e ∈ entries, e.IsLabelled) (hentry : entry.IsLabelled)
    {done rest : List Segment} (hs : entry.segments = done ++ rest) (hrest : rest ≠ [])
    (h : (plan entries).Built (done.map Segment.label) (Dated.routes siblings)) :
    ((Dated.place now entry rest done.length (routeName (done.map Segment.label)) siblings).way.map Dated.path).flatten =
      ((List.range' done.length rest.length).map fun i =>
        patternAt (entries ++ [entry]) (entry.labels.take (i + 1))).flatten := by
  induction rest generalizing done siblings with
  | nil => exact absurd rfl hrest
  | cons segment rest ih =>
    have hl := PageEntry.labels_of_segments hs
    have hdone : (done ++ [segment]).map Segment.label = done.map Segment.label ++ [segment.label] := by
      rw [List.map_append]
      rfl
    have htake : entry.labels.take (done.length + 1) = done.map Segment.label ++ [segment.label] := by
      rw [hl, List.take_append]
      simp
    have hname : Forest.extendName (routeName (done.map Segment.label)) segment.label =
        routeName (done.map Segment.label ++ [segment.label]) := (routeName_append _ _).symm
    have hguests := guest_name_ne hentries hentry hl
    rw [List.length_cons, List.range'_succ, List.map_cons, List.flatten_cons, htake]
    cases rest with
    | nil =>
      rw [Dated.place, hname]
      split
      · next found =>
        obtain ⟨hpath, -⟩ := path_of_named? entry h hguests found
        unfold Dated.placeAt
        split
        · simp [hpath]
        · -- the page is nested below, where its pattern is empty
          simp [Dated.Placement.lift, Dated.attachPage, hpath]
      · next missing =>
        obtain ⟨hpath, -⟩ := path_of_missing h hs missing
        simp [Dated.attachPage, ← hpath]
    | cons next rest =>
      have hnext : entry.segments = (done ++ [segment]) ++ next :: rest := by
        rw [hs, List.append_assoc]
        rfl
      have below : ∀ {children : List Dated},
          (plan entries).Built (done.map Segment.label ++ [segment.label]) (Dated.routes children) →
          ((Dated.place now entry (next :: rest) (done.length + 1)
            (routeName (done.map Segment.label ++ [segment.label])) children).way.map Dated.path).flatten =
            ((List.range' (done.length + 1) (next :: rest).length).map fun i =>
              patternAt (entries ++ [entry]) (entry.labels.take (i + 1))).flatten := by
        intro children hb
        rw [← hdone] at hb
        have hplaced := ih hnext (by simp) hb
        rwa [hdone, List.length_append] at hplaced
      rw [Dated.place, hname]
      split
      · next found =>
        obtain ⟨hpath, hbelow⟩ := path_of_named? entry h hguests found
        rw [Dated.Placement.lift, List.map_cons, List.flatten_cons, below hbelow, hpath]
      · next missing =>
        obtain ⟨hpath, hbelow⟩ := path_of_missing h hs missing
        have hempty : (plan entries).Built (done.map Segment.label ++ [segment.label]) (Dated.routes []) := hbelow
        rw [Dated.Placement.lift, List.map_cons, List.flatten_cons, below hempty, ← hpath]
        rfl

/-! ## What the first entries contribute -/

variable {before after : List PageEntry}

theorem firstThrough_concat (hp : place <+: entry.labels) (after : List PageEntry) :
    firstThrough (before ++ entry :: after) place = firstThrough (before ++ [entry]) place := by
  rw [firstThrough, firstThrough, List.find?_append, List.find?_append]
  cases before.find? fun entry => place <+: entry.labels with
  | some first => rfl
  | none => simp [hp]

/-- The first entry through a place of an entry is that entry, or came before it. -/
theorem firstThrough_eq (hp : place <+: entry.labels) (before after : List PageEntry) :
    ∃ first, firstThrough (before ++ entry :: after) place = some first ∧ (first ∈ before ∨ first = entry) := by
  rw [firstThrough_concat hp, firstThrough, List.find?_append]
  cases hf : before.find? fun entry => place <+: entry.labels with
  | some first => exact ⟨first, rfl, .inl (List.mem_of_find?_eq_some hf)⟩
  | none => exact ⟨entry, by simp [hp], .inr rfl⟩

end Trie

namespace PageEntry

variable {entry other : PageEntry}

/--
Do the keys of an entry mean what those of another one mean, wherever the two have a place in common? Those of one label
have to be the same key, and if it is `index`, the page of its directory in both or in none.
-/
def AgreesWith (other entry : PageEntry) : Prop :=
  ∀ i < entry.segments.length, entry.labels.take (i + 1) <+: other.labels →
    other.segments[i]? = entry.segments[i]? ∧
      (entry.segments[i]? = some .index → (other.segments.length = i + 1 ↔ entry.segments.length = i + 1))

theorem contributionAt_eq (entry : PageEntry) (i : Nat) :
    entry.contributionAt i =
      (entry.segments[i]?.map fun segment => segment.contribution i (i + 1 = entry.segments.length)).getD [] := by
  rw [contributionAt, contributions, List.getElem?_mapIdx]

theorem AgreesWith.contributionAt_eq (h : other.AgreesWith entry) {i : Nat} (hi : i < entry.segments.length)
    (hp : entry.labels.take (i + 1) <+: other.labels) : other.contributionAt i = entry.contributionAt i := by
  obtain ⟨hsame, hrole⟩ := h i hi hp
  rw [PageEntry.contributionAt_eq, PageEntry.contributionAt_eq, hsame]
  by_cases hindex : entry.segments[i]? = some .index
  · have hlast : i + 1 = other.segments.length ↔ i + 1 = entry.segments.length := by
      constructor
      · intro hl
        exact ((hrole hindex).mp hl.symm).symm
      · intro hl
        exact ((hrole hindex).mpr hl.symm).symm
    simp only [hlast]
  · refine congrArg (Option.getD · []) (Option.map_congr fun segment hs => ?_)
    have hne : segment ≠ .index := fun he => hindex (he ▸ hs)
    rw [Segment.contribution_of_ne_index hne, Segment.contribution_of_ne_index hne]

end PageEntry

namespace Trie

/-- If none of the entries before it disagrees, an entry is mounted under what it contributes itself. -/
theorem mountedPattern_eq {before after : List PageEntry} {entry : PageEntry}
    (h : ∀ other ∈ before, other.AgreesWith entry) :
    mountedPattern (before ++ entry :: after) entry = entry.contributions.flatten := by
  refine congrArg List.flatten (List.ext_getElem (by simp [PageEntry.contributions]) fun i hi hi' => ?_)
  have hlength : i < entry.segments.length := by simpa using hi
  have hp : entry.labels.take (i + 1) <+: entry.labels := List.take_prefix _ _
  have htake : (entry.labels.take (i + 1)).length - 1 = i := by
    rw [List.length_take, PageEntry.labels, List.length_map]
    omega
  obtain ⟨first, hfirst, hm⟩ := firstThrough_eq hp before after
  have hown : first.contributionAt i = entry.contributionAt i := by
    rcases hm with hm | rfl
    · exact (h first hm).contributionAt_eq hlength (firstThrough_eq_some hfirst).2
    · rfl
  rw [List.getElem_map, List.getElem_range, patternAt, hfirst, Option.map_some, Option.getD_some, htake, hown,
    PageEntry.contributionAt, List.getElem?_eq_getElem hi', Option.getD_some]

end Trie

namespace Dated

/--
Is this the way, in the forest of all entries, to the route that the insertion of one of them gave back? Its routes have
grown since, but they have the same dates.
-/
structure LeadsTo (before : List PageEntry) (entry : PageEntry) (after : List PageEntry) (way : List Dated) : Prop where
  leads : Leads (insertAll (before ++ entry :: after)) way
  dates : way.map since = (insert before.length entry (insertAll before)).way.map since

variable {before after : List PageEntry} {entry : PageEntry} {way : List Dated}

theorem LeadsTo.unique {other : List Dated} (h : LeadsTo before entry after way) (ho : LeadsTo before entry after other) :
    other = way :=
  ho.leads.unique (dates_nodup _) h.leads (ho.dates.trans h.dates.symm)

/-- There is such a way, and its patterns are those that it had when the page was placed. -/
theorem exists_leadsTo (before : List PageEntry) (entry : PageEntry) (after : List PageEntry) :
    ∃ way, LeadsTo before entry after way ∧
      way.map path = (insert before.length entry (insertAll before)).way.map path := by
  have hplaced := leads_way_place before.length entry entry.segments 0 [] (insertAll before)
  have hthen : Leads (insertAll (before ++ [entry])) (insert before.length entry (insertAll before)).way := by
    rw [insertAll_append]
    exact hplaced
  obtain ⟨way, hway, hstamps⟩ := hthen.insertAll after
  rw [List.append_assoc, List.singleton_append] at hway
  have hfst := congrArg (List.map Prod.fst) hstamps
  have hsnd := congrArg (List.map Prod.snd) hstamps
  rw [List.map_map, List.map_map] at hfst hsnd
  exact ⟨way, ⟨hway, hfst⟩, hsnd⟩

theorem paths_leadsTo (hentries : ∀ e ∈ before, e.IsLabelled) (hentry : entry.IsLabelled)
    (h : LeadsTo before entry after way) : (way.map path).flatten = Trie.mountedPattern (before ++ entry :: after) entry := by
  -- the way is the one from the moment at which the page was placed, when only entries before it were there
  obtain ⟨way', hway', hpaths⟩ := exists_leadsTo before entry after
  obtain rfl := hway'.unique h
  have hbuilt := Trie.built_insertAll before hentries
  rw [← routes_insertAll] at hbuilt
  have hwhole : entry.segments = [] ++ entry.segments := rfl
  have hplaced := Trie.paths_place before.length hentries hentry hwhole hentry.segments_ne_nil hbuilt
  rw [hpaths, Trie.mountedPattern, List.range_eq_range']
  refine hplaced.trans (congrArg List.flatten (List.map_congr_left fun i _ => ?_))
  rw [Trie.patternAt, Trie.patternAt, Trie.firstThrough_concat (List.take_prefix _ _) after]

end Dated

namespace Compilation

/--
**Where a page is mounted.** In the forest of the entries before its collapse there is one way to the route that the
insertion of an entry gave back, and the patterns on it, put together, are what the first entries through the places of the
entry contribute there. If no entry before it disagrees with it about a key, that is what its own segments contribute.
-/
theorem page_mounted (layout : Layout) (files : List Text) (before after : List PageEntry) (entry : PageEntry)
    (he : Compilation.entries layout files = .ok (before ++ entry :: after)) :
    Dated.routes (Dated.insertAll (before ++ entry :: after)) = (build (before ++ entry :: after)).1 ∧
      (Dated.insert before.length entry (Dated.insertAll before)).way.getLast?.map Dated.route =
        some (Forest.insert entry (build before).1).node ∧
      ∃ way, Dated.LeadsTo before entry after way ∧ (∀ other, Dated.LeadsTo before entry after other → other = way) ∧
        (way.map Dated.path).flatten = Trie.mountedPattern (before ++ entry :: after) entry ∧
        ((∀ other ∈ before, other.AgreesWith entry) → (way.map Dated.path).flatten = entry.contributions.flatten) := by
  have hlabelled : ∀ e ∈ before ++ entry :: after, e.IsLabelled := by
    intro e hm
    obtain ⟨file, -, hread⟩ := (mem_entries_iff he).mp hm
    exact PageEntry.IsRead.isLabelled ⟨layout, file, hread⟩
  have hbefore : ∀ e ∈ before, e.IsLabelled := fun e hm => hlabelled e (List.mem_append_left _ hm)
  have hnode := (Dated.forgets_place before.length entry entry.segments 0 [] (Dated.insertAll before)).node
  rw [Dated.routes_insertAll] at hnode
  obtain ⟨way, hway, -⟩ := Dated.exists_leadsTo before entry after
  have hpaths := Dated.paths_leadsTo hbefore (hlabelled entry (by simp)) hway
  refine ⟨Dated.routes_insertAll _, hnode, way, hway, fun other ho => hway.unique ho, hpaths, fun hagree => ?_⟩
  rw [hpaths, Trie.mountedPattern_eq hagree]

/-- Two pages of one name. The second is not mounted under its own key, but under the parameter that came first. -/
theorem mounted_not_by_own_keys :
    let layout : Layout := ⟨"/srv/app".toList, Layout.defaultPagesDir, Layout.defaultExtensions, .posix⟩
    let first : PageEntry := ⟨"pages/_x.vue".toList, "/srv/app/pages/_x.vue".toList, some "pages/_x".toList, [.param "x".toList]⟩
    let entry : PageEntry := ⟨"pages/x.vue".toList, "/srv/app/pages/x.vue".toList, some "pages/x".toList, [.static "x".toList]⟩
    Compilation.entries layout ["pages/x.vue".toList, "pages/_x.vue".toList] = .ok ([first] ++ entry :: []) ∧
      ¬ ∀ way, Dated.LeadsTo [first] entry [] way → (way.map Dated.path).flatten = entry.contributions.flatten := by
  intro layout first entry
  refine ⟨by decide +kernel, fun hclaim => ?_⟩
  obtain ⟨way, hway, hpaths⟩ := Dated.exists_leadsTo [first] entry []
  have hown := hclaim way hway
  rw [hpaths] at hown
  exact absurd hown (by decide +kernel)

/-- A directory and a page of the same name as a parameter: each page below is mounted under the parameter. -/
theorem page_mounted_collision :
    let layout : Layout := ⟨"/srv".toList, Layout.defaultPagesDir, Layout.defaultExtensions, .posix⟩
    let first : PageEntry :=
      ⟨"pages/_x/a.vue".toList, "/srv/pages/_x/a.vue".toList, some "pages/_x/a".toList, [.param "x".toList, .static "a".toList]⟩
    let entry : PageEntry :=
      ⟨"pages/x/b.vue".toList, "/srv/pages/x/b.vue".toList, some "pages/x/b".toList, [.static "x".toList, .static "b".toList]⟩
    Compilation.entries layout ["pages/x/b.vue".toList, "pages/_x/a.vue".toList] = .ok ([first] ++ entry :: []) ∧
      ∃ way, Dated.LeadsTo [first] entry [] way ∧ (way.map Dated.path).flatten = "/:x?/b".toList := by
  intro layout first entry
  have he : Compilation.entries layout ["pages/x/b.vue".toList, "pages/_x/a.vue".toList] = .ok ([first] ++ entry :: []) := by
    decide +kernel
  obtain ⟨-, -, way, hway, -, hpath, -⟩ := page_mounted layout _ [first] [] entry he
  exact ⟨he, way, hway, hpath.trans (by decide +kernel)⟩

end Compilation

end PageRouting
