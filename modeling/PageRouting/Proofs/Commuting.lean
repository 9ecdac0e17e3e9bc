import Mathlib.Data.List.Perm.Basic
import PageRouting.Proofs.Following
import PageRouting.Proofs.Precedence
import PageRouting.Proofs.Settling

/-!
# `PageRouting/Proofs/Commuting.lean` — entries may be inserted in any order

The route of a directory is a wrapper that a page fills later in one order of insertion, and a page from the start in another. Its
pattern is that of whichever entry came by first. All the same two orders give one forest, but for siblings that tie: these
stand in the order in which they came (`Forest.insertAll_commutes`).

There are two halves to it. What the trie of labels says of each place does not depend on the order, as long as labels tell keys
apart and `index` ends the keys that it is in (`Independent.built_perm`). And two forests that are built to one plan, both with
their siblings in the order in which they are tried, differ in nothing but ties (`Plan.Built.sameUpToTies`).
-/

set_option autoImplicit false

namespace PageRouting

namespace Forest

/-! ## Forests that differ in the order of ties -/

/-- Do two forests differ in nothing but the order of siblings that tie, on whatever level? -/
inductive SameUpToTies : Forest → Forest → Prop
  | nil : SameUpToTies [] []
  | cons {a b : Route} {siblings others : Forest} (own : a.own = b.own) (below : SameUpToTies a.children b.children)
      (rest : SameUpToTies siblings others) : SameUpToTies (a :: siblings) (b :: others)
  | swap {a b : Route} {siblings : Forest} (tie : Pattern.compare a.path b.path = .eq) :
      SameUpToTies (a :: b :: siblings) (b :: a :: siblings)
  | trans {a b c : Forest} (first : SameUpToTies a b) (second : SameUpToTies b c) : SameUpToTies a c

/-- Are the siblings in the order in which they are tried, with patterns that insertion emits? -/
structure Tried (siblings : Forest) : Prop where
  emitted : ∀ route ∈ siblings, Pattern.Emitted route.path
  ordered : siblings.Pairwise fun a b => Pattern.compare a.path b.path ≠ .gt

/-- Are two routes the same but for the order of ties below them? -/
structure Matches (a b : Route) : Prop where
  own : a.own = b.own
  below : SameUpToTies a.children b.children

theorem Matches.path_eq {a b : Route} (h : Matches a b) : a.path = b.path := by
  have hpath := congrArg Route.path h.own
  exact hpath

namespace SameUpToTies

theorem refl (forest : Forest) : SameUpToTies forest forest := by
  induction forest using Forest.induct with
  | nil => exact .nil
  | cons route siblings below rest => exact .cons rfl below rest

/-- A route may be taken past others that it ties with. -/
theorem move {front back : Forest} {route : Route} (h : ∀ other ∈ front, Pattern.compare route.path other.path = .eq) :
    SameUpToTies (route :: (front ++ back)) (front ++ route :: back) := by
  induction front with
  | nil => exact refl _
  | cons other front ih =>
    have hfirst : Pattern.compare route.path other.path = .eq := h other List.mem_cons_self
    have hrest := ih fun x hx => h x (List.mem_cons_of_mem _ hx)
    exact .trans (.swap hfirst) (.cons rfl (refl other.children) hrest)

/-- Siblings that match in some order, and are in the order in which they are tried on both sides, differ in ties only. -/
theorem of_matches {siblings matching others : Forest} (hmatch : List.Forall₂ Matches siblings matching)
    (hperm : matching.Perm others) (hs : Tried siblings) (ho : Tried others) : SameUpToTies siblings others := by
  induction hmatch generalizing others with
  | nil =>
    obtain rfl := List.nil_perm.mp hperm
    exact .nil
  | @cons route other siblings matching hroute hrest ih =>
    obtain ⟨front, back, rfl⟩ := List.append_of_mem (hperm.mem_iff.mp List.mem_cons_self)
    have hcut : matching.Perm (front ++ back) := (hperm.trans List.perm_middle).cons_inv
    obtain ⟨hfirst, hsiblings⟩ := List.pairwise_cons.mp hs.ordered
    obtain ⟨hfront, hbehind, hcross⟩ := List.pairwise_append.mp ho.ordered
    -- what stands in front of the partner is behind the route on the other side, so it ties with both
    have htie : ∀ x ∈ front, Pattern.compare other.path x.path = .eq := by
      intro x hx
      have hx' : x ∈ matching := hcut.mem_iff.mpr (List.mem_append_left _ hx)
      obtain ⟨partner, hpartner, hown⟩ : ∃ partner ∈ siblings, Matches partner x := by
        obtain ⟨i, hi, rfl⟩ := List.getElem_of_mem hx'
        have hi' : i < siblings.length := hrest.length_eq ▸ hi
        exact ⟨siblings[i], List.getElem_mem hi', hrest.get hi' hi⟩
      have hle : Pattern.compare other.path x.path ≠ .gt := by
        rw [← hroute.path_eq, ← hown.path_eq]
        exact hfirst partner hpartner
      have hge : Pattern.compare x.path other.path ≠ .gt := hcross x hx other List.mem_cons_self
      have hswap := Pattern.compare_swap (ho.emitted other (by simp)) (ho.emitted x (by simp [hx]))
      cases hc : Pattern.compare other.path x.path with
      | eq => rfl
      | gt => exact absurd hc hle
      | lt =>
        rw [hc] at hswap
        exact absurd hswap hge
    have hothers : Tried (front ++ back) := by
      refine ⟨fun x hx => ho.emitted x ?_, ?_⟩
      · rcases List.mem_append.mp hx with hx | hx
        · exact List.mem_append_left _ hx
        · exact List.mem_append_right _ (List.mem_cons_of_mem _ hx)
      · exact List.pairwise_append.mpr ⟨hfront, (List.pairwise_cons.mp hbehind).2,
          fun x hx y hy => hcross x hx y (List.mem_cons_of_mem _ hy)⟩
    have hsame := ih hcut ⟨fun x hx => hs.emitted x (List.mem_cons_of_mem _ hx), hsiblings⟩ hothers
    exact .trans (.cons hroute.own hroute.below hsame) (move htie)

end SameUpToTies

end Forest

/-! ## Forests that are built to one plan -/

/-- Two lists of steps to the same places can be gone through side by side. -/
theorem exists_forall₂_of_fst {α β : Type} {xs ys : List (α × β)} (hxs : (xs.map Prod.fst).Nodup)
    (hys : (ys.map Prod.fst).Nodup) (h : ∀ a, a ∈ xs.map Prod.fst ↔ a ∈ ys.map Prod.fst) :
    ∃ zs : List (α × β), zs.Perm ys ∧ List.Forall₂ (fun x z => x ∈ xs ∧ x.1 = z.1 ∧ z ∈ ys) xs zs := by
  have hperm : (xs.map Prod.fst).Perm (ys.map Prod.fst) := (List.perm_ext_iff_of_nodup hxs hys).mpr h
  have hown : List.Forall₂ (fun a y => a = y.1 ∧ y ∈ ys) (ys.map Prod.fst) ys := by
    rw [List.forall₂_map_left_iff, List.forall₂_same]
    exact fun y hy => ⟨rfl, hy⟩
  obtain ⟨zs, hzs, hzsys⟩ := List.perm_comp_forall₂ hperm hown
  rw [List.forall₂_map_left_iff] at hzs
  exact ⟨zs, hzsys, (List.forall₂_and_left _ _).mpr ⟨fun x hx => hx, hzs⟩⟩

/-- **Forests that are built to one plan differ in ties only**, if their siblings are in the order in which they are tried. -/
theorem Plan.Built.sameUpToTies {α : Type} {plan : Plan α}
    (hchildren : ∀ place children, (plan.node place children).children = children)
    (hown : ∀ place children, (plan.node place children).own = plan.node place [])
    (hguests : ∀ place, plan.guests place = []) {place : List α} {siblings others : Forest}
    (h : plan.Built place siblings) (h' : plan.Built place others)
    (hs : EveryLevel Route.children Forest.Tried siblings) (ho : EveryLevel Route.children Forest.Tried others) :
    Forest.SameUpToTies siblings others := by
  induction h generalizing others with
  | @level place siblings steps nodup mem below perm ih =>
    obtain ⟨steps', nodup', mem', below', perm'⟩ := h'
    rw [hguests, List.append_nil] at perm perm'
    obtain ⟨partners, hpartners, hsteps⟩ := exists_forall₂_of_fst nodup nodup' fun a => (mem a).trans (mem' a).symm
    have hmatch : List.Forall₂ Forest.Matches (steps.map fun step => plan.node (place ++ [step.1]) step.2)
        (partners.map fun step => plan.node (place ++ [step.1]) step.2) := by
      rw [List.forall₂_map_left_iff, List.forall₂_map_right_iff]
      refine hsteps.imp fun step partner ⟨hstep, hsame, hpartner⟩ => ?_
      have hroute : plan.node (place ++ [step.1]) step.2 ∈ siblings := perm.mem_iff.mpr (List.mem_map_of_mem hstep)
      have hother : plan.node (place ++ [partner.1]) partner.2 ∈ others := perm'.mem_iff.mpr (List.mem_map_of_mem hpartner)
      have hbelow := hs.descend hroute
      have hbelow' := ho.descend hother
      rw [hchildren] at hbelow hbelow'
      refine ⟨?_, ?_⟩
      · rw [hown, hown, hsame]
      · rw [hchildren, hchildren]
        exact ih step hstep (hsame ▸ below' partner hpartner) hbelow hbelow'
    obtain ⟨matching, hsiblings, hmatching⟩ := List.perm_comp_forall₂ perm hmatch
    exact .of_matches hsiblings (hmatching.trans ((hpartners.map _).trans perm'.symm)) hs.here ho.here

/-! ## Entries that keep out of each other's way -/

namespace PageEntry

theorem IsRead.segments_eq {entry : PageEntry} (h : entry.IsRead) : entry.segments = entry.keys.map Segment.ofKey := by
  obtain ⟨layout, file, keys, -, hs⟩ := h.exists_keys
  have hkeys : entry.keys = keys := by simp [PageEntry.keys, hs, Function.comp_def, Segment.key_ofKey]
  rw [hs, hkeys]

theorem IsRead.labels_eq {entry : PageEntry} (h : entry.IsRead) : entry.labels = entry.keys.map keyLabel := by
  rw [labels, h.segments_eq, List.map_map]
  rfl

/-- Do the keys of some entry begin with these? -/
def Reaches (entries : List PageEntry) (place : List Text) : Prop :=
  ∃ entry ∈ entries, place <+: entry.keys

/-- The places that the keys of the entries reach. -/
def places (entries : List PageEntry) : List (List Text) :=
  entries.flatMap fun entry => entry.keys.inits

theorem mem_places {entries : List PageEntry} {place : List Text} : place ∈ places entries ↔ Reaches entries place := by
  simp only [places, List.mem_flatMap, List.mem_inits, Reaches]

/--
Entries of page files, no two with the same keys, whose keys are told by their labels. No literal key can be taken for a
parameter or a star, and `index` is only ever a last key.
-/
structure Independent (entries : List PageEntry) : Prop where
  read : ∀ entry ∈ entries, entry.IsRead
  keys_nodup : (entries.map PageEntry.keys).Nodup
  literal : ∀ entry ∈ entries, ∀ key, Segment.static key ∈ entry.segments → ':' ∉ key ∧ '*' ∉ key
  labels_tell : LabelsTell (Reaches entries)
  index_last : ∀ entry ∈ entries, Segment.indexKey ∉ entry.keys.dropLast

namespace Independent

variable {entries others : List PageEntry} {place : List Text}

theorem perm (h : Independent entries) (hp : entries.Perm others) : Independent others where
  read entry hm := h.read entry (hp.mem_iff.mpr hm)
  keys_nodup := (hp.map _).nodup_iff.mp h.keys_nodup
  literal entry hm := h.literal entry (hp.mem_iff.mpr hm)
  labels_tell place a b := by
    rintro ⟨entry, hm, ha⟩ ⟨other, ho, hb⟩
    exact h.labels_tell place a b ⟨entry, hp.mem_iff.mpr hm, ha⟩ ⟨other, hp.mem_iff.mpr ho, hb⟩
  index_last entry hm := h.index_last entry (hp.mem_iff.mpr hm)

theorem isLabelled (h : Independent entries) : ∀ entry ∈ entries, entry.IsLabelled :=
  fun entry hm => (h.read entry hm).isLabelled

theorem eq_of_labels (h : Independent entries) {other : List Text} (hp : Reaches entries place) (ho : Reaches entries other)
    (hl : place.map keyLabel = other.map keyLabel) : place = other :=
  h.labels_tell.eq_of_map (fun _ _ hp ⟨entry, hm, hr⟩ => ⟨entry, hm, hp.trans hr⟩) (.inr hp) (.inr ho) hl

/-- Labels tell entries as keys do. -/
theorem labels_nodup (h : Independent entries) : (entries.map PageEntry.labels).Nodup := by
  rw [List.Nodup, List.pairwise_map]
  refine (List.pairwise_map.mp h.keys_nodup).imp_of_mem fun {a b} ha hb hne hl => hne ?_
  rw [(h.read a ha).labels_eq, (h.read b hb).labels_eq] at hl
  exact h.eq_of_labels ⟨a, ha, List.prefix_refl _⟩ ⟨b, hb, List.prefix_refl _⟩ hl

/-- At most one entry ends at a place. -/
theorem endingAt_cases (h : Independent entries) (place : List Text) :
    Trie.endingAt entries place = [] ∨ ∃ entry, Trie.endingAt entries place = [entry] := by
  have hnodup : ((Trie.endingAt entries place).map PageEntry.labels).Nodup :=
    h.labels_nodup.sublist ((List.filter_sublist (l := entries)).map _)
  have hends : ∀ entry ∈ Trie.endingAt entries place, entry.labels = place := fun entry hm =>
    of_decide_eq_true (List.mem_filter.mp hm).2
  cases he : Trie.endingAt entries place with
  | nil => exact .inl rfl
  | cons first more =>
    cases more with
    | nil => exact .inr ⟨first, rfl⟩
    | cons second rest =>
      rw [he] at hnodup hends
      have hsame : first.labels = second.labels := (hends first (by simp)).trans (hends second (by simp)).symm
      exact absurd hsame (fun hs => by simp [hs] at hnodup)

theorem guests_eq_nil (h : Independent entries) (place : List Text) : (Trie.plan entries).guests place = [] := by
  rcases h.endingAt_cases place with he | ⟨entry, he⟩ <;> simp [Trie.plan, he]

theorem endingAt_perm (h : Independent entries) (hp : entries.Perm others) (place : List Text) :
    Trie.endingAt others place = Trie.endingAt entries place := by
  have hperm : (Trie.endingAt others place).Perm (Trie.endingAt entries place) := hp.symm.filter _
  rcases h.endingAt_cases place with he | ⟨entry, he⟩
  · rw [he] at hperm ⊢
    exact List.perm_nil.mp hperm
  · rw [he] at hperm ⊢
    exact List.perm_singleton.mp hperm

/-- **What a key adds to a pattern does not depend on the entry that adds it**, since an `index` is always the last. -/
theorem exists_path_eq (h : Independent entries) {label : Text} (hr : (Trie.plan entries).reaches (place ++ [label]))
    (children : Forest) :
    ∃ above key, Reaches entries (above ++ [key]) ∧ (above ++ [key]).map keyLabel = place ++ [label] ∧
      ((Trie.plan entries).node (place ++ [label]) children).path = (Segment.ofKey key).contribution place.length true := by
  obtain ⟨entry, hm, done, segment, rest, hsegments, hlabels, hpath⟩ := Trie.exists_passing hr children
  rw [(h.read entry hm).segments_eq] at hsegments
  obtain ⟨above, after, hkeys, rfl, hafter⟩ := List.map_eq_append_iff.mp hsegments
  obtain ⟨key, below, rfl, rfl, rfl⟩ := List.map_eq_cons_iff.mp hafter
  refine ⟨above, key, ⟨entry, hm, step_prefix_of_eq hkeys⟩, ?_, hpath.trans ?_⟩
  · rw [← hlabels, List.map_append, List.map_append, List.map_map]
    rfl
  · by_cases hbelow : below = []
    · simp [hbelow]
    · have hindex : key ≠ Segment.indexKey := by
        rintro rfl
        refine h.index_last entry hm ?_
        rw [hkeys, List.dropLast_append_of_ne_nil (by simp), List.dropLast_cons_of_ne_nil hbelow]
        simp
      have hne : Segment.ofKey key ≠ .index := fun ho => hindex (Segment.ofKey_injective ho)
      rw [Segment.contribution_of_ne_index hne, Segment.contribution_of_ne_index hne]

/-- **The route at a place does not depend on the order of the entries.** -/
theorem node_perm (h : Independent entries) (hp : entries.Perm others) {label : Text}
    (hr : (Trie.plan entries).reaches (place ++ [label])) (children : Forest) :
    (Trie.plan others).node (place ++ [label]) children = (Trie.plan entries).node (place ++ [label]) children := by
  have hr' : (Trie.plan others).reaches (place ++ [label]) := by
    obtain ⟨entry, hm, hl⟩ := hr
    exact ⟨entry, hp.mem_iff.mp hm, hl⟩
  obtain ⟨above, key, ⟨entry, hm, hreach⟩, hlabels, hpath⟩ := h.exists_path_eq hr children
  obtain ⟨above', key', ⟨entry', hm', hreach'⟩, hlabels', hpath'⟩ := (h.perm hp).exists_path_eq hr' children
  have hplace := h.eq_of_labels ⟨entry, hm, hreach⟩ ⟨entry', hp.mem_iff.mpr hm', hreach'⟩ (hlabels.trans hlabels'.symm)
  obtain rfl : key = key' := by simpa using congrArg List.getLast? hplace
  have hsame := hpath'.trans hpath.symm
  simp only [Trie.plan, h.endingAt_perm hp] at hsame ⊢
  rw [hsame]

/-- So the forest of the entries in one order is built to their plan in another. -/
theorem built_perm (h : Independent entries) (hp : entries.Perm others) :
    (Trie.plan entries).Built [] (Forest.insertAll others []).1 := by
  have hreaches : ∀ place, (Trie.plan others).reaches place ↔ (Trie.plan entries).reaches place := by
    intro place
    simp only [Trie.plan, hp.mem_iff]
  refine Plan.Built.relabel id (fun _ => True) (fun _ _ _ _ => trivial) (fun place b _ => ?_) (fun _ _ _ _ _ _ hab => hab)
    (fun place a children _ hr => ?_) (fun place _ => ?_) trivial (Trie.built_insertAll others (h.perm hp).isLabelled)
  · simp [hreaches]
  · simpa using h.node_perm hp hr children
  · rw [List.map_id, (h.perm hp).guests_eq_nil, h.guests_eq_nil]

end Independent

end PageEntry

namespace Forest

/-- Insertion keeps every level in the order in which its routes are tried. -/
theorem everyLevel_tried {entries : List PageEntry}
    (h : ∀ entry ∈ entries, ∀ key, Segment.static key ∈ entry.segments → ':' ∉ key ∧ '*' ∉ key) :
    EveryLevel Route.children Tried (insertAll entries []).1 := by
  have hemitted : ∀ entry ∈ entries, ∀ segment ∈ entry.segments, ∀ position isLast,
      Pattern.Emitted (segment.contribution position isLast) := by
    intro entry he segment hs position isLast
    exact Segment.emitted_contribution position isLast fun key hk => h entry he key (hk ▸ hs)
  rw [← Dated.routes_insertAll]
  refine EveryLevel.routes (fun siblings hin => ?_) (Dated.everyLevel_insertAll Dated.touches_inOrder .nothing hemitted)
  rw [Dated.routes_eq_map]
  refine ⟨fun route hm => ?_, List.pairwise_map.mpr ?_⟩
  · obtain ⟨dated, hd, rfl⟩ := List.mem_map.mp hm
    rw [Dated.route_path]
    exact hin.emitted dated.stamp (List.mem_map_of_mem hd)
  · refine (List.pairwise_map.mp hin.tried).imp fun {a b} hab => ?_
    rw [Dated.route_path, Dated.route_path]
    exact hab.1

/--
**Entries may be inserted in any order.** Take entries of page files with different keys that are told by their labels, without
literal keys that could be taken for something else, and with `index` as a last key only. In whatever two orders they are
inserted, the two forests have the same routes with the same names, patterns, pages and children on every level. They may differ
in the order of siblings that tie, and in nothing else.
-/
theorem insertAll_commutes {entries others : List PageEntry} (h : PageEntry.Independent entries) (hp : entries.Perm others) :
    SameUpToTies (insertAll entries []).1 (insertAll others []).1 :=
  Plan.Built.sameUpToTies (fun _ _ => rfl) (fun _ _ => rfl) h.guests_eq_nil (h.built_perm (.refl _)) (h.built_perm hp)
    (everyLevel_tried h.literal) (everyLevel_tried (h.perm hp).literal)

/-- A directory whose route is a page from the start in one order and a wrapper at first in the other. Its parameters change places. -/
theorem insertAll_commutes_directory :
    let layout : Layout := ⟨"/srv".toList, Layout.defaultPagesDir, Layout.defaultExtensions, .posix⟩
    let entries := PageEntry.readable layout
      ["pages/a.vue".toList, "pages/a/index.vue".toList, "pages/a/_x.vue".toList, "pages/a/_y.vue".toList]
    entries.length = 4 ∧ PageEntry.Independent entries ∧
      SameUpToTies (insertAll entries []).1 (insertAll entries.reverse []).1 ∧
      (insertAll entries []).1.nodes.map Route.path ≠ (insertAll entries.reverse []).1.nodes.map Route.path := by
  intro layout entries
  have hlabels : LabelsTell (PageEntry.Reaches entries) := by
    refine (LabelsTell.iff_of_places fun place => PageEntry.mem_places).mpr ?_
    decide +kernel
  have hkeys : ∀ entry ∈ entries, ∀ segment ∈ entry.segments, ':' ∉ segment.key ∧ '*' ∉ segment.key := by decide +kernel
  have hindependent : PageEntry.Independent entries :=
    { read := PageEntry.isRead_of_mem_readable
      keys_nodup := by decide +kernel
      literal := fun entry hm key hk => hkeys entry hm (.static key) hk
      labels_tell := hlabels
      index_last := by decide +kernel }
  exact ⟨by decide +kernel, hindependent, insertAll_commutes hindependent (List.reverse_perm entries).symm, by decide +kernel⟩

end Forest

end PageRouting
