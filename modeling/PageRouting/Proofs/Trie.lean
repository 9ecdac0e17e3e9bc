import Mathlib.Data.List.Induction
import PageRouting.Proofs.Conservation
import PageRouting.Proofs.Plan

/-!
# `PageRouting/Proofs/Trie.lean` — insertion builds the trie of labels

Insertion looks routes up by a name: the labels of the segments so far, joined by dashes. That it builds a tree at all
rests on what these names tell apart. Among the children of one route they tell labels apart, since they extend one name
(`extendName_injective`); and a page that was nested because its name was taken has the name of its parent, which no label
extends to itself (`extendName_ne_self`). So a search on a level finds the route of the label it is after or none, whatever
dashes the labels hold.

The forest of some entries is therefore built to a plan that only their lists of labels decide (`Trie.plan`): its places
are the prefixes of these lists; the first entry that reaches a place decides its pattern, the first that ends there its
page; and later entries that end there are its guests. `built_place` is the step, one entry more, and `built_insertAll` the
run.
-/

set_option autoImplicit false

namespace PageRouting

namespace PageEntry

/-- What the segments contribute to the name of the entry's route, one by one. -/
def labels (entry : PageEntry) : List Text :=
  entry.segments.map Segment.label

/-- What the segment at a position adds to the pattern. -/
def contributionAt (entry : PageEntry) (position : Nat) : Text :=
  (entry.contributions[position]?).getD []

/--
The entry has segments, and only the last of them may have an empty label. This is so of every page file, since the
slashes that part its keys are counted once.
-/
structure IsLabelled (entry : PageEntry) : Prop where
  segments_ne_nil : entry.segments ≠ []
  label_ne_nil : ∀ {above label below}, entry.labels = above ++ label :: below → below ≠ [] → label ≠ []

theorem labels_of_segments {entry : PageEntry} {done rest : List Segment} {segment : Segment}
    (hs : entry.segments = done ++ segment :: rest) :
    entry.labels = done.map Segment.label ++ segment.label :: rest.map Segment.label := by
  rw [labels, hs, List.map_append, List.map_cons]

theorem IsLabelled.ne_nil_of_mem {entry : PageEntry} (h : entry.IsLabelled) {above : List Text} {label : Text}
    (hp : above ++ [label] <+: entry.labels) : ∀ a ∈ above, a ≠ [] := by
  intro a ha
  obtain ⟨rest, hl⟩ := hp
  obtain ⟨before, between, rfl⟩ := List.append_of_mem ha
  have hbefore : entry.labels = before ++ a :: (between ++ label :: rest) := by
    rw [← hl]
    simp
  exact h.label_ne_nil hbefore (by simp)

end PageEntry

namespace Trie

/-- The name of the route that a list of labels leads to. -/
def routeName (place : List Text) : Text :=
  place.foldl Forest.extendName []

/-- The entries that end at a place, in order. -/
def endingAt (entries : List PageEntry) (place : List Text) : List PageEntry :=
  entries.filter fun entry => entry.labels = place

/-- The first entry that reaches a place. -/
def firstThrough (entries : List PageEntry) (place : List Text) : Option PageEntry :=
  entries.find? fun entry => place <+: entry.labels

/-- A page whose name was taken: a route with that name and the empty pattern. -/
def guest (place : List Text) (entry : PageEntry) : Route :=
  { name := routeName place, path := [], component := entry.component, chunkName := entry.chunkName }

/-- The forest of entries that are inserted in this order, by places. -/
def plan (entries : List PageEntry) : Plan Text where
  reaches place := ∃ entry ∈ entries, place <+: entry.labels
  node place children :=
    { name := routeName place
      path := ((firstThrough entries place).map fun entry => entry.contributionAt (place.length - 1)).getD []
      component := (endingAt entries place).head?.map PageEntry.component
      chunkName := (endingAt entries place).head?.bind PageEntry.chunkName
      children }
  guests place := (endingAt entries place).tail.map (guest place)

/-! ## Names -/

@[simp] theorem routeName_append (above : List Text) (label : Text) :
    routeName (above ++ [label]) = Forest.extendName (routeName above) label := by
  rw [routeName, List.foldl_append]
  rfl

theorem extendName_injective {name a b : Text} (h : Forest.extendName name a = Forest.extendName name b) : a = b := by
  unfold Forest.extendName at h
  split at h
  · exact h
  · simpa using h

theorem extendName_ne_self {name label : Text} (h : name ≠ []) : Forest.extendName name label ≠ name := by
  rw [Forest.extendName, if_neg h]
  simp

theorem extendName_ne_nil {name label : Text} (h : name ≠ [] ∨ label ≠ []) : Forest.extendName name label ≠ [] := by
  unfold Forest.extendName
  split
  · next hn => exact h.resolve_left fun hne => hne hn
  · simp

theorem routeName_ne_nil {place : List Text} (hne : place ≠ []) (h : ∀ label ∈ place, label ≠ []) :
    routeName place ≠ [] := by
  obtain ⟨above, label, rfl⟩ := List.eq_nil_or_concat place |>.resolve_left hne
  rw [List.concat_eq_append, routeName_append]
  exact extendName_ne_nil (.inr (h label (by simp)))

/-! ## One entry more -/

variable {entries : List PageEntry} {entry : PageEntry} {place : List Text}

theorem endingAt_append_of_ne (h : entry.labels ≠ place) : endingAt (entries ++ [entry]) place = endingAt entries place := by
  simp [endingAt, List.filter_append, h]

theorem endingAt_append_self : endingAt (entries ++ [entry]) entry.labels = endingAt entries entry.labels ++ [entry] := by
  simp [endingAt, List.filter_append]

theorem endingAt_eq_nil (h : ¬ (plan entries).reaches place) : endingAt entries place = [] := by
  refine List.filter_eq_nil_iff.mpr fun e he hl => h ⟨e, he, ?_⟩
  exact of_decide_eq_true hl ▸ List.prefix_refl _

theorem firstThrough_append (h : (plan entries).reaches place ∨ ¬ place <+: entry.labels) :
    firstThrough (entries ++ [entry]) place = firstThrough entries place := by
  rw [firstThrough, List.find?_append]
  rcases h with ⟨e, he, hp⟩ | hn
  · cases hf : entries.find? fun entry => place <+: entry.labels with
    | none => exact absurd (List.find?_eq_none.mp hf e he) (by simpa using hp)
    | some first => rw [firstThrough, hf]; rfl
  · simp [firstThrough, hn]

theorem firstThrough_append_new (h : ¬ (plan entries).reaches place) (hp : place <+: entry.labels) :
    firstThrough (entries ++ [entry]) place = some entry := by
  have hnone : entries.find? (fun entry => place <+: entry.labels) = none := by
    refine List.find?_eq_none.mpr fun e he hl => h ⟨e, he, of_decide_eq_true hl⟩
  rw [firstThrough, List.find?_append, hnone]
  simp [hp]

theorem firstThrough_eq_some (h : firstThrough entries place = some entry) : entry ∈ entries ∧ place <+: entry.labels := by
  unfold firstThrough at h
  exact ⟨List.mem_of_find?_eq_some h, by simpa using List.find?_some h⟩

theorem reaches_append : (plan (entries ++ [entry])).reaches place ↔ (plan entries).reaches place ∨ place <+: entry.labels := by
  simp only [plan, List.mem_append, List.mem_singleton]
  constructor
  · rintro ⟨e, he | rfl, hp⟩
    · exact .inl ⟨e, he, hp⟩
    · exact .inr hp
  · rintro (⟨e, he, hp⟩ | hp)
    · exact ⟨e, .inl he, hp⟩
    · exact ⟨entry, .inr rfl, hp⟩

/-- A place that has been reached keeps its route, unless the new entry is the first to end there. -/
theorem node_append (hr : (plan entries).reaches place) (hne : entry.labels ≠ place ∨ endingAt entries place ≠ [])
    (children : Forest) : (plan (entries ++ [entry])).node place children = (plan entries).node place children := by
  simp only [plan, firstThrough_append (.inl hr)]
  rcases hne with hne | hne
  · rw [endingAt_append_of_ne hne]
  · by_cases hl : entry.labels = place
    · obtain ⟨first, others, hf⟩ := List.exists_cons_of_ne_nil hne
      subst hl
      rw [endingAt_append_self, hf]
      rfl
    · rw [endingAt_append_of_ne hl]

theorem node_append_filled (hr : (plan entries).reaches entry.labels) (h : endingAt entries entry.labels = [])
    (children : Forest) : (plan (entries ++ [entry])).node entry.labels children =
      { (plan entries).node entry.labels children with
        component := some entry.component, chunkName := entry.chunkName } := by
  simp [plan, firstThrough_append (.inl hr), endingAt_append_self, h]

/-- A place that nothing has reached gets its pattern from the new entry, and its page too if the entry ends there. -/
theorem node_append_new (hr : ¬ (plan entries).reaches place) (hp : place <+: entry.labels) (children : Forest) :
    (plan (entries ++ [entry])).node place children =
      { name := routeName place
        path := entry.contributionAt (place.length - 1)
        component := if entry.labels = place then some entry.component else none
        chunkName := if entry.labels = place then entry.chunkName else none
        children } := by
  have hnil := endingAt_eq_nil hr
  simp only [plan, firstThrough_append_new hr hp]
  split
  · next hl =>
    subst hl
    simp [endingAt_append_self, hnil]
  · next hl => simp [endingAt_append_of_ne hl, hnil]

theorem guests_append (hne : entry.labels ≠ place) : (plan (entries ++ [entry])).guests place = (plan entries).guests place := by
  simp only [plan, endingAt_append_of_ne hne]

/-- The new entry changes no route that it does not pass. -/
theorem map_node_append {steps : List (Text × Forest)} (hr : ∀ step ∈ steps, (plan entries).reaches (place ++ [step.1]))
    (hoff : ∀ step ∈ steps, ¬ place ++ [step.1] <+: entry.labels) :
    steps.map (fun step => (plan (entries ++ [entry])).node (place ++ [step.1]) step.2) =
      steps.map fun step => (plan entries).node (place ++ [step.1]) step.2 := by
  refine List.map_congr_left fun step hs => ?_
  exact node_append (hr step hs) (.inl fun he => hoff step hs (he ▸ List.prefix_refl _)) _

/-- A place that the new entry does not pass has below it what it had. -/
theorem built_append {siblings : Forest} (hn : ¬ place <+: entry.labels) (h : (plan entries).Built place siblings) :
    (plan (entries ++ [entry])).Built place siblings := by
  refine Plan.Built.relabel id (fun place => ¬ place <+: entry.labels)
    (fun above a hab _ hp => hab ((List.prefix_append _ _).trans hp)) (fun above b hab => ?_)
    (fun _ _ _ _ _ _ h => h) (fun above a children hab hr => ?_) (fun above hab => ?_) hn (by rwa [List.map_id])
  · rw [List.map_id]
    have hb : ¬ above ++ [b] <+: entry.labels := fun hp => hab ((List.prefix_append _ _).trans hp)
    simp only [reaches_append, id_eq, exists_eq_right, hb, or_false]
  · rw [List.map_id]
    have hb : ¬ above ++ [a] <+: entry.labels := fun hp => hab ((List.prefix_append _ _).trans hp)
    exact (node_append ((reaches_append.mp hr).resolve_right hb) (.inl fun he => hb (he ▸ List.prefix_refl _)) children).symm
  · rw [List.map_id]
    exact (guests_append fun he => hab (he ▸ List.prefix_refl _)).symm

/-! ## One level -/

theorem prefix_eq_of_labels {label other : Text} {rest : List Text} (hl : entry.labels = place ++ label :: rest)
    (h : place ++ [other] <+: entry.labels) : other = label := by
  obtain ⟨tail, ht⟩ := h
  rw [hl, List.append_assoc, List.append_cancel_left_eq] at ht
  exact (List.cons.inj ht).1

/-- Subtrees for every step that leads on from a place, but for one step. -/
structure Besides (entries : List PageEntry) (place : List Text) (label : Text) (steps : List (Text × Forest)) : Prop where
  nodup : (label :: steps.map Prod.fst).Nodup
  mem : ∀ a, a ∈ steps.map Prod.fst ↔ (plan entries).reaches (place ++ [a]) ∧ a ≠ label
  below : ∀ step ∈ steps, (plan entries).Built (place ++ [step.1]) step.2

/-- The routes of these steps, and the guests of the place. -/
def besides (entries : List PageEntry) (place : List Text) (steps : List (Text × Forest)) : Forest :=
  steps.map (fun step => (plan entries).node (place ++ [step.1]) step.2) ++ (plan entries).guests place

/-- A level is built once the subtree of the step that the new entry takes is, and nothing else on it has changed. -/
theorem built_level (children : Forest) {label : Text} {rest : List Text} {siblings : Forest} {steps : List (Text × Forest)}
    (hl : entry.labels = place ++ label :: rest) (others : Besides entries place label steps)
    (new : (plan (entries ++ [entry])).Built (place ++ [label]) children)
    (perm : siblings.Perm ((plan (entries ++ [entry])).node (place ++ [label]) children :: besides entries place steps)) :
    (plan (entries ++ [entry])).Built place siblings := by
  have hlabel : place ++ [label] <+: entry.labels := step_prefix_of_eq hl
  have hreach : ∀ step ∈ steps, (plan entries).reaches (place ++ [step.1]) ∧ step.1 ≠ label := fun step hs =>
    (others.mem step.1).mp (List.mem_map_of_mem hs)
  have hoff : ∀ step ∈ steps, ¬ place ++ [step.1] <+: entry.labels := fun step hs hp =>
    (hreach step hs).2 (prefix_eq_of_labels hl hp)
  refine .level ((label, children) :: steps) others.nodup (fun a => ?_) (fun step hs => ?_) ?_
  · rw [List.map_cons, List.mem_cons, others.mem a, reaches_append]
    constructor
    · rintro (rfl | ⟨hr, -⟩)
      · exact .inr hlabel
      · exact .inl hr
    · rintro (hr | hp)
      · by_cases ha : a = label
        · exact .inl ha
        · exact .inr ⟨hr, ha⟩
      · exact .inl (prefix_eq_of_labels hl hp)
  · rcases List.mem_cons.mp hs with rfl | hs
    · exact new
    · exact built_append (hoff step hs) (others.below step hs)
  · have hguests : entry.labels ≠ place := by
      rw [hl]
      simp
    rw [List.map_cons, map_node_append (fun step hs => (hreach step hs).1) hoff, guests_append hguests]
    exact perm

/-- The guests of a place that an entry passes are not found by a name that leads on. -/
theorem guest_name_ne (hentries : ∀ e ∈ entries, e.IsLabelled) (hentry : entry.IsLabelled) {label : Text}
    {rest : List Text} (hl : entry.labels = place ++ label :: rest) :
    ∀ sibling ∈ (plan entries).guests place, sibling.name ≠ some (routeName (place ++ [label])) := by
  intro sibling hm
  obtain ⟨e, he, rfl⟩ := List.mem_map.mp hm
  have hends := List.mem_filter.mp (List.mem_of_mem_tail he)
  have hne : place ≠ [] := by
    rintro rfl
    refine (hentries e hends.1).segments_ne_nil ?_
    exact List.map_eq_nil_iff.mp (of_decide_eq_true hends.2)
  have hlabels : ∀ a ∈ place, a ≠ [] := hentry.ne_nil_of_mem (step_prefix_of_eq hl)
  rw [routeName_append]
  intro h
  exact extendName_ne_self (routeName_ne_nil hne hlabels) (Option.some.inj h).symm

/-- A search that finds a route has found that of the step it is after, and a replacement leaves the others in place. -/
theorem found {label : Text} {siblings : Forest} {route : Route} (h : (plan entries).Built place siblings)
    (hguests : ∀ sibling ∈ (plan entries).guests place, sibling.name ≠ some (routeName (place ++ [label])))
    (hf : Forest.named? (routeName (place ++ [label])) siblings = some route) :
    ∃ (children : Forest) (steps : List (Text × Forest)), route = (plan entries).node (place ++ [label]) children ∧
      (plan entries).reaches (place ++ [label]) ∧ (plan entries).Built (place ++ [label]) children ∧
      Besides entries place label steps ∧ ∀ other, (Forest.replaceFirst (routeName (place ++ [label])) other
        siblings).Perm (other :: besides entries place steps) := by
  obtain ⟨steps, nodup, mem, below, perm⟩ := h
  obtain ⟨before, after, rfl, hname, hreplace⟩ := Forest.split_of_named? hf
  have hin : route ∈ before ++ route :: after := by simp
  have hroute : route ∈ steps.map (fun step => (plan entries).node (place ++ [step.1]) step.2) := by
    rcases List.mem_append.mp (perm.mem_iff.mp hin) with hm | hm
    · exact hm
    · exact absurd hname (hguests route hm)
  obtain ⟨⟨a, children⟩, hstep, rfl⟩ := List.mem_map.mp hroute
  obtain rfl : a = label := by
    simp only [plan, routeName_append, Option.some.injEq] at hname
    exact extendName_injective hname
  -- the route is taken out on both sides: of the steps, and of the siblings
  obtain ⟨front, back, rfl⟩ := List.append_of_mem hstep
  have hmid : (front ++ (a, children) :: back).Perm ((a, children) :: (front ++ back)) := List.perm_middle
  have hnodup : (a :: (front ++ back).map Prod.fst).Nodup := (hmid.map Prod.fst).nodup_iff.mp nodup
  have hmem : ∀ b, b ∈ a :: (front ++ back).map Prod.fst ↔ (plan entries).reaches (place ++ [b]) := fun b => by
    rw [← mem b, (hmid.map Prod.fst).mem_iff]
    rfl
  refine ⟨children, front ++ back, rfl, (hmem a).mp List.mem_cons_self, below _ hstep, ⟨hnodup, fun b => ?_,
    fun step hs => below step (hmid.mem_iff.mpr (List.mem_cons_of_mem _ hs))⟩, fun other => ?_⟩
  · rw [← hmem b, List.mem_cons]
    constructor
    · intro hb
      exact ⟨.inr hb, fun hba => (List.nodup_cons.mp hnodup).1 (hba ▸ hb)⟩
    · rintro ⟨rfl | hb, hne⟩
      · exact absurd rfl hne
      · exact hb
  · rw [hreplace]
    refine List.perm_middle.trans (.cons _ ?_)
    have hcut := List.perm_middle.symm.trans (perm.trans ((hmid.map _).append_right _))
    exact hcut.cons_inv

/-- A search that finds nothing is after a step that nothing has taken yet, so all the siblings are of other steps. -/
theorem not_found {label : Text} {siblings : Forest} (h : (plan entries).Built place siblings)
    (hf : Forest.named? (routeName (place ++ [label])) siblings = none) :
    ¬ (plan entries).reaches (place ++ [label]) ∧
      ∃ steps, Besides entries place label steps ∧ siblings.Perm (besides entries place steps) := by
  obtain ⟨steps, nodup, mem, below, perm⟩ := h
  have hr : ¬ (plan entries).reaches (place ++ [label]) := by
    intro hr
    obtain ⟨step, hs, rfl⟩ := List.mem_map.mp ((mem label).mpr hr)
    have hm := perm.mem_iff.mpr (List.mem_append_left _ (List.mem_map_of_mem hs))
    exact Forest.name_ne_of_named?_eq_none hf _ hm rfl
  refine ⟨hr, steps, ⟨List.nodup_cons.mpr ⟨fun hm => hr ((mem label).mp hm), nodup⟩, fun a => ?_, below⟩, perm⟩
  rw [mem a]
  refine ⟨fun ha => ⟨ha, ?_⟩, And.left⟩
  rintro rfl
  exact hr ha

/-! ## The step and the run -/

theorem contributionAt_of_segments {done rest : List Segment} {segment : Segment}
    (hs : entry.segments = done ++ segment :: rest) :
    entry.contributionAt done.length = segment.contribution done.length (decide (rest = [])) := by
  simp [PageEntry.contributionAt, PageEntry.contributions, hs]

theorem built_nil (h : ¬ (plan entries).reaches place) : (plan entries).Built place [] := by
  refine .empty (fun a hr => h ?_) ?_
  · obtain ⟨e, he, hp⟩ := hr
    exact ⟨e, he, (List.prefix_append _ _).trans hp⟩
  · simp only [plan, endingAt_eq_nil h, List.tail_nil, List.map_nil]

/-- At the place where the new entry ends, nothing changes below; the entry is the page there, or one guest more. -/
theorem built_at_end {children siblings : Forest} (h : (plan entries).Built entry.labels children)
    (perm : siblings.Perm (children ++ if endingAt entries entry.labels = [] then [] else [guest entry.labels entry])) :
    (plan (entries ++ [entry])).Built entry.labels siblings := by
  obtain ⟨steps, nodup, mem, below, hperm⟩ := h
  have hoff : ∀ a, ¬ entry.labels ++ [a] <+: entry.labels := by
    intro a hp
    exact absurd hp.length_le (by simp)
  refine .level steps nodup (fun a => ?_) (fun step hs => built_append (hoff step.1) (below step hs)) ?_
  · rw [mem a, reaches_append]
    exact ⟨.inl, fun hr => hr.resolve_right (hoff a)⟩
  · have hsame := map_node_append (fun step hs => (mem step.1).mp (List.mem_map_of_mem hs)) fun step _ => hoff step.1
    have hguests : (plan (entries ++ [entry])).guests entry.labels = (plan entries).guests entry.labels ++
        if endingAt entries entry.labels = [] then [] else [guest entry.labels entry] := by
      simp only [plan, endingAt_append_self]
      cases endingAt entries entry.labels <;> simp
    rw [hsame, hguests, ← List.append_assoc]
    exact perm.trans (hperm.append_right _)

theorem built_placeAt {label : Text} {siblings : Forest} {route : Route} (hl : entry.labels = place ++ [label])
    (hguests : ∀ sibling ∈ (plan entries).guests place, sibling.name ≠ some (routeName (place ++ [label])))
    (h : (plan entries).Built place siblings)
    (hf : Forest.named? (routeName (place ++ [label])) siblings = some route) :
    (plan (entries ++ [entry])).Built place
      (Forest.placeAt entry (routeName (place ++ [label])) route siblings).forest := by
  obtain ⟨children, steps, rfl, hr, hbelow, hbesides, hreplace⟩ := found h hguests hf
  rw [← hl] at hr hbelow hreplace ⊢
  unfold Forest.placeAt
  split
  · next hc =>
    have hfirst : endingAt entries entry.labels = [] := by simpa [plan] using hc
    refine built_level children hl hbesides ?_ ?_
    · rw [← hl]
      exact built_at_end hbelow (by simp [hfirst])
    · rw [← hl, node_append_filled hr hfirst]
      exact hreplace _
  · next hc =>
    have hfirst : endingAt entries entry.labels ≠ [] := by
      intro hnil
      simp [plan, hnil] at hc
    refine built_level (Forest.attach children (guest entry.labels entry)) hl hbesides ?_ ?_
    · rw [← hl]
      refine built_at_end hbelow ?_
      rw [if_neg hfirst]
      exact (Forest.attach_perm _ _).trans (List.perm_append_singleton _ _).symm
    · rw [← hl, node_append hr (.inr hfirst)]
      exact hreplace _

theorem built_attachPage {label : Text} {siblings : Forest} (hl : entry.labels = place ++ [label])
    (h : (plan entries).Built place siblings)
    (hf : Forest.named? (routeName (place ++ [label])) siblings = none) :
    (plan (entries ++ [entry])).Built place
      (Forest.attachPage entry (routeName (place ++ [label])) (entry.contributionAt place.length) siblings).forest := by
  obtain ⟨hr, steps, hbesides, hperm⟩ := not_found h hf
  refine built_level [] hl hbesides ?_ ?_
  · rw [← hl] at hr ⊢
    exact built_at_end (built_nil hr) (by simp [endingAt_eq_nil hr])
  · rw [node_append_new hr (hl ▸ List.prefix_refl _), if_pos hl, if_pos hl, List.length_append]
    exact (Forest.attach_perm _ _).trans (hperm.cons _)

/--
**One entry more.** Placing an entry on a level that is built to the plan of the entries before it builds the level to the
plan with it. The induction is on the segments still to follow; `done` are those above the level.
-/
theorem built_place (hentries : ∀ e ∈ entries, e.IsLabelled) (hentry : entry.IsLabelled) {done rest : List Segment}
    (hs : entry.segments = done ++ rest) (hrest : rest ≠ []) {siblings : Forest}
    (h : (plan entries).Built (done.map Segment.label) siblings) :
    (plan (entries ++ [entry])).Built (done.map Segment.label)
      (Forest.place entry rest done.length (routeName (done.map Segment.label)) siblings).forest := by
  induction rest generalizing done siblings with
  | nil => exact absurd rfl hrest
  | cons segment rest ih =>
    have hl := PageEntry.labels_of_segments hs
    have hdone : (done ++ [segment]).map Segment.label = done.map Segment.label ++ [segment.label] := by
      rw [List.map_append]
      rfl
    have hname : Forest.extendName (routeName (done.map Segment.label)) segment.label =
        routeName (done.map Segment.label ++ [segment.label]) := (routeName_append _ _).symm
    have hguests := guest_name_ne hentries hentry hl
    have hcontribution := contributionAt_of_segments hs
    cases rest with
    | nil =>
      rw [Forest.place, hname]
      split
      · next hf => exact built_placeAt hl hguests h hf
      · next hf =>
        have hlength : done.length = (done.map Segment.label).length := (List.length_map _).symm
        rw [show segment.contribution done.length true = entry.contributionAt done.length from hcontribution.symm,
          hlength]
        exact built_attachPage hl h hf
    | cons next rest =>
      have hmore : entry.labels ≠ done.map Segment.label ++ [segment.label] := by
        rw [hl]
        simp
      have hnext : entry.segments = (done ++ [segment]) ++ next :: rest := by
        rw [hs, List.append_assoc]
        rfl
      have below : ∀ {children : Forest},
          (plan entries).Built (done.map Segment.label ++ [segment.label]) children →
          (plan (entries ++ [entry])).Built (done.map Segment.label ++ [segment.label])
            (Forest.place entry (next :: rest) (done.length + 1)
              (routeName (done.map Segment.label ++ [segment.label])) children).forest := by
        intro children hb
        rw [← hdone] at hb
        have hplaced := ih hnext (by simp) hb
        rwa [hdone, List.length_append] at hplaced
      rw [Forest.place, hname]
      split
      · next hf =>
        obtain ⟨children, steps, rfl, hr, hbelow, hbesides, hreplace⟩ := found h hguests hf
        refine built_level _ hl hbesides (below hbelow) ?_
        rw [node_append hr (.inl hmore)]
        exact hreplace _
      · next hf =>
        obtain ⟨hr, steps, hbesides, hperm⟩ := not_found h hf
        refine built_level _ hl hbesides (below (built_nil hr)) ?_
        rw [node_append_new hr (step_prefix_of_eq hl),
          if_neg hmore, if_neg hmore, List.length_append, List.length_map, List.length_singleton, Nat.add_sub_cancel, hcontribution]
        exact (Forest.attach_perm _ _).trans (hperm.cons _)

/-- **The forest of some entries is the trie of their labels**, in whatever order they are inserted. -/
theorem built_insertAll (entries : List PageEntry) (hentries : ∀ e ∈ entries, e.IsLabelled) :
    (plan entries).Built [] (Forest.insertAll entries []).1 := by
  rw [Forest.insertAll_fst]
  induction entries using List.reverseRecOn with
  | nil => exact built_nil (by simp [plan])
  | append_singleton entries entry ih =>
    have hbefore : ∀ e ∈ entries, e.IsLabelled := fun e he => hentries e (List.mem_append_left _ he)
    have hlast : entry.IsLabelled := hentries entry (by simp)
    have hwhole : entry.segments = [] ++ entry.segments := rfl
    rw [List.foldl_append]
    exact built_place hbefore hlast hwhole hlast.segments_ne_nil (ih hbefore)

end Trie

end PageRouting
