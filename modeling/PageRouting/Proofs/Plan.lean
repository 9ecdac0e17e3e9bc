import Mathlib.Data.List.Nodup
import Mathlib.Data.List.Perm.Basic
import PageRouting.Proofs.Siblings

/-!
# `PageRouting/Proofs/Plan.lean` — forests that are built to a plan

What a forest looks like is best said place by place: a place is the list of steps that lead to it from the top, and a
plan says which places there are, which route stands at each, and which further routes, its guests, stand among the
children of that route without being a place of their own. A list of siblings is built to the plan below a place if, in
some order, it holds one route for each step that leads on, with children built to the plan in their turn, and the guests
(`Plan.Built`).

The plan leaves the order of siblings open. It fixes everything else, so a result about a forest up to the order of
siblings is a result about its plan.
-/

set_option autoImplicit false

namespace PageRouting

variable {α β : Type}

/-! ## Steps -/

theorem step_prefix_of_eq {xs ys rest : List α} {a : α} (h : ys = xs ++ a :: rest) : xs ++ [a] <+: ys :=
  ⟨rest, by rw [h, List.append_assoc]; rfl⟩

/-- A way that begins with another ends there or goes on by a step. -/
theorem eq_or_exists_step {xs ys : List α} (h : xs <+: ys) : ys = xs ∨ ∃ a, xs ++ [a] <+: ys := by
  obtain ⟨rest, hrest⟩ := h
  cases rest with
  | nil => exact .inl (by rw [← hrest, List.append_nil])
  | cons a rest => exact .inr ⟨a, step_prefix_of_eq hrest.symm⟩

theorem step_prefix_iff {xs ys : List α} {a : α} : xs ++ [a] <+: ys ↔ xs <+: ys ∧ ys[xs.length]? = some a := by
  constructor
  · rintro ⟨rest, rfl⟩
    exact ⟨(List.prefix_append _ _).trans (List.prefix_append _ _), by simp⟩
  · rintro ⟨hp, ha⟩
    rcases eq_or_exists_step hp with rfl | ⟨b, rest, rfl⟩
    · simp at ha
    · obtain rfl : b = a := by simpa using ha
      exact List.prefix_append _ _

/-- A list falls apart by what is told of its members, if that is always one of some different things. -/
theorem perm_flatMap_filter [DecidableEq β] {things : List β} (nodup : things.Nodup) {f : α → Option β} {xs : List α}
    (h : ∀ x ∈ xs, ∃ a ∈ things, f x = some a) : xs.Perm (things.flatMap fun a => xs.filter fun x => f x = some a) := by
  induction things generalizing xs with
  | nil =>
    refine .of_eq (List.eq_nil_iff_forall_not_mem.mpr fun x hx => ?_)
    obtain ⟨a, ha, -⟩ := h x hx
    cases ha
  | cons first others ih =>
    obtain ⟨hfirst, hothers⟩ := List.nodup_cons.mp nodup
    have hleft : ∀ x ∈ xs.filter fun x => !decide (f x = some first), ∃ a ∈ others, f x = some a := by
      intro x hx
      obtain ⟨hx, hne⟩ := List.mem_filter.mp hx
      obtain ⟨a, ha, hf⟩ := h x hx
      rcases List.mem_cons.mp ha with rfl | ha
      · simp [hf] at hne
      · exact ⟨a, ha, hf⟩
    have hrest := ih hothers hleft
    have hsame : (others.flatMap fun a => (xs.filter fun x => !decide (f x = some first)).filter fun x => f x = some a) =
        others.flatMap fun a => xs.filter fun x => f x = some a := by
      refine List.flatMap_congr fun a ha => ?_
      rw [List.filter_filter]
      refine List.filter_congr fun x _ => ?_
      by_cases hf : f x = some a
      · have hne : a ≠ first := fun he => hfirst (he ▸ ha)
        simp [hf, hne]
      · simp [hf]
    rw [List.flatMap_cons, ← hsame]
    exact (List.filter_append_perm _ xs).symm.trans (hrest.append_left _)

/-! ## Plans -/

/-- A description of a forest by places. -/
structure Plan (α : Type) where
  /-- the places that there are -/
  reaches : List α → Prop
  /-- the route at a place, given its children -/
  node : List α → Forest → Route
  /-- the routes among the children of the route at a place that are not places themselves -/
  guests : List α → Forest := fun _ => []

namespace Plan

/-- The siblings below a place are those of the plan, in some order, each with one subtree for each step. -/
inductive Built (plan : Plan α) : List α → Forest → Prop where
  | level {place : List α} {siblings : Forest} (steps : List (α × Forest))
      (nodup : (steps.map Prod.fst).Nodup)
      (mem : ∀ a, a ∈ steps.map Prod.fst ↔ plan.reaches (place ++ [a]))
      (below : ∀ step ∈ steps, Built plan (place ++ [step.1]) step.2)
      (perm : siblings.Perm (steps.map (fun step => plan.node (place ++ [step.1]) step.2) ++ plan.guests place)) :
      Built plan place siblings

variable {plan : Plan α} {place : List α} {siblings : Forest}

/-- Where no step leads on and no guest stands there is nothing to build. -/
theorem Built.empty (hr : ∀ a, ¬ plan.reaches (place ++ [a]))
    (hg : plan.guests place = []) : plan.Built place [] := by
  refine .level [] .nil (fun a => ?_) (by simp) (by simp [hg])
  simp [hr a]

theorem Built.exists_of_reaches (h : plan.Built place siblings) {a : α} (hr : plan.reaches (place ++ [a])) :
    ∃ children, plan.Built (place ++ [a]) children ∧ plan.node (place ++ [a]) children ∈ siblings := by
  obtain ⟨steps, nodup, mem, below, perm⟩ := h
  obtain ⟨step, hs, rfl⟩ := List.mem_map.mp ((mem a).mpr hr)
  exact ⟨step.2, below step hs, perm.mem_iff.mpr (List.mem_append_left _ (List.mem_map_of_mem hs))⟩

/-- Where no guest stands, every route stands at a place that a step leads on to. -/
theorem Built.exists_of_mem (h : plan.Built place siblings) (hg : plan.guests place = []) {route : Route}
    (hm : route ∈ siblings) : ∃ a children, plan.reaches (place ++ [a]) ∧ plan.Built (place ++ [a]) children ∧
      route = plan.node (place ++ [a]) children := by
  obtain ⟨steps, nodup, mem, below, perm⟩ := h
  rw [perm.mem_iff, hg, List.append_nil] at hm
  obtain ⟨step, hs, rfl⟩ := List.mem_map.mp hm
  exact ⟨step.1, step.2, (mem step.1).mp (List.mem_map_of_mem hs), below step hs, rfl⟩

/-- Where no step leads on and no guest stands nothing is built. -/
theorem Built.eq_nil (h : plan.Built place siblings) (hr : ∀ a, ¬ plan.reaches (place ++ [a])) (hg : plan.guests place = []) :
    siblings = [] := by
  refine List.eq_nil_iff_forall_not_mem.mpr fun route hm => ?_
  obtain ⟨a, _, hreach, -⟩ := h.exists_of_mem hg hm
  exact hr a hreach

/-- A plan whose routes keep the children that they are given, and whose guests have none. -/
structure KeepsChildren (plan : Plan α) : Prop where
  node : ∀ place children, (plan.node place children).children = children
  guests : ∀ place, ∀ guest ∈ plan.guests place, guest.children = []

/-- Every node stands at a place, or is a guest of one. -/
theorem Built.cases_of_mem_nodes (h : plan.Built place siblings) (hk : plan.KeepsChildren) {node : Route}
    (hm : node ∈ Forest.nodes siblings) :
    (∃ above a children, plan.reaches (above ++ [a]) ∧ plan.Built (above ++ [a]) children ∧
      node = plan.node (above ++ [a]) children) ∨ ∃ above, node ∈ plan.guests above := by
  induction h with
  | @level place siblings steps nodup mem below perm ih =>
    obtain ⟨route, hroute, hnode⟩ := Forest.exists_of_mem_nodes hm
    rcases List.mem_append.mp (perm.mem_iff.mp hroute) with hroute | hroute
    · obtain ⟨step, hs, rfl⟩ := List.mem_map.mp hroute
      rcases hnode with rfl | hnode
      · exact .inl ⟨place, step.1, step.2, (mem step.1).mp (List.mem_map_of_mem hs), below step hs, rfl⟩
      · rw [hk.node] at hnode
        exact ih step hs hnode
    · rcases hnode with rfl | hnode
      · exact .inr ⟨place, hroute⟩
      · rw [hk.guests place route hroute] at hnode
        cases hnode

/-- If there are no guests at all, and routes keep the children they are given, every node stands at a place. -/
theorem Built.exists_of_mem_nodes (h : plan.Built place siblings) (hg : ∀ place, plan.guests place = [])
    (hc : ∀ place children, (plan.node place children).children = children) {node : Route}
    (hm : node ∈ Forest.nodes siblings) : ∃ above a children, plan.reaches (above ++ [a]) ∧
      plan.Built (above ++ [a]) children ∧ node = plan.node (above ++ [a]) children := by
  have hnone : ∀ place, ∀ guest ∈ plan.guests place, guest.children = [] := by
    intro place guest hguest
    rw [hg place] at hguest
    cases hguest
  refine (h.cases_of_mem_nodes ⟨hc, hnone⟩ hm).resolve_right ?_
  rintro ⟨above, hguest⟩
  rw [hg above] at hguest
  cases hguest

/-- Where beginnings of places are places, the route at a place is among the nodes. -/
theorem Built.mem_nodes_of_reaches (h : plan.Built place siblings) (hk : plan.KeepsChildren)
    (begin : ∀ above below, plan.reaches (above ++ below) → plan.reaches above) {below : List α} (hne : below ≠ [])
    (hr : plan.reaches (place ++ below)) : ∃ children, plan.Built (place ++ below) children ∧
      plan.node (place ++ below) children ∈ Forest.nodes siblings := by
  induction below generalizing place siblings with
  | nil => exact absurd rfl hne
  | cons a below ih =>
    have hassoc : place ++ a :: below = (place ++ [a]) ++ below := by simp
    rw [hassoc] at hr ⊢
    obtain ⟨children, hbuilt, hm⟩ := h.exists_of_reaches (begin _ _ hr)
    obtain ⟨before, after, rfl⟩ := List.append_of_mem hm
    by_cases hend : below = []
    · subst hend
      rw [List.append_nil]
      exact ⟨children, hbuilt, Forest.mem_nodes_append.mpr (.inr (Forest.mem_nodes_cons.mpr (.inl rfl)))⟩
    · obtain ⟨inner, hinner, hnode⟩ := ih hbuilt hend hr
      refine ⟨inner, hinner, Forest.mem_nodes_append.mpr (.inr (Forest.mem_nodes_cons.mpr (.inr (.inl ?_))))⟩
      rwa [hk.node]

theorem exists_map_eq {γ δ : Type} {P : γ → Prop} {g : γ → δ} {ys : List δ} (h : ∀ y ∈ ys, ∃ x, P x ∧ g x = y) :
    ∃ xs : List γ, xs.map g = ys ∧ ∀ x ∈ xs, P x := by
  induction ys with
  | nil => exact ⟨[], rfl, by simp⟩
  | cons y ys ih =>
    obtain ⟨x, hx, rfl⟩ := h y List.mem_cons_self
    obtain ⟨xs, rfl, hxs⟩ := ih fun y hy => h y (List.mem_cons_of_mem _ hy)
    refine ⟨x :: xs, rfl, fun z hz => ?_⟩
    rcases List.mem_cons.mp hz with rfl | hz
    · exact hx
    · exact hxs z hz

/--
A plan may be read with other names for the steps, as long as the names of the steps that lead on from a place tell them
apart. The two plans need to agree only inside some part of the tree that no step leaves.
-/
theorem Built.relabel {other : Plan β} (f : α → β) (inside : List α → Prop)
    (stay : ∀ place a, inside place → plan.reaches (place ++ [a]) → inside (place ++ [a]))
    (reaches : ∀ place b, inside place →
      (other.reaches (place.map f ++ [b]) ↔ ∃ a, plan.reaches (place ++ [a]) ∧ f a = b))
    (inj : ∀ place a a', inside place → plan.reaches (place ++ [a]) → plan.reaches (place ++ [a']) → f a = f a' →
      a = a')
    (node : ∀ place a children, inside place → plan.reaches (place ++ [a]) →
      other.node (place.map f ++ [f a]) children = plan.node (place ++ [a]) children)
    (guests : ∀ place, inside place → other.guests (place.map f) = plan.guests place)
    (hin : inside place) (h : other.Built (place.map f) siblings) :
    plan.Built place siblings := by
  generalize hplace : place.map f = place' at h
  induction h generalizing place with
  | @level place' siblings steps nodup mem below perm ih =>
    subst hplace
    -- the steps of the other plan are renamed one by one, by choice
    have hsteps : ∀ step ∈ steps, ∃ renamed : α × Forest,
        plan.reaches (place ++ [renamed.1]) ∧ (f renamed.1, renamed.2) = step := by
      intro step hs
      obtain ⟨a, ha, hfa⟩ := (reaches place step.1 hin).mp ((mem step.1).mp (List.mem_map_of_mem hs))
      exact ⟨(a, step.2), ha, by rw [hfa]⟩
    obtain ⟨renamed, rfl, hreach⟩ := exists_map_eq hsteps
    have hfst : (renamed.map fun step => (f step.1, step.2)).map Prod.fst = (renamed.map Prod.fst).map f := by
      rw [List.map_map, List.map_map]
      rfl
    rw [hfst] at nodup
    refine .level renamed (List.Nodup.of_map f nodup) (fun a => ⟨fun ha => ?_, fun ha => ?_⟩) (fun step hs => ?_) ?_
    · obtain ⟨step, hs, rfl⟩ := List.mem_map.mp ha
      exact hreach step hs
    · have hfa := (mem (f a)).mpr ((reaches place (f a) hin).mpr ⟨a, ha, rfl⟩)
      rw [hfst] at hfa
      obtain ⟨a', ha', heq⟩ := List.mem_map.mp hfa
      obtain ⟨step, hs, rfl⟩ := List.mem_map.mp ha'
      exact inj place _ _ hin ha (hreach step hs) heq.symm ▸ ha'
    · refine ih _ (List.mem_map_of_mem hs) (stay place step.1 hin (hreach step hs)) ?_
      rw [List.map_append]
      rfl
    · rw [List.map_map, guests place hin] at perm
      refine perm.trans (.of_eq (congrArg (· ++ _) (List.map_congr_left fun step hs => ?_)))
      exact node place step.1 step.2 hin (hreach step hs)

end Plan

end PageRouting
