import PageRouting.Proofs.Dating
import PageRouting.Proofs.Keys

/-!
# `PageRouting/Proofs/Precedence.lean` — siblings are always in the order in which they are tried

Every insertion sorts the one list of siblings that it adds a route to, and no insertion touches the path of a route that is
there. So every list stays sorted by `Pattern.compare`, on which the patterns that insertion emits are in an order; and since
the sort is stable and a new route is put behind the others first, routes that tie stay in the order of their dates.

A colon or a star in literal text would make the text be read as another token, so such keys are left out. Names that
collide, pages of one name and index pages are not.
-/

set_option autoImplicit false

namespace PageRouting

namespace Dated

/-- Is a route with the first stamp rightly before one with the second: not less specific, and older where they tie? -/
def TriedBefore (a b : Nat × Text) : Prop :=
  Pattern.compare a.2 b.2 ≠ .gt ∧ (Pattern.compare a.2 b.2 = .eq → a.1 < b.1)

/-- What holds of the stamps on any level when a number of pages have been placed. -/
structure InOrder (now : Nat) (stamps : List (Nat × Text)) : Prop where
  emitted : ∀ a ∈ stamps, Pattern.Emitted a.2
  earlier : ∀ a ∈ stamps, a.1 < now
  tried : stamps.Pairwise TriedBefore

variable {now : Nat} {stamps : List (Nat × Text)}

theorem InOrder.mono (h : InOrder now stamps) : InOrder (now + 1) stamps :=
  ⟨h.emitted, fun a hm => Nat.lt_succ_of_lt (h.earlier a hm), h.tried⟩

/-- A new stamp goes behind those that it ties with, which are all older. -/
theorem InOrder.attach (h : InOrder now stamps) {path : Text} (hpath : Pattern.Emitted path) :
    InOrder (now + 1) (stableSort (fun a b => Pattern.compare a.2 b.2 == .lt) (stamps ++ [(now, path)])) := by
  have hemitted : ∀ a, a ∈ stamps ++ [(now, path)] → Pattern.Emitted a.2 := by
    intro a hm
    rcases List.mem_append.mp hm with hm | hm
    · exact h.emitted a hm
    · rw [List.mem_singleton.mp hm]
      exact hpath
  refine ⟨fun a hm => hemitted a (mem_stableSort.mp hm), fun a hm => ?_, ?_⟩
  · rcases List.mem_append.mp (mem_stableSort.mp hm) with hm | hm
    · exact Nat.lt_succ_of_lt (h.earlier a hm)
    · rw [List.mem_singleton.mp hm]
      exact Nat.lt_succ_self now
  · refine stableSort_concat_pairwise (Pattern.orders_of_emitted hemitted) ?_ h.tried ?_ ?_
    · intro a ha b hb hab
      rw [beq_eq_false_iff_ne, Pattern.compare_swap (h.emitted a ha) (h.emitted b hb)]
      intro hlt
      exact hab.1 (Ordering.swap_eq_lt.mp hlt)
    -- in front of the new one: not less specific, and older in any case
    · intro a ha hnew
      refine ⟨fun hgt => ?_, fun _ => h.earlier a ha⟩
      rw [beq_eq_false_iff_ne, Pattern.compare_swap (h.emitted a ha) hpath, hgt] at hnew
      exact hnew rfl
    -- behind it: what is less specific, so that there is no tie
    · intro b _ hnew
      have hlt : Pattern.compare path b.2 = .lt := beq_iff_eq.mp hnew
      exact ⟨by rw [hlt]; simp, fun heq => absurd (hlt.symm.trans heq) (by simp)⟩

theorem touches_inOrder (now : Nat) : Touches now Pattern.Emitted (fun siblings => InOrder now (siblings.map stamp))
    (fun siblings => InOrder (now + 1) (siblings.map stamp)) where
  nil := ⟨by simp, by simp, .nil⟩
  same h hs := by
    rw [hs]
    exact h.mono
  attach {siblings dated} h hsince hpath := by
    subst hsince
    have hmap : stableSort (fun a b => Pattern.compare a.2 b.2 == .lt) ((siblings ++ [dated]).map stamp) =
        (Dated.attach siblings dated).map stamp := stableSort_map (fun _ _ => rfl) _
    rw [← hmap, List.map_append]
    exact h.attach hpath

end Dated

theorem EveryLevel.routes {P : List Dated → Prop} {Q : Forest → Prop} (h : ∀ siblings, P siblings → Q (Dated.routes siblings))
    {siblings : List Dated} (hp : EveryLevel Dated.children P siblings) :
    EveryLevel Route.children Q (Dated.routes siblings) := by
  induction hp with
  | @level siblings here below ih =>
    refine .level (h _ here) fun route hm => ?_
    rw [Dated.routes_eq_map] at hm
    obtain ⟨dated, hd, rfl⟩ := List.mem_map.mp hm
    rw [Dated.route_children]
    exact ih dated hd

namespace Forest

/--
**Siblings are always in the order in which they are tried.** However many entries have been inserted, and in whatever order,
no route on any level stands before a more specific one; and of two that tie, the one that was attached first stands first.
The dates are those of the insertion itself: without them the dated forest is the forest.
-/
theorem insertAll_precedence (entries : List PageEntry)
    (h : ∀ entry ∈ entries, ∀ key, Segment.static key ∈ entry.segments → ':' ∉ key ∧ '*' ∉ key) :
    EveryLevel Route.children (fun siblings => siblings.Pairwise fun a b => Pattern.compare a.path b.path ≠ .gt)
        (insertAll entries []).1 ∧
      Dated.routes (Dated.insertAll entries) = (insertAll entries []).1 ∧
      EveryLevel Dated.children (fun siblings => siblings.Pairwise fun a b =>
        Pattern.compare a.path b.path ≠ .gt ∧ (Pattern.compare a.path b.path = .eq → a.since < b.since))
        (Dated.insertAll entries) := by
  have hemitted : ∀ entry ∈ entries, ∀ segment ∈ entry.segments, ∀ position isLast,
      Pattern.Emitted (segment.contribution position isLast) := by
    intro entry he segment hs position isLast
    refine Segment.emitted_contribution position isLast fun key hk => ?_
    exact h entry he key (hk ▸ hs)
  have hlevels := Dated.everyLevel_insertAll Dated.touches_inOrder .nothing hemitted
  have hpairs : EveryLevel Dated.children (fun siblings => siblings.Pairwise fun a b =>
      Pattern.compare a.path b.path ≠ .gt ∧ (Pattern.compare a.path b.path = .eq → a.since < b.since))
      (Dated.insertAll entries) := by
    refine hlevels.mono fun siblings hin => ?_
    exact List.pairwise_map.mp hin.tried
  refine ⟨?_, Dated.routes_insertAll entries, hpairs⟩
  rw [← Dated.routes_insertAll]
  refine EveryLevel.routes (fun siblings hp => ?_) hpairs
  rw [Dated.routes_eq_map, List.pairwise_map]
  refine hp.imp fun {a b} hab => ?_
  rw [Dated.route_path, Dated.route_path]
  exact hab.1

/--
Two names that collide, a page that comes twice, and a directory with an index page, none of them in order. The literals `b` and `a` tie
at the top and stay in the order of their dates.
-/
theorem insertAll_precedence_collisions :
    let layout : Layout := ⟨"/srv".toList, Layout.defaultPagesDir, Layout.defaultExtensions, .posix⟩
    let entries := PageEntry.readable layout
      ["pages/_.vue".toList, "pages/b.vue".toList, "pages/_id/all.vue".toList, "pages/a.vue".toList,
        "pages/index.vue".toList, "pages/_id/_.js".toList, "pages/b.js".toList, "pages/id/index.vue".toList]
    (∀ entry ∈ entries, ∀ key, Segment.static key ∈ entry.segments → ':' ∉ key ∧ '*' ∉ key) ∧
      (Dated.insertAll entries).map (fun dated => (Dated.stamp dated, dated.children.map Dated.stamp)) =
        [((1, "/b".toList), [(6, [])]), ((3, "/a".toList), []), ((4, "/".toList), []),
          ((2, "/:id?".toList), [(7, []), (2, "/all".toList)]), ((0, "/*".toList), [])] ∧
      Dated.routes (Dated.insertAll entries) = (insertAll entries []).1 ∧
      EveryLevel Dated.children (fun siblings => siblings.Pairwise fun a b =>
        Pattern.compare a.path b.path ≠ .gt ∧ (Pattern.compare a.path b.path = .eq → a.since < b.since))
        (Dated.insertAll entries) ∧
      EveryLevel Route.children (fun siblings => siblings.Pairwise fun a b => Pattern.compare a.path b.path ≠ .gt)
        (insertAll entries []).1 := by
  intro layout entries
  have hkeys : ∀ entry ∈ entries, ∀ key, Segment.static key ∈ entry.segments → ':' ∉ key ∧ '*' ∉ key := by
    have hread : ∀ entry ∈ entries, ∀ segment ∈ entry.segments, ':' ∉ segment.key ∧ '*' ∉ segment.key := by
      decide +kernel
    intro entry he key hk
    exact hread entry he _ hk
  obtain ⟨hroutes, hdates, hdated⟩ := insertAll_precedence entries hkeys
  exact ⟨hkeys, by decide +kernel, hdates, hdated, hroutes⟩

end Forest

end PageRouting
