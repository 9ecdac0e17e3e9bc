import PageRouting.Proofs.Settling

/-!
# `PageRouting/Proofs/Wrappers.lean` — routes without a name

A route loses its name in a collapse pass if one of its children has the empty pattern, since that child then shows its page.
The pass asks this of the children as insertion left them, and goes on to change their patterns afterwards: it takes a slash
from each, and a question mark from some. Where keys are not empty and hold no question mark, that makes no pattern empty that
was not empty before (`Segment.newPath_eq_nil_iff`), so in the compiled forest the routes without a name are still those with
an empty pattern among their children (`nameless_iff`).
-/

set_option autoImplicit false

namespace PageRouting

/-- Below the top level a pass leaves the empty pattern empty, and makes no other one empty. -/
theorem Segment.newPath_eq_nil_iff (indexes : List IndexName) (name : Option Text) {segment : Segment}
    (hkey : segment.key ≠ []) (hslash : '/' ∉ segment.key) (hq : '?' ∉ segment.key) {position : Nat} (hbelow : position ≠ 0)
    (isLast : Bool) : Collapse.newPath indexes true name (segment.contribution position isLast) = [] ↔
      segment.contribution position isLast = [] := by
  unfold Segment.contribution
  by_cases hindex : segment = .index ∧ isLast
  · rw [if_pos hindex, if_neg hbelow]
    simp [Collapse.newPath]
  · have hrequired := required_ne_nil hkey
    have htext : segment.token.text ≠ [] := by
      intro hnil
      rw [← erase_text hq, hnil] at hrequired
      exact hrequired rfl
    rw [if_neg hindex, newPath_text indexes true name hslash hq]
    by_cases hnone : indexes = []
    · simp [hnone, htext]
    · simp [hnone, hrequired]

namespace Trie

variable {entries : List PageEntry} {place : List Text} {children : Forest}

/-- In the settled trie too a place is shown by a child with the empty pattern. -/
theorem exists_settled_path_eq_nil_iff (hentries : ∀ e ∈ entries, e.IsLabelled)
    (hkeys : ∀ e ∈ entries, ∀ segment ∈ e.segments, segment.key ≠ [] ∧ '/' ∉ segment.key ∧ '?' ∉ segment.key)
    (hne : place ≠ []) (h : (settled entries).Built place children) :
    (∃ child ∈ children, child.path = []) ↔ IsShownBelow entries place := by
  refine exists_path_eq_nil_iff hentries (settled entries) (fun _ => Iff.rfl) ?_ (fun label below hr => ?_) h
  · simp only [settled, List.map_map, Function.comp_def]
  · obtain ⟨entry, hm, segment, hsegment, isLast, -, hpath⟩ := exists_segment hr below
    obtain ⟨hkey, hslash, hq⟩ := hkeys entry hm segment hsegment
    have hchild : decide (place ≠ []) = true := decide_eq_true hne
    have hpath' : ((plan entries).node (place ++ [label]) []).path = segment.contribution place.length isLast := hpath
    have hposition : place.length ≠ 0 := fun hlength => hne (List.eq_nil_of_length_eq_zero hlength)
    simp only [settled, List.dropLast_concat, hchild, hpath, hpath']
    exact Segment.newPath_eq_nil_iff _ _ hkey hslash hq hposition isLast

end Trie

namespace Compilation

/--
**A route of a compiled forest has no name exactly if a child of it has the empty pattern.** Nothing is asked of the page files
but that their keys are not empty and hold no question mark: names may be taken twice, and directories may be called `index`.
-/
theorem nameless_iff (layout : Layout) (files : List Text)
    (hkeys : ∀ file ∈ files, ∀ keys, layout.keys file = .ok keys → ∀ key ∈ keys, key ≠ [] ∧ '?' ∉ key)
    (forest : Forest) (h : (compile layout files).result = .ok forest) :
    ∀ node ∈ forest.nodes, node.name = none ↔ ∃ child ∈ node.children, child.path = [] := by
  obtain ⟨entries, he, hentries, -, hbuilt⟩ := Trie.built_of_compile h
  have hsegments : ∀ e ∈ entries, ∀ segment ∈ e.segments, segment.key ≠ [] ∧ '/' ∉ segment.key ∧ '?' ∉ segment.key := by
    intro e hm segment hsegment
    obtain ⟨file, hfile, hread⟩ := (mem_entries_iff he).mp hm
    obtain ⟨keys, _, hk, -, rfl⟩ := PageEntry.ofFile_eq_ok_iff.mp hread
    obtain ⟨key, hkey, rfl⟩ := List.mem_map.mp hsegment
    rw [Segment.key_ofKey]
    obtain ⟨hne, hq⟩ := hkeys file hfile keys hk key hkey
    exact ⟨hne, Layout.slash_not_mem_of_keys_eq hk hkey, hq⟩
  intro node hm
  rcases hbuilt.cases_of_mem_nodes (Trie.keepsChildren_settled entries) hm with
    ⟨above, label, children, -, hbelow, rfl⟩ | ⟨above, hguest⟩
  · -- a place: it lost its name for a child that insertion gave the empty pattern
    have hname : ((Trie.settled entries).node (above ++ [label]) children).name = none ↔
        Trie.IsShownBelow entries (above ++ [label]) := by
      simp [Trie.settled]
    rw [hname, ← Trie.exists_settled_path_eq_nil_iff hentries hsegments (by simp) hbelow]
    rfl
  · -- a guest: it has a name, and no children
    rw [(Trie.keepsChildren_settled entries).guests above node hguest]
    obtain ⟨before, hbefore, rfl⟩ := List.mem_map.mp hguest
    obtain ⟨-, -, hname, -⟩ := Trie.reaches_of_mem_guests hentries hbefore
    simp [hname]

/-- Two pages of one name, a directory with a page of its own, and a directory called `index`. -/
theorem nameless_iff_twins :
    let layout : Layout := ⟨"/srv".toList, Layout.defaultPagesDir, Layout.defaultExtensions, .posix⟩
    let files := ["pages/a.vue".toList, "pages/a.js".toList, "pages/b/index.vue".toList, "pages/b/_id.vue".toList,
      "pages/index/c.vue".toList]
    (∀ file ∈ files, ∀ keys, layout.keys file = .ok keys → ∀ key ∈ keys, key ≠ [] ∧ '?' ∉ key) ∧
      ∃ forest, (compile layout files).result = .ok forest ∧
        forest.nodes.map (fun node => (node.path, node.name)) =
          [("/a".toList, none), ([], some "a".toList), ("/b".toList, none), ([], some "b".toList),
            (":id".toList, some "b-id".toList), ("/index".toList, some []), ("c".toList, some "index-c".toList)] ∧
        ∀ node ∈ forest.nodes, node.name = none ↔ ∃ child ∈ node.children, child.path = [] := by
  intro layout files
  have hkeys : ∀ file ∈ files, ∀ keys, layout.keys file = .ok keys → ∀ key ∈ keys, key ≠ [] ∧ '?' ∉ key := by
    have hall : ∀ file ∈ files, ∀ key ∈ (layout.keys file).toOption.getD [], key ≠ [] ∧ '?' ∉ key := by decide +kernel
    intro file hfile keys hk key hkey
    apply hall file hfile key
    rw [hk]
    exact hkey
  have hnodes : ((compile layout files).result.map fun forest => forest.nodes.map fun node => (node.path, node.name)) =
      .ok [("/a".toList, none), ([], some "a".toList), ("/b".toList, none), ([], some "b".toList),
        (":id".toList, some "b-id".toList), ("/index".toList, some []), ("c".toList, some "index-c".toList)] := by
    decide +kernel
  refine ⟨hkeys, ?_⟩
  cases hr : (compile layout files).result with
  | ok forest =>
    rw [hr] at hnodes
    exact ⟨forest, rfl, Except.ok.inj hnodes, nameless_iff layout files hkeys forest hr⟩
  | error fault =>
    rw [hr] at hnodes
    cases hnodes

end Compilation

end PageRouting
