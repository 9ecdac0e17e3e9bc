import PageRouting.Proofs.Naming
import PageRouting.Proofs.Runs
import PageRouting.Url

/-!
# `PageRouting/Proofs/Grouping.lean` — fragments of a URL, joined in groups

Joining adds one slash to what is only squeezed: the second one of a scheme. An outer join does not see it, for it looks at
its fragments with their runs reduced, and so reduced a joined group is no other text than its fragments with slashes between
them. Where the groups are cut makes no difference then, and what a group had for a scheme is settled anew by the outer join
(`Url.join_groups`).

The one slash that comes in is also the only place where a joined URL has slashes in a row. A squeezed text has none, so a long
run is where the first `:/` was.
-/

set_option autoImplicit false

namespace PageRouting

/-! ## Groups of pieces -/

namespace Text

variable {c : Char}

theorem join_flatten {groups : List (List Text)} (h : ∀ group ∈ groups, group ≠ []) :
    join c (groups.map (join c)) = join c groups.flatten := by
  induction groups with
  | nil => rfl
  | cons group rest ih =>
    have hgroup : group ≠ [] := h group List.mem_cons_self
    have hrest : ∀ other ∈ rest, other ≠ [] := fun other hm => h other (List.mem_cons_of_mem _ hm)
    cases rest with
    | nil => simp [join]
    | cons next rest =>
      have hflat : (next :: rest).flatten ≠ [] := by simp [hrest next List.mem_cons_self]
      rw [List.flatten_cons, join_append hgroup hflat, ← ih hrest]
      rfl

/-- Pieces that differ in their runs only are joined to texts that do. -/
theorem squeeze_join_congr {pieces others : List Text}
    (h : List.Forall₂ (fun piece other => squeeze c piece = squeeze c other) pieces others) :
    squeeze c (join c pieces) = squeeze c (join c others) := by
  induction h with
  | nil => rfl
  | cons hpiece hrest ih =>
    cases hrest with
    | nil => exact hpiece
    | cons hnext hrest => exact squeeze_append_congr hpiece (squeeze_append_congr (s := [c]) rfl ih)

/-- A text in which a character never follows itself does not have it twice in a row. -/
theorem HasNoRun.not_infix {t : Text} (h : HasNoRun c t) : ¬ [c, c] <:+: t := by
  rintro ⟨front, rest, rfl⟩
  rw [List.append_assoc] at h
  exact (List.isChain_cons.mp (hasNoRun_append.mp h).2.1).1 c rfl ⟨rfl, rfl⟩

end Text

namespace Url

/-! ## The scheme's second slash -/

/-- The text is that of the URL up to the colon of its first `:/`. -/
structure IsScheme (url scheme : Text) : Prop where
  colon : scheme.getLast? = some ':'
  slash : scheme ++ ['/'] <+: url
  first : ¬ [':', '/'] <:+: scheme

/-- More slashes than one stand in a row, as many as there are, behind the given text. -/
structure LongRun (url front : Text) (length : Nat) : Prop where
  long : 1 < length
  starts : front.getLast? ≠ some '/'
  ends : ∃ rest, url = front ++ List.replicate length '/' ++ rest ∧ rest.head? ≠ some '/'

theorem LongRun.two_slashes {url front : Text} {length : Nat} (h : LongRun url front length) : front ++ ['/', '/'] <+: url := by
  obtain ⟨rest, rfl, -⟩ := h.ends
  obtain ⟨more, rfl⟩ : ∃ more, length = more + 2 := ⟨length - 2, by have := h.long; omega⟩
  exact ⟨List.replicate more '/' ++ rest, by simp [List.replicate_succ]⟩

/-- Either there is no `:/` and nothing changes, or the first one gets its slash. -/
theorem restoreScheme_cases (t : Text) :
    (¬ [':', '/'] <:+: t ∧ restoreScheme t = t) ∨
      ∃ scheme rest, t = scheme ++ '/' :: rest ∧ IsScheme t scheme ∧ restoreScheme t = scheme ++ '/' :: '/' :: rest := by
  fun_induction restoreScheme t with
  | case1 rest => exact .inr ⟨[':'], rest, rfl, ⟨rfl, ⟨rest, rfl⟩, by decide⟩, rfl⟩
  | case2 => exact .inl ⟨by decide, rfl⟩
  | case3 c cs hother ih =>
    -- the first `:/` does not begin here
    have hhere : ∀ rest : Text, rest <+: cs → ¬ [':', '/'] <+: c :: rest := by
      rintro rest ⟨more, rfl⟩ ⟨behind, hbehind⟩
      obtain ⟨rfl, rfl⟩ := List.cons.inj hbehind
      exact hother _ rfl rfl
    have hlater : ∀ rest : Text, rest <+: cs → ¬ [':', '/'] <:+: rest → ¬ [':', '/'] <:+: c :: rest := fun rest hrest hno hin =>
      (List.infix_cons_iff.mp hin).elim (hhere rest hrest) hno
    rcases ih with ⟨hno, hsame⟩ | ⟨scheme, rest, rfl, hscheme, hset⟩
    · exact .inl ⟨hlater cs (List.prefix_refl _) hno, congrArg _ hsame⟩
    · refine .inr ⟨c :: scheme, rest, rfl, ⟨?_, ⟨rest, by simp⟩, ?_⟩, congrArg _ hset⟩
      · rw [List.getLast?_cons, hscheme.colon]
        rfl
      · exact hlater scheme (List.prefix_append _ _) hscheme.first

theorem repeats_restoreScheme (t : Text) : Text.Repeats '/' t (restoreScheme t) := by
  rcases restoreScheme_cases t with ⟨-, hsame⟩ | ⟨scheme, rest, ht, -, hset⟩
  · rw [hsame]
    exact .refl t
  · rw [hset, ht]
    exact (Text.Repeats.refl scheme).append (.again (.refl _))

/-- With its runs reduced, a joined URL is the fragments with slashes between them, reduced likewise. -/
theorem squeeze_join (fragments : List Text) : Text.squeeze '/' (join fragments) = Text.squeeze '/' (Text.join '/' fragments) := by
  rw [join, (repeats_restoreScheme _).squeeze_eq, (Text.hasNoRun_squeeze '/' _).squeeze_eq]

/-- What is joined depends on the fragments up to their runs. -/
theorem join_congr {fragments others : List Text}
    (h : List.Forall₂ (fun fragment other => Text.squeeze '/' fragment = Text.squeeze '/' other) fragments others) :
    join fragments = join others := by
  rw [join, join, Text.squeeze_join_congr h]

/-- The URL of a group counts for no more than its fragments with slashes between them. -/
theorem join_map_join (groups : List (List Text)) : join (groups.map join) = join (groups.map (Text.join '/')) :=
  join_congr (List.forall₂_map_left_iff.mpr (List.forall₂_map_right_iff.mpr
    (List.forall₂_same.mpr fun group _ => squeeze_join group)))

/-! ## Slashes in a row -/

/-- There is one first `:/` at most. -/
theorem IsScheme.unique {url scheme other : Text} (h : IsScheme url scheme) (ho : IsScheme url other) : scheme = other := by
  -- a shorter one would put its `:/` into the longer one
  have shorter : ∀ {a b : Text}, IsScheme url a → IsScheme url b → b.length ≤ a.length := by
    intro a b ha hb
    by_contra hlt
    have hin : a ++ ['/'] <+: b := by
      refine List.prefix_of_prefix_length_le ha.slash ((List.prefix_append b ['/']).trans hb.slash) ?_
      simp only [List.length_append, List.length_singleton]
      omega
    obtain ⟨front, rfl⟩ := List.getLast?_eq_some_iff.mp ha.colon
    refine hb.first (List.IsInfix.trans ?_ hin.isInfix)
    exact ⟨front, [], by simp⟩
  have hlength : scheme.length = other.length := Nat.le_antisymm (shorter ho h) (shorter h ho)
  exact (List.prefix_of_prefix_length_le ((List.prefix_append _ _).trans h.slash) ((List.prefix_append _ _).trans ho.slash)
    hlength.le).eq_of_length hlength

/-- A slash put behind one that stands alone makes a run of two there, and the only long one. -/
theorem LongRun.of_doubled {scheme rest front : Text} {length : Nat} (hno : Text.HasNoRun '/' (scheme ++ '/' :: rest))
    (h : LongRun (scheme ++ '/' :: '/' :: rest) front length) : front = scheme ∧ length = 2 := by
  have htwo : scheme ++ ['/', '/'] <+: scheme ++ '/' :: '/' :: rest := ⟨rest, by simp⟩
  have hsame : front = scheme := by
    rcases Nat.lt_trichotomy front.length scheme.length with hlt | heq | hgt
    · -- the run would begin within the scheme and end before the new slash
      have hin : front ++ ['/', '/'] <+: scheme ++ ['/'] := by
        refine List.prefix_of_prefix_length_le h.two_slashes ⟨'/' :: rest, by simp⟩ ?_
        simp only [List.length_append, List.length_cons, List.length_nil]
        omega
      have hprefix : Text.HasNoRun '/' (scheme ++ ['/']) := List.IsChain.prefix hno ⟨rest, by simp⟩
      refine absurd (List.IsInfix.trans ?_ hin.isInfix) hprefix.not_infix
      exact ⟨front, [], by simp⟩
    · exact (List.prefix_of_prefix_length_le ((List.prefix_append _ _).trans h.two_slashes)
        (List.prefix_append _ _) heq.le).eq_of_length heq
    · -- it would begin behind the new slash: right there it has one in front, further on it is in the rest
      have hfront : scheme ++ ['/'] <+: front := by
        have hslash : scheme ++ ['/'] <+: scheme ++ '/' :: '/' :: rest := ⟨'/' :: rest, by simp⟩
        refine List.prefix_of_prefix_length_le hslash ((List.prefix_append _ _).trans h.two_slashes) ?_
        simp only [List.length_append, List.length_singleton]
        omega
      obtain ⟨between, rfl⟩ := hfront
      obtain ⟨behind, hbehind⟩ := h.two_slashes
      have hrest : between ++ ['/', '/'] ++ behind = '/' :: rest := by simpa using hbehind
      cases between with
      | nil => exact absurd (by simp) h.starts
      | cons slash between =>
        obtain ⟨rfl, rfl⟩ := List.cons.inj hrest
        refine absurd (?_ : ['/', '/'] <:+: _) hno.not_infix
        exact ⟨scheme ++ '/' :: between, behind, by simp⟩
  subst hsame
  obtain ⟨behind, hbehind, hend⟩ := h.ends
  obtain ⟨more, rfl⟩ : ∃ more, length = more + 2 := ⟨length - 2, by have := h.long; omega⟩
  have hrest : rest = List.replicate more '/' ++ behind := by simpa [List.replicate_succ] using hbehind
  cases more with
  | zero => exact ⟨rfl, rfl⟩
  | succ more =>
    -- a third slash would follow the one that stood alone
    subst hrest
    refine absurd (?_ : ['/', '/'] <:+: _) hno.not_infix
    exact ⟨front, List.replicate more '/' ++ behind, by simp [List.replicate_succ]⟩

/-- A joined URL has slashes in a row only as the two of its scheme. -/
theorem LongRun.of_join {fragments : List Text} {front : Text} {length : Nat} (h : LongRun (join fragments) front length) :
    length = 2 ∧ IsScheme (join fragments) front := by
  have hno : Text.HasNoRun '/' (Text.squeeze '/' (Text.join '/' fragments)) := Text.hasNoRun_squeeze '/' _
  unfold join at h ⊢
  rcases restoreScheme_cases (Text.squeeze '/' (Text.join '/' fragments)) with ⟨-, hsame⟩ | ⟨scheme, rest, ht, hscheme, hset⟩
  · rw [hsame] at h
    refine absurd (List.IsInfix.trans ?_ h.two_slashes.isInfix) hno.not_infix
    exact ⟨front, [], by simp⟩
  · rw [hset] at h ⊢
    rw [ht] at hno
    obtain ⟨rfl, htwo⟩ := h.of_doubled hno
    exact ⟨htwo, hscheme.colon, ⟨'/' :: rest, by simp⟩, hscheme.first⟩

/--
**Fragments may be joined in groups.** However a list of fragments is cut into groups, none of them empty, joining the groups and
then their URLs gives the URL of the whole list; so joining is associative, and a URL joined once more stays as it is. In what is
joined, slashes stand in a row at one place at most, there are two of them, and they follow the colon of its first `:/`.
-/
theorem join_groups {groups : List (List Text)} (hgroups : ∀ group ∈ groups, group ≠ []) :
    join (groups.map join) = join groups.flatten ∧
    (∀ a b c : Text, join [join [a, b], c] = join [a, join [b, c]]) ∧
    (∀ fragments : List Text, join [join fragments] = join fragments) ∧
    ∀ fragments : List Text,
      (∀ front length, LongRun (join fragments) front length → length = 2 ∧ IsScheme (join fragments) front) ∧
      ∀ front length other more, LongRun (join fragments) front length → LongRun (join fragments) other more →
        front = other := by
  refine ⟨?_, fun a b c => ?_, fun fragments => ?_, fun fragments => ⟨?_, ?_⟩⟩
  · rw [join_map_join, join, join, Text.join_flatten hgroups]
  · calc join [join [a, b], c]
      _ = join [Text.join '/' [a, b], c] := join_congr (.cons (squeeze_join _) (.cons rfl .nil))
      _ = join [a, Text.join '/' [b, c]] := by simp [join, Text.join]
      _ = join [a, join [b, c]] := (join_congr (.cons rfl (.cons (squeeze_join _) .nil))).symm
  · calc join [join fragments]
      _ = join [Text.join '/' fragments] := join_congr (.cons (squeeze_join _) .nil)
      _ = join fragments := rfl
  · exact fun front length h => h.of_join
  · exact fun front length other more h ho => h.of_join.2.unique ho.of_join.2

/-- The second group brings a scheme of its own, and so does the third; joined with the first group only one of them is left. -/
theorem join_groups_schemes :
    let groups := [["/a".toList], ["b:/".toList, "/c".toList], ["http://d/".toList, []]]
    (∀ group ∈ groups, group ≠ []) ∧ groups.map join = ["/a".toList, "b://c".toList, "http://d/".toList] ∧
      join (groups.map join) = "/a/b://c/http:/d/".toList := by
  intro groups
  have hgroups : ∀ group ∈ groups, group ≠ [] := by decide
  refine ⟨hgroups, by decide, ?_⟩
  rw [(join_groups hgroups).1]
  decide

end Url

end PageRouting
