import Mathlib.Data.List.Chain
import PageRouting.Proofs.Standing
import PageRouting.Route.Order

/-!
# `PageRouting/Proofs/Preorder.lean` — well-formed patterns are in an order

On all texts the order in which patterns are tried is no order. It is one on well-formed patterns (`Pattern.WellFormed`), of
however many tokens: patterns that are empty or begin with a slash, in which a colon opens its token, a star is alone in its
token, and no star goes on with an empty token.

Each well-formed pattern has a course of its own (`Pattern.course`), which says for each of its tokens, and for its end, where it
stands among all that may follow the same beginning. The end of a pattern stands before every token, but behind a star it stands
after every token. The bare slash has a course that no other pattern has, between those of literals and of parameters. Patterns
are then compared by their courses in the order of the dictionary (`Pattern.compare_eq_compareCourses`), and so their order is
total and transitive, and leaves a stable sort no choice (`Pattern.compare_preorder`).
-/

set_option autoImplicit false

namespace PageRouting.Pattern

/-- A pattern in which every token can be told from its first character, and no star goes on with an empty token. -/
structure WellFormed (pattern : Text) : Prop where
  absolute : pattern = [] ∨ pattern.head? = some '/'
  token : ∀ piece ∈ Text.split '/' pattern,
    piece = ['*'] ∨ piece.head? = some ':' ∨ (':' ∉ piece ∧ piece.head? ≠ some '*')
  star : (Text.split '/' pattern).IsChain fun piece next => piece = ['*'] → next ≠ []

instance : DecidablePred WellFormed := fun pattern =>
  decidable_of_iff ((pattern = [] ∨ pattern.head? = some '/') ∧
      (∀ piece ∈ Text.split '/' pattern, piece = ['*'] ∨ piece.head? = some ':' ∨ (':' ∉ piece ∧ piece.head? ≠ some '*')) ∧
      (Text.split '/' pattern).IsChain fun piece next => piece = ['*'] → next ≠ [])
    ⟨fun ⟨absolute, token, star⟩ => ⟨absolute, token, star⟩, fun h => ⟨h.absolute, h.token, h.star⟩⟩

/-! ## Courses -/

/-- The tiers of the tokens, and behind them the place of the end: before all tiers, or after all of them if a star is last. -/
def courseOfTokens : List Token → List Nat
  | [] => [0]
  | [token] => [(tokenStanding token).1, if token = .catchAll then 5 else 0]
  | token :: next :: rest => (tokenStanding token).1 :: courseOfTokens (next :: rest)

/-- The course of a pattern. That of the bare slash leads between those of literals and of parameters. -/
def course (pattern : Text) : List Nat :=
  if pattern = [] then []
  else if pattern = ['/'] then [1, 2]
  else courseOfTokens (tokens pattern)

/-- Patterns in the order in which a dictionary would have their courses. -/
def compareCourses (a b : Text) : Ordering :=
  List.compareLex compareRanks (course a) (course b)

instance : Std.TransCmp compareCourses :=
  have : Std.TransCmp fun a b : Text => List.compareLex compareRanks (course a) (course b) :=
    { eq_swap := Std.OrientedCmp.eq_swap, isLE_trans := Std.TransCmp.isLE_trans }
  this

theorem compareRanks_tokenStanding (a b : Token) :
    compareRanks (tokenStanding a).1 (tokenStanding b).1 = compareRanks a.rank b.rank := by
  cases a <;> cases b <;> rfl

theorem tokenStanding_bounds (token : Token) : 0 < (tokenStanding token).1 ∧ (tokenStanding token).1 < 5 := by
  cases token <;> simp [tokenStanding]

theorem exists_courseOfTokens_cons (token : Token) (rest : List Token) :
    ∃ tail, courseOfTokens (token :: rest) = (tokenStanding token).1 :: tail := by
  cases rest with
  | nil => exact ⟨_, rfl⟩
  | cons next rest => exact ⟨_, rfl⟩

/-- The end of a pattern against the token with which a longer one goes on. -/
theorem compare_end (last next : Token) (rest : List Token) :
    List.compareLex compareRanks [if last = .catchAll then 5 else 0] (courseOfTokens (next :: rest)) =
      (if last = .catchAll then .gt else .lt) ∧
    List.compareLex compareRanks (courseOfTokens (next :: rest)) [if last = .catchAll then 5 else 0] =
      if last = .catchAll then .lt else .gt := by
  obtain ⟨tail, htail⟩ := exists_courseOfTokens_cons next rest
  obtain ⟨hpos, hlt⟩ := tokenStanding_bounds next
  rw [htail, List.compareLex_cons_cons, List.compareLex_cons_cons]
  by_cases hstar : last = .catchAll
  · simp [hstar, compareRanks, hlt, Nat.lt_asymm hlt]
  · simp [hstar, compareRanks, hpos]

/--
Where no star goes on with an empty token, token lists are compared by their courses. It is enough to ask this of the second
list: a first list that goes on behind a star is tried before that star whatever it goes on with.
-/
theorem compareTokens_eq_compareLex {as bs : List Token} (ha : as ≠ []) (hb : bs ≠ [])
    (hstar : bs.IsChain fun token next => token = .catchAll → next ≠ .static []) :
    compareTokens as bs = List.compareLex compareRanks (courseOfTokens as) (courseOfTokens bs) := by
  fun_induction compareTokens as bs with
  | case1 => exact absurd rfl ha
  | case2 => exact absurd rfl ha
  | case3 => exact absurd rfl hb
  | case4 a b =>
    rw [courseOfTokens, courseOfTokens, List.compareLex_cons_cons, compareRanks_tokenStanding]
    cases hr : compareRanks a.rank b.rank with
    | lt | gt => rfl
    | eq =>
      simp only [catchAll_iff_of_tie hr, Ordering.eq_then]
      exact Std.ReflCmp.compare_self.symm
  | case5 a a' as b =>
    rw [courseOfTokens, courseOfTokens, List.compareLex_cons_cons, compareRanks_tokenStanding]
    cases hr : compareRanks a.rank b.rank with
    | lt | gt => rfl
    | eq => simp only [Ordering.eq_then, (compare_end b a' as).2, catchAll_iff_of_tie hr]
  | case6 a b next bs =>
    rw [courseOfTokens, courseOfTokens, List.compareLex_cons_cons, compareRanks_tokenStanding]
    cases hr : compareRanks a.rank b.rank with
    | lt | gt => rfl
    | eq =>
      -- a star that ends here yields to the longer list only if that one goes on with some text
      have hnext : a = .catchAll → next ≠ .static [] := fun h => (List.isChain_cons_cons.mp hstar).1 ((catchAll_iff_of_tie hr).mp h)
      rw [Ordering.eq_then, Ordering.eq_then, (compare_end a next bs).1]
      by_cases h : a = .catchAll
      · rw [if_pos ⟨h, hnext h⟩, if_pos h]
      · rw [if_neg (fun hs => h hs.1), if_neg h]
  | case7 a a' as b b' bs ih =>
    rw [courseOfTokens, courseOfTokens, List.compareLex_cons_cons, compareRanks_tokenStanding,
      ih (List.cons_ne_nil _ _) (List.cons_ne_nil _ _) (List.isChain_cons_cons.mp hstar).2]

/-! ## Well-formed patterns -/

theorem catchAll_of_ofText {piece : Text} (h : Token.ofText piece = .catchAll) : piece = ['*'] := by
  have htext := Token.text_ofText piece
  rw [h] at htext
  exact htext.symm

theorem nil_of_ofText {piece : Text} (h : Token.ofText piece = .static []) : piece = [] := by
  have htext := Token.text_ofText piece
  rw [h] at htext
  exact htext.symm

theorem WellFormed.isChain_tokens {pattern : Text} (h : WellFormed pattern) :
    (tokens pattern).IsChain fun token next => token = .catchAll → next ≠ .static [] := by
  rw [tokens, List.isChain_map]
  exact h.star.imp fun piece next hstar hp hn => hstar (catchAll_of_ofText hp) (nil_of_ofText hn)

theorem startsOpen_eq {rest piece : Text} {pieces : List Text} (h : Text.split '/' rest = piece :: pieces) :
    startsOpen ('/' :: rest) = (piece.head? == some ':' || piece.head? == some '*') := by
  cases rest with
  | nil =>
    obtain ⟨rfl, -⟩ := List.cons.inj h
    rfl
  | cons c cs =>
    by_cases hc : c = '/'
    · subst hc
      rw [Text.split, if_pos rfl] at h
      obtain ⟨rfl, -⟩ := List.cons.inj h
      rfl
    · obtain ⟨first, others, hs⟩ := List.exists_cons_of_ne_nil (Text.split_ne_nil '/' cs)
      simp only [Text.split, if_neg hc, hs] at h
      obtain ⟨rfl, -⟩ := List.cons.inj h
      rfl

/-- The first character behind the slash tells whether the first token is literal. -/
theorem WellFormed.exists_tokens {rest : Text} (h : WellFormed ('/' :: rest)) :
    ∃ first others, tokens ('/' :: rest) = .static [] :: first :: others ∧
      startsOpen ('/' :: rest) = decide (first.rank ≠ 0) := by
  obtain ⟨piece, pieces, hs⟩ := List.exists_cons_of_ne_nil (Text.split_ne_nil '/' rest)
  have htokens : tokens ('/' :: rest) = .static [] :: Token.ofText piece :: pieces.map Token.ofText := by
    rw [tokens_slash, tokens, hs, List.map_cons]
  have hmem : piece ∈ Text.split '/' ('/' :: rest) := by simp [Text.split, hs]
  refine ⟨Token.ofText piece, pieces.map Token.ofText, htokens, ?_⟩
  rw [startsOpen_eq hs]
  rcases h.token piece hmem with rfl | hcolon | ⟨hcolon, hstar⟩
  · rfl
  · obtain ⟨name, rfl⟩ := List.head?_eq_some_iff.mp hcolon
    have hrank : (Token.ofText (':' :: name)).rank = 1 := by
      rw [Token.ofText, if_neg (by simp), if_pos List.mem_cons_self, Token.ofParam]
      split <;> rfl
    simp [hrank]
  · have hcolon' : piece.head? ≠ some ':' := fun hh => hcolon (List.mem_of_head? hh)
    have hstar' : piece ≠ ['*'] := by
      rintro rfl
      exact hstar rfl
    simp [Token.ofText, Token.rank, hcolon, hstar, hcolon', hstar']

/-- The bare slash against a pattern of one token or more. -/
theorem compareLex_slash (first : Token) (others : List Token) :
    List.compareLex compareRanks [1, 2] (courseOfTokens (.static [] :: first :: others)) =
      (if first.rank = 0 then .gt else .lt) ∧
    List.compareLex compareRanks (courseOfTokens (.static [] :: first :: others)) [1, 2] =
      if first.rank = 0 then .lt else .gt := by
  obtain ⟨tail, htail⟩ := exists_courseOfTokens_cons first others
  rw [courseOfTokens, htail]
  cases first <;> exact ⟨rfl, rfl⟩

theorem exists_course_cons {pattern : Text} (h : pattern ≠ []) : ∃ place rest, course pattern = place :: rest := by
  rw [course, if_neg h]
  split
  · exact ⟨1, [2], rfl⟩
  · obtain ⟨first, others, htokens⟩ := List.exists_cons_of_ne_nil (tokens_ne_nil pattern)
    obtain ⟨tail, htail⟩ := exists_courseOfTokens_cons first others
    exact ⟨_, tail, by rw [htokens, htail]⟩

theorem WellFormed.compareCourses_slash {pattern : Text} (h : WellFormed pattern) (hne : pattern ≠ []) (hs : pattern ≠ ['/']) :
    compareCourses ['/'] pattern = (if startsOpen pattern then .lt else .gt) ∧
      compareCourses pattern ['/'] = if startsOpen pattern then .gt else .lt := by
  obtain ⟨rest, rfl⟩ := List.head?_eq_some_iff.mp (h.absolute.resolve_left hne)
  obtain ⟨first, others, htokens, hopens⟩ := h.exists_tokens
  have hcourse : course ('/' :: rest) = courseOfTokens (.static [] :: first :: others) := by
    rw [course, if_neg hne, if_neg hs, htokens]
  have hbare : course ['/'] = [1, 2] := rfl
  obtain ⟨hslash, hslash'⟩ := compareLex_slash first others
  rw [compareCourses, compareCourses, hbare, hcourse, hslash, hslash', hopens]
  by_cases hz : first.rank = 0 <;> simp [hz]

/-- **Well-formed patterns are compared by their courses.** -/
theorem compare_eq_compareCourses {a b : Text} (ha : WellFormed a) (hb : WellFormed b) :
    Pattern.compare a b = compareCourses a b := by
  by_cases hab : a = b
  · subst hab
    rw [Pattern.compare, if_pos rfl]
    exact Std.ReflCmp.compare_self.symm
  rw [Pattern.compare, if_neg hab]
  by_cases ha0 : a = []
  · subst ha0
    obtain ⟨place, rest, hcourse⟩ := exists_course_cons (Ne.symm hab)
    rw [if_pos rfl, compareCourses, hcourse]
    rfl
  rw [if_neg ha0]
  by_cases hb0 : b = []
  · subst hb0
    obtain ⟨place, rest, hcourse⟩ := exists_course_cons ha0
    rw [if_pos rfl, compareCourses, hcourse]
    rfl
  rw [if_neg hb0]
  by_cases has : a = ['/']
  · subst has
    rw [if_pos rfl, (hb.compareCourses_slash hb0 (Ne.symm hab)).1]
  rw [if_neg has]
  by_cases hbs : b = ['/']
  · subst hbs
    rw [if_pos rfl, (ha.compareCourses_slash ha0 hab).2]
  rw [if_neg hbs, compareCourses, course, course, if_neg ha0, if_neg has, if_neg hb0, if_neg hbs]
  exact compareTokens_eq_compareLex (tokens_ne_nil a) (tokens_ne_nil b) hb.isChain_tokens

/-! ## The order of well-formed patterns -/

/--
**On well-formed patterns the order in which they are tried is total and transitive.** So to tie is an equivalence, and siblings
with such patterns are in the one order that any stable sort gives them.
-/
theorem compare_preorder :
    (∀ a b, WellFormed a → WellFormed b → Pattern.compare b a = (Pattern.compare a b).swap) ∧
      (∀ a b c, WellFormed a → WellFormed b → WellFormed c →
        Pattern.compare a b ≠ .gt → Pattern.compare b c ≠ .gt → Pattern.compare a c ≠ .gt) ∧
      Equivalence (fun a b : { pattern // WellFormed pattern } => Pattern.compare a b = .eq) ∧
      ∀ siblings sorted : Forest, (∀ route ∈ siblings, WellFormed route.path) →
        (StablySorted (fun a b => Pattern.compare a.path b.path) siblings sorted ↔ sorted = Forest.sort siblings) := by
  refine ⟨fun a b ha hb => ?_, fun a b c ha hb hc hab hbc => ?_, ⟨fun a => ?_, fun {a b} hab => ?_, fun {a b c} hab hbc => ?_⟩,
    fun siblings sorted h => ?_⟩
  · rw [compare_eq_compareCourses ha hb, compare_eq_compareCourses hb ha]
    exact Std.OrientedCmp.eq_swap
  · rw [compare_eq_compareCourses ha hb] at hab
    rw [compare_eq_compareCourses hb hc] at hbc
    rw [compare_eq_compareCourses ha hc]
    exact Ordering.ne_gt_iff_isLE.mpr
      (Std.TransCmp.isLE_trans (Ordering.ne_gt_iff_isLE.mp hab) (Ordering.ne_gt_iff_isLE.mp hbc))
  · rw [compare_eq_compareCourses a.2 a.2]
    exact Std.ReflCmp.compare_self
  · rw [compare_eq_compareCourses a.2 b.2] at hab
    rw [compare_eq_compareCourses b.2 a.2]
    exact Std.OrientedCmp.eq_symm hab
  · rw [compare_eq_compareCourses a.2 b.2] at hab
    rw [compare_eq_compareCourses b.2 c.2] at hbc
    rw [compare_eq_compareCourses a.2 c.2]
    exact Std.TransCmp.eq_trans hab hbc
  · have : Std.TransCmp fun a b : Route => compareCourses a.path b.path :=
      { eq_swap := Std.OrientedCmp.eq_swap, isLE_trans := Std.TransCmp.isLE_trans }
    exact stablySorted_iff fun a ha b hb => compare_eq_compareCourses (h a ha) (h b hb)

/-- A star behind what it goes on with, the bare slash between literals and parameters, and two literals that tie. -/
theorem compare_preorder_stars :
    let routes : List String → Forest := List.map fun path => { name := none, path := path.toList }
    let siblings := routes ["/*", "/users/:id", "/", "/*/edit", "/team/:name?", "", "/:page", "/users"]
    let sorted := routes ["", "/users", "/users/:id", "/team/:name?", "/", "/:page", "/*/edit", "/*"]
    (∀ route ∈ siblings, WellFormed route.path) ∧
      StablySorted (fun a b => Pattern.compare a.path b.path) siblings sorted ∧
      Pattern.compare "/".toList "/*/edit".toList ≠ .gt ∧ Pattern.compare "/*/edit".toList "/*".toList ≠ .gt ∧
      Pattern.compare "/".toList "/*".toList ≠ .gt := by
  intro routes siblings sorted
  have hformed : ∀ route ∈ siblings, WellFormed route.path := by decide
  have hfirst : Pattern.compare "/".toList "/*/edit".toList ≠ .gt := by decide
  have hsecond : Pattern.compare "/*/edit".toList "/*".toList ≠ .gt := by decide
  obtain ⟨-, htrans, -, hsort⟩ := compare_preorder
  exact ⟨hformed, (hsort siblings sorted hformed).mpr rfl, hfirst, hsecond,
    htrans _ _ _ (by decide) (by decide) (by decide) hfirst hsecond⟩

end PageRouting.Pattern
