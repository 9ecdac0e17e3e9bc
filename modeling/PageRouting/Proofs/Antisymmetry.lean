import PageRouting.Proofs.Standing

/-!
# `PageRouting/Proofs/Antisymmetry.lean` — the comparison of two patterns, turned round

The comparison of two patterns, turned round, gives the answer turned round, for any two texts but those of one kind: a
pattern that ends in a star, and one with the same ranks that goes on behind the star with an empty token. A star lets its
continuations go first, but not this one, and a continuation goes before its star whatever it is; so each of the two is tried
before the other (`Pattern.Circular`, `Pattern.compare_swap_or_circular`).

The comparison takes the tokens of both lists off together. Seen as a walk that reads both lists at one position, it asks of
each position only whether it is inside the first list (`Pattern.walkTokens`). It never reads behind the end of the second one
all the same, because it decides at the last token of the second list at the latest (`Pattern.walkTokens_eq_some`).
-/

set_option autoImplicit false

namespace PageRouting.Pattern

/-! ## The comparison as a walk -/

/--
The comparison of two token lists from a position on. It fails where it reads behind the end of a list, and looks only at the
length of the first list before it reads a token of either.
-/
def walkTokens (as bs : List Token) (position : Nat) : Option Ordering :=
  if position < as.length then do
    let a ← as[position]?
    let b ← bs[position]?
    match compareRanks a.rank b.rank with
    | .eq =>
      if position + 1 = bs.length then
        -- the second list ends here
        return if as.length = bs.length then .eq else if a = .catchAll then .lt else .gt
      else walkTokens as bs (position + 1)
    | decided => return decided
  else do
    -- the first list has ended
    let last ← as[position - 1]?
    if last = .catchAll ∧ position < bs.length then
      let next ← bs[position]?
      return if next = .static [] then .lt else .gt
    else return .lt
termination_by as.length - position

/-- The comparison of two patterns, with their tokens read by position. -/
def walk (a b : Text) : Option Ordering :=
  if a = b then some .eq
  else if a = [] then some .lt
  else if b = [] then some .gt
  else if a = ['/'] then some (if startsOpen b then .lt else .gt)
  else if b = ['/'] then some (if startsOpen a then .gt else .lt)
  else walkTokens (tokens a) (tokens b) 0

theorem walkTokens_inside {read read' as bs : List Token} {a b : Token} (hread : read.length = read'.length) :
    walkTokens (read ++ a :: as) (read' ++ b :: bs) read.length =
      match compareRanks a.rank b.rank with
      | .eq =>
        if bs = [] then some (if as = [] then .eq else if a = .catchAll then .lt else .gt)
        else walkTokens (read ++ a :: as) (read' ++ b :: bs) (read.length + 1)
      | decided => some decided := by
  have ha : (read ++ a :: as)[read.length]? = some a := by simp
  have hb : (read' ++ b :: bs)[read.length]? = some b := by simp [hread]
  have hin : read.length < (read ++ a :: as).length := by simp
  have hend : read.length + 1 = (read' ++ b :: bs).length ↔ bs = [] := by
    rw [List.length_append, List.length_cons, hread, ← List.length_eq_zero_iff]
    omega
  rw [walkTokens, if_pos hin, ha, hb]
  simp only [Option.bind_eq_bind, Option.bind_some, Option.pure_def, hend]
  cases hr : compareRanks a.rank b.rank with
  | lt | gt => rfl
  | eq =>
    dsimp only
    by_cases hbs : bs = []
    · have hlength : (read ++ a :: as).length = (read' ++ b :: bs).length ↔ as = [] := by
        simp [hread, hbs]
      rw [if_pos hbs, if_pos hbs]
      simp only [hlength]
    · rw [if_neg hbs, if_neg hbs]

theorem walkTokens_behind {read read' bs : List Token} {a b next : Token} (hread : read.length = read'.length) :
    walkTokens (read ++ [a]) (read' ++ b :: next :: bs) (read.length + 1) =
      some (if a = .catchAll ∧ next ≠ .static [] then .gt else .lt) := by
  have hlast : (read ++ [a])[read.length + 1 - 1]? = some a := by simp
  have hnext : (read' ++ b :: next :: bs)[read.length + 1]? = some next := by simp [hread]
  have hout : ¬ read.length + 1 < (read ++ [a]).length := by simp
  have hmore : read.length + 1 < (read' ++ b :: next :: bs).length := by simp [hread]
  rw [walkTokens, if_neg hout, hlast, hnext]
  simp only [Option.bind_eq_bind, Option.bind_some, Option.pure_def, hmore, and_true]
  by_cases hstar : a = .catchAll <;> by_cases hnothing : next = .static [] <;> simp [hstar, hnothing]

/-- From any position that both lists have, the walk ends, and compares what is left of them. -/
theorem walkTokens_append {read read' as bs : List Token} (hread : read.length = read'.length) (ha : as ≠ []) (hb : bs ≠ []) :
    walkTokens (read ++ as) (read' ++ bs) read.length = some (compareTokens as bs) := by
  fun_induction compareTokens as bs generalizing read read' with
  | case1 => exact absurd rfl ha
  | case2 => exact absurd rfl ha
  | case3 => exact absurd rfl hb
  | case4 a b =>
    rw [walkTokens_inside hread]
    cases compareRanks a.rank b.rank <;> rfl
  | case5 a _ _ b =>
    rw [walkTokens_inside hread]
    cases compareRanks a.rank b.rank <;> rfl
  | case6 a b next bs =>
    rw [walkTokens_inside hread, walkTokens_behind hread]
    cases compareRanks a.rank b.rank <;> rfl
  | case7 a a' as b b' bs ih =>
    have hread' : (read ++ [a]).length = (read' ++ [b]).length := by simp [hread]
    have hrest := ih hread' (List.cons_ne_nil _ _) (List.cons_ne_nil _ _)
    rw [List.append_assoc, List.append_assoc, List.length_append] at hrest
    rw [walkTokens_inside hread]
    cases compareRanks a.rank b.rank with
    | lt | gt => rfl
    | eq => exact hrest

/-- So no comparison reads behind the end of a list of tokens. -/
theorem walk_eq_some (a b : Text) : walk a b = some (Pattern.compare a b) := by
  have htokens : walkTokens (tokens a) (tokens b) 0 = some (compareTokens (tokens a) (tokens b)) :=
    @walkTokens_append [] [] _ _ rfl (tokens_ne_nil a) (tokens_ne_nil b)
  rw [walk, Pattern.compare, htokens]
  simp only [apply_ite some]

/-! ## Where the answer does not turn round -/

/-- The first list ends in a star; the second goes on behind it with an empty token, and up to there no rank differs. -/
structure StarThenNothing (as bs : List Token) : Prop where
  shorter : as.length < bs.length
  ranks : as.map Token.rank <+: bs.map Token.rank
  star : as.getLast? = some .catchAll
  nothing : bs[as.length]? = some (.static [])

/-- Two patterns that are compared token by token, of which one goes on behind the star of the other with an empty token. -/
structure Circular (a b : Text) : Prop where
  left : a ≠ [] ∧ a ≠ ['/']
  right : b ≠ [] ∧ b ≠ ['/']
  tokens : StarThenNothing (tokens a) (tokens b) ∨ StarThenNothing (tokens b) (tokens a)

theorem starThenNothing_cons_cons {a a' b b' : Token} {as bs : List Token} :
    StarThenNothing (a :: a' :: as) (b :: b' :: bs) ↔ a.rank = b.rank ∧ StarThenNothing (a' :: as) (b' :: bs) := by
  constructor
  · intro h
    obtain ⟨hrank, hranks⟩ := List.cons_prefix_cons.mp h.ranks
    exact ⟨hrank, Nat.lt_of_succ_lt_succ h.shorter, hranks, by simpa using h.star, by simpa using h.nothing⟩
  · rintro ⟨hrank, h⟩
    exact ⟨Nat.succ_lt_succ h.shorter, List.cons_prefix_cons.mpr ⟨hrank, h.ranks⟩, by simpa using h.star,
      by simpa using h.nothing⟩

theorem starThenNothing_singleton {a b next : Token} {bs : List Token} :
    StarThenNothing [a] (b :: next :: bs) ↔ a = .catchAll ∧ b = .catchAll ∧ next = .static [] := by
  constructor
  · intro h
    obtain rfl : a = .catchAll := by simpa using h.star
    have hrank : Token.catchAll.rank = b.rank := (List.cons_prefix_cons.mp h.ranks).1
    exact ⟨rfl, rank_eq_two.mp hrank.symm, by simpa using h.nothing⟩
  · rintro ⟨rfl, rfl, rfl⟩
    exact ⟨by simp, ⟨_, rfl⟩, rfl, rfl⟩

/-- Each of the two is tried before the other. -/
theorem StarThenNothing.compareTokens {as bs : List Token} (h : StarThenNothing as bs) :
    Pattern.compareTokens as bs = .lt ∧ Pattern.compareTokens bs as = .lt := by
  fun_induction Pattern.compareTokens as bs with
  | case1 => exact absurd h.shorter (by simp)
  | case2 => exact absurd h.star (by simp)
  | case3 => exact absurd h.shorter (by simp)
  | case4 => exact absurd h.shorter (by simp)
  | case5 => exact absurd h.shorter (by simp)
  | case6 a b next bs =>
    obtain ⟨rfl, rfl, rfl⟩ := starThenNothing_singleton.mp h
    exact ⟨rfl, rfl⟩
  | case7 a a' as b b' bs ih =>
    obtain ⟨hrank, hrest⟩ := starThenNothing_cons_cons.mp h
    obtain ⟨hlt, hlt'⟩ := ih hrest
    have htie : compareRanks a.rank b.rank = .eq := compareRanks_eq_eq.mpr hrank
    have htie' : compareRanks b.rank a.rank = .eq := compareRanks_eq_eq.mpr hrank.symm
    rw [Pattern.compareTokens, htie, htie', hlt, hlt']
    exact ⟨rfl, rfl⟩

/-- The last token of the shorter list, against the longer one: the tie is broken from both sides, by the same star. -/
theorem compareTokens_singleton_swap {a b next : Token} {bs : List Token} (h : ¬ StarThenNothing [a] (b :: next :: bs)) :
    compareTokens (b :: next :: bs) [a] = (compareTokens [a] (b :: next :: bs)).swap := by
  rw [compareTokens, compareTokens, compareRanks_swap a.rank b.rank]
  cases hr : compareRanks a.rank b.rank with
  | lt | gt => rfl
  | eq =>
    have hstar := catchAll_iff_of_tie hr
    have hnext : b = .catchAll → next ≠ .static [] := by
      rintro hb rfl
      exact h (starThenNothing_singleton.mpr ⟨hstar.mpr hb, hb, rfl⟩)
    by_cases hb : b = .catchAll <;> simp [hstar, hb, hnext]

theorem compareTokens_swap {as bs : List Token} (h : ¬ StarThenNothing as bs) (h' : ¬ StarThenNothing bs as) :
    compareTokens bs as = (compareTokens as bs).swap := by
  fun_induction compareTokens as bs with
  | case1 => rfl
  | case2 => rfl
  | case3 => rfl
  | case4 a b => exact compareRanks_swap a.rank b.rank
  | case5 a a' as b =>
    have hswap := compareTokens_singleton_swap h'
    rw [compareTokens] at hswap
    rw [hswap, Ordering.swap_swap]
  | case6 a b next bs => rw [compareTokens_singleton_swap h, compareTokens]
  | case7 a a' as b b' bs ih =>
    rw [compareTokens, compareRanks_swap a.rank b.rank]
    cases hr : compareRanks a.rank b.rank with
    | lt | gt => rfl
    | eq =>
      have hrank := compareRanks_eq_eq.mp hr
      exact ih (fun hs => h (starThenNothing_cons_cons.mpr ⟨hrank, hs⟩))
        fun hs => h' (starThenNothing_cons_cons.mpr ⟨hrank.symm, hs⟩)

theorem compare_eq_compareTokens {a b : Text} (ha : a ≠ [] ∧ a ≠ ['/']) (hb : b ≠ [] ∧ b ≠ ['/']) (hab : a ≠ b) :
    Pattern.compare a b = compareTokens (tokens a) (tokens b) := by
  rw [Pattern.compare, if_neg hab, if_neg ha.1, if_neg hb.1, if_neg ha.2, if_neg hb.2]

theorem Circular.compare_eq {a b : Text} (h : Circular a b) : Pattern.compare a b = .lt ∧ Pattern.compare b a = .lt := by
  have hab : a ≠ b := by
    rintro rfl
    rcases h.tokens with hs | hs <;> exact absurd hs.shorter (Nat.lt_irrefl _)
  rw [compare_eq_compareTokens h.left h.right hab, compare_eq_compareTokens h.right h.left hab.symm]
  rcases h.tokens with hs | hs
  · exact hs.compareTokens
  · exact hs.compareTokens.symm

/-- The empty pattern and the bare slash have their places among all others, whichever side they are on. -/
theorem compare_swap_of_not_circular {a b : Text} (h : ¬ Circular a b) : Pattern.compare b a = (Pattern.compare a b).swap := by
  by_cases hab : a = b
  · simp [Pattern.compare, hab]
  have hba : b ≠ a := fun he => hab he.symm
  by_cases ha : a = []
  · have hb : b ≠ [] := fun hb => hab (ha.trans hb.symm)
    simp [Pattern.compare, ha, hb, hb.symm]
  by_cases hb : b = []
  · simp [Pattern.compare, hb, ha, Ne.symm ha]
  by_cases hsa : a = ['/']
  · have hsb : b ≠ ['/'] := fun hsb => hab (hsa.trans hsb.symm)
    simp only [Pattern.compare, if_neg hab, if_neg hba, if_neg ha, if_neg hb, if_pos hsa, if_neg hsb]
    split <;> rfl
  by_cases hsb : b = ['/']
  · simp only [Pattern.compare, if_neg hab, if_neg hba, if_neg ha, if_neg hb, if_neg hsa, if_pos hsb]
    split <;> rfl
  rw [compare_eq_compareTokens ⟨hb, hsb⟩ ⟨ha, hsa⟩ hba, compare_eq_compareTokens ⟨ha, hsa⟩ ⟨hb, hsb⟩ hab]
  exact compareTokens_swap (fun hs => h ⟨⟨ha, hsa⟩, ⟨hb, hsb⟩, .inl hs⟩) fun hs => h ⟨⟨ha, hsa⟩, ⟨hb, hsb⟩, .inr hs⟩

/--
**The comparison of any two texts ends without reading behind the end of a token list, and turns round with its arguments**,
but for circular pairs, of which each is tried before the other.
-/
theorem compare_swap_or_circular (a b : Text) :
    walk a b = some (Pattern.compare a b) ∧
      ((¬ Circular a b ∧ Pattern.compare b a = (Pattern.compare a b).swap) ∨
        (Circular a b ∧ Pattern.compare a b = .lt ∧ Pattern.compare b a = .lt)) := by
  refine ⟨walk_eq_some a b, ?_⟩
  by_cases h : Circular a b
  · exact .inr ⟨h, h.compare_eq⟩
  · exact .inl ⟨h, compare_swap_of_not_circular h⟩

end PageRouting.Pattern
