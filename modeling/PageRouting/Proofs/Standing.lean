import PageRouting.PageEntry
import PageRouting.Pattern.Specificity
import PageRouting.Proofs.Sorting

/-!
# `PageRouting/Proofs/Standing.lean` — where a pattern stands among its siblings

`Pattern.compare` answers for every pair of texts, and on some of them it goes round in circles. On the patterns that
insertion emits (`Pattern.Emitted`) it does not: there it is the comparison of two things that each pattern has by itself,
the tier of its first token and the ranks of all its tokens (`compare_eq_compareStanding`). So it orders them up to ties, and
a list of siblings that is sorted by it is sorted for any two of its members (`orders_of_emitted`).

What a segment adds to a pattern is emitted unless it is literal text with a colon or a star in it
(`Segment.emitted_contribution`). Slashes in a key do no harm.
-/

set_option autoImplicit false

namespace PageRouting

/-- Does every list of siblings, on whatever level below the given one, satisfy a condition? -/
inductive EveryLevel {α : Type} (children : α → List α) (condition : List α → Prop) : List α → Prop
  | level {siblings : List α} (here : condition siblings)
      (below : ∀ a ∈ siblings, EveryLevel children condition (children a)) : EveryLevel children condition siblings

namespace EveryLevel

variable {α : Type} {children : α → List α} {P Q : List α → Prop} {siblings : List α}

theorem here (h : EveryLevel children P siblings) : P siblings := by
  cases h with
  | level here below => exact here

theorem descend (h : EveryLevel children P siblings) {a : α} (hm : a ∈ siblings) : EveryLevel children P (children a) := by
  cases h with
  | level here below => exact below a hm

theorem mono (h : EveryLevel children P siblings) (hPQ : ∀ siblings, P siblings → Q siblings) :
    EveryLevel children Q siblings := by
  induction h with
  | level here below ih => exact .level (hPQ _ here) ih

theorem nil (h : P []) : EveryLevel children P [] :=
  .level h (by simp)

/-- A level may be changed, as long as everything that is new on it is in order below. -/
theorem change (h : EveryLevel children P siblings) {others : List α} (hp : P others)
    (hm : ∀ a ∈ others, a ∈ siblings ∨ EveryLevel children P (children a)) : EveryLevel children P others := by
  refine .level hp fun a ha => ?_
  rcases hm a ha with hold | hnew
  · exact h.descend hold
  · exact hnew

end EveryLevel

/-! ## The pieces of a text -/

namespace Text

theorem mem_of_mem_split {c : Char} {t piece : Text} (h : piece ∈ split c t) : ∀ a ∈ piece, a ∈ t := by
  induction t generalizing piece with
  | nil =>
    obtain rfl := List.mem_singleton.mp h
    exact fun a ha => ha
  | cons b rest ih =>
    obtain ⟨first, others, hs⟩ := List.exists_cons_of_ne_nil (split_ne_nil c rest)
    intro a ha
    by_cases hb : b = c
    · rw [split, if_pos hb] at h
      rcases List.mem_cons.mp h with rfl | h
      · cases ha
      · exact List.mem_cons_of_mem _ (ih h a ha)
    · have hsplit : split c (b :: rest) = (b :: first) :: others := by simp [split, hb, hs]
      rw [hsplit] at h
      rw [hs] at ih
      rcases List.mem_cons.mp h with rfl | h
      · rcases List.mem_cons.mp ha with rfl | ha
        · exact List.mem_cons_self
        · exact List.mem_cons_of_mem _ (ih List.mem_cons_self a ha)
      · exact List.mem_cons_of_mem _ (ih (List.mem_cons_of_mem _ h) a ha)

theorem suffix_of_getLast?_split {c : Char} {t piece : Text} (h : (split c t).getLast? = some piece) : piece <:+ t := by
  induction t generalizing piece with
  | nil =>
    obtain rfl : [] = piece := by simpa [split] using h
    exact List.suffix_refl _
  | cons b rest ih =>
    obtain ⟨first, others, hs⟩ := List.exists_cons_of_ne_nil (split_ne_nil c rest)
    by_cases hb : b = c
    · rw [split, if_pos hb, hs, List.getLast?_cons_cons, ← hs] at h
      exact (ih h).trans (List.suffix_cons b rest)
    · have hsplit : split c (b :: rest) = (b :: first) :: others := by simp [split, hb, hs]
      rw [hsplit] at h
      cases others with
      | nil =>
        -- there is no cut, so the one piece is the text
        obtain rfl : b :: first = piece := by simpa using h
        have hrest := join_split c rest
        rw [hs] at hrest
        rw [← hrest]
        exact List.suffix_refl _
      | cons next others =>
        rw [List.getLast?_cons_cons] at h
        rw [hs, List.getLast?_cons_cons] at ih
        exact (ih h).trans (List.suffix_cons b rest)

end Text

namespace Pattern

/-! ## Tiers and ranks -/

/-- The tier of a token, and what is compared within it: the text of a literal, the name of a parameter. -/
def tokenStanding : Token → Nat × Text
  | .static text => (1, text)
  | .param _ name _ => (3, name)
  | .catchAll => (4, [])

/--
The tier of a pattern of one token, with or without a slash in front, and what is compared within it. The empty pattern comes
before all others, and the bare slash between literals and parameters.
-/
def standing (pattern : Text) : Nat × Text :=
  if pattern = [] then (0, [])
  else if pattern = ['/'] then (2, [])
  else tokenStanding (Token.ofText (if pattern.head? = some '/' then pattern.tail else pattern))

/-- The ranks of the tokens of a pattern. -/
def ranks (pattern : Text) : List Nat :=
  (tokens pattern).map Token.rank

/-- Patterns by the tier of their first token, then by the ranks of all. -/
def compareStanding (a b : Text) : Ordering :=
  (compareRanks (standing a).1 (standing b).1).then (List.compareLex compareRanks (ranks a) (ranks b))

theorem compareRanks_eq_compare : compareRanks = compare := by
  funext a b
  exact (Nat.compare_eq_ite_lt a b).symm

instance : Std.TransCmp compareRanks :=
  compareRanks_eq_compare ▸ inferInstance

instance : Std.TransCmp compareStanding :=
  have : Std.TransCmp fun a b : Text => compareRanks (standing a).1 (standing b).1 :=
    { eq_swap := Std.OrientedCmp.eq_swap, isLE_trans := Std.TransCmp.isLE_trans }
  have : Std.TransCmp fun a b : Text => List.compareLex compareRanks (ranks a) (ranks b) :=
    { eq_swap := Std.OrientedCmp.eq_swap, isLE_trans := Std.TransCmp.isLE_trans }
  inferInstanceAs (Std.TransCmp (compareLex (fun a b : Text => compareRanks (standing a).1 (standing b).1)
    fun a b => List.compareLex compareRanks (ranks a) (ranks b)))

theorem rank_eq_two {token : Token} : token.rank = 2 ↔ token = .catchAll := by
  cases token <;> simp [Token.rank]

theorem compareRanks_eq_eq {m n : Nat} : compareRanks m n = .eq ↔ m = n := by
  rw [compareRanks_eq_compare]
  exact Nat.compare_eq_eq

theorem compareRanks_swap (m n : Nat) : compareRanks n m = (compareRanks m n).swap :=
  Std.OrientedCmp.eq_swap

/-- Tokens that tie are both stars, or neither is. -/
theorem catchAll_iff_of_tie {a b : Token} (h : compareRanks a.rank b.rank = .eq) : a = .catchAll ↔ b = .catchAll := by
  rw [← rank_eq_two, ← rank_eq_two, compareRanks_eq_eq.mp h]

theorem rank_le_two (token : Token) : token.rank ≤ 2 := by
  cases token <;> simp [Token.rank]

/-- Where neither list ends in a star, a list that runs out goes first, so that only ranks are compared. -/
theorem compareTokens_eq {as bs : List Token} (ha : as.getLast? ≠ some .catchAll) (hb : bs.getLast? ≠ some .catchAll) :
    compareTokens as bs = List.compareLex compareRanks (as.map Token.rank) (bs.map Token.rank) := by
  fun_induction compareTokens as bs with
  | case1 => rfl
  | case2 => rfl
  | case3 => rfl
  | case4 a b =>
    rw [List.map_singleton, List.map_singleton, List.compareLex_cons_cons, List.compareLex_nil_nil, Ordering.then_eq]
  | case5 a _ _ b =>
    rw [List.map_cons, List.map_cons, List.map_singleton, List.compareLex_cons_cons, List.compareLex_cons_nil]
    cases hr : compareRanks a.rank b.rank with
    | lt | gt => rfl
    | eq =>
      have hb : b ≠ .catchAll := by simpa using hb
      have hstar : a ≠ .catchAll := fun he => hb ((catchAll_iff_of_tie hr).mp he)
      rw [if_neg hstar]
  | case6 a b next _ =>
    rw [List.map_singleton, List.map_cons, List.map_cons, List.compareLex_cons_cons, List.compareLex_nil_cons]
    have hstar : a ≠ .catchAll := by simpa using ha
    rw [if_neg fun h => hstar h.1]
  | case7 a a' as b b' bs ih =>
    rw [List.getLast?_cons_cons] at ha hb
    rw [ih ha hb, List.map_cons (l := a' :: as), List.map_cons (l := b' :: bs), List.compareLex_cons_cons]

/-! ## The patterns that insertion emits -/

/-- A pattern that goes on behind its slash with the given tokens, and in which a star stands alone or not at the end. -/
structure LeadsWith (pattern : Text) (first : Token) (rest : List Token) : Prop where
  tokens_eq : tokens pattern = .static [] :: first :: rest
  ne_slash : pattern ≠ ['/']
  opens : startsOpen pattern = decide (first.rank ≠ 0)
  tier : (standing pattern).1 = if first.rank = 0 then 1 else first.rank + 2
  star_alone : first = .catchAll → rest = []
  star_not_last : first ≠ .catchAll → (first :: rest).getLast? ≠ some .catchAll

/-- A pattern as insertion emits it: none, the bare slash, or tokens behind a slash. -/
inductive Emitted : Text → Prop
  | nothing : Emitted []
  | slash : Emitted ['/']
  | tokens {pattern : Text} {first : Token} {rest : List Token} (h : LeadsWith pattern first rest) : Emitted pattern

theorem tokens_ne_nil (pattern : Text) : tokens pattern ≠ [] := by
  rw [tokens, Ne, List.map_eq_nil_iff]
  exact Text.split_ne_nil '/' pattern

theorem tokens_slash (t : Text) : tokens ('/' :: t) = .static [] :: tokens t := by
  simp only [tokens, Text.split, if_true, List.map_cons]
  rfl

theorem leadsWith_literal {t : Text} (hne : t ≠ []) (hcolon : ':' ∉ t) (hstar : '*' ∉ t) :
    ∃ first rest, LeadsWith ('/' :: t) first rest := by
  have hpiece : ∀ piece ∈ Text.split '/' t, Token.ofText piece = .static piece := by
    intro piece hm
    have hc : ':' ∉ piece := fun h => hcolon (Text.mem_of_mem_split hm _ h)
    have hs : piece ≠ ['*'] := by
      rintro rfl
      exact hstar (Text.mem_of_mem_split hm _ List.mem_cons_self)
    rw [Token.ofText, if_neg hs, if_neg hc]
  obtain ⟨piece, pieces, hs⟩ := List.exists_cons_of_ne_nil (Text.split_ne_nil '/' t)
  have htokens : tokens t = .static piece :: pieces.map Token.static := by
    rw [tokens, List.map_congr_left hpiece, hs, List.map_cons]
  obtain ⟨c, cs, rfl⟩ := List.exists_cons_of_ne_nil hne
  refine ⟨.static piece, pieces.map Token.static, ⟨?_, by simp, ?_, ?_, by simp, fun _ hlast => ?_⟩⟩
  · rw [tokens_slash, htokens]
  · have hc : c ≠ ':' := fun he => hcolon (he ▸ List.mem_cons_self)
    have hs : c ≠ '*' := fun he => hstar (he ▸ List.mem_cons_self)
    simp [startsOpen, Token.rank, hc, hs]
  · have hs : c :: cs ≠ ['*'] := by
      intro he
      exact hstar (he ▸ List.mem_cons_self)
    simp [standing, tokenStanding, Token.ofText, hs, hcolon, Token.rank]
  · rw [← List.map_cons] at hlast
    obtain ⟨text, -, ht⟩ := List.mem_map.mp (List.mem_of_getLast? hlast)
    cases ht

theorem leadsWith_param (name : Text) : ∃ first rest, LeadsWith ('/' :: ':' :: name ++ ['?']) first rest := by
  obtain ⟨piece, pieces, hs⟩ := List.exists_cons_of_ne_nil (Text.split_ne_nil '/' (name ++ ['?']))
  have hsplit : Text.split '/' (':' :: name ++ ['?']) = (':' :: piece) :: pieces := by
    simp [Text.split, hs]
  have hfirst : (Token.ofText (':' :: piece)).rank = 1 := by
    simp only [Token.ofText, List.mem_cons, true_or, if_true]
    rw [if_neg (by simp), Token.ofParam]
    split <;> rfl
  refine ⟨Token.ofText (':' :: piece), pieces.map Token.ofText, ⟨?_, by simp, ?_, ?_, fun he => ?_, fun _ hlast => ?_⟩⟩
  · rw [List.cons_append, tokens_slash, tokens, hsplit, List.map_cons]
  · rw [hfirst]
    rfl
  · rw [hfirst]
    simp [standing, tokenStanding, Token.ofText, Token.ofParam]
  · rw [rank_eq_two.mpr he] at hfirst
    cases hfirst
  · -- a star at the end would be the last piece of a text that ends in a question mark
    rw [← List.map_cons, ← hsplit, List.getLast?_map, Option.map_eq_some_iff] at hlast
    obtain ⟨last, hl, hstar⟩ := hlast
    have htext := Token.text_ofText last
    rw [hstar] at htext
    obtain ⟨before, hb⟩ := Text.suffix_of_getLast?_split hl
    have hend := congrArg List.getLast? hb
    rw [← htext, List.getLast?_concat, Token.text, List.getLast?_append] at hend
    simp at hend

theorem leadsWith_star : LeadsWith ['/', '*'] .catchAll [] where
  tokens_eq := rfl
  ne_slash := by simp
  opens := rfl
  tier := rfl
  star_alone _ := rfl
  star_not_last h := absurd rfl h

end Pattern

theorem Segment.emitted_contribution {segment : Segment} (position : Nat) (isLast : Bool)
    (h : ∀ key, segment = .static key → ':' ∉ key ∧ '*' ∉ key) :
    Pattern.Emitted (segment.contribution position isLast) := by
  have literal : ∀ t : Text, ':' ∉ t → '*' ∉ t → Pattern.Emitted ('/' :: t) := by
    intro t hcolon hstar
    by_cases hne : t = []
    · subst hne
      exact .slash
    · obtain ⟨first, rest, hl⟩ := Pattern.leadsWith_literal hne hcolon hstar
      exact .tokens hl
  unfold Segment.contribution
  split
  · split
    · exact .slash
    · exact .nothing
  · cases segment with
    | static key =>
      obtain ⟨hcolon, hstar⟩ := h key rfl
      exact literal key hcolon hstar
    | index => exact literal Segment.indexKey (by decide) (by decide)
    | param name =>
      obtain ⟨first, rest, hl⟩ := Pattern.leadsWith_param name
      exact .tokens hl
    | catchAll => exact .tokens Pattern.leadsWith_star

namespace Pattern

variable {a b : Text}

/-! ## The comparison of emitted patterns -/

theorem LeadsWith.compareTokens_eq {first first' : Token} {rest rest' : List Token} (ha : LeadsWith a first rest)
    (hb : LeadsWith b first' rest') :
    compareTokens (tokens a) (tokens b) = List.compareLex compareRanks (ranks a) (ranks b) := by
  have hzero : compareRanks (Token.static []).rank (Token.static []).rank = .eq := rfl
  rw [ranks, ranks, ha.tokens_eq, hb.tokens_eq, compareTokens, List.map_cons, List.map_cons (l := first' :: rest'),
    List.compareLex_cons_cons, hzero, Ordering.eq_then, Ordering.eq_then]
  by_cases hs : first = .catchAll
  · have hr := ha.star_alone hs
    subst hs hr
    by_cases hs' : first' = .catchAll
    · have hr' := hb.star_alone hs'
      subst hs' hr'
      rfl
    · have hlt : first'.rank < 2 := Nat.lt_of_le_of_ne (rank_le_two _) fun he => hs' (rank_eq_two.mp he)
      have hgt : compareRanks Token.catchAll.rank first'.rank = .gt := by
        rw [compareRanks_eq_compare]
        exact Nat.compare_eq_gt.mpr hlt
      cases rest' <;> simp [compareTokens, hgt, List.compareLex_cons_cons]
  · by_cases hs' : first' = .catchAll
    · have hr' := hb.star_alone hs'
      subst hs' hr'
      have hlt : first.rank < 2 := Nat.lt_of_le_of_ne (rank_le_two _) fun he => hs (rank_eq_two.mp he)
      have hlt : compareRanks first.rank Token.catchAll.rank = .lt := by
        rw [compareRanks_eq_compare]
        exact Nat.compare_eq_lt.mpr hlt
      cases rest <;> simp [compareTokens, hlt, List.compareLex_cons_cons]
    · exact Pattern.compareTokens_eq (ha.star_not_last hs) (hb.star_not_last hs')

theorem LeadsWith.compareRanks_tier {first first' : Token} {rest rest' : List Token} (ha : LeadsWith a first rest)
    (hb : LeadsWith b first' rest') :
    compareRanks (standing a).1 (standing b).1 = compareRanks first.rank first'.rank := by
  have hlt : ∀ m n : Nat, ((if m = 0 then 1 else m + 2) < if n = 0 then 1 else n + 2) ↔ m < n := by
    intro m n
    split <;> split <;> omega
  simp only [ha.tier, hb.tier, compareRanks, hlt]

theorem LeadsWith.tier_pos {first : Token} {rest : List Token} (h : LeadsWith a first rest) : 0 < (standing a).1 := by
  rw [h.tier]
  split <;> omega

theorem LeadsWith.ne_nil {first : Token} {rest : List Token} (h : LeadsWith a first rest) : a ≠ [] := by
  rintro rfl
  exact absurd h.tokens_eq (by simp [tokens, Text.split])

/-- The bare slash stands between the patterns that begin with a literal and those that do not. -/
theorem LeadsWith.compareRanks_slash {first : Token} {rest : List Token} (h : LeadsWith a first rest) :
    compareRanks 2 (standing a).1 = (if startsOpen a then .lt else .gt) ∧
      compareRanks (standing a).1 2 = if startsOpen a then .gt else .lt := by
  rw [h.opens, h.tier]
  by_cases hz : first.rank = 0
  · simp [hz, compareRanks]
  · have hlt : 2 < first.rank + 2 := by omega
    simp [hz, compareRanks, hlt, Nat.lt_asymm hlt]

/-- **Emitted patterns are compared by their standing.** -/
theorem compare_eq_compareStanding (ha : Emitted a) (hb : Emitted b) : Pattern.compare a b = compareStanding a b := by
  by_cases hab : a = b
  · subst hab
    rw [Pattern.compare, if_pos rfl]
    exact Std.ReflCmp.compare_self.symm
  have hnothing : ∀ {c : Text}, Emitted c → c ≠ [] → 0 < (standing c).1 := by
    intro c hc hne
    cases hc with
    | nothing => exact absurd rfl hne
    | slash => decide
    | tokens h => exact h.tier_pos
  rw [Pattern.compare, if_neg hab, compareStanding]
  by_cases ha0 : a = []
  · subst ha0
    have hlt : compareRanks (standing []).1 (standing b).1 = .lt := by
      rw [compareRanks_eq_compare]
      exact Nat.compare_eq_lt.mpr (hnothing hb (Ne.symm hab))
    rw [if_pos rfl, hlt]
    rfl
  rw [if_neg ha0]
  by_cases hb0 : b = []
  · subst hb0
    have hgt : compareRanks (standing a).1 (standing []).1 = .gt := by
      rw [compareRanks_eq_compare]
      exact Nat.compare_eq_gt.mpr (hnothing ha ha0)
    rw [if_pos rfl, hgt]
    rfl
  rw [if_neg hb0]
  cases ha with
  | nothing => exact absurd rfl ha0
  | slash =>
    cases hb with
    | nothing => exact absurd rfl hb0
    | slash => exact absurd rfl hab
    | tokens h =>
      rw [if_pos rfl, show (standing ['/']).1 = 2 from rfl, h.compareRanks_slash.1]
      split <;> rfl
  | tokens h =>
    rw [if_neg h.ne_slash]
    cases hb with
    | nothing => exact absurd rfl hb0
    | slash =>
      rw [if_pos rfl, show (standing ['/']).1 = 2 from rfl, h.compareRanks_slash.2]
      split <;> rfl
    | tokens h' =>
      -- the ranks decide, and those of the first tokens are in the order of the tiers
      have hranks : ∀ {c : Text} {first : Token} {rest : List Token}, LeadsWith c first rest →
          ranks c = 0 :: first.rank :: rest.map Token.rank := by
        intro c first rest hc
        rw [ranks, hc.tokens_eq]
        rfl
      rw [if_neg h'.ne_slash, h.compareTokens_eq h', h.compareRanks_tier h', hranks h, hranks h',
        List.compareLex_cons_cons, List.compareLex_cons_cons, show compareRanks 0 0 = .eq from rfl, Ordering.eq_then,
        ← Ordering.then_assoc, Ordering.then_self]

theorem compare_swap (ha : Emitted a) (hb : Emitted b) : Pattern.compare b a = (Pattern.compare a b).swap := by
  rw [compare_eq_compareStanding ha hb, compare_eq_compareStanding hb ha]
  exact Std.OrientedCmp.eq_swap

/-- So siblings with emitted patterns are in an order, up to ties. -/
theorem orders_of_emitted {α : Type} {path : α → Text} {member : α → Prop} (h : ∀ a, member a → Emitted (path a)) :
    Orders (fun a b => Pattern.compare (path a) (path b) == .lt) member := by
  have horders := orders_of_compare compareStanding fun _ => True
  refine ⟨fun {a b} ha hb hab => ?_, fun {a b c} ha hb hc hba hcb => ?_⟩
  · rw [compare_eq_compareStanding (h a ha) (h b hb)] at hab
    rw [compare_eq_compareStanding (h b hb) (h a ha)]
    exact horders.asymm trivial trivial hab
  · rw [compare_eq_compareStanding (h b hb) (h a ha)] at hba
    rw [compare_eq_compareStanding (h c hc) (h b hb)] at hcb
    rw [compare_eq_compareStanding (h c hc) (h a ha)]
    exact horders.trans trivial trivial trivial hba hcb

/-! ## Patterns of one token -/

/-- Has the first pattern a lower tier, or the same one and the smaller text? -/
def StandsBefore (a b : Text) : Prop :=
  (compareRanks (standing a).1 (standing b).1).then (Text.compare (standing a).2 (standing b).2) = .lt

theorem LeadsWith.rest_eq_nil {first : Token} {rest : List Token} (h : LeadsWith a first rest) (hs : '/' ∉ a.tail) :
    rest = [] := by
  have htokens := h.tokens_eq
  cases a with
  | nil => exact absurd rfl h.ne_nil
  | cons c t =>
    by_cases hc : c = '/'
    · subst hc
      rw [tokens_slash, tokens, Text.split_of_not_mem '/' t hs] at htokens
      exact (List.cons.inj (List.cons.inj htokens).2).2.symm
    · have hwhole : '/' ∉ c :: t := by
        rw [List.mem_cons, not_or]
        exact ⟨fun he => hc he.symm, hs⟩
      rw [tokens, Text.split_of_not_mem '/' _ hwhole] at htokens
      exact absurd htokens (by simp)

/-- The tier of a pattern of one token says the ranks. -/
theorem Emitted.ranks_eq (h : Emitted a) (hs : '/' ∉ a.tail) :
    ranks a = if (standing a).1 = 0 then [0] else [0, if (standing a).1 ≤ 2 then 0 else (standing a).1 - 2] := by
  cases h with
  | nothing => rfl
  | slash => rfl
  | @tokens _ first rest h =>
    obtain rfl := h.rest_eq_nil hs
    rw [ranks, h.tokens_eq, if_neg (Nat.ne_of_gt h.tier_pos), h.tier]
    by_cases hz : first.rank = 0
    · rw [if_pos hz, if_pos (by decide), List.map_cons, List.map_singleton, hz]
      rfl
    · rw [if_neg hz, if_neg (by omega)]
      rfl

/-- So patterns of one token are compared by tier alone. -/
theorem compare_eq_compareRanks (ha : Emitted a) (hb : Emitted b) (hsa : '/' ∉ a.tail) (hsb : '/' ∉ b.tail) :
    Pattern.compare a b = compareRanks (standing a).1 (standing b).1 := by
  rw [compare_eq_compareStanding ha hb, compareStanding]
  cases ht : compareRanks (standing a).1 (standing b).1 with
  | lt | gt => rfl
  | eq =>
    rw [compareRanks_eq_eq] at ht
    rw [ha.ranks_eq hsa, hb.ranks_eq hsb, ht, Ordering.eq_then]
    exact Std.ReflCmp.compare_self

end Pattern

end PageRouting
