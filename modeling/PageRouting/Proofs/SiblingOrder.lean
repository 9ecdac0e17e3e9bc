import PageRouting.Proofs.ClosedForm
import PageRouting.Proofs.Standing

/-!
# `PageRouting/Proofs/SiblingOrder.lean` — the siblings of a compiled forest are in the order of their keys

Page files are placed in the order of their keys, every insertion sorts siblings by specificity only, and the collapse changes
patterns without sorting again. For a plain listing the three agree: on every level of the compiled forest the siblings stand
in the order of their tier and, within a tier, of the text of their key (`sibling_order_plain`).

When a file is placed, everything that stands on a level of its way is there for a file with a smaller key at this point
(`key_before`). So a new route goes behind all siblings of its tier, and the level stays in order (`ascending_attach`).
The collapse changes neither the tier of a pattern nor its text (`standing_path`).
-/

set_option autoImplicit false

namespace PageRouting

namespace Pattern

theorem standing_of_head? {t : Text} (hne : t ≠ []) (hs : t.head? ≠ some '/') (top : Bool) :
    standing ((if top then ['/'] else []) ++ t) = tokenStanding (Token.ofText t) := by
  have hslash : t ≠ ['/'] := by
    rintro rfl
    exact hs rfl
  cases top with
  | true => simp [standing, hne]
  | false => simp [standing, hne, hs, hslash]

theorem standing_literal {t : Text} (hne : t ≠ []) (h : ∀ c ∈ t, c ∉ [':', '*', '/']) (top : Bool) :
    standing ((if top then ['/'] else []) ++ t) = (1, t) := by
  have hs : t.head? ≠ some '/' := fun hh => h '/' (List.mem_of_head? hh) (by simp)
  have hstar : t ≠ ['*'] := by
    rintro rfl
    exact h '*' (by simp) (by simp)
  have hcolon : ':' ∉ t := fun hm => h ':' hm (by simp)
  rw [standing_of_head? hne hs, Token.ofText, if_neg hstar, if_neg hcolon]
  rfl

theorem standing_param {name : Text} (hq : '?' ∉ name) (mark : Text) (hmark : mark = [] ∨ mark = ['?']) (top : Bool) :
    standing ((if top then ['/'] else []) ++ (':' :: name ++ mark)) = (3, name) := by
  have hofParam : Token.ofText (':' :: name ++ mark) = Token.ofParam [] (name ++ mark) := by
    simp [Token.ofText]
  rw [standing_of_head? (by simp) (by simp), hofParam, Token.ofParam]
  rcases hmark with rfl | rfl
  · have hlast : (name ++ []).getLast? ≠ some '?' := by
      rw [List.append_nil]
      exact fun hl => hq (List.mem_of_getLast? hl)
    rw [if_neg hlast, List.append_nil]
    rfl
  · rw [if_pos (by simp), List.dropLast_concat]
    rfl

end Pattern

theorem Text.distinct_of_nodup {ts : List Text} (h : ts.Nodup) : Text.distinct ts = ts := by
  induction ts with
  | nil => rfl
  | cons t ts ih =>
    obtain ⟨ht, hts⟩ := List.nodup_cons.mp h
    rw [Text.distinct, ih hts, List.filter_eq_self.mpr]
    intro u hu
    simp only [decide_eq_true_eq]
    rintro rfl
    exact ht hu

theorem IsCleanKey.literal_chars {key : Text} (h : IsCleanKey key) : ∀ c ∈ key, c ∉ [':', '*', '/'] := by
  intro c hc hbad
  refine h.not_mem c hc ?_
  simp only [List.mem_cons, List.not_mem_nil, or_false] at hbad ⊢
  rcases hbad with rfl | rfl | rfl <;> simp

namespace Listing

variable {listing : Listing} {place : List Text} {key : Text}

/-! ## The standing of a key -/

/-- The standing of the pattern that a key gives rise to, below other keys. -/
def standingOf (place : List Text) (key : Text) : Nat × Text :=
  match Segment.ofKey key with
  | .static text => (1, text)
  | .index => if place = [] then (2, []) else (0, [])
  | .param name => (3, name)
  | .catchAll => (4, [])

/-- What the segment of a clean key adds to a pattern, as the key is written. -/
theorem ofKey_cases (h : IsCleanKey key) :
    Segment.ofKey key = .index ∨ Segment.ofKey key = .catchAll ∨
      (∃ name, key = '_' :: name ∧ Segment.ofKey key = .param name ∧ ∀ c ∈ name, c ∉ [':', '*', '?', '\n', '/']) ∨
      Segment.ofKey key = .static key := by
  have hwritten := Segment.key_ofKey key
  cases hk : Segment.ofKey key with
  | index => exact .inl rfl
  | catchAll => exact .inr (.inl rfl)
  | param name =>
    rw [hk] at hwritten
    obtain rfl : '_' :: name = key := hwritten
    exact .inr (.inr (.inl ⟨name, rfl, rfl, fun c hc => h.not_mem c (List.mem_cons_of_mem _ hc)⟩))
  | static text =>
    rw [hk] at hwritten
    obtain rfl : text = key := hwritten
    exact .inr (.inr (.inr rfl))

theorem standing_contribution (h : IsCleanKey key) (place : List Text) :
    Pattern.standing ((Segment.ofKey key).contribution place.length true) = standingOf place key := by
  rw [standingOf]
  rcases ofKey_cases h with hk | hk | ⟨name, rfl, hk, hname⟩ | hk
  · rw [hk]
    by_cases hnil : place = []
    · subst hnil
      rfl
    · simp [Segment.contribution, hnil, Pattern.standing]
  · rw [hk]
    rfl
  · rw [hk]
    have hq : '?' ∉ name := fun hm => hname _ hm (by simp)
    exact Pattern.standing_param hq ['?'] (.inr rfl) true
  · rw [hk]
    exact Pattern.standing_literal h.ne_nil h.literal_chars true

/-- **The collapse changes neither the tier of a pattern nor its text.** -/
theorem standing_path (h : IsCleanKey key) (listing : Listing) (place : List Text) :
    Pattern.standing (listing.path (place ++ [key])) = standingOf place key := by
  have hpath : listing.path (place ++ [key]) = (if decide (place = []) then ['/'] else []) ++ listing.token place key := by
    simp [path]
  rw [hpath, standingOf]
  rcases ofKey_cases h with hk | hk | ⟨name, rfl, hk, hname⟩ | hk
  · rw [token, hk]
    by_cases hnil : place = []
    · subst hnil
      rfl
    · simp [hnil, Pattern.standing]
  · rw [token, hk, Pattern.standing_of_head? (by simp) (by simp)]
    rfl
  · have hq : '?' ∉ name := fun hm => hname _ hm (by simp)
    rw [token, hk]
    refine Pattern.standing_param hq _ ?_ _
    split
    · exact .inl rfl
    · exact .inr rfl
  · rw [token, hk]
    exact Pattern.standing_literal h.ne_nil (h.literal_chars) _

/-- What a key of some tier has in front of its text. -/
def sigil : Nat → Text
  | 1 => []
  | 3 => ['_']
  | 4 => ['_']
  | _ => Segment.indexKey

theorem key_eq_sigil (place : List Text) (key : Text) :
    key = sigil (standingOf place key).1 ++ (standingOf place key).2 := by
  have hwritten := Segment.key_ofKey key
  rw [standingOf]
  cases hk : Segment.ofKey key with
  | index =>
    rw [hk] at hwritten
    by_cases hnil : place = [] <;> simp [hnil, sigil, ← hwritten, Segment.key]
  | static text | param text | catchAll =>
    rw [hk] at hwritten
    exact hwritten.symm

theorem compareLex_append_left {α : Type} (cmp : α → α → Ordering) [Std.ReflCmp cmp] (xs ys zs : List α) :
    List.compareLex cmp (xs ++ ys) (xs ++ zs) = List.compareLex cmp ys zs := by
  induction xs with
  | nil => rfl
  | cons x xs ih =>
    have hx : cmp x x = .eq := Std.ReflCmp.compare_self
    rw [List.cons_append, List.cons_append, List.compareLex_cons_cons, hx, Ordering.eq_then, ih]

/-- Within a tier, the texts are in the order of the keys. -/
theorem compare_standingOf {a b : Text} (htier : (standingOf place a).1 = (standingOf place b).1) :
    Text.compare (standingOf place a).2 (standingOf place b).2 = Text.compare a b := by
  have happend := compareLex_append_left Text.compareChars (sigil (standingOf place a).1) (standingOf place a).2
    (standingOf place b).2
  rw [← key_eq_sigil, htier, ← key_eq_sigil] at happend
  exact happend.symm

/-! ## A level in order -/

/-- Do the siblings stand in the order of tier and text? -/
def Ascending (siblings : Forest) : Prop :=
  siblings.Pairwise fun a b => Pattern.StandsBefore a.path b.path

theorem emitted_contribution (h : IsCleanKey key) (position : Nat) (isLast : Bool) :
    Pattern.Emitted ((Segment.ofKey key).contribution position isLast) := by
  refine Segment.emitted_contribution position isLast fun text hk => ?_
  have hwritten := Segment.key_ofKey key
  rw [hk] at hwritten
  obtain rfl : text = key := hwritten
  exact ⟨fun hm => h.not_mem _ hm (by simp), fun hm => h.not_mem _ hm (by simp)⟩

theorem slash_not_mem_contribution (h : IsCleanKey key) (position : Nat) (isLast : Bool) :
    '/' ∉ ((Segment.ofKey key).contribution position isLast).tail := by
  have hslash : '/' ∉ (Segment.ofKey key).token.text := by
    apply Segment.slash_not_mem_text
    rw [Segment.key_ofKey]
    exact fun hm => h.not_mem _ hm (by simp)
  unfold Segment.contribution
  split
  · split <;> simp
  · exact hslash

/-- The pattern of a clean key, before the collapse. -/
structure IsOf (place : List Text) (key : Text) (route : Route) : Prop where
  clean : IsCleanKey key
  path : route.path = (Segment.ofKey key).contribution place.length true

theorem IsOf.standing {route : Route} (h : IsOf place key route) : Pattern.standing route.path = standingOf place key := by
  rw [h.path, standing_contribution h.clean]

theorem IsOf.emitted {route : Route} (h : IsOf place key route) : Pattern.Emitted route.path := by
  rw [h.path]
  exact emitted_contribution h.clean _ _

theorem IsOf.compare {route other : Route} {otherKey : Text} (h : IsOf place key route) (ho : IsOf place otherKey other) :
    Pattern.compare route.path other.path =
      Pattern.compareRanks (standingOf place key).1 (standingOf place otherKey).1 := by
  have hs := slash_not_mem_contribution h.clean place.length true
  have hs' := slash_not_mem_contribution ho.clean place.length true
  rw [← h.path] at hs
  rw [← ho.path] at hs'
  rw [Pattern.compare_eq_compareRanks h.emitted ho.emitted hs hs', h.standing, ho.standing]

/-- **A route whose key comes after those of its siblings is put in its place among them.** -/
theorem ascending_attach {siblings : Forest} {route : Route} (h : Ascending siblings) (hroute : IsOf place key route)
    (hsiblings : ∀ sibling ∈ siblings, ∃ a, IsOf place a sibling ∧ Text.compare a key = .lt) :
    Ascending (Forest.attach siblings route) := by
  have hemitted : ∀ r, r ∈ siblings ++ [route] → Pattern.Emitted r.path := by
    intro r hm
    rcases List.mem_append.mp hm with hm | hm
    · obtain ⟨a, ha, -⟩ := hsiblings r hm
      exact ha.emitted
    · rw [List.mem_singleton.mp hm]
      exact hroute.emitted
  refine stableSort_concat_pairwise (Pattern.orders_of_emitted hemitted) ?_ h ?_ ?_
  · intro x hx y hy hxy
    obtain ⟨a, ha, -⟩ := hsiblings x hx
    obtain ⟨b, hb, -⟩ := hsiblings y hy
    rw [Route.precedes, beq_eq_false_iff_ne, hb.compare ha]
    rw [Pattern.StandsBefore, ha.standing, hb.standing, Ordering.then_eq_lt] at hxy
    intro hlt
    have hgt : Pattern.compareRanks (standingOf place a).1 (standingOf place b).1 = .gt := Std.OrientedCmp.gt_of_lt hlt
    simp [hgt] at hxy
  · intro x hx hnew
    obtain ⟨a, ha, hak⟩ := hsiblings x hx
    rw [Route.precedes, beq_eq_false_iff_ne, hroute.compare ha] at hnew
    rw [Pattern.StandsBefore, ha.standing, hroute.standing, Ordering.then_eq_lt]
    -- the sort leaves it in front also where the tiers are equal, and then the keys are in order
    cases hr : Pattern.compareRanks (standingOf place a).1 (standingOf place key).1 with
    | lt => exact .inl rfl
    | gt => exact absurd (Std.OrientedCmp.lt_of_gt hr) hnew
    | eq =>
      rw [Pattern.compareRanks_eq_compare, Nat.compare_eq_eq] at hr
      rw [compare_standingOf hr]
      exact .inr ⟨rfl, hak⟩
  · intro y hy hnew
    obtain ⟨b, hb, -⟩ := hsiblings y hy
    rw [Route.precedes, beq_iff_eq, hroute.compare hb] at hnew
    rw [Pattern.StandsBefore, hroute.standing, hb.standing, hnew]
    rfl

/-! ## The files placed so far -/

/-- The listing with other files. -/
def only (listing : Listing) (files : List Text) : Listing :=
  { listing with files }

variable {files : List Text}

theorem Reaches.of_only (hfiles : ∀ file ∈ files, file ∈ listing.files) (h : (listing.only files).Reaches place) :
    listing.Reaches place := by
  obtain ⟨file, hm, hp⟩ := h
  exact ⟨file, hfiles file hm, hp⟩

theorem Plain.only (h : listing.Plain) (hfiles : ∀ file ∈ files, file ∈ listing.files) : (listing.only files).Plain where
  accepted file hm := h.accepted file (hfiles file hm)
  key_ne_nil file hm := h.key_ne_nil file (hfiles file hm)
  key_chars file hm := h.key_chars file (hfiles file hm)
  keys_injective file hm other ho := h.keys_injective file (hfiles file hm) other (hfiles other ho)
  label_injective place a b ha hb := h.label_injective place a b (ha.of_only hfiles) (hb.of_only hfiles)
  index_last file hm := h.index_last file (hfiles file hm)
  label_not_index file hm := h.label_not_index file (hfiles file hm)

/-- What stands beside a file's key on its way is there for a smaller key, if the files so far have smaller keys. -/
theorem key_before {file a : Text} {rest : List Text}
    (hbefore : ∀ earlier ∈ files, Text.compareAll (listing.keysOf earlier) (listing.keysOf file) = .lt)
    (hk : listing.keysOf file = place ++ key :: rest) (hr : (listing.only files).Reaches (place ++ [a])) (hne : a ≠ key) :
    Text.compare a key = .lt := by
  obtain ⟨earlier, hm, rest', hp⟩ := hr
  have hlt := hbefore earlier hm
  have hearlier : listing.keysOf earlier = place ++ a :: rest' := by
    rw [← List.append_cons] at hp
    exact hp.symm
  rw [hearlier, hk, Text.compareAll, compareLex_append_left, List.compareLex_cons_cons, Ordering.then_eq_lt] at hlt
  rcases hlt with hlt | ⟨heq, -⟩
  · exact hlt
  · exact absurd (Text.compare_eq_eq.mp heq) hne

theorem isOf_node (h : IsCleanKey key) (children : Forest) :
    IsOf place key ((listing.only files).rawPlan.node (place ++ [key]) children) :=
  ⟨h, by simp [rawPlan]⟩

theorem everyLevel_attach {Q : Forest → Prop} {siblings : Forest} {route : Route}
    (h : EveryLevel Route.children Q siblings) (hnew : EveryLevel Route.children Q route.children)
    (hq : Q (Forest.attach siblings route)) : EveryLevel Route.children Q (Forest.attach siblings route) := by
  refine h.change hq fun sibling hm => ?_
  rcases List.mem_cons.mp ((Forest.attach_perm siblings route).mem_iff.mp hm) with rfl | hm
  · exact .inr hnew
  · exact .inl hm

/-- A route that is replaced by one with the same pattern leaves its level in order. -/
theorem everyLevel_replaceFirst {name : Text} {siblings : Forest} {route other : Route}
    (h : EveryLevel Route.children Ascending siblings) (found : Forest.named? name siblings = some route)
    (hnew : EveryLevel Route.children Ascending other.children) (hpath : other.path = route.path) :
    EveryLevel Route.children Ascending (Forest.replaceFirst name other siblings) := by
  obtain ⟨before, after, rfl, -, hreplace⟩ := Forest.split_of_named? found
  rw [hreplace]
  refine h.change ?_ fun sibling hm => ?_
  · have hpairs := List.pairwise_map.mpr h.here
    rw [List.map_append, List.map_cons, ← hpath, ← List.map_cons, ← List.map_append] at hpairs
    exact List.pairwise_map.mp hpairs
  · simp only [List.mem_append, List.mem_cons] at hm ⊢
    rcases hm with hm | rfl | hm
    · exact .inl (.inl hm)
    · exact .inr hnew
    · exact .inl (.inr (.inr hm))

/-! ## One file more -/

section Search

variable {file : Text} {siblings : Forest}

/-- A search by the name of a key finds the route of that key. -/
theorem Plain.node_of_named? (h : listing.Plain) (hfiles : ∀ file ∈ files, file ∈ listing.files)
    (hreach : listing.Reaches (place ++ [key])) (hb : (listing.only files).rawPlan.Built place siblings) {route : Route}
    (found : Forest.named? (Trie.routeName ((place ++ [key]).map keyLabel)) siblings = some route) :
    ∃ children, (listing.only files).rawPlan.Built (place ++ [key]) children ∧
      route = (listing.only files).rawPlan.node (place ++ [key]) children := by
  obtain ⟨before, after, rfl, hroute, -⟩ := Forest.split_of_named? found
  have hmem : route ∈ before ++ route :: after := by simp
  obtain ⟨a, children, hr, hbelow, rfl⟩ := hb.exists_of_mem rfl hmem
  have hnames : Trie.routeName ((place ++ [a]).map keyLabel) = Trie.routeName ((place ++ [key]).map keyLabel) :=
    Option.some.inj hroute
  rw [routeName_keys, routeName_keys] at hnames
  obtain rfl := h.label_injective place a key (hr.of_only hfiles) hreach (Trie.extendName_injective hnames)
  exact ⟨children, hbelow, rfl⟩

/-- Where it finds none, all that stands there is of smaller keys. -/
theorem Plain.key_before_of_named? (h : listing.Plain) (hfiles : ∀ file ∈ files, file ∈ listing.files) {rest : List Text}
    (hbefore : ∀ earlier ∈ files, Text.compareAll (listing.keysOf earlier) (listing.keysOf file) = .lt)
    (hk : listing.keysOf file = place ++ key :: rest) (hb : (listing.only files).rawPlan.Built place siblings)
    (missing : Forest.named? (Trie.routeName ((place ++ [key]).map keyLabel)) siblings = none) :
    ∀ sibling ∈ siblings, ∃ a, IsOf place a sibling ∧ Text.compare a key = .lt := by
  intro sibling hm
  obtain ⟨a, children, hr, -, rfl⟩ := hb.exists_of_mem rfl hm
  have hclean : IsCleanKey a := h.isCleanKey (hr.of_only hfiles) (by simp)
  refine ⟨a, isOf_node hclean children, key_before hbefore hk hr ?_⟩
  rintro rfl
  exact Forest.name_ne_of_named?_eq_none missing _ hm rfl

/-- The place where a file with new keys ends has no page yet. -/
theorem component_eq_none
    (hbefore : ∀ earlier ∈ files, Text.compareAll (listing.keysOf earlier) (listing.keysOf file) = .lt)
    (hk : listing.keysOf file = place) (children : Forest) :
    ((listing.only files).rawPlan.node place children).component = none := by
  have hpage : (listing.only files).page? place = none := by
    refine List.find?_eq_none.mpr fun earlier hm he => ?_
    have hlt := hbefore earlier hm
    have hsame : listing.keysOf earlier = place := of_decide_eq_true he
    rw [hsame, hk, Text.compareAll_eq_eq.mpr rfl] at hlt
    cases hlt
  simp [rawPlan, node, hpage]

end Search

/--
**One file more.** Placing a file whose keys come after those of all files so far keeps every level in order. The induction is
on the keys still to follow; `place` are those above the level.
-/
theorem Plain.ascending_place (h : listing.Plain) (hfiles : ∀ file ∈ files, file ∈ listing.files) (entry : PageEntry)
    {file : Text} (hfile : file ∈ listing.files)
    (hbefore : ∀ earlier ∈ files, Text.compareAll (listing.keysOf earlier) (listing.keysOf file) = .lt)
    {keys : List Text} (hk : listing.keysOf file = place ++ keys) (hne : keys ≠ []) {siblings : Forest}
    (hb : (listing.only files).rawPlan.Built place siblings) (ha : EveryLevel Route.children Ascending siblings) :
    EveryLevel Route.children Ascending
      (Forest.place entry (keys.map Segment.ofKey) place.length (Trie.routeName (place.map keyLabel)) siblings).forest := by
  induction keys generalizing place siblings with
  | nil => exact absurd rfl hne
  | cons key rest ih =>
    have hprefix : place ++ [key] <+: listing.keysOf file := step_prefix_of_eq hk
    have hreach : listing.Reaches (place ++ [key]) := ⟨file, hfile, hprefix⟩
    have hclean : IsCleanKey key := h.isCleanKey hreach (by simp)
    have hname : Forest.extendName (Trie.routeName (place.map keyLabel)) (Segment.ofKey key).label =
        Trie.routeName ((place ++ [key]).map keyLabel) := (routeName_keys place key).symm
    have hchildren : ∀ {route}, Forest.named? (Trie.routeName ((place ++ [key]).map keyLabel)) siblings = some route →
        EveryLevel Route.children Ascending route.children := by
      intro route found
      obtain ⟨before, after, rfl, -, -⟩ := Forest.split_of_named? found
      exact ha.descend (by simp)
    cases rest with
    | nil =>
      rw [List.map_singleton, Forest.place, hname]
      split
      · next route found =>
        obtain ⟨children, -, rfl⟩ := h.node_of_named? hfiles hreach hb found
        have hbelow := hchildren found
        unfold Forest.placeAt
        rw [component_eq_none hbefore hk]
        exact everyLevel_replaceFirst ha found hbelow rfl
      · next missing =>
        have hsiblings := h.key_before_of_named? hfiles hbefore hk hb missing
        exact everyLevel_attach ha (.nil .nil) (ascending_attach ha.here ⟨hclean, rfl⟩ hsiblings)
    | cons next rest =>
      have hnext : listing.keysOf file = (place ++ [key]) ++ next :: rest := by
        rw [hk]
        simp
      have below : ∀ {children}, (listing.only files).rawPlan.Built (place ++ [key]) children →
          EveryLevel Route.children Ascending children →
          EveryLevel Route.children Ascending (Forest.place entry ((next :: rest).map Segment.ofKey) (place.length + 1)
            (Trie.routeName ((place ++ [key]).map keyLabel)) children).forest := by
        intro children hbelow habelow
        have hplaced := ih hnext (by simp) hbelow habelow
        rwa [List.length_append] at hplaced
      rw [List.map_cons, List.map_cons, Forest.place, hname]
      split
      · next route found =>
        obtain ⟨children, hbelow, rfl⟩ := h.node_of_named? hfiles hreach hb found
        exact everyLevel_replaceFirst ha found (below hbelow (hchildren found)) rfl
      · next missing =>
        have hsiblings := h.key_before_of_named? hfiles hbefore hk hb missing
        -- an `index` key would end the file, so the key adds here what it adds at an end
        have hindex : Segment.ofKey key ≠ .index := by
          intro ho
          have hkey : key = Segment.indexKey := Segment.ofKey_injective (ho.trans (by decide))
          have hend := h.keysOf_eq_of_index hfile (hkey ▸ hprefix)
          rw [hk] at hend
          simp at hend
        have hpath : (Segment.ofKey key).contribution place.length false =
            (Segment.ofKey key).contribution place.length true := by
          rw [Segment.contribution_of_ne_index hindex, Segment.contribution_of_ne_index hindex]
        have hnone : (listing.only files).rawPlan.Built (place ++ [key]) [] := by
          refine .empty (fun a hr => ?_) rfl
          obtain ⟨children, -, hm⟩ := hb.exists_of_reaches (hr.of_prefix (List.prefix_append _ _))
          exact Forest.name_ne_of_named?_eq_none missing _ hm rfl
        exact everyLevel_attach ha (below hnone (.nil .nil)) (ascending_attach ha.here ⟨hclean, hpath⟩ hsiblings)

/-! ## All files -/

section Run

variable {entries done : List PageEntry}

theorem pairwise_entries (he : Compilation.entries listing.layout listing.files = .ok entries) :
    entries.Pairwise fun a b => PageEntry.precedes b a = false := by
  obtain ⟨read, -, rfl⟩ := Compilation.entries_eq_ok he
  exact stableSort_pairwise (orders_of_compare PageEntry.compare _)

/-- The first entries are the entries of their files. -/
theorem entries_only (he : Compilation.entries listing.layout listing.files = .ok entries) (hd : done <+: entries) :
    Compilation.entries listing.layout (done.map PageEntry.file) = .ok done := by
  have hnodup : (entries.map PageEntry.file).Nodup :=
    (Compilation.files_of_entries he).nodup_iff.mpr (Text.distinct_nodup _)
  have hfiles : Text.distinct (done.map PageEntry.file) = done.map PageEntry.file :=
    Text.distinct_of_nodup (hnodup.sublist (hd.sublist.map _))
  have hread : (done.map PageEntry.file).mapM (PageEntry.ofFile listing.layout) = .ok done := by
    rw [mapM_eq_ok_iff, List.map_map]
    refine List.map_congr_left fun entry hm => ?_
    obtain ⟨file, -, hf⟩ := (Compilation.mem_entries_iff he).mp (hd.subset hm)
    rw [Function.comp_apply, PageEntry.file_of_ofFile hf, hf]
  have hsort : PageEntry.sort done = done := stableSort_of_pairwise ((pairwise_entries he).sublist hd.sublist)
  rw [Compilation.entries_eq, hfiles, hread, Except.map, hsort]

/-- The keys of the entry that is placed next come after those of the entries before it. -/
theorem Clean.keys_before (h : listing.Clean) (he : Compilation.entries listing.layout listing.files = .ok entries)
    {entry : PageEntry} (hd : done ++ [entry] <+: entries) :
    ∀ earlier ∈ done.map PageEntry.file,
      Text.compareAll (listing.keysOf earlier) (listing.keysOf entry.file) = .lt := by
  have hread : ∀ {e}, e ∈ entries → e.file ∈ listing.files ∧ e.keys = listing.keysOf e.file := by
    intro e hm
    obtain ⟨file, hfile, hf⟩ := (Compilation.mem_entries_iff he).mp hm
    rw [PageEntry.file_of_ofFile hf, PageEntry.keys, segments_of_ofFile hf, List.map_map]
    refine ⟨hfile, ?_⟩
    simp [Function.comp_def, Segment.key_ofKey]
  intro earlier hearlier
  obtain ⟨e, hm, rfl⟩ := List.mem_map.mp hearlier
  obtain ⟨hfile, hkeys⟩ := hread (hd.subset (List.mem_append_left _ hm))
  obtain ⟨hfile', hkeys'⟩ := hread (hd.subset (show entry ∈ done ++ [entry] by simp))
  obtain ⟨-, -, hpairs⟩ := List.pairwise_append.mp ((pairwise_entries he).sublist hd.sublist)
  have hle := isLE_of_ne_lt PageEntry.compare (beq_eq_false_iff_ne.mp (hpairs e hm entry (by simp)))
  rw [← hkeys, ← hkeys']
  cases hc : Text.compareAll e.keys entry.keys with
  | lt => rfl
  | gt => simp [PageEntry.compare, hc] at hle
  | eq =>
    -- two files with the same keys would be one file
    have hsame := h.keys_injective _ hfile _ hfile' (by rw [← hkeys, ← hkeys', Text.compareAll_eq_eq.mp hc])
    have hnodup : ((done ++ [entry]).map PageEntry.file).Nodup :=
      ((Compilation.files_of_entries he).nodup_iff.mpr (Text.distinct_nodup _)).sublist (hd.sublist.map _)
    rw [List.map_append, List.map_singleton, ← hsame] at hnodup
    exact absurd rfl ((List.nodup_append.mp hnodup).2.2 _ hearlier _ (List.mem_singleton_self _))

theorem Plain.ascending_build (h : listing.Plain) (he : Compilation.entries listing.layout listing.files = .ok entries)
    (hd : done <+: entries) : EveryLevel Route.children Ascending (Compilation.build done).1 := by
  induction done using List.reverseRecOn with
  | nil => exact .nil .nil
  | append_singleton done entry ih =>
    have hdone : done <+: entries := (List.prefix_append _ _).trans hd
    have hmem : entry ∈ entries := hd.subset (by simp)
    obtain ⟨file, hfile, hf⟩ := (Compilation.mem_entries_iff he).mp hmem
    have hfiles : ∀ file ∈ done.map PageEntry.file, file ∈ listing.files := by
      intro other hother
      obtain ⟨e, hm, rfl⟩ := List.mem_map.mp hother
      obtain ⟨file, hfile, hf⟩ := (Compilation.mem_entries_iff he).mp (hdone.subset hm)
      rwa [PageEntry.file_of_ofFile hf]
    have hentries := entries_only he hdone
    have hbuilt := (h.only hfiles).built_raw hentries
    have hbefore := h.keys_before he hd
    rw [PageEntry.file_of_ofFile hf] at hbefore
    have hstep := h.ascending_place hfiles entry hfile hbefore (List.nil_append _).symm (h.keysOf_ne_nil hfile) hbuilt
      (ih hdone)
    rw [← segments_of_ofFile hf] at hstep
    have hlast : (Compilation.build (done ++ [entry])).1 = (Forest.insert entry (Compilation.build done).1).forest := by
      rw [Compilation.build, Compilation.build, Forest.insertAll_fst, Forest.insertAll_fst, List.foldl_append]
      rfl
    rw [hlast]
    exact hstep

end Run

/-! ## The collapse -/

/-- A collapse pass keeps every level in order. It changes the patterns of a level, but none to another standing. -/
theorem Plain.ascending_collapse (h : listing.Plain) {siblings : Forest} (hb : listing.rawPlan.Built place siblings)
    (ha : EveryLevel Route.children Ascending siblings) :
    EveryLevel Route.children Ascending (siblings.collapse (decide (place ≠ []))).value := by
  induction hb with
  | @level place siblings steps nodup mem below perm ih =>
    have hperm : siblings.Perm (steps.map fun step => listing.rawPlan.node (place ++ [step.1]) step.2) := by
      rwa [show listing.rawPlan.guests place = [] from rfl, List.append_nil] at perm
    have hchild : ∀ a, decide (place ++ [a] ≠ []) = true := by simp
    have hsteps : ∀ route ∈ siblings, ∃ step ∈ steps, route = listing.rawPlan.node (place ++ [step.1]) step.2 := by
      intro route hm
      obtain ⟨step, hs, rfl⟩ := List.mem_map.mp (hperm.mem_iff.mp hm)
      exact ⟨step, hs, rfl⟩
    obtain ⟨indexes, hnames, hindexes⟩ := h.level (.level steps nodup mem below perm)
    have hfault : ∀ route ∈ siblings, (Forest.collapse true route.children).fault = none := by
      intro route hm
      obtain ⟨step, hs, rfl⟩ := hsteps route hm
      have hbelow := (h.settles.built_collapse (below step hs)).1
      rwa [hchild] at hbelow
    have hvalue := (Forest.collapse_of_ofNames (decide (place ≠ [])) hnames hfault).2
    have hstanding : ∀ route ∈ siblings,
        Pattern.standing (Collapse.route indexes (decide (place ≠ [])) route).value.path = Pattern.standing route.path := by
      intro route hm
      obtain ⟨step, hs, rfl⟩ := hsteps route hm
      have hr : listing.Reaches (place ++ [step.1]) := (mem step.1).mp (List.mem_map_of_mem hs)
      have hclean : IsCleanKey step.1 := h.isCleanKey hr (by simp)
      have hraw : (listing.rawPlan.node (place ++ [step.1]) step.2).path =
          (Segment.ofKey step.1).contribution place.length true := by simp [rawPlan]
      rw [Collapse.route_value]
      dsimp only
      rw [hraw, h.newPath hr hindexes, standing_path hclean, standing_contribution hclean]
    rw [hvalue]
    refine .level (List.pairwise_map.mpr ?_) fun route' hm' => ?_
    · refine ha.here.imp_of_mem fun {a b} hma hmb hab => ?_
      rw [Pattern.StandsBefore, hstanding a hma, hstanding b hmb]
      exact hab
    · obtain ⟨route, hm, rfl⟩ := List.mem_map.mp hm'
      have hbelow := ha.descend hm
      obtain ⟨step, hs, rfl⟩ := hsteps route hm
      have hplaced := ih step hs hbelow
      rw [hchild] at hplaced
      rw [Collapse.route_value]
      exact hplaced

/--
**Siblings stand by specificity first and by name second.** On every level of the compiled forest of a plain listing, the
siblings are in the strict order of their tier (the empty pattern, a literal, the bare slash, a parameter, the catch-all) and
within a tier of the literal or the name of the parameter. Only a null character in a component path keeps a plain listing
from being compiled.
-/
theorem sibling_order_plain (listing : Listing) (h : listing.Plain) :
    (∃ forest, (compile listing.layout listing.files).result = .ok forest ∧
        EveryLevel Route.children (fun siblings => siblings.Pairwise fun a b => Pattern.StandsBefore a.path b.path) forest) ∨
      ((compile listing.layout listing.files).result = .error .nullInPath ∧
        ∃ file ∈ listing.files, listing.layout.componentOf file = .error .nullInPath) := by
  rcases h.compile_ends with hnull | ⟨forest, hc⟩
  · exact .inr hnull
  · obtain ⟨entries, he, -, rfl⟩ := Compilation.compile_result_eq_ok hc
    exact .inl ⟨_, hc, h.ascending_collapse (h.built_raw he) (h.ascending_build he (List.prefix_refl _))⟩

/-- Pages of every tier, on two levels. -/
def shop : Listing where
  layout := ⟨"/srv".toList, Layout.defaultPagesDir, Layout.defaultExtensions, .posix⟩
  files := ["pages/_.vue".toList, "pages/_lang/index.vue".toList, "pages/_lang/_.js".toList, "pages/_lang/_page.vue".toList,
    "pages/about.vue".toList, "pages/index.vue".toList, "pages/_lang/cart.vue".toList, "pages/About.vue".toList,
    "pages/_lang/_item/edit.vue".toList]

/-- Capitals come before small letters, parameters in the order of their names, and the index page behind the literals at the top. -/
theorem sibling_order_plain_shop : shop.Plain ∧
    ∃ forest, (compile shop.layout shop.files).result = .ok forest ∧
      forest.map Route.path = ["/About".toList, "/about".toList, "/".toList, "/:lang".toList, "/*".toList] ∧
      (forest.nodes.filter fun node => !node.children.isEmpty).map (fun node => (node.path, node.children.map Route.path)) =
        [("/:lang".toList, [[], "cart".toList, ":item".toList, ":page".toList, "*".toList]),
          (":item".toList, ["edit".toList])] ∧
      EveryLevel Route.children (fun siblings => siblings.Pairwise fun a b => Pattern.StandsBefore a.path b.path) forest := by
  have hplain : shop.Plain := by decide +kernel
  have hreadable : ∀ file ∈ shop.files, shop.layout.componentOf file ≠ .error .nullInPath := by decide +kernel
  have hlevels : ((compile shop.layout shop.files).result.map fun forest => (forest.map Route.path,
      (forest.nodes.filter fun node => !node.children.isEmpty).map fun node => (node.path, node.children.map Route.path))) =
      .ok (["/About".toList, "/about".toList, "/".toList, "/:lang".toList, "/*".toList],
        [("/:lang".toList, [[], "cart".toList, ":item".toList, ":page".toList, "*".toList]),
          (":item".toList, ["edit".toList])]) := by
    decide +kernel
  rcases sibling_order_plain shop hplain with ⟨forest, hforest, horder⟩ | ⟨-, file, hfile, hnull⟩
  · rw [hforest] at hlevels
    obtain ⟨htop, hbelow⟩ := Prod.mk.inj (Except.ok.inj hlevels)
    exact ⟨hplain, forest, hforest, htop, hbelow, horder⟩
  · exact absurd hnull (hreadable file hfile)

end Listing

end PageRouting
