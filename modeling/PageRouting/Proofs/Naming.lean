import PageRouting.Proofs.Collapsing
import PageRouting.Proofs.Trie

/-!
# `PageRouting/Proofs/Naming.lean` — the names that insertion gives, as a collapse pass reads them

A pass knows a route by its name and its pattern only, not by the keys that they come from. It takes a name for that of an
index route if it ends in the part `index`. On names that insertion gives, where one label extends the name of the parent,
it is right as long as no other label ends like that (`stem?_extendName_index`, `stem?_extendName_label`).

A pattern that insertion gives is a single token behind a slash, so of all that `Collapse.requireAll` may do to a pattern
one thing is left: where the level has an index route, the token loses its question mark (`newPath_token`). In what order
the index routes of a level are asked makes no difference to any pattern (`newPath_perm`).
-/

set_option autoImplicit false

namespace PageRouting

/-! ## Names of places -/

theorem Text.join_append_singleton (sep : Char) {pieces : List Text} (hne : pieces ≠ []) (piece : Text) :
    Text.join sep (pieces ++ [piece]) = Text.join sep pieces ++ sep :: piece := by
  induction pieces with
  | nil => exact absurd rfl hne
  | cons first others ih =>
    cases others with
    | nil => rfl
    | cons next others =>
      rw [List.cons_append, List.cons_append, Text.join, ← List.cons_append, ih (by simp), Text.join, List.append_assoc]
      rfl

theorem Text.join_append {c : Char} {xs ys : List Text} (hxs : xs ≠ []) (hys : ys ≠ []) :
    join c (xs ++ ys) = join c xs ++ c :: join c ys := by
  induction ys using List.reverseRecOn with
  | nil => exact absurd rfl hys
  | append_singleton ys y ih =>
    by_cases hnil : ys = []
    · rw [hnil, List.nil_append, join_append_singleton c hxs]
      rfl
    · rw [← List.append_assoc, join_append_singleton c (by simp [hxs]), ih hnil, join_append_singleton c hnil]
      simp

theorem Text.split_append_sep (sep : Char) (a b : Text) :
    Text.split sep (a ++ sep :: b) = Text.split sep a ++ Text.split sep b := by
  induction a with
  | nil => simp [Text.split]
  | cons c cs ih =>
    rw [List.cons_append, Text.split, Text.split, ih]
    split
    · rfl
    · cases hs : Text.split sep cs with
      | nil => exact absurd hs (Text.split_ne_nil sep cs)
      | cons piece pieces => rfl

theorem Trie.routeName_eq_join {place : List Text} (h : ∀ label ∈ place, label ≠ []) :
    Trie.routeName place = Text.join '-' place := by
  induction place using List.reverseRecOn with
  | nil => rfl
  | append_singleton above label ih =>
    have habove : ∀ l ∈ above, l ≠ [] := fun l hl => h l (List.mem_append_left _ hl)
    rw [Trie.routeName_append]
    by_cases hnil : above = []
    · subst hnil
      rfl
    · rw [Forest.extendName, if_neg (Trie.routeName_ne_nil hnil habove), ih habove, Text.join_append_singleton _ hnil]

/-! ## Index names -/

namespace IndexName

/-- No newline is looked behind where the name does not end in one. -/
theorem stem?_of_getLast?_ne {name : Text} (h : name.getLast? ≠ some '\n') :
    stem? name =
      if name = Segment.indexKey then some []
      else if ending <:+ name then some (name.take (name.length - ending.length))
      else none := by
  rw [stem?, Text.dropFinalNewline, if_neg h]
  simp only [List.append_nil]

/-- A name that `index` extends is that of an index route, and what remains of it is the name above. -/
theorem stem?_extendName_index (name : Text) : stem? (Forest.extendName name Segment.indexKey) = some name := by
  by_cases hn : name = []
  · subst hn
    rfl
  · have hname : Forest.extendName name Segment.indexKey = name ++ ending := by
      rw [Forest.extendName, if_neg hn]
      rfl
    have hlast : (name ++ ending).getLast? = some 'x' := by
      rw [List.getLast?_append]
      rfl
    have hlong : name ++ ending ≠ Segment.indexKey := by
      intro he
      have hlength := congrArg List.length he
      simp only [ending, List.length_append, List.length_cons] at hlength
      omega
    rw [hname, stem?_of_getLast?_ne (by simp [hlast]), if_neg hlong, if_pos (List.suffix_append _ _)]
    simp

/-- A name that another label extends is not, if the label itself does not end in the part `index`. -/
theorem stem?_extendName_label {label : Text} (name : Text) (hne : label ≠ []) (hnewline : '\n' ∉ label)
    (hindex : label ≠ Segment.indexKey) (hending : ¬ ending <:+ label) :
    stem? (Forest.extendName name label) = none := by
  have hlast : label.getLast? ≠ some '\n' := fun hl => hnewline (List.mem_of_getLast? hl)
  by_cases hn : name = []
  · rw [Forest.extendName, if_pos hn, stem?_of_getLast?_ne hlast, if_neg hindex, if_neg hending]
  · have hdash : ¬ '-' :: label <:+ Segment.indexKey := fun hs => absurd (hs.subset List.mem_cons_self) (by decide)
    have hwhole : name ++ '-' :: label ≠ Segment.indexKey := fun he => hdash (he ▸ List.suffix_append _ _)
    -- one of the two endings ends the other, and the shorter one has no second dash
    have hsuffix : ¬ ending <:+ name ++ '-' :: label := by
      intro hs
      rcases List.suffix_or_suffix_of_suffix hs (List.suffix_append name ('-' :: label)) with h | h
      · rcases List.suffix_cons_iff.mp h with h | h
        · exact hindex (List.cons.inj h).2.symm
        · exact hending h
      · rcases List.suffix_cons_iff.mp h with h | h
        · exact hindex (List.cons.inj h).2
        · exact hdash h
    rw [Forest.extendName, if_neg hn, stem?_of_getLast?_ne, if_neg hwhole, if_neg hsuffix]
    rw [List.getLast?_append_of_ne_nil _ (by simp), List.getLast?_cons_of_ne_nil hne]
    exact hlast

/-- The anchor is the least of the positions. -/
theorem anchor?_eq_min? (indexes : List IndexName) : anchor? indexes = (indexes.map position).min? := by
  cases indexes with
  | nil => rfl
  | cons first others =>
    rw [List.map_cons, List.min?_cons', List.foldl_map]
    rfl

theorem eq_nil_of_anchor? {indexes : List IndexName} (h : anchor? indexes = none) : indexes = [] := by
  rw [anchor?_eq_min?, List.min?_eq_none_iff] at h
  exact List.map_eq_nil_iff.mp h

theorem exists_of_anchor? {indexes : List IndexName} {anchor : Nat} (h : anchor? indexes = some anchor) :
    ∃ index ∈ indexes, index.position = anchor := by
  rw [anchor?_eq_min?, List.min?_eq_some_iff] at h
  exact List.mem_map.mp h.1

/-- The order of the index names does not matter to the anchor. -/
theorem anchor?_perm {indexes others : List IndexName} (h : indexes.Perm others) : anchor? indexes = anchor? others := by
  have hp := h.map position
  rw [anchor?_eq_min?, anchor?_eq_min?]
  cases hm : (others.map position).min? with
  | none =>
    rw [List.min?_eq_none_iff] at hm ⊢
    rw [hm] at hp
    exact List.perm_nil.mp hp
  | some anchor =>
    rw [List.min?_eq_some_iff] at hm ⊢
    exact ⟨hp.mem_iff.mpr hm.1, fun position hposition => hm.2 position (hp.mem_iff.mp hposition)⟩

end IndexName

/-! ## Patterns of one token -/

namespace Collapse

/-- What one index route has to say about a single token: it concerns the token, or one behind it. -/
theorem requireAt_singleton (anchor : Nat) (parts : List Text) (index : IndexName) (token : Text) :
    requireAt anchor parts index [token] = [if index.position ≤ anchor then token.erase '?' else token] := by
  unfold requireAt
  dsimp only
  by_cases hle : index.position ≤ anchor
  · rw [if_pos hle, Nat.sub_eq_zero_of_le hle]
    simp
  · have hbehind : [token].length ≤ index.position - anchor := by
      rw [List.length_singleton]
      omega
    rw [if_neg hle, List.modify_eq_self hbehind, ite_self]

theorem foldl_requireAt_singleton (anchor : Nat) (parts : List Text) (indexes : List IndexName) {token : Text}
    (ht : '?' ∉ token.erase '?') :
    indexes.foldl (fun tokens index => requireAt anchor parts index tokens) [token] =
      [if ∃ index ∈ indexes, index.position ≤ anchor then token.erase '?' else token] := by
  induction indexes generalizing token with
  | nil => simp
  | cons first others ih =>
    rw [List.foldl_cons, requireAt_singleton]
    by_cases hle : first.position ≤ anchor
    · have hagain : (token.erase '?').erase '?' = token.erase '?' := List.erase_of_not_mem ht
      rw [if_pos hle, ih (by rwa [hagain]), hagain, ite_self]
      simp [hle]
    · rw [if_neg hle, ih ht]
      simp [hle]

/-- The index route at the anchor has a say on the first token, whatever it is called. The others can only repeat it. -/
theorem requireAll_singleton (indexes : List IndexName) (parts : List Text) {token : Text} (ht : '?' ∉ token.erase '?') :
    requireAll indexes parts [token] = [if indexes = [] then token else token.erase '?'] := by
  unfold requireAll
  cases hanchor : IndexName.anchor? indexes with
  | none =>
    rw [if_pos (IndexName.eq_nil_of_anchor? hanchor)]
  | some anchor =>
    obtain ⟨index, hm, hposition⟩ := IndexName.exists_of_anchor? hanchor
    have hsome : ∃ index ∈ indexes, index.position ≤ anchor := ⟨index, hm, Nat.le_of_eq hposition⟩
    dsimp only
    rw [foldl_requireAt_singleton anchor parts indexes ht, if_pos hsome, if_neg (List.ne_nil_of_mem hm)]

/-- A token behind a slash comes out of a pass without the slash below the top level, and settled. -/
theorem newPath_token (indexes : List IndexName) (isChild : Bool) (name : Option Text) {token : Text} (ht : '/' ∉ token)
    (hq : '?' ∉ token.erase '?') :
    newPath indexes isChild name ('/' :: token) =
      (if isChild then [] else ['/']) ++ if indexes = [] then token else token.erase '?' := by
  have hsplit : Text.split '/' token = [token] := Text.split_of_not_mem _ _ ht
  have hsettled : Text.join '/' (requireAll indexes (nameParts name) [token]) =
      if indexes = [] then token else token.erase '?' := by
    rw [requireAll_singleton indexes _ hq]
    rfl
  have hstill : '?' ∉ token → (if indexes = [] then token else token.erase '?') = token := by
    intro hq
    rw [List.erase_of_not_mem hq, ite_self]
  -- without a question mark the pattern is not looked at, and there is nothing to lose
  unfold newPath resolveOptional
  cases isChild with
  | true =>
    simp only [if_true, List.erase_cons_head, List.nil_append]
    split
    · rw [hsplit, hsettled]
    · next hq => exact (hstill hq).symm
  | false =>
    have htail : (Text.split '/' ('/' :: token)).tail = [token] := by simp [Text.split, hsplit]
    simp only [Bool.false_eq_true, if_false, htail, hsettled, List.singleton_append]
    split
    · rfl
    · next hq => rw [hstill fun hm => hq (List.mem_cons_of_mem _ hm)]

/-! ## The order of the index routes -/

/-- Two index routes that concern the same token do the same to it, and otherwise they do not meet. -/
theorem requireAt_comm (anchor : Nat) (parts : List Text) (a b : IndexName) (tokens : List Text) :
    requireAt anchor parts b (requireAt anchor parts a tokens) = requireAt anchor parts a (requireAt anchor parts b tokens) := by
  unfold requireAt
  by_cases ha : a.parts.take (a.position - anchor) <+: parts
  · by_cases hb : b.parts.take (b.position - anchor) <+: parts
    · simp only [if_pos ha, if_pos hb]
      by_cases hab : a.position - anchor = b.position - anchor
      · rw [hab]
      · exact List.modify_modify_ne _ _ tokens hab
    · simp only [if_neg hb]
  · simp only [if_neg ha]

theorem requireAll_perm {indexes others : List IndexName} (h : indexes.Perm others) (parts tokens : List Text) :
    requireAll indexes parts tokens = requireAll others parts tokens := by
  unfold requireAll
  rw [IndexName.anchor?_perm h]
  cases IndexName.anchor? others with
  | none => rfl
  | some anchor => exact h.foldl_eq' (fun a _ b _ tokens => requireAt_comm anchor parts a b tokens) tokens

theorem newPath_perm {indexes others : List IndexName} (h : indexes.Perm others) (isChild : Bool) (name : Option Text)
    (path : Text) : newPath indexes isChild name path = newPath others isChild name path := by
  unfold newPath resolveOptional
  simp only [requireAll_perm h]

end Collapse

/-! ## The tokens of segments -/

namespace Segment

/-- The token of a segment without its question mark. -/
def required : Segment → Text
  | .static key => key
  | .index => indexKey
  | .param name => ':' :: name
  | .catchAll => ['*']

theorem slash_not_mem_text {segment : Segment} (h : '/' ∉ segment.key) : '/' ∉ segment.token.text := by
  cases segment with
  | static key => exact h
  | index => decide
  | param name =>
    have hname : '/' ∉ name := fun hm => h (List.mem_cons_of_mem _ hm)
    simp [token, Token.text, hname]
  | catchAll => decide

theorem not_mem_required {segment : Segment} (h : '?' ∉ segment.key) : '?' ∉ segment.required := by
  cases segment with
  | static key => exact h
  | index => decide
  | param name =>
    have hname : '?' ∉ name := fun hm => h (List.mem_cons_of_mem _ hm)
    simp [required, hname]
  | catchAll => decide

theorem required_ne_nil {segment : Segment} (h : segment.key ≠ []) : segment.required ≠ [] := by
  cases segment with
  | static key => exact h
  | index => decide
  | param name => exact List.cons_ne_nil _ _
  | catchAll => decide

theorem erase_text {segment : Segment} (h : '?' ∉ segment.key) : segment.token.text.erase '?' = segment.required := by
  cases segment with
  | static key => exact List.erase_of_not_mem h
  | index => decide
  | param name =>
    have hrequired : '?' ∉ ':' :: name := not_mem_required h
    have htext : (Segment.param name).token.text = ':' :: name ++ ['?'] := by simp [token, Token.text]
    rw [htext, List.erase_append_right _ hrequired]
    simp [required]
  | catchAll => decide

/-- What a pass makes of the token of a segment whose key holds no character that it looks at. -/
theorem newPath_text (indexes : List IndexName) (isChild : Bool) (name : Option Text) {segment : Segment}
    (hslash : '/' ∉ segment.key) (hq : '?' ∉ segment.key) :
    Collapse.newPath indexes isChild name ('/' :: segment.token.text) =
      (if isChild then [] else ['/']) ++ if indexes = [] then segment.token.text else segment.required := by
  have herase := erase_text hq
  have honce : '?' ∉ segment.token.text.erase '?' := by
    rw [herase]
    exact not_mem_required hq
  rw [Collapse.newPath_token indexes isChild name (slash_not_mem_text hslash) honce, herase]

end Segment

end PageRouting
