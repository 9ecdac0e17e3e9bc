import PageRouting.Proofs.ClosedForm
import PageRouting.Proofs.Flattening

/-!
# `PageRouting/Proofs/Addresses.lean` — the path that a page file is served under

The path of a page file is made of the tokens of its keys. In a plain listing nothing is lost on the way: the keys can be
read back from the path, all but a final `index` (`Plain.readUrl_url`). So two files share a path only if one is the index
page of the directory that the other one is named like, and then the other one is not a leaf.
-/

set_option autoImplicit false

namespace PageRouting

section

variable {α γ : Type}

/-- What a function tells of each step of a way, given the steps before it. -/
def alongFrom (g : List α → α → γ) : List α → List α → List γ
  | _, [] => []
  | above, a :: below => g above a :: alongFrom g (above ++ [a]) below

theorem alongFrom_append (g : List α → α → γ) (above xs ys : List α) :
    alongFrom g above (xs ++ ys) = alongFrom g above xs ++ alongFrom g (above ++ xs) ys := by
  induction xs generalizing above with
  | nil => simp [alongFrom]
  | cons x xs ih => simp [alongFrom, ih]

theorem mem_alongFrom {g : List α → α → γ} {above xs : List α} {c : γ} (h : c ∈ alongFrom g above xs) :
    ∃ above', ∃ a ∈ xs, c = g above' a := by
  induction xs generalizing above with
  | nil => cases h
  | cons x xs ih =>
    rcases List.mem_cons.mp h with rfl | h
    · exact ⟨above, x, List.mem_cons_self, rfl⟩
    · obtain ⟨above', a, ha, hc⟩ := ih h
      exact ⟨above', a, List.mem_cons_of_mem _ ha, hc⟩

theorem all_alongFrom {g : List α → α → γ} {p : γ → Bool} {q : α → Bool} {xs : List α}
    (h : ∀ above, ∀ a ∈ xs, p (g above a) = q a) (above : List α) : (alongFrom g above xs).all p = xs.all q := by
  induction xs generalizing above with
  | nil => rfl
  | cons x xs ih =>
    rw [alongFrom, List.all_cons, List.all_cons, h above x List.mem_cons_self,
      ih fun above a ha => h above a (List.mem_cons_of_mem _ ha)]

end

namespace Listing

/-- The key that a token was made of. -/
def readToken (token : Text) : Text :=
  if token = [] then Segment.indexKey
  else if token = ['*'] then ['_']
  else if token.head? = some ':' then '_' :: token.tail.erase '?'
  else token

variable (listing : Listing)

/-- The path of a file: the tokens of its keys without a final `index`, behind slashes. -/
def url (file : Text) : Text :=
  '/' :: Text.join '/' (alongFrom listing.token [] (withoutIndex (listing.keysOf file)))

/-- Do the keys of the file go on in no other file? -/
def IsLeaf (file : Text) : Prop :=
  ∀ other ∈ listing.files, listing.keysOf file <+: listing.keysOf other → listing.keysOf other = listing.keysOf file

instance : DecidablePred listing.IsLeaf := fun file =>
  inferInstanceAs (Decidable (∀ other ∈ listing.files, listing.keysOf file <+: listing.keysOf other →
    listing.keysOf other = listing.keysOf file))

/-- The keys that a path was made of. -/
def readUrl (path : Text) : List Text :=
  if path.tail = [] then [] else (Text.split '/' path.tail).map readToken

/-! ## Tokens -/

variable {listing} {above : List Text} {key : Text}

/-- A key is text, a parameter, a catch-all or `index`, and its token is that. -/
theorem token_cases (listing : Listing) (above : List Text) (h : IsCleanKey key) :
    (key = Segment.indexKey ∧ listing.token above key = []) ∨
      (key = ['_'] ∧ listing.token above key = ['*']) ∨
      (∃ name, key = '_' :: name ∧ (∀ c ∈ name, c ∉ [':', '*', '?', '\n', '/']) ∧
        (listing.token above key = ':' :: name ∨ listing.token above key = ':' :: name ++ ['?'])) ∨
      (key ≠ Segment.indexKey ∧ key.head? ≠ some '_' ∧ listing.token above key = key) := by
  unfold token Segment.ofKey
  by_cases hall : key = ['_']
  · simp [hall]
  · by_cases hparam : key.head? = some '_'
    · obtain ⟨name, rfl⟩ := List.head?_eq_some_iff.mp hparam
      refine .inr (.inr (.inl ⟨name, rfl, fun c hc => h.not_mem c (List.mem_cons_of_mem _ hc), ?_⟩))
      rw [if_neg hall, if_pos hparam]
      dsimp only
      split <;> simp
    · by_cases hindex : key = Segment.indexKey
      · simp [hindex, Segment.indexKey]
      · simp [hall, hparam, hindex]

theorem readToken_token (listing : Listing) (above : List Text) (h : IsCleanKey key) : readToken (listing.token above key) = key := by
  rcases token_cases listing above h with
    ⟨hkey, ht⟩ | ⟨hkey, ht⟩ | ⟨name, hkey, hname, ht⟩ | ⟨-, -, ht⟩
  · rw [ht, hkey]
    rfl
  · rw [ht, hkey]
    rfl
  · have hq : '?' ∉ name := fun hm => hname _ hm (by simp)
    rcases ht with ht | ht <;> rw [ht, hkey]
    · simp [readToken, List.erase_of_not_mem hq]
    · simp [readToken, List.erase_append_right _ hq]
  · have hstar : key ≠ ['*'] := by
      rintro rfl
      exact h.not_mem '*' (by simp) (by simp)
    have hcolon : key.head? ≠ some ':' := fun hc => h.not_mem ':' (List.mem_of_head? hc) (by simp)
    rw [ht, readToken, if_neg h.ne_nil, if_neg hstar, if_neg hcolon]

theorem token_eq_nil_iff (h : IsCleanKey key) : listing.token above key = [] ↔ key = Segment.indexKey := by
  constructor
  · intro ht
    rw [← readToken_token listing above h, ht]
    rfl
  · rintro rfl
    rfl

theorem slash_not_mem_token (h : IsCleanKey key) : '/' ∉ listing.token above key := by
  rcases token_cases listing above h with
    ⟨-, ht⟩ | ⟨-, ht⟩ | ⟨name, -, hname, ht⟩ | ⟨-, -, ht⟩
  · simp [ht]
  · simp [ht]
  · have hslash : '/' ∉ name := fun hm => hname _ hm (by simp)
    rcases ht with ht | ht <;> simp [ht, hslash]
  · rw [ht]
    exact fun hm => h.not_mem _ hm (by simp)

theorem static_token_iff (listing : Listing) (above : List Text) (h : IsCleanKey key) :
    (':' ∉ listing.token above key ∧ '*' ∉ listing.token above key) ↔ key.head? ≠ some '_' := by
  rcases token_cases listing above h with
    ⟨hkey, ht⟩ | ⟨hkey, ht⟩ | ⟨name, hkey, -, ht⟩ | ⟨-, hkey, ht⟩
  · rw [ht, hkey]
    decide
  · rw [ht, hkey]
    decide
  · rcases ht with ht | ht <;> rw [ht, hkey] <;> simp
  · rw [ht]
    exact ⟨fun _ => hkey, fun _ => ⟨fun hm => h.not_mem _ hm (by simp), fun hm => h.not_mem _ hm (by simp)⟩⟩

/-! ## Paths -/

theorem eq_withoutIndex (keys : List Text) : keys = withoutIndex keys ∨ keys = withoutIndex keys ++ [Segment.indexKey] := by
  unfold withoutIndex
  split
  · next hl =>
    obtain ⟨above, rfl⟩ := List.getLast?_eq_some_iff.mp hl
    exact .inr (by simp)
  · exact .inl rfl

theorem withoutIndex_prefix (keys : List Text) : withoutIndex keys <+: keys := by
  unfold withoutIndex
  split
  · exact List.dropLast_prefix _
  · exact List.prefix_refl _

theorem map_readToken_alongFrom (listing : Listing) (above : List Text) {keys : List Text}
    (h : ∀ key ∈ keys, IsCleanKey key) :
    (alongFrom listing.token above keys).map readToken = keys := by
  induction keys generalizing above with
  | nil => rfl
  | cons key keys ih =>
    rw [alongFrom, List.map_cons, readToken_token listing above (h key List.mem_cons_self),
      ih _ fun k hk => h k (List.mem_cons_of_mem _ hk)]

/-- No key of a plain listing but a final one is `index`. -/
theorem Plain.index_not_mem_withoutIndex (h : listing.Plain) {file : Text} (hm : file ∈ listing.files) :
    Segment.indexKey ∉ withoutIndex (listing.keysOf file) := by
  have hlast : Segment.indexKey ∉ (listing.keysOf file).dropLast := fun hi => h.index_last file hm _ hi rfl
  unfold withoutIndex
  split
  · exact hlast
  · next hl =>
    intro hi
    rw [← List.dropLast_concat_getLast (List.ne_nil_of_mem hi), List.mem_append, List.mem_singleton] at hi
    rcases hi with hi | hi
    · exact hlast hi
    · exact hl (by rw [List.getLast?_eq_some_getLast (h.keysOf_ne_nil hm), hi])

/-- **The keys of a file are read back from its path**, all but a final `index`. -/
theorem Plain.readUrl_url (h : listing.Plain) {file : Text} (hm : file ∈ listing.files) :
    readUrl (listing.url file) = withoutIndex (listing.keysOf file) := by
  have hclean : ∀ key ∈ withoutIndex (listing.keysOf file), IsCleanKey key := fun key hk =>
    h.isCleanKey ⟨file, hm, withoutIndex_prefix _⟩ hk
  have hslash : ∀ token ∈ alongFrom listing.token [] (withoutIndex (listing.keysOf file)), '/' ∉ token := by
    intro token ht
    obtain ⟨above, key, hk, rfl⟩ := mem_alongFrom ht
    exact slash_not_mem_token (hclean key hk)
  have hread := map_readToken_alongFrom listing [] hclean
  unfold readUrl url
  rw [List.tail_cons]
  cases ht : alongFrom listing.token [] (withoutIndex (listing.keysOf file)) with
  | nil =>
    rw [ht] at hread
    rw [← hread]
    rfl
  | cons token tokens =>
    have hfirst : token ≠ [] := by
      obtain ⟨above, key, hk, rfl⟩ := mem_alongFrom (ht ▸ List.mem_cons_self)
      exact fun hnil => h.index_not_mem_withoutIndex hm ((token_eq_nil_iff (hclean key hk)).mp hnil ▸ hk)
    have hne : Text.join '/' (token :: tokens) ≠ [] := by
      cases tokens <;> simp [Text.join, hfirst]
    rw [ht] at hslash hread
    rw [if_neg hne, Text.split_join _ _ (by simp) hslash, hread]

/-- Leaf files are told apart by their paths. -/
theorem Plain.url_injective (h : listing.Plain) {file other : Text} (hm : file ∈ listing.files)
    (ho : other ∈ listing.files) (hfile : listing.IsLeaf file) (hother : listing.IsLeaf other)
    (he : listing.url file = listing.url other) : file = other := by
  have hkeys : withoutIndex (listing.keysOf file) = withoutIndex (listing.keysOf other) := by
    rw [← h.readUrl_url hm, he, h.readUrl_url ho]
  refine h.keys_injective file hm other ho ?_
  -- if only one of them ends in `index`, the other one goes on in it and is no leaf
  rcases eq_withoutIndex (listing.keysOf file) with hf | hf
  · refine (hfile other ho ?_).symm
    rw [hf, hkeys]
    exact withoutIndex_prefix _
  · rcases eq_withoutIndex (listing.keysOf other) with hg | hg
    · refine hother file hm ?_
      rw [hg, ← hkeys]
      exact withoutIndex_prefix _
    · rw [hf, hg, hkeys]

end Listing

end PageRouting
