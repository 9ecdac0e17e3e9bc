import Mathlib.Data.List.Induction
import Mathlib.Data.List.Infix
import PageRouting.Forest.IndexName
import PageRouting.Proofs.Entries

/-!
# `PageRouting/Proofs/Listing.lean` — listings of page files, and when they are plain

What a compiled forest looks like can be said without inserting or collapsing anything, as long as the keys of the page
files leave no room for doubt. Two conditions say so:

* a listing is clean if every file is accepted, no key is empty or holds one of the characters that patterns use, and keys
  and labels tell files and steps apart (`Listing.Clean`);
* it is plain if moreover `index` is what directory pages are called and nothing else is taken for it (`Listing.Plain`).

Both are decidable. What later proofs use is that in a clean listing the labels on the way to a place tell the place
(`Clean.eq_of_labels`), so that nothing is lost when the builder looks at labels only. It is enough for that that labels tell the
keys that lead on from any one place (`LabelsTell.eq_of_map`).
-/

set_option autoImplicit false

namespace PageRouting

/-- What a key contributes to the names of routes. -/
def keyLabel (key : Text) : Text :=
  (Segment.ofKey key).label

theorem keyLabel_ne_nil {key : Text} (h : key ≠ []) : keyLabel key ≠ [] := by
  unfold keyLabel Segment.ofKey
  split
  · simp [Segment.label, Segment.token, Token.label, Token.catchAllLabel]
  · next hc =>
    split
    · next hu =>
      obtain ⟨name, rfl⟩ := List.head?_eq_some_iff.mp hu
      simpa [Segment.label, Segment.token, Token.label] using hc
    · split
      · simp [Segment.label, Segment.token, Token.label, Segment.indexKey]
      · exact h

theorem newline_not_mem_keyLabel {key : Text} (h : '\n' ∉ key) : '\n' ∉ keyLabel key := by
  unfold keyLabel Segment.ofKey
  split
  · simp [Segment.label, Segment.token, Token.label, Token.catchAllLabel]
  · split
    · exact fun hm => h (List.mem_of_mem_tail hm)
    · split
      · simp [Segment.label, Segment.token, Token.label, Segment.indexKey]
      · exact h

/-! ## Labels that tell keys -/

/-- Do labels tell the keys that lead on from any one place? -/
def LabelsTell (reaches : List Text → Prop) : Prop :=
  ∀ place a b, reaches (place ++ [a]) → reaches (place ++ [b]) → keyLabel a = keyLabel b → a = b

namespace LabelsTell

variable {reaches : List Text → Prop}

/-- **The labels on the way to a place tell the place.** -/
theorem eq_of_map (h : LabelsTell reaches) (begin : ∀ place other, place <+: other → reaches other → reaches place)
    {place other : List Text} (hp : place = [] ∨ reaches place) (ho : other = [] ∨ reaches other)
    (hl : place.map keyLabel = other.map keyLabel) : place = other := by
  induction place using List.reverseRecOn generalizing other with
  | nil => exact (List.map_eq_nil_iff.mp hl.symm).symm
  | append_singleton above a ih =>
    rw [List.map_append] at hl
    obtain ⟨above', last, rfl, habove, hlast⟩ := List.map_eq_append_iff.mp hl.symm
    obtain ⟨b, rfl, hlabel⟩ := List.map_eq_singleton_iff.mp hlast
    have ha : reaches (above ++ [a]) := hp.resolve_left (by simp)
    have hb : reaches (above' ++ [b]) := ho.resolve_left (by simp)
    obtain rfl := ih (.inr (begin _ _ (List.prefix_append _ _) ha)) (.inr (begin _ _ (List.prefix_append _ _) hb)) habove.symm
    rw [h above a b ha hb hlabel.symm]

/-- Where the places can be listed, it is enough to look at these. -/
theorem iff_of_places {places : List (List Text)} (hplaces : ∀ place, place ∈ places ↔ reaches place) :
    LabelsTell reaches ↔ ∀ place ∈ places, ∀ other ∈ places, place.dropLast = other.dropLast →
      place.getLast?.map keyLabel = other.getLast?.map keyLabel → place = other := by
  constructor
  · intro h place hp other ho hdrop hlast
    rcases List.eq_nil_or_concat place with rfl | ⟨above, a, rfl⟩ <;>
      rcases List.eq_nil_or_concat other with rfl | ⟨above', b, rfl⟩
    · rfl
    · simp at hlast
    · simp at hlast
    · simp only [List.concat_eq_append, List.dropLast_concat, List.getLast?_concat, Option.map_some, Option.some.injEq] at *
      subst hdrop
      rw [h above a b ((hplaces _).mp hp) ((hplaces _).mp ho) hlast]
  · intro h place a b ha hb hab
    have := h _ ((hplaces _).mpr ha) _ ((hplaces _).mpr hb) (by simp) (by simpa using hab)
    simpa using this

end LabelsTell

/-! ## Listings -/

/-- Page files, and the layout with which they are read. -/
structure Listing where
  layout : Layout
  files : List Text

namespace Listing

variable (listing : Listing)

/-- The keys of a file; none if the layout rejects it. -/
def keysOf (file : Text) : List Text :=
  (listing.layout.keys file).toOption.getD []

/-- Does a file have exactly these keys? -/
def HasPage (keys : List Text) : Prop :=
  ∃ file ∈ listing.files, listing.keysOf file = keys

/-- Do the keys of some file begin with these? -/
def Reaches (place : List Text) : Prop :=
  ∃ file ∈ listing.files, place <+: listing.keysOf file

instance (keys : List Text) : Decidable (listing.HasPage keys) :=
  inferInstanceAs (Decidable (∃ file ∈ listing.files, listing.keysOf file = keys))

/-- Do keys and labels tell files and steps apart, and is no key taken for a part of a pattern? -/
structure Clean : Prop where
  accepted : ∀ file ∈ listing.files, (listing.layout.keys file).isOk
  key_ne_nil : ∀ file ∈ listing.files, ∀ key ∈ listing.keysOf file, key ≠ []
  key_chars : ∀ file ∈ listing.files, ∀ key ∈ listing.keysOf file, ':' ∉ key ∧ '*' ∉ key ∧ '?' ∉ key ∧ '\n' ∉ key
  keys_injective : ∀ file ∈ listing.files, ∀ other ∈ listing.files, listing.keysOf file = listing.keysOf other → file = other
  label_injective : ∀ place a b, listing.Reaches (place ++ [a]) → listing.Reaches (place ++ [b]) →
    keyLabel a = keyLabel b → a = b

/-- Is moreover `index` only ever a directory's own page, and no other label taken for it? -/
structure Plain : Prop extends listing.Clean where
  index_last : ∀ file ∈ listing.files, ∀ key ∈ (listing.keysOf file).dropLast, key ≠ Segment.indexKey
  label_not_index : ∀ file ∈ listing.files, ∀ key ∈ listing.keysOf file, key ≠ Segment.indexKey →
    keyLabel key ≠ Segment.indexKey ∧ ¬ IndexName.ending <:+ keyLabel key

/-! ## Deciding whether a listing is plain -/

/-- The places that the files of the listing reach. -/
def places : List (List Text) :=
  listing.files.flatMap fun file => (listing.keysOf file).inits

variable {listing}

theorem mem_places {place : List Text} : place ∈ listing.places ↔ listing.Reaches place := by
  simp only [places, List.mem_flatMap, List.mem_inits, Reaches]

instance : Decidable listing.Clean :=
  decidable_of_iff
    ((∀ file ∈ listing.files, (listing.layout.keys file).isOk) ∧
      (∀ file ∈ listing.files, ∀ key ∈ listing.keysOf file, key ≠ []) ∧
      (∀ file ∈ listing.files, ∀ key ∈ listing.keysOf file, ':' ∉ key ∧ '*' ∉ key ∧ '?' ∉ key ∧ '\n' ∉ key) ∧
      (∀ file ∈ listing.files, ∀ other ∈ listing.files, listing.keysOf file = listing.keysOf other → file = other) ∧
      ∀ place ∈ listing.places, ∀ other ∈ listing.places, place.dropLast = other.dropLast →
        place.getLast?.map keyLabel = other.getLast?.map keyLabel → place = other)
    ⟨fun ⟨accepted, ne_nil, chars, keys, labels⟩ =>
        ⟨accepted, ne_nil, chars, keys, (LabelsTell.iff_of_places fun _ => mem_places).mpr labels⟩,
      fun h => ⟨h.accepted, h.key_ne_nil, h.key_chars, h.keys_injective,
        (LabelsTell.iff_of_places fun _ => mem_places).mp h.label_injective⟩⟩

instance : Decidable listing.Plain :=
  decidable_of_iff
    (listing.Clean ∧
      (∀ file ∈ listing.files, ∀ key ∈ (listing.keysOf file).dropLast, key ≠ Segment.indexKey) ∧
      ∀ file ∈ listing.files, ∀ key ∈ listing.keysOf file, key ≠ Segment.indexKey →
        keyLabel key ≠ Segment.indexKey ∧ ¬ IndexName.ending <:+ keyLabel key)
    ⟨fun ⟨clean, last, labels⟩ => ⟨clean, last, labels⟩, fun h => ⟨h.toClean, h.index_last, h.label_not_index⟩⟩

/-! ## Keys -/

theorem Reaches.of_prefix {place other : List Text} (h : listing.Reaches other) (hp : place <+: other) :
    listing.Reaches place :=
  let ⟨file, hm, ho⟩ := h
  ⟨file, hm, hp.trans ho⟩

theorem HasPage.reaches {keys : List Text} (h : listing.HasPage keys) : listing.Reaches keys :=
  let ⟨file, hm, hk⟩ := h
  ⟨file, hm, hk ▸ List.prefix_refl _⟩

theorem keysOf_of_keys {file : Text} {keys : List Text} (h : listing.layout.keys file = .ok keys) :
    listing.keysOf file = keys := by
  rw [keysOf, h]
  rfl

theorem slash_not_mem_of_mem_keysOf {file key : Text} (h : key ∈ listing.keysOf file) : '/' ∉ key := by
  unfold keysOf Layout.keys at h
  split at h
  · cases h
  · split at h
    · cases h
    · exact Text.not_mem_of_mem_split _ _ key h

theorem Clean.keys_eq (h : listing.Clean) {file : Text} (hm : file ∈ listing.files) :
    listing.layout.keys file = .ok (listing.keysOf file) := by
  have hok := h.accepted file hm
  cases hk : listing.layout.keys file with
  | ok keys => rw [keysOf_of_keys hk]
  | error fault => simp [hk, Except.isOk, Except.toBool] at hok

theorem Clean.keysOf_ne_nil (h : listing.Clean) {file : Text} (hm : file ∈ listing.files) : listing.keysOf file ≠ [] :=
  Layout.ne_nil_of_keys (h.keys_eq hm)

end Listing

/-- A key that is not empty and that no pattern reads as anything but text. -/
structure IsCleanKey (key : Text) : Prop where
  ne_nil : key ≠ []
  not_mem : ∀ c ∈ key, c ∉ [':', '*', '?', '\n', '/']

namespace IsCleanKey

variable {key : Text}

theorem label_ne_nil (h : IsCleanKey key) : keyLabel key ≠ [] :=
  keyLabel_ne_nil h.ne_nil

theorem newline_not_mem_label (h : IsCleanKey key) : '\n' ∉ keyLabel key :=
  newline_not_mem_keyLabel fun hm => h.not_mem _ hm (by simp)

end IsCleanKey

namespace Listing

variable {listing : Listing}

theorem Clean.isCleanKey (h : listing.Clean) {place : List Text} {key : Text} (hr : listing.Reaches place)
    (hk : key ∈ place) : IsCleanKey key := by
  obtain ⟨file, hm, hp⟩ := hr
  have hkey : key ∈ listing.keysOf file := hp.subset hk
  have hslash := slash_not_mem_of_mem_keysOf hkey
  obtain ⟨hcolon, hstar, hquestion, hnewline⟩ := h.key_chars file hm key hkey
  refine ⟨h.key_ne_nil file hm key hkey, fun c hc hbad => ?_⟩
  simp only [List.mem_cons, List.not_mem_nil, or_false] at hbad
  rcases hbad with rfl | rfl | rfl | rfl | rfl <;> contradiction

/-! ## Places and labels -/

/-- Is the place the top of the forest, or a place below it? -/
def Inside (listing : Listing) (place : List Text) : Prop :=
  place = [] ∨ listing.Reaches place

theorem Inside.of_prefix {place other : List Text} (h : listing.Inside other) (hp : place <+: other) :
    listing.Inside place := by
  rcases h with rfl | h
  · exact .inl (List.prefix_nil.mp hp)
  · exact .inr (h.of_prefix hp)

theorem Clean.eq_of_labels (h : listing.Clean) {place other : List Text} (hp : listing.Inside place)
    (ho : listing.Inside other) (hl : place.map keyLabel = other.map keyLabel) : place = other :=
  LabelsTell.eq_of_map h.label_injective (fun _ _ hp hr => hr.of_prefix hp) hp ho hl

/-- In a plain listing `index` ends the keys of its file. -/
theorem Plain.keysOf_eq_of_index (h : listing.Plain) {place : List Text} {file : Text} (hm : file ∈ listing.files)
    (hp : place ++ [Segment.indexKey] <+: listing.keysOf file) : listing.keysOf file = place ++ [Segment.indexKey] := by
  have hlast := h.index_last file hm
  obtain ⟨below, hk⟩ := hp
  by_contra hne
  have hbelow : below ≠ [] := by
    rintro rfl
    exact hne (by rw [← hk, List.append_nil])
  rw [← hk, List.dropLast_append_of_ne_nil hbelow] at hlast
  exact hlast Segment.indexKey (by simp) rfl

theorem Plain.hasPage_index_iff (h : listing.Plain) {place : List Text} :
    listing.HasPage (place ++ [Segment.indexKey]) ↔ listing.Reaches (place ++ [Segment.indexKey]) := by
  constructor
  · exact HasPage.reaches
  · intro ⟨file, hm, hp⟩
    exact ⟨file, hm, h.keysOf_eq_of_index hm hp⟩

end Listing

end PageRouting
