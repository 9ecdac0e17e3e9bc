/-!
# `PageRouting/Text.lean` — text as a sequence of code points

File names, route names and router patterns are cut, compared and joined one code point at a time, so the library
holds them as lists of characters and keeps `String` for its outer edge. Everything that takes text apart stands here,
with the law that makes it trustworthy:

* `join_split`: cutting at a separator loses nothing;
* `split_join`: pieces without the separator come back from their join;
* `squeeze` reduces every run of a separator to one, and `dropFinalNewline` sets a last newline aside, which the rules
  on names and URL prefixes look behind.
-/

set_option autoImplicit false

namespace PageRouting

/--
Text is the list of its code points. The surrogates are no characters: a lone one, as it stands for a byte in a name that is not
UTF-8, has no place in a text. Where such names matter, in what is written, other characters stand for the bytes (`Strays`).
-/
abbrev Text := List Char

namespace Text

/-! ## Cutting and joining -/

/-- The pieces between the separators; one piece more than there are separators. -/
def split (sep : Char) : Text → List Text
  | [] => [[]]
  | c :: cs =>
    if c = sep then [] :: split sep cs
    else
      match split sep cs with
      | [] => [[c]]
      | piece :: pieces => (c :: piece) :: pieces

/-- The pieces with one separator between neighbours. -/
def join (sep : Char) : List Text → Text
  | [] => []
  | [piece] => piece
  | piece :: next :: pieces => piece ++ sep :: join sep (next :: pieces)

theorem split_ne_nil (sep : Char) (t : Text) : split sep t ≠ [] := by
  cases t with
  | nil => simp [split]
  | cons c cs =>
    unfold split
    split
    · simp
    · split <;> simp

/-- Nothing is lost at the cuts. -/
theorem join_split (sep : Char) (t : Text) : join sep (split sep t) = t := by
  induction t with
  | nil => rfl
  | cons c cs ih =>
    unfold split
    split
    · next h =>
      subst h
      cases hs : split c cs with
      | nil => exact absurd hs (split_ne_nil c cs)
      | cons piece pieces => rw [hs] at ih; simp [join, ih]
    · cases hs : split sep cs with
      | nil => exact absurd hs (split_ne_nil sep cs)
      | cons piece pieces =>
        rw [hs] at ih
        cases pieces with
        | nil => simpa [join] using ih
        | cons next rest => simpa [join] using ih

/-- A piece that does not hold the separator is cut off whole. -/
theorem split_append_cons (sep : Char) (piece rest : Text) (h : sep ∉ piece) :
    split sep (piece ++ sep :: rest) = piece :: split sep rest := by
  induction piece with
  | nil => simp [split]
  | cons c cs ih =>
    have hc : c ≠ sep := fun e => h (by simp [e])
    have hcs : sep ∉ cs := fun m => h (List.mem_cons_of_mem _ m)
    simp [split, hc, ih hcs]

/-- Text without the separator is a single piece. -/
theorem split_of_not_mem (sep : Char) (t : Text) (h : sep ∉ t) : split sep t = [t] := by
  induction t with
  | nil => rfl
  | cons c cs ih =>
    have hc : c ≠ sep := fun e => h (by simp [e])
    have hcs : sep ∉ cs := fun m => h (List.mem_cons_of_mem _ m)
    simp [split, hc, ih hcs]

/-- Pieces that do not hold the separator come back from their join. -/
theorem split_join (sep : Char) (pieces : List Text) (hne : pieces ≠ [])
    (h : ∀ piece ∈ pieces, sep ∉ piece) : split sep (join sep pieces) = pieces := by
  induction pieces with
  | nil => exact absurd rfl hne
  | cons piece rest ih =>
    cases rest with
    | nil => simpa [join] using split_of_not_mem sep piece (h piece (by simp))
    | cons next rest =>
      have hp := h piece (by simp)
      rw [join, split_append_cons sep piece _ hp,
        ih (by simp) (fun q hq => h q (List.mem_cons_of_mem _ hq))]

/-- No piece holds the separator. -/
theorem not_mem_of_mem_split (sep : Char) (t : Text) : ∀ piece ∈ split sep t, sep ∉ piece := by
  induction t with
  | nil => simp [split]
  | cons c cs ih =>
    unfold split
    split
    · intro piece hp
      rcases List.mem_cons.mp hp with rfl | hp
      · simp
      · exact ih piece hp
    · next hc =>
      cases hs : split sep cs with
      | nil => exact absurd hs (split_ne_nil sep cs)
      | cons first pieces =>
        rw [hs] at ih
        intro piece hp
        rcases List.mem_cons.mp hp with rfl | hp
        · intro hm
          rcases List.mem_cons.mp hm with rfl | hm
          · exact hc rfl
          · exact ih first (by simp) hm
        · exact ih piece (List.mem_cons_of_mem _ hp)

/-! ## Runs and ends -/

/-- Every run of the character becomes a single one. -/
def squeeze (c : Char) : Text → Text
  | [] => []
  | [a] => [a]
  | a :: b :: rest => if a = c ∧ b = c then squeeze c (b :: rest) else a :: squeeze c (b :: rest)

/-- The text without the character at its front. -/
def dropLeading (c : Char) (t : Text) : Text :=
  t.dropWhile (· == c)

/-- The text without the character at its end. -/
def dropTrailing (c : Char) (t : Text) : Text :=
  (dropLeading c t.reverse).reverse

/-- The text without the character at either end. -/
def trim (c : Char) (t : Text) : Text :=
  dropTrailing c (dropLeading c t)

/-- Replaces every occurrence of the character by a text. -/
def replaceChar (c : Char) (replacement : Text) (t : Text) : Text :=
  t.flatMap fun a => if a = c then replacement else [a]

/-- The text before a final newline, and that newline, or the whole text and nothing. -/
def dropFinalNewline (t : Text) : Text × Text :=
  if t.getLast? = some '\n' then (t.dropLast, ['\n']) else (t, [])

/-! ## Size -/

/-- The number of bytes that the text takes in UTF-8. -/
def byteLength (t : Text) : Nat :=
  t.foldl (fun bytes c => bytes + c.utf8Size) 0

/-! ## Repetition -/

/-- Each text once, at the place of its first occurrence. -/
def distinct : List Text → List Text
  | [] => []
  | t :: ts => t :: (distinct ts).filter (· ≠ t)

theorem mem_distinct (t : Text) (ts : List Text) : t ∈ distinct ts ↔ t ∈ ts := by
  induction ts with
  | nil => simp [distinct]
  | cons u us ih =>
    by_cases h : t = u <;> simp [distinct, h, ih]

theorem distinct_nodup (ts : List Text) : (distinct ts).Nodup := by
  induction ts with
  | nil => simp [distinct]
  | cons u us ih =>
    simp only [distinct, List.nodup_cons]
    exact ⟨by simp, ih.filter _⟩

end Text

end PageRouting
