import PageRouting.Pattern.Specificity
import PageRouting.Proofs.Keys
import PageRouting.Proofs.Naming

/-!
# `PageRouting/Proofs/ReadingBack.lean` — a pattern, read as it was emitted

The segments of a page file are emitted as tokens behind slashes, and the order of routes is decided from patterns that are cut
into tokens again. Two readings have to agree for that: the spelling of a key says whether it is a parameter (`_name`), and so
does the spelling of a token (`:name?`), but the marks are different ones.

They agree on every segment whose key is not literal, whatever characters its name holds. A literal key is emitted as it is, so
it is read back as literal exactly if it holds no colon and is no lone star (`emitted_read_back`).
-/

set_option autoImplicit false

namespace PageRouting

/-! ## What a segment is, and what it says -/

/-- The kinds of segments and of tokens. -/
inductive Kind where
  | static
  | param
  | optionalParam
  | catchAll
  | index
deriving DecidableEq, Repr

/-- The kind under which a segment of a file is found in its pattern. -/
def Kind.inPattern : Kind → Kind
  | .param => .optionalParam
  | .index => .static
  | kind => kind

namespace Segment

def kind : Segment → Kind
  | .static _ => .static
  | .index => .index
  | .param _ => .param
  | .catchAll => .catchAll

/-- Literal text, or the name of a parameter. -/
def content : Segment → Text
  | .static key => key
  | .index => indexKey
  | .param name => name
  | .catchAll => []

end Segment

namespace Token

def kind : Token → Kind
  | .static _ => .static
  | .param _ _ false => .param
  | .param _ _ true => .optionalParam
  | .catchAll => .catchAll

/-- Literal text, or the name of a parameter. -/
def content : Token → Text
  | .static text => text
  | .param _ name _ => name
  | .catchAll => []

end Token

/-- The pattern that segments are emitted as: their tokens, each behind a slash. -/
def Pattern.emitted (segments : List Segment) : Text :=
  segments.flatMap fun segment => '/' :: segment.token.text

/-! ## One token -/

namespace Segment

/-- The token of a parameter is read as one, with the same name, and the mark at its end is no part of the name. -/
theorem ofText_text_param (name : Text) : Token.ofText (param name).token.text = .param [] name true := by
  have htext : (param name).token.text = ':' :: (name ++ ['?']) := by simp [token, Token.text]
  have hstar : ':' :: (name ++ ['?']) ≠ ['*'] := by simp
  rw [htext, Token.ofText, if_neg hstar, if_pos List.mem_cons_self]
  simp [Token.ofParam]

/-- A segment is read back as what it is, but for a literal one that looks like a parameter or a catch-all. -/
theorem ofText_text_iff (segment : Segment) :
    ((Token.ofText segment.token.text).kind, (Token.ofText segment.token.text).content) =
        (segment.kind.inPattern, segment.content) ↔
      ∀ key, segment = .static key → ':' ∉ key ∧ key ≠ ['*'] := by
  cases segment with
  | static key =>
    simp only [static.injEq, forall_eq', token, Token.text]
    constructor
    · intro hread
      refine ⟨fun hcolon => ?_, ?_⟩
      · have hkind := congrArg Prod.fst hread
        have hstar : key ≠ ['*'] := by
          rintro rfl
          exact absurd hcolon (by decide)
        rw [Token.ofText, if_neg hstar, if_pos hcolon, Token.ofParam] at hkind
        split at hkind <;> cases hkind
      · rintro rfl
        exact absurd hread (by decide)
    · rintro ⟨hcolon, hstar⟩
      rw [Token.ofText, if_neg hstar, if_neg hcolon]
      rfl
  | index => exact iff_of_true (by decide) (by simp)
  | param name =>
    rw [ofText_text_param]
    exact iff_of_true rfl (by simp)
  | catchAll => exact iff_of_true (by decide) (by simp)

end Segment

/-! ## Whole patterns -/

/-- No segment of a page file is spelled with a slash. -/
theorem Layout.slash_not_mem_of_segments {layout : Layout} {file : Text} {segments : List Segment}
    (h : layout.segments file = .ok segments) : ∀ segment ∈ segments, '/' ∉ segment.key := by
  intro segment hm
  unfold Layout.segments at h
  cases hk : layout.keys file with
  | error fault => simp [hk, Except.map] at h
  | ok keys =>
    obtain rfl : keys.map Segment.ofKey = segments := by simpa [hk, Except.map] using h
    obtain ⟨key, hkey, rfl⟩ := List.mem_map.mp hm
    rw [Segment.key_ofKey]
    exact Layout.slash_not_mem_of_keys_eq hk hkey

theorem Text.join_nil_cons (sep : Char) (pieces : List Text) : join sep ([] :: pieces) = pieces.flatMap (sep :: ·) := by
  induction pieces with
  | nil => rfl
  | cons piece rest ih =>
    cases rest with
    | nil => simp [join]
    | cons next rest =>
      -- only the first separator is new, all others stand in the join of the rest
      rw [List.flatMap_cons, ← ih]
      rfl

namespace Pattern

theorem tokens_emitted {segments : List Segment} (hslash : ∀ segment ∈ segments, '/' ∉ segment.key) :
    tokens (emitted segments) = .static [] :: segments.map fun segment => Token.ofText segment.token.text := by
  have hjoin : emitted segments = Text.join '/' ([] :: segments.map fun segment => segment.token.text) := by
    rw [Text.join_nil_cons, List.flatMap_map]
    rfl
  have hpieces : ∀ piece ∈ [] :: segments.map (fun segment => segment.token.text), '/' ∉ piece := by
    intro piece hm
    rcases List.mem_cons.mp hm with rfl | hm
    · exact List.not_mem_nil
    · obtain ⟨segment, hsegment, rfl⟩ := List.mem_map.mp hm
      exact Segment.slash_not_mem_text (hslash segment hsegment)
  rw [tokens, hjoin, Text.split_join '/' _ (List.cons_ne_nil _ _) hpieces, List.map_cons, List.map_map]
  rfl

/--
**The pattern of a page file is read back as its segments**, behind an empty literal one: a parameter as an optional parameter of
the same name, `index` as literal text, and all else as what it is. This is so exactly if no literal key of the file holds a colon
or is a lone star. Whatever pattern is read, its tokens are spelled so that it is their join.
-/
theorem emitted_read_back (layout : Layout) (file : Text) (segments : List Segment) (h : layout.segments file = .ok segments) :
    ((∀ key, .static key ∈ segments → ':' ∉ key ∧ key ≠ ['*']) ↔
      (tokens (emitted segments)).map (fun token => (token.kind, token.content)) =
        (.static, []) :: segments.map fun segment => (segment.kind.inPattern, segment.content)) ∧
    ∀ pattern, Text.join '/' ((tokens pattern).map Token.text) = pattern := by
  refine ⟨?_, join_tokens⟩
  have hread : (tokens (emitted segments)).map (fun token => (token.kind, token.content)) =
      (.static, []) :: segments.map fun segment =>
        ((Token.ofText segment.token.text).kind, (Token.ofText segment.token.text).content) := by
    rw [tokens_emitted (Layout.slash_not_mem_of_segments h), List.map_cons, List.map_map]
    rfl
  rw [hread, List.cons_inj_right, List.map_inj_left]
  simp only [Segment.ofText_text_iff]
  constructor
  · rintro hliteral segment hm key rfl
    exact hliteral key hm
  · intro hall key hm
    exact hall _ hm key rfl

/-- A directory called `index`, a parameter whose name looks like the mark of another one, and a literal key with all the marks that it may hold. -/
theorem emitted_read_back_marks :
    let layout : Layout := ⟨"/srv".toList, Layout.defaultPagesDir, Layout.defaultExtensions, .posix⟩
    let file := "pages/index/_a:b?/_/x*y?.vue".toList
    let segments : List Segment := [.index, .param "a:b?".toList, .catchAll, .static "x*y?".toList]
    layout.segments file = .ok segments ∧
      (∀ key, .static key ∈ segments → ':' ∉ key ∧ key ≠ ['*']) ∧
      emitted segments = "/index/:a:b??/*/x*y?".toList ∧
      (tokens (emitted segments)).map (fun token => (token.kind, token.content)) =
        [(.static, []), (.static, "index".toList), (.optionalParam, "a:b?".toList), (.catchAll, []), (.static, "x*y?".toList)] := by
  intro layout file segments
  have hsegments : layout.segments file = .ok segments := by decide +kernel
  have hliteral : ∀ key, .static key ∈ segments → ':' ∉ key ∧ key ≠ ['*'] := by
    intro key hm
    obtain rfl : key = "x*y?".toList := by simpa [segments] using hm
    decide
  exact ⟨hsegments, hliteral, by decide, ((emitted_read_back layout file segments hsegments).1.mp hliteral).trans (by decide)⟩

end Pattern

end PageRouting
