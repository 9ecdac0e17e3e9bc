import PageRouting.Json
import PageRouting.Session.Query

/-!
# `PageRouting/Proofs/JsonTokens.lean` — the tokens of a JSON text

A JSON text is read in two passes, the first of which cuts it into tokens: brackets, commas and colons, strings without their
escapes, and words, which are the numbers and the three names. Between tokens there may be blanks (`Json.scan`).

Every text that `Json.render` writes has the tokens of its value (`Json.renderAt_yields`), whatever is escaped in it and however it is
laid out. Two things have to be seen for that. An escape stands for the character that it was written for, a pair of surrogates
included, and no quote within a string is taken for its end. And a word ends where the renderer ends it, since what follows a value
is never a character of a word.
-/

set_option autoImplicit false

namespace PageRouting.Json

/-! ## Tokens -/

/-- What a JSON text is made of, apart from blanks. -/
inductive Token where
  | openList
  | closeList
  | openObject
  | closeObject
  | comma
  | colon
  | text (value : Text)
  /-- a number, or one of the three names -/
  | word (value : Json)

/-- The tokens of one character. -/
def mark? : Char → Option Token
  | '[' => some .openList
  | ']' => some .closeList
  | '\x7b' => some .openObject
  | '\x7d' => some .closeObject
  | ',' => some .comma
  | ':' => some .colon
  | _ => none

/-- May the character stand between tokens? -/
def isGap (c : Char) : Bool :=
  c = ' ' || c = '\t' || c = '\n' || c = '\r'

/-- May the character stand in a word? -/
def isWordChar (c : Char) : Bool :=
  !isGap c && c ≠ '"' && (mark? c).isNone

/-! ## Words -/

/-- A number without sign, as it is written: in digits, the first of which is zero for zero only. -/
def natural? (digits : Text) : Option Nat :=
  let n := Nat.ofDigitChars 10 digits 0
  if Nat.toDigits 10 n = digits then some n else none

/-- A number. -/
def integer? : Text → Option Int
  | '-' :: digits => (natural? digits).map fun n : Nat => -(n : Int)
  | digits => (natural? digits).map fun n : Nat => (n : Int)

/-- What a word stands for. -/
def word? (word : Text) : Option Json :=
  if word = "null".toList then some .null
  else if word = "true".toList then some (.bool true)
  else if word = "false".toList then some (.bool false)
  else (integer? word).map .num

/-! ## Strings -/

/-- A unit of sixteen bits by its four hexadecimal digits. -/
def unit? (a b c d : Char) : Option Nat :=
  match Query.hexValue? a, Query.hexValue? b, Query.hexValue? c, Query.hexValue? d with
  | some a, some b, some c, some d => some (((a * 16 + b) * 16 + c) * 16 + d)
  | _, _, _, _ => none

/-- Is the unit the first one of a pair of surrogates? -/
def isFirstSurrogate (unit : Nat) : Bool :=
  0xD800 ≤ unit && unit < 0xDC00

/-- Is the unit the second one of a pair of surrogates? -/
def isSecondSurrogate (unit : Nat) : Bool :=
  0xDC00 ≤ unit && unit < 0xE000

/-- What a character behind a backslash stands for. -/
def escaped? : Char → Option Char
  | '"' => some '"'
  | '\\' => some '\\'
  | '/' => some '/'
  | 'n' => some '\n'
  | 'r' => some '\r'
  | 't' => some '\t'
  | 'b' => some '\x08'
  | 'f' => some '\x0c'
  | _ => none

/-- The string that is written between two quotes; a surrogate that is not one of a pair is no character. -/
def unescape : Text → Option Text
  | [] => some []
  | '\\' :: 'u' :: a :: b :: c :: d :: rest =>
    (unit? a b c d).bind fun unit =>
      if isFirstSurrogate unit then
        match rest with
        | '\\' :: 'u' :: e :: f :: g :: h :: rest =>
          (unit? e f g h).bind fun next =>
            if isSecondSurrogate next then
              (unescape rest).map (Char.ofNat (0x10000 + (unit - 0xD800) * 0x400 + (next - 0xDC00)) :: ·)
            else none
        | _ => none
      else if isSecondSurrogate unit then none
      else (unescape rest).map (Char.ofNat unit :: ·)
  | '\\' :: c :: rest => (escaped? c).bind fun meant => (unescape rest).map (meant :: ·)
  | c :: rest => if c = '\\' ∨ c = '"' ∨ c.toNat < 0x20 then none else (unescape rest).map (c :: ·)

/-! ## Scanning -/

/-- What has been begun and is not complete. -/
inductive Pending where
  | nothing
  | word (begun : Text)
  /-- a string, as it is written so far; is there a backslash at its end that the next character belongs to? -/
  | string (begun : Text) (isEscaping : Bool)

/-- The token that a character is, or what it begins. -/
def begin (c : Char) : List Token × Pending :=
  if isGap c then ([], .nothing)
  else if c = '"' then ([], .string [] false)
  else
    match mark? c with
    | some mark => ([mark], .nothing)
    | none => ([], .word [c])

/-- The tokens of a text. -/
def scan : Pending → Text → Option (List Token)
  | .nothing, [] => some []
  | .word begun, [] => (word? begun).map fun value => [.word value]
  | .string _ _, [] => none
  | .nothing, c :: cs => (scan (begin c).2 cs).map ((begin c).1 ++ ·)
  | .word begun, c :: cs =>
    if isWordChar c then scan (.word (begun ++ [c])) cs
    else (word? begun).bind fun value => (scan (begin c).2 cs).map (.word value :: (begin c).1 ++ ·)
  | .string begun true, c :: cs => scan (.string (begun ++ [c]) false) cs
  | .string begun false, c :: cs =>
    if c = '"' then (unescape begun).bind fun value => (scan .nothing cs).map (.text value :: ·)
    else scan (.string (begun ++ [c]) (c = '\\')) cs

/-! ## Pieces of a text -/

/-- Does the text not go on with a word? -/
def Ends (t : Text) : Prop :=
  ∀ c ∈ t.head?, isWordChar c = false

/-- The text has the tokens, whatever stands behind it. -/
def Passes (t : Text) (tokens : List Token) : Prop :=
  ∀ rest, scan .nothing (t ++ rest) = (scan .nothing rest).map (tokens ++ ·)

/-- The text has the tokens unless a word goes on behind it. -/
def Yields (t : Text) (tokens : List Token) : Prop :=
  ∀ rest, Ends rest → scan .nothing (t ++ rest) = (scan .nothing rest).map (tokens ++ ·)

theorem Ends.append {s t : Text} (hs : Ends s) (ht : Ends t) : Ends (s ++ t) := by
  cases s with
  | nil => exact ht
  | cons c cs => exact hs

theorem ends_nil : Ends [] := nofun

theorem ends_cons {c : Char} (h : isWordChar c = false) (rest : Text) : Ends (c :: rest) := by
  rintro first hfirst
  rwa [← Option.some.inj hfirst]

theorem Passes.yields {t : Text} {tokens : List Token} (h : Passes t tokens) : Yields t tokens :=
  fun rest _ => h rest

theorem passes_nil : Passes [] [] := fun rest => by simp

variable {s t : Text} {first second : List Token}

theorem Passes.append (hs : Passes s first) (ht : Passes t second) : Passes (s ++ t) (first ++ second) := by
  intro rest
  rw [List.append_assoc, hs, ht, Option.map_map]
  simp [Function.comp_def]

theorem Passes.before (hs : Passes s first) (ht : Yields t second) : Yields (s ++ t) (first ++ second) := by
  intro rest hrest
  rw [List.append_assoc, hs, ht rest hrest, Option.map_map]
  simp [Function.comp_def]

theorem Yields.before (hs : Yields s first) (ht : Yields t second) (hends : Ends t) : Yields (s ++ t) (first ++ second) := by
  intro rest hrest
  rw [List.append_assoc, hs _ (hends.append hrest), ht rest hrest, Option.map_map]
  simp [Function.comp_def]

theorem passes_gap {c : Char} (h : isGap c = true) : Passes [c] [] := by
  intro rest
  simp [scan, begin, h]

theorem passes_gaps {gaps : Text} (h : ∀ c ∈ gaps, isGap c = true) : Passes gaps [] := by
  induction gaps with
  | nil => exact passes_nil
  | cons c cs ih =>
    exact (passes_gap (h c List.mem_cons_self)).append (ih fun other hm => h other (List.mem_cons_of_mem _ hm))

theorem passes_newline (depth : Nat) : Passes (newline depth) [] := by
  refine passes_gaps fun c hm => ?_
  rcases List.mem_cons.mp hm with rfl | hm
  · rfl
  · rw [List.eq_of_mem_replicate hm]
    rfl

theorem passes_mark {c : Char} {mark : Token} (hgap : isGap c = false) (hquote : c ≠ '"') (h : mark? c = some mark) :
    Passes [c] [mark] := by
  intro rest
  simp [scan, begin, hgap, hquote, h]

/-! ## Words are read to their end -/

theorem scan_word {word rest : Text} (hword : ∀ c ∈ word, isWordChar c = true) (hrest : Ends rest) (begun : Text) :
    scan (.word begun) (word ++ rest) =
      (word? (begun ++ word)).bind fun value => (scan .nothing rest).map (.word value :: ·) := by
  induction word generalizing begun with
  | nil =>
    rw [List.nil_append, List.append_nil]
    cases rest with
    | nil => cases hbegun : word? begun <;> simp [scan, hbegun]
    | cons c cs =>
      have hc : isWordChar c = false := hrest c rfl
      simp [scan, hc, Option.map_map, Function.comp_def]
  | cons c word ih =>
    have hc : isWordChar c = true := hword c List.mem_cons_self
    rw [List.cons_append, scan, if_pos hc, ih (fun other hm => hword other (List.mem_cons_of_mem _ hm))]
    simp

theorem yields_word {word : Text} {value : Json} (hne : word ≠ []) (hword : ∀ c ∈ word, isWordChar c = true)
    (h : word? word = some value) : Yields word [.word value] := by
  obtain ⟨c, cs, rfl⟩ := List.exists_cons_of_ne_nil hne
  have hc : isWordChar c = true := hword c List.mem_cons_self
  have hbegin : begin c = ([], .word [c]) := by
    simp only [isWordChar, Bool.and_eq_true, Bool.not_eq_true', decide_eq_true_eq, Option.isNone_iff_eq_none] at hc
    simp [begin, hc.1.1, hc.1.2, hc.2]
  intro rest hrest
  rw [List.cons_append, scan, hbegin]
  simp only [scan_word (fun other hm => hword other (List.mem_cons_of_mem _ hm)) hrest, List.singleton_append, h]
  cases scan .nothing rest <;> rfl

/-! ## Numbers -/

theorem natural?_toDigits (n : Nat) : natural? (Nat.toDigits 10 n) = some n := by
  simp [natural?, Nat.ofDigitChars_toDigits]

theorem isDigit_of_mem_ofInteger {n : Int} {c : Char} (h : c ∈ Text.ofInteger n) : c = '-' ∨ c.isDigit = true := by
  unfold Text.ofInteger at h
  split at h
  · exact (List.mem_cons.mp h).imp_right (Nat.isDigit_of_mem_toDigits (by decide) (by decide))
  · exact .inr (Nat.isDigit_of_mem_toDigits (by decide) (by decide) h)

theorem integer?_ofInteger (n : Int) : integer? (Text.ofInteger n) = some n := by
  unfold Text.ofInteger
  split
  · next hneg =>
    rw [integer?, natural?_toDigits, Option.map_some]
    congr 1
    omega
  · next hnonneg =>
    have hsign : ∀ digits, Nat.toDigits 10 n.natAbs ≠ '-' :: digits := by
      intro digits hdigits
      have hdigit : '-'.isDigit = true :=
        Nat.isDigit_of_mem_toDigits (b := 10) (n := n.natAbs) (by decide) (by decide) (hdigits ▸ List.mem_cons_self)
      exact absurd hdigit (by decide)
    rw [integer?, natural?_toDigits, Option.map_some]
    · congr 1
      omega
    · exact hsign

theorem isWordChar_of_isDigit {c : Char} (h : c.isDigit = true) : isWordChar c = true := by
  have hcodes : ∀ n < 10, isWordChar (Char.ofNat (48 + n)) = true := by decide
  have hrange : 48 ≤ c.toNat ∧ c.toNat ≤ 57 := by
    simpa [Char.isDigit, UInt32.le_iff_toNat_le, and_comm] using h
  have hc := hcodes (c.toNat - 48) (by omega)
  rwa [Nat.add_sub_cancel' hrange.1, Char.ofNat_toNat] at hc

theorem word?_ofInteger (n : Int) : word? (Text.ofInteger n) = some (.num n) := by
  -- the three names have a character that is neither a sign nor a digit
  have hname : ∀ (name : Text) (c : Char), c ∈ name → ¬ (c = '-' ∨ c.isDigit = true) → Text.ofInteger n ≠ name :=
    fun name c hm hc h => hc (isDigit_of_mem_ofInteger (h ▸ hm))
  have hnull := hname "null".toList 'n' (by decide) (by decide)
  have htrue := hname "true".toList 't' (by decide) (by decide)
  have hfalse := hname "false".toList 'f' (by decide) (by decide)
  rw [word?, if_neg hnull, if_neg htrue, if_neg hfalse, integer?_ofInteger, Option.map_some]

/-! ## The words that are rendered -/

theorem yields_null : Yields "null".toList [.word .null] :=
  yields_word (by decide) (List.all_eq_true.mp rfl) rfl

theorem yields_true : Yields "true".toList [.word (.bool true)] :=
  yields_word (by decide) (List.all_eq_true.mp rfl) rfl

theorem yields_false : Yields "false".toList [.word (.bool false)] :=
  yields_word (by decide) (List.all_eq_true.mp rfl) rfl

theorem yields_ofInteger (n : Int) : Yields (Text.ofInteger n) [.word (.num n)] := by
  refine yields_word ?_ (fun c hm => ?_) (word?_ofInteger n)
  · unfold Text.ofInteger
    split
    · exact List.cons_ne_nil _ _
    · exact Nat.toDigits_ne_nil
  · rcases isDigit_of_mem_ofInteger hm with rfl | hc
    · rfl
    · exact isWordChar_of_isDigit hc

/-! ## Escapes stand for what was escaped -/

theorem hexValue?_hexDigit : ∀ n < 16, Query.hexValue? (Text.hexDigit n) = some n := by decide

/-- The four digits of a unit, and the unit that they are read as. -/
theorem exists_hexDigits {n : Nat} (h : n < 0x10000) :
    ∃ a b c d, Text.hexDigits 4 n = [a, b, c, d] ∧ unit? a b c d = some n := by
  refine ⟨_, _, _, _, rfl, ?_⟩
  simp only [unit?, hexValue?_hexDigit _ (Nat.mod_lt _ (by decide : 0 < 16))]
  congr 1
  omega

variable {charset : Charset}

/-- The unit of a character that is no surrogate. -/
theorem unescape_escapeUnit {c : Char} (h : c.toNat < 0x10000) (t : Text) :
    unescape (escapeUnit c.toNat ++ t) = (unescape t).map (c :: ·) := by
  obtain ⟨a, b, d, e, hdigits, hunit⟩ := exists_hexDigits h
  have hvalid : c.toNat < 0xD800 ∨ 0xDFFF < c.toNat ∧ c.toNat < 0x110000 := c.valid
  have hfirst : isFirstSurrogate c.toNat = false := by simp [isFirstSurrogate]; omega
  have hsecond : isSecondSurrogate c.toNat = false := by simp [isSecondSurrogate]; omega
  simp [escapeUnit, hdigits, unescape, hunit, hfirst, hsecond, Char.ofNat_toNat]

/-- Two surrogates that belong together. -/
theorem unescape_surrogates {first second : Nat} (hfirst : isFirstSurrogate first = true)
    (hsecond : isSecondSurrogate second = true) (t : Text) :
    unescape (escapeUnit first ++ escapeUnit second ++ t) =
      (unescape t).map (Char.ofNat (0x10000 + (first - 0xD800) * 0x400 + (second - 0xDC00)) :: ·) := by
  have hf : 0xD800 ≤ first ∧ first < 0xDC00 := by simpa [isFirstSurrogate] using hfirst
  have hs : 0xDC00 ≤ second ∧ second < 0xE000 := by simpa [isSecondSurrogate] using hsecond
  obtain ⟨a, b, c, d, hdigits, hunit⟩ := exists_hexDigits (by omega : first < 0x10000)
  obtain ⟨e, f, g, h, hnext, hnextUnit⟩ := exists_hexDigits (by omega : second < 0x10000)
  simp [escapeUnit, hdigits, hnext, unescape, hunit, hnextUnit, hfirst, hsecond]

/-- A character by its code, as one unit or as two. -/
theorem unescape_escapeCode {c : Char} (t : Text) : unescape (escapeCode c.toNat ++ t) = (unescape t).map (c :: ·) := by
  unfold escapeCode
  split
  · next h => exact unescape_escapeUnit h t
  · next h =>
    have hvalid : c.toNat < 0xD800 ∨ 0xDFFF < c.toNat ∧ c.toNat < 0x110000 := c.valid
    rw [unescape_surrogates (by simp [isFirstSurrogate]; omega) (by simp [isSecondSurrogate]; omega)]
    have hcode : 0x10000 + (0xD800 + (c.toNat - 0x10000) / 0x400 - 0xD800) * 0x400 +
        (0xDC00 + (c.toNat - 0x10000) % 0x400 - 0xDC00) = c.toNat := by omega
    rw [hcode, Char.ofNat_toNat]

theorem unescape_escapeChar (c : Char) (t : Text) : unescape (escapeChar charset c ++ t) = (unescape t).map (c :: ·) := by
  unfold escapeChar
  split
  · next h => rcases h with rfl | rfl <;> simp [unescape, escaped?]
  split
  · next h => simp [h, unescape, escaped?]
  split
  · next h => simp [h, unescape, escaped?]
  split
  · next h => simp [h, unescape, escaped?]
  split
  · next h => simp [h, unescape, escaped?]
  split
  · next h => simp [h, unescape, escaped?]
  split
  · next h => exact unescape_escapeUnit (by omega) t
  split
  · exact unescape_escapeCode t
  · next hquote _ _ _ _ _ hcontrol _ =>
    have hbare : ¬ (c = '\\' ∨ c = '"' ∨ c.toNat < 0x20) := by
      rintro (h | h | h)
      · exact hquote (.inr h)
      · exact hquote (.inl h)
      · exact hcontrol h
    rw [List.singleton_append, unescape, if_neg hbare]
    · exact fun _ _ _ _ _ h => absurd h fun hc => hbare (.inl hc)
    · exact fun _ _ h => absurd h fun hc => hbare (.inl hc)

theorem unescape_flatMap (t : Text) : unescape (t.flatMap (escapeChar charset)) = some t := by
  induction t with
  | nil => rfl
  | cons c cs ih => rw [List.flatMap_cons, unescape_escapeChar, ih, Option.map_some]

/-! ## Strings are read to their quote -/

/-- Is the string still open behind the piece, with nothing left to be escaped? -/
def KeepsOpen (piece : Text) : Prop :=
  ∀ begun rest, scan (.string begun false) (piece ++ rest) = scan (.string (begun ++ piece) false) rest

theorem keepsOpen_nil : KeepsOpen [] := by
  intro begun rest
  simp

theorem KeepsOpen.append {piece next : Text} (h : KeepsOpen piece) (hnext : KeepsOpen next) : KeepsOpen (piece ++ next) := by
  intro begun rest
  rw [List.append_assoc, h, hnext, List.append_assoc]

theorem keepsOpen_bare {c : Char} (hquote : c ≠ '"') (hescape : c ≠ '\\') : KeepsOpen [c] := by
  intro begun rest
  simp [scan, hquote, hescape]

theorem keepsOpen_escape (c : Char) : KeepsOpen ['\\', c] := by
  intro begun rest
  simp [scan]

theorem keepsOpen_flatMap {α : Type} {f : α → Text} {pieces : List α} (h : ∀ piece ∈ pieces, KeepsOpen (f piece)) :
    KeepsOpen (pieces.flatMap f) := by
  induction pieces with
  | nil => exact keepsOpen_nil
  | cons piece pieces ih =>
    exact (h piece List.mem_cons_self).append (ih fun other hm => h other (List.mem_cons_of_mem _ hm))

theorem hexDigit_bare : ∀ n < 16, Text.hexDigit n ≠ '"' ∧ Text.hexDigit n ≠ '\\' := by decide

theorem keepsOpen_hexDigits (width n : Nat) : KeepsOpen (Text.hexDigits width n) := by
  induction width generalizing n with
  | zero => exact keepsOpen_nil
  | succ width ih =>
    obtain ⟨hquote, hescape⟩ := hexDigit_bare (n % 16) (Nat.mod_lt _ (by decide))
    exact (ih (n / 16)).append (keepsOpen_bare hquote hescape)

theorem keepsOpen_escapeUnit (n : Nat) : KeepsOpen (escapeUnit n) :=
  (keepsOpen_escape 'u').append (keepsOpen_hexDigits 4 n)

theorem keepsOpen_escapeChar (c : Char) : KeepsOpen (escapeChar charset c) := by
  unfold escapeChar escapeCode
  repeat' split
  · exact keepsOpen_escape c
  · exact keepsOpen_escape 'n'
  · exact keepsOpen_escape 'r'
  · exact keepsOpen_escape 't'
  · exact keepsOpen_escape 'b'
  · exact keepsOpen_escape 'f'
  · exact keepsOpen_escapeUnit _
  · exact keepsOpen_escapeUnit _
  · exact (keepsOpen_escapeUnit _).append (keepsOpen_escapeUnit _)
  · next hquote _ _ _ _ _ _ _ => exact keepsOpen_bare (fun h => hquote (.inl h)) (fun h => hquote (.inr h))

theorem passes_renderString (t : Text) : Passes (renderString charset t) [.text t] := by
  intro rest
  have hopen : KeepsOpen (t.flatMap (escapeChar charset)) := keepsOpen_flatMap fun c _ => keepsOpen_escapeChar c
  have hbegin : begin '"' = ([], .string [] false) := rfl
  rw [renderString, List.cons_append, List.append_assoc, scan, hbegin, hopen]
  simp [scan, unescape_flatMap, Function.comp_def]

/-! ## The text of a value has the tokens of the value -/

mutual

/-- The tokens of a value. -/
def tokens : Json → List Token
  | .null => [.word .null]
  | .bool value => [.word (.bool value)]
  | .num value => [.word (.num value)]
  | .str value => [.text value]
  | .arr [] => [.openList, .closeList]
  | .arr (item :: items) => .openList :: (tokens item ++ itemTokens items ++ [.closeList])
  | .obj [] => [.openObject, .closeObject]
  | .obj (field :: fields) => .openObject :: (fieldTokens field ++ otherTokens fields ++ [.closeObject])

/-- The tokens of the items behind the first one. -/
def itemTokens : List Json → List Token
  | [] => []
  | item :: items => .comma :: (tokens item ++ itemTokens items)

/-- The tokens of a field. -/
def fieldTokens : Text × Json → List Token
  | (key, value) => .text key :: .colon :: tokens value

/-- The tokens of the fields behind the first one. -/
def otherTokens : List (Text × Json) → List Token
  | [] => []
  | field :: fields => .comma :: (fieldTokens field ++ otherTokens fields)

end

theorem ends_newline (depth : Nat) (rest : Text) : Ends (newline depth ++ rest) := ends_cons rfl _

theorem ends_renderItems (depth : Nat) (items : List Json) : Ends (renderItems charset depth items) := by
  cases items with
  | nil => exact ends_nil
  | cons item items => exact ends_cons rfl _

theorem ends_renderFields (depth : Nat) (fields : List (Text × Json)) : Ends (renderFields charset depth fields) := by
  cases fields with
  | nil => exact ends_nil
  | cons field fields => exact ends_cons rfl _

/-- A list or an object that is not empty: its brackets, the first thing in it, and the others. -/
theorem Yields.enclosed {opening closing : Char} {opened closed : Token} (hopen : Passes [opening] [opened])
    (hs : Yields s first) (ht : Yields t second) (hends : Ends t) (hclose : Passes [closing] [closed]) (depth : Nat) :
    Yields (opening :: (newline (depth + 1) ++ s ++ t ++ newline depth ++ [closing]))
      (opened :: (first ++ second ++ [closed])) := by
  have hbegin : Yields (opening :: newline (depth + 1) ++ s) (opened :: first) :=
    (hopen.append (passes_newline (depth + 1))).before hs
  have hend : Yields (newline depth ++ [closing]) [closed] := ((passes_newline depth).append hclose).yields
  have hwhole := (hbegin.before ht hends).before hend (ends_newline depth [closing])
  simpa using hwhole

/-- One more thing in a list or an object, and what comes behind it. -/
theorem Yields.behindComma (hs : Yields s first) (ht : Yields t second) (hends : Ends t) (depth : Nat) :
    Yields (',' :: (newline depth ++ s ++ t)) (.comma :: (first ++ second)) := by
  have hcomma : Passes [','] [.comma] := passes_mark rfl (by decide) rfl
  have hwhole := ((hcomma.append (passes_newline depth)).before hs).before ht hends
  simpa using hwhole

mutual

theorem renderAt_yields (charset : Charset) (depth : Nat) : ∀ value : Json, Yields (renderAt charset depth value) (tokens value)
  | .null => yields_null
  | .bool true => yields_true
  | .bool false => yields_false
  | .num value => yields_ofInteger value
  | .str value => (passes_renderString value).yields
  | .arr [] => ((passes_mark rfl (by decide) rfl).append (passes_mark rfl (by decide) rfl)).yields
  | .arr (item :: items) =>
    .enclosed (passes_mark rfl (by decide) rfl) (renderAt_yields charset (depth + 1) item)
      (renderItems_yields charset (depth + 1) items) (ends_renderItems _ _) (passes_mark rfl (by decide) rfl) depth
  | .obj [] => ((passes_mark rfl (by decide) rfl).append (passes_mark rfl (by decide) rfl)).yields
  | .obj (field :: fields) =>
    .enclosed (passes_mark rfl (by decide) rfl) (renderField_yields charset (depth + 1) field)
      (renderFields_yields charset (depth + 1) fields) (ends_renderFields _ _) (passes_mark rfl (by decide) rfl) depth

theorem renderItems_yields (charset : Charset) (depth : Nat) :
    ∀ items : List Json, Yields (renderItems charset depth items) (itemTokens items)
  | [] => passes_nil.yields
  | item :: items =>
    (renderAt_yields charset depth item).behindComma (renderItems_yields charset depth items) (ends_renderItems _ _) depth

theorem renderField_yields (charset : Charset) (depth : Nat) :
    ∀ field : Text × Json, Yields (renderField charset depth field) (fieldTokens field)
  | (key, value) => by
    have hcolon : Passes [':', ' '] [.colon] := (passes_mark rfl (by decide) rfl).append (passes_gap (c := ' ') rfl)
    have hkey : Passes (renderString charset key) [.text key] := passes_renderString key
    have hwhole := (hkey.append hcolon).before (renderAt_yields charset depth value)
    simpa [renderField, fieldTokens] using hwhole

theorem renderFields_yields (charset : Charset) (depth : Nat) :
    ∀ fields : List (Text × Json), Yields (renderFields charset depth fields) (otherTokens fields)
  | [] => passes_nil.yields
  | field :: fields =>
    (renderField_yields charset depth field).behindComma (renderFields_yields charset depth fields) (ends_renderFields _ _) depth

end

end PageRouting.Json
