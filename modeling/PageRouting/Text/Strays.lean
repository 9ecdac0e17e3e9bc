import PageRouting.Text

/-!
# `PageRouting/Text/Strays.lean` — bytes that are no text

A name on a disk is a sequence of bytes. Where these are UTF-8, the name is read as the characters that they encode; any
other byte is read as a character that stands for it and, where the name is asked for, becomes the byte again. In a
document or on the standard output such a character has no encoding: what is being written stops in front of it.

Text has no characters of its own for this, since the surrogates that are used for it are no characters. Which characters
stand for bytes is therefore left open here (`Strays`), but for ASCII, where each character stands for itself. An escape in
ASCII has an encoding in any case; it tells the code of the character that stands in for the surrogate.
-/

set_option autoImplicit false

namespace PageRouting

/-- Which characters stand for a byte of a name that is not UTF-8. -/
structure Strays where
  /-- the byte that a character stands for, if it does -/
  byte? : Char → Option Nat := fun _ => none
  beyond_ascii : ∀ c, (byte? c).isSome = true → 0x7F < c.toNat := by simp

namespace Strays

/-- Characters next to each other that stand for bytes. -/
structure Run where
  /-- how many characters are in front of it -/
  position : Nat
  bytes : List Nat
deriving DecidableEq, Repr

/-- The first characters of a text that stand for bytes. -/
def first? (strays : Strays) (text : Text) : Option Run :=
  (text.findIdx? fun c => (strays.byte? c).isSome).map fun position =>
    { position, bytes := (((text.drop position).map strays.byte?).takeWhile Option.isSome).filterMap id }

/-- Does no character of a text stand for a byte? -/
def IsFree (strays : Strays) (text : Text) : Prop :=
  ∀ c ∈ text, strays.byte? c = none

instance (strays : Strays) (text : Text) : Decidable (strays.IsFree text) :=
  inferInstanceAs (Decidable (∀ c ∈ text, strays.byte? c = none))

variable {strays : Strays} {text : Text}

theorem first?_eq_none_iff : strays.first? text = none ↔ strays.IsFree text := by
  simp [first?, IsFree, List.findIdx?_eq_none_iff]

theorem exists_first? (h : ¬ strays.IsFree text) : ∃ run, strays.first? text = some run :=
  Option.ne_none_iff_exists'.mp fun hnone => h (first?_eq_none_iff.mp hnone)

/-- The bytes from 0x80 on as characters for private use. -/
def privateUse : Strays where
  byte? c := if 0xE080 ≤ c.toNat ∧ c.toNat ≤ 0xE0FF then some (c.toNat - 0xE000) else none
  beyond_ascii c h := by
    split at h
    · omega
    · contradiction

example : privateUse.first? ['c', '\uE0C3', '\uE0E9', 'v'] = some ⟨1, [0xC3, 0xE9]⟩ := by decide

end Strays

end PageRouting
