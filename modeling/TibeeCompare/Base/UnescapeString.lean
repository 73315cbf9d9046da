import TibeeCompare.Base.EscapeString

/-!
Escaped strings are read back, also those that a Json parser refuses.

The escapes of bytes above 127 begin with `\xf`, which no other escape does, and are eight digits
long.
-/

namespace TibeeCompare.Base

open Lib

def hexValue (digit : UInt8) : UInt8 := if digit < 0x3A then digit - 0x30 else digit - 0x57

def unescapeString : Bytes → Option Bytes
  | [] => some []
  | 0x5C :: 0x78 :: 0x66 :: _ :: _ :: _ :: _ :: _ :: high :: low :: s =>
      (unescapeString s).map (((hexValue high <<< 4) + hexValue low) :: ·)
  | 0x5C :: 0x78 :: high :: low :: s =>
      (unescapeString s).map (((hexValue high <<< 4) + hexValue low) :: ·)
  | 0x5C :: c :: s => (unescapeString s).map (c :: ·)
  | c :: s => (unescapeString s).map (c :: ·)

/-- The two digits of a byte. -/
theorem hexValue_hexDigits (character : UInt8) :
    (hexValue (hexDigit (character >>> 4)) <<< 4) + hexValue (hexDigit (character &&& 0xF)) =
      character := by
  have hall : ∀ i : Fin 256,
      (hexValue (hexDigit (UInt8.ofNat i >>> 4)) <<< 4) +
        hexValue (hexDigit (UInt8.ofNat i &&& 0xF)) = UInt8.ofNat i := by
    decide +kernel
  simpa using hall ⟨character.toNat, character.toNat_lt⟩

/-- The first digit of an ASCII character is not an `f`. -/
theorem hexDigit_ne_f {character : UInt8} (h : character < 0x80) :
    hexDigit (character >>> 4) ≠ 0x66 := by
  have hall : ∀ i : Fin 128, hexDigit (UInt8.ofNat i >>> 4) ≠ 0x66 := by decide +kernel
  simpa using hall ⟨character.toNat, UInt8.lt_iff_toNat_lt.mp h⟩

theorem unescapeString_hexEscape (character : UInt8) (s : Bytes) :
    unescapeString (hexEscape character ++ s) = (unescapeString s).map (character :: ·) := by
  rw [hexEscape]
  split
  · next hascii =>
      show unescapeString (0x5C :: 0x78 :: hexDigit (character >>> 4) ::
        hexDigit (character &&& 0xF) :: s) = _
      rw [unescapeString, hexValue_hexDigits]
      intros
      exact absurd ‹_› (hexDigit_ne_f hascii)
  · show unescapeString (0x5C :: 0x78 :: 0x66 :: 0x66 :: 0x66 :: 0x66 :: 0x66 :: 0x66 ::
      hexDigit (character >>> 4) :: hexDigit (character &&& 0xF) :: s) = _
    rw [unescapeString, hexValue_hexDigits]

theorem unescapeString_escapeCharacter (character : UInt8) (s : Bytes) :
    unescapeString (escapeCharacter character ++ s) =
      (unescapeString s).map (character :: ·) := by
  rw [escapeCharacter]
  split_ifs with hquote hbackslash hprint
  · rw [hquote]
    rfl
  · rw [hbackslash]
    rfl
  · exact unescapeString_hexEscape character s
  · rw [List.singleton_append, unescapeString]
    all_goals
      intros
      contradiction

/-- No string is lost. -/
theorem unescapeString_escapeString (s : Bytes) : unescapeString (escapeString s) = some s := by
  induction s with
  | nil => rfl
  | cons character s ih =>
      rw [escapeString, List.flatMap_cons, unescapeString_escapeCharacter, ← escapeString, ih]
      rfl

theorem escapedContent_injective : Function.Injective escapedContent := by
  intro s s' h
  have hunescape := unescapeString_escapeString s
  rw [show escapeString s = escapeString s' from congrArg Subtype.val h,
    unescapeString_escapeString] at hunescape
  exact (Option.some.inj hunescape).symm

example : unescapeString (str "\\x01h\\\"\\xffffffe9") = some [0x01, 0x68, 0x22, 0xE9] := by decide

end TibeeCompare.Base
