import TibeeCompare.Basic
import TibeeCompare.Lib.JsonTexts

/-!
Escaping of strings for the Json writer. Whatever the string, the result is
the content of a string token: no quote in it is left unprotected.
-/

namespace TibeeCompare.Base

open Lib

def isprint (character : UInt8) : Bool := 0x20 ≤ character && character ≤ 0x7E

/-- A digit of the format `%x`, for a value below 16. -/
def hexDigit (n : UInt8) : UInt8 := if n < 10 then 0x30 + n else 0x57 + n

/-- The format `\x%02x` on a `char` converted to `int`. A `char` is signed:
a byte above 127 is a negative number, of which all 32 bits are printed. -/
def hexEscape (character : UInt8) : Bytes :=
  str "\\x" ++ (if character < 0x80 then [] else str "ffffff") ++
    [hexDigit (character >>> 4), hexDigit (character &&& 0xF)]

def escapeCharacter (character : UInt8) : Bytes :=
  if character = 0x22 then str "\\\""
  else if character = 0x5C then str "\\\\"
  else if !isprint character then hexEscape character
  else [character]

def escapeString (s : Bytes) : Bytes := s.flatMap escapeCharacter

theorem hexDigit_plain {n : UInt8} (h : n < 16) : hexDigit n ≠ 0x22 ∧ hexDigit n ≠ 0x5C := by
  have hdigits : ∀ i : Fin 16,
      hexDigit (UInt8.ofNat i) ≠ 0x22 ∧ hexDigit (UInt8.ofNat i) ≠ 0x5C := by
    decide
  simpa using hdigits ⟨n.toNat, UInt8.lt_iff_toNat_lt.mp h⟩

theorem escaped_hexEscape (character : UInt8) : Escaped (hexEscape character) := by
  have hhigh : character >>> 4 < 16 := by
    rw [UInt8.lt_iff_toNat_lt, UInt8.toNat_shiftRight]
    have := character.toNat_lt
    simp only [UInt8.reduceToNat, Nat.reduceMod, Nat.shiftRight_eq_div_pow]
    omega
  have hlow : character &&& 0xF < 16 := by
    rw [UInt8.lt_iff_toNat_lt, UInt8.toNat_and]
    exact Nat.lt_succ_of_le Nat.and_le_right
  refine Escaped.append (Escaped.append (.pair _ .nil) ?_) ?_
  · split
    · exact .nil
    · exact .of_all (by decide)
  · refine .of_all ?_
    simp [hexDigit_plain hhigh, hexDigit_plain hlow]

theorem escaped_escapeCharacter (character : UInt8) : Escaped (escapeCharacter character) := by
  unfold escapeCharacter
  split_ifs with hquote hbackslash hprint
  · exact .pair _ .nil
  · exact .pair _ .nil
  · exact escaped_hexEscape character
  · exact .plain hquote hbackslash .nil

theorem escaped_escapeString (s : Bytes) : Escaped (escapeString s) := by
  induction s with
  | nil => exact .nil
  | cons character s ih => exact (escaped_escapeCharacter character).append ih

example : escapeString [0x01, 0x68, 0x22, 0xE9] = str "\\x01h\\\"\\xffffffe9" := by decide

/-- What the writer puts between quotes. -/
def escapedContent (s : Bytes) : Content := ⟨escapeString s, escaped_escapeString s⟩

end TibeeCompare.Base
