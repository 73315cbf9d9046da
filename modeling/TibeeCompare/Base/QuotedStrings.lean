import TibeeCompare.Base.EscapeString
import TibeeCompare.Lib.JsonStrings

/-!
An escaped string between quotes, as the writer puts it for keys and for string values, against
the grammar of JSON.

The escape `\x` with two digits, which the escaping uses for what is not printable, is not one
of the grammar.
-/

namespace TibeeCompare.Base

open Lib JsonString

def quoted (s : Bytes) : Bytes := str "\"" ++ escapeString s ++ str "\""

/-- The code points of ASCII characters. -/
def codes (s : Bytes) : List ℕ := s.map UInt8.toNat

theorem codes_append (s t : Bytes) : codes (s ++ t) = codes s ++ codes t := List.map_append

theorem isprint_iff (character : UInt8) :
    isprint character = true ↔ 0x20 ≤ character.toNat ∧ character.toNat ≤ 0x7E := by
  rw [isprint, Bool.and_eq_true, decide_eq_true_eq, decide_eq_true_eq, UInt8.le_iff_toNat_le,
    UInt8.le_iff_toNat_le]
  rfl

/-- A printable character is read back from its escape, whatever follows it. -/
theorem readContent_escapeCharacter {character : UInt8} (hprint : isprint character = true)
    (text : List ℕ) :
    readContent (codes (escapeCharacter character) ++ text) =
      (readContent text).map fun (value, rest) => (character.toNat :: value, rest) := by
  rw [escapeCharacter]
  split_ifs with hquote hbackslash hnot
  · subst hquote
    exact readContent_short rfl text
  · subst hbackslash
    exact readContent_short rfl text
  · simp [hprint] at hnot
  · obtain ⟨hlow, hhigh⟩ := (isprint_iff character).mp hprint
    have hc : IsUnescaped character.toNat := by
      refine ⟨hlow, by omega, fun h => hquote ?_, fun h => hbackslash ?_⟩
      · exact UInt8.toNat_inj.mp h
      · exact UInt8.toNat_inj.mp h
    have hunits : utf16 character.toNat = [character.toNat] := if_pos (by omega)
    have hread := readContent_unescaped hc text
    rw [hunits] at hread
    exact hread

/-- No literal goes on behind the escape of an ASCII character that is not printable. -/
theorem readContent_hexEscape {character : UInt8} (hprint : isprint character = false)
    (text : List ℕ) : readContent (codes (escapeCharacter character) ++ text) = none := by
  have hquote : character ≠ 0x22 := by
    rintro rfl
    exact absurd hprint (by decide)
  have hbackslash : character ≠ 0x5C := by
    rintro rfl
    exact absurd hprint (by decide)
  rw [escapeCharacter, if_neg hquote, if_neg hbackslash, hprint, Bool.not_false, if_pos rfl,
    hexEscape, List.append_assoc, codes_append, List.append_assoc]
  exact readContent_escape fun _ _ _ _ _ h _ => absurd h (by decide)

theorem readContent_escapeString (s : Bytes) (rest : List ℕ) :
    readContent (codes (escapeString s) ++ 0x22 :: rest) =
      if s.all isprint then some (codes s, rest) else none := by
  induction s with
  | nil =>
      rw [escapeString, List.flatMap_nil]
      exact readContent_quote rest
  | cons character s ih =>
      have happend : codes (escapeString (character :: s)) ++ 0x22 :: rest =
          codes (escapeCharacter character) ++ (codes (escapeString s) ++ 0x22 :: rest) := by
        rw [escapeString, List.flatMap_cons, codes_append, List.append_assoc]
        rfl
      rw [happend, List.all_cons]
      cases hprint : isprint character with
      | false => exact readContent_hexEscape hprint _
      | true =>
          rw [readContent_escapeCharacter hprint, ih, Bool.true_and]
          cases s.all isprint with
          | false => rfl
          | true => rfl

theorem readLiteral_quoted (s : Bytes) :
    readLiteral (codes (quoted s)) = if s.all isprint then some (codes s, []) else none := by
  have hquoted : codes (quoted s) = 0x22 :: (codes (escapeString s) ++ [0x22]) := by
    rw [quoted, codes_append, codes_append, List.append_assoc]
    rfl
  rw [hquoted]
  exact readContent_escapeString s []

/-- A quoted string is a literal exactly if all characters are printable. It is then read back,
whatever follows it. -/
theorem literal_quoted (s : Bytes) :
    ((∃ value, Literal (codes (quoted s)) value) ↔
        ∀ character ∈ s, isprint character = true) ∧
      ∀ value, Literal (codes (quoted s)) value →
        value = codes s ∧
          ∀ rest, readLiteral (codes (quoted s) ++ rest) = some (codes s, rest) := by
  have hread := readLiteral_quoted s
  have hprints : ∀ value, Literal (codes (quoted s)) value →
      (∀ character ∈ s, isprint character = true) ∧ value = codes s := by
    intro value hvalue
    rw [literal_iff, hread] at hvalue
    split at hvalue
    · next hall => exact ⟨List.all_eq_true.mp hall, (Prod.mk.inj (Option.some.inj hvalue)).1.symm⟩
    · cases hvalue
  refine ⟨⟨fun ⟨value, hvalue⟩ => (hprints value hvalue).1, fun hall => ?_⟩, ?_⟩
  · rw [if_pos (List.all_eq_true.mpr hall)] at hread
    exact ⟨codes s, literal_iff.mpr hread⟩
  · intro value hvalue
    obtain ⟨-, rfl⟩ := hprints value hvalue
    exact ⟨rfl, hvalue.readLiteral⟩

/-- The escape of a control character is not JSON. -/
theorem not_literal_quoted_control :
    ¬ ∀ s : Bytes, (∀ character ∈ s, character < 0x80) →
      Literal (codes (quoted s)) (codes s) := by
  intro h
  have hliteral := h [0x01] (List.forall_mem_singleton.mpr (by decide))
  rw [literal_iff] at hliteral
  revert hliteral
  decide

end TibeeCompare.Base
