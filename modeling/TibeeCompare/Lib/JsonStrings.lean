import Mathlib.Data.List.Basic
import Mathlib.Data.Nat.Notation

/-!
String literals of JSON.

A text is a list of code points, and the value of a literal is a list of UTF-16 code units,
as the grammar of JSON has it. A reader that takes a literal from the front of a text finds
what the grammar derives, and nothing else.
-/

namespace TibeeCompare.Lib.JsonString

/-- What stands for itself between the quotes. -/
def IsUnescaped (c : ℕ) : Prop := 0x20 ≤ c ∧ c ≤ 0x10FFFF ∧ c ≠ 0x22 ∧ c ≠ 0x5C

instance : DecidablePred IsUnescaped := fun _ => inferInstanceAs (Decidable (_ ∧ _))

def utf16 (c : ℕ) : List ℕ :=
  if c < 0x10000 then [c] else [0xD800 + (c - 0x10000) / 0x400, 0xDC00 + (c - 0x10000) % 0x400]

/-- The escapes of two characters, by the second one: a quote, a backslash, a slash and the
letters `b`, `f`, `n`, `r`, `t`. -/
def shortEscape (c : ℕ) : Option ℕ :=
  if c = 0x22 ∨ c = 0x5C ∨ c = 0x2F then some c
  else if c = 0x62 then some 0x08
  else if c = 0x66 then some 0x0C
  else if c = 0x6E then some 0x0A
  else if c = 0x72 then some 0x0D
  else if c = 0x74 then some 0x09
  else none

def hexDigitValue (c : ℕ) : Option ℕ :=
  if 0x30 ≤ c ∧ c ≤ 0x39 then some (c - 0x30)
  else if 0x41 ≤ c ∧ c ≤ 0x46 then some (c - 0x37)
  else if 0x61 ≤ c ∧ c ≤ 0x66 then some (c - 0x57)
  else none

/-- The code unit of four hexadecimal digits. -/
def hexUnit (a b c d : ℕ) : Option ℕ := do
  return (((← hexDigitValue a) * 16 + (← hexDigitValue b)) * 16 + (← hexDigitValue c)) * 16 +
    (← hexDigitValue d)

/-! ### The grammar -/

/-- The text between the quotes, with its value. -/
inductive Denotes : List ℕ → List ℕ → Prop
  | nil : Denotes [] []
  | unescaped {c : ℕ} {text value : List ℕ} (hc : IsUnescaped c) (h : Denotes text value) :
      Denotes (c :: text) (utf16 c ++ value)
  | short {c unit : ℕ} {text value : List ℕ} (hc : shortEscape c = some unit)
      (h : Denotes text value) : Denotes (0x5C :: c :: text) (unit :: value)
  | unicode {a b c d unit : ℕ} {text value : List ℕ} (hunit : hexUnit a b c d = some unit)
      (h : Denotes text value) :
      Denotes (0x5C :: 0x75 :: a :: b :: c :: d :: text) (unit :: value)

/-- A text is a literal with a value. -/
def Literal (text value : List ℕ) : Prop :=
  ∃ content, text = 0x22 :: (content ++ [0x22]) ∧ Denotes content value

/-! ### The reader -/

/-- The value up to the closing quote, with the text behind it. -/
def readContent : List ℕ → Option (List ℕ × List ℕ)
  | [] => none
  | c :: text =>
      if c = 0x22 then some ([], text)
      else if c = 0x5C then
        match text with
        | 0x75 :: a :: b :: c :: d :: text =>
            (hexUnit a b c d).bind fun unit =>
              (readContent text).map fun (value, rest) => (unit :: value, rest)
        | c :: text =>
            (shortEscape c).bind fun unit =>
              (readContent text).map fun (value, rest) => (unit :: value, rest)
        | [] => none
      else if IsUnescaped c then
        (readContent text).map fun (value, rest) => (utf16 c ++ value, rest)
      else none

/-- The value of the literal at the front of a text, with the text behind it. -/
def readLiteral : List ℕ → Option (List ℕ × List ℕ)
  | 0x22 :: text => readContent text
  | _ => none

/-! ### The reader follows the grammar -/

theorem shortEscape_u : shortEscape 0x75 = none := by decide

theorem readContent_quote (rest : List ℕ) : readContent (0x22 :: rest) = some ([], rest) := by
  rw [readContent.eq_def]
  exact if_pos rfl

theorem readContent_unescaped {c : ℕ} (hc : IsUnescaped c) (text : List ℕ) :
    readContent (c :: text) =
      (readContent text).map fun (value, rest) => (utf16 c ++ value, rest) := by
  rw [readContent.eq_def]
  dsimp only
  rw [if_neg hc.2.2.1, if_neg hc.2.2.2, if_pos hc]

theorem readContent_escape {c : ℕ} {text : List ℕ}
    (hshort : ∀ a b c' d rest, c = 0x75 → text = a :: b :: c' :: d :: rest → False) :
    readContent (0x5C :: c :: text) = (shortEscape c).bind fun unit =>
      (readContent text).map fun (value, rest) => (unit :: value, rest) := by
  rw [readContent.eq_def]
  dsimp only
  rw [if_neg (by decide), if_pos rfl]
  split
  · next heq =>
      obtain ⟨rfl, rfl⟩ := List.cons.inj heq
      exact (hshort _ _ _ _ _ rfl rfl).elim
  · next heq =>
      obtain ⟨rfl, rfl⟩ := List.cons.inj heq
      rfl
  · next heq => cases heq

theorem readContent_short {c unit : ℕ} (hc : shortEscape c = some unit) (text : List ℕ) :
    readContent (0x5C :: c :: text) =
      (readContent text).map fun (value, rest) => (unit :: value, rest) := by
  have hne : c ≠ 0x75 := by
    rintro rfl
    simp [shortEscape_u] at hc
  rw [readContent_escape fun _ _ _ _ _ h _ => hne h, hc]
  rfl

theorem readContent_unicode (a b c d : ℕ) (text : List ℕ) :
    readContent (0x5C :: 0x75 :: a :: b :: c :: d :: text) = (hexUnit a b c d).bind fun unit =>
      (readContent text).map fun (value, rest) => (unit :: value, rest) := by
  rw [readContent.eq_def]
  rfl

theorem Denotes.readContent {content value : List ℕ} (h : Denotes content value)
    (rest : List ℕ) :
    JsonString.readContent (content ++ 0x22 :: rest) = some (value, rest) := by
  induction h with
  | nil => exact readContent_quote rest
  | unescaped hc _ ih =>
      rw [List.cons_append, readContent_unescaped hc, ih]
      rfl
  | short hc _ ih =>
      rw [List.cons_append, List.cons_append, readContent_short hc, ih]
      rfl
  | unicode hunit _ ih =>
      simp only [List.cons_append]
      rw [readContent_unicode, hunit, ih]
      rfl

theorem denotes_of_readContent {text value rest : List ℕ}
    (h : readContent text = some (value, rest)) :
    ∃ content, text = content ++ 0x22 :: rest ∧ Denotes content value := by
  induction text using readContent.induct generalizing value rest with
  | case1 => cases h
  | case2 text =>
      rw [readContent_quote] at h
      obtain ⟨rfl, rfl⟩ := Prod.mk.inj (Option.some.inj h)
      exact ⟨[], rfl, .nil⟩
  | case3 a b c d text hquote ih =>
      rw [readContent_unicode, Option.bind_eq_some_iff] at h
      obtain ⟨unit, hunit, h⟩ := h
      obtain ⟨⟨value', rest'⟩, hread, heq⟩ := Option.map_eq_some_iff.mp h
      obtain ⟨rfl, rfl⟩ := Prod.mk.inj heq
      obtain ⟨content, rfl, hdenotes⟩ := ih hread
      exact ⟨_, rfl, .unicode hunit hdenotes⟩
  | case4 c text hshort hquote ih =>
      rw [readContent_escape hshort, Option.bind_eq_some_iff] at h
      obtain ⟨unit, hunit, h⟩ := h
      obtain ⟨⟨value', rest'⟩, hread, heq⟩ := Option.map_eq_some_iff.mp h
      obtain ⟨rfl, rfl⟩ := Prod.mk.inj heq
      obtain ⟨content, rfl, hdenotes⟩ := ih hread
      exact ⟨_, rfl, .short hunit hdenotes⟩
  | case5 => cases h
  | case6 c text hquote hbackslash hc ih =>
      rw [readContent_unescaped hc] at h
      obtain ⟨⟨value', rest'⟩, hread, heq⟩ := Option.map_eq_some_iff.mp h
      obtain ⟨rfl, rfl⟩ := Prod.mk.inj heq
      obtain ⟨content, rfl, hdenotes⟩ := ih hread
      exact ⟨_, rfl, .unescaped hc hdenotes⟩
  | case7 c text hquote hbackslash hc =>
      rw [readContent.eq_def] at h
      simp [hquote, hbackslash, hc] at h

/-- The reader takes exactly the literals. -/
theorem literal_iff {text value : List ℕ} :
    Literal text value ↔ readLiteral text = some (value, []) := by
  constructor
  · rintro ⟨content, rfl, hdenotes⟩
    exact hdenotes.readContent []
  · intro h
    rw [readLiteral.eq_def] at h
    split at h
    · obtain ⟨content, rfl, hdenotes⟩ := denotes_of_readContent h
      exact ⟨content, rfl, hdenotes⟩
    · cases h

/-- A literal is read whatever follows it. -/
theorem Literal.readLiteral {text value : List ℕ} (h : Literal text value) (rest : List ℕ) :
    JsonString.readLiteral (text ++ rest) = some (value, rest) := by
  obtain ⟨content, rfl, hdenotes⟩ := h
  rw [List.cons_append, List.append_assoc]
  exact hdenotes.readContent rest

end TibeeCompare.Lib.JsonString
