import TibeeCompare.Lib.JsonTokens

/-!
JSON texts as bytes. A text is well formed, as to its structure, when it
spells the tokens of one value.

The contents of strings are taken as escaped: a backslash protects the byte
after it, and no quote is left unprotected. A number is any nonempty run of
bytes that are not structural. With this much known, the tokens can be read
back from the bytes, so that a text is the text of one token list only.
-/

namespace TibeeCompare.Lib

/-- Brackets, braces, the comma, the colon and the quote. -/
def isStructural (b : UInt8) : Bool :=
  b == 0x5B || b == 0x5D || b == 0x7B || b == 0x7D || b == 0x2C || b == 0x3A || b == 0x22

inductive Escaped : List UInt8 → Prop
  | nil : Escaped []
  | plain {b : UInt8} {s : List UInt8} (hquote : b ≠ 0x22) (hbackslash : b ≠ 0x5C)
      (hs : Escaped s) : Escaped (b :: s)
  | pair (b : UInt8) {s : List UInt8} (hs : Escaped s) : Escaped (0x5C :: b :: s)

theorem Escaped.append {s t : List UInt8} (hs : Escaped s) (ht : Escaped t) :
    Escaped (s ++ t) := by
  induction hs with
  | nil => exact ht
  | plain hquote hbackslash _ ih => exact .plain hquote hbackslash ih
  | pair b _ ih => exact .pair b ih

theorem Escaped.of_all {s : List UInt8} (h : s.all fun b => b ≠ 0x22 ∧ b ≠ 0x5C) : Escaped s := by
  induction s with
  | nil => exact .nil
  | cons b s ih =>
      rw [List.all_cons, Bool.and_eq_true, decide_eq_true_eq] at h
      obtain ⟨⟨hquote, hbackslash⟩, hs⟩ := h
      exact .plain hquote hbackslash (ih hs)

/-- The quote that ends an escaped content is the first one not protected. -/
theorem Escaped.eq_of_append_quote {s t : List UInt8} (hs : Escaped s) (ht : Escaped t)
    {r u : List UInt8} (h : s ++ 0x22 :: r = t ++ 0x22 :: u) : s = t ∧ r = u := by
  induction hs generalizing t with
  | nil =>
      cases ht with
      | nil => exact ⟨rfl, List.tail_eq_of_cons_eq h⟩
      | plain hquote => exact absurd (List.head_eq_of_cons_eq h).symm hquote
      | pair => exact absurd (List.head_eq_of_cons_eq h) (by decide)
  | plain hquote hbackslash hs ih =>
      cases ht with
      | nil => exact absurd (List.head_eq_of_cons_eq h) hquote
      | plain _ _ ht =>
          obtain ⟨rfl, htail⟩ := List.cons.inj h
          obtain ⟨rfl, hrest⟩ := ih ht htail
          exact ⟨rfl, hrest⟩
      | pair => exact absurd (List.head_eq_of_cons_eq h) hbackslash
  | pair b hs ih =>
      cases ht with
      | nil => exact absurd (List.head_eq_of_cons_eq h) (by decide)
      | plain _ hbackslash => exact absurd (List.head_eq_of_cons_eq h).symm hbackslash
      | pair b' ht =>
          obtain ⟨rfl, htail⟩ := List.cons.inj (List.tail_eq_of_cons_eq h)
          obtain ⟨rfl, hrest⟩ := ih ht htail
          exact ⟨rfl, hrest⟩

/-- The content of a string token. -/
abbrev Content := { s : List UInt8 // Escaped s }

abbrev Numeral := { s : List UInt8 // s ≠ [] ∧ s.all fun b => !isStructural b }

theorem Numeral.isStructural_eq_false (n : Numeral) {b : UInt8} (h : b ∈ n.1) :
    isStructural b = false := by
  simpa using List.all_eq_true.mp n.2.2 b h

abbrev Lexeme := JsonToken Content Numeral

namespace JsonToken

def spell : Lexeme → List UInt8
  | openArray => [0x5B]
  | closeArray => [0x5D]
  | openDict => [0x7B]
  | closeDict => [0x7D]
  | comma => [0x2C]
  | colon => [0x3A]
  | string s => 0x22 :: (s.1 ++ [0x22])
  | number n => n.1

@[simp] theorem spell_openArray : spell openArray = [0x5B] := rfl
@[simp] theorem spell_openDict : spell openDict = [0x7B] := rfl
@[simp] theorem spell_comma : spell comma = [0x2C] := rfl
@[simp] theorem spell_colon : spell colon = [0x3A] := rfl
@[simp] theorem spell_string (s : Content) : spell (string s) = 0x22 :: (s.1 ++ [0x22]) := rfl

def text (ts : List Lexeme) : List UInt8 := ts.flatMap spell

@[simp] theorem text_nil : text [] = [] := rfl

@[simp] theorem text_cons (t : Lexeme) (ts : List Lexeme) : text (t :: ts) = spell t ++ text ts :=
  rfl

@[simp] theorem text_append (ts us : List Lexeme) : text (ts ++ us) = text ts ++ text us :=
  List.flatMap_append

/-- The text is one JSON value as to structure. -/
def WellFormed (s : List UInt8) : Prop := ∃ ts : List Lexeme, s = text ts ∧ IsValue ts

/-! ### Reading the tokens back -/

/-- What a number has to be followed by for its end to be seen. -/
def Ends (rest : List UInt8) : Prop := ∀ b ∈ rest.head?, isStructural b = true

theorem takeWhile_numeral (n : Numeral) {rest : List UInt8} (h : Ends rest) :
    (n.1 ++ rest).takeWhile (fun b => !isStructural b) = n.1 := by
  rw [List.takeWhile_append_of_pos fun b hb => by simp [n.isStructural_eq_false hb]]
  cases rest with
  | nil => simp
  | cons b rest => simp [h b rfl]

theorem eq_of_append_numeral {n m : Numeral} {r u : List UInt8} (hr : Ends r) (hu : Ends u)
    (h : n.1 ++ r = m.1 ++ u) : n = m ∧ r = u := by
  have hn : n.1 = m.1 := by
    rw [← takeWhile_numeral n hr, h, takeWhile_numeral m hu]
  refine ⟨Subtype.ext hn, ?_⟩
  rw [hn] at h
  exact List.append_cancel_left h

theorem spell_head_of_not_number {t : Lexeme} (h : t.isNumber = false) :
    ∃ b s, spell t = b :: s ∧ isStructural b = true := by
  cases t <;> first | exact ⟨_, _, rfl, by decide⟩ | cases h

theorem spell_head_of_number (n : Numeral) :
    ∃ b s, spell (.number n) = b :: s ∧ isStructural b = false := by
  obtain ⟨b, s, hbs⟩ := List.exists_cons_of_ne_nil n.2.1
  exact ⟨b, s, hbs, n.isStructural_eq_false (by rw [hbs]; exact List.mem_cons_self)⟩

theorem spell_ne_nil (t : Lexeme) : spell t ≠ [] := by
  cases t with
  | number n => exact n.2.1
  | _ => exact List.cons_ne_nil _ _

theorem ends_of_spaced {n : Numeral} {ts : List Lexeme} (h : Spaced (.number n :: ts)) :
    Ends (text ts) := by
  cases ts with
  | nil => simp [Ends]
  | cons t ts =>
      have hnumber : t.isNumber = false := by
        have := (List.isChain_cons_cons.mp h).1
        simpa [isNumber] using this
      obtain ⟨b, s, hspell, hb⟩ := spell_head_of_not_number hnumber
      intro c hc
      rw [text_cons, hspell] at hc
      obtain rfl : b = c := by simpa using hc
      exact hb

/-- The first byte tells numbers from the other tokens. -/
theorem isNumber_eq_of_spell_append {t u : Lexeme} {r v : List UInt8}
    (h : spell t ++ r = spell u ++ v) : t.isNumber = u.isNumber := by
  have hclass (t : Lexeme) (r : List UInt8) :
      ∃ b s, spell t ++ r = b :: s ∧ isStructural b = !t.isNumber := by
    cases ht : t.isNumber with
    | false =>
        obtain ⟨b, s, hspell, hb⟩ := spell_head_of_not_number ht
        exact ⟨b, s ++ r, by rw [hspell]; rfl, by rw [hb]; rfl⟩
    | true =>
        cases t <;> simp only [isNumber, Bool.false_eq_true] at ht
        obtain ⟨b, s, hspell, hb⟩ := spell_head_of_number _
        exact ⟨b, s ++ r, by rw [hspell]; rfl, by rw [hb]; rfl⟩
  obtain ⟨b, s, ht, hb⟩ := hclass t r
  obtain ⟨c, s', hu, hc⟩ := hclass u v
  obtain ⟨rfl, -⟩ := List.cons.inj (ht.symm.trans (h.trans hu))
  simpa using hb.symm.trans hc

/-- The first token of a text and the bytes after it. -/
theorem eq_of_text_cons {t u : Lexeme} {ts us : List Lexeme} (hts : Spaced (t :: ts))
    (hus : Spaced (u :: us)) (h : text (t :: ts) = text (u :: us)) :
    t = u ∧ text ts = text us := by
  rw [text_cons, text_cons] at h
  have hnumber := isNumber_eq_of_spell_append h
  cases t with
  | number n =>
      cases u with
      | number m =>
          obtain ⟨rfl, hrest⟩ := eq_of_append_numeral (ends_of_spaced hts) (ends_of_spaced hus) h
          exact ⟨rfl, hrest⟩
      | _ => simp [isNumber] at hnumber
  | string s =>
      cases u with
      | string s' =>
          simp only [spell, List.cons_append, List.append_assoc, List.nil_append] at h
          obtain ⟨hs, hrest⟩ := s.2.eq_of_append_quote s'.2 (List.tail_eq_of_cons_eq h)
          exact ⟨congrArg string (Subtype.ext hs), hrest⟩
      | number => simp [isNumber] at hnumber
      | _ => exact absurd (List.head_eq_of_cons_eq h) (by decide)
  | _ =>
      cases u <;> first
        | exact ⟨rfl, List.tail_eq_of_cons_eq h⟩
        | exact absurd (List.head_eq_of_cons_eq h) (by decide)
        | simp [isNumber] at hnumber

theorem eq_of_text_eq {ts us : List Lexeme} (hts : Spaced ts) (hus : Spaced us)
    (h : text ts = text us) : ts = us := by
  induction ts generalizing us with
  | nil =>
      cases us with
      | nil => rfl
      | cons u us => exact absurd (List.append_eq_nil_iff.mp h.symm).1 (spell_ne_nil u)
  | cons t ts ih =>
      cases us with
      | nil => exact absurd (List.append_eq_nil_iff.mp h).1 (spell_ne_nil t)
      | cons u us =>
          obtain ⟨rfl, hrest⟩ := eq_of_text_cons hts hus h
          exact congrArg (t :: ·) (ih hts.tail hus.tail hrest)

/-- A text written from tokens with no two numbers side by side is well
formed when those tokens are a value: no other reading can make it one. -/
theorem wellFormed_text_iff {ts : List Lexeme} (h : Spaced ts) :
    WellFormed (text ts) ↔ IsValue ts := by
  constructor
  · rintro ⟨us, htext, hus⟩
    rwa [eq_of_text_eq h (spaced_of_read (isValue_iff_read.mp hus)) htext]
  · exact fun hts => ⟨ts, rfl, hts⟩

end JsonToken

end TibeeCompare.Lib
