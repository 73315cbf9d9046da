import TibeeCompare.Base.JsonWriter
import TibeeCompare.Base.UnescapeString
import TibeeCompare.Lib.JsonTrees

/-!
Whole documents.

A tree has one sequence of calls that writes it. None of them is refused, and what they leave
in the file is the text of the tree: the commas come out right whatever is nested in what.
-/

namespace TibeeCompare.Base

open Lib JsonToken Json

/-- A tree with the keys and strings from before they are escaped. -/
abbrev Document := Json Bytes Numeral

def Document.text (document : Document) : Bytes := Json.text escapedContent document

mutual

/-- The calls that write an element of an array, or a whole file. -/
def elementCalls : Document → List Call
  | .string s => [.value (.string s)]
  | .number n => [.value (.number n)]
  | .array es => .beginArray :: (elementsCalls es ++ [.endArray])
  | .dict ms => .beginDict :: (membersCalls ms ++ [.endDict])

def elementsCalls : List Document → List Call
  | [] => []
  | e :: es => elementCalls e ++ elementsCalls es

/-- The calls that write a member of a dictionary. -/
def memberCalls (key : Bytes) : Document → List Call
  | .string s => [.keyValue key (.string s)]
  | .number n => [.keyValue key (.number n)]
  | .array es => .keyArrayValue key :: (elementsCalls es ++ [.endArray])
  | .dict ms => .keyDictValue key :: (membersCalls ms ++ [.endDict])

def membersCalls : List (Bytes × Document) → List Call
  | [] => []
  | (key, v) :: ms => memberCalls key v ++ membersCalls ms

end

/-! ### What the calls write -/

def Scalar.token : Scalar → JsonToken Bytes Numeral
  | string value => .string value
  | number digits => .number digits

namespace Call

/-- The tokens of a call, but for the comma before them. -/
def tokens : Call → List (JsonToken Bytes Numeral)
  | beginArray => [.openArray]
  | endArray => [.closeArray]
  | value scalar => [scalar.token]
  | beginDict => [.openDict]
  | endDict => [.closeDict]
  | keyValue key scalar => [.string key, .colon, scalar.token]
  | keyDictValue key => [.string key, .colon, .openDict]
  | keyArrayValue key => [.string key, .colon, .openArray]

theorem lexemes_eq (call : Call) :
    call.lexemes = call.tokens.map (mapString escapedContent) := by
  rcases call with _ | _ | ⟨_ | _⟩ | _ | _ | ⟨_, _ | _⟩ | _ | _ <;> rfl

end Call

/-- Tokens behind a comma, if one is due. -/
def behindComma (first : Bool) (ts : List (JsonToken Bytes Numeral)) :
    List (JsonToken Bytes Numeral) :=
  if first then ts else comma :: ts

theorem behindComma_append (first : Bool) (ts us : List (JsonToken Bytes Numeral)) :
    behindComma first ts ++ us = behindComma first (ts ++ us) := by
  cases first <;> rfl

/-- The text of tokens. -/
def escapedText (ts : List (JsonToken Bytes Numeral)) : Bytes :=
  JsonToken.text (ts.map (mapString escapedContent))

theorem escapedText_append (ts us : List (JsonToken Bytes Numeral)) :
    escapedText (ts ++ us) = escapedText ts ++ escapedText us := by
  rw [escapedText, List.map_append, JsonToken.text_append]
  rfl

namespace JsonWriter

variable {sections : List SectionType}

/-- The calls go through, one after the other. -/
def Writes (calls : List Call) (writer writer' : JsonWriter) : Prop :=
  (forM calls Call.action : JsonM Unit).runOn writer = (.ok (), writer')

theorem Writes.append {calls more : List Call} {writer writer' writer'' : JsonWriter}
    (h : Writes calls writer writer') (h' : Writes more writer' writer'') :
    Writes (calls ++ more) writer writer'' := by
  rw [Writes, List.forM_append, JsonM.runOn_bind, h]
  exact h'

theorem Writes.cons {call : Call} {calls : List Call} {writer writer' writer'' : JsonWriter}
    (h : Writes [call] writer writer') (h' : Writes calls writer' writer'') :
    Writes (call :: calls) writer writer'' := h.append h'

theorem writes_nil (writer : JsonWriter) : Writes [] writer writer := rfl

/-- A call that the checks let through, where something was written before or not. -/
theorem writes_single {call : Call} (out : Bytes) (first : Bool) (flags : List Bool)
    (hcheck : ∀ check ∈ call.check, sections.head? = some check.1) :
    Writes [call] ⟨true, out, sections, first :: flags⟩
      ⟨true, out ++ escapedText (if call.isEntry then behindComma first call.tokens
        else call.tokens), call.sectionsAfter sections, call.flagsAfter (first :: flags)⟩ := by
  have hperform : perform ⟨true, out, sections, first :: flags⟩ call =
      (.ok (), next ⟨true, out, sections, first :: flags⟩ call) := by
    cases h : call.check with
    | none => exact perform_of_check_none rfl h
    | some check => rw [perform_of_check_some rfl h, if_pos (hcheck check h)]
  have hwritten : written ⟨true, out, sections, first :: flags⟩ call =
      (if call.isEntry then behindComma first call.tokens else call.tokens).map
        (mapString escapedContent) := by
    rw [written, Call.lexemes_eq]
    cases call.isEntry <;> cases first <;> rfl
  rw [perform] at hperform
  rw [Writes, List.forM_cons, JsonM.runOn_bind, hperform, next, hwritten]
  rfl

/-- The rest of an array, behind an element or not. -/
def restOfArray (first : Bool) : List Document → List (JsonToken Bytes Numeral)
  | [] => [closeArray]
  | e :: es => behindComma first (e.tokens ++ moreElements es)

def restOfDict (first : Bool) : List (Bytes × Document) → List (JsonToken Bytes Numeral)
  | [] => [closeDict]
  | (key, v) :: ms => behindComma first (.string key :: colon :: (v.tokens ++ moreMembers ms))

theorem restOfArray_false (es : List Document) : restOfArray false es = moreElements es := by
  cases es with
  | nil => rw [restOfArray, moreElements]
  | cons e es =>
      rw [restOfArray, moreElements]
      rfl

theorem restOfDict_false (ms : List (Bytes × Document)) :
    restOfDict false ms = moreMembers ms := by
  rcases ms with _ | ⟨⟨key, v⟩, ms⟩
  · rw [restOfDict, moreMembers]
  · rw [restOfDict, moreMembers]
    rfl

theorem tokens_array (es : List Document) :
    (Json.array es).tokens = openArray :: restOfArray true es := by
  cases es with
  | nil => rw [tokens, restOfArray]
  | cons e es => rw [tokens, restOfArray, behindComma, if_pos rfl]

theorem tokens_dict (ms : List (Bytes × Document)) :
    (Json.dict ms).tokens = openDict :: restOfDict true ms := by
  rcases ms with _ | ⟨⟨key, v⟩, ms⟩
  · rw [tokens, restOfDict]
  · rw [tokens, restOfDict, behindComma, if_pos rfl]

theorem escapedText_assoc (out : Bytes) (ts us : List (JsonToken Bytes Numeral)) :
    out ++ escapedText ts ++ escapedText us = out ++ escapedText (ts ++ us) := by
  rw [escapedText_append, List.append_assoc]

mutual

/-- An element, which is not a scalar unless it is in an array. -/
theorem writes_elementCalls : ∀ (e : Document) (out : Bytes) (sections : List SectionType)
    (first : Bool) (flags : List Bool),
    (∀ scalar, elementCalls e = [.value scalar] → sections.head? = some .kArray) →
    Writes (elementCalls e) ⟨true, out, sections, first :: flags⟩
      ⟨true, out ++ escapedText (behindComma first e.tokens), sections, false :: flags⟩
  | .string s, out, sections, first, flags, hplace => by
      rw [elementCalls] at hplace ⊢
      rw [tokens]
      apply writes_single
      rintro _ ⟨⟩
      exact hplace _ rfl
  | .number n, out, sections, first, flags, hplace => by
      rw [elementCalls] at hplace ⊢
      rw [tokens]
      apply writes_single
      rintro _ ⟨⟩
      exact hplace _ rfl
  | .array es, out, sections, first, flags, _ => by
      have hes := writes_elementsCalls es (out ++ escapedText (behindComma first [openArray]))
        sections true (false :: flags)
      rw [escapedText_assoc, behindComma_append, List.singleton_append, ← tokens_array] at hes
      rw [elementCalls]
      exact (writes_single out first flags (by rintro _ ⟨⟩)).cons hes
  | .dict ms, out, sections, first, flags, _ => by
      have hms := writes_membersCalls ms (out ++ escapedText (behindComma first [openDict]))
        sections true (false :: flags)
      rw [escapedText_assoc, behindComma_append, List.singleton_append, ← tokens_dict] at hms
      rw [elementCalls]
      exact (writes_single out first flags (by rintro _ ⟨⟩)).cons hms

/-- The elements of an array, and its end. -/
theorem writes_elementsCalls : ∀ (es : List Document) (out : Bytes) (sections : List SectionType)
    (first : Bool) (flags : List Bool),
    Writes (elementsCalls es ++ [.endArray]) ⟨true, out, .kArray :: sections, first :: flags⟩
      ⟨true, out ++ escapedText (restOfArray first es), sections, flags⟩
  | [], out, sections, first, flags => by
      rw [elementsCalls, restOfArray]
      exact writes_single out first flags (by rintro _ ⟨⟩; rfl)
  | e :: es, out, sections, first, flags => by
      have he := writes_elementCalls e out (.kArray :: sections) first flags (fun _ _ => rfl)
      have hes := writes_elementsCalls es (out ++ escapedText (behindComma first e.tokens))
        sections false flags
      rw [escapedText_assoc, behindComma_append, restOfArray_false] at hes
      rw [elementsCalls, List.append_assoc, restOfArray]
      exact he.append hes

/-- A member of a dictionary. -/
theorem writes_memberCalls : ∀ (v : Document) (key : Bytes) (out : Bytes)
    (sections : List SectionType) (first : Bool) (flags : List Bool),
    Writes (memberCalls key v) ⟨true, out, .kDict :: sections, first :: flags⟩
      ⟨true, out ++ escapedText (behindComma first (.string key :: colon :: v.tokens)),
        .kDict :: sections, false :: flags⟩
  | .string s, key, out, sections, first, flags => by
      rw [memberCalls, tokens]
      exact writes_single out first flags (by rintro _ ⟨⟩; rfl)
  | .number n, key, out, sections, first, flags => by
      rw [memberCalls, tokens]
      exact writes_single out first flags (by rintro _ ⟨⟩; rfl)
  | .array es, key, out, sections, first, flags => by
      have hes := writes_elementsCalls es
        (out ++ escapedText (behindComma first [.string key, colon, openArray]))
        (.kDict :: sections) true (false :: flags)
      rw [escapedText_assoc, behindComma_append] at hes
      rw [memberCalls, tokens_array]
      exact (writes_single out first flags (by rintro _ ⟨⟩; rfl)).cons hes
  | .dict ms, key, out, sections, first, flags => by
      have hms := writes_membersCalls ms
        (out ++ escapedText (behindComma first [.string key, colon, openDict]))
        (.kDict :: sections) true (false :: flags)
      rw [escapedText_assoc, behindComma_append] at hms
      rw [memberCalls, tokens_dict]
      exact (writes_single out first flags (by rintro _ ⟨⟩; rfl)).cons hms

/-- The members of a dictionary, and its end. -/
theorem writes_membersCalls : ∀ (ms : List (Bytes × Document)) (out : Bytes)
    (sections : List SectionType) (first : Bool) (flags : List Bool),
    Writes (membersCalls ms ++ [.endDict]) ⟨true, out, .kDict :: sections, first :: flags⟩
      ⟨true, out ++ escapedText (restOfDict first ms), sections, flags⟩
  | [], out, sections, first, flags => by
      rw [membersCalls, restOfDict]
      exact writes_single out first flags (by rintro _ ⟨⟩; rfl)
  | (key, v) :: ms, out, sections, first, flags => by
      have hv := writes_memberCalls v key out sections first flags
      have hms := writes_membersCalls ms
        (out ++ escapedText (behindComma first (.string key :: colon :: v.tokens))) sections false
        flags
      rw [escapedText_assoc, behindComma_append, restOfDict_false] at hms
      rw [membersCalls, List.append_assoc, restOfDict]
      exact hv.append hms

end

/-- Dictionaries and arrays, which a file can begin with. -/
def IsSection : Document → Prop
  | .array _ | .dict _ => True
  | .string _ | .number _ => False

/-- A file with a document in it, and nothing left open. -/
def holding (document : Document) : JsonWriter :=
  ⟨true, document.text, [], [false]⟩

theorem writes_section {document : Document} (h : IsSection document) :
    Writes (elementCalls document) opened (holding document) := by
  apply writes_elementCalls document [] [] true []
  intro scalar hcalls
  cases document with
  | string | number => cases h
  | array es | dict ms =>
      rw [elementCalls] at hcalls
      cases hcalls

theorem writes_dict (ms : List (Bytes × Document)) :
    Writes (elementCalls (.dict ms)) opened (holding (.dict ms)) := writes_section trivial

/-- A value outside an array is refused. -/
theorem not_writes_value (scalar : Scalar) (writer : JsonWriter) :
    ¬ Writes [.value scalar] opened writer := by
  intro h
  have hperform : perform opened (.value scalar) = (.error _, opened) :=
    (perform_of_check_some rfl rfl).trans (if_neg (by decide))
  rw [perform] at hperform
  rw [Writes, List.forM_cons, JsonM.runOn_bind, hperform] at h
  cases h

/-- What is written from the start is a dictionary or an array. -/
theorem Writes.isSection {document : Document} {writer : JsonWriter}
    (h : Writes (elementCalls document) opened writer) :
    IsSection document ∧ writer = holding document := by
  have hsection : IsSection document := by
    cases document with
    | string s =>
        rw [elementCalls] at h
        exact absurd h (not_writes_value _ _)
    | number n =>
        rw [elementCalls] at h
        exact absurd h (not_writes_value _ _)
    | array | dict => trivial
  have hheld := writes_section hsection
  rw [Writes] at h hheld
  rw [h] at hheld
  exact ⟨hsection, (Prod.mk.inj hheld).2⟩

end JsonWriter

end TibeeCompare.Base
