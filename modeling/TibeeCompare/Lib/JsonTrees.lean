import TibeeCompare.Lib.JsonTexts

/-!
JSON values as trees.

A tree has one list of tokens, which is a value of the grammar. A decoder that takes one token
at a time, over a stack of the arrays and dictionaries that it is in, finds the tree of these
tokens again. So no two trees have the same text.
-/

namespace TibeeCompare.Lib

/-- The members of a dictionary are in the order of the text, and a key may come twice. -/
inductive Json (S N : Type) where
  | string (content : S)
  | number (numeral : N)
  | array (elements : List (Json S N))
  | dict (members : List (S × Json S N))

namespace Json

open JsonToken

variable {S N : Type}

/-- No dictionary has a key twice. -/
inductive DistinctKeys : Json S N → Prop
  | string (s : S) : DistinctKeys (string s)
  | number (n : N) : DistinctKeys (number n)
  | array {es : List (Json S N)} (hes : ∀ e ∈ es, DistinctKeys e) : DistinctKeys (array es)
  | dict {ms : List (S × Json S N)} (hkeys : (ms.map Prod.fst).Nodup)
      (hms : ∀ m ∈ ms, DistinctKeys m.2) : DistinctKeys (dict ms)

mutual

def tokens : Json S N → List (JsonToken S N)
  | string s => [.string s]
  | number n => [.number n]
  | array [] => [openArray, closeArray]
  | array (e :: es) => openArray :: (tokens e ++ moreElements es)
  | dict [] => [openDict, closeDict]
  | dict ((key, v) :: ms) =>
      openDict :: .string key :: colon :: (tokens v ++ moreMembers ms)

/-- What follows the first element of an array. -/
def moreElements : List (Json S N) → List (JsonToken S N)
  | [] => [closeArray]
  | e :: es => comma :: (tokens e ++ moreElements es)

/-- What follows the first member of a dictionary. -/
def moreMembers : List (S × Json S N) → List (JsonToken S N)
  | [] => [closeDict]
  | (key, v) :: ms => comma :: .string key :: colon :: (tokens v ++ moreMembers ms)

end

/-! ### The decoder -/

/-- An array or a dictionary that a value is in: what comes before the value, and its key. -/
inductive Part (S N : Type) where
  | array (done : List (Json S N))
  | dict (done : List (S × Json S N)) (key : S)

/-- What was read, with what may come next. -/
inductive Decoder (S N : Type) where
  | value (parts : List (Part S N))
  | elementOrEnd (parts : List (Part S N))
  | memberOrEnd (parts : List (Part S N))
  | key (done : List (S × Json S N)) (parts : List (Part S N))
  | colon (done : List (S × Json S N)) (key : S) (parts : List (Part S N))
  | separator (value : Json S N) (parts : List (Part S N))

def decodeValue (parts : List (Part S N)) : JsonToken S N → Option (Decoder S N)
  | openArray => some (.elementOrEnd parts)
  | openDict => some (.memberOrEnd parts)
  | .string s => some (.separator (string s) parts)
  | .number n => some (.separator (number n) parts)
  | _ => none

def decodeStep : Decoder S N → JsonToken S N → Option (Decoder S N)
  | .value parts, t => decodeValue parts t
  | .elementOrEnd parts, closeArray => some (.separator (array []) parts)
  | .elementOrEnd parts, t => decodeValue (.array [] :: parts) t
  | .memberOrEnd parts, closeDict => some (.separator (dict []) parts)
  | .memberOrEnd parts, .string s => some (.colon [] s parts)
  | .key done parts, .string s => some (.colon done s parts)
  | .colon done s parts, colon => some (.value (.dict done s :: parts))
  | .separator v (.array done :: parts), comma => some (.value (.array (done ++ [v]) :: parts))
  | .separator v (.array done :: parts), closeArray =>
      some (.separator (array (done ++ [v])) parts)
  | .separator v (.dict done s :: parts), comma => some (.key (done ++ [(s, v)]) parts)
  | .separator v (.dict done s :: parts), closeDict =>
      some (.separator (dict (done ++ [(s, v)])) parts)
  | _, _ => none

def decodeAll (d : Decoder S N) (ts : List (JsonToken S N)) : Option (Decoder S N) :=
  ts.foldlM decodeStep d

/-- The tree of some tokens. -/
def decode (ts : List (JsonToken S N)) : Option (Json S N) :=
  match decodeAll (.value []) ts with
  | some (.separator v []) => some v
  | _ => none

@[simp] theorem decodeAll_nil (d : Decoder S N) : decodeAll d [] = some d := rfl

@[simp] theorem decodeAll_cons (d : Decoder S N) (t : JsonToken S N) (ts : List (JsonToken S N)) :
    decodeAll d (t :: ts) = (decodeStep d t).bind fun d => decodeAll d ts := rfl

theorem decodeAll_append (d : Decoder S N) (ts us : List (JsonToken S N)) :
    decodeAll d (ts ++ us) = (decodeAll d ts).bind fun d => decodeAll d us := List.foldlM_append

theorem tokens_ne_nil (j : Json S N) : j.tokens ≠ [] := by
  rcases j with s | n | ⟨_ | ⟨e, es⟩⟩ | ⟨_ | ⟨⟨key, v⟩, ms⟩⟩ <;>
    · rw [tokens]
      exact List.cons_ne_nil _ _

/-- The first token of a value decides where the decoder goes, in an array as elsewhere. -/
theorem decodeStep_elementOrEnd {parts : List (Part S N)} {t : JsonToken S N} {d : Decoder S N}
    (h : decodeValue (.array [] :: parts) t = some d) :
    decodeStep (.elementOrEnd parts) t = some d := by
  cases t <;> first | exact h | cases h

theorem decodeAll_elementOrEnd {parts : List (Part S N)} {ts : List (JsonToken S N)}
    {d : Decoder S N} (hne : ts ≠ []) (h : decodeAll (.value (.array [] :: parts)) ts = some d) :
    decodeAll (.elementOrEnd parts) ts = some d := by
  obtain ⟨t, ts, rfl⟩ := List.exists_cons_of_ne_nil hne
  rw [decodeAll_cons, Option.bind_eq_some_iff] at h ⊢
  obtain ⟨d', hd', hrest⟩ := h
  exact ⟨d', decodeStep_elementOrEnd hd', hrest⟩

mutual

theorem decodeAll_tokens : ∀ (j : Json S N) (parts : List (Part S N)),
    decodeAll (.value parts) j.tokens = some (.separator j parts)
  | string s, parts => by
      rw [tokens]
      rfl
  | number n, parts => by
      rw [tokens]
      rfl
  | array [], parts => by
      rw [tokens]
      rfl
  | array (e :: es), parts => by
      have he := decodeAll_elementOrEnd (tokens_ne_nil e) (decodeAll_tokens e (.array [] :: parts))
      rw [tokens, decodeAll_cons, decodeStep, decodeValue, Option.bind_some, decodeAll_append, he,
        Option.bind_some]
      exact decodeAll_moreElements es [] e parts
  | dict [], parts => by
      rw [tokens]
      rfl
  | dict ((key, v) :: ms), parts => by
      have hv := decodeAll_tokens v (.dict [] key :: parts)
      rw [tokens, decodeAll_cons, decodeStep, decodeValue, Option.bind_some, decodeAll_cons,
        decodeStep, Option.bind_some, decodeAll_cons, decodeStep, Option.bind_some,
        decodeAll_append, hv, Option.bind_some]
      exact decodeAll_moreMembers ms [] key v parts

theorem decodeAll_moreElements : ∀ (es done : List (Json S N)) (e : Json S N)
    (parts : List (Part S N)),
    decodeAll (.separator e (.array done :: parts)) (moreElements es) =
      some (.separator (array (done ++ e :: es)) parts)
  | [], done, e, parts => by
      rw [moreElements]
      rfl
  | e' :: es, done, e, parts => by
      rw [moreElements, decodeAll_cons, decodeStep, Option.bind_some, decodeAll_append,
        decodeAll_tokens e', Option.bind_some, decodeAll_moreElements es, List.append_assoc]
      rfl

theorem decodeAll_moreMembers : ∀ (ms done : List (S × Json S N)) (key : S) (v : Json S N)
    (parts : List (Part S N)),
    decodeAll (.separator v (.dict done key :: parts)) (moreMembers ms) =
      some (.separator (dict (done ++ (key, v) :: ms)) parts)
  | [], done, key, v, parts => by
      rw [moreMembers]
      rfl
  | (key', v') :: ms, done, key, v, parts => by
      rw [moreMembers, decodeAll_cons, decodeStep, Option.bind_some, decodeAll_cons, decodeStep,
        Option.bind_some, decodeAll_cons, decodeStep, Option.bind_some, decodeAll_append,
        decodeAll_tokens v', Option.bind_some, decodeAll_moreMembers ms, List.append_assoc]
      rfl

end

/-- The tree is found again. -/
theorem decode_tokens (j : Json S N) : decode j.tokens = some j := by
  rw [decode, decodeAll_tokens]

theorem tokens_injective : Function.Injective (tokens : Json S N → List (JsonToken S N)) := by
  intro j j' h
  have hdecode := decode_tokens j
  rw [h, decode_tokens] at hdecode
  exact (Option.some.inj hdecode).symm

/-! ### The decoder and the reader of the grammar -/

def Part.frame : Part S N → Frame
  | .array _ => .array
  | .dict _ _ => .dict

/-- Where the reader is when the decoder is in this state. -/
def Decoder.reader : Decoder S N → Reader
  | .value parts => .value (parts.map Part.frame)
  | .elementOrEnd parts => .elementOrEnd (parts.map Part.frame)
  | .memberOrEnd parts => .memberOrEnd (parts.map Part.frame)
  | .key _ parts => .key (parts.map Part.frame)
  | .colon _ _ parts => .colon (parts.map Part.frame)
  | .separator _ parts => .separator (parts.map Part.frame)

theorem beginValue_of_decodeValue {parts : List (Part S N)} {t : JsonToken S N} {d : Decoder S N}
    (h : decodeValue parts t = some d) : beginValue (parts.map Part.frame) t = some d.reader := by
  cases t <;> cases h <;> rfl

/-- What the decoder takes, the reader takes. -/
theorem step_of_decodeStep {d d' : Decoder S N} {t : JsonToken S N}
    (h : decodeStep d t = some d') : step d.reader t = some d'.reader := by
  cases d with
  | value parts => exact beginValue_of_decodeValue h
  | elementOrEnd parts | memberOrEnd parts | key done parts | colon done s parts =>
      cases t <;> cases h <;> rfl
  | separator v parts =>
      rcases parts with _ | ⟨_ | _, parts⟩ <;> cases t <;> cases h <;> rfl

theorem read_of_decodeAll {d d' : Decoder S N} {ts : List (JsonToken S N)}
    (h : decodeAll d ts = some d') : read d.reader ts = some d'.reader := by
  induction ts generalizing d with
  | nil =>
      cases h
      rfl
  | cons t ts ih =>
      obtain ⟨mid, hstep, hrest⟩ := Option.bind_eq_some_iff.mp h
      rw [read_cons, step_of_decodeStep hstep]
      exact ih hrest

theorem isValue_tokens (j : Json S N) : IsValue j.tokens :=
  isValue_iff_read.mpr (read_of_decodeAll (decodeAll_tokens j []))

/-! ### Texts -/

section Texts

variable {S' : Type}

/-- A token with another content of its string. -/
def mapString (f : S → S') : JsonToken S N → JsonToken S' N
  | openArray => openArray
  | closeArray => closeArray
  | openDict => openDict
  | closeDict => closeDict
  | comma => comma
  | colon => colon
  | .string s => .string (f s)
  | .number n => .number n

theorem mapString_injective {f : S → S'} (hf : Function.Injective f) :
    Function.Injective (mapString f : JsonToken S N → JsonToken S' N) := by
  intro t u h
  cases t with
  | string s =>
      cases u with
      | string s' => exact congrArg JsonToken.string (hf (JsonToken.string.inj h))
      | _ => cases h
  | _ =>
      cases u <;> cases h
      rfl

/-- The reader does not look at the contents of strings. -/
theorem step_mapString (f : S → S') (r : Reader) (t : JsonToken S N) :
    step r (mapString f t) = step r t := by
  rcases r with frames | frames | frames | frames | frames | ⟨_ | ⟨_ | _, frames⟩⟩ <;>
    cases t <;> rfl

theorem read_mapString (f : S → S') (r : Reader) (ts : List (JsonToken S N)) :
    read r (ts.map (mapString f)) = read r ts := by
  induction ts generalizing r with
  | nil => rfl
  | cons t ts ih =>
      rw [List.map_cons, read_cons, read_cons, step_mapString]
      exact Option.bind_congr fun r' _ => ih r'

variable {encode : S → Content}

/-- The lexemes of a tree, with what is between the quotes of its strings. -/
def lexemes (encode : S → Content) (j : Json S Numeral) : List Lexeme :=
  j.tokens.map (mapString encode)

def text (encode : S → Content) (j : Json S Numeral) : List UInt8 :=
  JsonToken.text (j.lexemes encode)

theorem isValue_lexemes (j : Json S Numeral) : IsValue (j.lexemes encode) := by
  rw [isValue_iff_read, lexemes, read_mapString]
  exact isValue_iff_read.mp (isValue_tokens j)

theorem wellFormed_text (j : Json S Numeral) : WellFormed (j.text encode) :=
  ⟨j.lexemes encode, rfl, isValue_lexemes j⟩

/-- A text is that of one tree. -/
theorem text_injective (hencode : Function.Injective encode) :
    Function.Injective (text encode) := by
  intro j j' h
  have hspaced : ∀ j : Json S Numeral, Spaced (j.lexemes encode) := fun j =>
    spaced_of_read (isValue_iff_read.mp (isValue_lexemes j))
  have hlexemes : j.lexemes encode = j'.lexemes encode := eq_of_text_eq (hspaced j) (hspaced j') h
  exact tokens_injective ((mapString_injective hencode).list_map hlexemes)

end Texts

end Json

end TibeeCompare.Lib
