import Mathlib.Data.List.Basic
import Mathlib.Data.List.Chain

/-!
The structure of JSON texts: brackets, commas, colons, strings and numbers.

The grammar says what a value is. A machine that reads tokens one at a time
and keeps the open brackets on a stack accepts exactly the values, so that a
program that writes a text piece by piece can be followed by it: whatever the
machine refuses stays refused, however the text goes on.

Strings and numbers are tokens with a content that the structure never looks
at; their types are parameters.
-/

namespace TibeeCompare.Lib

inductive JsonToken (S N : Type*) where
  | openArray
  | closeArray
  | openDict
  | closeDict
  | comma
  | colon
  | string (content : S)
  | number (numeral : N)
  deriving DecidableEq, Repr

namespace JsonToken

variable {S N : Type*}

def isNumber : JsonToken S N → Bool
  | number _ => true
  | _ => false

/-! ### The grammar -/

inductive Nonterminal where
  | value
  | elements
  | members

open Nonterminal

/-- The token lists that a nonterminal derives. Elements and members are
never empty: an empty array or dictionary is a form of value of its own. -/
inductive Derives : Nonterminal → List (JsonToken S N) → Prop
  | string (s : S) : Derives value [.string s]
  | number (n : N) : Derives value [.number n]
  | emptyArray : Derives value [openArray, closeArray]
  | array {es : List (JsonToken S N)} (hes : Derives elements es) :
      Derives value (openArray :: (es ++ [closeArray]))
  | emptyDict : Derives value [openDict, closeDict]
  | dict {ms : List (JsonToken S N)} (hms : Derives members ms) :
      Derives value (openDict :: (ms ++ [closeDict]))
  | element {v : List (JsonToken S N)} (hv : Derives value v) : Derives elements v
  | moreElements {v es : List (JsonToken S N)} (hv : Derives value v)
      (hes : Derives elements es) : Derives elements (v ++ comma :: es)
  | member (s : S) {v : List (JsonToken S N)} (hv : Derives value v) :
      Derives members (.string s :: colon :: v)
  | moreMembers (s : S) {v ms : List (JsonToken S N)} (hv : Derives value v)
      (hms : Derives members ms) :
      Derives members (.string s :: colon :: (v ++ comma :: ms))

/-- One value, and nothing besides. -/
def IsValue (ts : List (JsonToken S N)) : Prop := Derives value ts

/-! ### The machine -/

/-- A bracket that is still open. -/
inductive Frame where
  | array
  | dict
  deriving DecidableEq, Repr

/-- What may come next, over the brackets open at that place. `elementOrEnd`
and its three neighbours are places inside one more bracket, an array or a
dictionary, which is not listed among the frames. -/
inductive Reader where
  | value (frames : List Frame)
  | elementOrEnd (frames : List Frame)
  | memberOrEnd (frames : List Frame)
  | key (frames : List Frame)
  | colon (frames : List Frame)
  | separator (frames : List Frame)
  deriving DecidableEq, Repr

/-- The reader after the first token of a value. -/
def beginValue (frames : List Frame) : JsonToken S N → Option Reader
  | openArray => some (.elementOrEnd frames)
  | openDict => some (.memberOrEnd frames)
  | string _ => some (.separator frames)
  | number _ => some (.separator frames)
  | _ => none

def step : Reader → JsonToken S N → Option Reader
  | .value frames, t => beginValue frames t
  | .elementOrEnd frames, closeArray => some (.separator frames)
  | .elementOrEnd frames, t => beginValue (.array :: frames) t
  | .memberOrEnd frames, closeDict => some (.separator frames)
  | .memberOrEnd frames, string _ => some (.colon frames)
  | .key frames, string _ => some (.colon frames)
  | .colon frames, colon => some (.value (.dict :: frames))
  | .separator (.array :: frames), comma => some (.value (.array :: frames))
  | .separator (.array :: frames), closeArray => some (.separator frames)
  | .separator (.dict :: frames), comma => some (.key frames)
  | .separator (.dict :: frames), closeDict => some (.separator frames)
  | _, _ => none

/-- The reader after a list of tokens, `none` once a token was refused. -/
def read (r : Reader) (ts : List (JsonToken S N)) : Option Reader := ts.foldlM step r

@[simp] theorem read_nil (r : Reader) : read r ([] : List (JsonToken S N)) = some r := rfl

@[simp] theorem read_cons (r : Reader) (t : JsonToken S N) (ts : List (JsonToken S N)) :
    read r (t :: ts) = (step r t).bind (read · ts) := rfl

theorem read_append (r : Reader) (ts us : List (JsonToken S N)) :
    read r (ts ++ us) = (read r ts).bind (read · us) := List.foldlM_append

/-! ### What the grammar derives is read -/

/-- No value begins with a closing bracket, so an array that has elements is
entered as any place for a value is. -/
theorem step_elementOrEnd_of_beginValue {frames : List Frame} {t : JsonToken S N} {r : Reader}
    (h : beginValue (.array :: frames) t = some r) :
    step (.elementOrEnd frames) t = some r := by
  cases t <;> simp_all [beginValue, step]

theorem read_elementOrEnd {frames : List Frame} {ts : List (JsonToken S N)} {r : Reader}
    (hne : ts ≠ []) (h : read (.value (.array :: frames)) ts = some r) :
    read (.elementOrEnd frames) ts = some r := by
  obtain ⟨t, ts, rfl⟩ := List.exists_cons_of_ne_nil hne
  rw [read_cons, Option.bind_eq_some_iff] at h ⊢
  obtain ⟨r', hr', hr⟩ := h
  exact ⟨r', step_elementOrEnd_of_beginValue hr', hr⟩

theorem Derives.ne_nil {n : Nonterminal} {ts : List (JsonToken S N)} (h : Derives n ts) :
    ts ≠ [] := by
  induction h <;> simp_all

/-- Where a nonterminal begins and where it ends. -/
def Reader.start : Nonterminal → List Frame → Reader
  | .value, frames => .value frames
  | .elements, frames => .value (.array :: frames)
  | .members, frames => .key frames

def Reader.finish : Nonterminal → List Frame → Reader
  | .value, frames => .separator frames
  | .elements, frames => .separator (.array :: frames)
  | .members, frames => .separator (.dict :: frames)

theorem Derives.read {n : Nonterminal} {ts : List (JsonToken S N)} (h : Derives n ts) :
    ∀ frames, read (.start n frames) ts = some (.finish n frames) := by
  induction h with
  | string | number | emptyArray | emptyDict => exact fun _ => rfl
  | @array es hes ih =>
      intro frames
      have hread : JsonToken.read (.elementOrEnd frames) es =
          some (.separator (.array :: frames)) :=
        read_elementOrEnd hes.ne_nil (ih frames)
      rw [Reader.start, read_cons, step, beginValue, Option.bind_some, read_append, hread]
      rfl
  | @dict ms hms ih =>
      intro frames
      -- A member list begins with a string, which both places take alike.
      have hread : JsonToken.read (.memberOrEnd frames) ms =
          some (.separator (.dict :: frames)) := by
        refine Eq.trans ?_ (ih frames)
        cases hms <;> rfl
      rw [Reader.start, read_cons, step, beginValue, Option.bind_some, read_append, hread]
      rfl
  | element _ ih => exact fun frames => ih (.array :: frames)
  | @moreElements v es _ _ ihv ihes =>
      intro frames
      have hv : JsonToken.read (.value (.array :: frames)) v =
          some (.separator (.array :: frames)) := ihv (.array :: frames)
      rw [Reader.start, read_append, hv, Option.bind_some, read_cons, step, Option.bind_some]
      exact ihes frames
  | member _ _ ihv => exact fun frames => ihv (.dict :: frames)
  | @moreMembers s v ms _ _ ihv ihms =>
      intro frames
      have hv : JsonToken.read (.value (.dict :: frames)) v =
          some (.separator (.dict :: frames)) := ihv (.dict :: frames)
      rw [Reader.start, read_cons, step, Option.bind_some, read_cons, step, Option.bind_some,
        read_append, hv, Option.bind_some, read_cons, step, Option.bind_some]
      exact ihms frames

/-! ### What is read is derived

What a reader still demands of the tokens to come, in terms of the grammar.
Each bracket that is open has to be closed by the tokens after the place that
the reader is at, the innermost first. -/

/-- What the open brackets demand of the tokens after a value. -/
def Closes : List Frame → List (JsonToken S N) → Prop
  | [], ts => ts = []
  | .array :: frames, ts =>
      ∃ rest, Closes frames rest ∧
        (ts = closeArray :: rest ∨
          ∃ es, Derives elements es ∧ ts = comma :: (es ++ closeArray :: rest))
  | .dict :: frames, ts =>
      ∃ rest, Closes frames rest ∧
        (ts = closeDict :: rest ∨
          ∃ ms, Derives members ms ∧ ts = comma :: (ms ++ closeDict :: rest))

def Completes : Reader → List (JsonToken S N) → Prop
  | .value frames, ts => ∃ v rest, Derives value v ∧ Closes frames rest ∧ ts = v ++ rest
  | .elementOrEnd frames, ts =>
      ∃ rest, Closes frames rest ∧
        (ts = closeArray :: rest ∨ ∃ es, Derives elements es ∧ ts = es ++ closeArray :: rest)
  | .memberOrEnd frames, ts =>
      ∃ rest, Closes frames rest ∧
        (ts = closeDict :: rest ∨ ∃ ms, Derives members ms ∧ ts = ms ++ closeDict :: rest)
  | .key frames, ts =>
      ∃ ms rest, Derives members ms ∧ Closes frames rest ∧ ts = ms ++ closeDict :: rest
  | .colon frames, ts =>
      ∃ v rest, Derives value v ∧ Closes (.dict :: frames) rest ∧ ts = .colon :: (v ++ rest)
  | .separator frames, ts => Closes frames ts

/-- A value in an array and what the array demands after it: the rest of its
elements and its closing bracket. -/
theorem elements_of_closes {frames : List Frame} {v rest : List (JsonToken S N)}
    (hv : Derives value v) (hrest : Closes (.array :: frames) rest) :
    ∃ es outer, Derives elements es ∧ Closes frames outer ∧
      v ++ rest = es ++ closeArray :: outer := by
  obtain ⟨outer, houter, rfl | ⟨es, hes, rfl⟩⟩ := hrest
  · exact ⟨v, outer, .element hv, houter, rfl⟩
  · exact ⟨v ++ comma :: es, outer, .moreElements hv hes, houter, by simp⟩

theorem members_of_closes {frames : List Frame} (s : S) {v rest : List (JsonToken S N)}
    (hv : Derives value v) (hrest : Closes (.dict :: frames) rest) :
    ∃ ms outer, Derives members ms ∧ Closes frames outer ∧
      .string s :: colon :: (v ++ rest) = ms ++ closeDict :: outer := by
  obtain ⟨outer, houter, rfl | ⟨ms, hms, rfl⟩⟩ := hrest
  · exact ⟨_, outer, .member s hv, houter, by simp⟩
  · exact ⟨_, outer, .moreMembers s hv hms, houter, by simp⟩

theorem completes_of_beginValue {frames : List Frame} {t : JsonToken S N} {r : Reader}
    {ts : List (JsonToken S N)} (h : beginValue frames t = some r) (hts : Completes r ts) :
    Completes (.value frames) (t :: ts) := by
  cases t <;> simp only [beginValue, Option.some.injEq, reduceCtorEq] at h <;> subst h
  case openArray =>
    obtain ⟨rest, hrest, rfl | ⟨es, hes, rfl⟩⟩ := hts
    · exact ⟨_, rest, .emptyArray, hrest, rfl⟩
    · exact ⟨_, rest, .array hes, hrest, by simp⟩
  case openDict =>
    obtain ⟨rest, hrest, rfl | ⟨ms, hms, rfl⟩⟩ := hts
    · exact ⟨_, rest, .emptyDict, hrest, rfl⟩
    · exact ⟨_, rest, .dict hms, hrest, by simp⟩
  case string s => exact ⟨_, ts, .string s, hts, rfl⟩
  case number n => exact ⟨_, ts, .number n, hts, rfl⟩

/-- One token, read backwards: a reader that takes it demands that token and
what the next reader demands. -/
theorem completes_of_step {r r' : Reader} {t : JsonToken S N} {ts : List (JsonToken S N)}
    (h : step r t = some r') (hts : Completes r' ts) : Completes r (t :: ts) := by
  cases r with
  | value frames => exact completes_of_beginValue h hts
  -- behind `[`: the array ends, or its first element begins
  | elementOrEnd frames =>
      by_cases hclose : t = closeArray
      · subst hclose
        simp only [step, Option.some.injEq] at h
        subst h
        exact ⟨ts, hts, .inl rfl⟩
      · have hbegin : beginValue (.array :: frames) t = some r' := by
          cases t <;> simp_all [step]
        obtain ⟨v, rest, hv, hrest, heq⟩ := completes_of_beginValue hbegin hts
        obtain ⟨es, outer, hes, houter, hsplit⟩ := elements_of_closes hv hrest
        exact ⟨outer, houter, .inr ⟨es, hes, heq.trans hsplit⟩⟩
  -- behind `{`: the dict ends, or the key of its first member comes
  | memberOrEnd frames =>
      cases t <;> simp only [step, Option.some.injEq, reduceCtorEq] at h <;> subst h
      case closeDict => exact ⟨ts, hts, .inl rfl⟩
      case string s =>
        obtain ⟨v, rest, hv, hrest, rfl⟩ := hts
        obtain ⟨ms, outer, hms, houter, hsplit⟩ := members_of_closes s hv hrest
        exact ⟨outer, houter, .inr ⟨ms, hms, hsplit⟩⟩
  | key frames =>
      cases t <;> simp only [step, Option.some.injEq, reduceCtorEq] at h
      subst h
      obtain ⟨v, rest, hv, hrest, rfl⟩ := hts
      exact members_of_closes _ hv hrest
  | colon frames =>
      cases t <;> simp only [step, Option.some.injEq, reduceCtorEq] at h
      subst h
      obtain ⟨v, rest, hv, hrest, rfl⟩ := hts
      exact ⟨v, rest, hv, hrest, rfl⟩
  -- behind a value: the innermost container goes on, or ends
  | separator frames =>
      cases frames with
      | nil => cases t <;> simp [step] at h
      | cons frame frames =>
          cases frame <;> cases t <;> simp only [step, Option.some.injEq, reduceCtorEq] at h <;>
            subst h
          case array.comma =>
            obtain ⟨v, rest, hv, hrest, rfl⟩ := hts
            obtain ⟨es, outer, hes, houter, hsplit⟩ := elements_of_closes hv hrest
            exact ⟨outer, houter, .inr ⟨es, hes, by rw [hsplit]⟩⟩
          case array.closeArray => exact ⟨ts, hts, .inl rfl⟩
          case dict.comma =>
            obtain ⟨ms, rest, hms, hrest, rfl⟩ := hts
            exact ⟨rest, hrest, .inr ⟨ms, hms, rfl⟩⟩
          case dict.closeDict => exact ⟨ts, hts, .inl rfl⟩

theorem completes_of_read {ts : List (JsonToken S N)} {r : Reader}
    (h : read r ts = some (.separator [])) : Completes r ts := by
  induction ts generalizing r with
  | nil =>
      cases h
      rfl
  | cons t ts ih =>
      rw [read_cons, Option.bind_eq_some_iff] at h
      obtain ⟨r', hstep, hread⟩ := h
      exact completes_of_step hstep (ih hread)

/-- The machine accepts exactly the values. -/
theorem isValue_iff_read {ts : List (JsonToken S N)} :
    IsValue ts ↔ read (.value []) ts = some (.separator []) := by
  constructor
  · exact fun h => Derives.read h []
  · intro h
    obtain ⟨v, rest, hv, rfl, rfl⟩ := completes_of_read h
    rwa [List.append_nil]

instance (ts : List (JsonToken S N)) : Decidable (IsValue ts) :=
  decidable_of_iff _ isValue_iff_read.symm

/-! ### Numbers are apart

A number is a value and a value is followed by a comma or a bracket, so two
numbers never stand side by side in what is read. This is what makes the
numerals of a text readable again. -/

def Spaced (ts : List (JsonToken S N)) : Prop :=
  ts.IsChain fun a b => ¬ (a.isNumber ∧ b.isNumber)

theorem spaced_singleton (t : JsonToken S N) : Spaced [t] := .singleton t

theorem Spaced.cons {t : JsonToken S N} {ts : List (JsonToken S N)} (ht : t.isNumber = false)
    (h : Spaced ts) : Spaced (t :: ts) := by
  refine List.isChain_cons.mpr ⟨?_, h⟩
  rintro u - ⟨htn, -⟩
  simp [ht] at htn

theorem eq_separator_of_step_number {r r' : Reader} {n : N}
    (h : step r (number n : JsonToken S N) = some r') : ∃ frames, r' = .separator frames := by
  cases r <;> simp_all [step, beginValue] <;> exact ⟨_, h.symm⟩

theorem step_separator_number (frames : List Frame) (n : N) :
    step (.separator frames) (number n : JsonToken S N) = none := by
  rcases frames with _ | ⟨_ | _, frames⟩ <;> rfl

theorem spaced_of_read {ts : List (JsonToken S N)} {r r' : Reader} (h : read r ts = some r') :
    Spaced ts := by
  induction ts generalizing r with
  | nil => exact .nil
  | cons t ts ih =>
      rw [read_cons, Option.bind_eq_some_iff] at h
      obtain ⟨mid, hstep, hread⟩ := h
      refine List.isChain_cons.mpr ⟨?_, ih hread⟩
      rintro u hu ⟨ht, hu'⟩
      cases t with
      | number n =>
          obtain ⟨frames, rfl⟩ := eq_separator_of_step_number hstep
          cases ts with
          | nil => simp at hu
          | cons next ts =>
              obtain rfl : next = u := by simpa using hu
              cases next <;> simp only [isNumber, Bool.false_eq_true] at hu'
              simp [step_separator_number] at hread
      | _ => simp [isNumber] at ht

end JsonToken

end TibeeCompare.Lib
