import TibeeCompare.Base.JsonWriter

/-!
The structure of what the writer writes.

The writer is followed by the reader of `JsonTokens`: the sections that are
open are the brackets on its stack, and the topmost flag tells whether it
stands behind a bracket or behind an entry. As long as every `BeginArray` and
`BeginDict` comes where a value may stand, what is written takes the reader
along. The first one elsewhere is written all the same; the reader refuses
it, and no later call makes up for that.
-/

namespace TibeeCompare.Base

open Lib Lib.JsonToken

namespace JsonWriter

/-- A call that the checks let through. -/
def Allowed (writer : JsonWriter) (call : Call) : Prop :=
  ∀ check ∈ call.check, writer.sections.head? = some check.1

theorem perform_of_allowed {writer : JsonWriter} (hopen : writer.isOpen = true) {call : Call}
    (h : writer.Allowed call) : writer.perform call = (.ok (), writer.next call) := by
  cases hcheck : call.check with
  | none => exact perform_of_check_none hopen hcheck
  | some check => rw [perform_of_check_some hopen hcheck, if_pos (h check hcheck)]

theorem perform_of_not_allowed {writer : JsonWriter} (hopen : writer.isOpen = true) {call : Call}
    (h : ¬ writer.Allowed call) : ∃ message, writer.perform call = (.error message, writer) := by
  cases hcheck : call.check with
  | none => exact absurd (by simp [Allowed, hcheck]) h
  | some check =>
      have hsection : writer.sections.head? ≠ some check.1 := by
        simpa [Allowed, hcheck] using h
      exact ⟨check.2, by rw [perform_of_check_some hopen hcheck, if_neg hsection]⟩

/-- A call that opens a section by its bracket alone is made directly in an
array, or as the first thing written. -/
def InPlace (writer : JsonWriter) : Call → Prop
  | .beginArray | .beginDict =>
      writer.sections.head? = some .kArray ∨ (writer.sections = [] ∧ writer.out = [])
  | _ => True

def AllInPlace : JsonWriter → List Call → Prop
  | _, [] => True
  | writer, call :: calls =>
      writer.InPlace call ∧ AllInPlace (writer.perform call).2 calls

/-! ### The tokens of the text -/

/-- The tokens are those of the text, and the two stacks are in step. -/
structure Tracks (writer : JsonWriter) (ts : List Lexeme) : Prop where
  isOpen : writer.isOpen = true
  out : writer.out = text ts
  /-- Each section that is not the innermost one has an entry: the next one. -/
  flags : writer.isFirstOfSection =
    writer.isFirst :: List.replicate writer.sections.length false
  empty : writer.out = [] ↔ writer.isFirst = true ∧ writer.sections = []
  spaced : Spaced ts
  /-- Where no comma is due, no number stands before. -/
  last : writer.isFirst = true → ∀ t ∈ ts.getLast?, t.isNumber = false

theorem tracks_opened : Tracks opened [] where
  isOpen := rfl
  out := rfl
  flags := rfl
  empty := by decide
  spaced := .nil
  last := by simp

theorem written_ne_nil (writer : JsonWriter) (call : Call) : writer.written call ≠ [] := by
  unfold written
  split
  · exact List.cons_ne_nil _ _
  · cases call <;> exact List.cons_ne_nil _ _

theorem text_written_ne_nil (writer : JsonWriter) (call : Call) :
    text (writer.written call) ≠ [] := by
  obtain ⟨t, ts, h⟩ := List.exists_cons_of_ne_nil (writer.written_ne_nil call)
  rw [h, text_cons]
  exact List.append_ne_nil_of_left_ne_nil (spell_ne_nil t) _

end JsonWriter

/-- Whether a call opens a section. -/
def Call.opens : Call → Bool
  | beginArray | beginDict | keyDictValue _ | keyArrayValue _ => true
  | _ => false

namespace JsonWriter

variable {writer : JsonWriter} {call : Call} {ts : List Lexeme}

theorem sections_of_allowed {type : SectionType} {message : FatalError}
    (hallowed : writer.Allowed call) (h : call.check = some (type, message)) :
    ∃ sections, writer.sections = type :: sections := by
  have hsection := hallowed _ h
  cases hsections : writer.sections with
  | nil => simp [hsections] at hsection
  | cons top sections => exact ⟨sections, by simpa [hsections] using hsection⟩

/-- Behind a call that opens a section nothing is in it yet; behind any other
one the innermost section, or the file, has an entry. -/
theorem Tracks.flags_next (h : writer.Tracks ts) (hallowed : writer.Allowed call) :
    (writer.next call).isFirstOfSection =
      call.opens :: List.replicate (writer.next call).sections.length false := by
  have hflags := h.flags
  cases call with
  | endArray | endDict =>
      obtain ⟨sections, hsections⟩ := sections_of_allowed hallowed rfl
      simp only [next, Call.flagsAfter, Call.sectionsAfter, Call.opens]
      rw [hflags, hsections]
      rfl
  | _ =>
      simp only [next, Call.flagsAfter, Call.sectionsAfter, Call.opens]
      rw [hflags]
      rfl

theorem Tracks.isFirst_next (h : writer.Tracks ts) (hallowed : writer.Allowed call) :
    (writer.next call).isFirst = call.opens := by
  rw [isFirst, h.flags_next hallowed]
  rfl

theorem sections_next_ne_nil (h : call.opens = true) : (writer.next call).sections ≠ [] := by
  cases call <;> simp_all [Call.opens, next, Call.sectionsAfter]

theorem isNumber_head_written (hfirst : writer.isFirst = false) {t : Lexeme}
    (ht : t ∈ (writer.written call).head?) : t.isNumber = false := by
  rw [written, hfirst] at ht
  -- a comma, or the bracket that ends a section
  cases call <;> obtain rfl := Option.some.inj ht <;> rfl

theorem spaced_written : Spaced (writer.written call) := by
  have hlexemes : Spaced call.lexemes := by
    cases call with
    | keyValue | keyDictValue | keyArrayValue => exact .cons rfl (.cons rfl (spaced_singleton _))
    | _ => exact spaced_singleton _
  unfold written
  split
  · exact .cons rfl hlexemes
  · exact hlexemes

theorem isNumber_last_written (hopens : call.opens = true) {t : Lexeme}
    (ht : t ∈ (writer.written call).getLast?) : t.isNumber = false := by
  have hlast : t ∈ call.lexemes.getLast? := by
    unfold written at ht
    split at ht
    · cases call <;> exact ht
    · exact ht
  cases call <;> simp only [Call.opens, Bool.false_eq_true] at hopens <;>
    cases hlast <;> rfl

theorem Tracks.next (h : writer.Tracks ts) (hallowed : writer.Allowed call) :
    (writer.next call).Tracks (ts ++ writer.written call) where
  isOpen := h.isOpen
  out := by
    rw [text_append, ← h.out]
    rfl
  flags := by
    rw [h.isFirst_next hallowed, h.flags_next hallowed]
  empty := by
    have hout : (writer.next call).out ≠ [] :=
      List.append_ne_nil_of_right_ne_nil _ (writer.text_written_ne_nil call)
    refine iff_of_false hout ?_
    rintro ⟨hfirst, hsections⟩
    rw [h.isFirst_next hallowed] at hfirst
    exact sections_next_ne_nil hfirst hsections
  spaced := by
    refine List.isChain_append.mpr ⟨h.spaced, spaced_written, ?_⟩
    rintro t ht u hu ⟨htn, hun⟩
    cases hfirst : writer.isFirst with
    | true => simp [h.last hfirst t ht] at htn
    | false => simp [isNumber_head_written hfirst hu] at hun
  last := by
    intro hfirst t ht
    rw [h.isFirst_next hallowed] at hfirst
    rw [List.getLast?_append_of_ne_nil _ (writer.written_ne_nil call)] at ht
    exact isNumber_last_written hfirst ht

end JsonWriter

/-! ### The reader beside the writer -/

def SectionType.frame : SectionType → Frame
  | kArray => .array
  | kDict => .dict

namespace JsonWriter

variable {writer : JsonWriter} {call : Call} {ts : List Lexeme}

/-- The place behind a bracket or behind an entry, with some brackets open. -/
def readerAt : Bool → List Frame → Reader
  | true, [] => .value []
  | true, .array :: frames => .elementOrEnd frames
  | true, .dict :: frames => .memberOrEnd frames
  | false, frames => .separator frames

/-- Where the reader is when all was in place so far. -/
def reader (writer : JsonWriter) : Reader :=
  readerAt writer.isFirst (writer.sections.map SectionType.frame)

theorem Tracks.reader_next (h : writer.Tracks ts) (hallowed : writer.Allowed call) :
    (writer.next call).reader =
      readerAt call.opens ((call.sectionsAfter writer.sections).map SectionType.frame) := by
  rw [reader, h.isFirst_next hallowed]
  rfl

/-- A call that the checks know the section of takes the reader along. -/
theorem Tracks.read_written_of_check (h : writer.Tracks ts) (hallowed : writer.Allowed call)
    (hcheck : call.check ≠ none) :
    read writer.reader (writer.written call) = some (writer.next call).reader := by
  obtain ⟨⟨type, message⟩, hcheck⟩ := Option.ne_none_iff_exists'.mp hcheck
  obtain ⟨sections, hsections⟩ := sections_of_allowed hallowed hcheck
  rw [h.reader_next hallowed, reader, hsections]
  cases call with
  | value scalar | keyValue key scalar =>
      cases hcheck
      cases hfirst : writer.isFirst <;> rw [written, hfirst] <;> cases scalar <;> rfl
  | _ =>
      cases hcheck <;> cases hfirst : writer.isFirst <;> rw [written, hfirst] <;> rfl

/-- In place is where a value may stand: in an array, or first in the file. -/
theorem Tracks.inPlace_iff (h : writer.Tracks ts) (hcheck : call.check = none) :
    writer.InPlace call ↔ writer.sections.head? = some .kArray ∨
      (writer.sections = [] ∧ writer.isFirst = true) := by
  have hempty : writer.sections = [] ∧ writer.out = [] ↔
      writer.sections = [] ∧ writer.isFirst = true := by
    rw [h.empty]
    tauto
  cases call <;> cases hcheck <;> rw [InPlace, hempty]

/-- A bare bracket in place is read, behind a comma if one is due. -/
theorem Tracks.read_written_of_inPlace (h : writer.Tracks ts) (hcheck : call.check = none)
    (hplace : writer.InPlace call) :
    read writer.reader (writer.written call) = some (writer.next call).reader := by
  have hallowed : writer.Allowed call := by simp [Allowed, hcheck]
  rw [h.reader_next hallowed, reader, written]
  obtain harray | ⟨hfile, hfirst⟩ := (h.inPlace_iff hcheck).mp hplace
  · obtain ⟨sections, hsections⟩ := List.head?_eq_some_iff.mp harray
    rw [hsections]
    cases call <;> cases hcheck <;> cases writer.isFirst <;> rfl
  · rw [hfile, hfirst]
    cases call <;> cases hcheck <;> rfl

/-- Elsewhere it is refused: in a dictionary, where a key is due, and behind
the value that the file holds. -/
theorem Tracks.read_written_of_not_inPlace (h : writer.Tracks ts)
    (hplace : ¬ writer.InPlace call) :
    read writer.reader (writer.written call) = none := by
  have hcheck : call.check = none := by
    cases call <;> first | rfl | exact absurd trivial hplace
  rw [h.inPlace_iff hcheck] at hplace
  rw [reader, written]
  rcases hsections : writer.sections with _ | ⟨_ | _, sections⟩
  · have hfirst : writer.isFirst = false := by
      simpa [hsections] using hplace
    rw [hfirst]
    cases call <;> cases hcheck <;> rfl
  · simp [hsections] at hplace
  · cases call <;> cases hcheck <;> cases writer.isFirst <;> rfl

theorem Tracks.read_written (h : writer.Tracks ts) (hallowed : writer.Allowed call)
    (hplace : writer.InPlace call) :
    read writer.reader (writer.written call) = some (writer.next call).reader := by
  by_cases hcheck : call.check = none
  · exact h.read_written_of_inPlace hcheck hplace
  · exact h.read_written_of_check hallowed hcheck

/-! ### Runs -/

/-- The text grows token by token, whatever the calls. -/
theorem Tracks.after (h : writer.Tracks ts) (calls : List Call) :
    ∃ more, (writer.after calls).Tracks (ts ++ more) := by
  induction calls generalizing writer ts with
  | nil => exact ⟨[], by simpa using h⟩
  | cons call calls ih =>
      rw [after_cons]
      by_cases hallowed : writer.Allowed call
      · rw [perform_of_allowed h.isOpen hallowed]
        obtain ⟨more, hmore⟩ := ih (h.next hallowed)
        exact ⟨writer.written call ++ more, by rwa [List.append_assoc] at hmore⟩
      · obtain ⟨message, hperform⟩ := perform_of_not_allowed h.isOpen hallowed
        rw [hperform]
        exact ih h

/-- A run whose calls are all in place takes the reader along, and no other does. -/
theorem Tracks.read_after (h : writer.Tracks ts)
    (hread : read (.value []) ts = some writer.reader) (calls : List Call) :
    ∃ us, (writer.after calls).Tracks us ∧
      (writer.AllInPlace calls → read (.value []) us = some (writer.after calls).reader) ∧
      (¬ writer.AllInPlace calls → read (.value []) us = none) := by
  induction calls generalizing writer ts with
  | nil => exact ⟨ts, h, fun _ => hread, fun hnot => absurd trivial hnot⟩
  | cons call calls ih =>
      rw [after_cons, AllInPlace]
      by_cases hallowed : writer.Allowed call
      · rw [perform_of_allowed h.isOpen hallowed]
        by_cases hplace : writer.InPlace call
        · have hnext : read (.value []) (ts ++ writer.written call) =
              some (writer.next call).reader := by
            rw [read_append, hread, Option.bind_some, h.read_written hallowed hplace]
          obtain ⟨us, hus, hin, hout⟩ := ih (h.next hallowed) hnext
          exact ⟨us, hus, fun hall => hin hall.2,
            fun hnot => hout fun hall => hnot ⟨hplace, hall⟩⟩
        · have hlost : read (.value []) (ts ++ writer.written call) = none := by
            rw [read_append, hread, Option.bind_some, h.read_written_of_not_inPlace hplace]
          obtain ⟨more, hmore⟩ := (h.next hallowed).after calls
          refine ⟨_, hmore, fun hall => absurd hall.1 hplace, fun _ => ?_⟩
          rw [read_append, hlost, Option.bind_none]
      · obtain ⟨message, hperform⟩ := perform_of_not_allowed h.isOpen hallowed
        have hplace : writer.InPlace call := by
          cases call <;> first | trivial | exact absurd (by simp [Allowed, Call.check]) hallowed
        rw [hperform]
        obtain ⟨us, hus, hin, hout⟩ := ih h hread
        exact ⟨us, hus, fun hall => hin hall.2, fun hnot => hout fun hall => hnot ⟨hplace, hall⟩⟩

/-- Some call of the run does not throw. -/
def SomeAccepted (writer : JsonWriter) (calls : List Call) : Prop :=
  ∃ pre call post, calls = pre ++ call :: post ∧
    ((writer.after pre).perform call).1 = .ok ()

/-- The text is one value, and the calls that throw change nothing. -/
structure WritesValue (calls : List Call) : Prop where
  wellFormed : WellFormed (opened.after calls).out
  unchanged : ∀ pre call post, calls = pre ++ call :: post →
    ∀ message, ((opened.after pre).perform call).1 = .error message →
      let writer := opened.after pre
      let writer' := (writer.perform call).2
      writer'.out = writer.out ∧ writer'.sections = writer.sections ∧
        writer'.isFirstOfSection = writer.isFirstOfSection

theorem perform_error {message : FatalError} (hopen : writer.isOpen = true)
    (h : (writer.perform call).1 = .error message) : (writer.perform call).2 = writer := by
  by_cases hallowed : writer.Allowed call
  · rw [perform_of_allowed hopen hallowed] at h
    cases h
  · obtain ⟨message', hperform⟩ := perform_of_not_allowed hopen hallowed
    rw [hperform]

/-- The text is there to stay. -/
theorem Tracks.out_ne_nil (h : writer.Tracks ts) {calls : List Call}
    (haccepted : writer.SomeAccepted calls) : (writer.after calls).out ≠ [] := by
  obtain ⟨pre, call, post, rfl, hok⟩ := haccepted
  obtain ⟨us, hpre⟩ := h.after pre
  have hallowed : (writer.after pre).Allowed call := by
    by_contra hnot
    obtain ⟨message, hperform⟩ := perform_of_not_allowed hpre.isOpen hnot
    rw [hperform] at hok
    cases hok
  obtain ⟨more, hpost⟩ := (hpre.next hallowed).after post
  rw [after_append, after_cons, perform_of_allowed hpre.isOpen hallowed, hpost.out, text_append,
    text_append]
  exact List.append_ne_nil_of_left_ne_nil
    (List.append_ne_nil_of_right_ne_nil _ (text_written_ne_nil _ _)) _

/-- A run that writes something and closes all sections writes one value
exactly if every section that is opened by its bracket alone is opened where
a value may stand. -/
theorem writesValue_iff {calls : List Call} (haccepted : opened.SomeAccepted calls)
    (hclosed : (opened.after calls).sections = []) :
    WritesValue calls ↔ opened.AllInPlace calls := by
  obtain ⟨us, hus, hin, hout⟩ := tracks_opened.read_after rfl calls
  have hreader : (opened.after calls).reader = .separator [] := by
    have hfirst : (opened.after calls).isFirst = false := by
      have hne := tracks_opened.out_ne_nil haccepted
      rw [ne_eq, hus.empty] at hne
      simpa [hclosed] using hne
    rw [reader, hfirst, hclosed]
    rfl
  constructor
  · intro h
    by_contra hnot
    have hvalue := h.wellFormed
    rw [hus.out, wellFormed_text_iff hus.spaced, isValue_iff_read, hout hnot] at hvalue
    cases hvalue
  · intro hall
    refine ⟨?_, ?_⟩
    · rw [hus.out, wellFormed_text_iff hus.spaced, isValue_iff_read, hin hall, hreader]
    · intro pre call post _ message herror
      obtain ⟨ts, hts⟩ := tracks_opened.after pre
      have hsame := perform_error hts.isOpen herror
      simp only [hsame, and_self]

/-- A dictionary with an array for a key, closed by a call too many. -/
theorem writesValue_iff_arrayValue :
    let calls : List Call := [.beginDict, .keyArrayValue (str "ids"), .value (.string (str "a\"b")),
      .value (.number ⟨str "12", by decide⟩), .endDict, .endArray, .endDict, .endDict]
    opened.SomeAccepted calls ∧ (opened.after calls).sections = [] ∧
      (opened.after calls).out = str "\x7b\"ids\":[\"a\\\"b\",12]\x7d" ∧
      WritesValue calls ∧ opened.AllInPlace calls := by
  intro calls
  have haccepted : opened.SomeAccepted calls := ⟨[], _, _, rfl, rfl⟩
  have hinPlace : opened.AllInPlace calls := by
    simp only [calls, AllInPlace, InPlace, opened, and_self, or_true]
  exact ⟨haccepted, rfl, by decide +kernel, (writesValue_iff haccepted rfl).mpr hinPlace, hinPlace⟩

/-- An array in a dictionary without a key, as `BeginArray` writes it. -/
theorem not_writesValue_bareArrayInDict :
    let calls : List Call := [.beginDict, .beginArray, .endArray, .endDict]
    opened.SomeAccepted calls ∧ (opened.after calls).sections = [] ∧
      (opened.after calls).out = str "\x7b[]\x7d" ∧ ¬ WritesValue calls := by
  intro calls
  refine ⟨⟨[], _, _, rfl, rfl⟩, rfl, by decide +kernel, fun h => ?_⟩
  have hspaced : Spaced ([.openDict, .openArray, .closeArray, .closeDict] : List Lexeme) :=
    .cons rfl (.cons rfl (.cons rfl (spaced_singleton _)))
  have hvalue := (wellFormed_text_iff hspaced).mp h.wellFormed
  exact absurd hvalue (by decide)

end JsonWriter

end TibeeCompare.Base
