import TibeeCompare.Base.EscapeString

/-!
The Json file writer: eight operations that append to the text of a file,
over a stack of the sections that are open and a stack that tells, for each
of them and for the file itself, whether something was written in it yet.

What is appended is kept as the bytes of the file; that a write to the disk
can fail is left out.
-/

namespace TibeeCompare.Base

open Lib

inductive SectionType where
  | kArray
  | kDict
  deriving DecidableEq, Repr

structure JsonWriter where
  isOpen : Bool
  /-- The text of the file. -/
  out : Bytes
  sections : List SectionType
  isFirstOfSection : List Bool
  deriving DecidableEq

/-- The message of an exception. -/
abbrev FatalError := String

/-- Code that uses the writer; what was written before an exception stays. -/
abbrev JsonM := ExceptT FatalError (StateM JsonWriter)

/-- What the code returns or throws, and the writer that it leaves. -/
def JsonM.runOn {α : Type} (x : JsonM α) (writer : JsonWriter) : Except FatalError α × JsonWriter :=
  x.run.run writer

namespace JsonWriter

/-- A new writer, with nothing in the file, on which `Open` succeeded. -/
def opened : JsonWriter where
  isOpen := true
  out := []
  sections := []
  isFirstOfSection := [true]

/-- `_isFirstOfSection.top()`. The stack has one entry more than there are
sections, so that it is never empty. -/
def isFirst (writer : JsonWriter) : Bool := writer.isFirstOfSection.headD true

def append (writer : JsonWriter) (text : Bytes) : JsonWriter :=
  { writer with out := writer.out ++ text }

def setNotFirst (writer : JsonWriter) : JsonWriter :=
  { writer with isFirstOfSection := false :: writer.isFirstOfSection.tail }

def push (writer : JsonWriter) (type : SectionType) : JsonWriter :=
  { writer with
    sections := type :: writer.sections
    isFirstOfSection := true :: writer.isFirstOfSection }

def pop (writer : JsonWriter) : JsonWriter :=
  { writer with
    sections := writer.sections.tail
    isFirstOfSection := writer.isFirstOfSection.tail }

end JsonWriter

def ensureFile : JsonM Unit := do
  unless (← get).isOpen do throw "Json: No active Json file."

/-- The check that the innermost section is of a type. -/
def ensureSection (type : SectionType) (message : FatalError) : JsonM Unit := do
  unless (← get).sections.head? = some type do throw message

def write (text : Bytes) : JsonM Unit := modify (·.append text)

/-- The comma before all but the first entry of a section. -/
def separate : JsonM Unit := do
  unless (← get).isFirst do write (str ",")
  modify (·.setNotFirst)

def beginArray : JsonM Unit := do
  ensureFile
  separate
  write (str "[")
  modify (·.push .kArray)

def endArray : JsonM Unit := do
  ensureFile
  ensureSection .kArray "Json: Cannot end array here."
  modify (·.pop)
  write (str "]")

def valueInternal (escapedValue : Bytes) : JsonM Unit := do
  ensureSection .kArray "Json: Cannot write a value outside an array."
  separate
  write escapedValue

def beginDict : JsonM Unit := do
  ensureFile
  separate
  write (str "\x7b")
  modify (·.push .kDict)

def endDict : JsonM Unit := do
  ensureFile
  ensureSection .kDict "Json: Cannot end dictionary here."
  modify (·.pop)
  write (str "\x7d")

def keyValueInternal (key escapedValue : Bytes) : JsonM Unit := do
  ensureSection .kDict "Json: Cannot write a key-value outside a dictionary."
  separate
  write (str "\"" ++ escapeString key ++ str "\":" ++ escapedValue)

def keyDictValue (key : Bytes) : JsonM Unit := do
  ensureFile
  ensureSection .kDict "Json: Cannot write a key-value outside a dictionary."
  separate
  modify (·.push .kDict)
  write (str "\"" ++ escapeString key ++ str "\":\x7b")

def keyArrayValue (key : Bytes) : JsonM Unit := do
  ensureFile
  ensureSection .kDict "Json: Cannot write a key-value outside a dictionary."
  separate
  modify (·.push .kArray)
  write (str "\"" ++ escapeString key ++ str "\":[")

/-- The argument of `Value` and `KeyValue`: a string, or a number with the
digits that `std::to_string` gives for it. -/
inductive Scalar where
  | string (value : Bytes)
  | number (digits : Numeral)

def Scalar.escapedValue : Scalar → Bytes
  | string value => str "\"" ++ escapeString value ++ str "\""
  | number digits => digits.1

def value (scalar : Scalar) : JsonM Unit := do
  ensureFile
  valueInternal scalar.escapedValue

def keyValue (key : Bytes) (scalar : Scalar) : JsonM Unit := do
  ensureFile
  keyValueInternal key scalar.escapedValue

inductive Call where
  | beginArray
  | endArray
  | value (scalar : Scalar)
  | beginDict
  | endDict
  | keyValue (key : Bytes) (scalar : Scalar)
  | keyDictValue (key : Bytes)
  | keyArrayValue (key : Bytes)

def Call.action : Call → JsonM Unit
  | beginArray => Base.beginArray
  | endArray => Base.endArray
  | value scalar => Base.value scalar
  | beginDict => Base.beginDict
  | endDict => Base.endDict
  | keyValue key scalar => Base.keyValue key scalar
  | keyDictValue key => Base.keyDictValue key
  | keyArrayValue key => Base.keyArrayValue key

namespace JsonWriter

def perform (writer : JsonWriter) (call : Call) : Except FatalError Unit × JsonWriter :=
  call.action.runOn writer

/-- The writer after some calls, whether they threw or not. -/
def after (writer : JsonWriter) (calls : List Call) : JsonWriter :=
  calls.foldl (fun writer call => (writer.perform call).2) writer

@[simp] theorem after_nil (writer : JsonWriter) : writer.after [] = writer := rfl

theorem after_cons (writer : JsonWriter) (call : Call) (calls : List Call) :
    writer.after (call :: calls) = (writer.perform call).2.after calls := rfl

theorem after_append (writer : JsonWriter) (calls more : List Call) :
    writer.after (calls ++ more) = (writer.after calls).after more :=
  List.foldl_append

end JsonWriter

def Scalar.lexeme : Scalar → Lexeme
  | string value => .string (escapedContent value)
  | number digits => .number digits

theorem Scalar.spell_lexeme (scalar : Scalar) : scalar.lexeme.spell = scalar.escapedValue := by
  cases scalar <;> rfl

namespace Call

/-- The section that a call has to be made in and the message of the
exception elsewhere. `BeginArray` and `BeginDict` ask for none. -/
def check : Call → Option (SectionType × FatalError)
  | beginArray | beginDict => none
  | endArray => some (.kArray, "Json: Cannot end array here.")
  | value _ => some (.kArray, "Json: Cannot write a value outside an array.")
  | endDict => some (.kDict, "Json: Cannot end dictionary here.")
  | keyValue _ _ | keyDictValue _ | keyArrayValue _ =>
      some (.kDict, "Json: Cannot write a key-value outside a dictionary.")

/-- The tokens of a call, but for the comma before them. -/
def lexemes : Call → List Lexeme
  | beginArray => [.openArray]
  | endArray => [.closeArray]
  | value scalar => [scalar.lexeme]
  | beginDict => [.openDict]
  | endDict => [.closeDict]
  | keyValue key scalar => [.string (escapedContent key), .colon, scalar.lexeme]
  | keyDictValue key => [.string (escapedContent key), .colon, .openDict]
  | keyArrayValue key => [.string (escapedContent key), .colon, .openArray]

/-- Whether a call writes an entry of the innermost section, before which a
comma may have to stand, or its end. -/
def isEntry : Call → Bool
  | endArray | endDict => false
  | _ => true

def sectionsAfter (sections : List SectionType) : Call → List SectionType
  | beginArray | keyArrayValue _ => .kArray :: sections
  | beginDict | keyDictValue _ => .kDict :: sections
  | endArray | endDict => sections.tail
  | value _ | keyValue _ _ => sections

def flagsAfter (flags : List Bool) : Call → List Bool
  | beginArray | beginDict | keyArrayValue _ | keyDictValue _ => true :: false :: flags.tail
  | endArray | endDict => flags.tail
  | value _ | keyValue _ _ => false :: flags.tail

end Call

namespace JsonWriter

/-- The tokens that a call appends to the text when it is not refused. -/
def written (writer : JsonWriter) (call : Call) : List Lexeme :=
  if call.isEntry && !writer.isFirst then .comma :: call.lexemes else call.lexemes

def next (writer : JsonWriter) (call : Call) : JsonWriter :=
  { writer with
    out := writer.out ++ JsonToken.text (writer.written call)
    sections := call.sectionsAfter writer.sections
    isFirstOfSection := call.flagsAfter writer.isFirstOfSection }

end JsonWriter

/-! ### One call

A call first checks the innermost section, then writes. The check comes
before everything else, so that a call is either refused without a trace or
does all that it has to do. -/

namespace JsonM

@[simp] theorem runOn_bind {α β : Type} (x : JsonM α) (f : α → JsonM β) (writer : JsonWriter) :
    runOn (x >>= f) writer =
      match x.runOn writer with
      | (.ok a, writer') => runOn (f a) writer'
      | (.error e, writer') => (.error e, writer') := by
  rw [runOn, ExceptT.run_bind, StateT.run_bind]
  rcases hx : x.runOn writer with ⟨_ | _, writer'⟩ <;>
  · rw [runOn] at hx
    rw [hx]
    rfl

@[simp] theorem runOn_pure {α : Type} (a : α) (writer : JsonWriter) :
    runOn (pure a) writer = (.ok a, writer) := rfl

@[simp] theorem runOn_throw {α : Type} (message : FatalError) (writer : JsonWriter) :
    runOn (throw message : JsonM α) writer = (.error message, writer) := rfl

@[simp] theorem runOn_get (writer : JsonWriter) : runOn get writer = (.ok writer, writer) := rfl

@[simp] theorem runOn_modify (f : JsonWriter → JsonWriter) (writer : JsonWriter) :
    runOn (modify f) writer = (.ok (), f writer) := rfl

@[simp] theorem runOn_write (text : Bytes) (writer : JsonWriter) :
    runOn (write text) writer = (.ok (), writer.append text) := rfl

theorem runOn_ensureFile {writer : JsonWriter} (hopen : writer.isOpen = true) :
    runOn ensureFile writer = (.ok (), writer) := by
  simp [ensureFile, hopen]

theorem runOn_ensureSection (type : SectionType) (message : FatalError) (writer : JsonWriter) :
    runOn (ensureSection type message) writer =
      if writer.sections.head? = some type then (.ok (), writer) else (.error message, writer) := by
  by_cases h : writer.sections.head? = some type <;> simp [ensureSection, h]

theorem runOn_separate (writer : JsonWriter) :
    runOn separate writer =
      (.ok (), (if writer.isFirst then writer else writer.append (str ",")).setNotFirst) := by
  cases h : writer.isFirst <;> simp [separate, h]

end JsonM

/-! The texts between the keys and values, as bytes. -/

theorem str_comma : str "," = [0x2C] := rfl
theorem str_openArray : str "[" = [0x5B] := rfl
theorem str_openDict : str "\x7b" = [0x7B] := rfl
theorem str_quote : str "\"" = [0x22] := rfl
theorem str_afterKey : str "\":" = [0x22, 0x3A] := rfl
theorem str_afterKeyDict : str "\":\x7b" = [0x22, 0x3A, 0x7B] := rfl
theorem str_afterKeyArray : str "\":[" = [0x22, 0x3A, 0x5B] := rfl

namespace JsonWriter

/-- A call that asks for no section goes through. -/
theorem perform_of_check_none {writer : JsonWriter} (hopen : writer.isOpen = true) {call : Call}
    (h : call.check = none) : writer.perform call = (.ok (), writer.next call) := by
  cases call <;> simp only [Call.check, reduceCtorEq] at h
  all_goals
    simp only [perform, Call.action, beginArray, beginDict, JsonM.runOn_bind,
      JsonM.runOn_ensureFile hopen, JsonM.runOn_separate, JsonM.runOn_write, JsonM.runOn_modify]
    cases hfirst : writer.isFirst <;>
    simp [next, append, setNotFirst, push, written, Call.isEntry, Call.lexemes, hfirst,
      Call.sectionsAfter, Call.flagsAfter, str_comma, str_openArray,
      str_openDict]

/-- The other calls go through in their section and are refused elsewhere. -/
theorem perform_of_check_some {writer : JsonWriter} (hopen : writer.isOpen = true) {call : Call}
    {type : SectionType} {message : FatalError} (h : call.check = some (type, message)) :
    writer.perform call =
      if writer.sections.head? = some type then (.ok (), writer.next call)
      else (.error message, writer) := by
  cases call <;> simp only [Call.check, reduceCtorEq, Option.some.injEq, Prod.mk.injEq] at h <;>
    obtain ⟨rfl, rfl⟩ := h <;>
    simp only [perform, Call.action, endArray, endDict, value, valueInternal, keyValue,
      keyValueInternal, keyDictValue, keyArrayValue, JsonM.runOn_bind,
      JsonM.runOn_ensureFile hopen, JsonM.runOn_ensureSection, JsonM.runOn_separate,
      JsonM.runOn_write, JsonM.runOn_modify] <;>
    split_ifs with hsection <;> try rfl
  all_goals
    cases hfirst : writer.isFirst <;>
    simp [next, append, setNotFirst, push, written, Call.isEntry, Call.lexemes, hfirst,
      Call.sectionsAfter, Call.flagsAfter, Scalar.spell_lexeme, escapedContent, str_comma,
      str_quote, str_afterKey, str_afterKeyDict, str_afterKeyArray]

end JsonWriter

end TibeeCompare.Base
