import TibeeCompare.Symbols.Offsets
import Mathlib.Data.List.ReduceOption

/-!
`ReadImageSymbols`: the functions of an ELF file.

What `libelf` reads from the file are the parts of a structure; `none` stands for a part that it
cannot read. The functions are put into the table at their distance from the segment with the
code, and an address is searched at its distance from the start of the file. So the names are
those of other functions, unless the segment is at the start of the file.
-/

namespace TibeeCompare.Symbols

def PT_LOAD : UInt32 := 1
def PF_X : UInt32 := 1
def PF_R : UInt32 := 4
def SHT_SYMTAB : UInt32 := 2
def SHT_DYNSYM : UInt32 := 11
def STT_FUNC : UInt8 := 2

structure ProgramHeader where
  type : UInt32
  flags : UInt32
  offset : UInt64
  vaddr : UInt64
  align : UInt64

structure ElfSymbol where
  info : UInt8
  value : UInt64
  size : UInt64
  /-- What `elf_strptr` finds. -/
  name : Option Bytes
deriving DecidableEq

structure ElfSection where
  type : UInt32
  size : UInt64
  entsize : UInt64
  /-- The symbols that `gelf_getsym` finds in the data. -/
  data : Option (List ElfSymbol)

structure ElfFile where
  programHeaders : List (Option ProgramHeader)
  sections : List (Option ElfSection)

inductive ElfFault
  | divisionByZero
deriving DecidableEq

/-! ### Reading -/

/-- The segment is code, and starts in the page at the offset. -/
def ProgramHeader.isCodeAt (header : ProgramHeader) (offset : UInt64) : Bool :=
  header.type == PT_LOAD && header.flags == PF_X ||| PF_R &&
    header.offset &&& ~~~(header.align - 1) == offset

/-- The loop over the program headers. -/
def findVaddr (offset : UInt64) : List (Option ProgramHeader) → Option UInt64
  | [] => some 0 -- no segment with the code: `vaddr` as it was initialized
  | none :: _ => none
  | some header :: headers =>
      if header.isCodeAt offset then some header.vaddr else findVaddr offset headers

def ElfSymbol.isFunction (s : ElfSymbol) : Bool := s.info &&& 0xf == STT_FUNC

def ElfSection.isSymbolTable (scn : ElfSection) : Bool :=
  scn.type == SHT_DYNSYM || scn.type == SHT_SYMTAB

/-- `symbol_count`, an `int` that is compared as a `size_t`. -/
def ElfSection.symbolCount (scn : ElfSection) : UInt64 :=
  (scn.size / scn.entsize).toInt64.toInt32.toInt64.toUInt64

section Reading

variable (demangle : Bytes → Bytes) (vaddr : UInt64)

/-- The symbol that is put into the table for a function. -/
def ElfSymbol.symbol (s : ElfSymbol) (name : Bytes) : Symbol :=
  { address := s.value - vaddr, size := s.size, name := demangle name }

/-- The loop over the symbols of a section. -/
def readSymbols : ℕ → List ElfSymbol → Bool × List Symbol
  | 0, _ => (true, [])
  | _ + 1, [] => (false, [])
  | rounds + 1, s :: rest =>
      if !s.isFunction then readSymbols rounds rest
      else
        match s.name with
        | none => (false, [])
        | some name =>
            let (read, symbols) := readSymbols rounds rest
            (read, s.symbol demangle vaddr name :: symbols)

/-- The loop over the sections. -/
def readSections : List (Option ElfSection) → Except ElfFault (Bool × List Symbol)
  | [] => .ok (true, [])
  | none :: _ => .ok (false, [])
  | some scn :: sections =>
      if !scn.isSymbolTable then readSections sections
      else
        match scn.data with
        | none => .ok (false, [])
        | some data =>
            -- the division for `symbol_count`, whose divisor is not checked
            if scn.entsize = 0 then .error .divisionByZero
            else
              match readSymbols demangle vaddr scn.symbolCount.toNat data with
              -- what was put into the table before stays there
              | (false, symbols) => .ok (false, symbols)
              | (true, symbols) => do
                  let (read, more) ← readSections sections
                  pure (read, symbols ++ more)

end Reading

/-- What `ReadImageSymbols` returns for a file that is open, and what it puts into the table. -/
def ElfFile.readImageSymbols (demangle : Bytes → Bytes) (elf : ElfFile) (offset : UInt64) :
    Except ElfFault (Bool × List Symbol) :=
  match findVaddr offset elf.programHeaders with
  | none => .ok (false, [])
  | some vaddr => readSections demangle vaddr elf.sections

/-! ### The functions of a file -/

namespace ElfFile

variable (elf : ElfFile)

/-- The functions of the symbol tables, in their order. -/
def functions : List ElfSymbol :=
  (elf.sections.reduceOption.filter (·.isSymbolTable)).flatMap fun scn =>
    ((scn.data.getD []).take scn.symbolCount.toNat).filter (·.isFunction)

/-- The segment with the code of an image. -/
def codeSegment? (offset : UInt64) : Option ProgramHeader :=
  elf.programHeaders.reduceOption.find? (·.isCodeAt offset)

def codeVaddr (offset : UInt64) : UInt64 := ((elf.codeSegment? offset).map (·.vaddr)).getD 0

/-- Where the code is in the file. -/
def codeOffset (offset : UInt64) : UInt64 := ((elf.codeSegment? offset).map (·.offset)).getD 0

/-- The address that the file has for what is mapped to an address of the process: the mapping of
an image starts at its offset in the file, and the segment tells the address of each of its
bytes. -/
def fileAddress (image : Image) (address : UInt64) : UInt64 :=
  elf.codeVaddr image.offset +
    (image.relativeAddress address - elf.codeOffset image.offset)

end ElfFile

/-- The address is in the code of the function. -/
def ElfSymbol.Covers (f : ElfSymbol) (address : UInt64) : Prop :=
  f.value ≤ address ∧ address.toNat < f.value.toNat + f.size.toNat

/-- The functions are behind the start of the code, and none goes into the next one. -/
structure ElfFile.LaidOut (elf : ElfFile) (offset : UInt64) : Prop where
  behind : ∀ f ∈ elf.functions, elf.codeVaddr offset ≤ f.value
  apart : ∀ f ∈ elf.functions, ∀ g ∈ elf.functions, f.value < g.value →
    f.value.toNat + f.size.toNat ≤ g.value.toNat

/-! ### What is read -/

section Reads

variable {demangle : Bytes → Bytes} {vaddr : UInt64}

theorem findVaddr_eq {offset : UInt64} {headers : List (Option ProgramHeader)}
    (h : findVaddr offset headers = some vaddr) :
    ((headers.reduceOption.find? (·.isCodeAt offset)).map (·.vaddr)).getD 0 = vaddr := by
  induction headers with
  | nil =>
      obtain rfl := Option.some.inj h
      rfl
  | cons header headers ih =>
      cases header with
      | none => cases h
      | some header =>
          rw [findVaddr] at h
          rw [List.reduceOption_cons_of_some, List.find?_cons]
          cases hcode : header.isCodeAt offset with
          | true =>
              rw [hcode, if_pos rfl] at h
              exact Option.some.inj h
          | false =>
              rw [hcode, if_neg (by decide)] at h
              exact ih h

/-- What is put into the table for a function that has a name. -/
def ElfSymbol.entry (demangle : Bytes → Bytes) (vaddr : UInt64) (f : ElfSymbol) : Symbol :=
  f.symbol demangle vaddr (f.name.getD [])

theorem readSymbols_eq {rounds : ℕ} {data : List ElfSymbol} {symbols : List Symbol}
    (h : readSymbols demangle vaddr rounds data = (true, symbols)) :
    symbols = ((data.take rounds).filter (·.isFunction)).map (·.entry demangle vaddr) := by
  induction rounds generalizing data symbols with
  | zero =>
      rw [readSymbols.eq_def] at h
      cases h
      rfl
  | succ rounds ih =>
      cases data with
      | nil => cases h
      | cons s rest =>
          rw [readSymbols] at h
          rw [List.take_succ_cons]
          cases hfunction : s.isFunction with
          | false =>
              rw [hfunction, if_pos (by decide)] at h
              rw [List.filter_cons_of_neg (by rw [hfunction]; decide)]
              exact ih h
          | true =>
              rw [hfunction, if_neg (by decide)] at h
              rw [List.filter_cons_of_pos hfunction, List.map_cons, ElfSymbol.entry]
              cases hname : s.name with
              | none =>
                  rw [hname] at h
                  cases h
              | some name =>
                  rw [hname] at h
                  cases hrest : readSymbols demangle vaddr rounds rest with
                  | mk read more =>
                      rw [hrest] at h
                      cases h
                      rw [ih hrest]
                      rfl

theorem readSections_eq {sections : List (Option ElfSection)} {symbols : List Symbol}
    (h : readSections demangle vaddr sections = .ok (true, symbols)) :
    symbols = ((sections.reduceOption.filter (·.isSymbolTable)).flatMap fun scn =>
      ((scn.data.getD []).take scn.symbolCount.toNat).filter (·.isFunction)).map
        (·.entry demangle vaddr) := by
  induction sections generalizing symbols with
  | nil =>
      cases h
      rfl
  | cons scn sections ih =>
      cases scn with
      | none => cases h
      | some scn =>
          rw [readSections] at h
          rw [List.reduceOption_cons_of_some]
          cases htable : scn.isSymbolTable with
          | false =>
              rw [htable, if_pos (by decide)] at h
              rw [List.filter_cons_of_neg (by rw [htable]; decide)]
              exact ih h
          | true =>
              rw [htable, if_neg (by decide)] at h
              rw [List.filter_cons_of_pos htable, List.flatMap_cons, List.map_append]
              cases hdata : scn.data with
              | none =>
                  rw [hdata] at h
                  cases h
              | some data =>
                  rw [hdata] at h
                  dsimp only at h
                  split at h
                  · cases h
                  · split at h
                    · cases h
                    · next first hfirst =>
                        cases hmore : readSections demangle vaddr sections with
                        | error fault =>
                            rw [hmore] at h
                            cases h
                        | ok result =>
                            obtain ⟨read, more⟩ := result
                            rw [hmore] at h
                            cases h
                            rw [readSymbols_eq hfirst, ih hmore]
                            rfl

theorem ElfFile.readImageSymbols_eq {elf : ElfFile} {offset : UInt64} {symbols : List Symbol}
    (h : elf.readImageSymbols demangle offset = .ok (true, symbols)) :
    symbols = elf.functions.map (·.entry demangle (elf.codeVaddr offset)) := by
  unfold readImageSymbols at h
  split at h
  · cases h
  · next vaddr hvaddr =>
      have hcode : elf.codeVaddr offset = vaddr := findVaddr_eq hvaddr
      rw [hcode]
      exact readSections_eq h

end Reads

namespace ImageSymbolCache

open SortedLists

/-- Of the symbols with one address, a table has the last one. -/
theorem mem_load {symbols : List Symbol} {entry : UInt64 × Symbol} :
    entry ∈ (load symbols).entries ↔
      (symbols.filter (·.address = entry.1)).getLast? = some entry.2 := by
  induction symbols using List.reverseRecOn with
  | nil => exact ⟨fun h => absurd h List.not_mem_nil, fun h => by cases h⟩
  | append_singleton symbols symbol ih =>
      have hload : load (symbols ++ [symbol]) = (load symbols).assign symbol := List.foldl_append
      have hsorted := (load symbols).sorted.imp UInt64.lt_iff_toNat_lt.mp
      obtain ⟨key, last⟩ := entry
      rw [hload, assign, mem_insertBy hsorted, ih, List.filter_append]
      by_cases hkey : symbol.address = key
      · -- the new symbol replaces the one that was there
        subst hkey
        simp [eq_comm]
      · have hne : key.toNat ≠ symbol.address.toNat := fun h => hkey (UInt64.toNat_inj.mp h).symm
        simp [hkey, hne, Ne.symm hkey]

end ImageSymbolCache

/-! ### Lookups -/

namespace SymbolLookup

variable {demangle : Bytes → Bytes} {file : SymbolFile} {calls : List Call} {call : Call}
  {image : Image} {elf : ElfFile}

/-- The table of an image is the one that was read for it, if that of its path was. -/
theorem tableFor_eq (hsame : ∀ first ∈ readFor calls image.path, first.offset = image.offset) :
    tableFor file calls image = .load (file image.path image.offset).2 := by
  rw [tableFor, cache_after]
  cases hfirst : readFor calls image.path with
  | none => rfl
  | some first =>
      have hpath : first.path = image.path := by
        simpa using List.find?_some hfirst
      rw [Option.map_some, Option.getD_some, hpath, hsame first hfirst]
      rfl

/-- An address that is searched inside a function gets this function, or the last one of those
that start with it. -/
theorem findSymbol_function {symbols : List Symbol}
    (hread : elf.readImageSymbols demangle image.offset = .ok (true, symbols))
    (hlaid : elf.LaidOut image.offset) {f : ElfSymbol} (hf : f ∈ elf.functions)
    (hcovers : f.Covers (image.relativeAddress call.address + elf.codeVaddr image.offset)) :
    ∃ g, (elf.functions.filter (·.value = f.value)).getLast? = some g ∧
      findSymbol call image (.load symbols) =
        ⟨true, g.entry demangle (elf.codeVaddr image.offset),
          call.address - (f.value - elf.codeVaddr image.offset) - image.baseAddress⟩ := by
  obtain rfl := elf.readImageSymbols_eq hread
  have hbehind := hlaid.behind
  generalize elf.codeVaddr image.offset = vaddr at hcovers hbehind ⊢
  obtain ⟨hstart, hinside⟩ := hcovers
  have hkey : ∀ g ∈ elf.functions, (g.value - vaddr).toNat = g.value.toNat - vaddr.toNat :=
    fun g hg => UInt64.toNat_sub_of_le _ _ (hbehind g hg)
  have hrelative : (image.relativeAddress call.address).toNat =
      (image.relativeAddress call.address + vaddr).toNat - vaddr.toNat := by
    rw [← UInt64.toNat_sub_of_le _ _ (UInt64.le_trans (hbehind f hf) hstart), UInt64.add_sub_cancel]
  -- The table has an entry for the function, so that the search ends there or behind it.
  obtain ⟨own, hown⟩ : ∃ own, (((elf.functions.map (·.entry demangle vaddr)).filter
      (·.address = f.value - vaddr)).getLast? = some own) := by
    apply Option.isSome_iff_exists.mp
    rw [List.getLast?_isSome]
    apply List.ne_nil_of_mem (a := f.entry demangle vaddr)
    exact List.mem_filter.mpr ⟨List.mem_map_of_mem hf, decide_eq_true rfl⟩
  have hbefore : f.value - vaddr ≤ image.relativeAddress call.address := by
    rw [UInt64.le_iff_toNat_le, hkey f hf, hrelative]
    exact Nat.sub_le_sub_right (UInt64.le_iff_toNat_le.mp hstart) _
  have howned : (f.value - vaddr, own) ∈
      (ImageSymbolCache.load (elf.functions.map (·.entry demangle vaddr))).entries :=
    ImageSymbolCache.mem_load.mpr hown
  obtain ⟨⟨key, last⟩, hentry, hmem, hle, hgreatest⟩ :=
    ImageSymbolCache.entryAt_eq_some howned hbefore
  have hfrom := hgreatest _ howned hbefore
  have hlast := ImageSymbolCache.mem_load.mp hmem
  rw [List.filter_map, List.getLast?_map] at hlast
  obtain ⟨g, hg, rfl⟩ := Option.map_eq_some_iff.mp hlast
  obtain ⟨hgmem, hgkey⟩ := List.mem_filter.mp (List.mem_of_getLast? hg)
  obtain rfl : g.value - vaddr = key := of_decide_eq_true hgkey
  -- It ends at the function, as there is no other one before the address.
  have hvalue : g.value = f.value := by
    have hgle := UInt64.le_iff_toNat_le.mp hle
    have hgfrom := UInt64.le_iff_toNat_le.mp hfrom
    have hfvaddr := UInt64.le_iff_toNat_le.mp (hbehind f hf)
    have hfstart := UInt64.le_iff_toNat_le.mp hstart
    have hgvaddr := UInt64.le_iff_toNat_le.mp (hbehind g hgmem)
    rw [hkey g hgmem, hrelative] at hgle
    dsimp only at hgfrom
    rw [hkey f hf, hkey g hgmem] at hgfrom
    by_contra hne
    have hapart := hlaid.apart f hf g hgmem (UInt64.lt_iff_toNat_lt.mpr (by
      have hne' : g.value.toNat ≠ f.value.toNat := fun h => hne (UInt64.toNat_inj.mp h)
      omega))
    omega
  refine ⟨g, ?_, ?_⟩
  · rw [← hg]
    congr 1
    apply List.filter_congr
    intro x _
    simp [ElfSymbol.entry, ElfSymbol.symbol, hvalue]
  · rw [findSymbol, hentry, ← hvalue]
    rfl

/-- The address that is searched is not the one that the file has for the code, but as far behind
it as the segment is in the file. -/
theorem fileAddress_add_codeOffset (elf : ElfFile) (image : Image) (address : UInt64) :
    elf.fileAddress image address + elf.codeOffset image.offset =
      image.relativeAddress address + elf.codeVaddr image.offset := by
  rw [ElfFile.fileAddress, UInt64.add_assoc, UInt64.sub_add_cancel, UInt64.add_comm]

/-- No matter what was looked up before, an address gets the function that the file has behind its
code at the address, by the offset of the segment: the code itself, if the segment is at the start
of the file. Of functions that start together, it is the last one. -/
theorem resultAfter_function (himage : imageOf call = some image)
    (hsame : ∀ first ∈ readFor calls image.path, first.offset = image.offset)
    (hopen : (file image.path image.offset).1 = true)
    (hread : elf.readImageSymbols demangle image.offset = .ok (file image.path image.offset))
    (hlaid : elf.LaidOut image.offset) {f : ElfSymbol} (hf : f ∈ elf.functions)
    (hcovers : f.Covers
      (elf.fileAddress image call.address + elf.codeOffset image.offset)) :
    ∃ g, (elf.functions.filter (·.value = f.value)).getLast? = some g ∧
      resultAfter file calls call = ⟨true, g.entry demangle (elf.codeVaddr image.offset),
        call.address - (f.value - elf.codeVaddr image.offset) - image.baseAddress⟩ := by
  rw [fileAddress_add_codeOffset] at hcovers
  have hread' : elf.readImageSymbols demangle image.offset =
      .ok (true, (file image.path image.offset).2) := by
    rw [hread, ← hopen]
  have hresult : resultAfter file calls call =
      findSymbol call image (.load (file image.path image.offset).2) := by
    rw [← tableFor_eq hsame]
    apply resultAfter_eq himage
    rw [resultAfter, result_lookupSymbol himage]
    cases (after (readImageSymbols file) calls).cache image.path with
    | some imageCache => exact found_findSymbol call image imageCache
    | none =>
        have hloaded : (readImageSymbols file image.path image.offset).1 = true := hopen
        rw [Option.elim_none, freshResult, if_pos hloaded]
        exact found_findSymbol call image _
  rw [hresult]
  exact findSymbol_function hread' hlaid hf hcovers

/-- A library with two functions, at 0x40 of the file and of its addresses. -/
def shiftedLibrary : ElfFile where
  programHeaders := [some ⟨PT_LOAD, PF_X ||| PF_R, 0x40, 0x40, 0x1000⟩]
  sections := [some ⟨SHT_SYMTAB, 48, 24,
    some [⟨STT_FUNC, 0x40, 0x40, some (str "first")⟩,
      ⟨STT_FUNC, 0x80, 0x40, some (str "second")⟩]⟩]

def shiftedFile : SymbolFile := fun _ offset =>
  match shiftedLibrary.readImageSymbols id offset with
  | .ok result => result
  | .error _ => (false, [])

def lookupInFirst : Call :=
  { address := 0x7F0050, images := onBaddr [] (str "libfirst.so") 0x7F0000 0x2000 }

/-- An address in the first function gets the second one, which is 0x40 behind it. -/
theorem resultAfter_function_shiftedLibrary :
    (⟨STT_FUNC, 0x40, 0x40, some (str "first")⟩ : ElfSymbol).Covers
        (shiftedLibrary.fileAddress ⟨str "libfirst.so", 0x7F0000, 0x2000, 0⟩ 0x7F0050) ∧
      (resultAfter shiftedFile [lookupInFirst] lookupInFirst).symbol.name = str "second" := by
  have hfunctions : shiftedLibrary.functions =
      [⟨STT_FUNC, 0x40, 0x40, some (str "first")⟩,
        ⟨STT_FUNC, 0x80, 0x40, some (str "second")⟩] := by decide
  have hlaid : shiftedLibrary.LaidOut 0 := by
    refine ⟨?_, ?_⟩ <;> rw [hfunctions] <;> decide
  have himage : imageOf lookupInFirst = some ⟨str "libfirst.so", 0x7F0000, 0x2000, 0⟩ := by decide
  have hsame : ∀ first ∈ readFor [lookupInFirst] (str "libfirst.so"), first.offset = 0 := by
    decide
  have hopen : (shiftedFile (str "libfirst.so") 0).1 = true := by decide
  have hread : shiftedLibrary.readImageSymbols id 0 =
      .ok (shiftedFile (str "libfirst.so") 0) := by decide
  have hsecond : ⟨STT_FUNC, 0x80, 0x40, some (str "second")⟩ ∈ shiftedLibrary.functions := by
    decide
  have hcovers : (⟨STT_FUNC, 0x80, 0x40, some (str "second")⟩ : ElfSymbol).Covers
      (shiftedLibrary.fileAddress ⟨str "libfirst.so", 0x7F0000, 0x2000, 0⟩ 0x7F0050 +
        shiftedLibrary.codeOffset 0) := ⟨by decide, by decide⟩
  obtain ⟨g, hg, hresult⟩ :=
    resultAfter_function himage hsame hopen hread hlaid hsecond hcovers
  refine ⟨⟨by decide, by decide⟩, ?_⟩
  rw [hresult]
  rw [hfunctions] at hg
  obtain rfl := Option.some.inj hg
  rfl

end SymbolLookup

end TibeeCompare.Symbols
