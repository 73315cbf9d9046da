import TibeeCompare.Symbols.SymbolLookup
import TibeeCompare.Lib.SortedLists

/-!
The distance from a symbol that `LookupSymbol` returns.

A table is filled with the functions of a file, each at its address. The search goes by the
address relative to the image, which includes the offset of the image; the distance that is
returned leaves the offset out.
-/

namespace TibeeCompare.Symbols

open SortedLists

namespace ImageSymbolCache

/-- `(*cache)[symbol.address()] = symbol`. -/
def assign (imageCache : ImageSymbolCache) (symbol : Symbol) : ImageSymbolCache where
  entries := insertBy (fun entry => entry.1.toNat) (symbol.address, symbol) imageCache.entries
  sorted := (pairwise_insertBy (imageCache.sorted.imp UInt64.lt_iff_toNat_lt.mp) _).imp
    UInt64.lt_iff_toNat_lt.mpr

theorem sorted_nil : ([] : List (UInt64 × Symbol)).Pairwise fun a b => a.1 < b.1 := .nil

/-- The map that some symbols have been put into. -/
def load (symbols : List Symbol) : ImageSymbolCache := symbols.foldl assign ⟨[], sorted_nil⟩

def symbols (imageCache : ImageSymbolCache) : List Symbol := imageCache.entries.map Prod.snd

/-- Each symbol is at its address. -/
def Keyed (imageCache : ImageSymbolCache) : Prop :=
  ∀ entry ∈ imageCache.entries, entry.1 = entry.2.address

theorem Keyed.assign {imageCache : ImageSymbolCache} (h : imageCache.Keyed) (symbol : Symbol) :
    (imageCache.assign symbol).Keyed := by
  intro entry hentry
  have hsorted := imageCache.sorted.imp UInt64.lt_iff_toNat_lt.mp
  rcases (mem_insertBy hsorted _ _).mp hentry with rfl | ⟨hentry, -⟩
  · rfl
  · exact h entry hentry

theorem keyed_load (symbols : List Symbol) : (load symbols).Keyed := by
  induction symbols using List.reverseRecOn with
  | nil => exact fun entry hentry => absurd hentry List.not_mem_nil
  | append_singleton symbols symbol ih =>
      rw [load, List.foldl_append]
      exact ih.assign symbol

/-- If a symbol does not lie behind an address, the search finds the last of those. -/
theorem entryAt_eq_some {imageCache : ImageSymbolCache} {relativeAddress : UInt64}
    {entry : UInt64 × Symbol} (hentry : entry ∈ imageCache.entries)
    (hle : entry.1 ≤ relativeAddress) :
    ∃ last, imageCache.entryAt relativeAddress = some last ∧ last ∈ imageCache.entries ∧
      last.1 ≤ relativeAddress ∧
      ∀ e ∈ imageCache.entries, e.1 ≤ relativeAddress → e.1 ≤ last.1 := by
  have hbefore : imageCache.entries.Pairwise fun a b =>
      decide (b.1 ≤ relativeAddress) = true → decide (a.1 ≤ relativeAddress) = true := by
    refine imageCache.sorted.imp fun {a b} hab hb => ?_
    rw [decide_eq_true_eq, UInt64.le_iff_toNat_le] at hb ⊢
    exact (UInt64.lt_iff_toNat_lt.mp hab).le.trans hb
  have hfilter := takeWhile_eq_filter hbefore
  have hmem : ∀ e ∈ imageCache.entries, e.1 ≤ relativeAddress →
      e ∈ imageCache.entries.takeWhile fun e => e.1 ≤ relativeAddress := by
    intro e he hle
    rw [hfilter]
    exact List.mem_filter.mpr ⟨he, decide_eq_true hle⟩
  have hne := List.ne_nil_of_mem (hmem entry hentry hle)
  refine ⟨_, List.getLast?_eq_some_getLast hne, ?_⟩
  have hlast := List.getLast_mem hne
  have hlastLe := List.mem_takeWhile_imp hlast
  refine ⟨(List.takeWhile_sublist _).mem hlast, of_decide_eq_true hlastLe, fun e he hle => ?_⟩
  -- the greatest key is the last one
  have hkeys : ((imageCache.entries.takeWhile fun e => e.1 ≤ relativeAddress).map
      fun e => e.1.toNat).Pairwise (· < ·) :=
    List.pairwise_map.mpr ((imageCache.sorted.imp UInt64.lt_iff_toNat_lt.mp).sublist
      (List.takeWhile_sublist _))
  have hgreatest : ((imageCache.entries.takeWhile fun e => e.1 ≤ relativeAddress).map
      fun e => e.1.toNat).getLast? = some (List.getLast _ hne).1.toNat := by
    rw [List.getLast?_map, List.getLast?_eq_some_getLast hne]
    rfl
  exact UInt64.le_iff_toNat_le.mpr
    (le_getLast? hkeys hgreatest (List.mem_map_of_mem (hmem e he hle)))

end ImageSymbolCache

/-! ### Loaded tables -/

/-- For the path of a file and the offset of an image, whether its functions can be read, and
those that are found by then, in the order of the file. -/
abbrev SymbolFile := Bytes → UInt64 → Bool × List Symbol

def readImageSymbols (file : SymbolFile) : ReadImageSymbols := fun path offset =>
  ((file path offset).1, .load (file path offset).2)

/-- `OnBaddr`: the image of the main executable has an offset. -/
def onBaddr (images : ImageVector) (sopath : Bytes) (baddr size : UInt64) : ImageVector :=
  images ++ [if baddr = 0x400000 then ⟨sopath, 0x400000, size, 0x400000⟩ else
    ⟨sopath, baddr, size, 0⟩]

namespace SymbolLookup

variable (file : SymbolFile)

/-- The table that a call uses for an image, after some calls. -/
def tableFor (calls : List Call) (image : Image) : ImageSymbolCache :=
  ((after (readImageSymbols file) calls).cache image.path).getD
    (readImageSymbols file image.path image.offset).2

def resultAfter (calls : List Call) (call : Call) : Result :=
  ((after (readImageSymbols file) calls).lookupSymbol (readImageSymbols file) call).1

/-- The call resolves its address in the image to a symbol of the table. -/
def Resolves (calls : List Call) (call : Call) (image : Image) : Prop :=
  imageOf call = some image ∧ (resultAfter file calls call).found = true ∧
    ∃ symbol ∈ (tableFor file calls image).symbols,
      symbol.address ≤ image.relativeAddress call.address

/-- The symbol of a table with the greatest address that is not larger than a relative address,
and the distance between the two. -/
structure Exact (imageCache : ImageSymbolCache) (relativeAddress : UInt64) (result : Result) :
    Prop where
  listed : result.symbol ∈ imageCache.symbols
  before : result.symbol.address ≤ relativeAddress
  greatest : ∀ symbol ∈ imageCache.symbols, symbol.address ≤ relativeAddress →
    symbol.address ≤ result.symbol.address
  offset : result.offset.toNat = relativeAddress.toNat - result.symbol.address.toNat

variable {file}

theorem keyed_tableFor (calls : List Call) (image : Image) :
    (tableFor file calls image).Keyed := by
  rw [tableFor, cache_after]
  cases readFor calls image.path with
  | none => exact ImageSymbolCache.keyed_load _
  | some first => exact ImageSymbolCache.keyed_load _

theorem resultAfter_eq {calls : List Call} {call : Call} {image : Image}
    (himage : imageOf call = some image) (hfound : (resultAfter file calls call).found = true) :
    resultAfter file calls call = findSymbol call image (tableFor file calls image) := by
  rw [resultAfter, result_lookupSymbol himage] at hfound ⊢
  rw [tableFor]
  cases hcache : (after (readImageSymbols file) calls).cache image.path with
  | some imageCache => rfl
  | none =>
      rw [hcache, Option.elim_none, freshResult] at hfound
      rw [Option.elim_none, freshResult]
      split at hfound
      · next hread => exact if_pos hread
      · cases hfound

/-- The two expressions of the source differ by the offset of the image. -/
theorem distance_eq_iff (address symbolAddress baseAddress offset : UInt64) :
    address - symbolAddress - baseAddress = address - baseAddress + offset - symbolAddress ↔
      offset = 0 := by
  grind

/-- The symbol that a call resolves to is always the right one, and its distance exactly if the
image has no offset. -/
theorem exact_iff (file : SymbolFile) (calls : List Call) (call : Call) (image : Image)
    (hresolves : Resolves file calls call image) :
    Exact (tableFor file calls image) (image.relativeAddress call.address)
      (resultAfter file calls call) ↔ image.offset = 0 := by
  obtain ⟨himage, hfound, symbol, hsymbol, hle⟩ := hresolves
  obtain ⟨entry, hentry, rfl⟩ := List.mem_map.mp hsymbol
  have hkeyed : (tableFor file calls image).Keyed := keyed_tableFor calls image
  rw [← hkeyed entry hentry] at hle
  obtain ⟨⟨key, last⟩, hlast, hmem, hlastLe, hgreatest⟩ :=
    ImageSymbolCache.entryAt_eq_some hentry hle
  obtain rfl : key = last.address := hkeyed _ hmem
  have hresult : resultAfter file calls call =
      ⟨true, last, call.address - last.address - image.baseAddress⟩ := by
    rw [resultAfter_eq himage hfound, findSymbol, hlast]
  -- the symbol does not lie behind the relative address, so this difference does not wrap
  have hdistance := UInt64.toNat_sub_of_le _ _ hlastLe
  have hoffset : (call.address - last.address - image.baseAddress).toNat =
      (image.relativeAddress call.address).toNat - last.address.toNat ↔ image.offset = 0 := by
    rw [← hdistance, UInt64.toNat_inj, Image.relativeAddress]
    exact distance_eq_iff _ _ _ _
  rw [hresult]
  refine ⟨fun h => hoffset.mp h.offset, fun hzero => ?_⟩
  refine ⟨List.mem_map_of_mem hmem, hlastLe, fun other hother hle => ?_, hoffset.mpr hzero⟩
  obtain ⟨e, he, rfl⟩ := List.mem_map.mp hother
  rw [← hkeyed e he] at hle ⊢
  exact hgreatest e he hle

/-- A file with two functions. -/
def twoFunctions : SymbolFile := fun _ _ =>
  (true, [{ address := 0x500, name := str "main" }, { address := 0x400500, name := str "main" }])

def lookupInLibrary : Call :=
  { address := 0x7F0510, images := onBaddr [] (str "libc.so") 0x7F0000 0x2000 }

def lookupInExecutable : Call :=
  { address := 0x400510, images := onBaddr [] (str "a.out") 0x400000 0x2000 }

theorem exact_iff_library :
    Exact (tableFor twoFunctions [] ⟨str "libc.so", 0x7F0000, 0x2000, 0⟩) 0x510
      (resultAfter twoFunctions [] lookupInLibrary) :=
  (exact_iff twoFunctions [] lookupInLibrary ⟨str "libc.so", 0x7F0000, 0x2000, 0⟩
    ⟨by decide, by decide, { address := 0x500, name := str "main" }, by decide, by decide⟩).mpr rfl

/-- 16 bytes behind the start of `main`, the distance is `0x10 - 0x400000`. -/
theorem not_exact_executable :
    imageOf lookupInExecutable = some ⟨str "a.out", 0x400000, 0x2000, 0x400000⟩ ∧
      ¬ Exact (tableFor twoFunctions [] ⟨str "a.out", 0x400000, 0x2000, 0x400000⟩) 0x400510
        (resultAfter twoFunctions [] lookupInExecutable) := by
  refine ⟨by decide, fun h => ?_⟩
  have hoffset := h.offset
  revert hoffset
  decide

end SymbolLookup

end TibeeCompare.Symbols
