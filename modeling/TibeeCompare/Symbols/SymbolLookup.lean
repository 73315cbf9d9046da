import TibeeCompare.Basic
import Mathlib.Data.List.Induction

/-!
`SymbolLookup`: the function that an address belongs to, from the images that are mapped
into a process.

The symbols of a file are read with `libelf`. Reading them is an argument, a function of
the path of an image and of its offset: whether it succeeds, and the symbols that it has put
into the map by then.
-/

namespace TibeeCompare.Symbols

structure Symbol where
  address : UInt64 := 0
  size : UInt64 := 0
  type : UInt8 := 0
  name : Bytes := []
deriving DecidableEq

structure Image where
  path : Bytes
  baseAddress : UInt64
  size : UInt64
  offset : UInt64
deriving DecidableEq

abbrev ImageVector := List Image

/-- A `std::map` from addresses to symbols: its entries, by increasing addresses. -/
structure ImageSymbolCache where
  entries : List (UInt64 × Symbol) := []
  sorted : entries.Pairwise fun a b => a.1 < b.1 := by decide

/-- What `ReadImageSymbols` returns, and the map that it leaves. -/
abbrev ReadImageSymbols := Bytes → UInt64 → Bool × ImageSymbolCache

structure SymbolLookup where
  cache : Bytes → Option ImageSymbolCache := fun _ => none

/-- The arguments of a call, with what the two results hold before it. -/
structure Call where
  address : UInt64
  images : ImageVector
  symbol : Symbol := {}
  offset : UInt64 := 0

structure Result where
  found : Bool
  symbol : Symbol
  offset : UInt64
deriving DecidableEq

def Image.contains (image : Image) (address : UInt64) : Bool :=
  decide (image.baseAddress ≤ address) && decide (address < image.baseAddress + image.size)

/-- The entry before the one that `upper_bound` finds. -/
def ImageSymbolCache.entryAt (imageCache : ImageSymbolCache) (relativeAddress : UInt64) :
    Option (UInt64 × Symbol) :=
  (imageCache.entries.takeWhile fun entry => entry.1 ≤ relativeAddress).getLast?

def Image.relativeAddress (image : Image) (address : UInt64) : UInt64 :=
  address - image.baseAddress + image.offset

/-- The end of `LookupSymbol`, with the map for the image at hand. -/
def findSymbol (call : Call) (image : Image) (imageCache : ImageSymbolCache) : Result :=
  let relativeAddress := image.relativeAddress call.address
  match imageCache.entryAt relativeAddress with
  | none =>
      ⟨true,
        { call.symbol with
          name := image.path ++ str "+" ++ str (toString relativeAddress.toNat) },
        call.offset⟩
  | some (_, symbol) => ⟨true, symbol, call.address - symbol.address - image.baseAddress⟩

namespace SymbolLookup

variable (readImageSymbols : ReadImageSymbols)

def lookupSymbol (lookup : SymbolLookup) (call : Call) : Result × SymbolLookup :=
  match call.images.find? (·.contains call.address) with
  | none => (⟨false, call.symbol, call.offset⟩, lookup)
  | some image =>
      match lookup.cache image.path with
      | some imageCache => (findSymbol call image imageCache, lookup)
      | none =>
          let (loaded, imageCache) := readImageSymbols image.path image.offset
          -- the map is in the cache, whether it was loaded or not
          let lookup := { cache := Function.update lookup.cache image.path (some imageCache) }
          if loaded then (findSymbol call image imageCache, lookup)
          else (⟨false, call.symbol, call.offset⟩, lookup)

/-- The lookup after some calls. -/
def after (calls : List Call) : SymbolLookup :=
  calls.foldl (fun lookup call => (lookup.lookupSymbol readImageSymbols call).2) {}

/-- A call after others returns what it does on a fresh lookup. -/
def FreshAfter (calls : List Call) (call : Call) : Prop :=
  let result := ((after readImageSymbols calls).lookupSymbol readImageSymbols call).1
  let fresh := (lookupSymbol readImageSymbols {} call).1
  result.found = fresh.found ∧ result.symbol = fresh.symbol

/-- Each call of a sequence does. -/
def Transparent (calls : List Call) : Prop :=
  ∀ pre call post, calls = pre ++ call :: post → FreshAfter readImageSymbols pre call

/-! ### The cache -/

/-- The image of a call. -/
def imageOf (call : Call) : Option Image := call.images.find? (·.contains call.address)

/-- The image that the symbols for a path were read for: that of the first call with it. -/
def readFor (calls : List Call) (path : Bytes) : Option Image :=
  (calls.filterMap imageOf).find? (·.path = path)

/-- The symbol that a map has for the address of a call: the last one that does not lie behind it,
or else one that is named after the image. -/
def symbolIn (call : Call) (image : Image) (imageCache : ImageSymbolCache) : Symbol :=
  let relativeAddress := image.relativeAddress call.address
  ((imageCache.entryAt relativeAddress).map Prod.snd).getD
    { call.symbol with name := image.path ++ str "+" ++ str (toString relativeAddress.toNat) }

/-- If symbols for the path of the image of a call were read before, the image's own symbols can be
read, and they have the symbol for the address that those from before have. -/
def ResolvesAlike (calls : List Call) (call : Call) : Prop :=
  ∀ image ∈ imageOf call, ∀ first ∈ readFor calls image.path,
    (readImageSymbols image.path image.offset).1 = true ∧
      symbolIn call image (readImageSymbols first.path first.offset).2 =
        symbolIn call image (readImageSymbols image.path image.offset).2

variable {readImageSymbols}

theorem snd_ite {α β : Type} {c : Prop} [Decidable c] (a a' : α) (b : β) :
    (if c then (a, b) else (a', b)).2 = b := by
  split <;> rfl

theorem cache_lookupSymbol (lookup : SymbolLookup) (call : Call) (path : Bytes) :
    (lookup.lookupSymbol readImageSymbols call).2.cache path =
      (lookup.cache path).or ((imageOf call).bind fun image =>
        if image.path = path then some (readImageSymbols image.path image.offset).2 else none) := by
  rw [lookupSymbol, ← imageOf]
  cases imageOf call with
  | none => simp
  | some image =>
      dsimp only [Option.bind_some]
      cases hcache : lookup.cache image.path with
      | some imageCache =>
          dsimp only
          by_cases hpath : image.path = path
          · rw [← hpath, hcache, Option.some_or]
          · rw [if_neg hpath, Option.or_none]
      | none =>
          dsimp only
          rw [snd_ite]
          dsimp only
          by_cases hpath : image.path = path
          · subst hpath
            rw [Function.update_self, hcache, if_pos rfl, Option.none_or]
          · rw [Function.update_of_ne (Ne.symm hpath), if_neg hpath, Option.or_none]

/-- For each path, the cache has the symbols that were read for its first image. -/
theorem cache_after (calls : List Call) (path : Bytes) :
    (after readImageSymbols calls).cache path =
      (readFor calls path).map fun first => (readImageSymbols first.path first.offset).2 := by
  induction calls using List.reverseRecOn with
  | nil => rfl
  | append_singleton calls call ih =>
      have hstep : after readImageSymbols (calls ++ [call]) =
          ((after readImageSymbols calls).lookupSymbol readImageSymbols call).2 := List.foldl_append
      rw [hstep, cache_lookupSymbol, ih, readFor, readFor, List.filterMap_append, List.find?_append]
      cases hfirst : (calls.filterMap imageOf).find? (·.path = path) with
      | some first => rfl
      | none =>
          rw [Option.map_none, Option.none_or, Option.none_or]
          cases himage : imageOf call with
          | none =>
              rw [List.filterMap_cons_none himage]
              rfl
          | some image =>
              rw [List.filterMap_cons_some himage, Option.bind_some, List.filterMap_nil,
                List.find?_cons]
              by_cases hpath : image.path = path
              · simp [hpath]
              · simp [hpath]

theorem symbol_findSymbol (call : Call) (image : Image) (imageCache : ImageSymbolCache) :
    (findSymbol call image imageCache).symbol = symbolIn call image imageCache := by
  rw [findSymbol, symbolIn]
  dsimp only
  cases imageCache.entryAt (image.relativeAddress call.address) with
  | none => rfl
  | some entry => rfl

theorem found_findSymbol (call : Call) (image : Image) (imageCache : ImageSymbolCache) :
    (findSymbol call image imageCache).found = true := by
  rw [findSymbol]
  dsimp only
  split <;> rfl

/-- The result for an image whose symbols are not in the cache. -/
def freshResult (readImageSymbols : ReadImageSymbols) (call : Call) (image : Image) : Result :=
  if (readImageSymbols image.path image.offset).1 then
    findSymbol call image (readImageSymbols image.path image.offset).2
  else ⟨false, call.symbol, call.offset⟩

theorem result_lookupSymbol {lookup : SymbolLookup} {call : Call} {image : Image}
    (himage : imageOf call = some image) :
    (lookup.lookupSymbol readImageSymbols call).1 =
      (lookup.cache image.path).elim (freshResult readImageSymbols call image)
        (findSymbol call image) := by
  rw [lookupSymbol, ← imageOf, himage]
  dsimp only
  cases lookup.cache image.path with
  | some imageCache => rfl
  | none =>
      dsimp only [Option.elim_none]
      rw [freshResult]
      split <;> rfl

/-- A call returns what it does on a fresh lookup exactly if the symbols that were read for the
path of its image give the same. -/
theorem freshAfter_iff (calls : List Call) (call : Call) :
    FreshAfter readImageSymbols calls call ↔ ResolvesAlike readImageSymbols calls call := by
  rw [FreshAfter, ResolvesAlike]
  cases himage : imageOf call with
  | none =>
      rw [lookupSymbol, lookupSymbol, ← imageOf, himage]
      simp
  | some image =>
      have hempty : ({} : SymbolLookup).cache image.path = none := rfl
      rw [result_lookupSymbol himage, result_lookupSymbol himage, hempty, cache_after]
      simp only [Option.mem_def, Option.some.injEq, forall_eq']
      cases readFor calls image.path with
      | none => simp
      | some first =>
          simp only [Option.map_some, Option.elim_some, Option.elim_none, Option.some.injEq,
            forall_eq', found_findSymbol, symbol_findSymbol, freshResult]
          cases (readImageSymbols image.path image.offset).1 with
          | true => simp [found_findSymbol, symbol_findSymbol]
          | false => simp

/-- No answer depends on earlier calls exactly if each call finds the symbols of its image's path
as its own image has them. -/
theorem transparent_iff (readImageSymbols : ReadImageSymbols) (calls : List Call) :
    Transparent readImageSymbols calls ↔
      ∀ pre call post, calls = pre ++ call :: post → ResolvesAlike readImageSymbols pre call := by
  simp only [Transparent, freshAfter_iff]

/-- A file that cannot be read. -/
def unreadable : ReadImageSymbols := fun _ _ => (false, {})

def lookupInFile : Call := { address := 4200000, images := [⟨str "a.out", 4194304, 8192, 4194304⟩] }

/-- The first call fails, the second one gives a name. -/
theorem not_transparent_unreadable : ¬ Transparent unreadable [lookupInFile, lookupInFile] := by
  intro h
  have hfound := (h [lookupInFile] lookupInFile [] rfl).1
  exact absurd hfound (by decide)

end SymbolLookup

end TibeeCompare.Symbols
