import TibeeCompare.StacksBlocks.ProfilerBlock
import TibeeCompare.Symbols.SymbolLookup

/-!
`ProfilerBlock`: the images of processes, and the stacks that are sampled in them.

All processes share one lookup, which keeps the symbols that it read for a path. This is not seen
in the stacks, if all files can be read and none is both an image at the address of programs and
one elsewhere.
-/

namespace TibeeCompare.StacksBlocks

open Symbols

/-- What `ProfilerBlock` reads stacks with. -/
structure Sampler where
  images : ℕ → ImageVector := fun _ => []
  symbols : SymbolLookup := {}

/-- The image that `OnBaddr` adds. -/
def baddrImage (sopath : Bytes) (baddr size : UInt64) : Image where
  path := sopath
  baseAddress := baddr
  size
  -- programs are mapped where they were linked to be, so that addresses in their files are absolute
  offset := if baddr = 0x400000 then 0x400000 else 0

/-- The name of what a lookup found. -/
def symbolName (result : Result) : Bytes :=
  if result.found then result.symbol.name else str "Unknown Symbol"

namespace Sampler

variable (readImageSymbols : ReadImageSymbols)

def onBaddr (sampler : Sampler) (pid : ℕ) (baddr : UInt64) (sopath : Bytes) (size : UInt64) :
    Sampler :=
  { sampler with
    images := Function.update sampler.images pid
      (sampler.images pid ++ [baddrImage sopath baddr size]) }

/-- `ReadStack`: the names from the top of the stack on. -/
def readStack (pid : ℕ) : Sampler → List UInt64 → List Bytes × Sampler
  | sampler, [] => ([], sampler)
  | sampler, address :: addresses =>
      let (result, symbols) := sampler.symbols.lookupSymbol readImageSymbols
        { address, images := sampler.images pid }
      let (names, sampler) := readStack pid { sampler with symbols } addresses
      if (str "lttng_profile").isPrefixOf (symbolName result) then (names, sampler)
      else (symbolName result :: names, sampler)

end Sampler

inductive SamplerEvent
  | baddr (pid : ℕ) (baddr : UInt64) (sopath : Bytes) (size : UInt64)
  | sample (pid : ℕ) (addresses : List UInt64)

/-- The stacks of the samples of a run. -/
def sampledStacks (readImageSymbols : ReadImageSymbols) (sampler : Sampler) :
    List SamplerEvent → List (List Bytes)
  | [] => []
  | .baddr pid baddr sopath size :: events =>
      sampledStacks readImageSymbols (sampler.onBaddr pid baddr sopath size) events
  | .sample pid addresses :: events =>
      let (names, sampler) := sampler.readStack readImageSymbols pid addresses
      names :: sampledStacks readImageSymbols sampler events

/-! ### Without a cache -/

/-- The name that the file of the first image at an address has for it, read for this image. -/
def nameAt? (readImageSymbols : ReadImageSymbols) (images : ImageVector) (address : UInt64) :
    Option Bytes :=
  (images.find? (·.contains address)).map fun image =>
    (SymbolLookup.symbolIn { address, images } image
      (readImageSymbols image.path image.offset).2).name

/-- The stacks of the samples of a run, if each address is looked up in the files of its process
only. -/
def plainStacks (readImageSymbols : ReadImageSymbols) (images : ℕ → ImageVector) :
    List SamplerEvent → List (List Bytes)
  | [] => []
  | .baddr pid baddr sopath size :: events =>
      plainStacks readImageSymbols
        (Function.update images pid (images pid ++ [baddrImage sopath baddr size])) events
  | .sample pid addresses :: events =>
      readStack (addresses.map (nameAt? readImageSymbols (images pid))) ::
        plainStacks readImageSymbols images events

/-! ### Runs -/

/-- The image that an event adds. -/
def SamplerEvent.image? : SamplerEvent → Option Image
  | .baddr _ base sopath size => some (baddrImage sopath base size)
  | .sample _ _ => none

/-- Files that can be read for their images, and for all images of the same file in the same
way. -/
structure ReadAlike (readImageSymbols : ReadImageSymbols) (images : List Image) : Prop where
  readable : ∀ image ∈ images, (readImageSymbols image.path image.offset).1 = true
  sameOffset : ∀ image ∈ images, ∀ other ∈ images, image.path = other.path →
    image.offset = other.offset

/-- The cache has what is read for the images, and all images of processes are of these. -/
structure Sampler.Faithful (readImageSymbols : ReadImageSymbols) (known : List Image)
    (sampler : Sampler) : Prop where
  images : ∀ pid, ∀ image ∈ sampler.images pid, image ∈ known
  cached : ∀ image ∈ known, ∀ imageCache, sampler.symbols.cache image.path = some imageCache →
    imageCache = (readImageSymbols image.path image.offset).2

section Runs

variable {readImageSymbols : ReadImageSymbols} {known : List Image} {sampler : Sampler}

namespace Sampler.Faithful

theorem symbolName_lookupSymbol (h : sampler.Faithful readImageSymbols known)
    (halike : ReadAlike readImageSymbols known) (pid : ℕ) (address : UInt64) :
    symbolName (sampler.symbols.lookupSymbol readImageSymbols
        { address, images := sampler.images pid }).1 =
      (nameAt? readImageSymbols (sampler.images pid) address).getD (str "Unknown Symbol") := by
  unfold nameAt?
  cases himage : (sampler.images pid).find? (·.contains address) with
  | none =>
      rw [SymbolLookup.lookupSymbol]
      dsimp only
      rw [himage]
      rfl
  | some image =>
      have hknown := h.images pid image (List.mem_of_find?_eq_some himage)
      have hread := halike.readable image hknown
      have hcall : SymbolLookup.imageOf { address, images := sampler.images pid } = some image :=
        himage
      rw [SymbolLookup.result_lookupSymbol hcall]
      dsimp only [Option.map_some, Option.getD_some]
      cases hcache : sampler.symbols.cache image.path with
      | some imageCache =>
          rw [h.cached image hknown imageCache hcache, Option.elim_some, symbolName,
            SymbolLookup.found_findSymbol, SymbolLookup.symbol_findSymbol]
          rfl
      | none =>
          rw [Option.elim_none, SymbolLookup.freshResult, if_pos hread, symbolName,
            SymbolLookup.found_findSymbol, SymbolLookup.symbol_findSymbol]
          rfl

theorem lookupSymbol (h : sampler.Faithful readImageSymbols known)
    (halike : ReadAlike readImageSymbols known) (pid : ℕ) (address : UInt64) :
    Sampler.Faithful readImageSymbols known { sampler with
      symbols := (sampler.symbols.lookupSymbol readImageSymbols
        { address, images := sampler.images pid }).2 } := by
  refine ⟨h.images, fun image hknown imageCache hcached => ?_⟩
  dsimp only at hcached
  rw [SymbolLookup.cache_lookupSymbol] at hcached
  rcases Option.or_eq_some_iff.mp hcached with hold | ⟨-, hnew⟩
  · exact h.cached image hknown imageCache hold
  · -- the symbols were read just now, for an image of the same file
    obtain ⟨other, hother, hread⟩ := Option.bind_eq_some_iff.mp hnew
    split at hread
    · next hpath =>
        cases hread
        have hknown' := h.images pid other (List.mem_of_find?_eq_some hother)
        rw [hpath, halike.sameOffset other hknown' image hknown hpath]
    · cases hread

theorem readStack (h : sampler.Faithful readImageSymbols known)
    (halike : ReadAlike readImageSymbols known) (pid : ℕ) (addresses : List UInt64) :
    (sampler.readStack readImageSymbols pid addresses).1 =
        StacksBlocks.readStack
          (addresses.map (nameAt? readImageSymbols (sampler.images pid))) ∧
      (sampler.readStack readImageSymbols pid addresses).2.images = sampler.images ∧
      (sampler.readStack readImageSymbols pid addresses).2.Faithful readImageSymbols known := by
  induction addresses generalizing sampler with
  | nil => exact ⟨rfl, rfl, h⟩
  | cons address addresses ih =>
      have hname := h.symbolName_lookupSymbol halike pid address
      have hnext := h.lookupSymbol halike pid address
      unfold Sampler.readStack
      generalize sampler.symbols.lookupSymbol readImageSymbols
        { address, images := sampler.images pid } = looked at hname hnext
      obtain ⟨result, symbols⟩ := looked
      dsimp only at hname hnext ⊢
      obtain ⟨hnames, himages, hfaithful⟩ := ih hnext
      rw [hname, hnames]
      unfold StacksBlocks.readStack
      rw [List.map_cons, List.map_cons]
      split
      · next hprofiler =>
          rw [List.filter_cons_of_neg (by rw [hprofiler]; decide)]
          exact ⟨rfl, himages, hfaithful⟩
      · next hother =>
          rw [Bool.not_eq_true] at hother
          rw [List.filter_cons_of_pos (by rw [hother]; rfl)]
          exact ⟨rfl, himages, hfaithful⟩

end Sampler.Faithful

theorem sampledStacks_eq (halike : ReadAlike readImageSymbols known)
    (h : sampler.Faithful readImageSymbols known) {events : List SamplerEvent}
    (hknown : ∀ image ∈ events.filterMap SamplerEvent.image?, image ∈ known) :
    sampledStacks readImageSymbols sampler events =
      plainStacks readImageSymbols sampler.images events := by
  induction events generalizing sampler with
  | nil => rfl
  | cons event events ih =>
      cases event with
      | baddr pid baddr sopath size =>
          have himage := hknown (baddrImage sopath baddr size) List.mem_cons_self
          refine ih ⟨fun other image hmem => ?_, h.cached⟩ fun image hmem =>
            hknown image (List.mem_cons_of_mem _ hmem)
          unfold Sampler.onBaddr at hmem
          dsimp only at hmem
          by_cases hpid : other = pid
          · subst hpid
            rw [Function.update_self] at hmem
            rcases List.mem_append.mp hmem with hmem | hmem
            · exact h.images other image hmem
            · rw [List.mem_singleton.mp hmem]
              exact himage
          · rw [Function.update_of_ne hpid] at hmem
            exact h.images other image hmem
      | sample pid addresses =>
          obtain ⟨hnames, himages, hfaithful⟩ := h.readStack halike pid addresses
          have hrest := ih hfaithful hknown
          rw [sampledStacks, plainStacks]
          dsimp only
          rw [hnames, hrest, himages]

end Runs

/-- No matter in which order images are mapped into processes and stacks are sampled, each stack
has the names that the files of its process have for the addresses: what was read for other
processes is not seen. -/
theorem sampledStacks_plain {readImageSymbols : ReadImageSymbols} {events : List SamplerEvent}
    (halike : ReadAlike readImageSymbols (events.filterMap SamplerEvent.image?)) :
    sampledStacks readImageSymbols {} events =
      plainStacks readImageSymbols (fun _ => []) events := by
  refine sampledStacks_eq halike ⟨?_, ?_⟩ fun _ hmem => hmem
  · rintro pid image ⟨⟩
  · rintro image - imageCache ⟨⟩

/-- Files with a single function, at their 16th byte. -/
def oneFunction : ReadImageSymbols := fun path offset =>
  (true, { entries := [(offset + 16, { address := offset + 16, name := path ++ str "!run" })]
           sorted := List.pairwise_singleton _ _ })

/-- A library that is mapped into two processes, at different addresses. -/
def sharedLibrary : List SamplerEvent :=
  [.baddr 1 0x400000 (str "a.out") 8192,
    .baddr 1 0x7f0000000000 (str "libc.so") 8192,
    .sample 1 [0x7f0000000010, 0x400010],
    .baddr 2 0x7f1000000000 (str "libc.so") 8192,
    .sample 2 [0x7f1000000020, 0x400010]]

theorem sampledStacks_plain_sharedLibrary :
    sampledStacks oneFunction {} sharedLibrary =
        plainStacks oneFunction (fun _ => []) sharedLibrary ∧
      plainStacks oneFunction (fun _ => []) sharedLibrary =
        [[str "libc.so!run", str "a.out!run"], [str "libc.so!run", str "Unknown Symbol"]] :=
  ⟨sampledStacks_plain ⟨fun _ _ => rfl, by decide⟩, by decide⟩

end TibeeCompare.StacksBlocks
