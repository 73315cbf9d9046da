import TibeeCompare.Basic
import TibeeCompare.Lib.Codecs
import Mathlib.Data.Fintype.Card

/-!
The records of the database, stacks and executions, and their bytes.

The maps of an execution are `std::unordered_map`s, whose iteration order the
standard leaves open. Here an entry keeps the place at which it was inserted,
and the entries are read and written in that order.
-/

namespace TibeeCompare

open Codecs

/-! ### Stacks -/

/-- A stack: the function on top, and the stack below it. -/
structure Stack where
  function : UInt32
  bottom : UInt32
deriving DecidableEq

abbrev FunctionNameId := UInt32
abbrev StackId := UInt32

def kEmptyStackId : StackId := 0

/-! ### The maps of an execution -/

abbrev Entries := List (UInt32 × UInt64)

/-- `f` applied to the value of `id`, which is 0 when `id` is new. -/
def Entries.modify (id : UInt32) (f : UInt64 → UInt64) : Entries → Entries
  | [] => [(id, f 0)]
  | (key, value) :: rest =>
      if key = id then (key, f value) :: rest else (key, value) :: modify id f rest

/-- The identifiers are the old ones, and `id` behind them if it is new. -/
theorem Entries.keys_modify (id : UInt32) (f : UInt64 → UInt64) (entries : Entries) :
    (entries.modify id f).map Prod.fst =
      if id ∈ entries.map Prod.fst then entries.map Prod.fst
      else entries.map Prod.fst ++ [id] := by
  induction entries with
  | nil => rfl
  | cons entry rest ih =>
      rcases entry with ⟨key, value⟩
      by_cases hkey : key = id
      · simp [modify, hkey]
      · have hne : id ≠ key := fun h => hkey h.symm
        rw [modify, if_neg hkey, List.map_cons, ih]
        by_cases hid : id ∈ rest.map Prod.fst <;> simp [hid, hne]

theorem Entries.modify_of_notMem {id : UInt32} (f : UInt64 → UInt64) {entries : Entries}
    (h : id ∉ entries.map Prod.fst) : entries.modify id f = entries ++ [(id, f 0)] := by
  induction entries with
  | nil => rfl
  | cons entry rest ih =>
      rw [List.map_cons, List.mem_cons, not_or] at h
      rw [modify, if_neg (Ne.symm h.1), ih h.2, List.cons_append]

/-- A map from identifiers to 64-bit values, with at most one value for each. -/
structure IdMap where
  entries : Entries
  nodup : (entries.map Prod.fst).Nodup
deriving DecidableEq

namespace IdMap

def empty : IdMap := ⟨[], List.nodup_nil⟩

def modify (m : IdMap) (id : UInt32) (f : UInt64 → UInt64) : IdMap where
  entries := m.entries.modify id f
  nodup := by
    rw [Entries.keys_modify]
    split
    · exact m.nodup
    · next h => exact m.nodup.append (List.nodup_singleton id) (by simpa using h)

/-- The value of an identifier, 0 if there is none. -/
def get (m : IdMap) (id : UInt32) : UInt64 := (m.entries.lookup id).getD 0

@[ext] theorem ext {m m' : IdMap} (h : m.entries = m'.entries) : m = m' := by
  cases m
  cases m'
  simp_all

/-- The identifiers are distinct 32-bit numbers. -/
theorem length_le (m : IdMap) : m.entries.length ≤ 2 ^ 32 := by
  have hnodup : (m.entries.map fun e => e.1.toFin).Nodup := by
    have := m.nodup.map (f := UInt32.toFin) fun a b h => UInt32.toFin_inj.mp h
    rwa [List.map_map] at this
  have hcard := hnodup.length_le_card
  rwa [List.length_map, Fintype.card_fin] at hcard

theorem length_lt (m : IdMap) : m.entries.length < 2 ^ 64 :=
  m.length_le.trans_lt (by decide)

/-- Writing the entries of a map into another one that has none of its
identifiers puts them behind the old entries. -/
theorem entries_foldl_modify (f : UInt32 × UInt64 → UInt64 → UInt64) (hf : ∀ e, f e 0 = e.2)
    (entries : Entries) (m : IdMap) (h : ((m.entries ++ entries).map Prod.fst).Nodup) :
    (entries.foldl (fun m e => m.modify e.1 (f e)) m).entries = m.entries ++ entries := by
  induction entries generalizing m with
  | nil => simp
  | cons entry rest ih =>
      have hnew : entry.1 ∉ m.entries.map Prod.fst := by
        rw [List.map_append, List.map_cons] at h
        intro hmem
        exact List.disjoint_of_nodup_append h hmem List.mem_cons_self
      have hentries : (m.modify entry.1 (f entry)).entries = m.entries ++ [entry] := by
        show m.entries.modify entry.1 (f entry) = _
        rw [Entries.modify_of_notMem _ hnew, hf]
      rw [List.foldl_cons, ih _ (by simpa [hentries] using h), hentries, List.append_assoc]
      rfl

theorem foldl_modify_empty (f : UInt32 × UInt64 → UInt64 → UInt64) (hf : ∀ e, f e 0 = e.2)
    (m : IdMap) : m.entries.foldl (fun m e => m.modify e.1 (f e)) empty = m :=
  ext (entries_foldl_modify f hf m.entries empty (by simpa [empty] using m.nodup))

end IdMap

/-! ### Executions -/

structure Execution where
  name : Bytes := []
  trace : Bytes := []
  startTs : UInt64 := 0
  startThread : UInt32 := -1
  endTs : UInt64 := 0
  endThread : UInt32 := -1
  metrics : IdMap := IdMap.empty
  samples : IdMap := IdMap.empty
deriving DecidableEq

namespace Execution

def setMetric (e : Execution) (metricId : UInt32) (value : UInt64) : Execution :=
  { e with metrics := e.metrics.modify metricId fun _ => value }

def incrementSample (e : Execution) (stackId : StackId) (value : UInt64) : Execution :=
  { e with samples := e.samples.modify stackId (· + value) }

theorem foldl_setMetric (entries : Entries) (e : Execution) :
    entries.foldl (fun e entry => e.setMetric entry.1 entry.2) e =
      { e with metrics := entries.foldl (fun m entry => m.modify entry.1 fun _ => entry.2)
                            e.metrics } := by
  induction entries generalizing e with
  | nil => rfl
  | cons entry rest ih => exact ih _

theorem foldl_incrementSample (entries : Entries) (e : Execution) :
    entries.foldl (fun e entry => e.incrementSample entry.1 entry.2) e =
      { e with samples := entries.foldl (fun m entry => m.modify entry.1 (· + entry.2))
                            e.samples } := by
  induction entries generalizing e with
  | nil => rfl
  | cons entry rest ih => exact ih _

end Execution

namespace Db

/-! ### Buffers -/

def writeUInt32 (n : UInt32) : Bytes := toLE 4 n.toNat

def writeUInt64 (n : UInt64) : Bytes := toLE 8 n.toNat

/-- `WriteStringToBuffer`: the size as 32 bits, and the characters. -/
def writeString (s : Bytes) : Bytes := toLE 4 s.length ++ s

/-- The bytes of a `Stack` in memory. -/
def writeStack (stack : Stack) : Bytes := writeUInt32 stack.function ++ writeUInt32 stack.bottom

@[simp] theorem length_writeUInt32 (n : UInt32) : (writeUInt32 n).length = 4 := length_toLE ..

@[simp] theorem length_writeUInt64 (n : UInt64) : (writeUInt64 n).length = 8 := length_toLE ..

@[simp] theorem length_writeStack (stack : Stack) : (writeStack stack).length = 8 := by
  simp [writeStack]

@[simp] theorem writeUInt32_inj {m n : UInt32} : writeUInt32 m = writeUInt32 n ↔ m = n := by
  rw [writeUInt32, writeUInt32, toLE_inj m.toNat_lt n.toNat_lt, UInt32.toNat_inj]

@[simp] theorem writeUInt64_inj {m n : UInt64} : writeUInt64 m = writeUInt64 n ↔ m = n := by
  rw [writeUInt64, writeUInt64, toLE_inj m.toNat_lt n.toNat_lt, UInt64.toNat_inj]

@[simp] theorem writeStack_inj {a b : Stack} : writeStack a = writeStack b ↔ a = b := by
  constructor
  · intro h
    obtain ⟨hfunction, hbottom⟩ := List.append_inj h (by simp)
    cases a
    cases b
    simp_all
  · rintro rfl
    rfl

/-- The size is stored modulo `2 ^ 32`, but the bytes as a whole tell the string. -/
@[simp] theorem writeString_inj {s t : Bytes} : writeString s = writeString t ↔ s = t := by
  constructor
  · intro h
    exact (List.append_inj h (by simp)).2
  · rintro rfl
    rfl

/-- `ReadBuffer` for a value of `w` bytes. -/
def readBuffer (w : ℕ) : Reader ℕ := fun buffer pos =>
  if pos + w > buffer.length then none
  else some (ofLE ((buffer.drop pos).take w), pos + w)

def readUInt32 : Reader UInt32 := do
  let n ← readBuffer 4
  pure (UInt32.ofNat n)

def readUInt64 : Reader UInt64 := do
  let n ← readBuffer 8
  pure (UInt64.ofNat n)

theorem reads_buffer (w n : ℕ) : Reads (readBuffer w) (toLE w n) (n % 256 ^ w) := by
  intro pre post
  have hfits : ¬ (pre ++ toLE w n ++ post).length < pre.length + w := by
    simp only [List.length_append, length_toLE]
    omega
  have htake : ((pre ++ toLE w n ++ post).drop pre.length).take w = toLE w n := by
    rw [List.append_assoc, List.drop_left]
    exact List.take_left' (length_toLE w n)
  rw [readBuffer, if_neg hfits, htake, ofLE_toLE, length_toLE]

theorem reads_uint32 (n : UInt32) : Reads readUInt32 (writeUInt32 n) n := by
  have h := (reads_buffer 4 n.toNat).map UInt32.ofNat
  rwa [Nat.mod_eq_of_lt (show n.toNat < 256 ^ 4 from n.toNat_lt), UInt32.ofNat_toNat] at h

theorem reads_uint64 (n : UInt64) : Reads readUInt64 (writeUInt64 n) n := by
  have h := (reads_buffer 8 n.toNat).map UInt64.ofNat
  rwa [Nat.mod_eq_of_lt (show n.toNat < 256 ^ 8 from n.toNat_lt), UInt64.ofNat_toNat] at h

/-! ### The bytes of an execution -/

def writeExecutionMetadataToBuffer (nameId traceId : UInt32) (e : Execution) : Bytes :=
  writeUInt32 nameId ++ (writeUInt32 traceId ++ (writeUInt64 e.startTs ++
    (writeUInt32 e.startThread ++ (writeUInt64 e.endTs ++ writeUInt32 e.endThread))))

/-- A map, as its size and its entries. -/
def writeEntry (entry : UInt32 × UInt64) : Bytes := writeUInt32 entry.1 ++ writeUInt64 entry.2

def writeExecutionMetricsToBuffer (e : Execution) : Bytes :=
  writeUInt64 (UInt64.ofNat e.metrics.entries.length) ++ e.metrics.entries.flatMap writeEntry

def writeExecutionSamplesToBuffer (e : Execution) : Bytes :=
  writeUInt64 (UInt64.ofNat e.samples.entries.length) ++ e.samples.entries.flatMap writeEntry

def readExecutionMetadataFromBuffer (e : Execution) : Reader (UInt32 × UInt32 × Execution) := do
  let nameId ← readUInt32
  let traceId ← readUInt32
  let startTs ← readUInt64
  let startThread ← readUInt32
  let endTs ← readUInt64
  let endThread ← readUInt32
  pure (nameId, traceId, { e with startTs, startThread, endTs, endThread })

def readExecutionMetricsFromBuffer (e : Execution) : Reader Execution := do
  let metricsSize ← readUInt64
  Reader.iterate (fun e => do
    let metricId ← readUInt32
    let metricValue ← readUInt64
    pure (e.setMetric metricId metricValue)) metricsSize.toNat e

def readExecutionSamplesFromBuffer (e : Execution) : Reader Execution := do
  let samplesSize ← readUInt64
  Reader.iterate (fun e => do
    let stackId ← readUInt32
    let stackValue ← readUInt64
    pure (e.incrementSample stackId stackValue)) samplesSize.toNat e

theorem reads_metadata (nameId traceId : UInt32) (e e' : Execution) :
    Reads (readExecutionMetadataFromBuffer e') (writeExecutionMetadataToBuffer nameId traceId e)
      (nameId, traceId, { e' with
        startTs := e.startTs, startThread := e.startThread,
        endTs := e.endTs, endThread := e.endThread }) :=
  (reads_uint32 _).bind <| (reads_uint32 _).bind <| (reads_uint64 _).bind <|
    (reads_uint32 _).bind <| (reads_uint64 _).bind <| (reads_uint32 _).map _

/-- The loop over the entries of a map, after the size that bounds it. -/
theorem reads_entries (m : IdMap) (set : Execution → UInt32 → UInt64 → Execution)
    (e : Execution) :
    Reads (do
        let size ← readUInt64
        Reader.iterate (fun e => do
          let id ← readUInt32
          let value ← readUInt64
          pure (set e id value)) size.toNat e)
      (writeUInt64 (UInt64.ofNat m.entries.length) ++ m.entries.flatMap writeEntry)
      (m.entries.foldl (fun e entry => set e entry.1 entry.2) e) := by
  refine (reads_uint64 _).bind ?_
  rw [UInt64.toNat_ofNat_of_lt' m.length_lt]
  exact Reads.iterate (fun e entry => (reads_uint32 _).bind ((reads_uint64 _).map _)) _ e

theorem reads_metrics (e e' : Execution) (h : e'.metrics = IdMap.empty) :
    Reads (readExecutionMetricsFromBuffer e') (writeExecutionMetricsToBuffer e)
      { e' with metrics := e.metrics } := by
  have hread := reads_entries e.metrics Execution.setMetric e'
  rwa [Execution.foldl_setMetric, h,
    IdMap.foldl_modify_empty (fun entry _ => entry.2) fun _ => rfl] at hread

theorem reads_samples (e e' : Execution) (h : e'.samples = IdMap.empty) :
    Reads (readExecutionSamplesFromBuffer e') (writeExecutionSamplesToBuffer e)
      { e' with samples := e.samples } := by
  have hread := reads_entries e.samples Execution.incrementSample e'
  rwa [Execution.foldl_incrementSample, h,
    IdMap.foldl_modify_empty (fun entry value => value + entry.2) fun _ => UInt64.zero_add _]
    at hread

end Db

end TibeeCompare
