import TibeeCompare.Db.Database
import TibeeCompare.Lib.TracedReaders
import Mathlib.Algebra.BigOperators.Group.List.Basic

/-!
The record of an execution as a whole: what the three writers write one after the other is
what the three readers read, and nothing less of it is.

The sizes of the maps are read from the buffer like everything else. A size that is too
large does no harm, as each round of the loops reads something.
-/

namespace TibeeCompare.Db

open Codecs

/-- The three readers, into an empty execution. -/
def readRecord : Reader (UInt32 × UInt32 × Execution) := do
  let (nameId, traceId, e) ← readExecutionMetadataFromBuffer {}
  let e ← readExecutionMetricsFromBuffer e
  let e ← readExecutionSamplesFromBuffer e
  pure (nameId, traceId, e)

theorem reads_record (nameId traceId : UInt32) (e : Execution) :
    Reads readRecord (writeExecution nameId traceId e)
      (nameId, traceId, { e with name := [], trace := [] }) :=
  (reads_metadata nameId traceId e {}).bind <|
    (reads_metrics e _ rfl).bind <| (reads_samples e _ rfl).map _

/-! ### Single reads -/

theorem local_buffer (w : ℕ) : Local (readBuffer w) where
  le_length := by
    intro buffer pos n pos' hpos h
    rw [readBuffer] at h
    split at h
    · cases h
    · cases h
      omega
  append := by
    intro buffer pos n pos' post hpos h
    rw [readBuffer] at h ⊢
    split at h
    · cases h
    · next hfits =>
        cases h
        have hfits' : ¬ pos + w > (buffer ++ post).length := by
          rw [List.length_append]
          omega
        have htake : ((buffer ++ post).drop pos).take w = (buffer.drop pos).take w := by
          rw [List.drop_append_of_le_length hpos, List.take_append_of_le_length]
          rw [List.length_drop]
          omega
        rw [if_neg hfits', htake]

/-- `ReadBuffer` compares the end of the read with the size of the buffer, and reads only then. -/
theorem staysInside_buffer {w : ℕ} (hw : 0 < w) : StaysInside (trace w (readBuffer w)) := by
  intro buffer pos hpos
  by_cases hfits : buffer.length < pos + w
  · have hnone : readBuffer w buffer pos = none := if_pos hfits
    refine ⟨[], by simp, hpos, Or.inr ⟨w, ?_, hfits⟩⟩
    rw [trace, hnone, List.nil_append]
  · have hsome : readBuffer w buffer pos = some (ofLE ((buffer.drop pos).take w), pos + w) :=
      if_neg hfits
    refine ⟨[w], by simpa using hw, by simpa using hfits,
      Or.inl ⟨ofLE ((buffer.drop pos).take w), ?_⟩⟩
    rw [trace, hsome, List.sum_singleton]

/-! ### The reads of the readers -/

def traceUInt32 : TracedReader UInt32 := do
  let n ← trace 4 (readBuffer 4)
  pure (UInt32.ofNat n)

def traceUInt64 : TracedReader UInt64 := do
  let n ← trace 8 (readBuffer 8)
  pure (UInt64.ofNat n)

def traceExecutionMetadata (e : Execution) : TracedReader (UInt32 × UInt32 × Execution) := do
  let nameId ← traceUInt32
  let traceId ← traceUInt32
  let startTs ← traceUInt64
  let startThread ← traceUInt32
  let endTs ← traceUInt64
  let endThread ← traceUInt32
  pure (nameId, traceId, { e with startTs, startThread, endTs, endThread })

/-- The reads of `readExecutionMetricsFromBuffer` and of `readExecutionSamplesFromBuffer`. -/
def traceEntries (set : Execution → UInt32 → UInt64 → Execution) (e : Execution) :
    TracedReader Execution := do
  let size ← traceUInt64
  TracedReader.iterate (fun e => do
    let id ← traceUInt32
    let value ← traceUInt64
    pure (set e id value)) size.toNat e

def traceRecord : TracedReader (UInt32 × UInt32 × Execution) := do
  let (nameId, traceId, e) ← traceExecutionMetadata {}
  let e ← traceEntries Execution.setMetric e
  let e ← traceEntries Execution.incrementSample e
  pure (nameId, traceId, e)

theorem follows_uint32 : Follows readBuffer traceUInt32 readUInt32 :=
  (Follows.read (Nat.zero_lt_succ 3)).bind fun _ => Follows.pure _

theorem follows_uint64 : Follows readBuffer traceUInt64 readUInt64 :=
  (Follows.read (Nat.zero_lt_succ 7)).bind fun _ => Follows.pure _

theorem follows_metadata (e : Execution) :
    Follows readBuffer (traceExecutionMetadata e) (readExecutionMetadataFromBuffer e) :=
  follows_uint32.bind fun _ => follows_uint32.bind fun _ => follows_uint64.bind fun _ =>
    follows_uint32.bind fun _ => follows_uint64.bind fun _ => follows_uint32.bind fun _ =>
      Follows.pure _

/-- The loop over the entries of a map, whatever its size is. -/
theorem follows_entries (set : Execution → UInt32 → UInt64 → Execution) (e : Execution) :
    Follows readBuffer (traceEntries set e) (do
      let size ← readUInt64
      Reader.iterate (fun e => do
        let id ← readUInt32
        let value ← readUInt64
        pure (set e id value)) size.toNat e) :=
  follows_uint64.bind fun _ => Follows.iterate
    (fun _ => follows_uint32.bind fun _ => follows_uint64.bind fun _ => Follows.pure _) _ e

theorem follows_metrics (e : Execution) :
    Follows readBuffer (traceEntries Execution.setMetric e) (readExecutionMetricsFromBuffer e) :=
  follows_entries _ e

theorem follows_samples (e : Execution) :
    Follows readBuffer (traceEntries Execution.incrementSample e)
      (readExecutionSamplesFromBuffer e) :=
  follows_entries _ e

theorem follows_record : Follows readBuffer traceRecord readRecord :=
  (follows_metadata {}).bind fun (_, _, e) => (follows_metrics e).bind fun e =>
    (follows_samples e).bind fun _ => Follows.pure _

/-! ### All buffers -/

/-- `t` is `r` with its reads. From any position in any buffer, it makes at most one read for
each byte that is left, each of them in the buffer, and then it ends, or asks for one more read
that would go past the end, and fails. -/
structure StopsInside {α : Type} (t : TracedReader α) (r : Reader α) : Prop where
  follows : Follows readBuffer t r
  stops : ∀ buffer pos, pos ≤ buffer.length → ∃ done : List ℕ,
    done.length ≤ buffer.length - pos ∧ (∀ n, pos + (done.take n).sum ≤ buffer.length) ∧
      ((∃ a, r buffer pos = some (a, pos + done.sum)) ∧ (t buffer pos).2 = done ∨
        ∃ w, r buffer pos = none ∧ (t buffer pos).2 = done ++ [w] ∧
          buffer.length < pos + done.sum + w)

theorem stopsInside {α : Type} {t : TracedReader α} {r : Reader α}
    (h : Follows readBuffer t r) : StopsInside t r := by
  refine ⟨h, fun buffer pos hpos => ?_⟩
  obtain ⟨done, hpositive, hinside, hresult⟩ := h.staysInside staysInside_buffer buffer pos hpos
  refine ⟨done, ?_, ?_, ?_⟩
  · have hlength := done.length_le_sum_of_one_le hpositive
    omega
  · intro n
    have hsplit : (done.take n).sum + (done.drop n).sum = done.sum := by
      rw [← List.sum_append, List.take_append_drop]
    omega
  · rw [← h.traces buffer pos]
    rcases hresult with ⟨a, ht⟩ | ⟨w, ht, hrefused⟩
    · rw [ht]
      exact Or.inl ⟨⟨a, rfl⟩, rfl⟩
    · rw [ht]
      exact Or.inr ⟨w, rfl, rfl, hrefused⟩

/-- What is written is read back and ends at the end of the buffer, a record that is cut off is
refused, and the readers stop inside of any buffer. -/
theorem record_codec :
    (∀ nameId traceId e,
      readRecord (writeExecution nameId traceId e) 0 =
          some ((nameId, traceId, { e with name := [], trace := [] }),
            (writeExecution nameId traceId e).length) ∧
        ∀ cut, cut <+: writeExecution nameId traceId e → cut ≠ writeExecution nameId traceId e →
          readRecord cut 0 = none) ∧
      StopsInside traceRecord readRecord ∧
      ∀ e, StopsInside (traceExecutionMetadata e) (readExecutionMetadataFromBuffer e) ∧
        StopsInside (traceEntries Execution.setMetric e) (readExecutionMetricsFromBuffer e) ∧
        StopsInside (traceEntries Execution.incrementSample e)
          (readExecutionSamplesFromBuffer e) := by
  refine ⟨?_, stopsInside follows_record, ?_⟩
  · intro nameId traceId e
    have hreads := reads_record nameId traceId e
    refine ⟨?_, ?_⟩
    · have hwhole := hreads [] []
      rwa [List.nil_append, List.append_nil, List.length_nil, Nat.zero_add] at hwhole
    · intro cut hcut hne
      exact hreads.eq_none_of_prefix (follows_record.isLocal local_buffer) hcut hne
  · intro e
    exact ⟨stopsInside (follows_metadata e), stopsInside (follows_metrics e),
      stopsInside (follows_samples e)⟩

/-- A size of 2 ^ 64 - 1 in front of one entry: three reads, and a fourth one that is refused. -/
example : (traceEntries Execution.setMetric {}
    (writeUInt64 (-1) ++ writeEntry (3, 5)) 0).2 = [8, 4, 8, 4] := by decide +kernel

end TibeeCompare.Db
