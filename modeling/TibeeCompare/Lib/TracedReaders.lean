import TibeeCompare.Lib.Codecs

/-!
The reads that a reader makes.

A traced reader returns the widths of the reads that it asks for beside its value, so that
one can tell how many there are and where in the buffer. `Follows` says that a traced reader
is put together in the same way as a reader, and what holds of single reads holds of both.
-/

namespace TibeeCompare.Codecs

variable {α β : Type}

/-- A reader that tells the widths of the reads that it asks for, in their order. -/
abbrev TracedReader (α : Type) := List UInt8 → ℕ → Option (α × ℕ) × List ℕ

namespace TracedReader

def pure (a : α) : TracedReader α := fun _ pos => (some (a, pos), [])

def bind (t : TracedReader α) (next : α → TracedReader β) : TracedReader β := fun buffer pos =>
  match t buffer pos with
  | (none, asked) => (none, asked)
  | (some (a, mid), asked) =>
      let (result, asked') := next a buffer mid
      (result, asked ++ asked')

instance : Monad TracedReader where
  pure := pure
  bind := bind

/-- `t` run once for each round, as `Reader.iterate` does it. -/
def iterate (t : α → TracedReader α) : ℕ → α → TracedReader α
  | 0, a => pure a
  | rounds + 1, a => bind (t a) (iterate t rounds)

end TracedReader

/-- `t` is `r` with its reads. -/
def Traces (t : TracedReader α) (r : Reader α) : Prop :=
  ∀ buffer pos, (t buffer pos).1 = r buffer pos

namespace Traces

theorem pure (a : α) : Traces (Pure.pure a) (Pure.pure a : Reader α) := fun _ _ => rfl

theorem bind {t : TracedReader α} {next : α → TracedReader β} {r : Reader α}
    {next' : α → Reader β} (h : Traces t r) (h' : ∀ a, Traces (next a) (next' a)) :
    Traces (t >>= next) (r >>= next') := by
  intro buffer pos
  change (TracedReader.bind t next buffer pos).1 = Reader.bind r next' buffer pos
  rw [TracedReader.bind, Reader.bind, ← h buffer pos]
  rcases t buffer pos with ⟨_ | ⟨a, mid⟩, asked⟩
  · rfl
  · exact h' a buffer mid

theorem iterate {t : α → TracedReader α} {r : α → Reader α} (h : ∀ a, Traces (t a) (r a))
    (rounds : ℕ) (a : α) :
    Traces (TracedReader.iterate t rounds a) (Reader.iterate r rounds a) := by
  induction rounds generalizing a with
  | zero => exact pure a
  | succ rounds ih => exact (h a).bind ih

end Traces

/-- The reads of `t` are one behind the other from `pos` on, none of them empty and all of them
in the buffer; but a read that would go past the end is refused, and is the last one. -/
def StaysInside (t : TracedReader α) : Prop :=
  ∀ buffer pos, pos ≤ buffer.length → ∃ done : List ℕ,
    (∀ w ∈ done, 0 < w) ∧ pos + done.sum ≤ buffer.length ∧
      ((∃ a, t buffer pos = (some (a, pos + done.sum), done)) ∨
        ∃ w, t buffer pos = (none, done ++ [w]) ∧ buffer.length < pos + done.sum + w)

namespace StaysInside

theorem pure (a : α) : StaysInside (Pure.pure a : TracedReader α) := by
  intro buffer pos hpos
  exact ⟨[], by simp, hpos, Or.inl ⟨a, rfl⟩⟩

theorem bind {t : TracedReader α} {next : α → TracedReader β} (h : StaysInside t)
    (h' : ∀ a, StaysInside (next a)) : StaysInside (t >>= next) := by
  intro buffer pos hpos
  obtain ⟨done, hpositive, hinside, hresult⟩ := h buffer pos hpos
  have hbind : (t >>= next) buffer pos = TracedReader.bind t next buffer pos := rfl
  rw [hbind, TracedReader.bind]
  rcases hresult with ⟨a, hfirst⟩ | ⟨w, hfirst, hrefused⟩
  · rw [hfirst]
    obtain ⟨done', hpositive', hinside', hresult'⟩ := h' a buffer _ hinside
    refine ⟨done ++ done', ?_, ?_, ?_⟩
    · intro w hw
      exact (List.mem_append.mp hw).elim (hpositive w) (hpositive' w)
    · rwa [List.sum_append, ← Nat.add_assoc]
    · rw [List.sum_append, ← Nat.add_assoc]
      rcases hresult' with ⟨b, hsecond⟩ | ⟨w, hsecond, hrefused⟩
      · exact Or.inl ⟨b, by simp only [hsecond]⟩
      · exact Or.inr ⟨w, by simp only [hsecond, List.append_assoc], hrefused⟩
  · rw [hfirst]
    exact ⟨done, hpositive, hinside, Or.inr ⟨w, rfl, hrefused⟩⟩

theorem iterate {t : α → TracedReader α} (h : ∀ a, StaysInside (t a)) (rounds : ℕ) (a : α) :
    StaysInside (TracedReader.iterate t rounds a) := by
  induction rounds generalizing a with
  | zero => exact pure a
  | succ rounds ih => exact (h a).bind ih

end StaysInside

/-! ### Readers that are put together from reads -/

/-- A reader with the width that it asks for. -/
def trace (w : ℕ) (r : Reader α) : TracedReader α := fun buffer pos => (r buffer pos, [w])

/-- `t` and `r` are put together in the same way, from reads `read w` of `w` bytes. -/
inductive Follows (read : ℕ → Reader ℕ) : ∀ {α : Type}, TracedReader α → Reader α → Prop
  | read {w : ℕ} (hw : 0 < w) : Follows read (trace w (read w)) (read w)
  | pure {α : Type} (a : α) : Follows read (Pure.pure a : TracedReader α) (Pure.pure a)
  | bind {α β : Type} {t : TracedReader α} {r : Reader α} {next : α → TracedReader β}
      {next' : α → Reader β} (h : Follows read t r) (h' : ∀ a, Follows read (next a) (next' a)) :
      Follows read (t >>= next) (r >>= next')
  | iterate {α : Type} {t : α → TracedReader α} {r : α → Reader α}
      (h : ∀ a, Follows read (t a) (r a)) (rounds : ℕ) (a : α) :
      Follows read (TracedReader.iterate t rounds a) (Reader.iterate r rounds a)

namespace Follows

variable {read : ℕ → Reader ℕ} {t : TracedReader α} {r : Reader α}

theorem traces (h : Follows read t r) : Traces t r := by
  induction h with
  | read _ => exact fun _ _ => rfl
  | pure a => exact Traces.pure a
  | bind _ _ ih ih' => exact ih.bind ih'
  | iterate _ rounds a ih => exact Traces.iterate ih rounds a

theorem isLocal (h : Follows read t r) (hread : ∀ w, Local (read w)) : Local r := by
  induction h with
  | read _ => exact hread _
  | pure a => exact Local.pure a
  | bind _ _ ih ih' => exact ih.bind ih'
  | iterate _ rounds a ih => exact Local.iterate ih rounds a

theorem staysInside (h : Follows read t r)
    (hread : ∀ {w}, 0 < w → StaysInside (trace w (read w))) : StaysInside t := by
  induction h with
  | read hw => exact hread hw
  | pure a => exact StaysInside.pure a
  | bind _ _ ih ih' => exact ih.bind ih'
  | iterate _ rounds a ih => exact StaysInside.iterate ih rounds a

end Follows

end TibeeCompare.Codecs
