import Mathlib.Tactic.Ring

/-!
Fixed-width little-endian numbers, and readers that walk through a buffer.

A reader takes a buffer and a position and returns a value and the position
behind it. `Reads r bytes a` says that `r`, wherever it meets `bytes`, returns
`a` and stops right behind them; readers that are put one after the other read
the concatenation of what they read.
-/

namespace TibeeCompare.Codecs

/-! ### Little-endian numbers -/

/-- The low `w` bytes of `n`, least significant first. -/
def toLE : ℕ → ℕ → List UInt8
  | 0, _ => []
  | w + 1, n => UInt8.ofNat n :: toLE w (n / 256)

/-- The number with the given bytes, least significant first. -/
def ofLE : List UInt8 → ℕ
  | [] => 0
  | b :: bytes => b.toNat + 256 * ofLE bytes

@[simp] theorem length_toLE (w n : ℕ) : (toLE w n).length = w := by
  induction w generalizing n with
  | zero => rfl
  | succ w ih => simp [toLE, ih]

theorem ofLE_toLE (w n : ℕ) : ofLE (toLE w n) = n % 256 ^ w := by
  induction w generalizing n with
  | zero => simp [toLE, ofLE, Nat.mod_one]
  | succ w ih =>
      have hbyte : (UInt8.ofNat n).toNat = n % 256 := UInt8.toNat_ofNat'
      rw [toLE, ofLE, hbyte, ih, pow_succ', Nat.mod_mul]

theorem ofLE_toLE_of_lt {w n : ℕ} (h : n < 256 ^ w) : ofLE (toLE w n) = n := by
  rw [ofLE_toLE, Nat.mod_eq_of_lt h]

theorem toLE_inj {w m n : ℕ} (hm : m < 256 ^ w) (hn : n < 256 ^ w) :
    toLE w m = toLE w n ↔ m = n := by
  constructor
  · intro h
    rw [← ofLE_toLE_of_lt hm, h, ofLE_toLE_of_lt hn]
  · rintro rfl
    rfl

/-! ### Readers -/

/-- Reads a value of a buffer at a position, and moves the position. -/
abbrev Reader (α : Type) := List UInt8 → ℕ → Option (α × ℕ)

variable {α β : Type}

namespace Reader

def pure (a : α) : Reader α := fun _ pos => some (a, pos)

/-- The first reader, then the one that its value selects. -/
def bind (r : Reader α) (next : α → Reader β) : Reader β := fun buffer pos =>
  match r buffer pos with
  | none => none
  | some (a, pos') => next a buffer pos'

instance : Monad Reader where
  pure := pure
  bind := bind

/-- `r` run once for each round, with the value of the round before. -/
def iterate (r : α → Reader α) : ℕ → α → Reader α
  | 0, a => pure a
  | rounds + 1, a => bind (r a) (iterate r rounds)

end Reader

/-- Wherever `r` meets `bytes` it returns `a`, and stops right behind them. -/
def Reads (r : Reader α) (bytes : List UInt8) (a : α) : Prop :=
  ∀ pre post, r (pre ++ bytes ++ post) pre.length = some (a, pre.length + bytes.length)

theorem Reads.pure (a : α) : Reads (Pure.pure a : Reader α) [] a := fun _ _ => rfl

theorem Reads.bind {r : Reader α} {next : α → Reader β} {bytes bytes' : List UInt8} {a : α}
    {b : β} (h : Reads r bytes a) (h' : Reads (next a) bytes' b) :
    Reads (r >>= next) (bytes ++ bytes') b := by
  intro pre post
  have hfirst := h pre (bytes' ++ post)
  have hsecond := h' (pre ++ bytes) post
  show (match r (pre ++ (bytes ++ bytes') ++ post) pre.length with
    | none => none
    | some (a, pos') => next a (pre ++ (bytes ++ bytes') ++ post) pos') = _
  simp only [List.append_assoc, List.length_append, Nat.add_assoc] at hfirst hsecond ⊢
  rw [hfirst]
  exact hsecond

theorem Reads.map {r : Reader α} {bytes : List UInt8} {a : α} (h : Reads r bytes a) (f : α → β) :
    Reads (r >>= fun a => Pure.pure (f a)) bytes (f a) := by
  have hbind : Reads (r >>= fun a => Pure.pure (f a)) (bytes ++ []) (f a) :=
    Reads.bind h (Reads.pure (f a))
  rwa [List.append_nil] at hbind

/-- A loop reads the records of `items` one after the other, if each of its
rounds reads one. -/
theorem Reads.iterate {r : α → Reader α} {bytes : β → List UInt8} {next : α → β → α}
    (h : ∀ a item, Reads (r a) (bytes item) (next a item)) :
    ∀ (items : List β) (a : α),
      Reads (Reader.iterate r items.length a) (items.flatMap bytes) (items.foldl next a)
  | [], a => Reads.pure a
  | item :: items, a => (h a item).bind (Reads.iterate h items (next a item))

/-! ### Truncated buffers -/

theorem Reader.bind_eq_some {r : Reader α} {next : α → Reader β} {buffer : List UInt8} {pos : ℕ}
    {result : β × ℕ} (h : (r >>= next) buffer pos = some result) :
    ∃ a mid, r buffer pos = some (a, mid) ∧ next a buffer mid = some result := by
  change (match r buffer pos with
    | none => none
    | some (a, mid) => next a buffer mid) = some result at h
  cases hfirst : r buffer pos with
  | none =>
      rw [hfirst] at h
      cases h
  | some first =>
      rw [hfirst] at h
      exact ⟨first.1, first.2, rfl, h⟩

theorem Reader.bind_of_eq_some {r : Reader α} (next : α → Reader β) {buffer : List UInt8}
    {pos mid : ℕ} {a : α} (h : r buffer pos = some (a, mid)) :
    (r >>= next) buffer pos = next a buffer mid := by
  change (match r buffer pos with
    | none => none
    | some (a, mid) => next a buffer mid) = _
  rw [h]

/-- What `r` reads is in the buffer, and bytes behind the buffer make no difference. -/
structure Local (r : Reader α) : Prop where
  le_length : ∀ {buffer pos a pos'}, pos ≤ buffer.length → r buffer pos = some (a, pos') →
    pos' ≤ buffer.length
  append : ∀ {buffer pos a pos'} (post), pos ≤ buffer.length → r buffer pos = some (a, pos') →
    r (buffer ++ post) pos = some (a, pos')

namespace Local

theorem pure (a : α) : Local (Pure.pure a : Reader α) where
  le_length := by
    intro buffer pos a' pos' hpos h
    cases h
    exact hpos
  append := by
    intro buffer pos a' pos' post hpos h
    exact h

theorem bind {r : Reader α} {next : α → Reader β} (h : Local r) (h' : ∀ a, Local (next a)) :
    Local (r >>= next) where
  le_length := by
    intro buffer pos b pos' hpos hread
    obtain ⟨a, mid, hfirst, hsecond⟩ := Reader.bind_eq_some hread
    exact (h' a).le_length (h.le_length hpos hfirst) hsecond
  append := by
    intro buffer pos b pos' post hpos hread
    obtain ⟨a, mid, hfirst, hsecond⟩ := Reader.bind_eq_some hread
    rw [Reader.bind_of_eq_some next (h.append post hpos hfirst)]
    exact (h' a).append post (h.le_length hpos hfirst) hsecond

theorem iterate {r : α → Reader α} (h : ∀ a, Local (r a)) (rounds : ℕ) (a : α) :
    Local (Reader.iterate r rounds a) := by
  induction rounds generalizing a with
  | zero => exact pure a
  | succ rounds ih => exact (h a).bind ih

end Local

/-- A reader that reads all of some bytes fails on what is left of them when they are cut off. -/
theorem Reads.eq_none_of_prefix {r : Reader α} {bytes cut : List UInt8} {a : α}
    (h : Reads r bytes a) (hlocal : Local r) (hcut : cut <+: bytes) (hne : cut ≠ bytes) :
    r cut 0 = none := by
  cases hread : r cut 0 with
  | none => rfl
  | some result =>
      obtain ⟨b, pos⟩ := result
      obtain ⟨post, rfl⟩ := hcut
      have hpos : pos ≤ cut.length := hlocal.le_length (Nat.zero_le _) hread
      have hwhole := hlocal.append post (Nat.zero_le _) hread
      have hreads := h [] []
      rw [List.nil_append, List.append_nil] at hreads
      rw [show r (cut ++ post) 0 = _ from hreads] at hwhole
      have hlength : 0 + (cut ++ post).length = pos := congrArg Prod.snd (Option.some.inj hwhole)
      rw [List.length_append] at hlength
      have hpost : post = [] := List.length_eq_zero_iff.mp (by omega)
      rw [hpost, List.append_nil] at hne
      exact absurd rfl hne

end TibeeCompare.Codecs
