import TibeeCompare.Lib.Ghosts
import Mathlib.Algebra.BigOperators.Group.List.Basic
import Mathlib.Algebra.GroupWithZero.Nat
import Mathlib.Algebra.Order.Group.Nat

/-!
Code that adds to a total.

How much code adds is a number that is known before it runs. If it throws, it may have added less;
whether it adds all of it when it returns may depend on a condition, which is the same for all
code that runs. The total stays below a limit, for example where it would wrap around. What else
is kept of the state does not change.
-/

namespace TibeeCompare.Budgets

open Ghosts

variable {ε σ κ α β : Type} {total : σ → ℕ} {kept : σ → κ} {limit : ℕ} {full : Prop}

/-- With room for `n` below the limit, the code keeps to the limit, and to what is `kept`; if it
returns, something with `post`, then it adds `n` at most, and all of it if `full`. -/
def Spends (total : σ → ℕ) (kept : σ → κ) (limit : ℕ) (full : Prop) (n : ℕ)
    (x : ExceptT ε (StateM σ) α) (post : α → Prop) : Prop :=
  ∀ k g, g + n ≤ limit →
    Gives (fun g s => total s = g ∧ kept s = k) (· ≤ ·) (fun _ g' => g' ≤ limit) x g
      fun a g' => g' ≤ g + n ∧ (full → g' = g + n) ∧ post a

namespace Spends

variable {n m : ℕ} {x : ExceptT ε (StateM σ) α} {post : α → Prop}

/-- The total after the code has run, with just enough room for it. -/
theorem total_le {s : σ} (h : Spends total kept (total s + n) full n x post) :
    total (x.run.run s).2 ≤ total s + n ∧ kept (x.run.run s).2 = kept s ∧
      ∀ a, (x.run.run s).1 = .ok a →
        post a ∧ (full → total (x.run.run s).2 = total s + n) := by
  obtain ⟨g', -, ⟨haccounts, hkept⟩, hreturns, hthrows⟩ := h _ _ le_rfl s ⟨rfl, rfl⟩
  rw [haccounts]
  refine ⟨?_, hkept, fun a ha => (hreturns a ha).2.symm⟩
  -- the limit leaves room for `n` only, so that it also bounds what was added before a throw
  cases hresult : (x.run.run s).1 with
  | ok a => exact (hreturns a hresult).1
  | error e => exact hthrows e hresult

theorem of_unchanged (h : ∀ s, total (x.run.run s).2 = total s)
    (hkept : ∀ s, kept (x.run.run s).2 = kept s)
    (hpost : ∀ s a, (x.run.run s).1 = .ok a → post a) : Spends total kept limit full 0 x post := by
  intro k g hg s ⟨hs, hk⟩
  exact ⟨g, le_refl g, ⟨(h s).trans hs, (hkept s).trans hk⟩,
    fun a ha => ⟨le_rfl, fun _ => rfl, hpost s a ha⟩, fun _ _ => hg⟩

theorem pure {a : α} (h : post a) :
    Spends total kept limit full 0 (Pure.pure a : ExceptT ε (StateM σ) α) post :=
  fun _ _ _ => Gives.pure ⟨le_rfl, fun _ => rfl, h⟩

theorem throw (e : ε) :
    Spends total kept limit full n (MonadExcept.throw e : ExceptT ε (StateM σ) α) post := by
  intro k g hg
  exact Gives.throw ((Nat.le_add_right g n).trans hg)

/-- A greater number does as well, if it is the same where it matters. -/
theorem widen (h : Spends total kept limit full n x post) (hle : n ≤ m) (heq : full → n = m) :
    Spends total kept limit full m x post := by
  intro k g hg
  refine (h k g (by omega)).mono fun a g' _ ⟨hle', hfull, ha⟩ => ⟨by omega, fun hall => ?_, ha⟩
  rw [hfull hall, heq hall]

theorem bind (h : Spends total kept limit full n x post) {next : α → ExceptT ε (StateM σ) β}
    {post' : β → Prop} (hnext : ∀ a, post a → Spends total kept limit full m (next a) post') :
    Spends total kept limit full (n + m) (x >>= next) post' := by
  intro k g hg
  refine (h k g (by omega)).bind fun a g' _ ⟨hle, hfull, ha⟩ => ?_
  refine (hnext a ha k g' (by omega)).mono fun b g'' _ ⟨hle', hfull', hb⟩ =>
    ⟨by omega, fun hall => ?_, hb⟩
  have hfirst := hfull hall
  have hrest := hfull' hall
  omega

/-- First something that adds nothing. -/
theorem seq (h : Spends total kept limit full 0 x post) {next : α → ExceptT ε (StateM σ) β}
    {post' : β → Prop} (hnext : ∀ a, post a → Spends total kept limit full n (next a) post') :
    Spends total kept limit full n (x >>= next) post' := by
  have hboth := h.bind hnext
  rwa [Nat.zero_add] at hboth

/-- Last something that adds nothing. -/
theorem andThen (h : Spends total kept limit full n x post) {next : α → ExceptT ε (StateM σ) β}
    {post' : β → Prop} (hnext : ∀ a, post a → Spends total kept limit full 0 (next a) post') :
    Spends total kept limit full n (x >>= next) post' := h.bind hnext

/-- A loop adds what its rounds add. The invariant may speak of the rounds that are left. -/
theorem foldlM (inv : β → List α → Prop) {as : List α} {charge : α → ℕ}
    {f : β → α → ExceptT ε (StateM σ) β} (h : ∀ a ∈ as, ∀ rest b, inv b (a :: rest) →
      Spends total kept limit full (charge a) (f b a) (inv · rest)) {b : β} (hb : inv b as) :
    Spends total kept limit full (as.map charge).sum (as.foldlM f b) (inv · []) := by
  induction as generalizing b with
  | nil => exact pure hb
  | cons a as ih =>
      rw [List.foldlM_cons, List.map_cons, List.sum_cons]
      apply (h a List.mem_cons_self as b hb).bind
      intro b' hb'
      exact ih (fun a' ha' => h a' (List.mem_cons_of_mem _ ha')) hb'

theorem forM {as : List α} {charge : α → ℕ} {f : α → ExceptT ε (StateM σ) PUnit}
    (h : ∀ a ∈ as, Spends total kept limit full (charge a) (f a) fun _ => True) :
    Spends total kept limit full (as.map charge).sum (as.forM f) fun _ => True := by
  induction as with
  | nil => exact pure trivial
  | cons a as ih =>
      rw [List.map_cons, List.sum_cons]
      exact (h a List.mem_cons_self).bind fun _ _ =>
        ih fun a' ha' => h a' (List.mem_cons_of_mem _ ha')

end Spends

end TibeeCompare.Budgets
