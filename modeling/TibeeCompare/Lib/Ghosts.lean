import Mathlib.Order.Defs.Unbundled

/-!
Ghosts of code with a state.

The code may throw and then leaves what it did until then. A ghost accounts for its state, and
may grow while it runs: `leads` says into what. `fails` says which errors it may throw next to
which ghost. A rule for each form of code says what it returns, next to a ghost that accounts for
the state in which it ends.
-/

namespace TibeeCompare.Ghosts

variable {ε σ γ α β : Type} {accounts : γ → σ → Prop} {leads : γ → γ → Prop} {fails : ε → γ → Prop}

/-- From a state that `g` accounts for, the code ends in one that a ghost accounts for into which
`g` leads, and there it returns something with `q`, or throws something with `fails`. -/
def Gives (accounts : γ → σ → Prop) (leads : γ → γ → Prop) (fails : ε → γ → Prop)
    (x : ExceptT ε (StateM σ) α) (g : γ) (q : α → γ → Prop) : Prop :=
  ∀ s, accounts g s → ∃ g', leads g g' ∧ accounts g' (x.run.run s).2 ∧
    (∀ a, (x.run.run s).1 = .ok a → q a g') ∧ ∀ e, (x.run.run s).1 = .error e → fails e g'

namespace Gives

variable {g : γ} {x : ExceptT ε (StateM σ) α} {q : α → γ → Prop}

theorem mono (h : Gives accounts leads fails x g q) {q' : α → γ → Prop}
    (hq : ∀ a g', leads g g' → q a g' → q' a g') : Gives accounts leads fails x g q' := by
  intro s hs
  obtain ⟨g', hleads, haccounts, hreturns, hthrows⟩ := h s hs
  exact ⟨g', hleads, haccounts, fun a ha => hq a g' hleads (hreturns a ha), hthrows⟩

/-- What the ghost accounts for may be used. -/
theorem of_accounts (h : ∀ s, accounts g s → Gives accounts leads fails x g q) :
    Gives accounts leads fails x g q := fun s hs => h s hs s hs

section Rules

variable [Std.Refl leads]

theorem pure {a : α} (hq : q a g) :
    Gives accounts leads fails (Pure.pure a : ExceptT ε (StateM σ) α) g q := by
  intro s hs
  refine ⟨g, refl_of leads g, hs, ?_, ?_⟩
  · rintro _ ⟨⟩
    exact hq
  · rintro _ ⟨⟩

theorem throw {e : ε} (he : fails e g) :
    Gives accounts leads fails (throw e : ExceptT ε (StateM σ) α) g q := by
  intro s hs
  refine ⟨g, refl_of leads g, hs, ?_, ?_⟩
  · rintro _ ⟨⟩
  · rintro _ ⟨⟩
    exact he

/-- A change that the ghost accounts for as well. -/
theorem modify {f : σ → σ} (hf : ∀ s, accounts g s → accounts g (f s)) :
    Gives accounts leads fails (modify f : ExceptT ε (StateM σ) PUnit) g fun _ _ => True := by
  intro s hs
  refine ⟨g, refl_of leads g, hf s hs, fun _ _ => trivial, ?_⟩
  rintro _ ⟨⟩

end Rules

section Runs

variable [IsTrans γ leads]

theorem bind (h : Gives accounts leads fails x g q) {f : α → ExceptT ε (StateM σ) β}
    {r : β → γ → Prop}
    (hf : ∀ a g', leads g g' → q a g' → Gives accounts leads fails (f a) g' r) :
    Gives accounts leads fails (x >>= f) g r := by
  intro s hs
  obtain ⟨g', hleads, haccounts, hreturns, hthrows⟩ := h s hs
  rw [ExceptT.run_bind, StateT.run_bind]
  generalize x.run.run s = ran at haccounts hreturns hthrows
  obtain ⟨result, s'⟩ := ran
  cases result with
  | error e =>
      refine ⟨g', hleads, haccounts, ?_, ?_⟩
      · rintro _ ⟨⟩
      · rintro _ ⟨⟩
        exact hthrows e rfl
  | ok a =>
      obtain ⟨g'', hleads', haccounts', hreturns', hthrows'⟩ :=
        hf a g' hleads (hreturns a rfl) s' haccounts
      exact ⟨g'', trans_of leads hleads hleads', haccounts', hreturns', hthrows'⟩

variable [Std.Refl leads]

theorem foldlM {f : β → α → ExceptT ε (StateM σ) β} {inv : β → γ → Prop} {as : List α}
    (hf : ∀ a ∈ as, ∀ b g', leads g g' → inv b g' → Gives accounts leads fails (f b a) g' inv)
    {b : β} (hb : inv b g) : Gives accounts leads fails (as.foldlM f b) g inv := by
  induction as generalizing g b with
  | nil => exact pure hb
  | cons a as ih =>
      rw [List.foldlM_cons]
      refine (hf a List.mem_cons_self b g (refl_of leads g) hb).bind fun b' g' hleads hb' => ?_
      apply ih ?_ hb'
      intro a' ha' b'' g'' hleads' hb''
      exact hf a' (List.mem_cons_of_mem _ ha') b'' g'' (trans_of leads hleads hleads') hb''

theorem forM {f : α → ExceptT ε (StateM σ) PUnit} {as : List α}
    (hf : ∀ a ∈ as, ∀ g', leads g g' →
      Gives accounts leads fails (f a) g' fun _ _ => True) :
    Gives accounts leads fails (as.forM f) g fun _ _ => True := by
  induction as generalizing g with
  | nil => exact pure trivial
  | cons a as ih =>
      show Gives accounts leads fails (f a >>= fun _ => as.forM f) g _
      refine (hf a List.mem_cons_self g (refl_of leads g)).bind fun _ g' hleads _ => ?_
      exact ih fun a' ha' g'' hleads' =>
        hf a' (List.mem_cons_of_mem _ ha') g'' (trans_of leads hleads hleads')

end Runs

end Gives

end TibeeCompare.Ghosts
