import Mathlib.Data.List.Basic

/-!
Runs of a partial step function.

A run folds a step `σ → β → Except ε σ` over a list of inputs; it stops at the
first error. An invariant is proved for one step and lifted to runs here, in
three forms: for a property of the state, for a property that also looks at the
inputs consumed so far, and for a property strong enough to exclude errors.
-/

namespace TibeeCompare.Runs

variable {ε α β σ : Type}

theorem bind_eq_ok {x : Except ε α} {f : α → Except ε β} {b : β} :
    x >>= f = .ok b ↔ ∃ a, x = .ok a ∧ f a = .ok b := by
  cases x with
  | error e =>
      constructor
      · intro h
        cases h
      · rintro ⟨a, ha, -⟩
        cases ha
  | ok a =>
      constructor
      · exact fun h => ⟨a, rfl, h⟩
      · rintro ⟨a', ha', h⟩
        cases ha'
        exact h

theorem run_cons_eq_ok {step : σ → β → Except ε σ} {x : β} {xs : List β} {s s' : σ} :
    (x :: xs).foldlM step s = .ok s' ↔
      ∃ mid, step s x = .ok mid ∧ xs.foldlM step mid = .ok s' := by
  rw [List.foldlM_cons, bind_eq_ok]

theorem run_append_eq_ok {step : σ → β → Except ε σ} {xs ys : List β} {s s' : σ} :
    (xs ++ ys).foldlM step s = .ok s' ↔
      ∃ mid, xs.foldlM step s = .ok mid ∧ ys.foldlM step mid = .ok s' := by
  rw [List.foldlM_append, bind_eq_ok]

/-- Two partial steps that have related results or none, one after the other. -/
theorem rel_bind {α' β' : Type} {R : α → α' → Prop} {S : β → β' → Prop} {x : Option α}
    {x' : Option α'} {f : α → Option β} {f' : α' → Option β'} (h : Option.Rel R x x')
    (hnext : ∀ a a', x = some a → R a a' → Option.Rel S (f a) (f' a')) :
    Option.Rel S (x.bind f) (x'.bind f') := by
  cases h with
  | none => exact .none
  | some hrel => exact hnext _ _ rfl hrel

/-- A property of the state and of the inputs consumed so far, kept by every step. -/
theorem run_invariant_of_prefix {step : σ → β → Except ε σ} {P : List β → σ → Prop}
    {xs : List β} {s s' : σ} (hinit : P [] s)
    (hstep : ∀ pre x post mid mid', xs = pre ++ x :: post → P pre mid →
      step mid x = .ok mid' → P (pre ++ [x]) mid')
    (hrun : xs.foldlM step s = .ok s') : P xs s' := by
  suffices H : ∀ pre post mid, xs = pre ++ post → P pre mid → post.foldlM step mid = .ok s' →
      P xs s' from H [] xs s rfl hinit hrun
  intro pre post
  induction post generalizing pre with
  | nil =>
      intro mid hxs hP hrun
      cases hrun
      rwa [hxs, List.append_nil]
  | cons x post ih =>
      intro mid hxs hP hrun
      obtain ⟨mid', hx, hpost⟩ := run_cons_eq_ok.mp hrun
      exact ih (pre ++ [x]) mid' (by simp [hxs]) (hstep pre x post mid mid' hxs hP hx) hpost

/-- A property of the state, kept by every step. -/
theorem run_invariant {step : σ → β → Except ε σ} {P : σ → Prop} {xs : List β} {s s' : σ}
    (hstep : ∀ x ∈ xs, ∀ mid mid', P mid → step mid x = .ok mid' → P mid') (hinit : P s)
    (hrun : xs.foldlM step s = .ok s') : P s' := by
  refine run_invariant_of_prefix (P := fun _ => P) hinit ?_ hrun
  intro pre x post mid mid' hxs hP hx
  exact hstep x (by simp [hxs]) mid mid' hP hx

/-- A property under which no step has an error, kept by every step. -/
theorem run_total {step : σ → β → Except ε σ} {P : σ → Prop} {xs : List β} {s : σ}
    (hstep : ∀ x ∈ xs, ∀ mid, P mid → ∃ mid', step mid x = .ok mid' ∧ P mid') (hinit : P s) :
    ∃ s', xs.foldlM step s = .ok s' ∧ P s' := by
  induction xs generalizing s with
  | nil => exact ⟨s, rfl, hinit⟩
  | cons x xs ih =>
      obtain ⟨mid, hx, hmid⟩ := hstep x List.mem_cons_self s hinit
      obtain ⟨s', hxs, hs'⟩ := ih (fun y hy => hstep y (List.mem_cons_of_mem _ hy)) hmid
      exact ⟨s', run_cons_eq_ok.mpr ⟨mid, hx, hxs⟩, hs'⟩

end TibeeCompare.Runs
