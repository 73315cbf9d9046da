import Mathlib.Data.Fintype.Card
import Mathlib.Data.Set.Finite.Lattice
import Mathlib.Logic.Relation

/-!
Cycles of a relation.

A quantity that no step increases is constant along a cycle, and a quantity that
every step decreases, unless a property holds where the step ends, makes the
property hold somewhere on every cycle. On a finite set without cycles there is
an induction along the relation.
-/

namespace TibeeCompare.Cycles

open Relation

variable {α β : Type} {r : α → α → Prop} {a b : α}

/-- On a path that goes on, every step goes on. -/
theorem continued (h : TransGen r a b) (hnext : ∃ c, r b c) :
    TransGen (fun x y => r x y ∧ ∃ z, r y z) a b := by
  induction h with
  | single hab => exact .single ⟨hab, hnext⟩
  | tail _ hbc ih => exact (ih ⟨_, hbc⟩).tail ⟨hbc, hnext⟩

variable [PartialOrder β]

theorem le_of_path {f : α → β} (hstep : ∀ x y, r x y → f y ≤ f x) (h : TransGen r a b) :
    f b ≤ f a := by
  induction h with
  | single hab => exact hstep _ _ hab
  | tail _ hbc ih => exact (hstep _ _ hbc).trans ih

/-- What no step increases is constant along a path that ends where it was. -/
theorem constant {f : α → β} (hstep : ∀ x y, r x y → f y ≤ f x) (h : TransGen r a b)
    (hback : f a ≤ f b) : TransGen (fun x y => r x y ∧ f x = f y) a b := by
  induction h with
  | single hab => exact .single ⟨hab, le_antisymm hback (hstep _ _ hab)⟩
  | @tail b c hpath hbc ih =>
      have hab := le_of_path hstep hpath
      have hcb := hstep _ _ hbc
      have hbcEq : f b = f c := le_antisymm (hab.trans hback) hcb
      exact (ih (hback.trans hcb)).tail ⟨hbc, hbcEq⟩

/-- A path on which nothing decreases has a step that ends with the property. -/
theorem exists_of_cycle {f : α → β} {P : α → Prop}
    (hstep : ∀ x y, r x y → P y ∨ f y < f x) (h : TransGen r a b) (hback : f a ≤ f b) :
    ∃ c, P c ∧ TransGen r a c ∧ ReflTransGen r c b := by
  have hdescent : (∃ c, P c ∧ TransGen r a c ∧ ReflTransGen r c b) ∨ f b < f a := by
    clear hback
    induction h with
    | single hab =>
        rcases hstep _ _ hab with hP | hlt
        · exact .inl ⟨_, hP, .single hab, .refl⟩
        · exact .inr hlt
    | tail hpath hbc ih =>
        rcases ih with ⟨d, hP, had, hdb⟩ | hlt
        · exact .inl ⟨d, hP, had, hdb.tail hbc⟩
        · rcases hstep _ _ hbc with hP | hlt'
          · exact .inl ⟨_, hP, hpath.tail hbc, .refl⟩
          · exact .inr (hlt'.trans hlt)
  exact hdescent.resolve_right (not_lt_of_ge hback)

/-! ### Finite sets -/

/-- What holds of an element if it holds of all that follow it, on a finite set without
cycles that no step leaves. -/
theorem induction_of_acyclic {r : α → α → Prop} {s : Set α} (hfinite : s.Finite)
    (hclosed : ∀ x ∈ s, ∀ y, r x y → y ∈ s) (hacyclic : ∀ x ∈ s, ¬ TransGen r x x)
    {P : α → Prop} (hstep : ∀ x ∈ s, (∀ y, r x y → P y) → P x) : ∀ x ∈ s, P x := by
  let After (next x : s) : Prop := TransGen r x.1 next.1
  have : Finite s := hfinite
  have : IsTrans s After := ⟨fun _ _ _ hfirst hsecond => hsecond.trans hfirst⟩
  have : Std.Irrefl After := ⟨fun x hcycle => hacyclic x.1 x.2 hcycle⟩
  have hwf : WellFounded After := Finite.wellFounded_of_trans_of_irrefl After
  have hall : ∀ x : s, P x.1 := by
    intro x
    induction x using hwf.induction with
    | h x ih => exact hstep x.1 x.2 fun y hxy => ih ⟨y, hclosed x.1 x.2 y hxy⟩ (.single hxy)
  exact fun x hx => hall ⟨x, hx⟩

/-- One number is enough for finitely many elements. -/
theorem exists_enough {s : Set α} (hfinite : s.Finite) {P : ℕ → α → Prop}
    (hmono : ∀ n m x, n ≤ m → P n x → P m x) (h : ∀ x ∈ s, ∃ n, P n x) :
    ∃ n, ∀ x ∈ s, P n x := by
  choose! enough henough using h
  obtain ⟨n, hn⟩ := (hfinite.image enough).bddAbove
  exact ⟨n, fun x hx => hmono _ _ x (hn (Set.mem_image_of_mem enough hx)) (henough x hx)⟩

end TibeeCompare.Cycles
