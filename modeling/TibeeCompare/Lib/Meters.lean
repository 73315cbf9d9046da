import Mathlib.Algebra.BigOperators.Group.Finset.Piecewise
import Mathlib.Algebra.Order.BigOperators.Group.Finset

/-!
Meters that are read when the one who uses them changes.

Each meter counts up. A reading says who used a meter until now and who uses it from now on,
so that a user is credited with what the meter rose by since the last reading. Readings are
looked at from the last one back.
-/

namespace TibeeCompare.Meters

variable {Meter User : Type}

structure Reading (Meter User : Type) where
  meter : Meter
  prev : User
  next : User
  value : ℕ
deriving DecidableEq

section Meters

variable [DecidableEq Meter]

/-- The user of a meter, and the value that it was last read at. -/
def running (meter : Meter) : List (Reading Meter User) → Option (User × ℕ)
  | [] => none
  | r :: past => if r.meter = meter then some (r.next, r.value) else running meter past

/-- The values that a meter was read at. -/
def valuesOf (meter : Meter) (past : List (Reading Meter User)) : List ℕ :=
  (past.filter fun r => r.meter = meter).map Reading.value

/-- What a meter rose by between its first reading and its last one. -/
def counted (meter : Meter) (past : List (Reading Meter User)) : ℕ :=
  (valuesOf meter past).head?.getD 0 - (valuesOf meter past).getLast?.getD 0

/-- The users of earlier readings. -/
def seen (past : List (Reading Meter User)) (user : User) : Prop :=
  ∃ r ∈ past, r.prev = user ∨ r.next = user

/-- A reading is by the user who is at the meter, or by one who was at no meter before, and no
meter goes back. Who comes to a meter is not at another one. Users for whom `shared` holds
may be at many meters. -/
structure Follows (shared : User → Prop) (past : List (Reading Meter User))
    (r : Reading Meter User) : Prop where
  prev : ∀ user since, running r.meter past = some (user, since) →
    user = r.prev ∧ since ≤ r.value
  fresh : running r.meter past = none → ¬ shared r.prev → ¬ seen past r.prev
  next : ¬ shared r.next → ∀ meter, meter ≠ r.meter → ∀ since,
    running meter past ≠ some (r.next, since)

/-- Each reading follows the ones before it. -/
def Scheduled (shared : User → Prop) : List (Reading Meter User) → Prop
  | [] => True
  | r :: past => Follows shared past r ∧ Scheduled shared past

variable {shared : User → Prop} {past : List (Reading Meter User)} {r : Reading Meter User}

@[simp] theorem running_cons_self : running r.meter (r :: past) = some (r.next, r.value) := by
  rw [running, if_pos rfl]

theorem running_cons_of_ne {meter : Meter} (h : r.meter ≠ meter) :
    running meter (r :: past) = running meter past := by
  rw [running, if_neg h]

omit [DecidableEq Meter] in
theorem seen_cons {user : User} :
    seen (r :: past) user ↔ (r.prev = user ∨ r.next = user) ∨ seen past user := by
  simp only [seen, List.exists_mem_cons_iff]

theorem seen_of_running {meter : Meter} {user : User} {since : ℕ}
    (h : running meter past = some (user, since)) : seen past user := by
  induction past with
  | nil => cases h
  | cons r past ih =>
      rw [seen_cons]
      by_cases hmeter : r.meter = meter
      · rw [running, if_pos hmeter] at h
        left
        right
        exact congrArg Prod.fst (Option.some.inj h)
      · rw [running_cons_of_ne hmeter] at h
        exact Or.inr (ih h)

/-- A user who is not shared is at one meter. -/
theorem running_unique (h : Scheduled shared past) {user : User} (huser : ¬ shared user)
    {meter meter' : Meter} {since since' : ℕ} (hrunning : running meter past = some (user, since))
    (hrunning' : running meter' past = some (user, since')) : meter = meter' := by
  induction past with
  | nil => cases hrunning
  | cons r past ih =>
      obtain ⟨hfollows, hpast⟩ := h
      by_cases hmeter : r.meter = meter <;> by_cases hmeter' : r.meter = meter'
      · exact hmeter.symm.trans hmeter'
      · rw [running, if_pos hmeter] at hrunning
        obtain ⟨rfl, -⟩ := Prod.mk.inj (Option.some.inj hrunning)
        rw [running_cons_of_ne hmeter'] at hrunning'
        exact absurd hrunning' (hfollows.next huser meter' (Ne.symm hmeter') since')
      · rw [running, if_pos hmeter'] at hrunning'
        obtain ⟨rfl, -⟩ := Prod.mk.inj (Option.some.inj hrunning')
        rw [running_cons_of_ne hmeter] at hrunning
        exact absurd hrunning (hfollows.next huser meter (Ne.symm hmeter) since)
      · rw [running_cons_of_ne hmeter] at hrunning
        rw [running_cons_of_ne hmeter'] at hrunning'
        exact ih hpast hrunning hrunning'

/-! ### What a meter counted -/

theorem valuesOf_cons_self :
    valuesOf r.meter (r :: past) = r.value :: valuesOf r.meter past := by
  rw [valuesOf, List.filter_cons_of_pos (by simp)]
  rfl

theorem valuesOf_cons_of_ne {meter : Meter} (h : r.meter ≠ meter) :
    valuesOf meter (r :: past) = valuesOf meter past := by
  rw [valuesOf, List.filter_cons_of_neg (by simpa using h)]
  rfl

/-- The last value of a meter is the one that it runs from. -/
theorem head?_valuesOf (meter : Meter) (past : List (Reading Meter User)) :
    (valuesOf meter past).head? = (running meter past).map Prod.snd := by
  induction past with
  | nil => rfl
  | cons r past ih =>
      by_cases hmeter : r.meter = meter
      · subst hmeter
        rw [valuesOf_cons_self, running_cons_self]
        rfl
      · rw [valuesOf_cons_of_ne hmeter, running_cons_of_ne hmeter]
        exact ih

theorem valuesOf_of_none {meter : Meter} (h : running meter past = none) :
    valuesOf meter past = [] := by
  rw [← List.head?_eq_none_iff, head?_valuesOf, h]
  rfl

theorem valuesOf_of_some {meter : Meter} {user : User} {since : ℕ}
    (h : running meter past = some (user, since)) :
    ∃ rest, valuesOf meter past = since :: rest := by
  have hhead := head?_valuesOf meter past
  rw [h, Option.map_some] at hhead
  exact List.head?_eq_some_iff.mp hhead

theorem counted_of_some {meter : Meter} {user : User} {since : ℕ}
    (h : running meter past = some (user, since)) :
    counted meter past = since - (valuesOf meter past).getLast?.getD 0 := by
  rw [counted, head?_valuesOf, h]
  rfl

/-- The first value that a meter was read at stays the first one. -/
theorem first_cons_of_some {user : User} {since : ℕ}
    (h : running r.meter past = some (user, since)) :
    (valuesOf r.meter (r :: past)).getLast?.getD 0 = (valuesOf r.meter past).getLast?.getD 0 := by
  obtain ⟨rest, hrest⟩ := valuesOf_of_some h
  rw [valuesOf_cons_self, hrest, List.getLast?_cons, List.getLast?_cons]
  rfl

/-- No meter is below the first value that it was read at. -/
theorem first_le_since (h : Scheduled shared past) {meter : Meter} {user : User} {since : ℕ}
    (hrunning : running meter past = some (user, since)) :
    (valuesOf meter past).getLast?.getD 0 ≤ since := by
  induction past generalizing user since with
  | nil => cases hrunning
  | cons r past ih =>
      obtain ⟨hfollows, hpast⟩ := h
      by_cases hmeter : r.meter = meter
      · subst hmeter
        rw [running_cons_self] at hrunning
        obtain ⟨-, rfl⟩ := Prod.mk.inj (Option.some.inj hrunning)
        cases hbefore : running r.meter past with
        | none =>
            rw [valuesOf_cons_self, valuesOf_of_none hbefore]
            exact Nat.le_refl _
        | some last =>
            rw [first_cons_of_some hbefore]
            exact (ih hpast hbefore).trans (hfollows.prev last.1 last.2 hbefore).2
      · rw [running_cons_of_ne hmeter] at hrunning
        rw [valuesOf_cons_of_ne hmeter]
        exact ih hpast hrunning

theorem counted_cons_of_ne {meter : Meter} (h : r.meter ≠ meter) :
    counted meter (r :: past) = counted meter past := by
  rw [counted, counted, valuesOf_cons_of_ne h]

end Meters

/-! ### What a user is credited with -/

section Users

variable [DecidableEq Meter] [DecidableEq User]

/-- What a meter rose by since the last reading, if it is the user from then who is there. -/
def rise (past : List (Reading Meter User)) (r : Reading Meter User) : ℕ :=
  match running r.meter past with
  | none => 0
  | some (user, since) => if user = r.prev then r.value - since else 0

def credit (user : User) : List (Reading Meter User) → ℕ
  | [] => 0
  | r :: past => credit user past + if r.prev = user then rise past r else 0

variable {shared : User → Prop} {past : List (Reading Meter User)} {r : Reading Meter User}

theorem credit_le_cons (user : User) : credit user past ≤ credit user (r :: past) :=
  Nat.le_add_right _ _

theorem rise_of_some {since : ℕ} (h : running r.meter past = some (r.prev, since)) :
    rise past r = r.value - since := by
  rw [rise, h]
  exact if_pos rfl

theorem rise_of_none (h : running r.meter past = none) : rise past r = 0 := by
  rw [rise, h]

/-- A reading credits its user with what it adds to what its meter counted. -/
theorem counted_cons_self (h : Scheduled shared past) (hfollows : Follows shared past r) :
    counted r.meter (r :: past) = counted r.meter past + rise past r := by
  rw [counted_of_some running_cons_self]
  cases hrunning : running r.meter past with
  | none =>
      rw [rise_of_none hrunning, counted, valuesOf_cons_self, valuesOf_of_none hrunning]
      exact Nat.sub_self _
  | some last =>
      obtain ⟨user, since⟩ := last
      obtain ⟨rfl, hsince⟩ := hfollows.prev user since hrunning
      have hfirst := first_le_since h hrunning
      rw [first_cons_of_some hrunning, counted_of_some hrunning, rise_of_some hrunning]
      omega

/-- What any users are credited with is no more than what the meters counted, and the users of
all readings are credited with all of it. -/
theorem sum_credit (h : Scheduled shared past) (users : Finset User) (meters : Finset Meter)
    (hmeters : ∀ r ∈ past, r.meter ∈ meters) :
    (∑ user ∈ users, credit user past ≤ ∑ meter ∈ meters, counted meter past) ∧
      ((∀ r ∈ past, r.prev ∈ users) →
        ∑ user ∈ users, credit user past = ∑ meter ∈ meters, counted meter past) := by
  induction past with
  | nil => simp [credit, counted, valuesOf]
  | cons r past ih =>
      obtain ⟨hfollows, hpast⟩ := h
      rw [List.forall_mem_cons] at hmeters
      obtain ⟨hle, heq⟩ := ih hpast hmeters.2
      have hcredit : ∑ user ∈ users, credit user (r :: past) =
          ∑ user ∈ users, credit user past + if r.prev ∈ users then rise past r else 0 := by
        simp only [credit, Finset.sum_add_distrib, Finset.sum_ite_eq]
      have hcounted : ∑ meter ∈ meters, counted meter (r :: past) =
          ∑ meter ∈ meters, counted meter past + rise past r := by
        have hone : ∀ meter ∈ meters, counted meter (r :: past) =
            counted meter past + if r.meter = meter then rise past r else 0 := by
          intro meter _
          by_cases hmeter : r.meter = meter
          · subst hmeter
            rw [if_pos rfl, counted_cons_self hpast hfollows]
          · rw [if_neg hmeter, counted_cons_of_ne hmeter, Nat.add_zero]
        rw [Finset.sum_congr rfl hone, Finset.sum_add_distrib, Finset.sum_ite_eq,
          if_pos hmeters.1]
      rw [hcredit, hcounted]
      constructor
      · apply Nat.add_le_add hle
        split
        · exact Nat.le_refl _
        · exact Nat.zero_le _
      · intro husers
        rw [List.forall_mem_cons] at husers
        rw [if_pos husers.1, heq husers.2]

end Users

end TibeeCompare.Meters
