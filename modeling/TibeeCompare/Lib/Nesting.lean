import Mathlib.Data.List.Basic

/-!
Nested entries and exits.

A sequence of entries and exits is well nested if each exit is that of the innermost entry that is
open, and all entries are exited. A part of such a sequence begins inside of some entries and ends
inside of others. Which of its own entries are open at its end does not depend on what was
before it: an exit ends the innermost of them, or none if all of them have been exited.
-/

namespace TibeeCompare.Lib

inductive Bracket (H : Type) where
  | enter (h : H)
  | exit (h : H)
  deriving DecidableEq, Repr

namespace Bracket

variable {H : Type}

inductive Nested : List (Bracket H) → Prop
  | nil : Nested []
  | pair (h : H) {inner rest : List (Bracket H)} (hinner : Nested inner) (hrest : Nested rest) :
      Nested (enter h :: (inner ++ exit h :: rest))

theorem Nested.append {l m : List (Bracket H)} (hl : Nested l) (hm : Nested m) :
    Nested (l ++ m) := by
  induction hl with
  | nil => exact hm
  | @pair h inner rest hinner _ _ ih =>
      have heq : enter h :: (inner ++ exit h :: rest) ++ m =
          enter h :: (inner ++ exit h :: (rest ++ m)) := by simp
      rw [heq]
      exact .pair h hinner ih

/-- A part of a well-nested sequence. -/
def Within (l : List (Bracket H)) : Prop := ∃ before after, Nested (before ++ l ++ after)

theorem Within.of_append {l m : List (Bracket H)} (h : Within (l ++ m)) : Within l := by
  obtain ⟨before, after, h⟩ := h
  exact ⟨before, m ++ after, by simpa using h⟩

/-- The entries of a sequence that have not been exited at its end, innermost first. An exit
while there are none is that of an entry before the sequence. -/
inductive Pending : List (Bracket H) → List H → Prop
  | nil : Pending [] []
  | exit {l : List (Bracket H)} (hl : Pending l []) (h : H) : Pending (l ++ [.exit h]) []
  | enter {l : List (Bracket H)} {s : List H} (hl : Pending l s) (h : H) :
      Pending (l ++ [.enter h]) (h :: s)
  | nested {l w : List (Bracket H)} {s : List H} (hl : Pending l s) (hw : Nested w) :
      Pending (l ++ w) s

/-- Behind the innermost pending entry everything is nested. -/
theorem Pending.split {l : List (Bracket H)} {h : H} {s : List H} (hl : Pending l (h :: s)) :
    ∃ before inner, l = before ++ .enter h :: inner ∧ Pending before s ∧ Nested inner := by
  generalize hstack : h :: s = stack at hl
  induction hl with
  | nil => cases hstack
  | exit => cases hstack
  | @enter l s' hl h' _ =>
      obtain ⟨rfl, rfl⟩ := List.cons.inj hstack
      exact ⟨l, [], rfl, hl, .nil⟩
  | @nested l w s' _ hw ih =>
      obtain ⟨before, inner, rfl, hbefore, hinner⟩ := ih hstack
      exact ⟨before, inner ++ w, by simp, hbefore, hinner.append hw⟩

/-- The stack of entries after one more event. -/
def push (s : List H) : Bracket H → List H
  | .enter h => h :: s
  | .exit _ => s.tail

theorem Nested.foldl_push {w : List (Bracket H)} (hw : Nested w) (s : List H) :
    w.foldl push s = s := by
  induction hw generalizing s with
  | nil => rfl
  | pair h _ _ ihInner ihRest =>
      rw [List.foldl_cons, List.foldl_append, ihInner, List.foldl_cons]
      exact ihRest s

theorem Pending.foldl_push {l : List (Bracket H)} {s : List H} (hl : Pending l s) :
    l.foldl push [] = s := by
  induction hl with
  | nil => rfl
  | exit _ h ih =>
      rw [List.foldl_append, ih]
      rfl
  | enter _ h ih =>
      rw [List.foldl_append, ih]
      rfl
  | nested _ hw ih => rw [List.foldl_append, ih, hw.foldl_push]

theorem Pending.unique {l : List (Bracket H)} {s s' : List H} (hs : Pending l s)
    (hs' : Pending l s') : s = s' := hs.foldl_push.symm.trans hs'.foldl_push

/-! ### Exits are those of the innermost entry -/

/-- The stacks that a sequence leads to when each exit is that of the entry on top. -/
inductive Replays : List H → List (Bracket H) → List H → Prop
  | nil (stack : List H) : Replays stack [] stack
  | enter {stack stack' : List H} {l : List (Bracket H)} (h : H)
      (hl : Replays (h :: stack) l stack') : Replays stack (.enter h :: l) stack'
  | exit {stack stack' : List H} {l : List (Bracket H)} (h : H)
      (hl : Replays stack l stack') : Replays (h :: stack) (.exit h :: l) stack'

theorem Nested.replays {w l : List (Bracket H)} (hw : Nested w) {stack stack' : List H} :
    Replays stack (w ++ l) stack' ↔ Replays stack l stack' := by
  induction hw generalizing stack l with
  | nil => rfl
  | @pair h inner rest _ _ ihInner ihRest =>
      have heq : enter h :: (inner ++ exit h :: rest) ++ l =
          enter h :: (inner ++ (exit h :: (rest ++ l))) := by simp
      rw [heq]
      constructor
      · intro hl
        cases hl with
        | enter _ hl =>
            cases ihInner.mp hl with
            | exit _ hl => exact ihRest.mp hl
      · intro hl
        exact .enter h (ihInner.mpr (.exit h (ihRest.mpr hl)))

theorem Replays.of_append {l m : List (Bracket H)} {stack stack' : List H}
    (h : Replays stack (l ++ m) stack') : ∃ mid, Replays mid m stack' := by
  induction l generalizing stack with
  | nil => exact ⟨stack, h⟩
  | cons b l ih =>
      cases h with
      | enter _ hl => exact ih hl
      | exit _ hl => exact ih hl

/-- An exit in a well-nested sequence is that of the innermost entry that is pending. -/
theorem Pending.exit_innermost {l : List (Bracket H)} {h h' : H} {s : List H}
    (hl : Pending l (h :: s)) (hwithin : Within (l ++ [.exit h'])) :
    h' = h ∧ Pending (l ++ [.exit h']) s := by
  obtain ⟨outer, inner, rfl, houter, hinner⟩ := hl.split
  obtain ⟨before, after, hnested⟩ := hwithin
  have hwhole : Replays [] ((before ++ outer) ++ .enter h :: (inner ++ .exit h' :: after)) [] := by
    have hreplays := (hnested.replays (l := [])).mpr (.nil [])
    simpa using hreplays
  obtain ⟨mid, hmid⟩ := hwhole.of_append
  -- the entry is on top of the stack again once what is inside has been replayed
  have heq : h' = h := by
    cases hmid with
    | enter _ hmid =>
        cases hinner.replays.mp hmid with
        | exit => rfl
  subst heq
  have hpair : Nested (.enter h' :: (inner ++ [.exit h'])) := .pair h' hinner .nil
  exact ⟨rfl, by simpa using houter.nested hpair⟩

end Bracket

end TibeeCompare.Lib
