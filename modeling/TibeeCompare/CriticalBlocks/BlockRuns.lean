import TibeeCompare.CriticalBlocks.Growth

/-!
Runs of the block: timestamped events, interleaved with cleanups of the graph.

`step_cases` says what one step that goes through does. From it follow the facts
that hold in every run, whatever the events and the cutoffs are: the vectors own
the nodes, and a pointer that the block keeps, if its node was not freed, points
to a node of the network thread.
-/

namespace TibeeCompare.CriticalBlocks

open Critical Critical.CriticalGraph Runs

namespace CriticalBlock

/-- Pointers are to nodes that were created, and those that are still there are
on the network thread. -/
def PointersKnown (b : CriticalBlock) : Prop :=
  ∀ n, b.Refers n → n < b.graph.nextNode ∧
    ∀ ts tid, b.graph.label n = some (ts, tid) → tid = kNetworkThread

theorem pointersKnown_initial : initial.PointersKnown := by
  rintro n (⟨key, hn⟩ | ⟨cpu, context, hmem, -⟩)
  · cases hn
  · cases hmem

variable {Hop : CriticalGraph → ℕ → Prop} {b b' : CriticalBlock} {kInvalidThread : ℕ}

theorem PointersKnown.effect (h : b.PointersKnown) (ho : b'.graph.Owned)
    (heffect : Effect Hop b b') : b'.PointersKnown := by
  intro n hn
  rcases heffect.refers n hn with hold | hnew
  · obtain ⟨hlt, hnetwork⟩ := h n hold
    refine ⟨lt_of_lt_of_le hlt heffect.grows.nextNode_le, ?_⟩
    intro ts tid hlabel
    rw [heffect.grows.label_of_lt hlt] at hlabel
    exact hnetwork ts tid hlabel
  · refine ⟨ho.lt_next hnew, ?_⟩
    intro ts tid hlabel
    rw [hnew] at hlabel
    exact (Prod.mk.inj (Option.some.inj hlabel)).2.symm

/-- What an event does, when it goes through. -/
theorem onEvent_ok (ho : b.graph.Owned) (hp : b.PointersKnown) {event : Event}
    (hhop : ∀ node, b.networkNode event = some node → Hop b.graph node)
    (h : b.onEvent kInvalidThread event = .ok b') : Effect Hop b b' := by
  have hnetwork : ∀ node, b.networkNode event = some node →
      (∃ ts, b.graph.label node = some (ts, kNetworkThread)) ∧ Hop b.graph node := by
    intro node hnode
    obtain ⟨hlt, hthread⟩ := hp node (refers_networkNode hnode)
    obtain ⟨⟨ts, tid⟩, hlabel⟩ := label_of_onEvent_ok hnode hlt h
    obtain rfl := hthread ts tid hlabel
    exact ⟨⟨ts, hlabel⟩, hhop node hnode⟩
  obtain ⟨b'', h', heffect⟩ := onEvent_effect Hop ho kInvalidThread hnetwork
  rw [h] at h'
  obtain rfl := Except.ok.inj h'
  exact heffect

/-- What one step does: it moves the clock and has the effect of an event, or it
removes nodes, slots and edges. -/
theorem step_cases (Hop : CriticalGraph → ℕ → Prop) {s : Step} (ho : b.graph.Owned)
    (hp : b.PointersKnown)
    (hhop : ∀ ts event node, s = .event ts event → b.networkNode event = some node →
      Hop (b.graph.setTimestamp ts) node)
    (h : b.step kInvalidThread s = .ok b') :
    (∃ ts event, s = .event ts event ∧ Effect Hop (b.setTimestamp ts) b') ∨
      ∃ ts order g, s = .cleanup ts order ∧ b.graph.cleanup ts order = .ok g ∧
        b' = { b with graph := g } := by
  cases s with
  | event ts event =>
      left
      refine ⟨ts, event, rfl, onEvent_ok (ho.setTimestamp ts) hp ?_ h⟩
      intro node hnode
      exact hhop ts event node rfl hnode
  | cleanup ts order =>
      obtain ⟨g, hclean, hb'⟩ := bind_eq_ok.mp h
      exact .inr ⟨ts, order, g, rfl, hclean, (Except.ok.inj hb').symm⟩

end CriticalBlock

open CriticalBlock

/-- Facts about all runs. -/
structure Known (b : CriticalBlock) : Prop where
  owned : b.graph.Owned
  pointers : b.PointersKnown
  clocked : b.graph.Clocked
  forward : b.graph.EdgesForward

theorem Reachable.known {kInvalidThread : ℕ} {Allowed : CriticalBlock → Step → Prop}
    {b : CriticalBlock} (h : Reachable kInvalidThread Allowed b) : Known b := by
  induction h with
  | initial => exact ⟨owned_empty, pointersKnown_initial, clocked_empty, fun h => by cases h⟩
  | @step b b' s _ horder _ hstep ih =>
      obtain ⟨ho, hp, hc, hf⟩ := ih
      rcases step_cases (fun _ _ => True) ho hp (fun _ _ _ _ _ => trivial) hstep with
        ⟨ts, event, rfl, heffect⟩ | ⟨ts, order, g, rfl, hclean, rfl⟩
      · have ho' := heffect.grows.owned (ho.setTimestamp ts)
        have hp' : (b.setTimestamp ts).PointersKnown := hp
        exact ⟨ho', hp'.effect ho' heffect,
          heffect.grows.clocked (ho.setTimestamp ts) (hc.setTimestamp horder),
          heffect.grows.edgesForward (ho.setTimestamp ts) hf⟩
      · have hbelow := below_cleanup ho hclean
        refine ⟨ho.cleanup hclean, ?_, hc.of_below hbelow, fun hedge => hf (hbelow.edges hedge)⟩
        intro n hn
        obtain ⟨hlt, hnetwork⟩ := hp n hn
        exact ⟨hbelow.nextNode ▸ hlt, fun ts tid hlabel => hnetwork ts tid (hbelow.label hlabel)⟩

theorem Reachable.mono {kInvalidThread : ℕ} {Allowed Allowed' : CriticalBlock → Step → Prop}
    (hle : ∀ b s, Allowed b s → Allowed' b s) {b : CriticalBlock}
    (h : Reachable kInvalidThread Allowed b) : Reachable kInvalidThread Allowed' b := by
  induction h with
  | initial => exact .initial
  | step _ horder hallowed hstep ih => exact ih.step horder (hle _ _ hallowed) hstep

/-- No cleanups. -/
def OnlyEvents (_ : CriticalBlock) : Step → Prop
  | .event .. => True
  | .cleanup .. => False

instance (b : CriticalBlock) : DecidablePred (OnlyEvents b)
  | .event .. => isTrue trivial
  | .cleanup .. => isFalse not_false

/-! ### Runs as lists of steps -/

def CriticalBlock.run (kInvalidThread : ℕ) (b : CriticalBlock) (steps : List Step) :
    Except Fault CriticalBlock :=
  steps.foldlM (CriticalBlock.step kInvalidThread) b

/-- The state after a run that goes through. -/
def CriticalBlock.after (kInvalidThread : ℕ) (steps : List Step) : CriticalBlock :=
  match CriticalBlock.initial.run kInvalidThread steps with
  | .ok b => b
  | .error _ => .initial

/-- Every step is in order and allowed, and goes through. -/
def Follows (kInvalidThread : ℕ) (Allowed : CriticalBlock → Step → Prop) :
    CriticalBlock → List Step → Prop
  | _, [] => True
  | b, s :: steps =>
      s.InOrder b ∧ Allowed b s ∧
        match b.step kInvalidThread s with
        | .ok b' => Follows kInvalidThread Allowed b' steps
        | .error _ => False

instance instDecidableFollows (kInvalidThread : ℕ) (Allowed : CriticalBlock → Step → Prop)
    [∀ b, DecidablePred (Allowed b)] :
    ∀ b steps, Decidable (Follows kInvalidThread Allowed b steps)
  | _, [] => isTrue trivial
  | b, s :: steps =>
      have : ∀ r : Except Fault CriticalBlock, Decidable (match r with
          | .ok b' => Follows kInvalidThread Allowed b' steps
          | .error _ => False)
        | .ok b' => instDecidableFollows kInvalidThread Allowed b' steps
        | .error _ => isFalse not_false
      inferInstanceAs (Decidable (s.InOrder b ∧ Allowed b s ∧ _))

theorem Follows.reachable {kInvalidThread : ℕ} {Allowed : CriticalBlock → Step → Prop}
    {b : CriticalBlock} {steps : List Step} (hb : Reachable kInvalidThread Allowed b)
    (h : Follows kInvalidThread Allowed b steps) :
    ∃ b', b.run kInvalidThread steps = .ok b' ∧ Reachable kInvalidThread Allowed b' := by
  induction steps generalizing b with
  | nil => exact ⟨b, rfl, hb⟩
  | cons s steps ih =>
      obtain ⟨horder, hallowed, hrest⟩ := h
      cases hstep : b.step kInvalidThread s with
      | error fault =>
          rw [hstep] at hrest
          exact hrest.elim
      | ok b' =>
          rw [hstep] at hrest
          obtain ⟨b'', hrun, hb''⟩ := ih (hb.step horder hallowed hstep) hrest
          exact ⟨b'', run_cons_eq_ok.mpr ⟨b', hstep, hrun⟩, hb''⟩

/-- A run that follows the rules leads to a reachable state. -/
theorem Follows.reachable_after {kInvalidThread : ℕ} {Allowed : CriticalBlock → Step → Prop}
    {steps : List Step} (h : Follows kInvalidThread Allowed .initial steps) :
    Reachable kInvalidThread Allowed (.after kInvalidThread steps) := by
  obtain ⟨b, hrun, hb⟩ := h.reachable .initial
  rwa [CriticalBlock.after, hrun]

end TibeeCompare.CriticalBlocks
