import TibeeCompare.CriticalBlocks.BlockRuns
import TibeeCompare.Lib.Nesting

/-!
The interrupt contexts of the CPUs.

An exit only removes a context of its own type. Handlers of different vectors share a type, and
the first exits of a trace may be those of handlers that were entered before it. As long as the
handlers of each CPU are nested, the contexts are nevertheless those of the handlers that are
open.
-/

namespace TibeeCompare.CriticalBlocks

open Critical Lib Bracket Function Runs

/-- An interrupt handler, with the vector or number that its events carry. -/
inductive Handler
  | softIrq (vec : ℕ)
  | irqHandler (irq : ℕ)
  | hrtimer
deriving DecidableEq, Repr

def Handler.type : Handler → CriticalEdgeType
  | softIrq vec => resolveSoftIRQ vec
  | irqHandler irq => resolveIRQ irq
  | hrtimer => .timer

/-- The CPU of an interrupt event, and the handler that is entered or exited. -/
def Event.bracket : Event → Option (ℕ × Bracket Handler)
  | softIrqEntry cpu vec => some (cpu, .enter (.softIrq vec))
  | softIrqExit cpu vec => some (cpu, .exit (.softIrq vec))
  | irqHandlerEntry cpu irq => some (cpu, .enter (.irqHandler irq))
  | irqHandlerExit cpu irq => some (cpu, .exit (.irqHandler irq))
  | hrtimerExpireEntry cpu => some (cpu, .enter .hrtimer)
  | hrtimerExpireExit cpu => some (cpu, .exit .hrtimer)
  | _ => none

def Step.bracketOn (cpu : ℕ) : Step → Option (Bracket Handler)
  | .event _ e =>
      match e.bracket with
      | some (cpu', bracket) => if cpu' = cpu then some bracket else none
      | none => none
  | .cleanup _ _ => none

/-- The entries and exits of handlers on a CPU. -/
def bracketsOn (cpu : ℕ) (steps : List Step) : List (Bracket Handler) :=
  steps.filterMap (Step.bracketOn cpu)

namespace CriticalBlock

variable {b b' : CriticalBlock}

/-- The types of the contexts of a CPU. -/
def types (b : CriticalBlock) (cpu : ℕ) : List CriticalEdgeType := (b.context cpu).map (·.type)

/-- Types of contexts after an exit of a handler of some type. -/
def exitType (type : CriticalEdgeType) : List CriticalEdgeType → List CriticalEdgeType
  | [] => []
  | top :: rest => if top = type then rest else top :: rest

/-- What an entry or an exit does to the types of its CPU. -/
def typesAfter (types : List CriticalEdgeType) : Bracket Handler → List CriticalEdgeType
  | .enter h => h.type :: types
  | .exit h => exitType h.type types

theorem types_pushContext (b : CriticalBlock) (cpu : ℕ) (type : CriticalEdgeType) (other : ℕ) :
    (b.pushContext cpu type).types other =
      if cpu = other then type :: b.types other else b.types other := by
  rw [types, pushContext]
  dsimp only
  split
  · next heq =>
      subst heq
      rw [update_self]
      rfl
  · next hne =>
      rw [update_of_ne (Ne.symm hne)]
      rfl

theorem types_popContext (b : CriticalBlock) (cpu : ℕ) (type : CriticalEdgeType) (other : ℕ) :
    (b.popContext cpu type).types other =
      if cpu = other then exitType type (b.types other) else b.types other := by
  rw [popContext]
  split
  · next hcontext =>
      split
      · next heq =>
          subst heq
          rw [types, hcontext]
          rfl
      · rfl
  · next top rest hcontext =>
      by_cases heq : cpu = other
      · subst heq
        rw [if_pos rfl, types, types, hcontext, List.map_cons, exitType]
        by_cases htype : top.type = type
        · rw [if_neg (not_not.mpr htype), if_pos htype]
          dsimp only
          rw [update_self]
        · rw [if_pos htype, if_neg htype, hcontext]
          rfl
      · rw [if_neg heq]
        split
        · rfl
        · rw [types]
          dsimp only
          rw [update_of_ne (Ne.symm heq)]
          rfl

/-! ### Other events leave the types alone -/

theorem context_cutThread {tid : ℕ} {node : Option ℕ} (h : b.cutThread tid = .ok (b', node)) :
    b'.context = b.context := by
  rw [cutThread] at h
  split at h
  · cases h
    rfl
  split at h
  · cases h
    rfl
  · obtain ⟨⟨g, edge⟩, -, h⟩ := bind_eq_ok.mp h
    cases h
    rfl

theorem context_onInetSockLocalOut {cpu tid : ℕ} {key : PacketKey}
    (h : b.onInetSockLocalOut cpu tid key = .ok b') : b'.context = b.context := by
  rw [onInetSockLocalOut] at h
  split at h
  · cases h
    rfl
  · obtain ⟨⟨cut, node⟩, hcut, h⟩ := bind_eq_ok.mp h
    have hcontext := context_cutThread hcut
    dsimp only at h
    split at h
    · cases h
      exact hcontext
    · obtain ⟨⟨g, edge⟩, -, h⟩ := bind_eq_ok.mp h
      cases h
      exact hcontext

theorem context_onTTWUBetweenThreads {sourceTid targetTid : ℕ}
    (h : b.onTTWUBetweenThreads sourceTid targetTid = .ok b') : b'.context = b.context := by
  rw [onTTWUBetweenThreads] at h
  have hdisk : (if sourceTid ∈ b.diskThreads then b.addInterval targetTid else b).context =
      b.context := by
    split
    · exact context_addInterval b targetTid
    · rfl
  obtain ⟨⟨cut, node⟩, hcut, h⟩ := bind_eq_ok.mp h
  have hsource := (context_cutThread hcut).trans hdisk
  dsimp only at h
  split at h
  · cases h
    exact hsource
  · obtain ⟨⟨cut', node'⟩, hcut', h⟩ := bind_eq_ok.mp h
    have htarget := (context_cutThread hcut').trans hsource
    dsimp only at h
    split at h
    · cases h
      exact htarget
    · obtain ⟨⟨g, edge⟩, -, h⟩ := bind_eq_ok.mp h
      cases h
      exact htarget

theorem context_wakeupFromNetwork {node targetTid : ℕ}
    (h : b.wakeupFromNetwork node targetTid = .ok b') : b'.context = b.context := by
  rw [wakeupFromNetwork] at h
  obtain ⟨⟨g, edge⟩, -, h⟩ := bind_eq_ok.mp h
  obtain ⟨⟨cut, node⟩, hcut, h⟩ := bind_eq_ok.mp h
  have hcontext := context_cutThread hcut
  dsimp only at h
  split at h
  · cases h
    exact hcontext
  · obtain ⟨⟨g, edge⟩, -, h⟩ := bind_eq_ok.mp h
    cases h
    exact hcontext

theorem context_onWakeupFromInterrupt {context : InterruptContext} {targetTid : ℕ}
    (h : b.onWakeupFromInterrupt context targetTid = .ok b') : b'.context = b.context := by
  rw [onWakeupFromInterrupt] at h
  split at h
  · cases h
    rfl
  split at h
  · exact context_wakeupFromNetwork h
  · cases h
    dsimp only
    split
    · exact context_addInterval b targetTid
    · rfl

theorem context_onTTWU {kInvalidThread sourceCpu sourceTid targetTid : ℕ}
    (h : b.onTTWU kInvalidThread sourceCpu sourceTid targetTid = .ok b') :
    b'.context = b.context := by
  rw [onTTWU] at h
  split at h
  · exact context_onWakeupFromInterrupt h
  split at h
  · exact context_onTTWUBetweenThreads h
  · cases h
    rfl

theorem context_onThreadStatus {tid : ℕ} {status : Option ThreadStatus}
    (h : b.onThreadStatus tid status = .ok b') : b'.context = b.context := by
  rw [onThreadStatus] at h
  split at h
  · cases h
    rfl
  · dsimp only at h
    split at h
    · obtain ⟨⟨g, edge⟩, -, h⟩ := bind_eq_ok.mp h
      cases h
      rfl
    · cases h
      rfl

theorem context_onThreadName (b : CriticalBlock) (tid : ℕ) (name : Option Bytes) :
    (b.onThreadName tid name).context = b.context := by
  rw [onThreadName.eq_def]
  split
  · rfl
  cases name with
  | none => rfl
  | some name =>
      dsimp only
      split <;> rfl

/-- A received packet changes the node of a context, not its type. -/
theorem types_onInetSockLocalIn (b : CriticalBlock) (cpu : ℕ) (key : PacketKey) (other : ℕ) :
    (b.onInetSockLocalIn cpu key).types other = b.types other := by
  rw [onInetSockLocalIn]
  split
  · rfl
  split
  · rfl
  · next top rest hcontext =>
      rw [types, types]
      dsimp only
      by_cases heq : other = cpu
      · subst heq
        rw [update_self, hcontext]
        rfl
      · rw [update_of_ne heq]

/-! ### Steps and runs -/

/-- What an event changes on a CPU. -/
def typesAt (types : List CriticalEdgeType) (cpu : ℕ) :
    Option (ℕ × Bracket Handler) → List CriticalEdgeType
  | some (cpu', bracket) => if cpu' = cpu then typesAfter types bracket else types
  | none => types

theorem types_onEvent {kInvalidThread : ℕ} {e : Event}
    (h : b.onEvent kInvalidThread e = .ok b') (cpu : ℕ) :
    b'.types cpu = typesAt (b.types cpu) cpu e.bracket := by
  have hkeep : b'.context = b.context → b'.types cpu = b.types cpu :=
    fun heq => by rw [types, types, heq]
  cases e with
  | ttwu => exact hkeep (context_onTTWU h)
  | inetSockLocalOut => exact hkeep (context_onInetSockLocalOut h)
  | threadStatus => exact hkeep (context_onThreadStatus h)
  | threadName tid name =>
      cases h
      exact hkeep (context_onThreadName _ tid name)
  | inetSockLocalIn cpu' key =>
      cases h
      exact types_onInetSockLocalIn _ cpu' key cpu
  | softIrqEntry cpu' vec =>
      cases h
      exact types_pushContext b cpu' _ cpu
  | irqHandlerEntry cpu' irq =>
      cases h
      exact types_pushContext b cpu' _ cpu
  | hrtimerExpireEntry cpu' =>
      cases h
      exact types_pushContext b cpu' _ cpu
  | softIrqExit cpu' vec =>
      cases h
      exact types_popContext b cpu' _ cpu
  | irqHandlerExit cpu' irq =>
      cases h
      exact types_popContext b cpu' _ cpu
  | hrtimerExpireExit cpu' =>
      cases h
      exact types_popContext b cpu' _ cpu

/-- A step changes the types of a CPU as the entry or exit does that it is. -/
theorem types_step {kInvalidThread : ℕ} {s : Step} (h : b.step kInvalidThread s = .ok b')
    (cpu : ℕ) : b'.types cpu = (bracketsOn cpu [s]).foldl typesAfter (b.types cpu) := by
  cases s with
  | cleanup ts order =>
      obtain ⟨g, -, h⟩ := bind_eq_ok.mp h
      cases h
      rfl
  | event ts e =>
      have htypes := types_onEvent h cpu
      rw [htypes, bracketsOn, List.filterMap_cons, Step.bracketOn, typesAt.eq_def]
      cases e.bracket with
      | none => rfl
      | some bracket =>
          dsimp only
          split <;> rfl

/-- The types after nested handlers, when those before them are the types of pending ones. -/
theorem typesAfter_pending {l : List (Bracket Handler)} {s : List Handler} (hl : Pending l s)
    {bracket : Bracket Handler} (hwithin : Bracket.Within (l ++ [bracket])) :
    ∃ s', Bracket.Pending (l ++ [bracket]) s' ∧
      typesAfter (s.map Handler.type) bracket = s'.map Handler.type := by
  cases bracket with
  | enter h => exact ⟨h :: s, hl.enter h, rfl⟩
  | exit h =>
      cases s with
      | nil => exact ⟨[], hl.exit h, rfl⟩
      | cons top s =>
          obtain ⟨rfl, hpending⟩ := hl.exit_innermost hwithin
          exact ⟨s, hpending, if_pos rfl⟩

theorem exists_pending {kInvalidThread : ℕ} {steps : List Step}
    (hrun : CriticalBlock.initial.run kInvalidThread steps = .ok b) (cpu : ℕ)
    (hwithin : Bracket.Within (bracketsOn cpu steps)) :
    ∃ handlers, Bracket.Pending (bracketsOn cpu steps) handlers ∧
      b.types cpu = handlers.map Handler.type := by
  induction steps using List.reverseRecOn generalizing b with
  | nil =>
      cases hrun
      exact ⟨[], .nil, rfl⟩
  | append_singleton steps s ih =>
      obtain ⟨mid, hmid, hlast⟩ := run_append_eq_ok.mp hrun
      obtain ⟨b', hstep, hnil⟩ := run_cons_eq_ok.mp hlast
      cases hnil
      have hbrackets : bracketsOn cpu (steps ++ [s]) = bracketsOn cpu steps ++ bracketsOn cpu [s] :=
        List.filterMap_append
      rw [hbrackets] at hwithin ⊢
      obtain ⟨handlers, hpending, htypes⟩ := ih hmid hwithin.of_append
      rw [types_step hstep, htypes]
      have hone : bracketsOn cpu [s] = (s.bracketOn cpu).toList := by
        rw [bracketsOn, List.filterMap_cons]
        cases s.bracketOn cpu <;> rfl
      rw [hone] at hwithin ⊢
      cases hbracket : s.bracketOn cpu with
      | none =>
          rw [Option.toList_none, List.append_nil]
          exact ⟨handlers, hpending, rfl⟩
      | some bracket =>
          rw [hbracket] at hwithin
          exact typesAfter_pending hpending hwithin

/-- The contexts of a CPU are those of some handlers, and a wake-up on this CPU comes from the
innermost of them, if there is one. -/
structure HoldsOpen (kInvalidThread : ℕ) (b : CriticalBlock) (cpu : ℕ) (handlers : List Handler) :
    Prop where
  types : (b.context cpu).map (·.type) = handlers.map Handler.type
  interrupted : handlers ≠ [] → ∀ sourceTid targetTid, ∃ top ∈ (b.context cpu).head?,
    b.onTTWU kInvalidThread cpu sourceTid targetTid = b.onWakeupFromInterrupt top targetTid
  between : handlers = [] → ∀ sourceTid targetTid,
    b.onTTWU kInvalidThread cpu sourceTid targetTid =
      if sourceTid ≠ kInvalidThread ∧ targetTid ≠ kInvalidThread then
        b.onTTWUBetweenThreads sourceTid targetTid
      else pure b

theorem holdsOpen_of_types {cpu : ℕ} {handlers : List Handler}
    (h : b.types cpu = handlers.map Handler.type) (kInvalidThread : ℕ) :
    HoldsOpen kInvalidThread b cpu handlers where
  types := h
  interrupted hne sourceTid targetTid := by
    cases hcontext : b.context cpu with
    | nil =>
        rw [CriticalBlock.types, hcontext] at h
        exact absurd (List.map_eq_nil_iff.mp h.symm) hne
    | cons top rest =>
        refine ⟨top, rfl, ?_⟩
        rw [onTTWU, hcontext]
  between hnil sourceTid targetTid := by
    rw [CriticalBlock.types, hnil, List.map_nil, List.map_eq_nil_iff] at h
    rw [onTTWU, h]

/-- The interrupt events of a CPU are a part of a well-nested sequence (a trace may begin and end
inside of handlers). Then its contexts are those of the handlers that were entered and not exited
since the trace began. -/
theorem holdsOpen_of_within {kInvalidThread : ℕ} {steps : List Step}
    (hrun : CriticalBlock.initial.run kInvalidThread steps = .ok b) (cpu : ℕ)
    (hwithin : Bracket.Within (bracketsOn cpu steps)) :
    (∃! handlers, Bracket.Pending (bracketsOn cpu steps) handlers) ∧
      ∀ handlers, Bracket.Pending (bracketsOn cpu steps) handlers →
        HoldsOpen kInvalidThread b cpu handlers := by
  obtain ⟨handlers, hpending, htypes⟩ := exists_pending hrun cpu hwithin
  refine ⟨⟨handlers, hpending, fun other hother => hother.unique hpending⟩, ?_⟩
  intro other hother
  rw [hother.unique hpending]
  exact holdsOpen_of_types htypes kInvalidThread

/-- CPU 1 begins inside of a timer interrupt, and of a soft interrupt in it; CPU 2 enters one
after the first has been exited. -/
def insideHandlers : List Step :=
  [.event 1 (.softIrqExit 1 3), .event 1 (.hrtimerExpireEntry 2), .event 2 (.hrtimerExpireExit 1),
    .event 3 (.irqHandlerEntry 1 19), .event 4 (.softIrqEntry 1 8)]

theorem holdsOpen_insideHandlers :
    HoldsOpen 4294967295 (.after 4294967295 insideHandlers) 1 [.softIrq 8, .irqHandler 19] := by
  have hbrackets : bracketsOn 1 insideHandlers =
      [.exit (.softIrq 3), .exit .hrtimer, .enter (.irqHandler 19), .enter (.softIrq 8)] := rfl
  have hpending : Bracket.Pending (bracketsOn 1 insideHandlers) [.softIrq 8, .irqHandler 19] := by
    rw [hbrackets]
    exact .enter (.enter (.exit (.exit .nil _) _) _) _
  have hnested : Bracket.Within (bracketsOn 1 insideHandlers) := by
    rw [hbrackets]
    exact ⟨[.enter .hrtimer, .enter (.softIrq 3)], [.exit (.softIrq 8), .exit (.irqHandler 19)],
      .pair _ (.pair _ .nil .nil) (.pair _ (.pair _ .nil .nil) .nil)⟩
  exact (holdsOpen_of_within rfl 1 hnested).2 _ hpending

end CriticalBlock

end TibeeCompare.CriticalBlocks
