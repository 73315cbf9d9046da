import TibeeCompare.CriticalBlocks.BlockRuns

/-!
The node pointers that the block keeps, in runs with cleanups.

A pointer lives from the time a packet is sent until the interrupt that receives
it is over, which can be long; the sweeps of the graph know nothing of it. The
pointers stay valid exactly as long as no sweep has a cutoff later than one of
their nodes.
-/

namespace TibeeCompare.CriticalBlocks

open Critical Critical.CriticalGraph CriticalBlock Runs

/-- All pointers that the block keeps are to nodes of the graph. -/
def ReferencesAlive (b : CriticalBlock) : Prop :=
  ∀ n, b.Refers n → ∃ label, b.graph.label n = some label

/-- No cleanup has a cutoff later than a node that the block points to. -/
def SparesReferences (b : CriticalBlock) : Step → Prop
  | .event .. => True
  | .cleanup ts _ => ∀ n, b.Refers n → ts ≤ b.graph.tsOf n

/-- Cutoffs are not later than the current timestamp. -/
def PastCutoffs (b : CriticalBlock) : Step → Prop
  | .event .. => True
  | .cleanup ts _ => ts ≤ b.graph.ts

instance (b : CriticalBlock) : DecidablePred (PastCutoffs b)
  | .event .. => isTrue trivial
  | .cleanup ts _ => inferInstanceAs (Decidable (ts ≤ b.graph.ts))

/-- A sweep whose cutoff is later than a node frees this node, since the vectors
are in the order of time. -/
theorem label_cleanThread_of_lt {g g' : CriticalGraph} (ho : g.Owned) (hc : g.Clocked)
    {ts tid n nodeTs : ℕ} (hlabel : g.label n = some (nodeTs, tid)) (hlt : nodeTs < ts)
    (h : cleanThread ts g tid = .ok g') : g'.label n = none := by
  rw [ho.label_cleanThread h, if_pos]
  obtain ⟨pre, post, hsplit⟩ := List.append_of_mem (ho.mem_nodesOf.mpr ⟨nodeTs, hlabel⟩)
  have hordered := hc.timeOrdered ho tid
  rw [hsplit] at hordered
  have hn : g.tsOf n < ts := by rwa [tsOf_of_label hlabel]
  have hpre : ∀ k ∈ pre, g.tsOf k < ts := by
    intro k hk
    have := (List.pairwise_append.mp hordered).2.2 k hk n List.mem_cons_self
    omega
  unfold staleNodes
  rw [hsplit, List.takeWhile_append_of_pos (by simpa using hpre),
    List.takeWhile_cons_of_pos (by simpa using hn)]
  simp

theorem label_cleanup_of_lt {g g' : CriticalGraph} (ho : g.Owned) (hc : g.Clocked)
    {ts tid n nodeTs : ℕ} {order : List ℕ} (htid : tid ∈ order)
    (hlabel : g.label n = some (nodeTs, tid)) (hlt : nodeTs < ts)
    (h : g.cleanup ts order = .ok g') : g'.label n = none := by
  obtain ⟨pre, post, rfl⟩ := List.append_of_mem htid
  obtain ⟨g₁, hpre, hrest⟩ := run_append_eq_ok.mp h
  obtain ⟨g₂, hthread, hpost⟩ := run_cons_eq_ok.mp hrest
  have hpre' : g.cleanup ts pre = .ok g₁ := hpre
  have hpost' : g₂.cleanup ts post = .ok g' := hpost
  have hbelow₁ := below_cleanup ho hpre'
  have ho₁ := ho.cleanup hpre'
  have hbelow₂ := below_cleanup (ho₁.cleanThread hthread) hpost'
  have hgone : g₂.label n = none := by
    cases hn : g₁.label n with
    | none =>
        cases hn' : g₂.label n with
        | none => rfl
        | some label =>
            rw [(below_cleanThread ho₁ hthread).label hn'] at hn
            cases hn
    | some label =>
        have hsame := hbelow₁.label hn
        rw [hlabel] at hsame
        obtain rfl := Option.some.inj hsame
        exact label_cleanThread_of_lt ho₁ (hc.of_below hbelow₁) hn hlt hthread
  cases hn : g'.label n with
  | none => rfl
  | some label =>
      rw [hbelow₂.label hn] at hgone
      cases hgone

theorem alive_of_spares {kInvalidThread : ℕ} {b : CriticalBlock}
    (h : Reachable kInvalidThread SparesReferences b) : ReferencesAlive b := by
  induction h with
  | initial =>
      rintro n (⟨key, hn⟩ | ⟨cpu, context, hmem, -⟩)
      · cases hn
      · cases hmem
  | @step b b' s hb _ hallowed hstep ih =>
      obtain ⟨ho, hp, -, -⟩ := hb.known
      rcases step_cases (fun _ _ => True) ho hp (fun _ _ _ _ _ => trivial) hstep with
        ⟨ts, event, rfl, heffect⟩ | ⟨ts, order, g, rfl, hclean, rfl⟩
      · intro n hn
        rcases heffect.refers n hn with hold | hnew
        · obtain ⟨label, hlabel⟩ := ih n hold
          exact ⟨label, heffect.grows.label (ho.setTimestamp ts) hlabel⟩
        · exact ⟨_, hnew⟩
      · intro n hn
        obtain ⟨⟨nodeTs, tid⟩, hlabel⟩ := ih n hn
        have hle : ts ≤ nodeTs := tsOf_of_label hlabel ▸ hallowed n hn
        exact ⟨_, label_cleanup_of_le ho hlabel hle hclean⟩

/-- While every cleanup spares the nodes that the block points to, no pointer of
the block dangles; the first cleanup that does not spare them leaves a dangling
pointer behind. -/
theorem referencesAlive_iff_spares {kInvalidThread : ℕ} {b : CriticalBlock}
    (h : Reachable kInvalidThread SparesReferences b) :
    ReferencesAlive b ∧ ∀ s b', Step.InOrder b s → b.step kInvalidThread s = .ok b' →
      (ReferencesAlive b' ↔ SparesReferences b s) := by
  have halive := alive_of_spares h
  refine ⟨halive, ?_⟩
  intro s b' horder hstep
  constructor
  · intro halive'
    obtain ⟨ho, -, hc, -⟩ := h.known
    cases s with
    | event ts event => trivial
    | cleanup ts order =>
        obtain ⟨g, hclean, hb'⟩ := bind_eq_ok.mp hstep
        obtain rfl := Except.ok.inj hb'
        intro n hn
        obtain ⟨⟨nodeTs, tid⟩, hlabel⟩ := halive n hn
        obtain ⟨label, hlabel'⟩ := halive' n hn
        rw [tsOf_of_label hlabel]
        by_contra hlt
        have htid : tid ∈ order :=
          (List.Perm.mem_iff horder).mpr (ho.keys (ho.mem_nodesOf.mpr ⟨nodeTs, hlabel⟩))
        rw [label_cleanup_of_lt ho hc htid hlabel (not_le.mp hlt) hclean] at hlabel'
        cases hlabel'
  · intro hallowed
    exact alive_of_spares (h.step horder hallowed hstep)

/-- A packet is sent at 5, and thread 1 is known since 1. -/
def packetInFlight : List Step :=
  [.event 1 (.threadStatus 1 (some .runUsermode)),
    .event 5 (.inetSockLocalOut 0 1 ⟨1, 0, 0⟩)]

/-- The cleanup at 3 removes the first node of thread 1 and spares the packet. -/
theorem referencesAlive_packetInFlight :
    ∃ b, (CriticalBlock.after 4294967295 packetInFlight).step 4294967295
        (.cleanup 3 [1, kNetworkThread]) = .ok b ∧
      b.Refers 2 ∧ b.graph.label 0 = none ∧
      ReferencesAlive b ∧ ∀ s b', Step.InOrder b s → b.step 4294967295 s = .ok b' →
        (ReferencesAlive b' ↔ SparesReferences b s) := by
  have hfollows : Follows 4294967295 OnlyEvents .initial packetInFlight := by decide
  have hsent : Reachable 4294967295 SparesReferences (.after 4294967295 packetInFlight) := by
    refine hfollows.reachable_after.mono ?_
    rintro b (_ | _) hallowed
    · trivial
    · exact hallowed.elim
  have hspares : SparesReferences (.after 4294967295 packetInFlight)
      (.cleanup 3 [1, kNetworkThread]) := by
    intro n hn
    obtain ⟨⟨ts, tid⟩, hlabel⟩ := alive_of_spares hsent n hn
    obtain rfl := (hsent.known.pointers n hn).2 ts tid hlabel
    have hnodes : ∀ n ∈ (CriticalBlock.after 4294967295 packetInFlight).graph.nodesOf
        kNetworkThread, 3 ≤ (CriticalBlock.after 4294967295 packetInFlight).graph.tsOf n := by
      decide
    exact hnodes n (hsent.known.owned.mem_nodesOf.mpr ⟨ts, hlabel⟩)
  have hrun : Follows 4294967295 (fun _ _ => True) (.after 4294967295 packetInFlight)
      [.cleanup 3 [1, kNetworkThread]] := by decide
  obtain ⟨b, hstep, -⟩ := hrun.reachable (hsent.mono fun _ _ _ => trivial)
  obtain ⟨b', hclean, hnil⟩ := run_cons_eq_ok.mp hstep
  obtain rfl := Except.ok.inj hnil
  have hview : ((CriticalBlock.after 4294967295 packetInFlight).step 4294967295
      (.cleanup 3 [1, kNetworkThread])).map (fun b =>
        (b.networkNodes ⟨1, 0, 0⟩, b.graph.label 0)) = .ok (some 2, none) := by decide
  rw [hclean] at hview
  simp only [Except.map, Except.ok.injEq, Prod.mk.injEq] at hview
  have horder : Step.InOrder (.after 4294967295 packetInFlight)
      (.cleanup 3 [1, kNetworkThread]) := by decide
  exact ⟨b', hclean, .inl ⟨_, hview.1⟩, hview.2,
    referencesAlive_iff_spares (hsent.step horder hspares hclean)⟩

/-- A packet is sent at 2 and never received. With 12 seconds between two
cleanups, the second one has a cutoff later than the packet. -/
def lostPacket : List Step :=
  [.event 1 (.threadStatus 1 (some .runUsermode)),
    .event 2 (.inetSockLocalOut 0 1 ⟨1, 0, 0⟩),
    .event 13000000000 (.threadStatus 2 (some .runUsermode)),
    .cleanup 1 [1, kNetworkThread, 2],
    .event 26000000000 (.threadStatus 3 (some .runUsermode)),
    .cleanup 13000000000 [1, kNetworkThread, 2, 3]]

theorem not_referencesAlive_lostPacket :
    Reachable 4294967295 PastCutoffs (.after 4294967295 lostPacket) ∧
      ¬ ReferencesAlive (.after 4294967295 lostPacket) := by
  have hfollows : Follows 4294967295 PastCutoffs .initial lostPacket := by decide
  refine ⟨hfollows.reachable_after, ?_⟩
  intro halive
  have hpacket : (CriticalBlock.after 4294967295 lostPacket).networkNodes ⟨1, 0, 0⟩ = some 2 := by
    decide
  have hfreed : (CriticalBlock.after 4294967295 lostPacket).graph.label 2 = none := by decide
  obtain ⟨label, hlabel⟩ := halive 2 (.inl ⟨⟨1, 0, 0⟩, hpacket⟩)
  rw [hfreed] at hlabel
  cases hlabel

end TibeeCompare.CriticalBlocks
