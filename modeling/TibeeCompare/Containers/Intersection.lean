import TibeeCompare.Containers.TreeInvariants
import TibeeCompare.Lib.SortedLists

/-!
What a search of the tree reports.

The three prunings of the search ask for elements that end after the query starts,
and the last comparison for elements that do not end before. So an element that
ends where the query starts is reported together with a longer one of its node, and
is left out otherwise.
-/

namespace TibeeCompare.Containers

variable {T : Type}

/-- The closed intervals have a point in common. -/
def Meets (query : Interval) (e : ElementPair T) : Prop :=
  e.1.low ≤ query.high ∧ query.low ≤ e.1.high

instance (query : Interval) : DecidablePred (Meets (T := T) query) :=
  fun e => inferInstanceAs (Decidable (e.1.low ≤ query.high ∧ query.low ≤ e.1.high))

/-- By increasing lower bounds, from the longest to the shortest. -/
def InOrder (a b : ElementPair T) : Prop :=
  a.1.low < b.1.low ∨ a.1.low = b.1.low ∧ b.1.high ≤ a.1.high

/-- An element that meets the query and has an element with its lower bound, maybe
itself, that ends after the query starts. -/
def Reported (elements : List (ElementPair T)) (query : Interval) (e : ElementPair T) : Prop :=
  Meets query e ∧ ∃ longest ∈ elements, longest.1.low = e.1.low ∧ query.low < longest.1.high

instance (elements : List (ElementPair T)) (query : Interval) :
    DecidablePred (Reported elements query) :=
  fun _ => inferInstanceAs (Decidable (_ ∧ _))

theorem reported_congr {elements elements' : List (ElementPair T)} (h : elements.Perm elements')
    (query : Interval) (e : ElementPair T) :
    Reported elements query e ↔ Reported elements' query e := by
  simp only [Reported, h.mem_iff]

/-! ### One group -/

/-- What a search reports of one group. -/
def reportedOf (query : Interval) (group : List (ElementPair T)) : List (ElementPair T) :=
  if nodeLow group ≤ query.high ∧ query.low < nodeMaxHigh group then
    group.reverse.takeWhile fun e => !decide (e.1.high < query.low)
  else []

/-- A sorted list from its end on: the elements that are taken are all that are
wanted. -/
theorem takeWhile_reverse {group : List (ElementPair T)} (h : group.Pairwise endsBy)
    (query : Interval) :
    (group.reverse.takeWhile fun e => !decide (e.1.high < query.low)) =
      (group.filter fun e => query.low ≤ e.1.high).reverse := by
  have hreverse : group.reverse.Pairwise fun a b =>
      (!decide (b.1.high < query.low)) = true → (!decide (a.1.high < query.low)) = true := by
    refine List.pairwise_reverse.mpr (h.imp fun {a b} hab ha => ?_)
    have hle : a.1.high ≤ b.1.high := hab
    simp only [Bool.not_eq_true', decide_eq_false_iff_not] at ha ⊢
    omega
  rw [SortedLists.takeWhile_eq_filter hreverse, List.filter_reverse]
  congr 2
  funext e
  rw [← decide_not]
  exact decide_eq_decide.mpr Nat.not_lt

theorem reportedOf_perm {groups : List (List (ElementPair T))} (h : AreGroups groups)
    {group : List (ElementPair T)} (hmem : group ∈ groups) (query : Interval) :
    (reportedOf query group).Perm (group.filter fun e => Reported groups.flatten query e) := by
  obtain ⟨hne, hlow, hsorted⟩ := h.each group hmem
  have hreported : ∀ e ∈ group, Reported groups.flatten query e ↔
      (nodeLow group ≤ query.high ∧ query.low < nodeMaxHigh group) ∧ query.low ≤ e.1.high := by
    intro e he
    rw [nodeMaxHigh_eq hsorted, lt_maxHigh, Reported, Meets, hlow e he]
    constructor
    · rintro ⟨⟨hhigh, hle⟩, longest, hlongest, hsamelow, hlt⟩
      exact ⟨⟨hhigh, longest, h.mem_group hmem hlongest hsamelow, hlt⟩, hle⟩
    · rintro ⟨⟨hhigh, longest, hlongest, hlt⟩, hle⟩
      exact ⟨⟨hhigh, hle⟩, longest, List.mem_flatten.mpr ⟨group, hmem, hlongest⟩,
        hlow longest hlongest, hlt⟩
  have hfilter : (group.filter fun e => Reported groups.flatten query e) =
      group.filter fun e => (nodeLow group ≤ query.high ∧ query.low < nodeMaxHigh group) ∧
        query.low ≤ e.1.high :=
    List.filter_congr fun e he => decide_eq_decide.mpr (hreported e he)
  rw [hfilter, reportedOf]
  split
  · next hnode =>
      rw [takeWhile_reverse hsorted]
      simp only [hnode, and_self, true_and]
      exact List.reverse_perm _
  · next hnode => simp [hnode]

theorem mem_of_mem_reportedOf {query : Interval} {group : List (ElementPair T)} {e : ElementPair T}
    (h : e ∈ reportedOf query group) : e ∈ group := by
  rw [reportedOf] at h
  split at h
  · exact List.mem_reverse.mp ((List.takeWhile_sublist _).mem h)
  · exact absurd h List.not_mem_nil

theorem reportedOf_ordered {group : List (ElementPair T)} (h : IsGroup group) (query : Interval) :
    (reportedOf query group).Pairwise InOrder := by
  rw [reportedOf]
  split
  · refine List.Pairwise.sublist (List.takeWhile_sublist _) (List.pairwise_reverse.mpr ?_)
    refine h.sorted.imp_of_mem fun {a b} ha hb hab => ?_
    exact Or.inr ⟨(h.sameLow b hb).trans (h.sameLow a ha).symm, hab⟩
  · exact List.Pairwise.nil

/-! ### The whole tree -/

/-- The search reports the right part of each group, from left to right: it depends on
the groups only. -/
theorem Node.enumerateIntersectionInternal_eq {h : Node T} (hgroups : AreGroups h.groups)
    (hmax : h.MaxCached) (query : Interval) :
    h.enumerateIntersectionInternal query = h.groups.flatMap (reportedOf query) := by
  induction h with
  | null => rfl
  | node elements color left right m ihLeft ihRight =>
      obtain ⟨-, hmaxLeft, hmaxRight⟩ := hmax
      obtain ⟨hleft, hgroup, hright, -, habove⟩ := AreGroups.split hgroups
      have hfromLeft : (if query.low < left.subtreeMaxHigh then
          left.enumerateIntersectionInternal query else []) =
            left.groups.flatMap (reportedOf query) := by
        split
        · exact ihLeft hleft hmaxLeft
        · next hshort =>
            rw [hmaxLeft.subtreeMaxHigh_eq] at hshort
            refine (List.flatMap_eq_nil_iff.mpr fun group hmem => ?_).symm
            have hle : nodeMaxHigh group ≤ query.low := by
              rw [nodeMaxHigh_eq (hleft.each group hmem).sorted, maxHigh_le]
              intro e he
              exact maxHigh_le.mp (Nat.le_of_not_lt hshort) e
                (List.mem_flatten.mpr ⟨group, hmem, he⟩)
            exact if_neg fun hnode => Nat.not_lt.mpr hle hnode.2
      rw [enumerateIntersectionInternal, groups_node, List.flatMap_append, List.flatMap_cons,
        hfromLeft, ihRight hright hmaxRight]
      dsimp only
      split
      · next hafter =>
          have hnone : reportedOf query elements = [] := if_neg fun hnode => by omega
          have hnoneRight : right.groups.flatMap (reportedOf query) = [] := by
            refine List.flatMap_eq_nil_iff.mpr fun group hmem => ?_
            have hlt := habove group hmem
            exact if_neg fun hnode => by omega
          rw [hnone, hnoneRight, List.append_nil, List.append_nil]
      · next hstarts =>
          have hstarts : nodeLow elements ≤ query.high := Nat.le_of_not_lt hstarts
          simp [reportedOf, hstarts]

theorem flatMap_reportedOf_perm {groups : List (List (ElementPair T))} (h : AreGroups groups)
    (query : Interval) :
    (groups.flatMap (reportedOf query)).Perm
      (groups.flatten.filter fun e => Reported groups.flatten query e) := by
  rw [List.filter_flatten, ← List.flatMap_def]
  exact List.Perm.flatMap_left _ fun group hmem => reportedOf_perm h hmem query

theorem flatMap_reportedOf_ordered {groups : List (List (ElementPair T))} (h : AreGroups groups)
    (query : Interval) : (groups.flatMap (reportedOf query)).Pairwise InOrder := by
  refine List.pairwise_flatMap.mpr
    ⟨fun group hmem => reportedOf_ordered (h.each group hmem) query, ?_⟩
  refine h.sorted.imp_of_mem fun {a b} ha hb hlt x hx y hy => Or.inl ?_
  rw [(h.each a ha).sameLow x (mem_of_mem_reportedOf hx),
    (h.each b hb).sameLow y (mem_of_mem_reportedOf hy)]
  exact hlt

namespace RedBlackIntervalTree

theorem Valid.enumerateIntersection_perm {tree : RedBlackIntervalTree T} (h : tree.Valid)
    (query : Interval) :
    (tree.enumerateIntersection query).Perm
      (tree.root.toList.filter fun e => Reported tree.root.toList query e) := by
  rw [enumerateIntersection, Node.enumerateIntersectionInternal_eq h.groups h.maxCached]
  exact flatMap_reportedOf_perm h.groups query

theorem Valid.enumerateIntersection_ordered {tree : RedBlackIntervalTree T} (h : tree.Valid)
    (query : Interval) : (tree.enumerateIntersection query).Pairwise InOrder := by
  rw [enumerateIntersection, Node.enumerateIntersectionInternal_eq h.groups h.maxCached]
  exact flatMap_reportedOf_ordered h.groups query

/-- What a tree reports of the elements that were inserted, whatever their order was. -/
theorem enumerateIntersection_insertAll_perm (inserted : List (ElementPair T))
    (query : Interval) : ((insertAll {} inserted).enumerateIntersection query).Perm
      (inserted.filter fun e => Reported inserted query e) := by
  have hempty : Valid ({} : RedBlackIntervalTree T) := valid_empty
  have hperm := perm_insertAll inserted
  have hreported := (valid_insertAll hempty inserted).enumerateIntersection_perm query
  simp only [reported_congr hperm] at hreported
  exact hreported.trans (hperm.filter _)

/-- The answer to a query is the elements that meet it, each as often as it was
inserted, in order. -/
structure ReportsMeeting (inserted : List (ElementPair T)) (query : Interval) : Prop where
  elements : ((insertAll {} inserted).enumerateIntersection query).Perm
    (inserted.filter fun e => Meets query e)
  ordered : ((insertAll {} inserted).enumerateIntersection query).Pairwise InOrder

/-- The tree answers a query right exactly if each inserted element that ends where
the query starts has its lower bound in common with a longer one. -/
theorem reportsMeeting_iff (inserted : List (ElementPair T)) (query : Interval) :
    ReportsMeeting inserted query ↔
      ∀ e ∈ inserted, e.1.low ≤ query.high → e.1.high = query.low →
        ∃ longer ∈ inserted, longer.1.low = e.1.low ∧ query.low < longer.1.high := by
  have hempty : Valid ({} : RedBlackIntervalTree T) := valid_empty
  have hanswer := enumerateIntersection_insertAll_perm inserted query
  constructor
  · rintro ⟨helements, -⟩ e he hlow hhigh
    have hmeets : e ∈ inserted.filter fun e => Meets query e :=
      List.mem_filter.mpr ⟨he, decide_eq_true ⟨hlow, hhigh.ge⟩⟩
    have hmem := hanswer.mem_iff.mp (helements.mem_iff.mpr hmeets)
    exact (of_decide_eq_true (List.mem_filter.mp hmem).2).2
  · intro hlonger
    refine ⟨hanswer.trans (List.Perm.of_eq (List.filter_congr fun e he => ?_)),
      (valid_insertAll hempty inserted).enumerateIntersection_ordered query⟩
    refine decide_eq_decide.mpr ⟨fun h => h.1, fun hmeets => ⟨hmeets, ?_⟩⟩
    rcases Nat.eq_or_lt_of_le hmeets.2 with heq | hlt
    · exact hlonger e he hmeets.1 heq.symm
    · exact ⟨e, he, rfl, hlt⟩

/-- An interval that ends where the query starts is not reported. -/
theorem not_reportsMeeting_touching : ¬ ReportsMeeting [(⟨0, 10⟩, 1)] ⟨10, 12⟩ := by
  rintro ⟨helements, -⟩
  have hlength := helements.length_eq
  revert hlength
  decide

/-! ### Orders of insertion -/

/-- Two trees answer a query with the same intervals in the same order, and with the same values
for each interval. -/
structure AnswerAlike (tree tree' : RedBlackIntervalTree T) (query : Interval) : Prop where
  intervals : (tree.enumerateIntersection query).map Prod.fst =
    (tree'.enumerateIntersection query).map Prod.fst
  pairs : (tree.enumerateIntersection query).Perm (tree'.enumerateIntersection query)

/-- Elements in order have their intervals in the only order that these can have. -/
theorem intervals_eq {answer answer' : List (ElementPair T)} (hperm : answer.Perm answer')
    (hordered : answer.Pairwise InOrder) (hordered' : answer'.Pairwise InOrder) :
    answer.map Prod.fst = answer'.map Prod.fst := by
  have hmap : ∀ {list : List (ElementPair T)}, list.Pairwise InOrder →
      (list.map Prod.fst).Pairwise fun a b : Interval =>
        a.low < b.low ∨ a.low = b.low ∧ b.high ≤ a.high :=
    fun h => List.pairwise_map.mpr h
  refine (hperm.map Prod.fst).eq_of_pairwise ?_ (hmap hordered) (hmap hordered')
  rintro ⟨low, high⟩ ⟨low', high'⟩ - - hab hba
  dsimp only at hab hba
  rw [Interval.mk.injEq]
  omega

/-- The order in which elements are inserted makes no difference. -/
theorem answerAlike_of_perm {inserted inserted' : List (ElementPair T)}
    (hperm : inserted.Perm inserted') (query : Interval) :
    AnswerAlike (insertAll {} inserted) (insertAll {} inserted') query := by
  have hempty : Valid ({} : RedBlackIntervalTree T) := valid_empty
  have hpairs : ((insertAll {} inserted).enumerateIntersection query).Perm
      ((insertAll {} inserted').enumerateIntersection query) := by
    refine (enumerateIntersection_insertAll_perm inserted query).trans ?_
    simp only [reported_congr hperm]
    exact (hperm.filter _).trans (enumerateIntersection_insertAll_perm inserted' query).symm
  exact ⟨intervals_eq hpairs ((valid_insertAll hempty inserted).enumerateIntersection_ordered query)
    ((valid_insertAll hempty inserted').enumerateIntersection_ordered query), hpairs⟩

theorem answerAlike_reversed : AnswerAlike
    (insertAll {} [(⟨0, 10⟩, 1), (⟨5, 7⟩, 2), (⟨0, 10⟩, 3), (⟨8, 9⟩, 4)])
    (insertAll {} [(⟨8, 9⟩, 4), (⟨0, 10⟩, 3), (⟨5, 7⟩, 2), (⟨0, 10⟩, 1)]) ⟨6, 8⟩ :=
  answerAlike_of_perm (by decide) ⟨6, 8⟩

end RedBlackIntervalTree

end TibeeCompare.Containers
