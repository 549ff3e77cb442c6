import Comlink.ClusterMembers

/-!
# Slots after a restart and at a joiner

The live conversation freezes the slot of a removed member and never renumbers, while the
persisted list and the answer to a joiner leave the removed member out. Whoever comes
after it is counted one slot lower by a conversation that is built from such a list. A
member that is admitted again keeps its old slot, but is put at the end of the lists.
-/
namespace Comlink.Cluster
open ListScans GuardedRuns

variable {c c₀ : Cluster} {r : ReplicaID}

/-- Every member of `c` has the same slot in `c'`. -/
def SameSlots (c c' : Cluster) : Prop :=
  ∀ r ∈ c.manager.membershipList,
    c'.manager.membership.slotOf r = c.manager.membership.slotOf r

/-- The members keep their slots if the replica restarts now, and at everybody who joins
with it as the sponsor. -/
def SlotsKept (c : Cluster) : Prop :=
  (∃ c', c.restart = some c' ∧ c.SameSlots c') ∧
    ∀ joiner ∈ c.manager.membershipList, joiner ≠ c.manager.self →
      ∀ addr, ∃ c', c.join joiner addr = some c' ∧ c.SameSlots c'

/-- A change at the end of the lists: the removed member comes after all others, and the
admitted one has, or gets, the slot right after those of the members. -/
def AtEnd (c : Cluster) : MembershipChange → Prop
  | .removed r => r = c.manager.self ∨
      c.manager.membershipList.filter (· ≠ r) <+: c.manager.membershipList
  | .added r _ => r = c.manager.self ∨ r ∈ c.manager.membershipList ∨
      (c.manager.membership.slotOf r).getD c.manager.membership.len =
        c.manager.membershipList.length

theorem sameSlots_of_start {self : ReplicaID} {persisted : List ClusterMember} {c' : Cluster}
    (hids : MemberStore.ids persisted = c.manager.membershipList)
    (h : start self persisted = some c') : c.SameSlots c' ↔ ∀ r ∈ c.manager.membershipList,
      lastIdxOf r c.manager.membershipList = c.manager.membership.slotOf r := by
  obtain ⟨-, rfl⟩ := start_eq_some h
  simp [SameSlots, Manager.new, Membership.slotOf, hids]

theorem ids_joinResponse (c : Cluster) (joiner : ReplicaID) (addr : String) :
    MemberStore.ids (c.joinResponse joiner addr) = c.manager.membershipList := by
  simp [MemberStore.ids, joinResponse, Function.comp_def]

theorem exists_start {self : ReplicaID} {persisted : List ClusterMember}
    (h : self ∈ MemberStore.ids persisted) : ∃ c', start self persisted = some c' :=
  ⟨_, if_pos h⟩

/-- A member keeps its slot if its position in the member list is its slot. -/
theorem slotsKept_iff (h : c.Listed) : c.SlotsKept ↔ ∀ r ∈ c.manager.membershipList,
    lastIdxOf r c.manager.membershipList = c.manager.membership.slotOf r := by
  constructor
  · rintro ⟨⟨c', hc', hsame⟩, -⟩
    exact (sameSlots_of_start h.ids hc').mp hsame
  · intro hslots
    refine ⟨?_, ?_⟩
    · obtain ⟨c', hc'⟩ := exists_start (h.ids.symm ▸ h.self)
      exact ⟨c', hc', (sameSlots_of_start h.ids hc').mpr hslots⟩
    · intro joiner hjoiner _ addr
      have hids := c.ids_joinResponse joiner addr
      obtain ⟨c', hc'⟩ := exists_start (hids.symm ▸ hjoiner)
      exact ⟨c', hc', (sameSlots_of_start hids hc').mpr hslots⟩

/-- From a state in which the slots are kept, a removal keeps them only at the end. -/
theorem slotsKept_removed_iff (h : c.Listed) (hk : c.SlotsKept) (r : ReplicaID) :
    (c.accept (.removed r)).SlotsKept ↔ c.AtEnd (.removed r) := by
  by_cases hself : r = c.manager.self
  · rw [accept, if_pos hself]
    exact iff_of_true hk (Or.inl hself)
  · rw [slotsKept_iff (h.accept _), accept_removed hself, AtEnd, or_iff_right hself,
      filter_ne_prefix_iff]
    have hslots := (slotsKept_iff h).mp hk
    have hkept : ∀ x, (c.manager.removeMember r).membership.slotOf x =
        c.manager.membership.slotOf x := by
      intro x
      rw [Membership.slotOf, Manager.removeMember, Membership.allReplicas_freeze_getD]
      rfl
    have hlist : (c.manager.removeMember r).membershipList =
        c.manager.membershipList.filter (· ≠ r) := rfl
    constructor
    · intro hrest x hx hne
      have hin : x ∈ c.manager.membershipList.filter (· ≠ r) :=
        List.mem_filter.mpr ⟨hx, decide_eq_true hne⟩
      have hx' := hrest x hin
      rw [hkept, ← hslots x hx] at hx'
      exact hx'
    · intro hrest x hx
      obtain ⟨hin, hne⟩ := List.mem_filter.mp hx
      dsimp only
      rw [hkept, ← hslots x hin, hlist]
      exact hrest x hin (of_decide_eq_true hne)

/-- An addition keeps the slots only if the position of the new member is its slot. -/
theorem slotsKept_added_iff (h : c.Listed) (hk : c.SlotsKept) (r : ReplicaID) (addr : String) :
    (c.accept (.added r addr)).SlotsKept ↔ c.AtEnd (.added r addr) := by
  by_cases hr : r = c.manager.self ∨ r ∈ c.manager.membershipList
  · rw [accept_added_of_mem addr hr, AtEnd, ← or_assoc]
    exact iff_of_true hk (Or.inl hr)
  · have hout := hr
    push Not at hout
    obtain ⟨-, hlist, hmembership, -⟩ := Manager.applyMemberAdd_of_not_mem hout.2 addr
    rw [slotsKept_iff (h.accept _), accept_added addr hout.1 hout.2, AtEnd, ← or_assoc,
      or_iff_right hr]
    dsimp only
    rw [hlist, hmembership]
    have hslots := (slotsKept_iff h).mp hk
    constructor
    · intro hrest
      have hlast := hrest r (List.mem_append_right _ (List.mem_singleton_self r))
      rw [lastIdxOf_concat_self, Membership.slotOf_add_getD_self, Option.some.injEq] at hlast
      exact hlast.symm
    · intro hend x hx
      rcases List.mem_append.mp hx with hx | hx
      · have hne : x ≠ r := fun he => hout.2 (he ▸ hx)
        rw [lastIdxOf_concat_ne hne.symm, Membership.slotOf_add_getD_of_ne _ hne]
        exact hslots x hx
      · rw [List.mem_singleton.mp hx, lastIdxOf_concat_self, Membership.slotOf_add_getD_self, hend]

theorem slotsKept_accept_iff (h : c.Listed) (hk : c.SlotsKept) (change : MembershipChange) :
    (c.accept change).SlotsKept ↔ c.AtEnd change := by
  cases change with
  | added r addr => exact slotsKept_added_iff h hk r addr
  | removed r => exact slotsKept_removed_iff h hk r

theorem slotsKept_start {self : ReplicaID} {persisted : List ClusterMember}
    (h : start self persisted = some c) : c.SlotsKept := by
  rw [slotsKept_iff (listed_start h)]
  obtain ⟨-, rfl⟩ := start_eq_some h
  intro r _
  simp [Manager.new, Membership.slotOf]

/-- After every part of a history of accepted changes the members keep their slots over a
restart and at a joiner, exactly if all these changes are at the end. -/
theorem slotsKept_iff_atEnd {self : ReplicaID} {persisted : List ClusterMember} {c₀ : Cluster}
    (h : start self persisted = some c₀) (history : List MembershipChange) :
    (∀ n, (c₀.replay (history.take n)).SlotsKept) ↔
      ∀ n change, history[n]? = some change → (c₀.replay (history.take n)).AtEnd change := by
  have hlisted := listed_start h
  have hnext : ∀ n change, history[n]? = some change →
      c₀.replay (history.take (n + 1)) = (c₀.replay (history.take n)).accept change := by
    intro n change hn
    rw [List.take_add_one, hn, Option.toList_some, replay_concat]
  constructor
  · intro hkept n change hn
    have hafter := hkept (n + 1)
    rw [hnext n change hn] at hafter
    exact (slotsKept_accept_iff (hlisted.replay _) (hkept n) change).mp hafter
  · intro hend n
    induction n with
    | zero => exact slotsKept_start h
    | succ n ih =>
      cases hn : history[n]? with
      | none =>
        rw [List.take_add_one, hn, Option.toList_none, List.append_nil]
        exact ih
      | some change =>
        rw [hnext n change hn]
        exact (slotsKept_accept_iff (hlisted.replay _) ih change).mpr (hend n change hn)

def threeMembers : List ClusterMember :=
  [⟨replicaOf 1, "a"⟩, ⟨replicaOf 2, "b"⟩, ⟨replicaOf 3, "c"⟩]

/-- The last member leaves and comes back before somebody new is admitted. -/
def lastLeavesAndReturns : List MembershipChange :=
  [.removed (replicaOf 3), .added (replicaOf 3) "c", .added (replicaOf 4) "d"]

theorem slotsKept_iff_atEnd_lastReturns :
    ∃ c₀, start (replicaOf 1) threeMembers = some c₀ ∧
      ∀ n, (c₀.replay (lastLeavesAndReturns.take n)).SlotsKept := by
  have hstart : start (replicaOf 1) threeMembers =
      some ⟨Manager.new (replicaOf 1) [replicaOf 1, replicaOf 2, replicaOf 3] 3, threeMembers⟩ :=
    rfl
  refine ⟨_, hstart, (slotsKept_iff_atEnd hstart _).mpr ?_⟩
  rintro (_ | _ | _ | n) change hn
  · cases hn
    unfold AtEnd
    decide +kernel
  · cases hn
    unfold AtEnd
    decide +kernel
  · cases hn
    unfold AtEnd
    decide +kernel
  · cases hn

/-- The first of three replicas removes the second with the Ack of the third. -/
def secondVotedOut : List Action :=
  [.call (.voteOut (replicaOf 2)), .call (.checkVoteOut (replicaOf 2)),
   .dispatch true (replicaOf 3) (.voteOutAck (replicaOf 2))]

theorem slot_moves_after_removal :
    ∃ c₀ c, start (replicaOf 1) threeMembers = some c₀ ∧
      Reach step (fun _ _ => True) c₀ c ∧
      c.manager.membershipList = [replicaOf 1, replicaOf 3] ∧
      c.manager.membership.slotOf (replicaOf 3) = some 2 ∧
      (c.restart.map fun c' => c'.manager.membership.slotOf (replicaOf 3)) = some (some 1) ∧
      ((c.join (replicaOf 3) "c").map fun c' => c'.manager.membership.slotOf (replicaOf 3)) =
        some (some 1) := by
  have hstart : start (replicaOf 1) threeMembers =
      some ⟨Manager.new (replicaOf 1) [replicaOf 1, replicaOf 2, replicaOf 3] 3, threeMembers⟩ :=
    rfl
  have hrun : (execute step (fun _ _ => True) ⟨Manager.new (replicaOf 1)
      [replicaOf 1, replicaOf 2, replicaOf 3] 3, threeMembers⟩ secondVotedOut).map (fun c =>
        decide (c.manager.membershipList = [replicaOf 1, replicaOf 3] ∧
          c.manager.membership.slotOf (replicaOf 3) = some 2 ∧
          (c.restart.map fun c' => c'.manager.membership.slotOf (replicaOf 3)) =
            some (some 1) ∧
          ((c.join (replicaOf 3) "c").map fun c' =>
            c'.manager.membership.slotOf (replicaOf 3)) = some (some 1))) = some true := by
    decide +kernel
  obtain ⟨c, -, hr, hc⟩ := reach_of_execute hrun
  exact ⟨_, c, hstart, hr, of_decide_eq_true hc⟩

end Comlink.Cluster
