import Comlink.ClusterMembers

/-!
# Updates of peer addresses

`UpdatePeerAddr` puts the new address into the member store with the operation that also
enters a new member. A replica that is no member thereby becomes one of the persisted list,
from which the next process takes its members. As long as only addresses of members are
updated, the persisted list names the members of the manager, whatever is voted.
-/
namespace Comlink.Cluster
open GuardedRuns

/-- `UpdatePeerAddr`, which refuses a replica whose length is not that of an identifier. -/
def updatePeerAddr (c : Cluster) (r : ReplicaID) (addr : String) : Cluster :=
  if r.length ≠ idLen then c else { c with members := MemberStore.add c.members r addr }

/-- A step of the manager, or an update of an address. -/
inductive AdminAction where
  | step (act : Action)
  | updatePeerAddr (r : ReplicaID) (addr : String)
  deriving DecidableEq, Repr

def adminStep (c : Cluster) : AdminAction → Option Cluster
  | .step act => c.step act
  | .updatePeerAddr r addr => some (c.updatePeerAddr r addr)

/-- Only the address of a member is updated. -/
def UpdatesMember (c : Cluster) : AdminAction → Prop
  | .step _ => True
  | .updatePeerAddr r _ => r.length = idLen → r ∈ c.manager.membershipList

instance (c : Cluster) (act : AdminAction) : Decidable (c.UpdatesMember act) :=
  match act with
  | .step _ => isTrue trivial
  | .updatePeerAddr _ _ => inferInstanceAs (Decidable (_ → _))

variable {c c' c₀ : Cluster} {r : ReplicaID}

theorem Listed.keptOrRemoved (h : c.Listed) {m : Manager}
    (hm : Manager.KeptOrRemoved c.manager m) (hs : m.Standing) : (c.follow m).Listed := by
  rcases hm with hm | ⟨m₀, target, hm₀, hm⟩
  · rw [follow_of_events_eq hm.events]
    exact ⟨h.ids.trans hm.list.symm, hs.member⟩
  · have hroster := (hm₀.removeMember target).trans hm
    rw [follow_of_events_concat hroster.events]
    refine ⟨?_, hs.member⟩
    rw [onMembershipChange, MemberStore.ids_remove, h.ids, hroster.list]
    rfl

theorem Listed.step (h : c.Listed) (hs : c.manager.Standing) {act : Action}
    (hstep : c.step act = some c') : c'.Listed ∧ c'.manager.Standing := by
  cases act with
  | call k =>
    cases hstep
    exact ⟨h.keptOrRemoved (Manager.keptOrRemoved_call _ k) (hs.call k), hs.call k⟩
  | dispatch suspected sender frame =>
    cases hstep
    refine ⟨?_, hs.dispatch suspected sender frame⟩
    by_cases hnone : frame.admits = none
    · exact h.keptOrRemoved (Manager.keptOrRemoved_dispatch _ suspected sender frame hnone)
        (hs.dispatch suspected sender frame)
    · cases frame with
      | memberAdd target addr => exact h.accept (.added target addr)
      | _ => exact absurd rfl hnone

/-- The update enters nobody exactly if the replica is a member or is refused. -/
theorem Listed.ids_updatePeerAddr (h : c.Listed) (addr : String) :
    MemberStore.ids (c.updatePeerAddr r addr).members = c.manager.membershipList ↔
      c.UpdatesMember (.updatePeerAddr r addr) := by
  unfold updatePeerAddr UpdatesMember
  split_ifs with hlen
  · exact iff_of_true h.ids fun hid => absurd hid hlen
  · dsimp only
    rw [MemberStore.ids_add, h.ids, imp_iff_right (Decidable.not_not.mp hlen)]
    split_ifs with hin
    · exact iff_of_true rfl hin
    · exact iff_of_false (by simp) hin

theorem Listed.adminStep (h : c.Listed) (hs : c.manager.Standing) {act : AdminAction}
    (hok : c.UpdatesMember act) (hstep : c.adminStep act = some c') :
    c'.Listed ∧ c'.manager.Standing := by
  cases act with
  | step act => exact h.step hs hstep
  | updatePeerAddr r addr =>
    cases hstep
    have hmanager : (c.updatePeerAddr r addr).manager = c.manager := by
      unfold updatePeerAddr
      split_ifs <;> rfl
    refine ⟨⟨?_, ?_⟩, ?_⟩
    · rw [hmanager]
      exact (h.ids_updatePeerAddr addr).mpr hok
    · rw [hmanager]
      exact h.self
    · rw [hmanager]
      exact hs

/-- In every run of votes and address updates, the latter for members only, the persisted
list names exactly the members of the manager. -/
theorem persisted_iff_live {self : ReplicaID} {persisted : List ClusterMember}
    (h : start self persisted = some c₀) (hr : Reach adminStep UpdatesMember c₀ c) :
    ∀ r, r ∈ MemberStore.ids c.members ↔ r ∈ c.manager.membershipList := by
  have hlisted : c.Listed ∧ c.manager.Standing := by
    refine hr.invariant (P := fun c => c.Listed ∧ c.manager.Standing)
      ⟨listed_start h, (recorded_start h).standing⟩ ?_
    rintro c act c' ⟨hl, hs⟩ hok hstep
    exact hl.adminStep hs hok hstep
  intro r
  rw [hlisted.1.ids]

/-- A member is voted in and its address is updated; a short identifier is refused. -/
theorem persisted_iff_live_admitted : ∃ c₀ c : Cluster,
    start (replicaOf 1) [⟨replicaOf 1, "a"⟩] = some c₀ ∧
    c.members = [⟨replicaOf 1, "a"⟩, ⟨replicaOf 2, "c"⟩] ∧
    ∀ r, r ∈ MemberStore.ids c.members ↔ r ∈ c.manager.membershipList := by
  have hstart : (start (replicaOf 1) [⟨replicaOf 1, "a"⟩]).isSome = true := by decide
  obtain ⟨c₀, hc₀⟩ := Option.isSome_iff_exists.mp hstart
  have hrun : (execute adminStep UpdatesMember c₀
      [.step (.dispatch false (replicaOf 1) (.memberAdd (replicaOf 2) "b")),
        .updatePeerAddr (replicaOf 2) "c", .updatePeerAddr [3] "d"]).map
      (fun c => decide (c.members = [⟨replicaOf 1, "a"⟩, ⟨replicaOf 2, "c"⟩])) = some true := by
    cases hc₀
    decide +kernel
  obtain ⟨c, -, hr, hc⟩ := reach_of_execute hrun
  exact ⟨c₀, c, hc₀, of_decide_eq_true hc, persisted_iff_live hc₀ hr⟩

/-- The address of a replica that is no member is updated, and the replica is persisted as
one. -/
theorem updatePeerAddr_persists_stranger : ∃ c₀ c : Cluster,
    start (replicaOf 1) [⟨replicaOf 1, "a"⟩] = some c₀ ∧
    Reach adminStep (fun _ _ => True) c₀ c ∧ (replicaOf 2).length = idLen ∧
    replicaOf 2 ∈ MemberStore.ids c.members ∧ replicaOf 2 ∉ c.manager.membershipList := by
  have hstart : (start (replicaOf 1) [⟨replicaOf 1, "a"⟩]).isSome = true := by decide
  obtain ⟨c₀, hc₀⟩ := Option.isSome_iff_exists.mp hstart
  have hrun : (execute adminStep (fun _ _ => True) c₀ [.updatePeerAddr (replicaOf 2) "b"]).map
      (fun c => decide (replicaOf 2 ∈ MemberStore.ids c.members ∧
        replicaOf 2 ∉ c.manager.membershipList)) = some true := by
    cases hc₀
    decide +kernel
  obtain ⟨c, -, hr, hc⟩ := reach_of_execute hrun
  exact ⟨c₀, c, hc₀, hr, rfl, of_decide_eq_true hc⟩

end Comlink.Cluster
