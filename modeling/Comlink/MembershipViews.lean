import Comlink.GuardedRuns
import Comlink.VoteManager

/-!
# The member list of a manager and the slots of its conversation

A removal takes the target out of the list and freezes its slot; an addition appends the
target to the list and asks for a new slot. A slot is never given twice, so that the two
views part when a replica that was removed is admitted again: the list has it, and its only
slot stays frozen. Apart from that they name the same replicas.
-/
namespace Comlink
open GuardedRuns

namespace Membership

variable {m : Membership} {r target : ReplicaID}

theorem mem_replicas_iff : r ∈ m.replicas ↔ ∃ i : ℕ, m.slots[i]? = some (Slot.mk r false) := by
  rw [replicas, List.mem_map]
  constructor
  · rintro ⟨⟨r', frozen⟩, hs, rfl⟩
    obtain ⟨hmem, hf⟩ := List.mem_filter.mp hs
    obtain rfl : frozen = false := by simpa using hf
    exact List.mem_iff_getElem?.mp hmem
  · rintro ⟨i, hi⟩
    exact ⟨⟨r, false⟩, List.mem_filter.mpr ⟨List.mem_of_getElem? hi, rfl⟩, rfl⟩

/-- Without repetitions every slot is the one that `SlotOf` finds. -/
theorem slotOf_eq_of_getElem? (hn : m.allReplicas.Nodup) {i : ℕ} {s : Slot}
    (hi : m.slots[i]? = some s) : m.slotOf s.replica = some i := by
  refine ListScans.lastIdxOf_eq_of_nodup hn ?_
  rw [allReplicas, List.getElem?_map, hi]
  rfl

/-- An active replica and the target of a `Freeze` are the same if their slots are. -/
theorem eq_iff_of_slotOf (hn : m.allReplicas.Nodup) {i j : ℕ}
    (hi : m.slots[i]? = some ⟨r, false⟩) (hj : m.slotOf target = some j) :
    r = target ↔ i = j := by
  have hr := slotOf_eq_of_getElem? hn hi
  constructor
  · rintro rfl
    exact Option.some.inj (hr.symm.trans hj)
  · rintro rfl
    have htarget := slotOf_getElem? hj
    rw [allReplicas, List.getElem?_map, hi] at htarget
    exact Option.some.inj htarget

theorem not_mem_replicas_of_freeze_eq_none (hn : m.allReplicas.Nodup)
    (h : m.freeze target = none) : target ∉ m.replicas := by
  rw [mem_replicas_iff]
  rintro ⟨i, hi⟩
  have hslot : m.slotOf target = some i := slotOf_eq_of_getElem? hn hi
  rw [freeze, hslot] at h
  dsimp only at h
  split at h
  · rename_i hfrozen
    rw [isFrozen, hi] at hfrozen
    cases hfrozen
  · cases h

theorem mem_replicas_freeze {m' : Membership} (hn : m.allReplicas.Nodup)
    (h : m.freeze target = some m') : r ∈ m'.replicas ↔ r ∈ m.replicas ∧ r ≠ target := by
  unfold freeze at h
  split at h
  · cases h
  · rename_i j hj
    split at h
    · cases h
    · obtain rfl := Option.some.inj h
      rw [mem_replicas_iff, mem_replicas_iff]
      constructor
      · rintro ⟨i, hi⟩
        rw [List.getElem?_modify, Option.map_eq_map, Option.map_eq_some_iff] at hi
        obtain ⟨s, hs, heq⟩ := hi
        split at heq
        · cases heq
        · rename_i hij
          obtain rfl : s = ⟨r, false⟩ := heq
          exact ⟨⟨i, hs⟩, fun hr => hij ((eq_iff_of_slotOf hn hs hj).mp hr).symm⟩
      · rintro ⟨⟨i, hi⟩, hne⟩
        have hij : ¬ j = i := fun hij => hne ((eq_iff_of_slotOf hn hi hj).mpr hij.symm)
        refine ⟨i, ?_⟩
        rw [List.getElem?_modify, hi, Option.map_eq_map, Option.map_some, if_neg hij]

/-- A `Freeze`, failed or not, leaves the other active replicas. -/
theorem mem_replicas_freeze_getD (hn : m.allReplicas.Nodup) :
    r ∈ ((m.freeze target).getD m).replicas ↔ r ∈ m.replicas ∧ r ≠ target := by
  cases hf : m.freeze target with
  | none =>
    rw [Option.getD_none, iff_self_and]
    rintro hr rfl
    exact not_mem_replicas_of_freeze_eq_none hn hf hr
  | some m' => exact mem_replicas_freeze hn hf

/-- The new slot of a replica that had none. -/
theorem mem_replicas_add (h : m.slotOf target = none) :
    r ∈ ((m.add target).getD m).replicas ↔ r ∈ m.replicas ∨ r = target := by
  rw [add, h, Option.getD_some, replicas, replicas, List.filter_append, List.map_append,
    List.mem_append]
  simp

end Membership

inductive ManagerStep where
  | deliver (suspected : Bool) (sender : ReplicaID) (frame : VoteFrame)
  | call (c : Manager.Call)
  deriving DecidableEq, Repr

namespace Manager

variable {m m' : Manager} {target : ReplicaID}

/-- The pump of a manager, and the goroutines of its callers. -/
def step (m : Manager) : ManagerStep → Option Manager
  | .deliver suspected sender frame => some (m.dispatch suspected sender frame)
  | .call c => some (m.call c)

/-- A `MemberAdd` that is applied is for a replica that never had a slot. -/
def Fresh (m : Manager) : ManagerStep → Prop
  | .deliver _ _ frame => ∀ target ∈ frame.admits,
      target ∈ m.membershipList ∨ m.membership.slotOf target = none
  | .call _ => True

instance (m : Manager) (a : ManagerStep) : Decidable (Fresh m a) :=
  match a with
  | .deliver _ _ _ => inferInstanceAs (Decidable (∀ target ∈ _, _ ∨ _))
  | .call _ => isTrue trivial

structure InStep (m : Manager) : Prop where
  nodup : m.membership.allReplicas.Nodup
  views : ∀ r, r ∈ m.membershipList ↔ r ∈ m.membership.replicas

theorem inStep_new (self : ReplicaID) {members : List ReplicaID} (hn : members.Nodup)
    (initialGroupSize : ℕ) : InStep (new self members initialGroupSize) := by
  refine ⟨?_, fun r => ?_⟩
  · simpa [new] using hn
  · simp [new]

theorem InStep.congr (h : InStep m) (hs : SameRoster m m') : InStep m' := by
  refine ⟨?_, fun r => ?_⟩
  · rw [hs.slots]
    exact h.nodup
  · rw [hs.list, hs.slots]
    exact h.views r

theorem InStep.removeMember (h : InStep m) (target : ReplicaID) :
    InStep (m.removeMember target) := by
  refine ⟨?_, fun r => ?_⟩
  · rw [Manager.removeMember, Membership.allReplicas_freeze_getD]
    exact h.nodup
  · rw [Manager.removeMember, Membership.mem_replicas_freeze_getD h.nodup, ← h.views r,
      List.mem_filter]
    simp

theorem InStep.keptOrRemoved (h : InStep m) (hk : KeptOrRemoved m m') : InStep m' := by
  rcases hk with hs | ⟨m₀, target, hs, hs'⟩
  · exact h.congr hs
  · exact ((h.congr hs).removeMember target).congr hs'

theorem InStep.applyMemberAdd (h : InStep m)
    (hf : target ∈ m.membershipList ∨ m.membership.slotOf target = none) (addr : String) :
    InStep (m.applyMemberAdd target addr) := by
  by_cases hin : target ∈ m.membershipList
  · rw [applyMemberAdd_of_mem hin]
    exact h
  · obtain ⟨-, hlist, hslots, -⟩ := applyMemberAdd_of_not_mem hin addr
    have hnone := hf.resolve_left hin
    refine ⟨?_, fun r => ?_⟩
    · obtain ⟨membership, hadd⟩ : ∃ membership, m.membership.add target = some membership :=
        ⟨_, by rw [Membership.add, hnone]⟩
      rw [hslots, hadd]
      exact Membership.nodup_allReplicas_add hadd h.nodup
    · rw [hlist, hslots, Membership.mem_replicas_add hnone, ← h.views r, List.mem_append,
        List.mem_singleton]

theorem InStep.step (h : InStep m) {a : ManagerStep} (hf : Fresh m a)
    (hs : m.step a = some m') : InStep m' := by
  cases a with
  | call c =>
    obtain rfl := Option.some.inj hs
    exact h.keptOrRemoved (keptOrRemoved_call m c)
  | deliver suspected sender frame =>
    obtain rfl := Option.some.inj hs
    cases ha : frame.admits with
    | none => exact h.keptOrRemoved (keptOrRemoved_dispatch m suspected sender frame ha)
    | some target =>
      cases frame with
      | memberAdd target' addr =>
        rw [dispatch, handleMemberAdd]
        split
        · exact h
        · exact h.applyMemberAdd (hf target' rfl) addr
      | _ => cases ha

/-- In a run in which no replica is admitted a second time, the member list and the active
slots name the same replicas. -/
theorem views_in_step {self : ReplicaID} {members : List ReplicaID} (hn : members.Nodup)
    {initialGroupSize : ℕ} (hr : Reach step Fresh (new self members initialGroupSize) m)
    (r : ReplicaID) : r ∈ m.membershipList ↔ r ∈ m.membership.replicas :=
  (hr.invariant (P := InStep) (inStep_new self hn initialGroupSize)
    fun _ _ _ hs hf hstep => hs.step hf hstep).views r

/-- `[3]` is suspected and voted out. -/
def removal : List ManagerStep :=
  [.deliver true [2] (.voteOut [3]), .deliver false [2] (.memberAdd [4] "d")]

theorem views_in_step_removal : ∃ m, Reach step Fresh (new [1] [[1], [2], [3]] 0) m ∧
    m.membershipList = [[1], [2], [4]] ∧
    ∀ r, r ∈ m.membershipList ↔ r ∈ m.membership.replicas := by
  have hrun : (execute step Fresh (new [1] [[1], [2], [3]] 0) removal).map
      (fun m => decide (m.membershipList = [[1], [2], [4]])) = some true := by decide +kernel
  obtain ⟨m, -, hr, hc⟩ := reach_of_execute hrun
  exact ⟨m, hr, of_decide_eq_true hc, views_in_step (by decide) hr⟩

/-- The removed member is admitted again. -/
theorem views_part_on_readmission : ∃ m,
    Reach step (fun _ _ => True) (new [1] [[1], [2], [3]] 0) m ∧
      m.events = [.removed [3], .added [3] "c"] ∧
      m.membershipList = [[1], [2], [3]] ∧ m.membership.replicas = [[1], [2]] ∧
      ¬ ∀ r, r ∈ m.membershipList ↔ r ∈ m.membership.replicas := by
  have hrun : (execute step (fun _ _ => True) (new [1] [[1], [2], [3]] 0)
      [.deliver true [2] (.voteOut [3]), .deliver false [2] (.memberAdd [3] "c")]).map
      (fun m => decide (m.events = [.removed [3], .added [3] "c"] ∧
        m.membershipList = [[1], [2], [3]] ∧ m.membership.replicas = [[1], [2]])) =
          some true := by decide +kernel
  obtain ⟨m, -, hr, hc⟩ := reach_of_execute hrun
  obtain ⟨hevents, hlist, hreplicas⟩ := of_decide_eq_true hc
  refine ⟨m, hr, hevents, hlist, hreplicas, fun h => ?_⟩
  have hmem := (h [3]).mp (by rw [hlist]; decide)
  rw [hreplicas] at hmem
  exact absurd hmem (by decide)

end Manager
end Comlink
