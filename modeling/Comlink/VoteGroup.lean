import Comlink.VoteManager
import Comlink.CausalBroadcast
import Comlink.GuardedRuns

/-!
# A group of membership managers

The managers of a group start from the same member list and exchange the frames of the
voting protocols over a conversation, that is by causal broadcast: handling a message
is the step in which the pump takes it off the delivery channel, which keeps the order
of the deliveries. A frame that waits to be sent may be sent at any later time, or be
lost when the conversation refuses it.
-/
namespace Comlink
open CausalBroadcast GuardedRuns

structure VoteGroup where
  members : List ReplicaID
  nodup : members.Nodup
  initialGroupSize : ℕ

structure VoteNet where
  manager : ReplicaID → Manager
  cast : Cast ReplicaID VoteFrame

namespace VoteGroup

inductive Action where
  | call (r : ReplicaID) (c : Manager.Call)
  | send (r : ReplicaID) (frame : VoteFrame)
  | lose (r : ReplicaID) (frame : VoteFrame)
  | handle (r : ReplicaID) (i : ℕ) (suspected : Bool)
  deriving DecidableEq, Repr

/-- The replica at which an action takes place. -/
def Action.replica : Action → ReplicaID
  | .call r _ | .send r _ | .lose r _ | .handle r _ _ => r

variable (G : VoteGroup)

def start : VoteNet :=
  ⟨fun r => Manager.new r G.members G.initialGroupSize, Cast.empty⟩

/-- A frame leaves the list of those that wait to be sent. -/
def unqueue (m : Manager) (frame : VoteFrame) : Manager :=
  { m with pending := m.pending.erase frame }

def step (net : VoteNet) (act : Action) : Option VoteNet :=
  if act.replica ∉ G.members then none
  else match act with
    | .call r c =>
      some { net with manager := Function.update net.manager r ((net.manager r).call c) }
    | .send r frame =>
      if frame ∈ (net.manager r).pending then
        some ⟨Function.update net.manager r (unqueue (net.manager r) frame),
          net.cast.send r frame⟩
      else none
    | .lose r frame =>
      if frame ∈ (net.manager r).pending then
        some { net with manager :=
          Function.update net.manager r (unqueue (net.manager r) frame) }
      else none
    | .handle r i suspected => (net.cast.handle r i).map fun (m, cast) =>
      ⟨Function.update net.manager r ((net.manager r).dispatch suspected m.sender m.body), cast⟩

/-- What an action of a member does. -/
inductive Stepped (net : VoteNet) : Action → VoteNet → Prop
  | call (r : ReplicaID) (c : Manager.Call) : Stepped net (.call r c)
      ⟨Function.update net.manager r ((net.manager r).call c), net.cast⟩
  | send (r : ReplicaID) {frame : VoteFrame} (hf : frame ∈ (net.manager r).pending) :
      Stepped net (.send r frame) ⟨Function.update net.manager r
        (unqueue (net.manager r) frame), net.cast.send r frame⟩
  | lose (r : ReplicaID) {frame : VoteFrame} (hf : frame ∈ (net.manager r).pending) :
      Stepped net (.lose r frame) ⟨Function.update net.manager r
        (unqueue (net.manager r) frame), net.cast⟩
  | handle (r : ReplicaID) {i : ℕ} (suspected : Bool) {m : CastMessage ReplicaID VoteFrame}
      {cast : Cast ReplicaID VoteFrame} (hc : net.cast.handle r i = some (m, cast)) :
      Stepped net (.handle r i suspected) ⟨Function.update net.manager r
        ((net.manager r).dispatch suspected m.sender m.body), cast⟩

variable {G} {net net' : VoteNet} {act : Action}

theorem stepped (h : G.step net act = some net') :
    act.replica ∈ G.members ∧ Stepped net act net' := by
  unfold step at h
  split at h
  · cases h
  · rename_i hmem
    refine ⟨Decidable.not_not.mp hmem, ?_⟩
    cases act with
    | call r c =>
      cases h
      exact .call r c
    | send r frame =>
      dsimp only at h
      split at h
      · rename_i hf
        cases h
        exact .send r hf
      · cases h
    | lose r frame =>
      dsimp only at h
      split at h
      · rename_i hf
        cases h
        exact .lose r hf
      · cases h
    | handle r i suspected =>
      obtain ⟨⟨m, cast⟩, hc, rfl⟩ := Option.map_eq_some_iff.mp h
      exact .handle r suspected hc

section Steps

variable {r : ReplicaID} (hr : r ∈ G.members)

include hr

theorem step_call (net : VoteNet) (c : Manager.Call) : G.step net (.call r c) =
    some ⟨Function.update net.manager r ((net.manager r).call c), net.cast⟩ := by
  simp [step, Action.replica, hr]

theorem step_send (net : VoteNet) {frame : VoteFrame} (hf : frame ∈ (net.manager r).pending) :
    G.step net (.send r frame) = some ⟨Function.update net.manager r
      (unqueue (net.manager r) frame), net.cast.send r frame⟩ := by
  simp [step, Action.replica, hr, hf]

theorem step_handle (net : VoteNet) {i : ℕ} {m : CastMessage ReplicaID VoteFrame}
    {cast : Cast ReplicaID VoteFrame} (hc : net.cast.handle r i = some (m, cast))
    (suspected : Bool) :
    G.step net (.handle r i suspected) = some ⟨Function.update net.manager r
      ((net.manager r).dispatch suspected m.sender m.body), cast⟩ := by
  simp [step, Action.replica, hr, hc]

end Steps

theorem sameRoster_unqueue (m : Manager) (frame : VoteFrame) :
    Manager.SameRoster m (unqueue m frame) := ⟨rfl, rfl, rfl, rfl, rfl⟩

end VoteGroup
end Comlink
