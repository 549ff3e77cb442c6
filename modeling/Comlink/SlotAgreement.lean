import Comlink.VoteGroup
import Mathlib.Data.List.Nodup
import Mathlib.Data.List.Perm.Basic

/-!
# Agreement on the slot order

A `MemberAdd` takes the next free slot at the replica that applies it, so the slot
order of a replica is the order in which it has applied them. Causal delivery orders
two of them only if the proposer of one had applied the other. If every proposer has
applied all `MemberAdd`s that were sent before its own, they are applied everywhere in
the order in which they were sent.
-/
namespace Comlink
open CausalBroadcast GuardedRuns

namespace VoteNet

variable {cast cast' : Cast ReplicaID VoteFrame}

/-- The replica that the message at a position admits. -/
def admitted (cast : Cast ReplicaID VoteFrame) (i : ℕ) : Option ReplicaID :=
  cast.sent[i]?.bind fun m => m.body.admits

/-- The `MemberAdd` messages that a replica has applied, in its order. -/
def applied (cast : Cast ReplicaID VoteFrame) (r : ReplicaID) : List ℕ :=
  (cast.handled r).filter fun i => (admitted cast i).isSome

def addSlot (slots : List ReplicaID) (target : ReplicaID) : List ReplicaID :=
  if target ∈ slots then slots else slots ++ [target]

/-- The slot order that results from applying the messages at these positions. -/
def slotsAfter (members : List ReplicaID) (cast : Cast ReplicaID VoteFrame) (is : List ℕ) :
    List ReplicaID :=
  (is.filterMap (admitted cast)).foldl addSlot members

theorem mem_addSlot {slots : List ReplicaID} {r : ReplicaID} (h : r ∈ slots)
    (target : ReplicaID) : r ∈ addSlot slots target := by
  unfold addSlot
  split
  · exact h
  · exact List.mem_append_left _ h

theorem mem_addSlot_self (slots : List ReplicaID) (target : ReplicaID) :
    target ∈ addSlot slots target := by
  unfold addSlot
  split
  · assumption
  · exact List.mem_append_right _ (List.mem_singleton_self _)

theorem mem_applied {r : ReplicaID} {i : ℕ} :
    i ∈ applied cast r ↔ i ∈ cast.handled r ∧ (admitted cast i).isSome := by
  simp [applied]

theorem admitted_send {i : ℕ} (hi : i < cast.sent.length) (r : ReplicaID) (frame : VoteFrame) :
    admitted (cast.send r frame) i = admitted cast i := by
  rw [admitted, Cast.getElem?_send hi, admitted]

theorem applied_send (h : cast.Causal) (r : ReplicaID) (frame : VoteFrame) (p : ReplicaID) :
    applied (cast.send r frame) p = applied cast p := by
  refine List.filter_congr fun i hi => ?_
  rw [admitted_send (h.bound p i hi)]

theorem slotsAfter_send (h : cast.Causal) (members : List ReplicaID) (r : ReplicaID)
    (frame : VoteFrame) (p : ReplicaID) :
    slotsAfter members (cast.send r frame) (applied (cast.send r frame) p) =
      slotsAfter members cast (applied cast p) := by
  rw [applied_send h, slotsAfter, slotsAfter]
  congr 1
  refine List.filterMap_congr fun i hi => ?_
  exact admitted_send (h.bound p i (mem_applied.mp hi).1) r frame

theorem admitted_handle {p : ReplicaID} {i : ℕ} {m : CastMessage ReplicaID VoteFrame}
    (hc : cast.handle p i = some (m, cast')) : admitted cast' = admitted cast := by
  obtain ⟨_, _, _, rfl⟩ := Cast.handle_eq_some hc
  rfl

/-- The positions that a replica has applied after handling one more message. -/
theorem applied_handle {p : ReplicaID} {i : ℕ} {m : CastMessage ReplicaID VoteFrame}
    (hc : cast.handle p i = some (m, cast')) (r : ReplicaID) :
    applied cast' r =
      if r = p ∧ m.body.admits.isSome then applied cast r ++ [i] else applied cast r := by
  rw [applied, admitted_handle hc, applied]
  obtain ⟨hm, _, _, rfl⟩ := Cast.handle_eq_some hc
  have hadm : admitted cast i = m.body.admits := by
    rw [admitted, hm]
    rfl
  dsimp only
  by_cases hr : r = p
  · subst hr
    by_cases hsome : m.body.admits.isSome
    · simp [hadm, hsome]
    · simp [hadm, hsome]
  · rw [Function.update_of_ne hr, if_neg fun h => hr h.1]

end VoteNet

namespace Manager

variable {m m' : Manager}

theorem KeptOrRemoved.slots (h : KeptOrRemoved m m') :
    m'.self = m.self ∧ m'.membership.allReplicas = m.membership.allReplicas ∧
      m'.membershipList ⊆ m.membershipList := by
  rcases h with h | ⟨m₀, target, h, h'⟩
  · rw [h.self, h.slots, h.list]
    exact ⟨rfl, rfl, fun _ hx => hx⟩
  · rw [h'.self, h'.slots, h'.list]
    refine ⟨h.self, ?_, ?_⟩
    · rw [← h.slots]
      exact Membership.allReplicas_freeze_getD ..
    · rw [← h.list]
      exact List.filter_subset_self _

theorem self_handleMemberAdd (m : Manager) (target : ReplicaID) (addr : String) :
    (m.handleMemberAdd target addr).self = m.self := by
  unfold handleMemberAdd applyMemberAdd
  split_ifs <;> rfl

/-- A `MemberAdd` gives the target a slot unless it has one. -/
theorem slots_handleMemberAdd (hsub : m.membershipList ⊆ m.membership.allReplicas)
    (hself : m.self ∈ m.membership.allReplicas) (target : ReplicaID) (addr : String) :
    (m.handleMemberAdd target addr).membership.allReplicas =
        VoteNet.addSlot m.membership.allReplicas target ∧
      (m.handleMemberAdd target addr).membershipList ⊆
        (m.handleMemberAdd target addr).membership.allReplicas := by
  have hpresent : target ∈ m.membership.allReplicas →
      VoteNet.addSlot m.membership.allReplicas target = m.membership.allReplicas :=
    fun hin => if_pos hin
  unfold handleMemberAdd applyMemberAdd
  split
  · rename_i htarget
    exact ⟨(hpresent (htarget ▸ hself)).symm, hsub⟩
  · split
    · rename_i hmember
      have hin : target ∈ m.membershipList := by simpa [isMember] using hmember
      exact ⟨(hpresent (hsub hin)).symm, hsub⟩
    · have hslots : ((m.membership.add target).getD m.membership).allReplicas =
          VoteNet.addSlot m.membership.allReplicas target :=
        Membership.allReplicas_add_getD ..
      refine ⟨hslots, ?_⟩
      dsimp only
      rw [hslots]
      intro x hx
      rcases List.mem_append.mp hx with hx | hx
      · exact VoteNet.mem_addSlot (hsub hx) target
      · rw [List.mem_singleton.mp hx]
        exact VoteNet.mem_addSlot_self _ target

end Manager

namespace VoteGroup
open VoteNet

variable {G : VoteGroup} {net net' : VoteNet} {act : Action}

/-- A `MemberAdd` is sent only by a replica that has applied all that were sent before. -/
def AddsOrdered (net : VoteNet) : Action → Prop
  | .send r (.memberAdd _ _) => ∀ i ∈ List.range net.cast.sent.length,
      (admitted net.cast i).isSome → i ∈ net.cast.handled r
  | _ => True

instance (net : VoteNet) (act : Action) : Decidable (AddsOrdered net act) := by
  unfold AddsOrdered
  split <;> infer_instance

structure SlotInvariant (G : VoteGroup) (net : VoteNet) : Prop where
  causal : net.cast.Causal
  chained : ∀ i j, j < i → (admitted net.cast i).isSome → (admitted net.cast j).isSome →
    ∀ m, net.cast.sent[i]? = some m → j ∈ m.deps
  increasing : ∀ r, (applied net.cast r).Pairwise (· < ·)
  slots : ∀ r ∈ G.members, (net.manager r).membership.allReplicas =
    slotsAfter G.members net.cast (applied net.cast r)
  self : ∀ r ∈ G.members, (net.manager r).self = r ∧ r ∈ (net.manager r).membership.allReplicas
  listed : ∀ r ∈ G.members,
    (net.manager r).membershipList ⊆ (net.manager r).membership.allReplicas

theorem slotInvariant_start : G.SlotInvariant G.start where
  causal := Cast.causal_empty
  chained := by simp [start, Cast.empty, admitted]
  increasing := by simp [start, Cast.empty, applied]
  slots := by
    intro r hr
    simp [start, Manager.new, Cast.empty, applied, slotsAfter]
  self := by
    intro r hr
    exact ⟨rfl, by simpa [start, Manager.new] using hr⟩
  listed := by
    intro r hr
    simp [start, Manager.new]

/-- The invariant survives a step at `p` that keeps the cast and the slots. -/
theorem SlotInvariant.update (h : G.SlotInvariant net) {p : ReplicaID} {m : Manager}
    (hm : Manager.KeptOrRemoved (net.manager p) m) :
    G.SlotInvariant ⟨Function.update net.manager p m, net.cast⟩ := by
  obtain ⟨hself, hslots, hlist⟩ := hm.slots
  refine ⟨h.causal, h.chained, h.increasing, ?_, ?_, ?_⟩
  · refine forall_mem_update (P := fun r (m : Manager) => m.membership.allReplicas =
      slotsAfter G.members net.cast (applied net.cast r)) h.slots fun hp => ?_
    rw [hslots]
    exact h.slots p hp
  · refine forall_mem_update
      (P := fun r (m : Manager) => m.self = r ∧ r ∈ m.membership.allReplicas) h.self
      fun hp => ?_
    rw [hself, hslots]
    exact h.self p hp
  · refine forall_mem_update
      (P := fun _ (m : Manager) => m.membershipList ⊆ m.membership.allReplicas) h.listed
      fun hp => ?_
    rw [hslots]
    exact fun x hx => h.listed p hp (hlist hx)

theorem SlotInvariant.send (h : G.SlotInvariant net) {r : ReplicaID} {frame : VoteFrame}
    (hok : AddsOrdered net (.send r frame)) :
    G.SlotInvariant ⟨net.manager, net.cast.send r frame⟩ := by
  refine ⟨h.causal.send r frame, ?_, ?_, ?_, h.self, h.listed⟩
  · intro i j hji hi hj m hm
    have hile : i < net.cast.sent.length + 1 := by
      simpa [Cast.send] using (List.getElem?_eq_some_iff.mp hm).1
    have hjlt : j < net.cast.sent.length := by omega
    rw [admitted_send hjlt] at hj
    by_cases hilt : i < net.cast.sent.length
    · rw [admitted_send hilt] at hi
      rw [Cast.getElem?_send hilt] at hm
      exact h.chained i j hji hi hj m hm
    · have hieq : i = net.cast.sent.length := by omega
      subst hieq
      have hlast : (net.cast.send r frame).sent[net.cast.sent.length]? =
          some ⟨r, frame, net.cast.known r⟩ := by
        simp [Cast.send]
      rw [hlast] at hm
      cases hm
      rw [admitted, hlast] at hi
      refine (Cast.mem_known hjlt).mpr (Or.inl ?_)
      cases frame with
      | memberAdd target addr => exact hok j (List.mem_range.mpr hjlt) hj
      | _ => cases hi
  · intro p
    rw [applied_send h.causal]
    exact h.increasing p
  · intro p hp
    rw [slotsAfter_send h.causal]
    exact h.slots p hp

/-- All that a replica has applied was sent before what it applies next. -/
theorem SlotInvariant.lt_of_handle (h : G.SlotInvariant net) {r : ReplicaID} {i : ℕ}
    {m : CastMessage ReplicaID VoteFrame} {cast : Cast ReplicaID VoteFrame}
    (hc : net.cast.handle r i = some (m, cast)) (hadd : m.body.admits.isSome) :
    ∀ j ∈ applied net.cast r, j < i := by
  obtain ⟨hm, hnew, _, _⟩ := Cast.handle_eq_some hc
  intro j hj
  obtain ⟨hhandled, hsome⟩ := mem_applied.mp hj
  have hi : (admitted net.cast i).isSome := by
    rw [admitted, hm]
    exact hadd
  by_contra hle
  have hne : j ≠ i := fun he => hnew (he ▸ hhandled)
  have hlt : j < net.cast.sent.length := h.causal.bound r j hhandled
  have hdep := h.chained j i (by omega) hsome hi _ (List.getElem?_eq_getElem hlt)
  exact hnew (h.causal.closed r j hhandled _ (List.getElem?_eq_getElem hlt) i hdep)

theorem slotsAfter_concat (members : List ReplicaID) {cast : Cast ReplicaID VoteFrame} {i : ℕ}
    {target : ReplicaID} (hi : admitted cast i = some target) (is : List ℕ) :
    slotsAfter members cast (is ++ [i]) = addSlot (slotsAfter members cast is) target := by
  simp [slotsAfter, hi]

section Handle

variable {r : ReplicaID} {i : ℕ} {m : CastMessage ReplicaID VoteFrame}
  {cast : Cast ReplicaID VoteFrame}

theorem SlotInvariant.increasing_handle (h : G.SlotInvariant net)
    (hc : net.cast.handle r i = some (m, cast)) (p : ReplicaID) :
    (applied cast p).Pairwise (· < ·) := by
  rw [applied_handle hc]
  split
  · rename_i hadd
    obtain ⟨rfl, hadd⟩ := hadd
    refine List.pairwise_append.mpr ⟨h.increasing p, List.pairwise_singleton _ _, ?_⟩
    intro j hj k hk
    rw [List.mem_singleton.mp hk]
    exact h.lt_of_handle hc hadd j hj
  · exact h.increasing p

theorem SlotInvariant.chained_handle (h : G.SlotInvariant net)
    (hc : net.cast.handle r i = some (m, cast)) (i j : ℕ) (hji : j < i)
    (hi : (admitted cast i).isSome) (hj : (admitted cast j).isSome)
    (m' : CastMessage ReplicaID VoteFrame) (hm' : cast.sent[i]? = some m') : j ∈ m'.deps := by
  rw [admitted_handle hc] at hi hj
  rw [(Cast.handle_eq_some hc).2.2.2] at hm'
  exact h.chained i j hji hi hj m' hm'

/-- Applying a `MemberAdd` extends the slot order as the history says. -/
theorem SlotInvariant.handle_memberAdd (h : G.SlotInvariant net) {target : ReplicaID}
    {addr : String} (hc : net.cast.handle r i = some (m, cast))
    (hbody : m.body = .memberAdd target addr) :
    G.SlotInvariant ⟨Function.update net.manager r
      ((net.manager r).handleMemberAdd target addr), cast⟩ := by
  have hadm : m.body.admits = some target := by rw [hbody, VoteFrame.admits]
  have hi : admitted net.cast i = some target := by
    rw [admitted, (Cast.handle_eq_some hc).1, Option.bind_some, hadm]
  have hadded : r ∈ G.members →
      ((net.manager r).handleMemberAdd target addr).membership.allReplicas =
          addSlot (net.manager r).membership.allReplicas target ∧
        ((net.manager r).handleMemberAdd target addr).membershipList ⊆
          ((net.manager r).handleMemberAdd target addr).membership.allReplicas := by
    intro hr
    obtain ⟨hself, hin⟩ := h.self r hr
    refine Manager.slots_handleMemberAdd (h.listed r hr) ?_ target addr
    rwa [hself]
  refine ⟨h.causal.handle hc, h.chained_handle hc, h.increasing_handle hc, ?_, ?_, ?_⟩
  · intro p hp
    rw [applied_handle hc, hadm, slotsAfter, admitted_handle hc]
    dsimp only
    by_cases hpr : p = r
    · subst hpr
      rw [Function.update_self, (hadded hp).1, h.slots p hp, if_pos ⟨rfl, rfl⟩]
      exact (slotsAfter_concat G.members hi _).symm
    · rw [Function.update_of_ne hpr, if_neg fun he => hpr he.1]
      exact h.slots p hp
  · refine forall_mem_update
      (P := fun p (m : Manager) => m.self = p ∧ p ∈ m.membership.allReplicas) h.self
      fun hr => ?_
    obtain ⟨hself, hin⟩ := h.self r hr
    rw [(hadded hr).1, Manager.self_handleMemberAdd]
    exact ⟨hself, mem_addSlot hin target⟩
  · exact forall_mem_update
      (P := fun _ (m : Manager) => m.membershipList ⊆ m.membership.allReplicas) h.listed
      fun hr => (hadded hr).2

theorem SlotInvariant.handle (h : G.SlotInvariant net) (suspected : Bool)
    (hc : net.cast.handle r i = some (m, cast)) :
    G.SlotInvariant ⟨Function.update net.manager r
      ((net.manager r).dispatch suspected m.sender m.body), cast⟩ := by
  by_cases hnone : m.body.admits = none
  · have hkept := Manager.keptOrRemoved_dispatch (net.manager r) suspected m.sender m.body hnone
    have hu := h.update hkept
    refine ⟨h.causal.handle hc, h.chained_handle hc, h.increasing_handle hc, ?_, hu.self,
      hu.listed⟩
    intro p hp
    rw [applied_handle hc, hnone, if_neg (by simp), slotsAfter, admitted_handle hc]
    exact hu.slots p hp
  · cases hbody : m.body with
    | memberAdd target addr =>
      rw [Manager.dispatch]
      exact h.handle_memberAdd hc hbody
    | _ => exact absurd (by simp [hbody, VoteFrame.admits]) hnone

end Handle

theorem slotInvariant_step (h : G.SlotInvariant net) (hok : AddsOrdered net act)
    (hs : G.step net act = some net') : G.SlotInvariant net' := by
  cases (stepped hs).2 with
  | call r c => exact h.update (Manager.keptOrRemoved_call _ c)
  | send r hf => exact (h.send hok).update (Or.inl (sameRoster_unqueue ..))
  | lose r hf => exact h.update (Or.inl (sameRoster_unqueue ..))
  | handle r suspected hc => exact h.handle suspected hc

theorem slotInvariant_of_reach (hr : Reach G.step AddsOrdered G.start net) :
    G.SlotInvariant net :=
  hr.invariant slotInvariant_start fun _ _ _ h hok hs => slotInvariant_step h hok hs

/-- Two replicas that have applied the same `MemberAdd` messages agree on the slots, in
every run in which these are sent one after the other: each by a replica that has
applied the earlier ones. -/
theorem slots_agree_of_addsOrdered (G : VoteGroup) {net : VoteNet}
    (hr : Reach G.step AddsOrdered G.start net) {p q : ReplicaID} (hp : p ∈ G.members)
    (hq : q ∈ G.members) (hsame : ∀ i, i ∈ applied net.cast p ↔ i ∈ applied net.cast q) :
    (net.manager p).membership.allReplicas = (net.manager q).membership.allReplicas := by
  have h := slotInvariant_of_reach hr
  have hnodup : ∀ r, (applied net.cast r).Nodup := fun r => (h.increasing r).imp Nat.ne_of_lt
  have hperm : (applied net.cast p).Perm (applied net.cast q) :=
    (List.perm_ext_iff_of_nodup (hnodup p) (hnodup q)).mpr hsame
  have heq : applied net.cast p = applied net.cast q :=
    hperm.eq_of_pairwise (fun a b _ _ hab hba => absurd hab (Nat.lt_asymm hba))
      (h.increasing p) (h.increasing q)
  rw [h.slots p hp, h.slots q hq, heq]

def pair : VoteGroup := ⟨[[1], [2]], by decide, 2⟩

/-- Both replicas vote somebody in; the votes are answered before either is decided. -/
def concurrentVotes : List Action :=
  [.call [1] (.voteIn [8] "x"), .send [1] (.voteIn [8] "x"), .handle [1] 0 false,
   .call [2] (.voteIn [9] "y"), .send [2] (.voteIn [9] "y"), .handle [2] 1 false,
   .handle [2] 0 false, .send [2] (.voteInAck [8]), .handle [2] 2 false,
   .handle [1] 1 false, .send [1] (.voteInAck [9]), .handle [1] 3 false,
   .handle [1] 2 false, .handle [2] 3 false]

/-- The second replica sends its `MemberAdd` after it has applied the other one. -/
def addsInTurn : List Action := concurrentVotes ++
  [.send [1] (.memberAdd [8] "x"), .handle [1] 4 false, .handle [2] 4 false,
   .send [2] (.memberAdd [9] "y"), .handle [2] 5 false, .handle [1] 5 false]

theorem slots_agree_of_addsOrdered_inTurn :
    ∃ net, Reach pair.step AddsOrdered pair.start net ∧
      (net.manager [1]).membership.allReplicas = [[1], [2], [8], [9]] ∧
      (net.manager [1]).membership.allReplicas = (net.manager [2]).membership.allReplicas := by
  have hrun : (execute pair.step AddsOrdered pair.start addsInTurn).map
      (fun net => decide (applied net.cast [1] = applied net.cast [2] ∧
        (net.manager [1]).membership.allReplicas = [[1], [2], [8], [9]])) = some true := by
    decide +kernel
  obtain ⟨net, -, hr, hc⟩ := reach_of_execute hrun
  obtain ⟨hsame, hslots⟩ := of_decide_eq_true hc
  exact ⟨net, hr, hslots,
    slots_agree_of_addsOrdered pair hr (by decide) (by decide) fun i => by rw [hsame]⟩

/-- Each replica announces its addition before it hears of the other one. -/
def addsAtOnce : List Action := concurrentVotes ++
  [.send [1] (.memberAdd [8] "x"), .handle [1] 4 false,
   .send [2] (.memberAdd [9] "y"), .handle [2] 5 false,
   .handle [1] 5 false, .handle [2] 4 false]

theorem slots_differ_after_concurrent_adds :
    ∃ net, Reach pair.step (fun _ _ => True) pair.start net ∧
      (∀ i, i ∈ applied net.cast [1] ↔ i ∈ applied net.cast [2]) ∧
      (net.manager [1]).membership.allReplicas = [[1], [2], [8], [9]] ∧
      (net.manager [2]).membership.allReplicas = [[1], [2], [9], [8]] := by
  have hrun : (execute pair.step (fun _ _ => True) pair.start addsAtOnce).map
      (fun net => decide (applied net.cast [1] = [4, 5] ∧ applied net.cast [2] = [5, 4] ∧
        (net.manager [1]).membership.allReplicas = [[1], [2], [8], [9]] ∧
        (net.manager [2]).membership.allReplicas = [[1], [2], [9], [8]])) = some true := by
    decide +kernel
  obtain ⟨net, -, hr, hc⟩ := reach_of_execute hrun
  obtain ⟨hone, htwo, hslots⟩ := of_decide_eq_true hc
  refine ⟨net, hr, ?_, hslots⟩
  intro i
  rw [hone, htwo]
  simp [or_comm]

end VoteGroup
end Comlink
