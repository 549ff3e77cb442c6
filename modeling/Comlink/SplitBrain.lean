import Comlink.VoteGroup
import Mathlib.Data.List.Nodup

/-!
# Removals on both sides of a partition

A removal takes the Acks of a majority of the members without the target. On the smaller
side of a partition there are never that many, so nobody there removes or admits anyone.
For an even number of members, however, half of them are enough, and on a tie each side
can remove members of the other one: the majority guard looks at the member list, which
is still complete when the first vote starts.
-/
namespace Comlink
open CausalBroadcast GuardedRuns

namespace Manager

/-- A tally over the complete member list that counts voters of one side only. -/
structure Counted (members voters atStart acked : List ReplicaID) : Prop where
  full : atStart = members
  nodup : acked.Nodup
  within : acked ⊆ voters

variable {members voters atStart acked : List ReplicaID}

theorem Counted.two_mul_lt (h : Counted members voters atStart acked)
    (hv : 2 * voters.length < members.length) : 2 * acked.length < atStart.length := by
  have hle := (List.subperm_of_subset h.nodup h.within).length_le
  rw [h.full]
  omega

theorem Counted.insert (h : Counted members voters atStart acked) {sender : ReplicaID}
    (hs : sender ∈ voters) : Counted members voters atStart (acked.insert sender) := by
  refine ⟨h.full, h.nodup.insert, ?_⟩
  intro x hx
  rcases List.mem_insert_iff.mp hx with rfl | hx
  · exact hs
  · exact h.within hx

theorem Counted.answered {s : VoteOutSession}
    (h : Counted members voters s.membersAtStart s.ackedBy) (suspected : Bool)
    {sender self : ReplicaID} (hs : sender ∈ voters) (hself : self ∈ voters) :
    Counted members voters (s.answered suspected sender self).membersAtStart
      (s.answered suspected sender self).ackedBy := by
  unfold VoteOutSession.answered
  split
  · exact (h.insert hs).insert hself
  · exact h.insert hs

/-- A replica on the smaller side: it has changed nothing and has no vote that could. -/
structure Powerless (members voters : List ReplicaID) (m : Manager) : Prop where
  self : m.self ∈ voters
  list : m.membershipList = members
  events : m.events = []
  frames : ∀ f ∈ m.pending, f.admits = none
  voteOuts : ∀ t s, m.voteOutSessions.lookup t = some s →
    Counted members voters s.membersAtStart s.ackedBy
  voteIns : ∀ t s, m.voteInSessions.lookup t = some s →
    Counted members voters s.membersAtStart s.ackedBy
  closedOuts : ∀ p ∈ m.closedVoteOuts, Counted members voters p.2.membersAtStart p.2.ackedBy
  closedIns : ∀ p ∈ m.closedVoteIns, Counted members voters p.2.membersAtStart p.2.ackedBy

variable {m : Manager} {target sender : ReplicaID}

theorem powerless_new {r : ReplicaID} (hr : r ∈ voters) (members : List ReplicaID) (size : ℕ) :
    Powerless members voters (new r members size) := by
  refine ⟨hr, rfl, rfl, ?_, ?_, ?_, ?_, ?_⟩ <;> simp [new]

theorem Powerless.asyncSend (h : Powerless members voters m) {frame : VoteFrame}
    (hf : frame.admits = none) : Powerless members voters (m.asyncSend frame) := by
  refine ⟨h.self, h.list, h.events, ?_, h.voteOuts, h.voteIns, h.closedOuts, h.closedIns⟩
  intro f hmem
  rcases List.mem_append.mp hmem with hmem | hmem
  · exact h.frames f hmem
  · rw [List.mem_singleton.mp hmem]
    exact hf

theorem Powerless.putVoteOut (h : Powerless members voters m) {s : VoteOutSession}
    (hs : Counted members voters s.membersAtStart s.ackedBy) (target : ReplicaID) :
    Powerless members voters (m.putVoteOut target s) := by
  refine ⟨h.self, h.list, h.events, h.frames, ?_, h.voteIns, h.closedOuts, h.closedIns⟩
  intro t s' hl
  rcases AssociationLists.lookup_insert_cases hl with ⟨_, rfl⟩ | ⟨_, hl⟩
  · exact hs
  · exact h.voteOuts t s' hl

theorem Powerless.putVoteIn (h : Powerless members voters m) {s : VoteInSession}
    (hs : Counted members voters s.membersAtStart s.ackedBy) (target : ReplicaID) :
    Powerless members voters (m.putVoteIn target s) := by
  refine ⟨h.self, h.list, h.events, h.frames, h.voteOuts, ?_, h.closedOuts, h.closedIns⟩
  intro t s' hl
  rcases AssociationLists.lookup_insert_cases hl with ⟨_, rfl⟩ | ⟨_, hl⟩
  · exact hs
  · exact h.voteIns t s' hl

theorem Powerless.cancelSession (h : Powerless members voters m) (target : ReplicaID)
    (err : VoteError) : Powerless members voters (m.cancelSession target err) := by
  rcases cancelSession_cases m target err with he | ⟨s, hs, he⟩ <;> rw [he]
  · exact h
  · refine ⟨h.self, h.list, h.events, h.frames, ?_, h.voteIns, ?_, h.closedIns⟩
    · intro t s' hl
      exact h.voteOuts t s' (AssociationLists.lookup_erase_cases hl).2
    · intro p hp
      rcases List.mem_append.mp hp with hp | hp
      · exact h.closedOuts p hp
      · rw [List.mem_singleton.mp hp]
        exact h.voteOuts target s hs

theorem Powerless.cancelVoteInSession (h : Powerless members voters m) (target : ReplicaID)
    (err : VoteError) : Powerless members voters (m.cancelVoteInSession target err) := by
  rcases cancelVoteInSession_cases m target err with he | ⟨s, hs, he⟩ <;> rw [he]
  · exact h
  · refine ⟨h.self, h.list, h.events, h.frames, h.voteOuts, ?_, h.closedOuts, ?_⟩
    · intro t s' hl
      exact h.voteIns t s' (AssociationLists.lookup_erase_cases hl).2
    · intro p hp
      rcases List.mem_append.mp hp with hp | hp
      · exact h.closedIns p hp
      · rw [List.mem_singleton.mp hp]
        exact h.voteIns target s hs

section Minority

variable (hv : 2 * voters.length < members.length)

include hv

theorem Powerless.checkVoteOutDecision (h : Powerless members voters m) (target : ReplicaID) :
    Powerless members voters (m.checkVoteOutDecision target) := by
  rcases checkVoteOutDecision_cases m target with ⟨he, _⟩ | ⟨he, _⟩ | ⟨_, s, hs, _, hq⟩
  · rw [he]
    exact h
  · rw [he]
    exact h.cancelSession target _
  · have hlt := (h.voteOuts target s hs).two_mul_lt hv
    rw [VoteOutSession.needed] at hq
    omega

theorem Powerless.recheckVoteOut (h : Powerless members voters m) {s : VoteOutSession}
    (hs : Counted members voters s.membersAtStart s.ackedBy) (target : ReplicaID) :
    Powerless members voters (m.recheckVoteOut target s) := by
  unfold Manager.recheckVoteOut
  split_ifs with hn hlt
  · exact h.cancelSession target _
  · exact h
  · have := hs.two_mul_lt hv
    rw [VoteOutSession.needed] at hlt
    omega

theorem Powerless.checkVoteInDecision (h : Powerless members voters m) (target : ReplicaID) :
    Powerless members voters (m.checkVoteInDecision target) := by
  unfold Manager.checkVoteInDecision
  cases hl : m.voteInSessions.lookup target with
  | none => exact h
  | some s =>
    dsimp only
    split_ifs with hn hcommitted hlt
    · exact h.cancelVoteInSession target _
    · exact h
    · exact h
    · have := (h.voteIns target s hl).two_mul_lt hv
      rw [VoteInSession.needed] at hlt
      omega

theorem Powerless.recheckVoteIn (h : Powerless members voters m) {s : VoteInSession}
    (hs : Counted members voters s.membersAtStart s.ackedBy) (target : ReplicaID) :
    Powerless members voters (m.recheckVoteIn target s) := by
  unfold Manager.recheckVoteIn
  split_ifs with hn hcommitted hlt
  · exact h.cancelVoteInSession target _
  · exact h
  · exact h
  · have := hs.two_mul_lt hv
    rw [VoteInSession.needed] at hlt
    omega

theorem Powerless.call (h : Powerless members voters m) (c : Call) :
    Powerless members voters (m.call c) := by
  have hown : Counted members voters m.membershipList [m.self] :=
    ⟨h.list, List.nodup_singleton _, by simpa using h.self⟩
  cases c with
  | voteOut target =>
    rw [Manager.call]
    cases hc : m.voteOut target with
    | error err => exact h
    | ok m' =>
      obtain ⟨_, _, _, rfl⟩ := voteOut_eq_ok hc
      exact (h.putVoteOut hown target).asyncSend rfl
  | checkVoteOut target => exact h.checkVoteOutDecision hv target
  | recheckVoteOut i =>
    rw [Manager.call]
    split
    · exact h
    · rename_i target s hc
      exact h.recheckVoteOut hv (h.closedOuts _ (List.mem_of_getElem? hc)) target
  | cancelVoteOut target err => exact h.cancelSession target err
  | voteIn target addr =>
    rw [Manager.call]
    cases hc : m.voteIn target addr with
    | error err => exact h
    | ok m' =>
      rw [voteIn_eq_ok hc]
      exact (h.putVoteIn hown target).asyncSend rfl
  | checkVoteIn target => exact h.checkVoteInDecision hv target
  | recheckVoteIn i =>
    rw [Manager.call]
    split
    · exact h
    · rename_i target s hc
      exact h.recheckVoteIn hv (h.closedIns _ (List.mem_of_getElem? hc)) target
  | cancelVoteIn target err => exact h.cancelVoteInSession target err

theorem Powerless.handleVoteOut (h : Powerless members voters m) (suspected : Bool)
    (hs : sender ∈ voters) (target : ReplicaID) :
    Powerless members voters (m.handleVoteOut suspected sender target) := by
  unfold Manager.handleVoteOut
  split
  · exact h.asyncSend rfl
  · split
    · exact h
    · split
      · exact h
      · refine ((h.putVoteOut (Counted.answered ?_ suspected hs h.self) target).asyncSend
          ?_).checkVoteOutDecision hv target
        · cases hl : m.voteOutSessions.lookup target with
          | none => exact ⟨h.list, List.nodup_nil, List.nil_subset _⟩
          | some s => exact h.voteOuts target s hl
        · split <;> rfl

theorem Powerless.dispatch (h : Powerless members voters m) (suspected : Bool)
    (hs : sender ∈ voters) {frame : VoteFrame} (hf : frame.admits = none) :
    Powerless members voters (m.dispatch suspected sender frame) := by
  cases frame with
  | voteOut target => exact h.handleVoteOut hv suspected hs target
  | voteOutAck target =>
    rw [Manager.dispatch, Manager.handleVoteOutAck]
    split
    · exact h
    · rename_i s hl
      exact (h.putVoteOut ((h.voteOuts target s hl).insert hs) target).checkVoteOutDecision hv _
  | voteOutNack target =>
    rw [Manager.dispatch, Manager.handleVoteOutNack]
    split
    · exact h
    · rename_i s hl
      refine (Powerless.putVoteOut h ?_ target).checkVoteOutDecision hv _
      exact h.voteOuts target s hl
  | voteIn target addr =>
    rw [Manager.dispatch, Manager.handleVoteIn]
    split_ifs
    · exact h
    · exact h
    · exact h.asyncSend rfl
  | voteInAck target =>
    rw [Manager.dispatch, Manager.handleVoteInAck]
    split
    · exact h
    · rename_i s hl
      exact (h.putVoteIn ((h.voteIns target s hl).insert hs) target).checkVoteInDecision hv _
  | voteInNack target =>
    rw [Manager.dispatch, Manager.handleVoteInNack]
    split
    · exact h
    · rename_i s hl
      refine (Powerless.putVoteIn h ?_ target).checkVoteInDecision hv _
      exact h.voteIns target s hl
  | memberAdd target addr => cases hf

end Minority

theorem Powerless.unqueue (h : Powerless members voters m) (frame : VoteFrame) :
    Powerless members voters (VoteGroup.unqueue m frame) :=
  ⟨h.self, h.list, h.events, fun f hf => h.frames f (List.mem_of_mem_erase hf), h.voteOuts,
    h.voteIns, h.closedOuts, h.closedIns⟩

end Manager

namespace VoteGroup

variable {G : VoteGroup} {side : ReplicaID → Bool} {b : Bool} {net net' : VoteNet} {act : Action}

/-- Messages are handled on the side on which they were sent only. -/
def Partitioned (side : ReplicaID → Bool) (net : VoteNet) : Action → Prop
  | .handle r i _ => net.cast.sent[i]?.map (fun m => side m.sender) = some (side r)
  | _ => True

instance (side : ReplicaID → Bool) (net : VoteNet) (act : Action) :
    Decidable (Partitioned side net act) := by
  unfold Partitioned
  split <;> infer_instance

/-- The members on one side. -/
def group (G : VoteGroup) (side : ReplicaID → Bool) (b : Bool) : List ReplicaID :=
  G.members.filter fun r => side r = b

/-- Somebody on side `b` has accepted the removal of a member of the other side. -/
def RemovesAcross (G : VoteGroup) (side : ReplicaID → Bool) (b : Bool) (net : VoteNet) : Prop :=
  ∃ r ∈ G.group side b, ∃ t ∈ G.group side (!b), .removed t ∈ (net.manager r).events

structure Minority (G : VoteGroup) (side : ReplicaID → Bool) (b : Bool) (net : VoteNet) :
    Prop where
  senders : ∀ m ∈ net.cast.sent, m.sender ∈ G.members
  bodies : ∀ m ∈ net.cast.sent, side m.sender = b → m.body.admits = none
  managers : ∀ r ∈ G.members, side r = b →
    Manager.Powerless G.members (G.group side b) (net.manager r)

theorem mem_group {r : ReplicaID} : r ∈ G.group side b ↔ r ∈ G.members ∧ side r = b := by
  simp [group]

theorem minority_start : G.Minority side b G.start where
  senders := by simp [start, Cast.empty]
  bodies := by simp [start, Cast.empty]
  managers := fun r hr hb => Manager.powerless_new (mem_group.mpr ⟨hr, hb⟩) _ _

theorem minority_step (hv : 2 * (G.group side b).length < G.members.length)
    (h : G.Minority side b net) (hok : Partitioned side net act)
    (hs : G.step net act = some net') : G.Minority side b net' := by
  obtain ⟨hr, hstep⟩ := stepped hs
  have hupdate : ∀ m, (side act.replica = b →
      Manager.Powerless G.members (G.group side b) m) →
      ∀ r ∈ G.members, side r = b → Manager.Powerless G.members (G.group side b)
        (Function.update net.manager act.replica m r) :=
    fun m hm => forall_mem_update (P := fun r (m : Manager) => side r = b →
      Manager.Powerless G.members (G.group side b) m) h.managers fun _ => hm
  cases hstep with
  | call r c => exact ⟨h.senders, h.bodies, hupdate _ fun hb => (h.managers r hr hb).call hv c⟩
  | send r hf =>
    refine ⟨?_, ?_, hupdate _ fun hb => (h.managers r hr hb).unqueue _⟩
    · intro m hm
      rcases List.mem_append.mp hm with hm | hm
      · exact h.senders m hm
      · rw [List.mem_singleton.mp hm]
        exact hr
    · intro m hm hb
      rcases List.mem_append.mp hm with hm | hm
      · exact h.bodies m hm hb
      · rw [List.mem_singleton.mp hm] at hb ⊢
        exact (h.managers r hr hb).frames _ hf
  | lose r hf => exact ⟨h.senders, h.bodies, hupdate _ fun hb => (h.managers r hr hb).unqueue _⟩
  | handle r suspected hc =>
    obtain ⟨hm, _, _, rfl⟩ := Cast.handle_eq_some hc
    have hmem := List.mem_of_getElem? hm
    rw [Partitioned, hm, Option.map_some] at hok
    have hside := Option.some.inj hok
    refine ⟨h.senders, h.bodies, hupdate _ fun hb => (h.managers r hr hb).dispatch hv suspected
      (mem_group.mpr ⟨h.senders _ hmem, hside.trans hb⟩) (h.bodies _ hmem (hside.trans hb))⟩

theorem not_removesAcross (hv : 2 * (G.group side b).length < G.members.length)
    (hr : Reach G.step (Partitioned side) G.start net) : ¬G.RemovesAcross side b net := by
  have h : G.Minority side b net :=
    hr.invariant minority_start fun _ _ _ h hok hs => minority_step hv h hok hs
  rintro ⟨r, hmem, t, _, hremoved⟩
  obtain ⟨hrm, hb⟩ := mem_group.mp hmem
  rw [(h.managers r hrm hb).events] at hremoved
  cases hremoved

section Tie

/-- A replica that has taken no part in any vote. -/
structure Fresh (G : VoteGroup) (net : VoteNet) (r : ReplicaID) : Prop where
  manager : net.manager r = Manager.new r G.members G.initialGroupSize
  handled : net.cast.handled r = []
  unsent : ∀ m ∈ net.cast.sent, m.sender ≠ r

/-- A vote on `target` at replica `a` with the Acks of `acked`. -/
structure Voting (members : List ReplicaID) (target a : ReplicaID) (acked : List ReplicaID)
    (m : Manager) : Prop where
  self : m.self = a
  listed : target ∈ m.membershipList
  session : m.voteOutSessions.lookup target = some ⟨members, acked, []⟩
  own : a ∈ acked

theorem Fresh.call_voteOut {r target : ReplicaID} (hf : G.Fresh net r)
    (ht : target ∈ G.members) (hne : target ≠ r)
    (hsize : G.initialGroupSize = G.members.length) :
    (net.manager r).call (.voteOut target) =
      ((Manager.new r G.members G.initialGroupSize).putVoteOut target
        ⟨G.members, [r], []⟩).asyncSend (.voteOut target) := by
  rw [hf.manager]
  refine Manager.call_voteOut hne ht ?_ rfl
  have hlength : 0 < G.members.length := List.length_pos_of_mem ht
  have hpos : G.members.length ≠ 0 := by omega
  simp only [Manager.inMajority, Manager.new, hsize, if_neg hpos, decide_eq_true_eq]
  omega

theorem Fresh.known {r : ReplicaID} (hf : G.Fresh net r) : net.cast.known r = [] := by
  simp only [Cast.known, hf.handled, List.filter_eq_nil_iff]
  intro j hj
  simp only [List.not_mem_nil, false_or, decide_eq_true_eq, Option.map_eq_some_iff]
  rintro ⟨m, hm, hsender⟩
  exact hf.unsent m (List.mem_of_getElem? hm) hsender

/-- A fresh replica starts a vote and sends its `VoteOut`. -/
theorem reach_initiated (side : ReplicaID → Bool) {r target : ReplicaID} (hf : G.Fresh net r)
    (hr : r ∈ G.members) (ht : target ∈ G.members) (hne : target ≠ r)
    (hsize : G.initialGroupSize = G.members.length) :
    ∃ m, Voting G.members target r [r] m ∧
      Reach G.step (Partitioned side) net ⟨Function.update net.manager r m,
        ⟨net.cast.sent ++ [⟨r, .voteOut target, []⟩], net.cast.handled⟩⟩ := by
  let net₁ : VoteNet := ⟨Function.update net.manager r (((Manager.new r G.members
    G.initialGroupSize).putVoteOut target ⟨G.members, [r], []⟩).asyncSend (.voteOut target)),
    net.cast⟩
  have hcall : G.step net (.call r (.voteOut target)) = some net₁ := by
    rw [step_call hr, hf.call_voteOut ht hne hsize]
  have hpending : .voteOut target ∈ (net₁.manager r).pending := by
    simp [net₁, Manager.asyncSend]
  have hsend := step_send hr net₁ hpending
  simp only [net₁, Function.update_self, Function.update_idem, Cast.send, hf.known] at hsend
  refine ⟨_, ?_, (Relation.ReflTransGen.single ⟨_, ?_, hcall⟩).tail ⟨_, ?_, hsend⟩⟩
  · exact ⟨rfl, ht, AList.lookup_insert .., List.mem_singleton_self r⟩
  · exact trivial
  · exact trivial

/-- Fresh replicas start a vote on the same target, one after the other. -/
theorem reach_announced (side : ReplicaID → Bool) {target : ReplicaID} (ht : target ∈ G.members)
    (hsize : G.initialGroupSize = G.members.length) (rs : List ReplicaID) (hnodup : rs.Nodup)
    (hsub : rs ⊆ G.members) (hout : target ∉ rs) (hfresh : ∀ r ∈ rs, G.Fresh net r) :
    ∃ net', Reach G.step (Partitioned side) net net' ∧
      net'.cast.sent = net.cast.sent ++ rs.map (fun r => ⟨r, .voteOut target, []⟩) ∧
      net'.cast.handled = net.cast.handled ∧ (∀ p ∉ rs, net'.manager p = net.manager p) ∧
      ∀ r ∈ rs, Voting G.members target r [r] (net'.manager r) := by
  induction rs generalizing net with
  | nil => exact ⟨net, .refl, by simp, rfl, fun _ _ => rfl, by simp⟩
  | cons r rs ih =>
    obtain ⟨hr, hnodup⟩ := List.nodup_cons.mp hnodup
    obtain ⟨hrm, hsub⟩ := List.cons_subset.mp hsub
    obtain ⟨hne, hout⟩ := List.ne_and_not_mem_of_not_mem_cons hout
    obtain ⟨hf, hfresh⟩ := List.forall_mem_cons.mp hfresh
    obtain ⟨m, hm, hreach⟩ := reach_initiated side hf hrm ht hne hsize
    have hfresh₁ : ∀ p ∈ rs, G.Fresh ⟨Function.update net.manager r m,
        ⟨net.cast.sent ++ [⟨r, .voteOut target, []⟩], net.cast.handled⟩⟩ p := by
      intro p hp
      have hpr : p ≠ r := fun he => hr (he ▸ hp)
      refine ⟨?_, (hfresh p hp).handled, ?_⟩
      · dsimp only
        rw [Function.update_of_ne hpr]
        exact (hfresh p hp).manager
      · intro msg hmsg
        rcases List.mem_append.mp hmsg with hmsg | hmsg
        · exact (hfresh p hp).unsent msg hmsg
        · rw [List.mem_singleton.mp hmsg]
          exact hpr.symm
    obtain ⟨net', hreach', hsent, hhandled, hkept, hvoting⟩ := ih hnodup hsub hout hfresh₁
    dsimp only at hkept
    refine ⟨net', hreach.trans hreach', ?_, hhandled, ?_, ?_⟩
    · rw [hsent, List.append_assoc, List.singleton_append, List.map_cons]
    · intro p hp
      obtain ⟨hpr, hp⟩ := List.ne_and_not_mem_of_not_mem_cons hp
      rw [hkept p hp, Function.update_of_ne hpr]
    · refine List.forall_mem_cons.mpr ⟨?_, hvoting⟩
      rw [hkept r hr, Function.update_self]
      exact hm

theorem Voting.check {members acked : List ReplicaID} {target a : ReplicaID} {m : Manager}
    (h : Voting members target a acked m) (hq : (members.length - 1) / 2 + 1 ≤ acked.length) :
    .removed target ∈ (m.checkVoteOutDecision target).events := by
  have hlt : ¬acked.length < VoteOutSession.needed ⟨members, acked, []⟩ := Nat.not_lt.mpr hq
  simp [Manager.checkVoteOutDecision, h.session, hlt, Manager.removeMember]

theorem Voting.check_of_lt {members acked : List ReplicaID} {target a : ReplicaID} {m : Manager}
    (h : Voting members target a acked m) (hq : acked.length < (members.length - 1) / 2 + 1) :
    m.checkVoteOutDecision target = m := by
  have hlt : acked.length < VoteOutSession.needed ⟨members, acked, []⟩ := hq
  simp [Manager.checkVoteOutDecision, h.session, hlt]

/-- The `VoteOut` of another replica counts as its Ack. -/
theorem Voting.dispatch {members acked : List ReplicaID} {target a x : ReplicaID} {m : Manager}
    (h : Voting members target a acked m) (hne : target ≠ a) (hx : x ∉ acked) :
    ∃ m', Voting members target a (x :: acked) m' ∧
      m.dispatch true x (.voteOut target) = m'.checkVoteOutDecision target := by
  have hxa : x ≠ a := fun he => hx (he ▸ h.own)
  have hmember : m.isMember target = true := by simpa [Manager.isMember] using h.listed
  have hinsert : (acked.insert x).insert a = x :: acked := by
    rw [List.insert_of_not_mem hx, List.insert_of_mem (List.mem_cons_of_mem x h.own)]
  refine ⟨(m.putVoteOut target ⟨members, x :: acked, []⟩).asyncSend (.voteOutAck target),
    ⟨h.self, h.listed, AList.lookup_insert .., List.mem_cons_of_mem x h.own⟩, ?_⟩
  simp [Manager.dispatch, Manager.handleVoteOut, h.self, hne, hxa, hmember, h.session,
    VoteOutSession.answered, hinsert]

/-- `VoteOut`s of other replicas, with their positions, that `a` has still to count. -/
structure Uncounted (side : ReplicaID → Bool) (target a : ReplicaID) (acked : List ReplicaID)
    (votes : List (ReplicaID × ℕ)) (net : VoteNet) : Prop where
  sent : ∀ v ∈ votes, net.cast.sent[v.2]? = some ⟨v.1, .voteOut target, []⟩
  sameSide : ∀ v ∈ votes, side v.1 = side a
  unhandled : ∀ v ∈ votes, v.2 ∉ net.cast.handled a
  unacked : ∀ v ∈ votes, v.1 ∉ acked
  senders : (votes.map Prod.fst).Nodup
  positions : (votes.map Prod.snd).Nodup

/-- The network after `a` has handled the message at position `i`. -/
def counted (net : VoteNet) (a : ReplicaID) (i : ℕ) (m : Manager) : VoteNet :=
  ⟨Function.update net.manager a m,
    ⟨net.cast.sent, Function.update net.cast.handled a (net.cast.handled a ++ [i])⟩⟩

section Counting

variable {target a : ReplicaID} {acked : List ReplicaID} {v : ReplicaID × ℕ}
variable {votes : List (ReplicaID × ℕ)}

theorem Uncounted.tail (h : Uncounted side target a acked (v :: votes) net) (m : Manager) :
    Uncounted side target a (v.1 :: acked) votes (counted net a v.2 m) := by
  obtain ⟨hfst, hsenders⟩ := List.nodup_cons.mp h.senders
  obtain ⟨hsnd, hpositions⟩ := List.nodup_cons.mp h.positions
  refine ⟨fun w hw => h.sent w (List.mem_cons_of_mem v hw),
    fun w hw => h.sameSide w (List.mem_cons_of_mem v hw), ?_, ?_, hsenders, hpositions⟩
  · intro w hw
    have hne : w.2 ≠ v.2 := fun he => hsnd (he ▸ List.mem_map_of_mem hw)
    simp [counted, h.unhandled w (List.mem_cons_of_mem v hw), hne]
  · intro w hw
    have hne : w.1 ≠ v.1 := fun he => hfst (he ▸ List.mem_map_of_mem hw)
    simp [h.unacked w (List.mem_cons_of_mem v hw), hne]

theorem Uncounted.step (h : Uncounted side target a acked (v :: votes) net) (ha : a ∈ G.members)
    (hne : target ≠ a) (hvoting : Voting G.members target a acked (net.manager a)) :
    ∃ m, Voting G.members target a (v.1 :: acked) m ∧
      Step G.step (Partitioned side) net
        (counted net a v.2 (m.checkVoteOutDecision target)) := by
  obtain ⟨hsent, -⟩ := List.forall_mem_cons.mp h.sent
  obtain ⟨hside, -⟩ := List.forall_mem_cons.mp h.sameSide
  obtain ⟨hunhandled, -⟩ := List.forall_mem_cons.mp h.unhandled
  obtain ⟨hunacked, -⟩ := List.forall_mem_cons.mp h.unacked
  obtain ⟨m, hm, hdispatch⟩ := hvoting.dispatch hne hunacked
  have hstep := step_handle ha net (Cast.handle_of_mem hsent hunhandled (by simp)) true
  rw [hdispatch] at hstep
  refine ⟨m, hm, .handle a v.2 true, ?_, hstep⟩
  rw [Partitioned, hsent, Option.map_some, hside]

/-- A replica handles the `VoteOut`s of others until it has counted enough of them. -/
theorem reach_collected (ha : a ∈ G.members) (hne : target ≠ a)
    (hvoting : Voting G.members target a acked (net.manager a))
    (hvotes : Uncounted side target a acked votes net)
    (hq : (G.members.length - 1) / 2 + 1 ≤ acked.length + votes.length) :
    ∃ net', Reach G.step (Partitioned side) net net' ∧
      .removed target ∈ (net'.manager a).events ∧ net'.cast.sent = net.cast.sent ∧
      ∀ p ≠ a, net'.manager p = net.manager p ∧
        net'.cast.handled p = net.cast.handled p := by
  induction votes generalizing net acked with
  | nil =>
    refine ⟨_, .single ⟨.call a (.checkVoteOut target), trivial, step_call ha net _⟩, ?_, rfl, ?_⟩
    · dsimp only
      rw [Function.update_self]
      exact hvoting.check hq
    · intro p hp
      dsimp only
      exact ⟨Function.update_of_ne hp .., rfl⟩
  | cons v votes ih =>
    obtain ⟨m, hm, hstep⟩ := hvotes.step ha hne hvoting
    by_cases hlt : (v.1 :: acked).length < (G.members.length - 1) / 2 + 1
    · rw [hm.check_of_lt hlt] at hstep
      have hq' : (G.members.length - 1) / 2 + 1 ≤ (v.1 :: acked).length + votes.length := by
        simp only [List.length_cons] at hq ⊢
        omega
      obtain ⟨net', hreach, hremoved, hsent, hkept⟩ :=
        ih (by simpa [counted] using hm) (hvotes.tail m) hq'
      refine ⟨net', hreach.head hstep, hremoved, hsent, ?_⟩
      intro p hp
      simpa [counted, hp] using hkept p hp
    · refine ⟨_, .single hstep, ?_, rfl, ?_⟩
      · simpa [counted] using hm.check (Nat.not_lt.mp hlt)
      · intro p hp
        simp [counted, hp]

end Counting

/-- The messages that the replicas after the first one have added to a history. -/
theorem getElem?_of_mem_zipIdx {α β : Type} {f : α → β} {sent : List β} {a x : α} {rs : List α}
    {i : ℕ} (h : (x, i) ∈ rs.zipIdx (sent.length + 1)) :
    (sent ++ (a :: rs).map f)[i]? = some (f x) := by
  obtain ⟨hle, hx⟩ := List.mk_mem_zipIdx_iff_le_and_getElem?_sub.mp h
  have hi : i - sent.length = (i - (sent.length + 1)) + 1 := by omega
  rw [List.getElem?_append_right (by omega), List.getElem?_map, hi, List.getElem?_cons_succ, hx]
  rfl

/-- Half of the members are enough to remove a member of the other half. -/
theorem reach_removed {a target : ReplicaID} {rs : List ReplicaID}
    (hsize : G.initialGroupSize = G.members.length) (hgroup : G.group side b = a :: rs)
    (htie : 2 * (G.group side b).length = G.members.length) (ht : target ∈ G.group side (!b))
    (hfresh : ∀ r ∈ G.group side b, G.Fresh net r) :
    ∃ net', Reach G.step (Partitioned side) net net' ∧
      .removed target ∈ (net'.manager a).events ∧
      (∀ m ∈ net'.cast.sent, m ∈ net.cast.sent ∨ m.sender ∈ G.group side b) ∧
      ∀ p ∉ G.group side b, net'.manager p = net.manager p ∧
        net'.cast.handled p = net.cast.handled p := by
  have hnodup : (a :: rs).Nodup := hgroup ▸ G.nodup.filter _
  have hmem : ∀ r ∈ a :: rs, r ∈ G.members ∧ side r = b := fun r hr =>
    mem_group.mp (hgroup ▸ hr)
  obtain ⟨htm, htb⟩ := mem_group.mp ht
  have hout : target ∉ a :: rs := by
    intro hin
    have hb := (hmem target hin).2
    rw [htb] at hb
    cases b <;> cases hb
  rw [hgroup] at hfresh htie ⊢
  obtain ⟨net₁, hreach, hsent, hhandled, hkept, hvoting⟩ :=
    reach_announced side htm hsize (a :: rs) hnodup (fun r hr => (hmem r hr).1) hout hfresh
  have ha : a ∈ a :: rs := List.mem_cons_self
  have hvotes : Uncounted side target a [a] (rs.zipIdx (net.cast.sent.length + 1)) net₁ := by
    obtain ⟨hars, hrs⟩ := List.nodup_cons.mp hnodup
    refine ⟨?_, ?_, ?_, ?_, by simpa using hrs, by simpa using List.nodup_range'⟩
    · rintro ⟨x, i⟩ hv
      rw [hsent]
      exact getElem?_of_mem_zipIdx hv
    · rintro ⟨x, i⟩ hv
      rw [(hmem x (List.mem_cons_of_mem a (List.fst_mem_of_mem_zipIdx hv))).2, (hmem a ha).2]
    · intro v hv
      rw [hhandled, (hfresh a ha).handled]
      exact List.not_mem_nil
    · rintro ⟨x, i⟩ hv hxa
      exact hars (List.mem_singleton.mp hxa ▸ List.fst_mem_of_mem_zipIdx hv)
  have hne : target ≠ a := by
    rintro rfl
    exact hout ha
  have hq : (G.members.length - 1) / 2 + 1 ≤
      [a].length + (rs.zipIdx (net.cast.sent.length + 1)).length := by
    simp only [List.length_cons, List.length_nil, List.length_zipIdx] at htie ⊢
    omega
  obtain ⟨net', hreach', hremoved, hsent', hkept'⟩ :=
    reach_collected (hmem a ha).1 hne (hvoting a ha) hvotes hq
  refine ⟨net', hreach.trans hreach', hremoved, ?_, ?_⟩
  · intro m hm
    rw [hsent', hsent] at hm
    rcases List.mem_append.mp hm with hm | hm
    · exact Or.inl hm
    · obtain ⟨r, hr, rfl⟩ := List.mem_map.mp hm
      exact Or.inr hr
  · intro p hp
    have hpa : p ≠ a := fun he => hp (he ▸ ha)
    rw [(hkept' p hpa).1, (hkept' p hpa).2, hhandled]
    exact ⟨hkept p hp, rfl⟩

theorem fresh_start (r : ReplicaID) : G.Fresh G.start r :=
  ⟨rfl, rfl, by simp [start, Cast.empty]⟩

/-- On a tie each side can remove a member of the other. -/
theorem exists_split_of_tie (side : ReplicaID → Bool)
    (hsize : G.initialGroupSize = G.members.length)
    (hone : 2 * (G.group side true).length = G.members.length)
    (htwo : 2 * (G.group side false).length = G.members.length) (hne : G.members ≠ []) :
    ∃ net, Reach G.step (Partitioned side) G.start net ∧ G.RemovesAcross side true net ∧
      G.RemovesAcross side false net := by
  have hpos : 0 < G.members.length := List.length_pos_iff.mpr hne
  obtain ⟨a, as, ha⟩ := List.exists_cons_of_length_pos (l := G.group side true) (by omega)
  obtain ⟨c, cs, hc⟩ := List.exists_cons_of_length_pos (l := G.group side false) (by omega)
  have hamem : a ∈ G.group side true := ha ▸ List.mem_cons_self
  have hcmem : c ∈ G.group side false := hc ▸ List.mem_cons_self
  have hdisjoint : ∀ r ∈ G.group side true, r ∉ G.group side false := by
    intro r hr hr'
    have h := (mem_group.mp hr).2
    rw [(mem_group.mp hr').2] at h
    cases h
  obtain ⟨net₁, hreach₁, hremoved₁, hsent₁, hkept₁⟩ :=
    reach_removed hsize ha hone hcmem fun r _ => fresh_start r
  have hfresh : ∀ r ∈ G.group side false, G.Fresh net₁ r := by
    intro r hr
    obtain ⟨hm, hh⟩ := hkept₁ r fun hr' => hdisjoint r hr' hr
    refine ⟨hm, hh, ?_⟩
    rintro m hmem rfl
    rcases hsent₁ m hmem with hmem | hmem
    · cases hmem
    · exact hdisjoint _ hmem hr
  obtain ⟨net₂, hreach₂, hremoved₂, -, hkept₂⟩ := reach_removed hsize hc htwo hamem hfresh
  refine ⟨net₂, hreach₁.trans hreach₂, ⟨a, hamem, c, hcmem, ?_⟩, ⟨c, hcmem, a, hamem, hremoved₂⟩⟩
  rw [(hkept₂ a (hdisjoint a hamem)).1]
  exact hremoved₁

end Tie

theorem length_group (G : VoteGroup) (side : ReplicaID → Bool) :
    (G.group side true).length + (G.group side false).length = G.members.length := by
  have h := List.length_eq_length_filter_add (l := G.members) side
  simpa [group] using h.symm

/-- No two groups that exchange no messages can remove members of each other, exactly if
they are of different size. -/
theorem no_split_brain_iff (G : VoteGroup) (hsize : G.initialGroupSize = G.members.length)
    (side : ReplicaID → Bool) :
    (∀ net, Reach G.step (Partitioned side) G.start net →
      ¬(G.RemovesAcross side true net ∧ G.RemovesAcross side false net)) ↔
    G.members = [] ∨ (G.group side true).length ≠ (G.group side false).length := by
  have hlength := G.length_group side
  constructor
  · intro h
    by_contra hcon
    push Not at hcon
    obtain ⟨hne, htie⟩ := hcon
    obtain ⟨net, hr, hsplit⟩ := exists_split_of_tie side hsize (by omega) (by omega) hne
    exact h net hr hsplit
  · rintro (hnil | hsizes) net hr ⟨⟨r, hrm, hone⟩, htwo⟩
    · have hin := (mem_group.mp hrm).1
      rw [hnil] at hin
      cases hin
    · rcases Nat.lt_or_gt_of_ne hsizes with hlt | hgt
      · exact not_removesAcross (by omega) hr ⟨r, hrm, hone⟩
      · exact not_removesAcross (by omega) hr htwo

def threeReplicas : VoteGroup := ⟨[[1], [2], [3]], by decide, 3⟩

theorem no_split_brain_iff_twoToOne :
    threeReplicas.initialGroupSize = threeReplicas.members.length ∧
      ∀ net, Reach threeReplicas.step (Partitioned fun r => r ≠ [3]) threeReplicas.start net →
        ¬(threeReplicas.RemovesAcross (fun r => r ≠ [3]) true net ∧
          threeReplicas.RemovesAcross (fun r => r ≠ [3]) false net) :=
  ⟨rfl, (no_split_brain_iff threeReplicas rfl _).mpr (by decide)⟩

def fourReplicas : VoteGroup := ⟨[[1], [2], [3], [4]], by decide, 4⟩

/-- The first two replicas are cut off from the other two. -/
def firstTwo (r : ReplicaID) : Bool := r ∈ [[1], [2]]

/-- One Ack besides that of the initiator is enough on either side. -/
def mutualRemoval : List Action :=
  [.call [1] (.voteOut [3]), .send [1] (.voteOut [3]), .handle [2] 0 true,
   .call [3] (.voteOut [1]), .send [3] (.voteOut [1]), .handle [4] 1 true]

theorem split_brain_on_tie :
    ∃ net, Reach fourReplicas.step (Partitioned firstTwo) fourReplicas.start net ∧
      fourReplicas.RemovesAcross firstTwo true net ∧
      fourReplicas.RemovesAcross firstTwo false net := by
  have hrun : (execute fourReplicas.step (Partitioned firstTwo) fourReplicas.start
      mutualRemoval).map (fun net => decide (.removed [3] ∈ (net.manager [2]).events ∧
        .removed [1] ∈ (net.manager [4]).events)) = some true := by
    decide +kernel
  obtain ⟨net, -, hr, hc⟩ := reach_of_execute hrun
  obtain ⟨hthree, hone⟩ := of_decide_eq_true hc
  exact ⟨net, hr, ⟨[2], by decide, [3], by decide, hthree⟩, [4], by decide, [1], by decide, hone⟩

end VoteGroup
end Comlink
