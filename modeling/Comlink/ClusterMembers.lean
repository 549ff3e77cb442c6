import Comlink.VoteManager
import Comlink.GuardedRuns
import Mathlib.Data.List.Induction

/-!
# The persisted membership of a cluster

A cluster keeps the members of its system conversation in a `memberStore`, which follows
the `Manager` through `OnMembershipChange`; writes to the storage are taken to succeed.
`NewCluster` builds the conversation and the manager from the persisted list, in its
order. A joiner persists the list that its sponsor answers with and starts from that.

`accept` is one accepted change at a replica: a `VoteOut` that has its majority, or a
`MemberAdd` that is applied. A replica never accepts its own removal. The lists of a
replica depend on the accepted changes only, which `events` records.
-/
namespace Comlink
open GuardedRuns

structure ClusterMember where
  id : ReplicaID
  addr : String
  deriving DecidableEq, Repr

namespace MemberStore

/-- `memberStore.Add`: the address of a known replica is updated. -/
def add : List ClusterMember → ReplicaID → String → List ClusterMember
  | [], r, addr => [⟨r, addr⟩]
  | m :: ms, r, addr => if m.id = r then ⟨m.id, addr⟩ :: ms else m :: add ms r addr

def remove (members : List ClusterMember) (r : ReplicaID) : List ClusterMember :=
  members.filter fun m => m.id ≠ r

def ids (members : List ClusterMember) : List ReplicaID := members.map ClusterMember.id

/-- The address that a map built from the list in its order holds. -/
def addrOf (members : List ClusterMember) (r : ReplicaID) : String :=
  ((members.reverse.find? fun m => m.id = r).map ClusterMember.addr).getD ""

@[simp] theorem ids_cons (m : ClusterMember) (members : List ClusterMember) :
    ids (m :: members) = m.id :: ids members := rfl

theorem ids_add (members : List ClusterMember) (r : ReplicaID) (addr : String) :
    ids (add members r addr) = if r ∈ ids members then ids members else ids members ++ [r] := by
  induction members with
  | nil => rfl
  | cons m ms ih =>
    rw [add]
    by_cases hm : m.id = r
    · simp [hm]
    · simp only [if_neg hm, ids_cons, ih, List.mem_cons, Ne.symm hm, false_or]
      by_cases hin : r ∈ ids ms
      · rw [if_pos hin, if_pos hin]
      · rw [if_neg hin, if_neg hin, List.cons_append]

theorem ids_remove (members : List ClusterMember) (r : ReplicaID) :
    ids (remove members r) = (ids members).filter (· ≠ r) := by
  rw [ids, ids, List.filter_map]
  rfl

end MemberStore

namespace Manager

/-- There is no vote on the replica's own removal. -/
structure Standing (m : Manager) : Prop where
  member : m.self ∈ m.membershipList
  unvoted : m.voteOutSessions.lookup m.self = none
  closed : ∀ p ∈ m.closedVoteOuts, p.1 ≠ m.self

variable {m : Manager} {target : ReplicaID}

theorem Standing.putVoteOut (h : m.Standing) (ht : target ≠ m.self) (s : VoteOutSession) :
    (m.putVoteOut target s).Standing := by
  refine ⟨h.member, ?_, h.closed⟩
  exact (AList.lookup_insert_ne (Ne.symm ht)).trans h.unvoted

theorem Standing.cancelSession (h : m.Standing) (target : ReplicaID) (err : VoteError) :
    (m.cancelSession target err).Standing := by
  rcases cancelSession_cases m target err with he | ⟨s, hs, he⟩ <;> rw [he]
  · exact h
  · have ht : target ≠ m.self := by
      rintro rfl
      rw [h.unvoted] at hs
      cases hs
    refine ⟨h.member, ?_, ?_⟩
    · exact (AList.lookup_erase_ne (Ne.symm ht)).trans h.unvoted
    · intro p hp
      rcases List.mem_append.mp hp with hp | hp
      · exact h.closed p hp
      · rw [List.mem_singleton.mp hp]
        exact ht

theorem Standing.removeMember (h : m.Standing) (ht : target ≠ m.self) :
    (m.removeMember target).Standing := by
  refine ⟨?_, ?_, ?_⟩
  · exact List.mem_filter.mpr ⟨h.member, decide_eq_true (Ne.symm ht)⟩
  · exact (AList.lookup_erase_ne (Ne.symm ht)).trans h.unvoted
  · intro p hp
    rcases List.mem_append.mp hp with hp | hp
    · exact h.closed p hp
    · simp only [Option.mem_toList, Option.map_eq_some_iff] at hp
      obtain ⟨s, -, rfl⟩ := hp
      exact ht

theorem Standing.check (h : m.Standing) (target : ReplicaID) :
    (m.checkVoteOutDecision target).Standing := by
  rcases checkVoteOutDecision_cases m target with ⟨he, _⟩ | ⟨he, _⟩ | ⟨he, s, hs, _⟩ <;> rw [he]
  · exact h
  · exact h.cancelSession target _
  · refine h.removeMember ?_
    rintro rfl
    rw [h.unvoted] at hs
    cases hs

theorem Standing.recheck (h : m.Standing) (ht : target ≠ m.self) (s : VoteOutSession) :
    (m.recheckVoteOut target s).Standing := by
  unfold recheckVoteOut
  split_ifs
  · exact h.cancelSession target _
  · exact h
  · have h' := h.removeMember ht
    exact ⟨h'.member, h'.unvoted, h'.closed⟩

theorem Standing.onlyVoteIn {m' : Manager} (h : m.Standing) (hm : OnlyVoteIn m m') :
    m'.Standing := by
  refine ⟨?_, ?_, ?_⟩
  · rw [hm.self, hm.list]
    exact h.member
  · rw [hm.self, hm.voteOuts]
    exact h.unvoted
  · rw [hm.self, hm.closed]
    exact h.closed

theorem Standing.call (h : m.Standing) (k : Call) : (m.call k).Standing := by
  cases k with
  | voteOut target =>
    rw [Manager.call]
    cases hv : m.voteOut target with
    | error err => exact h
    | ok m' =>
      obtain ⟨ht, _, _, rfl⟩ := voteOut_eq_ok hv
      exact (h.putVoteOut ht _).onlyVoteIn (onlyVoteIn_asyncSend ..)
  | checkVoteOut target => exact h.check target
  | recheckVoteOut i =>
    rw [Manager.call]
    split
    · exact h
    · rename_i hc
      exact h.recheck (h.closed _ (List.mem_of_getElem? hc)) _
  | cancelVoteOut target err => exact h.cancelSession target err
  | voteIn target addr => exact h.onlyVoteIn (onlyVoteIn_call_voteIn m target addr)
  | checkVoteIn target => exact h.onlyVoteIn (onlyVoteIn_checkVoteInDecision m target)
  | recheckVoteIn i => exact h.onlyVoteIn (onlyVoteIn_call_recheckVoteIn m i)
  | cancelVoteIn target err =>
    exact h.onlyVoteIn (onlyVoteIn_cancelVoteInSession m target err)

theorem Standing.tallied (h : m.Standing) {s : VoteOutSession}
    (hs : m.voteOutSessions.lookup target = some s) (s' : VoteOutSession) :
    ((m.putVoteOut target s').checkVoteOutDecision target).Standing := by
  refine (h.putVoteOut ?_ s').check target
  rintro rfl
  rw [h.unvoted] at hs
  cases hs

theorem Standing.handleVoteOut (h : m.Standing) (suspected : Bool) (sender target : ReplicaID) :
    (m.handleVoteOut suspected sender target).Standing := by
  unfold Manager.handleVoteOut
  split
  · exact h.onlyVoteIn (onlyVoteIn_asyncSend ..)
  · rename_i ht
    split
    · exact h
    · split
      · exact h
      · exact ((h.putVoteOut ht _).onlyVoteIn (onlyVoteIn_asyncSend ..)).check target

theorem Standing.handleMemberAdd (h : m.Standing) (target : ReplicaID) (addr : String) :
    (m.handleMemberAdd target addr).Standing := by
  unfold Manager.handleMemberAdd applyMemberAdd
  split_ifs
  · exact h
  · exact h
  · exact ⟨List.mem_append_left _ h.member, h.unvoted, h.closed⟩

theorem Standing.dispatch (h : m.Standing) (suspected : Bool) (sender : ReplicaID)
    (frame : VoteFrame) : (m.dispatch suspected sender frame).Standing := by
  cases frame with
  | voteOut target => exact h.handleVoteOut suspected sender target
  | voteOutAck target =>
    rw [Manager.dispatch, Manager.handleVoteOutAck]
    split
    · exact h
    · exact h.tallied (by assumption) _
  | voteOutNack target =>
    rw [Manager.dispatch, Manager.handleVoteOutNack]
    split
    · exact h
    · exact h.tallied (by assumption) _
  | voteIn target addr => exact h.onlyVoteIn (onlyVoteIn_handleVoteIn m sender target)
  | voteInAck target => exact h.onlyVoteIn (onlyVoteIn_handleVoteInAck m sender target)
  | voteInNack target => exact h.onlyVoteIn (onlyVoteIn_handleVoteInNack m sender target)
  | memberAdd target addr => exact h.handleMemberAdd target addr

end Manager

structure Cluster where
  manager : Manager
  members : List ClusterMember

namespace Cluster

def idLen : ℕ := 16

/-- The identifier of sixteen equal bytes. -/
def replicaOf (b : UInt8) : ReplicaID := List.replicate idLen b

/-- `NewCluster` over a persisted list, which has to contain the replica itself. -/
def start (self : ReplicaID) (persisted : List ClusterMember) : Option Cluster :=
  if self ∈ MemberStore.ids persisted then
    some ⟨Manager.new self (MemberStore.ids persisted) (MemberStore.ids persisted).length,
      persisted⟩
  else none

def onMembershipChange (members : List ClusterMember) : MembershipChange → List ClusterMember
  | .added r addr => MemberStore.add members r addr
  | .removed r => MemberStore.remove members r

/-- The store is told of the changes that a step of the manager has made. -/
def follow (c : Cluster) (m : Manager) : Cluster :=
  ⟨m, (m.events.drop c.manager.events.length).foldl onMembershipChange c.members⟩

def restart (c : Cluster) : Option Cluster := start c.manager.self c.members

/-- The member list of a `JoinResponse`. -/
def joinResponse (c : Cluster) (joiner : ReplicaID) (addr : String) : List ClusterMember :=
  c.manager.membershipList.map fun r =>
    ⟨r, if r = joiner then addr else MemberStore.addrOf c.members r⟩

/-- The cluster of a joiner that starts from the answer of its sponsor. -/
def join (c : Cluster) (joiner : ReplicaID) (addr : String) : Option Cluster :=
  start joiner (c.joinResponse joiner addr)

/-- One accepted change. -/
def accept (c : Cluster) : MembershipChange → Cluster
  | .removed r => if r = c.manager.self then c else c.follow (c.manager.removeMember r)
  | .added r addr => c.follow (c.manager.handleMemberAdd r addr)

/-- A history of accepted changes. -/
def replay (c : Cluster) (history : List MembershipChange) : Cluster :=
  history.foldl accept c

variable {c c' : Cluster} {r : ReplicaID}

theorem start_eq_some {self : ReplicaID} {persisted : List ClusterMember}
    (h : start self persisted = some c) : self ∈ MemberStore.ids persisted ∧
      c = ⟨Manager.new self (MemberStore.ids persisted) (MemberStore.ids persisted).length,
        persisted⟩ := by
  unfold start at h
  split at h
  · rename_i hself
    cases h
    exact ⟨hself, rfl⟩
  · cases h

theorem replay_concat (history : List MembershipChange) (change : MembershipChange) :
    c.replay (history ++ [change]) = (c.replay history).accept change := by
  rw [replay, List.foldl_append]
  rfl

/-- The lists of two states of a replica agree. -/
structure SameView (c c' : Cluster) : Prop where
  self : c'.manager.self = c.manager.self
  list : c'.manager.membershipList = c.manager.membershipList
  slots : c'.manager.membership = c.manager.membership
  members : c'.members = c.members

theorem follow_of_events_eq {m : Manager} (h : m.events = c.manager.events) :
    c.follow m = ⟨m, c.members⟩ := by
  rw [follow, h, List.drop_length]
  rfl

theorem follow_of_events_concat {m : Manager} {change : MembershipChange}
    (h : m.events = c.manager.events ++ [change]) :
    c.follow m = ⟨m, onMembershipChange c.members change⟩ := by
  rw [follow, h, List.drop_left]
  rfl

theorem accept_removed (h : r ≠ c.manager.self) : c.accept (.removed r) =
    ⟨c.manager.removeMember r, MemberStore.remove c.members r⟩ := by
  have hevents : (c.manager.removeMember r).events = c.manager.events ++ [.removed r] := rfl
  rw [accept, if_neg h]
  exact follow_of_events_concat hevents

theorem accept_added (addr : String) (hself : r ≠ c.manager.self)
    (hout : r ∉ c.manager.membershipList) : c.accept (.added r addr) =
      ⟨c.manager.applyMemberAdd r addr, MemberStore.add c.members r addr⟩ := by
  rw [accept, Manager.handleMemberAdd, if_neg hself]
  exact follow_of_events_concat (Manager.applyMemberAdd_of_not_mem hout addr).2.2.2

theorem accept_added_of_mem (addr : String)
    (h : r = c.manager.self ∨ r ∈ c.manager.membershipList) : c.accept (.added r addr) = c := by
  have hkept : c.manager.handleMemberAdd r addr = c.manager := by
    unfold Manager.handleMemberAdd
    split
    · rfl
    · rename_i hself
      exact Manager.applyMemberAdd_of_mem (h.resolve_left hself) addr
  rw [accept, hkept]
  exact follow_of_events_eq rfl

/-- The store lists the members of the manager in the same order, the replica itself among
them. -/
structure Listed (c : Cluster) : Prop where
  ids : MemberStore.ids c.members = c.manager.membershipList
  self : c.manager.self ∈ c.manager.membershipList

theorem listed_start {self : ReplicaID} {persisted : List ClusterMember}
    (h : start self persisted = some c) : c.Listed := by
  obtain ⟨hself, rfl⟩ := start_eq_some h
  exact ⟨rfl, hself⟩

theorem Listed.accept (h : c.Listed) (change : MembershipChange) : (c.accept change).Listed := by
  cases change with
  | removed r =>
    by_cases hr : r = c.manager.self
    · rw [Cluster.accept, if_pos hr]
      exact h
    · rw [accept_removed hr]
      refine ⟨?_, ?_⟩
      · rw [MemberStore.ids_remove, h.ids]
        rfl
      · exact List.mem_filter.mpr ⟨h.self, decide_eq_true (Ne.symm hr)⟩
  | added r addr =>
    by_cases hr : r = c.manager.self ∨ r ∈ c.manager.membershipList
    · rw [accept_added_of_mem addr hr]
      exact h
    · push Not at hr
      obtain ⟨hself, hlist, -, -⟩ := Manager.applyMemberAdd_of_not_mem hr.2 addr
      rw [accept_added addr hr.1 hr.2]
      refine ⟨?_, ?_⟩
      · dsimp only
        rw [hlist, MemberStore.ids_add, h.ids, if_neg hr.2]
      · dsimp only
        rw [hself, hlist]
        exact List.mem_append_left _ h.self

theorem Listed.replay (h : c.Listed) (history : List MembershipChange) :
    (c.replay history).Listed := by
  induction history using List.reverseRecOn with
  | nil => exact h
  | append_singleton history change ih =>
    rw [replay_concat]
    exact ih.accept change

/-- Equal lists stay equal when the same member is removed. -/
theorem SameView.removed (h : SameView c c') (hr : r ≠ c.manager.self) {m : Manager}
    (hm : Manager.SameRoster (c'.manager.removeMember r) m) :
    SameView (c.accept (.removed r)) (c'.follow m) := by
  have hevents : m.events = c'.manager.events ++ [.removed r] := hm.events
  rw [accept_removed hr, follow_of_events_concat hevents]
  refine ⟨hm.self.trans h.self, ?_, ?_, ?_⟩
  · rw [hm.list, Manager.removeMember, Manager.removeMember, h.list]
  · rw [hm.slots, Manager.removeMember, Manager.removeMember, h.slots]
  · dsimp only [onMembershipChange]
    rw [h.members]

theorem SameView.added (h : SameView c c') (addr : String) :
    SameView (c.accept (.added r addr)) (c'.accept (.added r addr)) := by
  by_cases hr : r = c.manager.self ∨ r ∈ c.manager.membershipList
  · have hr' : r = c'.manager.self ∨ r ∈ c'.manager.membershipList := by
      rwa [h.self, h.list]
    rw [accept_added_of_mem addr hr, accept_added_of_mem addr hr']
    exact h
  · have hr' : ¬(r = c'.manager.self ∨ r ∈ c'.manager.membershipList) := by
      rwa [h.self, h.list]
    push Not at hr hr'
    obtain ⟨hs, hl, hm, -⟩ := Manager.applyMemberAdd_of_not_mem hr.2 addr
    obtain ⟨hs', hl', hm', -⟩ := Manager.applyMemberAdd_of_not_mem hr'.2 addr
    rw [accept_added addr hr.1 hr.2, accept_added addr hr'.1 hr'.2]
    refine ⟨?_, ?_, ?_, ?_⟩
    · rw [hs, hs', h.self]
    · rw [hl, hl', h.list]
    · rw [hm, hm', h.slots]
    · dsimp only
      rw [h.members]

/-- The steps of a replica's manager: what its callers do, and the messages it handles. -/
inductive Action where
  | call (k : Manager.Call)
  | dispatch (suspected : Bool) (sender : ReplicaID) (frame : VoteFrame)
  deriving DecidableEq, Repr

def step (c : Cluster) : Action → Option Cluster
  | .call k => some (c.follow (c.manager.call k))
  | .dispatch suspected sender frame =>
    some (c.follow (c.manager.dispatch suspected sender frame))

/-- The state of a replica is what its accepted changes have made of its first state. -/
structure Recorded (c₀ c : Cluster) : Prop where
  view : SameView (c₀.replay c.manager.events) c
  standing : c.manager.Standing

variable {c₀ : Cluster}

theorem Recorded.keptOrRemoved (h : Recorded c₀ c) {m : Manager}
    (hm : Manager.KeptOrRemoved c.manager m) (hs : m.Standing) : Recorded c₀ (c.follow m) := by
  rcases hm with hm | ⟨m₀, target, hm₀, hm⟩
  · refine ⟨?_, hs⟩
    rw [follow_of_events_eq hm.events]
    dsimp only
    rw [hm.events]
    exact ⟨hm.self.trans h.view.self, hm.list.trans h.view.list, hm.slots.trans h.view.slots,
      h.view.members⟩
  · have hroster := (hm₀.removeMember target).trans hm
    have hevents : m.events = c.manager.events ++ [.removed target] := hroster.events
    have htarget : target ≠ (c₀.replay c.manager.events).manager.self := by
      rintro rfl
      have hin := hs.member
      rw [hroster.list, hroster.self] at hin
      have hne := of_decide_eq_true (List.mem_filter.mp hin).2
      exact hne h.view.self
    refine ⟨?_, hs⟩
    rw [show (c.follow m).manager.events = m.events from rfl, hevents, replay_concat]
    exact h.view.removed htarget hroster

theorem Recorded.handleMemberAdd (h : Recorded c₀ c) (target : ReplicaID) (addr : String) :
    Recorded c₀ (c.accept (.added target addr)) := by
  refine ⟨?_, h.standing.handleMemberAdd target addr⟩
  by_cases hr : target = c.manager.self ∨ target ∈ c.manager.membershipList
  · rw [accept_added_of_mem addr hr]
    exact h.view
  · have hevents : (c.accept (.added target addr)).manager.events =
        c.manager.events ++ [.added target addr] := by
      push Not at hr
      rw [accept_added addr hr.1 hr.2]
      exact (Manager.applyMemberAdd_of_not_mem hr.2 addr).2.2.2
    rw [hevents, replay_concat]
    exact h.view.added addr

theorem recorded_start {self : ReplicaID} {persisted : List ClusterMember}
    (h : start self persisted = some c) : Recorded c c := by
  obtain ⟨hself, rfl⟩ := start_eq_some h
  exact ⟨⟨rfl, rfl, rfl, rfl⟩, hself, rfl, by simp [Manager.new]⟩

theorem Recorded.step (h : Recorded c₀ c) {act : Action} (hs : c.step act = some c') :
    Recorded c₀ c' := by
  cases act with
  | call k =>
    cases hs
    exact h.keptOrRemoved (Manager.keptOrRemoved_call _ k) (h.standing.call k)
  | dispatch suspected sender frame =>
    cases hs
    by_cases hnone : frame.admits = none
    · exact h.keptOrRemoved (Manager.keptOrRemoved_dispatch _ suspected sender frame hnone)
        (h.standing.dispatch suspected sender frame)
    · cases frame with
      | memberAdd target addr => exact h.handleMemberAdd target addr
      | _ => exact absurd rfl hnone

/-- In every run of a replica its lists are those of the history of its accepted changes. -/
theorem recorded_of_reach {self : ReplicaID} {persisted : List ClusterMember}
    (h : start self persisted = some c₀) (hr : Reach step (fun _ _ => True) c₀ c) :
    Recorded c₀ c :=
  hr.invariant (recorded_start h) fun _ _ _ h _ hs => h.step hs

end Cluster
end Comlink
