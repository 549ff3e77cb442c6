import Comlink.Membership
import Comlink.AssociationLists

/-!
# The membership manager

The voting protocols of `membership/voteout.go` and `membership/votein.go` as functions
on the state of a `Manager`, with the slots of its conversation's `psync.Membership`.
A removal is decided by every replica for itself from the answers it has received; an
addition is decided by its proposer, who then announces it with a `MemberAdd`.

A handler is one atomic step. Frames that it sends in goroutines of their own are put
into `pending`; when they are really sent is left to the environment, and so is what
the failure detector says about a target. `events` is the history of the calls of
`OnMembershipChange`, `completed` that of the sessions that were closed, with the error
that a waiting caller gets. A session that has left its table is kept as it was then,
because the goroutine that has started the vote may still hold it.
-/
namespace Comlink

inductive VoteFrame where
  | voteOut (target : ReplicaID)
  | voteOutAck (target : ReplicaID)
  | voteOutNack (target : ReplicaID)
  | voteIn (target : ReplicaID) (addr : String)
  | voteInAck (target : ReplicaID)
  | voteInNack (target : ReplicaID)
  | memberAdd (target : ReplicaID) (addr : String)
  deriving DecidableEq, Repr

/-- The replica that a `MemberAdd` admits. -/
def VoteFrame.admits : VoteFrame → Option ReplicaID
  | .memberAdd target _ => some target
  | _ => none

inductive VoteError where
  | targetIsSelf
  | targetNotMember
  | targetAlreadyMember
  | partitionMinority
  | inProgress
  | nacked
  | timeout
  | contextDone
  | broadcastFailed
  deriving DecidableEq, Repr

structure VoteOutSession where
  membersAtStart : List ReplicaID
  ackedBy : List ReplicaID
  nackedBy : List ReplicaID
  deriving DecidableEq, Repr

/-- The number of Acks that a removal takes: a majority of the members without the target. -/
def VoteOutSession.needed (s : VoteOutSession) : ℕ := (s.membersAtStart.length - 1) / 2 + 1

/-- The sender's implicit Ack, and this replica's own answer. -/
def VoteOutSession.answered (s : VoteOutSession) (suspected : Bool) (sender self : ReplicaID) :
    VoteOutSession :=
  if suspected then { s with ackedBy := (s.ackedBy.insert sender).insert self }
  else { s with ackedBy := s.ackedBy.insert sender, nackedBy := s.nackedBy.insert self }

structure VoteInSession where
  addr : String
  membersAtStart : List ReplicaID
  ackedBy : List ReplicaID
  nackedBy : List ReplicaID
  committed : Bool
  deriving DecidableEq, Repr

/-- The number of Acks that an addition takes: a majority of the members. -/
def VoteInSession.needed (s : VoteInSession) : ℕ := s.membersAtStart.length / 2 + 1

inductive MembershipChange where
  | added (replica : ReplicaID) (addr : String)
  | removed (replica : ReplicaID)
  deriving DecidableEq, Repr

inductive Completion where
  | voteOut (target : ReplicaID) (err : Option VoteError)
  | voteIn (target : ReplicaID) (err : Option VoteError)
  deriving DecidableEq, Repr

structure Manager where
  self : ReplicaID
  initialGroupSize : ℕ
  membershipList : List ReplicaID
  voteOutSessions : AList (fun _ : ReplicaID => VoteOutSession)
  voteInSessions : AList (fun _ : ReplicaID => VoteInSession)
  membership : Membership
  pending : List VoteFrame
  events : List MembershipChange
  completed : List Completion
  closedVoteOuts : List (ReplicaID × VoteOutSession)
  closedVoteIns : List (ReplicaID × VoteInSession)

namespace Manager

/-- `New` over a conversation with the same members; an `InitialGroupSize` of zero stands
for the number of members. -/
def new (self : ReplicaID) (members : List ReplicaID) (initialGroupSize : ℕ) : Manager where
  self := self
  initialGroupSize := if initialGroupSize = 0 then members.length else initialGroupSize
  membershipList := members
  voteOutSessions := ∅
  voteInSessions := ∅
  membership := Membership.ofReplicas members
  pending := []
  events := []
  completed := []
  closedVoteOuts := []
  closedVoteIns := []

def isMember (m : Manager) (r : ReplicaID) : Bool := r ∈ m.membershipList

def inMajority (m : Manager) : Bool := m.initialGroupSize < m.membershipList.length * 2

/-- `asyncSend`: the frame is sent later, by a goroutine of its own. -/
def asyncSend (m : Manager) (frame : VoteFrame) : Manager :=
  { m with pending := m.pending ++ [frame] }

section VoteOut

def putVoteOut (m : Manager) (target : ReplicaID) (s : VoteOutSession) : Manager :=
  { m with voteOutSessions := m.voteOutSessions.insert target s }

/-- The first half of `VoteOut`: a session with the caller's own Ack, and the broadcast. -/
def voteOut (m : Manager) (target : ReplicaID) : Except VoteError Manager :=
  if target = m.self then .error .targetIsSelf
  else if !m.isMember target then .error .targetNotMember
  else if !m.inMajority then .error .partitionMinority
  else match m.voteOutSessions.lookup target with
    | some _ => .error .inProgress
    | none => .ok ((m.putVoteOut target ⟨m.membershipList, [m.self], []⟩).asyncSend
        (.voteOut target))

def cancelSession (m : Manager) (target : ReplicaID) (err : VoteError) : Manager :=
  match m.voteOutSessions.lookup target with
  | none => m
  | some s =>
    { m with
      voteOutSessions := m.voteOutSessions.erase target
      completed := m.completed ++ [.voteOut target (some err)]
      closedVoteOuts := m.closedVoteOuts ++ [(target, s)] }

/-- An accepted removal is applied locally. -/
def removeMember (m : Manager) (target : ReplicaID) : Manager :=
  { m with
    voteOutSessions := m.voteOutSessions.erase target
    membershipList := m.membershipList.filter (· ≠ target)
    membership := (m.membership.freeze target).getD m.membership
    events := m.events ++ [.removed target]
    completed := m.completed ++ [.voteOut target none]
    closedVoteOuts := m.closedVoteOuts ++
      ((m.voteOutSessions.lookup target).map fun s => (target, s)).toList }

def checkVoteOutDecision (m : Manager) (target : ReplicaID) : Manager :=
  match m.voteOutSessions.lookup target with
  | none => m
  | some s =>
    if s.nackedBy ≠ [] then m.cancelSession target .nacked
    else if s.ackedBy.length < s.needed then m
    else m.removeMember target

/-- The caller of `VoteOut` looks at the tally after the broadcast. When its session has
been closed by then, the decision is taken once more. -/
def recheckVoteOut (m : Manager) (target : ReplicaID) (s : VoteOutSession) : Manager :=
  if s.nackedBy ≠ [] then m.cancelSession target .nacked
  else if s.ackedBy.length < s.needed then m
  else { m.removeMember target with completed := m.completed }

/-- `handleVoteOut`; `suspected` is what the failure detector says about the target. -/
def handleVoteOut (m : Manager) (suspected : Bool) (sender target : ReplicaID) : Manager :=
  if target = m.self then m.asyncSend (.voteOutNack target)
  else if sender = m.self then m
  else if !m.isMember target then m
  else
    let s := (m.voteOutSessions.lookup target).getD ⟨m.membershipList, [], []⟩
    checkVoteOutDecision
      ((m.putVoteOut target (s.answered suspected sender m.self)).asyncSend
        (if suspected then .voteOutAck target else .voteOutNack target)) target

def handleVoteOutAck (m : Manager) (sender target : ReplicaID) : Manager :=
  match m.voteOutSessions.lookup target with
  | none => m
  | some s => (m.putVoteOut target
      { s with ackedBy := s.ackedBy.insert sender }).checkVoteOutDecision target

def handleVoteOutNack (m : Manager) (sender target : ReplicaID) : Manager :=
  match m.voteOutSessions.lookup target with
  | none => m
  | some s => (m.putVoteOut target
      { s with nackedBy := s.nackedBy.insert sender }).checkVoteOutDecision target

end VoteOut

section VoteIn

def putVoteIn (m : Manager) (target : ReplicaID) (s : VoteInSession) : Manager :=
  { m with voteInSessions := m.voteInSessions.insert target s }

/-- The first half of `VoteIn`. -/
def voteIn (m : Manager) (target : ReplicaID) (addr : String) : Except VoteError Manager :=
  if target = m.self then .error .targetIsSelf
  else if m.isMember target then .error .targetAlreadyMember
  else if !m.inMajority then .error .partitionMinority
  else match m.voteInSessions.lookup target with
    | some _ => .error .inProgress
    | none => .ok ((m.putVoteIn target ⟨addr, m.membershipList, [m.self], [], false⟩).asyncSend
        (.voteIn target addr))

def cancelVoteInSession (m : Manager) (target : ReplicaID) (err : VoteError) : Manager :=
  match m.voteInSessions.lookup target with
  | none => m
  | some s =>
    { m with
      voteInSessions := m.voteInSessions.erase target
      completed := m.completed ++ [.voteIn target (some err)]
      closedVoteIns := m.closedVoteIns ++ [(target, s)] }

/-- With enough Acks the proposer announces the addition, once. -/
def checkVoteInDecision (m : Manager) (target : ReplicaID) : Manager :=
  match m.voteInSessions.lookup target with
  | none => m
  | some s =>
    if s.nackedBy ≠ [] then m.cancelVoteInSession target .nacked
    else if s.committed then m
    else if s.ackedBy.length < s.needed then m
    else (m.putVoteIn target { s with committed := true }).asyncSend (.memberAdd target s.addr)

/-- The same for a session that was closed before the caller of `VoteIn` looks at it. -/
def recheckVoteIn (m : Manager) (target : ReplicaID) (s : VoteInSession) : Manager :=
  if s.nackedBy ≠ [] then m.cancelVoteInSession target .nacked
  else if s.committed then m
  else if s.ackedBy.length < s.needed then m
  else m.asyncSend (.memberAdd target s.addr)

def applyMemberAdd (m : Manager) (target : ReplicaID) (addr : String) : Manager :=
  if m.isMember target then m
  else
    { m with
      voteInSessions := m.voteInSessions.erase target
      membershipList := m.membershipList ++ [target]
      membership := (m.membership.add target).getD m.membership
      events := m.events ++ [.added target addr]
      completed := m.completed ++
        ((m.voteInSessions.lookup target).map fun _ => Completion.voteIn target none).toList
      closedVoteIns := m.closedVoteIns ++
        ((m.voteInSessions.lookup target).map fun s => (target, s)).toList }

/-- `handleVoteIn`: whether or not the target is a member already, the answer is an Ack. -/
def handleVoteIn (m : Manager) (sender target : ReplicaID) : Manager :=
  if sender = m.self then m
  else if target = m.self then m
  else m.asyncSend (.voteInAck target)

def handleMemberAdd (m : Manager) (target : ReplicaID) (addr : String) : Manager :=
  if target = m.self then m else m.applyMemberAdd target addr

def handleVoteInAck (m : Manager) (sender target : ReplicaID) : Manager :=
  match m.voteInSessions.lookup target with
  | none => m
  | some s => (m.putVoteIn target
      { s with ackedBy := s.ackedBy.insert sender }).checkVoteInDecision target

def handleVoteInNack (m : Manager) (sender target : ReplicaID) : Manager :=
  match m.voteInSessions.lookup target with
  | none => m
  | some s => (m.putVoteIn target
      { s with nackedBy := s.nackedBy.insert sender }).checkVoteInDecision target

end VoteIn

/-- `dispatch`, for the frames of the voting protocols. -/
def dispatch (m : Manager) (suspected : Bool) (sender : ReplicaID) : VoteFrame → Manager
  | .voteOut target => m.handleVoteOut suspected sender target
  | .voteOutAck target => m.handleVoteOutAck sender target
  | .voteOutNack target => m.handleVoteOutNack sender target
  | .voteIn target _ => m.handleVoteIn sender target
  | .voteInAck target => m.handleVoteInAck sender target
  | .voteInNack target => m.handleVoteInNack sender target
  | .memberAdd target addr => m.handleMemberAdd target addr

/-- What the goroutines of the callers of `VoteOut` and `VoteIn` do: start a vote, look at
its tally after the broadcast, in the table or among the closed sessions, or give it up
because of the timeout, the context or a failed broadcast. -/
inductive Call where
  | voteOut (target : ReplicaID)
  | checkVoteOut (target : ReplicaID)
  | recheckVoteOut (i : ℕ)
  | cancelVoteOut (target : ReplicaID) (err : VoteError)
  | voteIn (target : ReplicaID) (addr : String)
  | checkVoteIn (target : ReplicaID)
  | recheckVoteIn (i : ℕ)
  | cancelVoteIn (target : ReplicaID) (err : VoteError)
  deriving DecidableEq, Repr

/-- A vote that is refused at once changes nothing. -/
def call (m : Manager) : Call → Manager
  | .voteOut target => ((m.voteOut target).toOption).getD m
  | .checkVoteOut target => m.checkVoteOutDecision target
  | .recheckVoteOut i => match m.closedVoteOuts[i]? with
    | none => m
    | some (target, s) => m.recheckVoteOut target s
  | .cancelVoteOut target err => m.cancelSession target err
  | .voteIn target addr => ((m.voteIn target addr).toOption).getD m
  | .checkVoteIn target => m.checkVoteInDecision target
  | .recheckVoteIn i => match m.closedVoteIns[i]? with
    | none => m
    | some (target, s) => m.recheckVoteIn target s
  | .cancelVoteIn target err => m.cancelVoteInSession target err

section Roster

variable {m m' : Manager} {target : ReplicaID}

/-- The member list and the slots stay as they are. -/
structure SameRoster (m m' : Manager) : Prop where
  self : m'.self = m.self
  size : m'.initialGroupSize = m.initialGroupSize
  list : m'.membershipList = m.membershipList
  slots : m'.membership = m.membership
  events : m'.events = m.events

theorem SameRoster.refl (m : Manager) : SameRoster m m := ⟨rfl, rfl, rfl, rfl, rfl⟩

theorem SameRoster.trans {m'' : Manager} (h : SameRoster m m') (h' : SameRoster m' m'') :
    SameRoster m m'' :=
  ⟨h'.self.trans h.self, h'.size.trans h.size, h'.list.trans h.list, h'.slots.trans h.slots,
    h'.events.trans h.events⟩

theorem SameRoster.removeMember (h : SameRoster m m') (target : ReplicaID) :
    SameRoster (m.removeMember target) (m'.removeMember target) := by
  refine ⟨h.self, h.size, ?_, ?_, ?_⟩ <;>
    simp only [Manager.removeMember, h.list, h.slots, h.events]

/-- Besides the roster, the votes on removals stay as they are. -/
structure OnlyVoteIn (m m' : Manager) : Prop extends SameRoster m m' where
  voteOuts : m'.voteOutSessions = m.voteOutSessions
  closed : m'.closedVoteOuts = m.closedVoteOuts

theorem OnlyVoteIn.refl (m : Manager) : OnlyVoteIn m m := ⟨SameRoster.refl m, rfl, rfl⟩

theorem OnlyVoteIn.trans {m'' : Manager} (h : OnlyVoteIn m m') (h' : OnlyVoteIn m' m'') :
    OnlyVoteIn m m'' :=
  ⟨h.toSameRoster.trans h'.toSameRoster, h'.voteOuts.trans h.voteOuts,
    h'.closed.trans h.closed⟩

theorem sameRoster_putVoteOut (m : Manager) (target : ReplicaID) (s : VoteOutSession) :
    SameRoster m (m.putVoteOut target s) := ⟨rfl, rfl, rfl, rfl, rfl⟩

theorem sameRoster_asyncSend (m : Manager) (frame : VoteFrame) :
    SameRoster m (m.asyncSend frame) := ⟨rfl, rfl, rfl, rfl, rfl⟩

theorem onlyVoteIn_putVoteIn (m : Manager) (target : ReplicaID) (s : VoteInSession) :
    OnlyVoteIn m (m.putVoteIn target s) := ⟨⟨rfl, rfl, rfl, rfl, rfl⟩, rfl, rfl⟩

theorem onlyVoteIn_asyncSend (m : Manager) (frame : VoteFrame) :
    OnlyVoteIn m (m.asyncSend frame) := ⟨sameRoster_asyncSend m frame, rfl, rfl⟩

theorem cancelSession_cases (m : Manager) (target : ReplicaID) (err : VoteError) :
    m.cancelSession target err = m ∨ ∃ s, m.voteOutSessions.lookup target = some s ∧
      m.cancelSession target err =
        { m with
          voteOutSessions := m.voteOutSessions.erase target
          completed := m.completed ++ [.voteOut target (some err)]
          closedVoteOuts := m.closedVoteOuts ++ [(target, s)] } := by
  unfold cancelSession
  split
  · exact Or.inl rfl
  · rename_i s hs
    exact Or.inr ⟨s, hs, rfl⟩

theorem cancelVoteInSession_cases (m : Manager) (target : ReplicaID) (err : VoteError) :
    m.cancelVoteInSession target err = m ∨ ∃ s, m.voteInSessions.lookup target = some s ∧
      m.cancelVoteInSession target err =
        { m with
          voteInSessions := m.voteInSessions.erase target
          completed := m.completed ++ [.voteIn target (some err)]
          closedVoteIns := m.closedVoteIns ++ [(target, s)] } := by
  unfold cancelVoteInSession
  split
  · exact Or.inl rfl
  · rename_i s hs
    exact Or.inr ⟨s, hs, rfl⟩

theorem sameRoster_cancelSession (m : Manager) (target : ReplicaID) (err : VoteError) :
    SameRoster m (m.cancelSession target err) := by
  rcases cancelSession_cases m target err with h | ⟨_, _, h⟩ <;> rw [h]
  · exact SameRoster.refl m
  · exact ⟨rfl, rfl, rfl, rfl, rfl⟩

theorem onlyVoteIn_cancelVoteInSession (m : Manager) (target : ReplicaID) (err : VoteError) :
    OnlyVoteIn m (m.cancelVoteInSession target err) := by
  rcases cancelVoteInSession_cases m target err with h | ⟨_, _, h⟩ <;> rw [h]
  · exact OnlyVoteIn.refl m
  · exact ⟨⟨rfl, rfl, rfl, rfl, rfl⟩, rfl, rfl⟩

/-- A tally is left alone, given up because of a Nack, or accepted. -/
theorem checkVoteOutDecision_cases (m : Manager) (target : ReplicaID) :
    (m.checkVoteOutDecision target = m ∧ ∀ s, m.voteOutSessions.lookup target = some s →
      s.nackedBy = [] ∧ s.ackedBy.length < s.needed) ∨
    (m.checkVoteOutDecision target = m.cancelSession target .nacked ∧
      ∃ s, m.voteOutSessions.lookup target = some s ∧ s.nackedBy ≠ []) ∨
    m.checkVoteOutDecision target = m.removeMember target ∧
      ∃ s, m.voteOutSessions.lookup target = some s ∧ s.nackedBy = [] ∧
        s.needed ≤ s.ackedBy.length := by
  unfold checkVoteOutDecision
  cases hl : m.voteOutSessions.lookup target with
  | none => exact Or.inl ⟨rfl, by simp⟩
  | some s =>
    dsimp only
    by_cases hn : s.nackedBy = []
    · by_cases ha : s.ackedBy.length < s.needed
      · refine Or.inl ⟨by simp [hn, ha], ?_⟩
        rintro s' hs'
        cases hs'
        exact ⟨hn, ha⟩
      · exact Or.inr (Or.inr ⟨by simp [hn, ha], s, rfl, hn, Nat.le_of_not_lt ha⟩)
    · exact Or.inr (Or.inl ⟨by simp [hn], s, rfl, hn⟩)

theorem onlyVoteIn_checkVoteInDecision (m : Manager) (target : ReplicaID) :
    OnlyVoteIn m (m.checkVoteInDecision target) := by
  unfold checkVoteInDecision
  split
  · exact OnlyVoteIn.refl m
  · split
    · exact onlyVoteIn_cancelVoteInSession m target _
    · split
      · exact OnlyVoteIn.refl m
      · split
        · exact OnlyVoteIn.refl m
        · exact (onlyVoteIn_putVoteIn ..).trans (onlyVoteIn_asyncSend ..)

theorem onlyVoteIn_recheckVoteIn (m : Manager) (target : ReplicaID) (s : VoteInSession) :
    OnlyVoteIn m (m.recheckVoteIn target s) := by
  unfold recheckVoteIn
  split_ifs
  · exact onlyVoteIn_cancelVoteInSession m target _
  · exact OnlyVoteIn.refl m
  · exact OnlyVoteIn.refl m
  · exact onlyVoteIn_asyncSend ..

theorem voteOut_eq_ok {target : ReplicaID} (h : m.voteOut target = .ok m') :
    target ≠ m.self ∧ target ∈ m.membershipList ∧ m.voteOutSessions.lookup target = none ∧
      m' = (m.putVoteOut target ⟨m.membershipList, [m.self], []⟩).asyncSend (.voteOut target) := by
  unfold voteOut at h
  split_ifs at h with hself hmember hmajority
  split at h
  · cases h
  · rename_i hl
    cases h
    exact ⟨hself, by simpa [isMember] using hmember, hl, rfl⟩

theorem call_voteOut {target : ReplicaID} (hself : target ≠ m.self)
    (hin : target ∈ m.membershipList) (hmajority : m.inMajority = true)
    (hnone : m.voteOutSessions.lookup target = none) :
    m.call (.voteOut target) =
      (m.putVoteOut target ⟨m.membershipList, [m.self], []⟩).asyncSend (.voteOut target) := by
  have hmember : m.isMember target = true := by simpa [isMember] using hin
  simp [call, voteOut, hself, hmember, hmajority, hnone, Except.toOption]

theorem voteIn_eq_ok {target : ReplicaID} {addr : String} (h : m.voteIn target addr = .ok m') :
    m' = (m.putVoteIn target ⟨addr, m.membershipList, [m.self], [], false⟩).asyncSend
      (.voteIn target addr) := by
  unfold voteIn at h
  split_ifs at h
  split at h
  · cases h
  · cases h
    rfl

/-- Every change of the roster but an addition: none, or the removal of one member. -/
def KeptOrRemoved (m m' : Manager) : Prop :=
  SameRoster m m' ∨ ∃ m₀ target, SameRoster m m₀ ∧ SameRoster (m₀.removeMember target) m'

theorem KeptOrRemoved.check {m₀ : Manager} (h : SameRoster m m₀) (target : ReplicaID) :
    KeptOrRemoved m (m₀.checkVoteOutDecision target) := by
  rcases checkVoteOutDecision_cases m₀ target with ⟨he, _⟩ | ⟨he, _⟩ | ⟨he, _⟩
  · rw [he]
    exact Or.inl h
  · rw [he]
    exact Or.inl (h.trans (sameRoster_cancelSession m₀ target _))
  · rw [he]
    exact Or.inr ⟨m₀, target, h, SameRoster.refl _⟩

theorem keptOrRemoved_recheckVoteOut (m : Manager) (target : ReplicaID) (s : VoteOutSession) :
    KeptOrRemoved m (m.recheckVoteOut target s) := by
  unfold recheckVoteOut
  split_ifs
  · exact Or.inl (sameRoster_cancelSession m target _)
  · exact Or.inl (SameRoster.refl m)
  · exact Or.inr ⟨m, target, SameRoster.refl m, ⟨rfl, rfl, rfl, rfl, rfl⟩⟩

theorem keptOrRemoved_handleVoteOut (m : Manager) (suspected : Bool) (sender target : ReplicaID) :
    KeptOrRemoved m (m.handleVoteOut suspected sender target) := by
  unfold handleVoteOut
  split
  · exact Or.inl (sameRoster_asyncSend ..)
  · split
    · exact Or.inl (SameRoster.refl m)
    · split
      · exact Or.inl (SameRoster.refl m)
      · exact .check ((sameRoster_putVoteOut ..).trans (sameRoster_asyncSend ..)) target

theorem keptOrRemoved_handleVoteOutAck (m : Manager) (sender target : ReplicaID) :
    KeptOrRemoved m (m.handleVoteOutAck sender target) := by
  unfold handleVoteOutAck
  split
  · exact Or.inl (SameRoster.refl m)
  · exact .check (sameRoster_putVoteOut ..) target

theorem keptOrRemoved_handleVoteOutNack (m : Manager) (sender target : ReplicaID) :
    KeptOrRemoved m (m.handleVoteOutNack sender target) := by
  unfold handleVoteOutNack
  split
  · exact Or.inl (SameRoster.refl m)
  · exact .check (sameRoster_putVoteOut ..) target

theorem onlyVoteIn_handleVoteIn (m : Manager) (sender target : ReplicaID) :
    OnlyVoteIn m (m.handleVoteIn sender target) := by
  unfold handleVoteIn
  split_ifs
  · exact OnlyVoteIn.refl m
  · exact OnlyVoteIn.refl m
  · exact onlyVoteIn_asyncSend ..

theorem onlyVoteIn_handleVoteInAck (m : Manager) (sender target : ReplicaID) :
    OnlyVoteIn m (m.handleVoteInAck sender target) := by
  unfold handleVoteInAck
  split
  · exact OnlyVoteIn.refl m
  · exact (onlyVoteIn_putVoteIn ..).trans (onlyVoteIn_checkVoteInDecision _ target)

theorem onlyVoteIn_handleVoteInNack (m : Manager) (sender target : ReplicaID) :
    OnlyVoteIn m (m.handleVoteInNack sender target) := by
  unfold handleVoteInNack
  split
  · exact OnlyVoteIn.refl m
  · exact (onlyVoteIn_putVoteIn ..).trans (onlyVoteIn_checkVoteInDecision _ target)

theorem onlyVoteIn_call_voteIn (m : Manager) (target : ReplicaID) (addr : String) :
    OnlyVoteIn m (m.call (.voteIn target addr)) := by
  rw [call]
  cases h : m.voteIn target addr with
  | error err => exact OnlyVoteIn.refl m
  | ok m' =>
    rw [voteIn_eq_ok h]
    exact (onlyVoteIn_putVoteIn ..).trans (onlyVoteIn_asyncSend ..)

theorem onlyVoteIn_call_recheckVoteIn (m : Manager) (i : ℕ) :
    OnlyVoteIn m (m.call (.recheckVoteIn i)) := by
  rw [call]
  split
  · exact OnlyVoteIn.refl m
  · exact onlyVoteIn_recheckVoteIn ..

/-- Only a `MemberAdd` adds anybody. -/
theorem keptOrRemoved_dispatch (m : Manager) (suspected : Bool) (sender : ReplicaID)
    (frame : VoteFrame) (h : frame.admits = none) :
    KeptOrRemoved m (m.dispatch suspected sender frame) := by
  cases frame with
  | voteOut target => exact keptOrRemoved_handleVoteOut m suspected sender target
  | voteOutAck target => exact keptOrRemoved_handleVoteOutAck m sender target
  | voteOutNack target => exact keptOrRemoved_handleVoteOutNack m sender target
  | voteIn target addr => exact Or.inl (onlyVoteIn_handleVoteIn m sender target).toSameRoster
  | voteInAck target => exact Or.inl (onlyVoteIn_handleVoteInAck m sender target).toSameRoster
  | voteInNack target => exact Or.inl (onlyVoteIn_handleVoteInNack m sender target).toSameRoster
  | memberAdd target addr => cases h

theorem keptOrRemoved_call (m : Manager) (c : Call) : KeptOrRemoved m (m.call c) := by
  cases c with
  | voteOut target =>
    rw [call]
    cases h : m.voteOut target with
    | error err => exact Or.inl (SameRoster.refl m)
    | ok m' =>
      obtain ⟨_, _, _, rfl⟩ := voteOut_eq_ok h
      exact Or.inl ((sameRoster_putVoteOut ..).trans (sameRoster_asyncSend ..))
  | checkVoteOut target => exact .check (SameRoster.refl m) target
  | recheckVoteOut i =>
    rw [call]
    split
    · exact Or.inl (SameRoster.refl m)
    · exact keptOrRemoved_recheckVoteOut ..
  | cancelVoteOut target err => exact Or.inl (sameRoster_cancelSession m target err)
  | voteIn target addr => exact Or.inl (onlyVoteIn_call_voteIn m target addr).toSameRoster
  | checkVoteIn target => exact Or.inl (onlyVoteIn_checkVoteInDecision m target).toSameRoster
  | recheckVoteIn i => exact Or.inl (onlyVoteIn_call_recheckVoteIn m i).toSameRoster
  | cancelVoteIn target err =>
    exact Or.inl (onlyVoteIn_cancelVoteInSession m target err).toSameRoster

theorem applyMemberAdd_of_mem {target : ReplicaID} (h : target ∈ m.membershipList)
    (addr : String) : m.applyMemberAdd target addr = m := by
  have hmember : m.isMember target = true := by simpa [isMember] using h
  rw [applyMemberAdd, if_pos hmember]

theorem applyMemberAdd_of_not_mem {target : ReplicaID} (h : target ∉ m.membershipList)
    (addr : String) : (m.applyMemberAdd target addr).self = m.self ∧
      (m.applyMemberAdd target addr).membershipList = m.membershipList ++ [target] ∧
      (m.applyMemberAdd target addr).membership = (m.membership.add target).getD m.membership ∧
      (m.applyMemberAdd target addr).events = m.events ++ [.added target addr] := by
  have hmember : ¬m.isMember target = true := by simpa [isMember] using h
  rw [applyMemberAdd, if_neg hmember]
  exact ⟨rfl, rfl, rfl, rfl⟩

end Roster

end Manager
end Comlink
