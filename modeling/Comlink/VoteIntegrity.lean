import Comlink.MembershipViews

/-!
# What a removal was decided on

The frames of a vote name its target only, and a session is found by its target. So an
answer goes into whatever session is open on the target: one that an earlier vote has left
behind, one of a vote that another replica has started meanwhile, and whoever the answer
comes from. The ledger of a manager keeps what the manager does not: to which vote each
step belongs, and the member list at the start of each vote. If an open session gets Acks
of its own vote only, and of members other than the target, then a removal rests on a
strict majority of the voters of one vote.
-/
namespace Comlink
open GuardedRuns AssociationLists

/-- A step of a manager with the vote that it belongs to. -/
structure CastStep where
  vote : ℕ
  step : ManagerStep
  deriving DecidableEq, Repr

/-- A vote with the member list at its start. -/
structure Poll where
  label : ℕ
  roll : List ReplicaID
  deriving DecidableEq, Repr

/-- The step tells the manager of an Ack of `r` in this vote: it is one, it is the proposal
of `r`, or the manager answers or makes the proposal itself. -/
def CastStep.acks (x : CastStep) (self : ReplicaID) (label : ℕ) (target r : ReplicaID) : Bool :=
  decide (x.vote = label) && match x.step with
    | .deliver _ sender (.voteOutAck t) => decide (t = target ∧ sender = r)
    | .deliver suspected sender (.voteOut t) =>
      decide (t = target ∧ (sender = r ∨ suspected = true ∧ r = self))
    | .call (.voteOut t) => decide (t = target ∧ r = self)
    | _ => false

/-- The step delivers a Nack in this vote. -/
def CastStep.nacks (x : CastStep) (label : ℕ) (target : ReplicaID) : Bool :=
  decide (x.vote = label) && match x.step with
    | .deliver _ _ (.voteOutNack t) => decide (t = target)
    | _ => false

/-- The target on which a step opens a session, if there is none and it is not refused. -/
def ManagerStep.proposes : ManagerStep → Option ReplicaID
  | .deliver _ _ (.voteOut target) | .call (.voteOut target) => some target
  | _ => none

structure VoteLedger where
  manager : Manager
  current : ReplicaID → Poll
  closed : List Poll
  history : List CastStep

namespace Manager

variable {m m' : Manager} {target : ReplicaID}

/-- No session is opened, and those that leave the table are kept. -/
structure Shrinks (m m' : Manager) : Prop where
  self : m'.self = m.self
  sessions : ∀ x s, m'.voteOutSessions.lookup x = some s → m.voteOutSessions.lookup x = some s
  closed : ∃ extra, m'.closedVoteOuts = m.closedVoteOuts ++ extra ∧
    ∀ p ∈ extra, m.voteOutSessions.lookup p.1 = some p.2

/-- Nobody is removed, or somebody on whom the open session has a majority and no Nack. -/
def Decided (m m' : Manager) : Prop :=
  m.membershipList ⊆ m'.membershipList ∧ (∀ r, m'.events ≠ m.events ++ [.removed r]) ∨
    ∃ target s, m.voteOutSessions.lookup target = some s ∧ s.nackedBy = [] ∧
      s.needed ≤ s.ackedBy.length ∧ m'.membershipList = m.membershipList.filter (· ≠ target) ∧
      m'.events = m.events ++ [.removed target]

theorem shrinks_removeMember (m : Manager) (target : ReplicaID) :
    Shrinks m (m.removeMember target) := by
  refine ⟨rfl, fun x s hx => (lookup_erase_cases hx).2, _, rfl, ?_⟩
  intro p hp
  rw [Option.mem_toList, Option.map_eq_some_iff] at hp
  obtain ⟨s, hs, rfl⟩ := hp
  exact hs

theorem shrinks_cancelSession (m : Manager) (target : ReplicaID) (err : VoteError) :
    Shrinks m (m.cancelSession target err) := by
  rcases cancelSession_cases m target err with he | ⟨s, hs, he⟩
  · rw [he]
    exact ⟨rfl, fun _ _ hx => hx, [], (List.append_nil _).symm, by simp⟩
  · rw [he]
    refine ⟨rfl, fun x s hx => (lookup_erase_cases hx).2, _, rfl, ?_⟩
    intro p hp
    rw [List.mem_singleton.mp hp]
    exact hs

theorem OnlyVoteIn.shrinks (h : OnlyVoteIn m m') : Shrinks m m' := by
  refine ⟨h.self, fun x s hx => ?_, [], ?_, by simp⟩
  · rwa [h.voteOuts] at hx
  · rw [h.closed, List.append_nil]

theorem SameRoster.decided (h : SameRoster m m') : Decided m m' := by
  refine Or.inl ⟨?_, fun r hr => ?_⟩
  · rw [h.list]
    exact List.Subset.refl _
  · rw [h.events] at hr
    simp at hr

theorem shrinks_applyMemberAdd (m : Manager) (target : ReplicaID) (addr : String) :
    Shrinks m (m.applyMemberAdd target addr) ∧ Decided m (m.applyMemberAdd target addr) := by
  by_cases hin : target ∈ m.membershipList
  · rw [applyMemberAdd_of_mem hin]
    exact ⟨(OnlyVoteIn.refl m).shrinks, (SameRoster.refl m).decided⟩
  · have hmember : ¬m.isMember target = true := by simpa [isMember] using hin
    rw [applyMemberAdd, if_neg hmember]
    refine ⟨⟨rfl, fun _ _ hx => hx, [], (List.append_nil _).symm, by simp⟩, Or.inl ⟨?_, ?_⟩⟩
    · exact List.subset_append_left _ _
    · intro r hr
      cases List.append_cancel_left hr

theorem shrinks_check (m : Manager) (target : ReplicaID) :
    Shrinks m (m.checkVoteOutDecision target) ∧ Decided m (m.checkVoteOutDecision target) := by
  rcases checkVoteOutDecision_cases m target with ⟨he, _⟩ | ⟨he, _⟩ | ⟨he, s, hs, hn, hq⟩
  · rw [he]
    exact ⟨(OnlyVoteIn.refl m).shrinks, (SameRoster.refl m).decided⟩
  · rw [he]
    exact ⟨shrinks_cancelSession m target _, (sameRoster_cancelSession m target _).decided⟩
  · rw [he]
    exact ⟨shrinks_removeMember m target, Or.inr ⟨target, s, hs, hn, hq, rfl, rfl⟩⟩

end Manager

namespace VoteLedger
open Manager

variable {s t : VoteLedger} {a : CastStep} {hist : List CastStep} {current : ReplicaID → Poll}
variable {closed : List Poll} {m m' : Manager} {self target r : ReplicaID} {v : Poll}

def start (self : ReplicaID) (members : List ReplicaID) (initialGroupSize : ℕ) : VoteLedger :=
  ⟨new self members initialGroupSize, fun _ => ⟨0, members⟩, [], []⟩

/-- The votes on whose behalf the sessions are open once the step is made. -/
def polls (s : VoteLedger) (a : CastStep) : ReplicaID → Poll :=
  match a.step.proposes with
  | none => s.current
  | some target =>
    if s.manager.voteOutSessions.lookup target = none then
      Function.update s.current target ⟨a.vote, s.manager.membershipList⟩
    else s.current

def step (s : VoteLedger) (a : CastStep) : Option VoteLedger :=
  (s.manager.step a.step).map fun m =>
    { manager := m
      current := s.polls a
      closed := s.closed ++
        (m.closedVoteOuts.drop s.manager.closedVoteOuts.length).map fun p => s.polls a p.1
      history := s.history ++ [a] }

/-- No step of this vote has been made yet. -/
def Unused (s : VoteLedger) (label : ℕ) : Prop := ∀ x ∈ s.history, x.vote ≠ label

instance (s : VoteLedger) (label : ℕ) : Decidable (s.Unused label) :=
  inferInstanceAs (Decidable (∀ x ∈ s.history, _))

/-- A proposal that opens a session starts a new vote; a proposal or an Ack that meets an
open session belongs to its vote; both come from a voter. A caller that looks at a closed
session has not had a Nack of its vote. -/
def OneVote (s : VoteLedger) (a : CastStep) : Prop :=
  match a.step with
  | .deliver _ sender (.voteOut target) => target ≠ s.manager.self → sender ≠ s.manager.self →
      target ∈ s.manager.membershipList → sender ≠ target ∧
        (s.manager.voteOutSessions.lookup target = none →
          s.Unused a.vote ∧ sender ∈ s.manager.membershipList) ∧
        ∀ session ∈ s.manager.voteOutSessions.lookup target,
          a.vote = (s.current target).label ∧ sender ∈ session.membersAtStart
  | .deliver _ sender (.voteOutAck target) =>
      ∀ session ∈ s.manager.voteOutSessions.lookup target,
        a.vote = (s.current target).label ∧ sender ∈ session.membersAtStart ∧ sender ≠ target
  | .call (.voteOut target) =>
      s.manager.voteOutSessions.lookup target = none → s.Unused a.vote
  | .call (.recheckVoteOut i) => ∀ p ∈ s.manager.closedVoteOuts[i]?, ∀ poll ∈ s.closed[i]?,
      s.history.any (·.nacks poll.label p.1) = false
  | _ => True

instance (s : VoteLedger) (a : CastStep) : Decidable (s.OneVote a) :=
  match a with
  | ⟨_, .deliver _ _ (.voteOut _)⟩ =>
    inferInstanceAs (Decidable (_ → _ → _ → _ ∧ (_ → _ ∧ _) ∧ ∀ session ∈ _, _ ∧ _))
  | ⟨_, .deliver _ _ (.voteOutAck _)⟩ =>
    inferInstanceAs (Decidable (∀ session ∈ _, _ ∧ _ ∧ _))
  | ⟨_, .call (.voteOut _)⟩ => inferInstanceAs (Decidable (_ → _))
  | ⟨_, .call (.recheckVoteOut _)⟩ => inferInstanceAs (Decidable (∀ p ∈ _, ∀ poll ∈ _, _))
  | ⟨_, .deliver _ _ (.voteOutNack _)⟩ | ⟨_, .deliver _ _ (.voteIn _ _)⟩
  | ⟨_, .deliver _ _ (.voteInAck _)⟩ | ⟨_, .deliver _ _ (.voteInNack _)⟩
  | ⟨_, .deliver _ _ (.memberAdd _ _)⟩ | ⟨_, .call (.checkVoteOut _)⟩
  | ⟨_, .call (.cancelVoteOut _ _)⟩ | ⟨_, .call (.voteIn _ _)⟩ | ⟨_, .call (.checkVoteIn _)⟩
  | ⟨_, .call (.recheckVoteIn _)⟩ | ⟨_, .call (.cancelVoteIn _ _)⟩ => isTrue trivial

/-- A strict majority of the voters has acked in this vote, and no Nack of it was received. -/
structure Accepted (hist : List CastStep) (owner target : ReplicaID) (v : Poll) : Prop where
  majority : ∃ acks : List ReplicaID, acks.Nodup ∧
    (∀ r ∈ acks, r ∈ v.roll ∧ r ≠ target ∧ hist.any (·.acks owner v.label target r) = true) ∧
    (v.roll.filter (· ≠ target)).length < 2 * acks.length
  unopposed : hist.any (·.nacks v.label target) = false

/-- The Acks of a session are those of its vote. -/
structure Tallied (hist : List CastStep) (owner target : ReplicaID) (v : Poll)
    (s : VoteOutSession) : Prop where
  roll : s.membersAtStart = v.roll
  target_mem : target ∈ v.roll
  target_ne : target ≠ owner
  owner_mem : owner ∈ v.roll
  nodup : s.ackedBy.Nodup
  acks : ∀ r ∈ s.ackedBy, r ∈ v.roll ∧ r ≠ target ∧
    hist.any (·.acks owner v.label target r) = true

theorem Tallied.mono {session : VoteOutSession} (h : Tallied hist self target v session)
    (a : CastStep) : Tallied (hist ++ [a]) self target v session := by
  refine ⟨h.roll, h.target_mem, h.target_ne, h.owner_mem, h.nodup, fun r hr => ?_⟩
  obtain ⟨hroll, hne, hack⟩ := h.acks r hr
  exact ⟨hroll, hne, by rw [List.any_append, hack, Bool.true_or]⟩

theorem Tallied.insert {session : VoteOutSession} (h : Tallied hist self target v session)
    (hr : r ∈ v.roll) (hne : r ≠ target)
    (hack : hist.any (·.acks self v.label target r) = true) (nackedBy : List ReplicaID) :
    Tallied hist self target v
      { session with ackedBy := session.ackedBy.insert r, nackedBy := nackedBy } := by
  refine ⟨h.roll, h.target_mem, h.target_ne, h.owner_mem, h.nodup.insert, fun x hx => ?_⟩
  rcases List.mem_insert_iff.mp hx with rfl | hx
  · exact ⟨hr, hne, hack⟩
  · exact h.acks x hx

theorem Tallied.accepted {session : VoteOutSession} (h : Tallied hist self target v session)
    (hq : session.needed ≤ session.ackedBy.length)
    (hn : hist.any (·.nacks v.label target) = false) : Accepted hist self target v := by
  refine ⟨⟨session.ackedBy, h.nodup, h.acks, ?_⟩, hn⟩
  have hlt : (v.roll.filter (· ≠ target)).length < v.roll.length := by
    rw [List.length_filter_lt_length_iff_exists]
    exact ⟨target, h.target_mem, by simp⟩
  rw [VoteOutSession.needed, h.roll] at hq
  omega

structure Kept (current : ReplicaID → Poll) (closed : List Poll) (hist : List CastStep)
    (m : Manager) : Prop where
  self_mem : m.self ∈ m.membershipList
  sessions : ∀ target s, m.voteOutSessions.lookup target = some s →
    Tallied hist m.self target (current target) s ∧
      (s.nackedBy = [] → hist.any (·.nacks (current target).label target) = false)
  closed : List.Forall₂ (fun v p => Tallied hist m.self p.1 v p.2) closed m.closedVoteOuts

theorem kept_start {members : List ReplicaID} (hself : self ∈ members) (initialGroupSize : ℕ) :
    Kept (start self members initialGroupSize).current [] []
      (new self members initialGroupSize) := by
  refine ⟨hself, ?_, .nil⟩
  intro target s hs
  cases hs

/-- Sessions are only closed. -/
theorem Kept.shrinks (h : Kept current closed hist m) (hs : Shrinks m m')
    (hself : m'.self ∈ m'.membershipList) :
    Kept current (closed ++ (m'.closedVoteOuts.drop m.closedVoteOuts.length).map
      fun p => current p.1) hist m' := by
  obtain ⟨extra, heq, hextra⟩ := hs.closed
  refine ⟨hself, ?_, ?_⟩
  · intro x session hx
    rw [hs.self]
    exact h.sessions x session (hs.sessions x session hx)
  · rw [heq, List.drop_left, hs.self]
    refine List.rel_append h.closed ?_
    rw [List.forall₂_map_left_iff, List.forall₂_same]
    exact fun p hp => (h.sessions p.1 p.2 (hextra p hp)).1

/-- What the open sessions decide. -/
theorem Kept.decide (h : Kept current closed hist m) (hs : Shrinks m m') (ho : Decided m m') :
    m'.self ∈ m'.membershipList ∧ ∀ target, m'.events = m.events ++ [.removed target] →
      Accepted hist m'.self target (current target) := by
  rw [hs.self]
  rcases ho with ⟨hlist, hevents⟩ | ⟨x, session, hx, hn, hq, hlist, hevents⟩
  · exact ⟨hlist h.self_mem, fun target htarget => absurd htarget (hevents target)⟩
  · obtain ⟨htally, hun⟩ := h.sessions x session hx
    refine ⟨?_, fun target htarget => ?_⟩
    · rw [hlist]
      exact List.mem_filter.mpr ⟨h.self_mem, by simpa using htally.target_ne.symm⟩
    · rw [hevents] at htarget
      cases List.singleton_inj.mp (List.append_cancel_left htarget)
      exact htally.accepted hq (hun hn)

theorem Kept.asyncSend (h : Kept current closed hist m) (frame : VoteFrame) :
    Kept current closed hist (m.asyncSend frame) := ⟨h.self_mem, h.sessions, h.closed⟩

/-- A step is recorded that neither opens a session nor opposes an open one. -/
theorem Kept.record (h : Kept current closed hist m) {current' : ReplicaID → Poll}
    (hc : ∀ x session, m.voteOutSessions.lookup x = some session → current' x = current x)
    (ha : ∀ x session, m.voteOutSessions.lookup x = some session →
      a.nacks (current x).label x = false) : Kept current' closed (hist ++ [a]) m := by
  refine ⟨h.self_mem, ?_, h.closed.imp fun _ _ ht => ht.mono a⟩
  intro x session hx
  obtain ⟨ht, hn⟩ := h.sessions x session hx
  rw [hc x session hx]
  refine ⟨ht.mono a, fun hnone => ?_⟩
  rw [List.any_append, hn hnone]
  simp [ha x session hx]

/-- A step is recorded that changes the session on one target. -/
theorem Kept.put (h : Kept current closed hist m) {current' : ReplicaID → Poll}
    {session : VoteOutSession}
    (hc : ∀ x, x ≠ target → current' x = current x)
    (ha : ∀ x label, x ≠ target → a.nacks label x = false)
    (ht : Tallied (hist ++ [a]) m.self target (current' target) session)
    (hn : session.nackedBy = [] →
      (hist ++ [a]).any (·.nacks (current' target).label target) = false) :
    Kept current' closed (hist ++ [a]) (m.putVoteOut target session) := by
  refine ⟨h.self_mem, ?_, h.closed.imp fun _ _ ht => ht.mono a⟩
  intro x session' hx
  rcases lookup_insert_cases hx with ⟨rfl, rfl⟩ | ⟨hne, hx⟩
  · exact ⟨ht, hn⟩
  · obtain ⟨ht', hn'⟩ := h.sessions x session' hx
    rw [hc x hne]
    refine ⟨ht'.mono a, fun hnone => ?_⟩
    rw [List.any_append, hn' hnone]
    simp [ha x _ hne]

theorem Tallied.answered {session : VoteOutSession}
    (h : Tallied hist self target v session) {sender : ReplicaID} {suspected : Bool}
    (hsender : sender ∈ v.roll) (hne : sender ≠ target)
    (hack : hist.any (·.acks self v.label target sender) = true)
    (hown : suspected = true → hist.any (·.acks self v.label target self) = true) :
    Tallied hist self target v (session.answered suspected sender self) ∧
      ((session.answered suspected sender self).nackedBy = [] → session.nackedBy = []) := by
  cases suspected with
  | true =>
    refine ⟨?_, fun hn => hn⟩
    exact (h.insert hsender hne hack session.nackedBy).insert h.owner_mem h.target_ne.symm
      (hown rfl) session.nackedBy
  | false =>
    refine ⟨h.insert hsender hne hack _, fun hn => ?_⟩
    have hmem : self ∈ session.nackedBy.insert self := List.mem_insert_self
    rw [show session.nackedBy.insert self = [] from hn] at hmem
    cases hmem

/-- The ledger after a step that leaves the manager `m'`. -/
structure Advanced (s : VoteLedger) (a : CastStep) (m' : Manager) : Prop where
  kept : Kept (s.polls a) (s.closed ++ (m'.closedVoteOuts.drop
    s.manager.closedVoteOuts.length).map fun p => s.polls a p.1) (s.history ++ [a]) m'
  removal : ∀ target, m'.events = s.manager.events ++ [.removed target] →
    ∃ v, (v = s.polls a target ∨ v ∈ s.closed) ∧ Accepted (s.history ++ [a]) m'.self target v

theorem Kept.advanced {m₀ : Manager} (h : Kept (s.polls a) s.closed (s.history ++ [a]) m₀)
    (hclosed : m₀.closedVoteOuts = s.manager.closedVoteOuts)
    (hevents : m₀.events = s.manager.events) (hs : Shrinks m₀ m' ∧ Decided m₀ m') :
    Advanced s a m' := by
  obtain ⟨hself, hremoved⟩ := h.decide hs.1 hs.2
  rw [hevents] at hremoved
  refine ⟨?_, fun target ht => ⟨_, Or.inl rfl, hremoved target ht⟩⟩
  rw [← hclosed]
  exact h.shrinks hs.1 hself

theorem polls_of_ne {x : ReplicaID} (hp : a.step.proposes = some target) (hne : x ≠ target) :
    s.polls a x = s.current x := by
  simp only [polls, hp]
  split
  · exact Function.update_of_ne hne _ _
  · rfl

/-- A session that is open keeps its vote. -/
theorem polls_of_lookup {session : VoteOutSession}
    (hx : s.manager.voteOutSessions.lookup target = some session) (a : CastStep) :
    s.polls a target = s.current target := by
  cases hp : a.step.proposes with
  | none => simp only [polls, hp]
  | some x =>
    by_cases hne : target = x
    · subst hne
      simp only [polls, hp, hx, reduceCtorEq, if_false]
    · exact polls_of_ne hp hne

/-- A proposal that meets no session starts a vote. -/
theorem polls_of_proposes (hp : a.step.proposes = some target)
    (hnone : s.manager.voteOutSessions.lookup target = none) :
    s.polls a = Function.update s.current target ⟨a.vote, s.manager.membershipList⟩ := by
  simp only [polls, hp, hnone, if_true]

abbrev Sound (s : VoteLedger) : Prop := Kept s.current s.closed s.history s.manager

theorem Sound.record (h : s.Sound)
    (ha : ∀ x session, s.manager.voteOutSessions.lookup x = some session →
      a.nacks (s.current x).label x = false) :
    Kept (s.polls a) s.closed (s.history ++ [a]) s.manager :=
  Kept.record h (fun _ _ hx => polls_of_lookup hx a) ha

/-- The frames and the calls that touch no tally of a removal. -/
theorem Sound.onlyVoteIn (h : s.Sound) (hquiet : ∀ label x, a.nacks label x = false)
    (ho : OnlyVoteIn s.manager m') : Advanced s a m' :=
  (h.record fun x _ _ => hquiet _ x).advanced rfl rfl ⟨ho.shrinks, ho.toSameRoster.decided⟩

theorem any_nacks_of_unused {label : ℕ} (h : s.Unused label) (target : ReplicaID) :
    s.history.any (·.nacks label target) = false := by
  rw [List.any_eq_false]
  intro x hx hn
  exact h x hx (by simpa using (Bool.and_eq_true_iff.mp hn).1)

/-- A session that a proposal finds or opens, before the answers to it are counted. -/
theorem Sound.session (h : s.Sound) (hp : a.step.proposes = some target)
    (hne : target ≠ s.manager.self) (hin : target ∈ s.manager.membershipList)
    (hunused : s.manager.voteOutSessions.lookup target = none → s.Unused a.vote)
    (hquiet : ∀ label x, a.nacks label x = false) :
    Tallied (s.history ++ [a]) s.manager.self target (s.polls a target)
      ((s.manager.voteOutSessions.lookup target).getD ⟨s.manager.membershipList, [], []⟩) ∧
    (((s.manager.voteOutSessions.lookup target).getD
      ⟨s.manager.membershipList, [], []⟩).nackedBy = [] →
      (s.history ++ [a]).any (·.nacks (s.polls a target).label target) = false) := by
  cases hl : s.manager.voteOutSessions.lookup target with
  | none =>
    rw [polls_of_proposes hp hl, Function.update_self]
    refine ⟨⟨rfl, hin, hne, h.self_mem, List.nodup_nil, by simp⟩, fun _ => ?_⟩
    rw [List.any_append, any_nacks_of_unused (hunused hl)]
    simp [hquiet]
  | some session =>
    obtain ⟨ht, hn⟩ := h.sessions target session hl
    rw [polls_of_lookup hl]
    refine ⟨ht.mono a, fun hnone => ?_⟩
    rw [List.any_append, hn hnone]
    simp [hquiet]

/-- A proposal that is answered belongs to the vote of the session it goes into, and so do
the Acks that it brings. -/
theorem Sound.answered (h : s.Sound) {suspected : Bool} {sender : ReplicaID}
    (ha : a.step = .deliver suspected sender (.voteOut target)) (hok : s.OneVote a)
    (hself : target ≠ s.manager.self) (hown : sender ≠ s.manager.self)
    (hin : target ∈ s.manager.membershipList) :
    ∃ v, v = s.polls a target ∧ a.vote = v.label ∧ sender ∈ v.roll ∧ sender ≠ target ∧
      (s.manager.voteOutSessions.lookup target = none → s.Unused a.vote) := by
  have hp : a.step.proposes = some target := by rw [ha]; rfl
  rw [OneVote, ha] at hok
  obtain ⟨hsender, hopen, hmeets⟩ := hok hself hown hin
  refine ⟨_, rfl, ?_⟩
  cases hl : s.manager.voteOutSessions.lookup target with
  | none =>
    rw [polls_of_proposes hp hl, Function.update_self]
    exact ⟨rfl, (hopen hl).2, hsender, fun _ => (hopen hl).1⟩
  | some session =>
    rw [polls_of_lookup hl, ← (h.sessions target session hl).1.roll]
    exact ⟨(hmeets session hl).1, (hmeets session hl).2, hsender, nofun⟩

theorem Sound.handleVoteOut (h : s.Sound) {suspected : Bool} {sender : ReplicaID}
    (ha : a.step = .deliver suspected sender (.voteOut target)) (hok : s.OneVote a) :
    Advanced s a (s.manager.handleVoteOut suspected sender target) := by
  have hp : a.step.proposes = some target := by rw [ha]; rfl
  have hquiet : ∀ label x, a.nacks label x = false := by simp [CastStep.nacks, ha]
  unfold Manager.handleVoteOut
  split
  · exact h.onlyVoteIn hquiet (onlyVoteIn_asyncSend ..)
  · split
    · exact h.onlyVoteIn hquiet (OnlyVoteIn.refl _)
    · split
      · exact h.onlyVoteIn hquiet (OnlyVoteIn.refl _)
      · rename_i hself hown hmember
        have hin : target ∈ s.manager.membershipList := by simpa [isMember] using hmember
        obtain ⟨v, hv, hvote, hroll, hne, hunused⟩ := h.answered ha hok hself hown hin
        obtain ⟨htally, hun⟩ := h.session hp hself hin hunused hquiet
        rw [← hv] at htally hun
        have hcast : ∀ r, sender = r ∨ suspected = true ∧ r = s.manager.self →
            (s.history ++ [a]).any (·.acks s.manager.self v.label target r) = true := by
          intro r hr
          rw [List.any_append, Bool.or_eq_true]
          refine Or.inr ?_
          simp [CastStep.acks, ha, hvote, hr]
        obtain ⟨hanswered, hnacked⟩ := htally.answered hroll hne (hcast sender (Or.inl rfl))
          fun hs => hcast _ (Or.inr ⟨hs, rfl⟩)
        rw [hv] at hanswered hun
        have hput := Kept.put h (fun x hx => polls_of_ne hp hx) (fun x label _ => hquiet label x)
          hanswered fun hn => hun (hnacked hn)
        exact (hput.asyncSend _).advanced rfl rfl (shrinks_check _ target)

theorem polls_of_proposes_none (hp : a.step.proposes = none) : s.polls a = s.current := by
  simp only [polls, hp]

theorem Sound.handleVoteOutAck (h : s.Sound) {suspected : Bool} {sender : ReplicaID}
    (ha : a.step = .deliver suspected sender (.voteOutAck target)) (hok : s.OneVote a) :
    Advanced s a (s.manager.handleVoteOutAck sender target) := by
  have hpolls : s.polls a = s.current := polls_of_proposes_none (by rw [ha]; rfl)
  have hquiet : ∀ label x, a.nacks label x = false := by simp [CastStep.nacks, ha]
  rw [OneVote, ha] at hok
  unfold Manager.handleVoteOutAck
  split
  · exact h.onlyVoteIn hquiet (OnlyVoteIn.refl _)
  · rename_i session hl
    obtain ⟨hvote, hsender, hne⟩ := hok session hl
    obtain ⟨ht, hn⟩ := h.sessions target session hl
    have hcast : (s.history ++ [a]).any
        (·.acks s.manager.self (s.current target).label target sender) = true := by
      rw [List.any_append, Bool.or_eq_true]
      refine Or.inr ?_
      simp [CastStep.acks, ha, hvote]
    have htally := (ht.mono a).insert (ht.roll ▸ hsender) hne hcast session.nackedBy
    have hput := Kept.put h (fun _ _ => rfl) (fun x label _ => hquiet label x) htally
      fun hnone => by simp [List.any_append, hn hnone, hquiet]
    rw [← hpolls] at hput
    exact hput.advanced rfl rfl (shrinks_check _ target)

theorem Sound.handleVoteOutNack (h : s.Sound) {suspected : Bool} {sender : ReplicaID}
    (ha : a.step = .deliver suspected sender (.voteOutNack target)) :
    Advanced s a (s.manager.handleVoteOutNack sender target) := by
  have hpolls : s.polls a = s.current := polls_of_proposes_none (by rw [ha]; rfl)
  have hquiet : ∀ x label, x ≠ target → a.nacks label x = false := by
    intro x label hx
    simp [CastStep.nacks, ha, hx.symm]
  unfold Manager.handleVoteOutNack
  split
  · rename_i hl
    refine (h.record fun x session hx => ?_).advanced rfl rfl
      ⟨(OnlyVoteIn.refl _).shrinks, (SameRoster.refl _).decided⟩
    refine hquiet x _ ?_
    rintro rfl
    rw [hl] at hx
    cases hx
  · rename_i session hl
    have ht := (h.sessions target session hl).1.mono a
    have htally : Tallied (s.history ++ [a]) s.manager.self target (s.current target)
        { session with nackedBy := session.nackedBy.insert sender } :=
      ⟨ht.roll, ht.target_mem, ht.target_ne, ht.owner_mem, ht.nodup, ht.acks⟩
    have hput := Kept.put h (fun _ _ => rfl) hquiet htally fun hnone => by
      have hmem : sender ∈ session.nackedBy.insert sender := List.mem_insert_self
      rw [show session.nackedBy.insert sender = [] from hnone] at hmem
      cases hmem
    rw [← hpolls] at hput
    exact hput.advanced rfl rfl (shrinks_check _ target)

theorem Sound.call_voteOut (h : s.Sound) (ha : a.step = .call (.voteOut target))
    (hok : s.OneVote a) : Advanced s a (s.manager.call (.voteOut target)) := by
  have hp : a.step.proposes = some target := by rw [ha]; rfl
  have hquiet : ∀ label x, a.nacks label x = false := by simp [CastStep.nacks, ha]
  rw [OneVote, ha] at hok
  rw [Manager.call]
  cases hv : s.manager.voteOut target with
  | error err => exact h.onlyVoteIn hquiet (OnlyVoteIn.refl _)
  | ok m' =>
    obtain ⟨hne, hin, hl, rfl⟩ := voteOut_eq_ok hv
    obtain ⟨htally, hun⟩ := h.session hp hne hin hok hquiet
    rw [hl, Option.getD_none] at htally hun
    have hcast : (s.history ++ [a]).any
        (·.acks s.manager.self (s.polls a target).label target s.manager.self) = true := by
      rw [polls_of_proposes hp hl, Function.update_self, List.any_append, Bool.or_eq_true]
      refine Or.inr ?_
      simp [CastStep.acks, ha]
    have hown := htally.insert htally.owner_mem hne.symm hcast []
    have hput := Kept.put h (fun x hx => polls_of_ne hp hx) (fun x label _ => hquiet label x)
      hown hun
    exact (hput.asyncSend (.voteOut target)).advanced rfl rfl
      ⟨(OnlyVoteIn.refl _).shrinks, (SameRoster.refl _).decided⟩

/-- A closed session is kept with its vote. -/
theorem Sound.exists_poll (h : s.Sound) {i : ℕ} {session : VoteOutSession}
    (hi : s.manager.closedVoteOuts[i]? = some (target, session)) :
    ∃ poll, s.closed[i]? = some poll ∧
      Tallied s.history s.manager.self target poll session := by
  obtain ⟨hlen, hget⟩ := List.forall₂_iff_get.mp h.closed
  obtain ⟨hlt, hp⟩ := List.getElem?_eq_some_iff.mp hi
  refine ⟨s.closed.get ⟨i, hlen ▸ hlt⟩, List.getElem?_eq_getElem _, ?_⟩
  have ht := hget i (hlen ▸ hlt) hlt
  rw [List.get_eq_getElem, List.get_eq_getElem, hp] at ht
  exact ht

/-- A removal is decided on a session that was closed before. -/
theorem Sound.call_recheckVoteOut (h : s.Sound) {i : ℕ}
    (ha : a.step = .call (.recheckVoteOut i)) (hok : s.OneVote a) :
    Advanced s a (s.manager.call (.recheckVoteOut i)) := by
  have hquiet : ∀ label x, a.nacks label x = false := by simp [CastStep.nacks, ha]
  have hkept := h.record fun x _ _ => hquiet _ x
  rw [OneVote, ha] at hok
  rw [Manager.call]
  split
  · exact h.onlyVoteIn hquiet (OnlyVoteIn.refl _)
  · rename_i target session hi
    unfold Manager.recheckVoteOut
    split_ifs with hnacked hfew
    · exact hkept.advanced rfl rfl
        ⟨shrinks_cancelSession _ target _, (sameRoster_cancelSession _ target _).decided⟩
    · exact h.onlyVoteIn hquiet (OnlyVoteIn.refl _)
    · obtain ⟨poll, hpoll, htally⟩ := h.exists_poll hi
      have hs := shrinks_removeMember s.manager target
      have hself : s.manager.self ∈ (s.manager.removeMember target).membershipList :=
        List.mem_filter.mpr ⟨h.self_mem, by simpa using htally.target_ne.symm⟩
      refine ⟨?_, fun x hx => ?_⟩
      · have hshrinks : Shrinks s.manager
            { s.manager.removeMember target with completed := s.manager.completed } :=
          ⟨hs.self, hs.sessions, hs.closed⟩
        exact hkept.shrinks hshrinks hself
      · have heq : s.manager.events ++ [MembershipChange.removed target] =
            s.manager.events ++ [.removed x] := hx
        cases List.singleton_inj.mp (List.append_cancel_left heq)
        refine ⟨poll, Or.inr (List.mem_of_getElem? hpoll), ?_⟩
        refine (htally.mono a).accepted (Nat.le_of_not_lt hfew) ?_
        rw [List.any_append, hok _ hi poll hpoll]
        simp [hquiet]

theorem Sound.advanced (h : s.Sound) (hok : s.OneVote a) (hs : s.manager.step a.step = some m') :
    Advanced s a m' := by
  cases ha : a.step with
  | deliver suspected sender frame =>
    rw [ha] at hs
    obtain rfl := Option.some.inj hs
    cases frame with
    | voteOut target => exact h.handleVoteOut ha hok
    | voteOutAck target => exact h.handleVoteOutAck ha hok
    | voteOutNack target => exact h.handleVoteOutNack ha
    | voteIn target addr =>
      exact h.onlyVoteIn (by simp [CastStep.nacks, ha]) (onlyVoteIn_handleVoteIn ..)
    | voteInAck target =>
      exact h.onlyVoteIn (by simp [CastStep.nacks, ha]) (onlyVoteIn_handleVoteInAck ..)
    | voteInNack target =>
      exact h.onlyVoteIn (by simp [CastStep.nacks, ha]) (onlyVoteIn_handleVoteInNack ..)
    | memberAdd target addr =>
      have hquiet : ∀ label x, a.nacks label x = false := by simp [CastStep.nacks, ha]
      rw [dispatch, handleMemberAdd]
      split
      · exact h.onlyVoteIn hquiet (OnlyVoteIn.refl _)
      · exact (h.record fun x _ _ => hquiet _ x).advanced rfl rfl (shrinks_applyMemberAdd ..)
  | call c =>
    have hquiet : ∀ label x, a.nacks label x = false := by simp [CastStep.nacks, ha]
    have hkept := h.record fun x _ _ => hquiet _ x
    rw [ha] at hs
    obtain rfl := Option.some.inj hs
    cases c with
    | voteOut target => exact h.call_voteOut ha hok
    | checkVoteOut target => exact hkept.advanced rfl rfl (shrinks_check _ target)
    | recheckVoteOut i => exact h.call_recheckVoteOut ha hok
    | cancelVoteOut target err =>
      exact hkept.advanced rfl rfl
        ⟨shrinks_cancelSession _ target err, (sameRoster_cancelSession _ target err).decided⟩
    | voteIn target addr => exact h.onlyVoteIn hquiet (onlyVoteIn_call_voteIn ..)
    | checkVoteIn target => exact h.onlyVoteIn hquiet (onlyVoteIn_checkVoteInDecision ..)
    | recheckVoteIn i => exact h.onlyVoteIn hquiet (onlyVoteIn_call_recheckVoteIn ..)
    | cancelVoteIn target err => exact h.onlyVoteIn hquiet (onlyVoteIn_cancelVoteInSession ..)

theorem step_eq_some (hs : s.step a = some t) : s.manager.step a.step = some t.manager ∧
    t.current = s.polls a ∧ t.history = s.history ++ [a] ∧ t.closed = s.closed ++
      (t.manager.closedVoteOuts.drop s.manager.closedVoteOuts.length).map fun p =>
        s.polls a p.1 := by
  obtain ⟨m, hm, rfl⟩ := Option.map_eq_some_iff.mp hs
  exact ⟨hm, rfl, rfl, rfl⟩

theorem Sound.step (h : s.Sound) (hok : s.OneVote a) (hs : s.step a = some t) : t.Sound := by
  obtain ⟨hm, hcurrent, hhistory, hclosed⟩ := step_eq_some hs
  have hkept := (h.advanced hok hm).kept
  rwa [← hcurrent, ← hhistory, hcurrent, ← hclosed, ← hcurrent] at hkept

/-- `[2]` proposes to remove `[5]`; `[1]` suspects it as well, and `[3]` answers. -/
def proposalOfTwo : List CastStep := [⟨1, .deliver true [2] (.voteOut [5])⟩]

/-- The vote of `[2]` ends without a decision, and `[3]` starts another one. -/
def secondVote : List CastStep :=
  [⟨1, .deliver true [2] (.voteOut [5])⟩, ⟨2, .deliver true [3] (.voteOut [5])⟩]

end VoteLedger
end Comlink
