import Comlink.HeartbeatGroup
import Comlink.VoteGroup

/-!
# Removals and the failure detector

A manager answers a proposed removal with an Ack if its failure detector suspects the target, and
with a Nack otherwise. Here the votes of a group run beside its heartbeats: the answers are those
of the detectors, every frame of a vote that is sent counts as a frame for the detectors, and a
change of the member list is told to the detector of the replica. In a timely group no live
member is removed, as long as removals are proposed where the list has three members or more. In
a list of two the proposer decides alone.
-/
namespace Comlink
open CausalBroadcast GuardedRuns

/-- The replica that a change is about. -/
def MembershipChange.replica : MembershipChange → ReplicaID
  | .added r _ => r
  | .removed r => r

namespace Manager

/-! ### Votes that cannot succeed -/

/-- The session has a Nack, or too few Acks. -/
def Hopeless (s : VoteOutSession) : Prop := s.nackedBy ≠ [] ∨ s.ackedBy.length < s.needed

/-- The manager keeps `x`: it is a member, no change was about it, no Ack for its removal waits to
be sent, and no session can remove it. -/
structure Keeps (x : ReplicaID) (m : Manager) : Prop where
  member : x ∈ m.membershipList
  events : ∀ e ∈ m.events, e.replica ≠ x
  frames : .voteOutAck x ∉ m.pending
  sessions : ∀ s, m.voteOutSessions.lookup x = some s → Hopeless s
  closed : ∀ s, (x, s) ∈ m.closedVoteOuts → Hopeless s

variable {x target sender : ReplicaID} {m : Manager}

theorem keeps_new {members : List ReplicaID} (hx : x ∈ members) (r : ReplicaID) (size : ℕ) :
    Keeps x (new r members size) := by
  refine ⟨hx, ?_, ?_, ?_, ?_⟩ <;> simp [new]

theorem Keeps.asyncSend (h : Keeps x m) {frame : VoteFrame} (hf : frame ≠ .voteOutAck x) :
    Keeps x (m.asyncSend frame) := by
  refine ⟨h.member, h.events, ?_, h.sessions, h.closed⟩
  intro hmem
  rcases List.mem_append.mp hmem with hmem | hmem
  · exact h.frames hmem
  · exact hf (List.mem_singleton.mp hmem).symm

theorem Keeps.putVoteOut (h : Keeps x m) {s : VoteOutSession} (hs : target = x → Hopeless s) :
    Keeps x (m.putVoteOut target s) := by
  refine ⟨h.member, h.events, h.frames, ?_, h.closed⟩
  intro s' hl
  rcases AssociationLists.lookup_insert_cases hl with ⟨heq, rfl⟩ | ⟨_, hl⟩
  · exact hs heq.symm
  · exact h.sessions s' hl

theorem Keeps.putVoteIn (h : Keeps x m) (target : ReplicaID) (s : VoteInSession) :
    Keeps x (m.putVoteIn target s) :=
  ⟨h.member, h.events, h.frames, h.sessions, h.closed⟩

theorem Keeps.cancelSession (h : Keeps x m) (target : ReplicaID) (err : VoteError) :
    Keeps x (m.cancelSession target err) := by
  rcases cancelSession_cases m target err with he | ⟨s, hs, he⟩
  · rw [he]
    exact h
  · rw [he]
    refine ⟨h.member, h.events, h.frames, ?_, ?_⟩
    · intro s' hl
      exact h.sessions s' (AssociationLists.lookup_erase_cases hl).2
    · intro s' hs'
      rcases List.mem_append.mp hs' with hs' | hs'
      · exact h.closed s' hs'
      · cases List.mem_singleton.mp hs'
        exact h.sessions s hs

theorem Keeps.cancelVoteInSession (h : Keeps x m) (target : ReplicaID) (err : VoteError) :
    Keeps x (m.cancelVoteInSession target err) := by
  rcases cancelVoteInSession_cases m target err with he | ⟨s, hs, he⟩
  · rw [he]
    exact h
  · rw [he]
    exact ⟨h.member, h.events, h.frames, h.sessions, h.closed⟩

theorem Keeps.removeMember (h : Keeps x m) (hne : target ≠ x) :
    Keeps x (m.removeMember target) := by
  refine ⟨?_, ?_, h.frames, ?_, ?_⟩
  · exact List.mem_filter.mpr ⟨h.member, decide_eq_true hne.symm⟩
  · intro e he
    rcases List.mem_append.mp he with he | he
    · exact h.events e he
    · rw [List.mem_singleton.mp he]
      exact hne
  · intro s hl
    exact h.sessions s (AssociationLists.lookup_erase_cases hl).2
  · intro s hs
    rcases List.mem_append.mp hs with hs | hs
    · exact h.closed s hs
    · obtain ⟨s', -, heq⟩ := Option.map_eq_some_iff.mp (Option.mem_toList.mp hs)
      exact absurd (congrArg Prod.fst heq) hne

theorem Keeps.checkVoteOutDecision (h : Keeps x m) (target : ReplicaID) :
    Keeps x (m.checkVoteOutDecision target) := by
  rcases checkVoteOutDecision_cases m target with ⟨he, _⟩ | ⟨he, _⟩ | ⟨he, s, hs, hn, hq⟩
  · rw [he]
    exact h
  · rw [he]
    exact h.cancelSession target _
  · rw [he]
    apply h.removeMember
    rintro rfl
    rcases h.sessions s hs with hn' | hlt
    · exact hn' hn
    · omega

theorem Keeps.recheckVoteOut (h : Keeps x m) {s : VoteOutSession} (hs : target = x → Hopeless s) :
    Keeps x (m.recheckVoteOut target s) := by
  unfold Manager.recheckVoteOut
  split_ifs with hn hlt
  · exact h.cancelSession target _
  · exact h
  · have hne : target ≠ x := by
      intro heq
      rcases hs heq with hn' | hlt'
      · exact hn hn'
      · exact hlt hlt'
    have hremoved := h.removeMember hne
    exact ⟨hremoved.member, hremoved.events, hremoved.frames, hremoved.sessions, hremoved.closed⟩

theorem Keeps.checkVoteInDecision (h : Keeps x m) (target : ReplicaID) :
    Keeps x (m.checkVoteInDecision target) := by
  unfold Manager.checkVoteInDecision
  split
  · exact h
  · split_ifs
    · exact h.cancelVoteInSession target _
    · exact h
    · exact h
    · exact (h.putVoteIn target _).asyncSend (by simp)

theorem Keeps.recheckVoteIn (h : Keeps x m) (target : ReplicaID) (s : VoteInSession) :
    Keeps x (m.recheckVoteIn target s) := by
  unfold Manager.recheckVoteIn
  split_ifs
  · exact h.cancelVoteInSession target _
  · exact h
  · exact h
  · exact h.asyncSend (by simp)

/-- A proposal in a list of three or more has too few Acks at its start. -/
theorem hopeless_of_length (h : 3 ≤ m.membershipList.length) :
    Hopeless ⟨m.membershipList, [m.self], []⟩ := by
  right
  simp only [VoteOutSession.needed, List.length_singleton]
  omega

theorem Keeps.call (h : Keeps x m) {c : Call}
    (hc : c = .voteOut x → 3 ≤ m.membershipList.length) : Keeps x (m.call c) := by
  cases c with
  | voteOut target =>
    rw [Manager.call]
    cases hv : m.voteOut target with
    | error err => exact h
    | ok m' =>
      obtain ⟨_, _, _, rfl⟩ := voteOut_eq_ok hv
      refine (h.putVoteOut ?_).asyncSend (by simp)
      rintro rfl
      exact hopeless_of_length (hc rfl)
  | checkVoteOut target => exact h.checkVoteOutDecision target
  | recheckVoteOut i =>
    rw [Manager.call]
    split
    · exact h
    · rename_i target s hclosed
      apply h.recheckVoteOut
      rintro rfl
      exact h.closed s (List.mem_of_getElem? hclosed)
  | cancelVoteOut target err => exact h.cancelSession target err
  | voteIn target addr =>
    rw [Manager.call]
    cases hv : m.voteIn target addr with
    | error err => exact h
    | ok m' =>
      rw [voteIn_eq_ok hv]
      exact (h.putVoteIn target _).asyncSend (by simp)
  | checkVoteIn target => exact h.checkVoteInDecision target
  | recheckVoteIn i =>
    rw [Manager.call]
    split
    · exact h
    · exact h.recheckVoteIn _ _
  | cancelVoteIn target err => exact h.cancelVoteInSession target err

theorem hopeless_answered (s : VoteOutSession) (sender own : ReplicaID) :
    Hopeless (s.answered false sender own) := by
  left
  simp only [VoteOutSession.answered, Bool.false_eq_true, if_false]
  exact List.ne_nil_of_mem (List.mem_insert_self)

theorem Keeps.handleVoteOut (h : Keeps x m) {suspected : Bool}
    (hs : target = x → suspected = false) :
    Keeps x (m.handleVoteOut suspected sender target) := by
  unfold Manager.handleVoteOut
  split
  · exact h.asyncSend (by simp)
  · split
    · exact h
    · split
      · exact h
      · refine Keeps.checkVoteOutDecision ((h.putVoteOut ?_).asyncSend ?_) target
        · intro heq
          rw [hs heq]
          exact hopeless_answered _ _ _
        · cases suspected with
          | false => simp
          | true =>
            intro heq
            cases heq
            cases hs rfl

theorem Keeps.applyMemberAdd (h : Keeps x m) (target : ReplicaID) (addr : String) :
    Keeps x (m.applyMemberAdd target addr) := by
  unfold Manager.applyMemberAdd
  split
  · exact h
  · rename_i hmember
    have hne : target ≠ x := by
      rintro rfl
      simp [isMember, h.member] at hmember
    refine ⟨List.mem_append_left _ h.member, ?_, h.frames, h.sessions, h.closed⟩
    intro e he
    rcases List.mem_append.mp he with he | he
    · exact h.events e he
    · rw [List.mem_singleton.mp he]
      exact hne

/-- Whatever arrives but an Ack for the removal of `x`, and as long as `x` is not suspected. -/
theorem Keeps.dispatch (h : Keeps x m) {suspected : Bool} {frame : VoteFrame}
    (hs : frame = .voteOut x → suspected = false) (hf : frame ≠ .voteOutAck x) :
    Keeps x (m.dispatch suspected sender frame) := by
  cases frame with
  | voteOut target =>
    apply h.handleVoteOut
    rintro rfl
    exact hs rfl
  | voteOutAck target =>
    rw [Manager.dispatch, Manager.handleVoteOutAck]
    split
    · exact h
    · refine Keeps.checkVoteOutDecision (h.putVoteOut ?_) target
      rintro rfl
      exact absurd rfl hf
  | voteOutNack target =>
    rw [Manager.dispatch, Manager.handleVoteOutNack]
    split
    · exact h
    · refine Keeps.checkVoteOutDecision (h.putVoteOut ?_) target
      intro _
      exact Or.inl (List.ne_nil_of_mem List.mem_insert_self)
  | voteIn target addr =>
    rw [Manager.dispatch, Manager.handleVoteIn]
    split_ifs
    · exact h
    · exact h
    · exact h.asyncSend (by simp)
  | voteInAck target =>
    rw [Manager.dispatch, Manager.handleVoteInAck]
    split
    · exact h
    · exact (h.putVoteIn target _).checkVoteInDecision target
  | voteInNack target =>
    rw [Manager.dispatch, Manager.handleVoteInNack]
    split
    · exact h
    · exact (h.putVoteIn target _).checkVoteInDecision target
  | memberAdd target addr =>
    rw [Manager.dispatch, Manager.handleMemberAdd]
    split
    · exact h
    · exact h.applyMemberAdd target addr

theorem Keeps.unqueue (h : Keeps x m) (frame : VoteFrame) :
    Keeps x (VoteGroup.unqueue m frame) :=
  ⟨h.member, h.events, fun hf => h.frames (List.mem_of_mem_erase hf), h.sessions, h.closed⟩

end Manager

namespace VoteGroup

/-- Every manager keeps `x`, and nobody has sent an Ack for its removal. -/
structure Trusted (G : VoteGroup) (x : ReplicaID) (net : VoteNet) : Prop where
  frames : ∀ m ∈ net.cast.sent, m.body ≠ .voteOutAck x
  managers : ∀ q ∈ G.members, Manager.Keeps x (net.manager q)

variable {G : VoteGroup} {x : ReplicaID} {net net' : VoteNet} {act : Action}

/-- The action neither proposes to remove `x` in a list of less than three, nor is an answer to
such a proposal by a replica that suspects `x`. -/
def Spares (x : ReplicaID) (net : VoteNet) : Action → Prop
  | .call r c => c = .voteOut x → 3 ≤ (net.manager r).membershipList.length
  | .handle _ i suspected =>
    ∀ m, net.cast.sent[i]? = some m → m.body = .voteOut x → suspected = false
  | _ => True

theorem trusted_start (hx : x ∈ G.members) : G.Trusted x G.start where
  frames := by simp [start, Cast.empty]
  managers q _ := Manager.keeps_new hx q _

theorem Trusted.step (h : G.Trusted x net) (hact : Spares x net act)
    (hs : G.step net act = some net') : G.Trusted x net' := by
  obtain ⟨hr, hstep⟩ := stepped hs
  have hupdate : ∀ m, Manager.Keeps x m →
      ∀ q ∈ G.members, Manager.Keeps x (Function.update net.manager act.replica m q) :=
    fun m hm => forall_mem_update (P := fun _ m => Manager.Keeps x m) h.managers fun _ => hm
  cases hstep with
  | call r c => exact ⟨h.frames, hupdate _ ((h.managers r hr).call hact)⟩
  | send r hf =>
    refine ⟨?_, hupdate _ ((h.managers r hr).unqueue _)⟩
    intro m hm
    rcases List.mem_append.mp hm with hm | hm
    · exact h.frames m hm
    · rw [List.mem_singleton.mp hm]
      rintro rfl
      exact (h.managers r hr).frames hf
  | lose r hf => exact ⟨h.frames, hupdate _ ((h.managers r hr).unqueue _)⟩
  | handle r suspected hc =>
    obtain ⟨hm, _, _, rfl⟩ := Cast.handle_eq_some hc
    refine ⟨h.frames, hupdate _ ((h.managers r hr).dispatch (hact _ hm) ?_)⟩
    exact h.frames _ (List.mem_of_getElem? hm)

end VoteGroup

/-! ### Detectors that are told of changes -/

namespace Detector

/-- The calls of `AddMember` and `RemoveMember` for some changes. -/
def follow (d : Detector) (now : ℤ) (changes : List MembershipChange) : Detector :=
  changes.foldl (fun d e => match e with
    | .added r _ => d.addMember r now
    | .removed r => d.removeMember r) d

variable {T : Timing} {members : List ReplicaID} {q r p : ReplicaID} {d : Detector} {now : ℤ}

/-- What a change leaves as it is: the configuration, the time of the last send, and all that is
known of others. -/
structure Untouched (p : ReplicaID) (d d' : Detector) : Prop where
  lastSent : d'.lastSent = d.lastSent
  lastReceived : d'.lastReceived p = d.lastReceived p
  suspected : d'.suspected p = d.suspected p

theorem Untouched.trans {d' d'' : Detector} (h : Untouched p d d') (h' : Untouched p d' d'') :
    Untouched p d d'' :=
  ⟨h'.lastSent.trans h.lastSent, h'.lastReceived.trans h.lastReceived,
    h'.suspected.trans h.suspected⟩

theorem untouched_removeMember (hp : p ≠ r) : Untouched p d (d.removeMember r) := by
  refine ⟨rfl, ?_, ?_⟩ <;> simp [removeMember, hp]

theorem untouched_addMember (hp : p ≠ r) : Untouched p d (d.addMember r now) := by
  unfold addMember
  split_ifs
  · exact ⟨rfl, rfl, rfl⟩
  · refine ⟨rfl, ?_, ?_⟩ <;> simp [noteReceived, hp]
  · refine ⟨rfl, ?_, rfl⟩
    simp [hp]

theorem untouched_follow {changes : List MembershipChange}
    (h : ∀ e ∈ changes, e.replica ≠ p) : Untouched p d (d.follow now changes) := by
  induction changes generalizing d with
  | nil => exact ⟨rfl, rfl, rfl⟩
  | cons e changes ih =>
    obtain ⟨he, hrest⟩ := List.forall_mem_cons.mp h
    cases e with
    | added r addr => exact (untouched_addMember (Ne.symm he)).trans (ih hrest)
    | removed r => exact (untouched_removeMember (Ne.symm he)).trans (ih hrest)

end Detector

namespace HeartbeatGroup

variable {T : Timing} {members : List ReplicaID} {g g' : HeartbeatGroup} {p q r : ReplicaID}
  {d : Detector}

theorem Wired.removeMember (h : Wired T members q d) (r : ReplicaID) :
    Wired T members q (d.removeMember r) where
  config := h.config
  known r' hr' hself := by
    obtain ⟨hmem, hne⟩ := List.mem_filter.mp hr'
    have hne' : r' ≠ r := of_decide_eq_true hne
    simpa [Detector.removeMember, hne'] using h.known r' hmem hself
  own := by
    by_cases hr : q = r
    · simp [Detector.removeMember, hr]
    · simpa [Detector.removeMember, hr] using h.own

theorem Wired.addMember (h : Wired T members q d) (r : ReplicaID) (now : ℤ) :
    Wired T members q (d.addMember r now) := by
  unfold Detector.addMember
  split_ifs with hself hmem
  · exact h
  · exact h.noteReceived r now
  · refine ⟨h.config, ?_, h.own⟩
    intro r' hr' hne
    by_cases hrr : r' = r
    · simp [hrr]
    · have hold : r' ∈ d.memberByteForms := by
        rcases List.mem_append.mp hr' with hr' | hr'
        · exact hr'
        · exact absurd (List.mem_singleton.mp hr') hrr
      simpa [hrr] using h.known r' hold hne

theorem Wired.follow (h : Wired T members q d) (now : ℤ) (changes : List MembershipChange) :
    Wired T members q (d.follow now changes) := by
  induction changes generalizing d with
  | nil => exact h
  | cons e changes ih =>
    cases e with
    | added r addr => exact ih (h.addMember r now)
    | removed r => exact ih (h.removeMember r)

/-- The detector of one replica follows some changes. -/
def follow (g : HeartbeatGroup) (r : ReplicaID) (changes : List MembershipChange) :
    HeartbeatGroup :=
  { g with
    detector := Function.update g.detector r ((g.detector r).follow g.now changes) }

theorem Accurate.follow (h : Accurate T members g) {changes : List MembershipChange}
    (hlive : ∀ p, Alive members g p → ∀ e ∈ changes, e.replica ≠ p) :
    Accurate T members (g.follow r changes) := by
  have huntouched : ∀ q p, (∀ e ∈ changes, e.replica ≠ p) →
      Detector.Untouched p (g.detector q) ((g.follow r changes).detector q) := by
    intro q p hp
    by_cases hqr : q = r
    · subst hqr
      simp only [HeartbeatGroup.follow, Function.update_self]
      exact Detector.untouched_follow hp
    · simp only [HeartbeatGroup.follow, Function.update_of_ne hqr]
      exact ⟨rfl, rfl, rfl⟩
  refine ⟨⟨?_, h.paced.ticked, ?_, h.paced.sending, h.paced.sent, h.paced.flight⟩, ?_⟩
  · apply forall_mem_update (P := Wired T members) h.paced.wired
    intro hmem
    exact (h.paced.wired r hmem).follow _ _
  · intro q hq
    rw [(huntouched q q (hlive q hq)).lastSent]
    exact h.paced.lastSent q hq
  · intro p q hp hq hne
    have hpq := huntouched q p (hlive p hp)
    have hfed := h.fed p q hp hq hne
    refine hfed.of_eq hpq.lastReceived rfl ?_ (fun _ hs => hs) (hpq.suspected.trans hfed.trusted)
    rw [(huntouched p p (hlive p hp)).lastSent]
    exact hfed.supply

/-- A frame goes out at once. -/
def announce (g : HeartbeatGroup) (members : List ReplicaID) (r : ReplicaID) : HeartbeatGroup :=
  { g with sending := g.sending ++ [(r, g.now)] }.transmit members r g.now

theorem Accurate.announce (h : Accurate T members g) (hT : T.Fits) (hr : Alive members g r) :
    Accurate T members (g.announce members r) := by
  have hbegun : Accurate T members { g with sending := g.sending ++ [(r, g.now)] } :=
    h.step (a := .submit r) hT trivial (.submit hr)
  exact hbegun.step (a := .transmit r g.now) hT trivial (.transmit (by simp))

end HeartbeatGroup

/-! ### Votes beside heartbeats -/

structure DetectedVotes where
  beats : HeartbeatGroup
  votes : VoteNet

inductive DetectedAction where
  | beat (a : HeartbeatAction)
  | call (r : ReplicaID) (c : Manager.Call)
  | send (r : ReplicaID) (frame : VoteFrame)
  | lose (r : ReplicaID) (frame : VoteFrame)
  | handle (r : ReplicaID) (i : ℕ)

namespace DetectedVotes

def start (T : Timing) (G : VoteGroup) (t₀ : ℤ) : DetectedVotes :=
  ⟨.start T G.members t₀, G.start⟩

/-- The answer of the detector to the question that the message at this place asks. -/
def suspects (st : DetectedVotes) (r : ReplicaID) (i : ℕ) : Bool :=
  match st.votes.cast.sent[i]?.map CastMessage.body with
  | some (.voteOut target) => (st.beats.detector r).suspected target
  | _ => false

/-- An action of the voting protocol at a live replica, whose detector follows what it changes. -/
def vote (G : VoteGroup) (st : DetectedVotes) (act : VoteGroup.Action) : Option DetectedVotes :=
  if st.beats.crashed act.replica = none then
    (G.step st.votes act).map fun votes =>
      ⟨st.beats.follow act.replica ((votes.manager act.replica).events.drop
        (st.votes.manager act.replica).events.length), votes⟩
  else none

def step (G : VoteGroup) (st : DetectedVotes) : DetectedAction → Option DetectedVotes
  | .beat a => (st.beats.step G.members a).map ({ st with beats := · })
  | .call r c => st.vote G (.call r c)
  | .send r frame => (st.vote G (.send r frame)).map fun st =>
      { st with beats := st.beats.announce G.members r }
  | .lose r frame => st.vote G (.lose r frame)
  | .handle r i => st.vote G (.handle r i (st.suspects r i))

/-- The group is timely, and whoever proposes to remove a live member has three in its list. -/
def Allowed (T : Timing) (G : VoteGroup) (st : DetectedVotes) : DetectedAction → Prop
  | .beat a => st.beats.Timely T G.members a
  | .call r (.voteOut x) =>
    st.beats.crashed x = none → 3 ≤ (st.votes.manager r).membershipList.length
  | _ => True

instance (T : Timing) (G : VoteGroup) (st : DetectedVotes) (a : DetectedAction) :
    Decidable (Allowed T G st a) :=
  match a with
  | .beat a => inferInstanceAs (Decidable (HeartbeatGroup.Timely T G.members st.beats a))
  | .call _ (.voteOut _) => inferInstanceAs (Decidable (_ → _))
  | .call _ (.checkVoteOut _) => isTrue trivial
  | .call _ (.recheckVoteOut _) => isTrue trivial
  | .call _ (.cancelVoteOut _ _) => isTrue trivial
  | .call _ (.voteIn _ _) => isTrue trivial
  | .call _ (.checkVoteIn _) => isTrue trivial
  | .call _ (.recheckVoteIn _) => isTrue trivial
  | .call _ (.cancelVoteIn _ _) => isTrue trivial
  | .send _ _ => isTrue trivial
  | .lose _ _ => isTrue trivial
  | .handle _ _ => isTrue trivial

variable {T : Timing} {G : VoteGroup} {st st' : DetectedVotes}

structure Invariant (T : Timing) (G : VoteGroup) (st : DetectedVotes) : Prop where
  accurate : HeartbeatGroup.Accurate T G.members st.beats
  trusted : ∀ x, HeartbeatGroup.Alive G.members st.beats x → G.Trusted x st.votes

theorem Invariant.vote {act : VoteGroup.Action} (h : Invariant T G st)
    (hact : ∀ x, HeartbeatGroup.Alive G.members st.beats x → VoteGroup.Spares x st.votes act)
    (hs : st.vote G act = some st') : Invariant T G st' := by
  obtain ⟨hlive, hs⟩ := Option.ite_none_right_eq_some.mp hs
  obtain ⟨votes, hvotes, rfl⟩ := Option.map_eq_some_iff.mp hs
  have hr : act.replica ∈ G.members := (VoteGroup.stepped hvotes).1
  have htrusted : ∀ x, HeartbeatGroup.Alive G.members st.beats x → G.Trusted x votes :=
    fun x hx => (h.trusted x hx).step (hact x hx) hvotes
  refine ⟨h.accurate.follow ?_, htrusted⟩
  intro p hp e he
  exact ((htrusted p hp).managers _ hr).events e (List.mem_of_mem_drop he)

/-- A replica that answers a proposal does not suspect a live member, nor itself. -/
theorem Invariant.spares_handle (h : Invariant T G st) {x r : ReplicaID}
    (hx : HeartbeatGroup.Alive G.members st.beats x)
    (hr : HeartbeatGroup.Alive G.members st.beats r) (i : ℕ) :
    VoteGroup.Spares x st.votes (.handle r i (st.suspects r i)) := by
  intro m hm hbody
  have hsuspects : st.suspects r i = (st.beats.detector r).suspected x := by
    rw [suspects, hm, Option.map_some, hbody]
  rw [hsuspects]
  by_cases hxr : x = r
  · subst hxr
    exact (h.accurate.paced.wired x hx.1).own
  · exact (h.accurate.fed x r hx hr hxr).trusted

theorem crashed_of_vote {act : VoteGroup.Action} (hs : st.vote G act = some st') :
    st'.beats.crashed = st.beats.crashed := by
  obtain ⟨-, hs⟩ := Option.ite_none_right_eq_some.mp hs
  obtain ⟨votes, -, rfl⟩ := Option.map_eq_some_iff.mp hs
  rfl

theorem alive_of_vote {act : VoteGroup.Action} (hs : st.vote G act = some st') :
    HeartbeatGroup.Alive G.members st.beats act.replica := by
  obtain ⟨hlive, hs⟩ := Option.ite_none_right_eq_some.mp hs
  obtain ⟨votes, hvotes, -⟩ := Option.map_eq_some_iff.mp hs
  exact ⟨(VoteGroup.stepped hvotes).1, hlive⟩

theorem Invariant.step {a : DetectedAction} (h : Invariant T G st) (hT : T.Fits)
    (ha : Allowed T G st a) (hs : st.step G a = some st') : Invariant T G st' := by
  cases a with
  | beat a =>
    obtain ⟨beats, hbeats, rfl⟩ := Option.map_eq_some_iff.mp hs
    have hstep := HeartbeatGroup.stepped_of_step hbeats
    refine ⟨h.accurate.step hT ha hstep, ?_⟩
    intro x hx
    exact h.trusted x (HeartbeatGroup.alive_of_stepped hstep hx)
  | call r c =>
    refine h.vote ?_ hs
    rintro x hx rfl
    exact ha hx.2
  | send r frame =>
    obtain ⟨mid, hmid, rfl⟩ := Option.map_eq_some_iff.mp hs
    have hspares : ∀ x, HeartbeatGroup.Alive G.members st.beats x →
        VoteGroup.Spares x st.votes (.send r frame) := fun _ _ => trivial
    have hinv := h.vote hspares hmid
    have hr := alive_of_vote hmid
    have hcrashed : mid.beats.crashed = st.beats.crashed := crashed_of_vote hmid
    refine ⟨hinv.accurate.announce hT ⟨hr.1, hcrashed ▸ hr.2⟩, hinv.trusted⟩
  | lose r frame =>
    have hspares : ∀ x, HeartbeatGroup.Alive G.members st.beats x →
        VoteGroup.Spares x st.votes (.lose r frame) := fun _ _ => trivial
    exact h.vote hspares hs
  | handle r i =>
    refine h.vote ?_ hs
    intro x hx
    exact h.spares_handle hx (alive_of_vote hs) i

/-- Both of two members tick, and their frames reach all others a moment later. -/
def bothBeat (t : ℤ) : List DetectedAction :=
  [.beat (.tick [1]), .beat (.transmit [1] t), .beat (.noteSent [1] t),
    .beat (.tick [2]), .beat (.transmit [2] t), .beat (.noteSent [2] t), .beat (.pass 1),
    .beat (.deliver ⟨[1], [2], t⟩), .beat (.deliver ⟨[1], [3], t⟩),
    .beat (.deliver ⟨[2], [1], t⟩), .beat (.deliver ⟨[2], [3], t⟩)]

theorem nodup_threeMembers : ([[1], [2], [3]] : List ReplicaID).Nodup := by decide

def threeMembers : VoteGroup := ⟨[[1], [2], [3]], nodup_threeMembers, 3⟩

/-- The third member crashes, and is removed once both others suspect it. -/
def crashedRemoved : List DetectedAction :=
  [.beat (.pass 1), .beat (.crash [3])] ++ ((List.range 8).flatMap fun i => bothBeat (i + 1)) ++
  [.beat (.tick [1]), .beat (.tick [2]),
    .call [1] (.voteOut [3]), .send [1] (.voteOut [3]), .handle [2] 0,
    .send [2] (.voteOutAck [3]), .handle [1] 0, .handle [1] 1]

theorem nodup_twoMembers : ([[1], [2]] : List ReplicaID).Nodup := by decide

def twoMembers : VoteGroup := ⟨[[1], [2]], nodup_twoMembers, 2⟩

/-- In a list of two a live member is removed by the other one alone. -/
def decidedAlone : List DetectedAction := [.call [1] (.voteOut [2]), .call [1] (.checkVoteOut [2])]

end DetectedVotes

end Comlink
