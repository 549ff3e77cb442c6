import Comlink.VoteGroup
import Mathlib.Data.List.Nodup

/-!
# Agreement on a removal

Every replica decides a `VoteOut` for itself, as soon as its own tally allows: a Nack
aborts the vote and a majority of Acks accepts it, whichever it hears first. Where
nobody answers with a Nack, no frame is lost and no caller gives up, the tallies of all
replicas grow to the same set of voters, and those who have heard everything agree.
-/
namespace Comlink
open CausalBroadcast GuardedRuns

/-- The senders of the messages of a cast. -/
def VoteNet.spoke (cast : Cast ReplicaID VoteFrame) (x : ReplicaID) : Prop :=
  ∃ m ∈ cast.sent, m.sender = x

/-- The senders of the messages that a replica has handled. -/
def VoteNet.heard (cast : Cast ReplicaID VoteFrame) (r x : ReplicaID) : Prop :=
  ∃ i ∈ cast.handled r, ∃ m, cast.sent[i]? = some m ∧ m.sender = x

namespace VoteNet

variable {cast cast' : Cast ReplicaID VoteFrame} {p r : ReplicaID} {i : ℕ}
  {m : CastMessage ReplicaID VoteFrame}

theorem spoke_send (cast : Cast ReplicaID VoteFrame) (p : ReplicaID) (frame : VoteFrame) :
    spoke (cast.send p frame) = fun x => spoke cast x ∨ x = p := by
  funext x
  simp [spoke, Cast.send, or_and_right, exists_or, eq_comm]

theorem heard_send (h : cast.Causal) (p : ReplicaID) (frame : VoteFrame) (r : ReplicaID) :
    heard (cast.send p frame) r = heard cast r := by
  funext x
  unfold heard
  refine propext (exists_congr fun i => and_congr_right fun hi => ?_)
  rw [Cast.getElem?_send (h.bound r i hi)]

theorem spoke_handle (hc : cast.handle r i = some (m, cast')) : spoke cast' = spoke cast := by
  obtain ⟨_, _, _, rfl⟩ := Cast.handle_eq_some hc
  rfl

theorem heard_handle (hc : cast.handle r i = some (m, cast')) :
    heard cast' r = fun x => heard cast r x ∨ x = m.sender := by
  obtain ⟨hm, _, _, rfl⟩ := Cast.handle_eq_some hc
  funext x
  simp [heard, or_and_right, exists_or, hm, eq_comm]

theorem heard_handle_of_ne (hc : cast.handle r i = some (m, cast')) (hp : p ≠ r) :
    heard cast' p = heard cast p := by
  obtain ⟨_, _, _, rfl⟩ := Cast.handle_eq_some hc
  funext x
  simp [heard, hp]

end VoteNet

namespace Manager

/-- A replica whose Ack counts at `r`: it has sent its answer, or it is `r` itself, about
to send one. -/
def Backed (spoke : ReplicaID → Prop) (m : Manager) (x : ReplicaID) : Prop :=
  spoke x ∨ x = m.self ∧ m.pending ≠ []

/-- A session without Nacks that has counted everybody that was heard. -/
structure Tally (members : List ReplicaID) (r : ReplicaID) (heard : ReplicaID → Prop)
    (s : VoteOutSession) : Prop where
  voters : s.membersAtStart = members
  unopposed : s.nackedBy = []
  nodup : s.ackedBy.Nodup
  heard : ∀ x, heard x → x ∈ s.ackedBy
  own : r ∈ s.ackedBy

/-- What is known of a replica that takes part in an unopposed vote on `target`. -/
structure Ballot (members : List ReplicaID) (target r : ReplicaID)
    (spoke heard : ReplicaID → Prop) (m : Manager) : Prop where
  self : m.self = r
  frames : ∀ f ∈ m.pending, f = .voteOut target ∨ f = .voteOutAck target ∧ ∃ x, heard x
  kept : target ∈ m.membershipList → m.membershipList = members
  within : m.membershipList ⊆ members
  listed : ∀ s, m.voteOutSessions.lookup target = some s → target ∈ m.membershipList
  tally : ∀ s, m.voteOutSessions.lookup target = some s → Tally members r heard s
  backed : ∀ s, m.voteOutSessions.lookup target = some s → ∀ x ∈ s.ackedBy, Backed spoke m x
  engaged : (∃ x, heard x) ∨ Backed spoke m r → target ∈ m.membershipList →
    ∃ s, m.voteOutSessions.lookup target = some s
  removed : target ∈ members → target ∉ m.membershipList → ∃ voters : List ReplicaID,
    voters.Nodup ∧ (members.length - 1) / 2 + 1 ≤ voters.length ∧ ∀ x ∈ voters, Backed spoke m x
  closed : ∀ p ∈ m.closedVoteOuts, p.1 = target ∧ p.2.nackedBy = [] ∧ target ∉ m.membershipList

/-- The tally is short of a majority, or there is only one voter. -/
def Undecided (members : List ReplicaID) (target : ReplicaID) (m : Manager) : Prop :=
  ∀ s, m.voteOutSessions.lookup target = some s →
    s.ackedBy.length < s.needed ∨ members.length ≤ 2

variable {members : List ReplicaID} {target r : ReplicaID} {spoke heard : ReplicaID → Prop}
  {m : Manager}

theorem ballot_new (members : List ReplicaID) (target r : ReplicaID) (size : ℕ) :
    Ballot members target r (fun _ => False) (fun _ => False) (new r members size) where
  self := rfl
  frames := by simp [new]
  kept := fun _ => rfl
  within := fun _ hx => hx
  listed := by simp [new]
  tally := by simp [new]
  backed := by simp [new]
  engaged := by simp [new, Backed]
  removed := fun hin hout => absurd hin hout
  closed := by simp [new]

/-- The target is removed, for the first time or again. -/
theorem Ballot.removeMember (h : Ballot members target r spoke heard m)
    (hvoters : target ∈ members → ∃ voters : List ReplicaID, voters.Nodup ∧
      (members.length - 1) / 2 + 1 ≤ voters.length ∧ ∀ x ∈ voters, Backed spoke m x) :
    Ballot members target r spoke heard (m.removeMember target) := by
  have hout : target ∉ (m.removeMember target).membershipList := by
    simp [Manager.removeMember]
  have hnone : (m.removeMember target).voteOutSessions.lookup target = none := by
    simp [Manager.removeMember]
  refine ⟨h.self, h.frames, fun hin => absurd hin hout, ?_, ?_, ?_, ?_, ?_, ?_, ?_⟩
  · exact fun x hx => h.within (List.mem_of_mem_filter hx)
  · simp [hnone]
  · simp [hnone]
  · simp [hnone]
  · exact fun _ hin => absurd hin hout
  · exact fun hin _ => hvoters hin
  · intro p hp
    rcases List.mem_append.mp hp with hp | hp
    · exact ⟨(h.closed p hp).1, (h.closed p hp).2.1, hout⟩
    · simp only [Option.mem_toList, Option.map_eq_some_iff] at hp
      obtain ⟨s, hs, rfl⟩ := hp
      exact ⟨rfl, (h.tally s hs).unopposed, hout⟩

theorem undecided_removeMember (members : List ReplicaID) (target : ReplicaID) (m : Manager) :
    Undecided members target (m.removeMember target) := by
  intro s hs
  simp [Manager.removeMember] at hs

/-- The decision ends a vote that has its majority and leaves any other alone. -/
theorem Ballot.check (h : Ballot members target r spoke heard m) :
    Ballot members target r spoke heard (m.checkVoteOutDecision target) ∧
      Undecided members target (m.checkVoteOutDecision target) := by
  rcases checkVoteOutDecision_cases m target with ⟨he, hs⟩ | ⟨_, s, hs, hn⟩ | ⟨he, s, hs, _, hq⟩
  · rw [he]
    exact ⟨h, fun s hl => Or.inl (hs s hl).2⟩
  · exact absurd (h.tally s hs).unopposed hn
  · rw [he]
    have ht := h.tally s hs
    refine ⟨h.removeMember fun _ => ⟨s.ackedBy, ht.nodup, ?_, h.backed s hs⟩,
      undecided_removeMember members target m⟩
    rw [← ht.voters]
    exact hq

/-- A session is put into the table, together with frames that wait to be sent. -/
theorem Ballot.record (h : Ballot members target r spoke heard m) {heard' : ReplicaID → Prop}
    {s : VoteOutSession} (frames : List VoteFrame)
    (hframes : ∀ f ∈ frames, f = .voteOut target ∨ f = .voteOutAck target ∧ ∃ x, heard' x)
    (hmono : ∀ x, heard x → heard' x) (hin : target ∈ m.membershipList)
    (ht : Tally members r heard' s)
    (hb : ∀ x ∈ s.ackedBy, spoke x ∨ x = m.self ∧ m.pending ++ frames ≠ []) :
    Ballot members target r spoke heard'
      { m with
        voteOutSessions := m.voteOutSessions.insert target s
        pending := m.pending ++ frames } := by
  refine ⟨h.self, ?_, h.kept, h.within, fun _ _ => hin, ?_, ?_, ?_, ?_, h.closed⟩
  · intro f hf
    rcases List.mem_append.mp hf with hf | hf
    · exact (h.frames f hf).imp_right fun ⟨he, x, hx⟩ => ⟨he, x, hmono x hx⟩
    · exact hframes f hf
  · intro s' hs'
    rw [AList.lookup_insert] at hs'
    cases hs'
    exact ht
  · intro s' hs'
    rw [AList.lookup_insert] at hs'
    cases hs'
    exact hb
  · exact fun _ _ => ⟨s, AList.lookup_insert ..⟩
  · exact fun _ hout => absurd hin hout

/-- Nothing but what was heard changes. -/
theorem Ballot.hear (h : Ballot members target r spoke heard m) {sender : ReplicaID}
    (hs : target ∈ m.membershipList →
      ∃ s, m.voteOutSessions.lookup target = some s ∧ sender ∈ s.ackedBy) :
    Ballot members target r spoke (fun x => heard x ∨ x = sender) m := by
  refine ⟨h.self, ?_, h.kept, h.within, h.listed, ?_, h.backed, ?_, h.removed, h.closed⟩
  · exact fun f hf => (h.frames f hf).imp_right fun ⟨he, x, hx⟩ => ⟨he, x, Or.inl hx⟩
  · intro s hl
    have ht := h.tally s hl
    refine ⟨ht.voters, ht.unopposed, ht.nodup, ?_, ht.own⟩
    rintro x (hx | rfl)
    · exact ht.heard x hx
    · obtain ⟨s', hl', hx⟩ := hs (h.listed s hl)
      rw [hl] at hl'
      cases hl'
      exact hx
  · intro _ hin
    obtain ⟨s, hl, _⟩ := hs hin
    exact ⟨s, hl⟩

theorem Ballot.call_voteOut (h : Ballot members target r spoke heard m)
    (hu : Undecided members target m) :
    Ballot members target r spoke heard (m.call (.voteOut target)) ∧
      Undecided members target (m.call (.voteOut target)) := by
  rw [call]
  cases hv : m.voteOut target with
  | error err => exact ⟨h, hu⟩
  | ok m' =>
    obtain ⟨hself, hin, hnone, rfl⟩ := voteOut_eq_ok hv
    have hunheard : ∀ x, ¬heard x := by
      intro x hx
      obtain ⟨s, hs⟩ := h.engaged (Or.inl ⟨x, hx⟩) hin
      rw [hnone] at hs
      cases hs
    refine ⟨h.record [.voteOut target] (by simp) (fun _ hx => hx) hin ?_ (by simp), ?_⟩
    · exact ⟨h.kept hin, rfl, List.nodup_singleton _, fun x hx => absurd hx (hunheard x),
        List.mem_singleton.mpr h.self.symm⟩
    · intro s hs
      have hlookup : (m.voteOutSessions.insert target ⟨m.membershipList, [m.self], []⟩).lookup
          target = some s := hs
      rw [AList.lookup_insert] at hlookup
      cases hlookup
      rw [VoteOutSession.needed, h.kept hin]
      simp only [List.length_singleton]
      omega

theorem Ballot.call_checkVoteOut (h : Ballot members target r spoke heard m) :
    Ballot members target r spoke heard (m.call (.checkVoteOut target)) ∧
      Undecided members target (m.call (.checkVoteOut target)) := h.check

/-- A second look at a session that was closed changes no more than the first one did. -/
theorem Ballot.call_recheckVoteOut (h : Ballot members target r spoke heard m)
    (hu : Undecided members target m) (i : ℕ) :
    Ballot members target r spoke heard (m.call (.recheckVoteOut i)) ∧
      Undecided members target (m.call (.recheckVoteOut i)) := by
  rw [call]
  cases hc : m.closedVoteOuts[i]? with
  | none => exact ⟨h, hu⟩
  | some p =>
    obtain ⟨rfl, hn, hout⟩ := h.closed p (List.mem_of_getElem? hc)
    dsimp only
    unfold recheckVoteOut
    rw [if_neg (not_not_intro hn)]
    split
    · exact ⟨h, hu⟩
    · have h' := h.removeMember fun hin => h.removed hin hout
      exact ⟨⟨h'.self, h'.frames, h'.kept, h'.within, h'.listed, h'.tally, h'.backed, h'.engaged,
        h'.removed, h'.closed⟩, undecided_removeMember members p.1 m⟩

/-- An Ack is added to the tally of the session. -/
theorem Tally.insert {s : VoteOutSession} (h : Tally members r heard s) (sender : ReplicaID) :
    Tally members r (fun x => heard x ∨ x = sender)
      { s with ackedBy := s.ackedBy.insert sender } := by
  refine ⟨h.voters, h.unopposed, h.nodup.insert, ?_, List.mem_insert_of_mem h.own⟩
  rintro x (hx | rfl)
  · exact List.mem_insert_of_mem (h.heard x hx)
  · exact List.mem_insert_self

theorem Ballot.handleVoteOutAck (h : Ballot members target r spoke heard m)
    (hu : Undecided members target m) {sender : ReplicaID} (hs : spoke sender)
    (hheard : ∃ x, heard x) :
    Ballot members target r spoke (fun x => heard x ∨ x = sender)
        (m.handleVoteOutAck sender target) ∧
      Undecided members target (m.handleVoteOutAck sender target) := by
  unfold Manager.handleVoteOutAck
  cases hl : m.voteOutSessions.lookup target with
  | none =>
    refine ⟨h.hear fun hin => ?_, hu⟩
    obtain ⟨s, hs⟩ := h.engaged (Or.inl hheard) hin
    rw [hl] at hs
    cases hs
  | some s =>
    have hb : ∀ x ∈ s.ackedBy.insert sender, spoke x ∨ x = m.self ∧ m.pending ++ [] ≠ [] := by
      intro x hx
      rw [List.append_nil]
      rcases List.mem_insert_iff.mp hx with rfl | hx
      · exact Or.inl hs
      · exact h.backed s hl x hx
    have h' := h.record [] (by simp) (fun _ hx => Or.inl hx) (h.listed s hl)
      ((h.tally s hl).insert sender) hb
    rw [List.append_nil] at h'
    exact h'.check

/-- The session that a `VoteOut` is counted in, with the sender and this replica added. -/
theorem Ballot.answered (h : Ballot members target r spoke heard m)
    (hin : target ∈ m.membershipList) (sender : ReplicaID) :
    Tally members r (fun x => heard x ∨ x = sender)
      (((m.voteOutSessions.lookup target).getD ⟨m.membershipList, [], []⟩).answered true
        sender m.self) := by
  rw [h.self]
  cases hl : m.voteOutSessions.lookup target with
  | none =>
    have hunheard : ∀ x, ¬heard x := by
      intro x hx
      obtain ⟨s, hs⟩ := h.engaged (Or.inl ⟨x, hx⟩) hin
      rw [hl] at hs
      cases hs
    refine ⟨h.kept hin, rfl, List.nodup_nil.insert.insert, ?_, List.mem_insert_self⟩
    rintro x (hx | rfl)
    · exact absurd hx (hunheard x)
    · exact List.mem_insert_of_mem List.mem_insert_self
  | some s =>
    have ht := (h.tally s hl).insert sender
    exact ⟨ht.voters, ht.unopposed, ht.nodup.insert,
      fun x hx => List.mem_insert_of_mem (ht.heard x hx), List.mem_insert_self⟩

theorem Ballot.handleVoteOut (h : Ballot members target r spoke heard m)
    (hu : Undecided members target m) (hr : r ≠ target) {sender : ReplicaID}
    (hs : spoke sender) :
    Ballot members target r spoke (fun x => heard x ∨ x = sender)
        (m.handleVoteOut true sender target) ∧
      Undecided members target (m.handleVoteOut true sender target) := by
  unfold Manager.handleVoteOut
  have hself : target ≠ m.self := by
    rw [h.self]
    exact hr.symm
  rw [if_neg hself]
  split
  · rename_i hown
    refine ⟨h.hear fun hin => ?_, hu⟩
    obtain ⟨s, hl⟩ := h.engaged (Or.inr (Or.inl (h.self ▸ hown ▸ hs))) hin
    refine ⟨s, hl, ?_⟩
    rw [hown, h.self]
    exact (h.tally s hl).own
  · split
    · rename_i hmember
      have hout : target ∉ m.membershipList := by simpa [isMember] using hmember
      exact ⟨h.hear fun hin => absurd hin hout, hu⟩
    · rename_i hmember
      have hin : target ∈ m.membershipList := by simpa [isMember] using hmember
      refine (h.record [.voteOutAck target] ?_ (fun _ hx => Or.inl hx) hin
        (h.answered hin sender) ?_).check
      · intro f hf
        exact Or.inr ⟨List.mem_singleton.mp hf, sender, Or.inr rfl⟩
      intro x hx
      rcases List.mem_insert_iff.mp hx with rfl | hx
      · exact Or.inr ⟨rfl, by simp⟩
      · rcases List.mem_insert_iff.mp hx with rfl | hx
        · exact Or.inl hs
        · cases hl : m.voteOutSessions.lookup target with
          | none =>
            rw [hl] at hx
            cases hx
          | some s =>
            rw [hl] at hx
            exact (h.backed s hl x hx).imp_right fun hp => ⟨hp.1, by simp⟩

/-- Somebody else has sent a message. -/
theorem Ballot.mono (h : Ballot members target r spoke heard m) {spoke' : ReplicaID → Prop}
    (hsub : ∀ x, spoke x → spoke' x) (hr : spoke' r → spoke r) :
    Ballot members target r spoke' heard m := by
  have hbacked : ∀ x, Backed spoke m x → Backed spoke' m x := fun x => Or.imp_left (hsub x)
  refine ⟨h.self, h.frames, h.kept, h.within, h.listed, h.tally, ?_, ?_, ?_, h.closed⟩
  · exact fun s hl x hx => hbacked x (h.backed s hl x hx)
  · exact fun he => h.engaged (he.imp_right (Or.imp_left hr))
  · intro hin hout
    obtain ⟨voters, hnodup, hlen, hv⟩ := h.removed hin hout
    exact ⟨voters, hnodup, hlen, fun x hx => hbacked x (hv x hx)⟩

/-- This replica has sent a frame that was waiting. -/
theorem Ballot.unqueue (h : Ballot members target r spoke heard m) {f : VoteFrame}
    (hf : f ∈ m.pending) :
    Ballot members target r (fun x => spoke x ∨ x = r) heard (VoteGroup.unqueue m f) := by
  have hbacked : ∀ x, Backed spoke m x →
      Backed (fun x => spoke x ∨ x = r) (VoteGroup.unqueue m f) x := by
    rintro x (hx | ⟨hx, _⟩)
    · exact Or.inl (Or.inl hx)
    · exact Or.inl (Or.inr (hx.trans h.self))
  refine ⟨h.self, ?_, h.kept, h.within, h.listed, h.tally, ?_, ?_, ?_, h.closed⟩
  · exact fun g hg => h.frames g (List.mem_of_mem_erase hg)
  · exact fun s hl x hx => hbacked x (h.backed s hl x hx)
  · exact fun _ => h.engaged (Or.inr (Or.inr ⟨h.self.symm, List.ne_nil_of_mem hf⟩))
  · intro hin hout
    obtain ⟨voters, hnodup, hlen, hv⟩ := h.removed hin hout
    exact ⟨voters, hnodup, hlen, fun x hx => hbacked x (hv x hx)⟩

end Manager

namespace VoteGroup
open VoteNet

variable {G : VoteGroup} {target : ReplicaID} {net net' : VoteNet} {act : Action}

/-- The actions of votes on the removal of one target. -/
def VotesOn (target : ReplicaID) : Action → Prop
  | .call _ (.voteOut t) | .call _ (.checkVoteOut t) | .call _ (.cancelVoteOut t _) => t = target
  | .call _ (.recheckVoteOut _) => True
  | .call _ _ => False
  | _ => True

/-- No caller gives up, no frame is lost, and whoever handles a `VoteOut` is not the target
and answers with an Ack. -/
def Unopposed (target : ReplicaID) (net : VoteNet) : Action → Prop
  | .call _ (.cancelVoteOut _ _) => False
  | .lose _ _ => False
  | .handle r i suspected => net.cast.sent[i]?.map CastMessage.body = some (.voteOut target) →
      r ≠ target ∧ suspected = true
  | _ => True

instance (target : ReplicaID) (act : Action) : Decidable (VotesOn target act) := by
  unfold VotesOn
  split <;> infer_instance

instance (target : ReplicaID) (net : VoteNet) (act : Action) :
    Decidable (Unopposed target net act) :=
  match act with
  | .call _ (.cancelVoteOut _ _) | .lose _ _ => isFalse not_false
  | .handle _ _ _ => inferInstanceAs (Decidable (_ → _ ∧ _))
  | .send _ _ | .call _ (.voteOut _) | .call _ (.checkVoteOut _) | .call _ (.recheckVoteOut _)
  | .call _ (.voteIn _ _) | .call _ (.checkVoteIn _) | .call _ (.recheckVoteIn _)
  | .call _ (.cancelVoteIn _ _) => isTrue trivial

/-- All vote messages have been sent and have been handled by these replicas. -/
def Delivered (net : VoteNet) (functioning : List ReplicaID) : Prop :=
  ∀ r ∈ functioning, (net.manager r).pending = [] ∧
    ∀ i ∈ List.range net.cast.sent.length, i ∈ net.cast.handled r

instance (net : VoteNet) (functioning : List ReplicaID) :
    Decidable (Delivered net functioning) := by
  unfold Delivered
  infer_instance

/-- The target itself starts no vote on its removal. -/
theorem call_new_of_votesOn {members : List ReplicaID} {size : ℕ} {r : ReplicaID}
    {c : Manager.Call} (h : VotesOn target (.call r c)) :
    (Manager.new target members size).call c = Manager.new target members size := by
  cases c with
  | voteOut t =>
    cases h
    simp [Manager.call, Manager.voteOut, Manager.new, Except.toOption]
  | checkVoteOut t => rfl
  | recheckVoteOut i => rfl
  | cancelVoteOut t err => rfl
  | voteIn t addr => exact absurd h not_false
  | checkVoteIn t => exact absurd h not_false
  | recheckVoteIn i => exact absurd h not_false
  | cancelVoteIn t err => exact absurd h not_false

/-- The target takes no part, and everybody else has a ballot. -/
structure Unanimous (G : VoteGroup) (target : ReplicaID) (net : VoteNet) : Prop where
  causal : net.cast.Causal
  silent : net.manager target = Manager.new target G.members G.initialGroupSize
  bodies : ∀ m ∈ net.cast.sent,
    m.body = .voteOut target ∨ m.body = .voteOutAck target ∧ m.deps ≠ []
  ballots : ∀ r ∈ G.members, r ≠ target → Manager.Ballot G.members target r (spoke net.cast)
    (heard net.cast r) (net.manager r) ∧ Manager.Undecided G.members target (net.manager r)

theorem unanimous_start : G.Unanimous target G.start where
  causal := Cast.causal_empty
  silent := rfl
  bodies := by simp [start, Cast.empty]
  ballots := by
    intro r _ _
    have hs : spoke (Cast.empty : Cast ReplicaID VoteFrame) = fun _ => False := by
      funext x
      simp [spoke, Cast.empty]
    have hh : heard (Cast.empty : Cast ReplicaID VoteFrame) r = fun _ => False := by
      funext x
      simp [heard, Cast.empty]
    refine ⟨?_, by simp [Manager.Undecided, start, Manager.new]⟩
    rw [start, hs, hh]
    exact Manager.ballot_new G.members target r G.initialGroupSize

theorem Unanimous.silent_update (h : G.Unanimous target net) {r : ReplicaID} {m : Manager}
    (hm : r = target → m = Manager.new target G.members G.initialGroupSize) :
    Function.update net.manager r m target =
      Manager.new target G.members G.initialGroupSize := by
  by_cases hr : target = r
  · rw [hr, Function.update_self, ← hr]
    exact hm hr.symm
  · rw [Function.update_of_ne hr]
    exact h.silent

theorem Unanimous.call (h : G.Unanimous target net) {r : ReplicaID} {c : Manager.Call}
    (hc : VotesOn target (.call r c)) (hu : Unopposed target net (.call r c)) :
    G.Unanimous target
      ⟨Function.update net.manager r ((net.manager r).call c), net.cast⟩ := by
  refine ⟨h.causal, h.silent_update ?_, h.bodies, ?_⟩
  · rintro rfl
    rw [h.silent]
    exact call_new_of_votesOn hc
  · refine forall_mem_update (P := fun p (m : Manager) => p ≠ target →
      Manager.Ballot G.members target p (spoke net.cast) (heard net.cast p) m ∧
        Manager.Undecided G.members target m) h.ballots ?_
    intro hr hne
    obtain ⟨hb, hund⟩ := h.ballots r hr hne
    cases c with
    | voteOut t =>
      cases hc
      exact hb.call_voteOut hund
    | checkVoteOut t =>
      cases hc
      exact hb.call_checkVoteOut
    | recheckVoteOut i => exact hb.call_recheckVoteOut hund i
    | cancelVoteOut t err => exact absurd hu not_false
    | voteIn t addr => exact absurd hc not_false
    | checkVoteIn t => exact absurd hc not_false
    | recheckVoteIn i => exact absurd hc not_false
    | cancelVoteIn t err => exact absurd hc not_false

theorem Unanimous.send (h : G.Unanimous target net) {r : ReplicaID} {frame : VoteFrame}
    (hr : r ∈ G.members) (hf : frame ∈ (net.manager r).pending) :
    G.Unanimous target ⟨Function.update net.manager r (unqueue (net.manager r) frame),
      net.cast.send r frame⟩ := by
  have hne : r ≠ target := by
    rintro rfl
    rw [h.silent] at hf
    cases hf
  obtain ⟨hb, hund⟩ := h.ballots r hr hne
  refine ⟨h.causal.send r frame, h.silent_update fun he => absurd he hne, ?_, ?_⟩
  · intro m hm
    rcases List.mem_append.mp hm with hm | hm
    · exact h.bodies m hm
    · rw [List.mem_singleton.mp hm]
      refine (hb.frames frame hf).imp_right ?_
      rintro ⟨he, x, i, hi, _⟩
      refine ⟨he, List.ne_nil_of_mem ((Cast.mem_known (h.causal.bound r i hi)).mpr (Or.inl hi))⟩
  · intro p hp hpt
    rw [spoke_send, heard_send h.causal]
    by_cases hpr : p = r
    · subst hpr
      dsimp only
      rw [Function.update_self]
      exact ⟨hb.unqueue hf, hund⟩
    · dsimp only
      rw [Function.update_of_ne hpr]
      obtain ⟨hb', hund'⟩ := h.ballots p hp hpt
      exact ⟨hb'.mono (fun x hx => Or.inl hx) fun hx => hx.resolve_right hpr, hund'⟩

theorem Unanimous.handle (h : G.Unanimous target net) {r : ReplicaID} {i : ℕ} {suspected : Bool}
    {m : CastMessage ReplicaID VoteFrame} {cast : Cast ReplicaID VoteFrame}
    (hu : Unopposed target net (.handle r i suspected))
    (hc : net.cast.handle r i = some (m, cast)) :
    G.Unanimous target ⟨Function.update net.manager r
      ((net.manager r).dispatch suspected m.sender m.body), cast⟩ := by
  obtain ⟨hm, _, hdeps, hcast⟩ := Cast.handle_eq_some hc
  have hmem : m ∈ net.cast.sent := List.mem_of_getElem? hm
  have hvote : m.body = .voteOut target → r ≠ target ∧ suspected = true := by
    intro hbody
    refine hu ?_
    rw [hm, Option.map_some, hbody]
  refine ⟨h.causal.handle hc, h.silent_update ?_, ?_, ?_⟩
  · rintro rfl
    rw [h.silent]
    rcases h.bodies m hmem with hbody | ⟨hbody, _⟩
    · exact absurd rfl (hvote hbody).1
    · rw [hbody]
      rfl
  · rw [hcast]
    exact h.bodies
  · intro p hp hpt
    rw [spoke_handle hc]
    by_cases hpr : p = r
    · subst hpr
      obtain ⟨hb, hund⟩ := h.ballots p hp hpt
      have hs : spoke net.cast m.sender := ⟨m, hmem, rfl⟩
      dsimp only
      rw [heard_handle hc, Function.update_self]
      rcases h.bodies m hmem with hbody | ⟨hbody, hne⟩
      · rw [hbody, (hvote hbody).2, Manager.dispatch]
        exact hb.handleVoteOut hund hpt hs
      · rw [hbody, Manager.dispatch]
        refine hb.handleVoteOutAck hund hs ?_
        obtain ⟨j, hj⟩ := List.exists_mem_of_ne_nil _ hne
        have hjh := hdeps j hj
        exact ⟨_, j, hjh, _, List.getElem?_eq_getElem (h.causal.bound p j hjh), rfl⟩
    · dsimp only
      rw [heard_handle_of_ne hc hpr, Function.update_of_ne hpr]
      exact h.ballots p hp hpt

theorem unanimous_step (h : G.Unanimous target net)
    (hok : VotesOn target act ∧ Unopposed target net act) (hs : G.step net act = some net') :
    G.Unanimous target net' := by
  obtain ⟨hr, hstep⟩ := stepped hs
  cases hstep with
  | call r c => exact h.call hok.1 hok.2
  | send r hf => exact h.send hr hf
  | lose r hf => exact absurd hok.2 not_false
  | handle r suspected hc => exact h.handle hok.2 hc

/-- Whoever has heard every message has heard all whose Ack counts anywhere. -/
theorem heard_of_delivered {functioning : List ReplicaID} (hd : Delivered net functioning)
    {p q : ReplicaID} (hp : p ∈ functioning) (hq : q ∈ functioning) {x : ReplicaID}
    (hx : Manager.Backed (spoke net.cast) (net.manager p) x) : heard net.cast q x := by
  rcases hx with ⟨m, hm, rfl⟩ | ⟨_, hpending⟩
  · obtain ⟨i, hi⟩ := List.mem_iff_getElem?.mp hm
    have hlt := (List.getElem?_eq_some_iff.mp hi).1
    exact ⟨i, (hd q hq).2 i (List.mem_range.mpr hlt), m, hi, rfl⟩
  · exact absurd (hd p hp).1 hpending

theorem three_le_length {p q : ReplicaID} (hp : p ∈ G.members) (hq : q ∈ G.members)
    (ht : target ∈ G.members) (hpq : p ≠ q) (hpt : p ≠ target) (hqt : q ≠ target) :
    3 ≤ G.members.length := by
  have hnodup : [p, q, target].Nodup := by simp [hpq, hpt, hqt]
  have hsub : [p, q, target] ⊆ G.members := by simp [hp, hq, ht]
  exact (List.subperm_of_subset hnodup hsub).length_le

/-- A replica that has removed the target and one that has not cannot both have heard
everything. -/
theorem Unanimous.not_split (h : G.Unanimous target net) {functioning : List ReplicaID}
    (hsub : functioning ⊆ G.members) (hd : Delivered net functioning) {p q : ReplicaID}
    (hp : p ∈ functioning) (hq : q ∈ functioning) (hpt : p ≠ target) (hqt : q ≠ target)
    (hout : target ∉ (net.manager p).membershipList) :
    target ∉ (net.manager q).membershipList := by
  intro hin
  obtain ⟨hbp, _⟩ := h.ballots p (hsub hp) hpt
  obtain ⟨hbq, hund⟩ := h.ballots q (hsub hq) hqt
  have ht : target ∈ G.members := hbq.within hin
  obtain ⟨voters, hnodup, hlen, hv⟩ := hbp.removed ht hout
  obtain ⟨v, hvm⟩ : ∃ v, v ∈ voters := List.exists_mem_of_length_pos (by omega)
  have hheard : ∀ x ∈ voters, heard net.cast q x :=
    fun x hx => heard_of_delivered hd hp hq (hv x hx)
  obtain ⟨s, hs⟩ := hbq.engaged (Or.inl ⟨v, hheard v hvm⟩) hin
  have hle : voters.length ≤ s.ackedBy.length :=
    (List.subperm_of_subset hnodup fun x hx => (hbq.tally s hs).heard x (hheard x hx)).length_le
  have hthree := three_le_length (hsub hp) (hsub hq) ht (fun he => hout (he ▸ hin)) hpt hqt
  rcases hund s hs with hlt | hsmall
  · rw [VoteOutSession.needed, (hbq.tally s hs).voters] at hlt
    omega
  · omega

/-- In every run of votes on one target that nobody opposes, the functioning replicas that
have handled every vote message have all removed the target, or none of them has. -/
theorem voteOut_agreed_of_unopposed (G : VoteGroup) (target : ReplicaID) {net : VoteNet}
    (hr : Reach G.step (fun net act => VotesOn target act ∧ Unopposed target net act)
      G.start net) {functioning : List ReplicaID} (hsub : functioning ⊆ G.members)
    (hd : Delivered net functioning) :
    (∀ r ∈ functioning, r ≠ target → target ∉ (net.manager r).membershipList) ∨
      ∀ r ∈ functioning, r ≠ target → target ∈ (net.manager r).membershipList := by
  have h : G.Unanimous target net :=
    hr.invariant unanimous_start fun _ _ _ h hok hs => unanimous_step h hok hs
  by_cases hall : ∀ r ∈ functioning, r ≠ target → target ∈ (net.manager r).membershipList
  · exact Or.inr hall
  · push Not at hall
    obtain ⟨p, hp, hpt, hout⟩ := hall
    exact Or.inl fun q hq hqt => h.not_split hsub hd hp hq hpt hqt hout

def fourMembers : VoteGroup := ⟨[[1], [2], [3], [5]], by decide, 4⟩

/-- Two replicas vote the fourth one out at the same time. -/
def twoInitiators : List Action :=
  [.call [1] (.voteOut [5]), .send [1] (.voteOut [5]), .call [1] (.checkVoteOut [5]),
   .call [2] (.voteOut [5]), .send [2] (.voteOut [5]), .call [2] (.checkVoteOut [5]),
   .handle [1] 0 true, .handle [2] 1 true, .handle [3] 0 true, .send [3] (.voteOutAck [5]),
   .handle [3] 2 true, .handle [1] 1 true, .send [1] (.voteOutAck [5]), .handle [2] 0 true,
   .send [2] (.voteOutAck [5]), .handle [1] 3 true, .handle [2] 4 true, .handle [1] 2 true,
   .handle [1] 4 true, .handle [2] 2 true, .handle [2] 3 true, .handle [3] 1 true,
   .handle [3] 3 true, .handle [3] 4 true]

theorem voteOut_agreed_of_unopposed_twoInitiators :
    ∃ net, Reach fourMembers.step (fun net act => VotesOn [5] act ∧ Unopposed [5] net act)
        fourMembers.start net ∧ Delivered net [[1], [2], [3]] ∧
      [5] ∉ (net.manager [1]).membershipList ∧
      ((∀ r ∈ [[1], [2], [3]], r ≠ [5] → [5] ∉ (net.manager r).membershipList) ∨
        ∀ r ∈ [[1], [2], [3]], r ≠ [5] → [5] ∈ (net.manager r).membershipList) := by
  have hrun : (execute fourMembers.step
      (fun net act => VotesOn [5] act ∧ Unopposed [5] net act) fourMembers.start
      twoInitiators).map (fun net => decide (Delivered net [[1], [2], [3]] ∧
        [5] ∉ (net.manager [1]).membershipList)) = some true := by
    decide +kernel
  obtain ⟨net, -, hr, hc⟩ := reach_of_execute hrun
  obtain ⟨hd, hout⟩ := of_decide_eq_true hc
  exact ⟨net, hr, hd, hout, voteOut_agreed_of_unopposed fourMembers [5] hr (by decide) hd⟩

def fiveMembers : VoteGroup := ⟨[[1], [2], [3], [4], [5]], by decide, 5⟩

/-- The Acks of the second and the third replica reach the first one before the Nack of the
fourth, which everybody else handles first. -/
def nackOvertaken : List Action :=
  [.call [1] (.voteOut [5]), .send [1] (.voteOut [5]), .call [1] (.checkVoteOut [5]),
   .handle [1] 0 true, .handle [2] 0 true, .send [2] (.voteOutAck [5]), .handle [2] 1 true,
   .handle [3] 0 true, .send [3] (.voteOutAck [5]), .handle [3] 2 true,
   .handle [4] 0 false, .send [4] (.voteOutNack [5]), .handle [4] 3 false,
   .handle [1] 1 true, .handle [1] 2 true, .handle [1] 3 true,
   .handle [2] 3 true, .handle [2] 2 true, .handle [3] 3 true, .handle [3] 1 true,
   .handle [4] 1 false, .handle [4] 2 false]

theorem voteOut_disagreement_after_nack :
    ∃ net, Reach fiveMembers.step (fun _ act => VotesOn [5] act) fiveMembers.start net ∧
      Delivered net [[1], [2], [3], [4]] ∧
      [5] ∉ (net.manager [1]).membershipList ∧ [5] ∈ (net.manager [2]).membershipList := by
  have hrun : (execute fiveMembers.step (fun _ act => VotesOn [5] act) fiveMembers.start
      nackOvertaken).map (fun net => decide (Delivered net [[1], [2], [3], [4]] ∧
        [5] ∉ (net.manager [1]).membershipList ∧
        [5] ∈ (net.manager [2]).membershipList)) = some true := by
    decide +kernel
  obtain ⟨net, -, hr, hc⟩ := reach_of_execute hrun
  exact ⟨net, hr, of_decide_eq_true hc⟩

end VoteGroup
end Comlink
