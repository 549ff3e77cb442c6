import Comlink.ClockAncestry
import Comlink.RegistryConvergence

/-!
# The messages of a group

What the members of a group have sent is a history: every message names parents that its
sender had delivered, under the one conversation, and clocks grow from a message to its
children. Each member delivers from this history, so that the registries of the members
agree wherever concurrent operations on one name do the same to it.
-/
namespace Comlink
open GuardedRuns Relation VectorClock

namespace Conversation

/-- The identity of a conversation never changes. -/
theorem convID_handle (c : Conversation) (req : Request) : (c.handle req).convID = c.convID := by
  cases req with
  | send io payload => rw [handle, handleSend_eq]
  | incoming io origin frame =>
    rcases frame.envelope_or with ⟨env, rfl⟩ | hframe
    · exact (Moves.untouched (moves_incoming c io origin env)).convID
    · rw [handle, handleIncoming_eq hframe]
  | maskout r => rfl
  | maskin r => rfl
  | replayLog => rw [handle, replayLog, handleReplay, foldl_replayEntry_frame]
  | freezeMember r =>
    rw [handle, freezeMember]
    cases c.membership.freeze r <;> rfl
  | addMember r =>
    rw [handle, addMember]
    cases c.membership.add r <;> rfl
  | requestMissing missing => rw [handle, handleRequestMissing_eq]
  | truncateLog b => rfl

end Conversation

namespace Group
open Conversation

variable {G : Group} {net net' : Network} {p q : ReplicaID} {e : Envelope}

/-- All that the members have sent. -/
def history (G : Group) (net : Network) : Finset Envelope :=
  (G.members.flatMap fun p => (net p).issued).toFinset

theorem mem_history : e ∈ G.history net ↔ ∃ p ∈ G.members, e ∈ (net p).issued := by
  rw [history, List.mem_toFinset, List.mem_flatMap]

/-- Each member is in the conversation and stamps its messages with it. -/
structure Stamped (convID : ConversationID) (c : Conversation) : Prop where
  conversation : c.convID = convID
  issued : ∀ e ∈ c.issued, e.id.conversationId = some convID

structure Sending (G : Group) (net : Network) : Prop where
  invariant : G.Invariant net
  below : G.OwnParentsBelow net
  stamped : ∀ p ∈ G.members, Stamped G.convID (net p)
  run : ∀ p ∈ G.members, Reach serve (fun _ _ => True) (G.start p) (net p)

theorem sending_start (G : Group) : G.Sending G.start where
  invariant := invariant_start G
  below := ownParentsBelow_start G
  stamped _ _ := ⟨rfl, nofun⟩
  run _ _ := .refl

theorem Stamped.handle {convID : ConversationID} {members : List ReplicaID} {c : Conversation}
    {req : Request} (h : Stamped convID c) (hl : Live members c) (hs : req.isStatic = true) :
    Stamped convID (c.handle req) := by
  refine ⟨(convID_handle c req).trans h.conversation, ?_⟩
  have heff := hl.effect req hs
  generalize c.handle req = c' at heff ⊢
  cases heff with
  | quiet hq =>
    rw [hq.issued]
    exact h.issued
  | issue henv hi hslot hlog =>
    intro e he
    rcases List.mem_append.mp he with he | he
    · exact h.issued e he
    · rw [List.mem_singleton.mp he, (nextEnvelope_eq_some henv).1, h.conversation]
  | receive hm =>
    rw [(hm (fun _ => True) (fun _ _ _ => trivial) trivial).issued]
    exact h.issued

theorem Sending.step (h : G.Sending net) {a : NetAction} (hs : a.request.isStatic = true)
    (hstep : G.netStep net a = some net') : G.Sending net' := by
  have hinv := h.invariant.step hs hstep
  have hbelow := h.below.step h.invariant hs hstep
  obtain ⟨hp, -, rfl⟩ := netStep_eq_some hstep
  refine ⟨hinv, hbelow, ?_, ?_⟩
  · exact forall_members_update ((h.stamped _ hp).handle (h.invariant.live _ hp) hs) h.stamped
  · refine forall_members_update (P := fun p c => Reach serve (fun _ _ => True) (G.start p) c)
      ?_ h.run
    exact (h.run _ hp).tail ⟨.request a.request, trivial, rfl⟩

theorem sending_of_reach
    (hr : Reach G.netStep (fun _ act => act.request.isStatic = true) G.start net) :
    G.Sending net :=
  hr.invariant (P := G.Sending) (sending_start G) fun _ _ _ h hs hstep => h.step hs hstep

theorem Sending.grown (h : G.Sending net) (hp : p ∈ G.members) :
    (net p).membership.Grown (Membership.ofReplicas G.members) := by
  refine .of_eq ?_
  rw [Membership.allReplicas_ofReplicas, (h.invariant.live p hp).members_eq]

/-- A message that was sent is a node of its sender's graph. -/
theorem Sending.exists_node (h : G.Sending net) (he : e ∈ G.history net) :
    ∃ p ∈ G.members, ∃ n ∈ (net p).graph.nodes, n.envelope = e ∧
      Graph.WellDerived (Membership.ofReplicas G.members) n := by
  obtain ⟨p, hp, hissued⟩ := mem_history.mp he
  obtain ⟨-, n, hn, rfl⟩ := h.invariant.own p hp e hissued
  exact ⟨p, hp, n, hn, rfl, ((h.invariant.live p hp).sound.derived n hn).grown (h.grown hp)⟩

theorem Sending.mem_history_of_node (h : G.Sending net) (hp : p ∈ G.members) {n : Node}
    (hn : n ∈ (net p).graph.nodes) : n.envelope ∈ G.history net := by
  obtain ⟨hq, hissued⟩ := h.invariant.own_node hp hn rfl
  exact mem_history.mpr ⟨_, hq, hissued⟩

/-- The parents that a message names are messages of the group, with clocks below its own. -/
theorem Sending.exists_parent (h : G.Sending net) (he : e ∈ G.history net) {w : Key}
    (hw : w ∈ Graph.derivedParents (Membership.ofReplicas G.members) e) :
    ∃ a ∈ G.history net, (Membership.ofReplicas G.members).keyOf a = some w ∧
      happensBefore a.id.vectorClock e.id.vectorClock = true := by
  obtain ⟨p, hp, n, hn, rfl, hd⟩ := h.exists_node he
  have hsound := (h.invariant.live p hp).sound
  rw [hd.derivedParents] at hw
  obtain ⟨x, hx, rfl⟩ := Graph.has_iff.mp (hsound.closed hn hw)
  refine ⟨x.envelope, h.mem_history_of_node hp hx, ?_, ?_⟩
  · exact ((hsound.derived x hx).grown (h.grown hp)).keyOf
  · exact h.below.happensBefore h.invariant hp (.single ⟨hx, hn, hw⟩)

theorem Sending.eq_of_keyOf (h : G.Sending net) {a : Envelope} (ha : a ∈ G.history net)
    (he : e ∈ G.history net) (hk : (Membership.ofReplicas G.members).keyOf a =
      (Membership.ofReplicas G.members).keyOf e) : a = e := by
  obtain ⟨p, hp, n, hn, rfl, hd⟩ := h.exists_node ha
  obtain ⟨q, hq, n', hn', rfl, hd'⟩ := h.exists_node he
  rw [hd.keyOf, hd'.keyOf] at hk
  exact h.invariant.envelope_eq_of_key hp hq hn hn' (Option.some.inj hk)

theorem Sending.happensBefore (h : G.Sending net) {a : Envelope}
    (ha : Precedes (Membership.ofReplicas G.members) (G.history net) a e) :
    happensBefore a.id.vectorClock e.id.vectorClock = true := by
  have hparent : ∀ {a e}, ParentIn (Membership.ofReplicas G.members) (G.history net) a e →
      VectorClock.happensBefore a.id.vectorClock e.id.vectorClock = true := by
    rintro a e ⟨ha, he, w, hw, hkey⟩
    obtain ⟨a', ha', hkey', hbefore⟩ := h.exists_parent he hw
    rwa [h.eq_of_keyOf ha' ha (hkey'.trans hkey.symm)] at hbefore
  induction ha with
  | single hp => exact hparent hp
  | tail _ hp ih => exact happensBefore_trans ih (hparent hp)

theorem Sending.history (h : G.Sending net) :
    History (Membership.ofReplicas G.members) G.convID (G.history net) := by
  refine ⟨⟨fun e he => ?_, fun e he e' he' => h.eq_of_keyOf he he', fun e he w hw => ?_⟩,
    fun e hee => ?_⟩
  · obtain ⟨p, hp, hissued⟩ := mem_history.mp he
    obtain ⟨q, hq, n, hn, rfl, hd⟩ := h.exists_node he
    refine ⟨(h.stamped p hp).issued _ hissued, n.senderSlot, hd.sender, hd.slot, hd.slot_lt,
      hd.length_le, ?_⟩
    rw [hd.seq]
    exact hd.seq_pos.ne'
  · obtain ⟨a, ha, hkey, -⟩ := h.exists_parent he hw
    exact ⟨a, ha, hkey⟩
  · obtain ⟨-, i, hi⟩ := happensBefore_iff.mp (h.happensBefore hee)
    exact Nat.lt_irrefl _ hi

/-- Each member delivers from the history of the group. -/
theorem Sending.applied (h : G.Sending net) (hp : p ∈ G.members) :
    Applied G.convID G.members (G.history net) (net p).delivered :=
  ⟨p, G.members, [], .empty, _, _, new_eq_start hp, h.run p hp, h.grown hp,
    fun _ hn => h.mem_history_of_node hp hn, List.Sublist.refl _⟩

/-- In every run of a group, the registries of two members that have delivered the same
operations are the same where concurrent operations on one name do the same to it. -/
theorem members_agree (K : FrameCodec) (J : RegistryCodec)
    (hr : Reach G.netStep (fun _ act => act.request.isStatic = true) G.start net)
    (hs : MetadataRegistry.Settling K J G.members (G.history net))
    (hp : p ∈ G.members) (hq : q ∈ G.members)
    (hops : ∀ env, MetadataRegistry.effectOf K J env ≠ none →
      (env ∈ (net p).delivered ↔ env ∈ (net q).delivered)) (name : String) :
    (MetadataRegistry.run K J (net p).delivered).get name =
      (MetadataRegistry.run K J (net q).delivered).get name := by
  have h := sending_of_reach hr
  exact congrFun (MetadataRegistry.get_run_eq h.history hs (h.applied hp) (h.applied hq) hops) name

end Group
end Comlink
