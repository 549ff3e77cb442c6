import Comlink.ArrivalOrder
import Comlink.LostRequests

/-!
# Catching up after a restart

A restarted replica replays its log, announces itself and asks the first peer that
answers for the leaves of the peer's graph. Whatever a received message lacks is asked of
the member that sent it, so as long as the peer sends, every request reaches a log that
holds the message. When nothing is in flight any more, the leaves have arrived, and with
them everything that they presuppose. A request is not repeated, though: a parent that was
asked of somebody else before is not asked of the peer.
-/
namespace Comlink
open GuardedRuns AssociationLists

namespace Graph

variable {g : Graph} {m : Membership} {x child : Node}

theorem exists_child (hx : x ∈ g.nodes) (hleaf : x ∉ g.leaves) :
    ∃ child ∈ g.nodes, x.key ∈ child.parents := by
  by_contra hnone
  refine hleaf (List.mem_filter.mpr ⟨hx, ?_⟩)
  simpa using hnone

theorem Sound.child_after (h : Sound m g) {pre post : List Node}
    (hsplit : g.nodes = pre ++ x :: post) (hchild : child ∈ g.nodes)
    (hparent : x.key ∈ child.parents) : child ∈ post := by
  have hx : x ∈ g.nodes := by simp [hsplit]
  have hnot : x ∉ pre := by
    have hnodup := List.Nodup.of_map _ h.keys
    rw [hsplit] at hnodup
    exact fun hpre => List.disjoint_of_nodup_append hnodup hpre (List.mem_cons_self ..)
  have hbefore : ∀ before rest, before ⊆ pre → g.nodes ≠ before ++ child :: rest := by
    intro before rest hsub hat
    obtain ⟨y, hy, hkey⟩ := has_iff.mp (h.parentsFirst before child rest hat x.key hparent)
    have hyx : y = x := h.eq_of_key (hat ▸ List.mem_append_left _ hy) hx hkey
    exact hnot (hsub (hyx ▸ hy))
  rw [hsplit] at hchild
  rcases List.mem_append.mp hchild with hpre | hrest
  · obtain ⟨a, b, rfl⟩ := List.append_of_mem hpre
    exact absurd (by simp [hsplit]) (hbefore a (b ++ x :: post) (List.subset_append_left ..))
  · rcases List.mem_cons.mp hrest with rfl | hpost
    · exact absurd hsplit (hbefore pre post (List.Subset.refl _))
    · exact hpost

end Graph

namespace Conversation

variable {io : HandlerChoices} {c c' : Conversation} {env : Envelope} {origin : ReplicaID}
variable {todo new : Todo} {k p w : Key} {m : Membership} {convID : ConversationID}
variable {E : Finset Envelope} {members : List ReplicaID}

section Requests

def membershipSenderSeqFromConfig (members : List ReplicaID) (id : MessageID) : Option ℕ :=
  (Membership.ofReplicas members).senderSeq id

/-- `requestLeavesAfterRestart`; a leaf whose number cannot be derived is passed over. -/
def requestLeavesAfterRestart (members : List ReplicaID) (c : Conversation)
    (responder : ReplicaID) (leaves : List MessageID) : Conversation :=
  leaves.foldl (fun c leaf =>
    match membershipSenderSeqFromConfig members leaf with
    | none => c
    | some seq => c.sendLostMessageRequest ⟨leaf.sender.getD [], seq⟩ responder) c

/-- The keys that `peer` is asked for. -/
def requestsTo (peer : ReplicaID) (ps : List Packet) : List Key :=
  ps.filterMap fun p =>
    match p.frame with
    | .lostMessageRequest k => if p.dst = peer then some k else none
    | _ => none

/-- The envelopes that are sent to `peer`. -/
def envelopesTo (peer : ReplicaID) (ps : List Packet) : List Envelope :=
  ps.filterMap fun p =>
    match p.frame with
    | .envelope env => if p.dst = peer then some env else none
    | _ => none

theorem mem_requestsTo {peer : ReplicaID} {ps : List Packet} (hp : ∀ p ∈ ps, p.dst = peer)
    (hk : ∃ p ∈ ps, p.frame = .lostMessageRequest k) : k ∈ requestsTo peer ps := by
  obtain ⟨p, hmem, hframe⟩ := hk
  refine List.mem_filterMap.mpr ⟨p, hmem, ?_⟩
  simp only [hframe, hp p hmem, if_true]

theorem requestLeavesAfterRestart_eq (members : List ReplicaID) (responder : ReplicaID)
    (leaves : List MessageID) (c : Conversation) :
    ∃ ps, c.requestLeavesAfterRestart members responder leaves =
        { c with outbox := c.outbox ++ ps } ∧ (∀ p ∈ ps, p.dst = responder) ∧
      ∀ leaf ∈ leaves, ∀ seq, membershipSenderSeqFromConfig members leaf = some seq →
        ∃ p ∈ ps, p.frame = .lostMessageRequest ⟨leaf.sender.getD [], seq⟩ := by
  induction leaves generalizing c with
  | nil => exact ⟨[], by simp [requestLeavesAfterRestart], by simp, by simp⟩
  | cons leaf leaves ih =>
    rw [requestLeavesAfterRestart, List.foldl_cons]
    cases hseq : membershipSenderSeqFromConfig members leaf with
    | none =>
      obtain ⟨ps, he, hdst, hleaves⟩ := ih c
      refine ⟨ps, he, hdst, List.forall_mem_cons.mpr ⟨fun seq hs => ?_, hleaves⟩⟩
      rw [hseq] at hs
      cases hs
    | some seq =>
      obtain ⟨ps, he, hdst, hleaves⟩ :=
        ih (c.sendLostMessageRequest ⟨leaf.sender.getD [], seq⟩ responder)
      refine ⟨⟨c.self, responder, .lostMessageRequest ⟨leaf.sender.getD [], seq⟩⟩ :: ps, ?_,
        List.forall_mem_cons.mpr ⟨rfl, hdst⟩, List.forall_mem_cons.mpr ⟨?_, ?_⟩⟩
      · refine he.trans ?_
        simp [sendLostMessageRequest, post]
      · intro seq' hs
        rw [hseq] at hs
        cases hs
        exact ⟨_, List.mem_cons_self .., rfl⟩
      · intro leaf' hleaf seq' hs
        obtain ⟨p, hp, hframe⟩ := hleaves leaf' hleaf seq' hs
        exact ⟨p, List.mem_cons_of_mem _ hp, hframe⟩

end Requests

section Gathering

/-- Moreover every parent of a deferred envelope is in the graph or waited for, so an
envelope that is released is never deferred again. -/
structure Gathering (m : Membership) (convID : ConversationID) (E : Finset Envelope)
    (c : Conversation) (todo : Todo) : Prop extends Collecting m convID E c todo where
  awaited : ∀ k pe, c.deferred.lookup k = some pe →
    ∀ w ∈ Graph.derivedParents m pe.env, c.graph.has w = true ∨ w ∈ pe.waiting

theorem WellFormed.missing_eq {g : Graph} {missing : List Key} (h : WellFormed m convID env)
    (hi : g.insert m env = .error (.missingParents missing)) :
    missing ≠ [] ∧ missing = (Graph.derivedParents m env).filter (fun k => !g.has k) := by
  obtain ⟨_, _, _, _, hlen, _⟩ := h.clock
  obtain ⟨_, _, _, _, ⟨hera, _, _⟩ | ⟨_, hne, hmissing⟩⟩ := Graph.insert_missing hi
  · exact absurd hlen (Nat.not_le.mpr hera)
  · exact ⟨hne, hmissing⟩

theorem Gathering.handled (hE : ∀ e ∈ E, WellFormed m convID e)
    (h : Gathering m convID E c todo) (he : env ∈ E) (hh : Handled io c env origin c' new) :
    Gathering m convID E c' (new ++ todo) := by
  refine ⟨h.toCollecting.handled hE he hh, ?_⟩
  cases hh.outcome with
  | unchanged => exact h.awaited
  | entered hk hl hi =>
    intro d pe hd w hw
    rw [graph_foldl_awaitParent]
    rcases lookup_insert_cases hd with ⟨rfl, rfl⟩ | ⟨_, hd⟩
    · rw [h.membership] at hi
      rw [((hE env he).missing_eq hi).2]
      by_cases hhas : c.graph.has w = true
      · exact Or.inl hhas
      · right
        rw [List.mem_dedup]
        exact List.mem_filter.mpr ⟨hw, by simpa using hhas⟩
    · exact h.awaited d pe hd w hw
  | accepted hs hi =>
    intro d pe hd w hw
    exact (h.awaited d pe hd w hw).imp_left fun hg => (has_insert hi w).mpr (Or.inr hg)

theorem Gathering.parents_present {pe : PendingEnvelope}
    (h : Gathering m convID E c ((p, k) :: todo)) (hl : c.deferred.lookup k = some pe)
    (hw : pe.waiting.erase p = []) :
    ∀ w ∈ Graph.derivedParents m pe.env, c.graph.has w = true := by
  intro w hparent
  rcases h.awaited k pe hl w hparent with hg | hwait
  · exact hg
  · have hwp : w = p := by
      by_contra hne
      have hmem := (List.mem_erase_of_ne hne).mpr hwait
      rw [hw] at hmem
      cases hmem
    rw [hwp]
    exact h.todo_present p k (List.mem_cons_self ..)

/-- A turn asks for nothing. -/
theorem Gathering.turn {s t : Conversation × Todo} (hE : ∀ e ∈ E, WellFormed m convID e)
    (h : Gathering m convID E s.1 s.2) (ht : Turn io s t) :
    Gathering m convID E t.1 t.2 ∧ t.1.outstanding ⊆ s.1.outstanding ∧
      t.1.outbox = s.1.outbox := by
  have hcollect := (h.toCollecting.turn hE ht).1
  cases ht with
  | skip hl => exact absurd hl h.lookup_ne_none
  | wait hl hw =>
    rename_i c p k todo pe
    refine ⟨⟨hcollect, fun d pe' hd w hparent => ?_⟩, List.Subset.refl _, rfl⟩
    rcases lookup_insert_cases hd with ⟨rfl, rfl⟩ | ⟨_, hd⟩
    · by_cases hwp : w = p
      · rw [hwp]
        exact Or.inl (h.todo_present p d (List.mem_cons_self ..))
      · exact (h.awaited d pe hl w hparent).imp_right (List.mem_erase_of_ne hwp).mpr
    · exact h.awaited d pe' hd w hparent
  | retry hl hw hh =>
    rename_i c c' p k todo new pe
    have he : pe.env ∈ E := h.pending k pe hl
    have hparents := h.parents_present hl hw
    have hleft : Gathering m convID E { c with deferred := c.deferred.erase k } todo :=
      ⟨h.toCollecting.leave hl hw, fun d pe' hd => h.awaited d pe' (lookup_erase_cases hd).2⟩
    refine ⟨hleft.handled hE he hh, ?_⟩
    cases hh with
    | screened hs => exact ⟨List.Subset.refl _, rfl⟩
    | refused hs hi hne => exact ⟨List.Subset.refl _, rfl⟩
    | deferred hs hi =>
      rw [show ({ c with deferred := c.deferred.erase k } : Conversation).membership = m
        from h.membership] at hi
      obtain ⟨hne, hmissing⟩ := (hE pe.env he).missing_eq hi
      obtain ⟨w, hmem⟩ := List.exists_mem_of_ne_nil _ hne
      rw [hmissing] at hmem
      obtain ⟨hparent, hnot⟩ := List.mem_filter.mp hmem
      simp [hparents w hparent] at hnot
    | accepted hs hi => exact ⟨List.erase_subset, rfl⟩

theorem Gathering.turns {s t : Conversation × Todo} (hE : ∀ e ∈ E, WellFormed m convID e)
    (h : Gathering m convID E s.1 s.2) (ht : Turns io s t) :
    Gathering m convID E t.1 t.2 ∧ t.1.outstanding ⊆ s.1.outstanding ∧
      t.1.outbox = s.1.outbox := by
  induction ht with
  | refl => exact ⟨h, List.Subset.refl _, rfl⟩
  | tail _ ht ih =>
    obtain ⟨hgather, hsub, hbox⟩ := ih.1.turn hE ht
    exact ⟨hgather, List.Subset.trans hsub ih.2.1, hbox.trans ih.2.2⟩

/-- What a conversation newly waits for it has asked of the member that sent the message. -/
theorem Handled.requests (hf : WellFormed c.membership convID env)
    (hh : Handled io c env origin c' new) (hw : w ∈ c'.outstanding) : w ∈ c.outstanding ∨
      w ∈ Graph.derivedParents c.membership env ∧ c.graph.has w = false ∧
        w ∈ requestsTo origin (posted c c') := by
  cases hh.outcome with
  | unchanged => exact Or.inl hw
  | accepted hs hi => exact Or.inl (List.mem_of_mem_erase hw)
  | entered hk hl hi =>
    rename_i k missing
    by_cases hold : w ∈ c.outstanding
    · exact Or.inl hold
    · right
      have hmem := ((mem_outstanding_foldl k origin missing c w).mp hw).resolve_right hold
      obtain ⟨ps, hps, hdst, hiff⟩ := requests_foldl_awaitParent k origin missing c
      have hfilter := (hf.missing_eq hi).2 ▸ hmem
      obtain ⟨hparent, hnot⟩ := List.mem_filter.mp hfilter
      have hposted : posted c { missing.foldl (awaitParent k origin) c with
          deferred := c.deferred.insert k ⟨env, origin, missing.dedup⟩ } = ps :=
        posted_of_append hps
      refine ⟨hparent, by simpa using hnot, ?_⟩
      rw [hposted]
      exact mem_requestsTo hdst ((hiff w).mpr ⟨hmem, hold⟩)

theorem Gathering.incoming (hE : ∀ e ∈ E, WellFormed m convID e)
    (h : Gathering m convID E c []) (he : env ∈ E) (io : HandlerChoices) (origin : ReplicaID) :
    Gathering m convID E (c.handleIncoming io origin (.envelope env)) [] ∧
      ∀ w ∈ (c.handleIncoming io origin (.envelope env)).outstanding, w ∈ c.outstanding ∨
        w ∈ Graph.derivedParents m env ∧ c.graph.has w = false ∧
          w ∈ requestsTo origin (posted c (c.handleIncoming io origin (.envelope env))) := by
  obtain ⟨c₁, new, hh, hturns⟩ := turns_incoming c io origin env
  have h₁ := h.handled hE he hh
  rw [List.append_nil] at h₁
  obtain ⟨hgather, hsub, hbox⟩ := Gathering.turns (s := (c₁, new)) hE h₁ hturns
  refine ⟨hgather, fun w hw => ?_⟩
  have hf : WellFormed c.membership convID env := h.membership ▸ hE env he
  have hnew := hh.requests hf (hsub hw)
  rw [h.membership] at hnew
  rwa [posted, hbox]

theorem Gathering.setOutbox (h : Gathering m convID E c []) (box : List Packet) :
    Gathering m convID E { c with outbox := box } [] := by
  have htracked : Tracked { c with outbox := box } [] :=
    h.toTracked.congr ⟨rfl, rfl, rfl⟩ (Or.inl rfl) fun k pe hk w hw =>
      (h.absent k pe hk w hw).resolve_right List.not_mem_nil
  exact ⟨⟨⟨htracked, h.inside, h.released, h.early⟩, h.membership, h.conversation, h.mask,
    h.nodes, h.pending⟩, h.awaited⟩

end Gathering

end Conversation

/-- A replica that catches up, the requests that are on their way to the peer that has
acknowledged its restart, and the peer's answers that are on their way back. -/
structure CatchUp where
  conv : Conversation
  requests : List Key
  replies : List Envelope
  acked : Bool

namespace CatchUp
open Conversation

variable {m : Membership} {convID : ConversationID} {E : Finset Envelope}
variable {members : List ReplicaID} {peer : Conversation} {s t : CatchUp} {w : Key}

/-- The acknowledgement arrives; a request reaches the peer, whose conversation has gone
on in the meantime; an answer arrives; or somebody's message arrives unasked. -/
inductive Action where
  | ack (responder : ReplicaID) (leaves : List MessageID)
  | answer (later : Conversation) (k : Key)
  | reply (io : HandlerChoices) (env : Envelope)
  | receive (io : HandlerChoices) (origin : ReplicaID) (env : Envelope)

def after (s : CatchUp) (peer : ReplicaID) (c : Conversation) : CatchUp :=
  { s with
    conv := c
    requests := s.requests ++ requestsTo peer (posted s.conv c) }

/-- `peer` is the peer's conversation when it answers the announcement. -/
def step (members : List ReplicaID) (peer : Conversation) (s : CatchUp) :
    Action → Option CatchUp
  | .ack responder leaves =>
    if ⟨peer.self, s.conv.self, .restartAck responder leaves⟩ ∈
        posted peer (peer.handleRestartMessage (some s.conv.self)) then
      some { s.after peer.self (s.conv.requestLeavesAfterRestart members responder leaves) with
        acked := true }
    else none
  | .answer later k =>
    if k ∈ s.requests then
      some { s with
        requests := s.requests.erase k
        replies := s.replies ++
          envelopesTo s.conv.self (posted later (later.handleLostRequest k s.conv.self)) }
    else none
  | .reply io env =>
    if env ∈ s.replies then
      some { s.after peer.self (s.conv.handleIncoming io peer.self (.envelope env)) with
        replies := s.replies.erase env }
    else none
  | .receive io origin env =>
    some (s.after peer.self (s.conv.handleIncoming io origin (.envelope env)))

/-- The restarted process has replayed its log. -/
def start (c : Conversation) : CatchUp := ⟨c.handleReplay.1, [], [], false⟩

/-- The messages that take part: they fit the member list, the peer's are among them, and
no other bears the number of one of the peer's. -/
structure Traffic (m : Membership) (convID : ConversationID) (g : Graph)
    (E : Finset Envelope) : Prop where
  wellFormed : ∀ e ∈ E, WellFormed m convID e
  nodes : ∀ n ∈ g.nodes, n.envelope ∈ E
  unambiguous : ∀ n ∈ g.nodes, ∀ e ∈ E, m.keyOf e = some n.key → e = n.envelope

/-- When the peer answers a request, its log holds every message of the acknowledged graph. -/
def FullLog (peer : Conversation) : Action → Prop
  | .answer later _ => ∀ n ∈ peer.graph.nodes,
      (later.log.lookupBySender n.key).map Prod.snd = some n.envelope
  | _ => True

/-- Only messages that take part arrive. One that another member sends lacks none of the
peer's messages, unless the peer has been asked for it. -/
def AsksPeer (m : Membership) (E : Finset Envelope) (peer : Conversation) (s : CatchUp) :
    Action → Prop
  | .ack _ _ | .reply _ _ => True
  | .answer later k => ∀ found ∈ later.log.lookupBySender k, found.2 ∈ E
  | .receive _ origin env => env ∈ E ∧ (origin = peer.self ∨
      ∀ w ∈ Graph.derivedParents m env, peer.graph.has w = true →
        s.conv.graph.has w = true ∨ w ∈ s.conv.outstanding)

instance (a : Action) : Decidable (FullLog peer a) :=
  match a with
  | .answer later _ => inferInstanceAs (Decidable (∀ n ∈ peer.graph.nodes,
      (later.log.lookupBySender n.key).map Prod.snd = some n.envelope))
  | .ack _ _ | .reply _ _ | .receive _ _ _ => isTrue trivial

instance (s : CatchUp) (a : Action) : Decidable (AsksPeer m E peer s a) :=
  match a with
  | .ack _ _ | .reply _ _ => isTrue trivial
  | .answer later k =>
    inferInstanceAs (Decidable (∀ found ∈ later.log.lookupBySender k, found.2 ∈ E))
  | .receive _ origin env => inferInstanceAs (Decidable (env ∈ E ∧ (origin = peer.self ∨
      ∀ w ∈ Graph.derivedParents m env, peer.graph.has w = true →
        s.conv.graph.has w = true ∨ w ∈ s.conv.outstanding)))

/-- The peer has been asked for the message, its answer is on the way, or it is there. -/
def Coming (m : Membership) (s : CatchUp) (w : Key) : Prop :=
  w ∈ s.requests ∨ (∃ e ∈ s.replies, m.keyOf e = some w) ∨ Held s.conv w

structure CatchingUp (m : Membership) (convID : ConversationID) (E : Finset Envelope)
    (peer : Conversation) (s : CatchUp) : Prop where
  gathering : Gathering m convID E s.conv []
  seated : Seated s.conv.membership.allReplicas s.conv
  replies : ∀ e ∈ s.replies, e ∈ E
  asked : ∀ w ∈ s.conv.outstanding, peer.graph.has w = true → Coming m s w
  leaves : s.acked = true → ∀ n ∈ peer.graph.leaves, Coming m s n.key

theorem CatchingUp.incoming (hE : Traffic m convID peer.graph E)
    (h : CatchingUp m convID E peer s) {env : Envelope} (he : env ∈ E) (io : HandlerChoices)
    {origin : ReplicaID} (horigin : origin = peer.self ∨
      ∀ w ∈ Graph.derivedParents m env, peer.graph.has w = true →
        s.conv.graph.has w = true ∨ w ∈ s.conv.outstanding)
    {replies : List Envelope} (hsub : replies ⊆ s.replies)
    (hrest : ∀ e ∈ s.replies, e ∈ replies ∨ e = env) :
    CatchingUp m convID E peer
      { s.after peer.self (s.conv.handleIncoming io origin (.envelope env)) with
        replies := replies } := by
  obtain ⟨hgather, hnew⟩ := h.gathering.incoming hE.wellFormed he io origin
  obtain ⟨_, hheld⟩ := h.gathering.toCollecting.incoming hE.wellFormed he io origin
  have hcoming : ∀ w, Coming m s w → Coming m
      { s.after peer.self (s.conv.handleIncoming io origin (.envelope env)) with
        replies := replies } w := by
    rintro w (hw | ⟨e, hmem, hkey⟩ | hw)
    · exact Or.inl (List.mem_append_left _ hw)
    · rcases hrest e hmem with hkept | rfl
      · exact Or.inr (Or.inl ⟨e, hkept, hkey⟩)
      · exact Or.inr (Or.inr (hheld w (Or.inr hkey)))
    · exact Or.inr (Or.inr (hheld w (Or.inl hw)))
  refine ⟨hgather, h.seated.moves (moves_incoming s.conv io origin env),
    fun e hmem => h.replies e (hsub hmem), ?_, fun ha n hn => hcoming _ (h.leaves ha n hn)⟩
  intro w hw hpeer
  rcases hnew w hw with hold | ⟨hparent, habsent, hrequest⟩
  · exact hcoming w (h.asked w hold hpeer)
  · rcases horigin with rfl | hknown
    · exact Or.inl (List.mem_append_right _ hrequest)
    · rcases hknown w hparent hpeer with hg | hold
      · rw [habsent] at hg
        cases hg
      · exact hcoming w (h.asked w hold hpeer)

theorem posted_handleLostRequest (later : Conversation) (k : Key) (origin : ReplicaID) :
    envelopesTo origin (posted later (later.handleLostRequest k origin)) =
      ((later.log.lookupBySender k).map Prod.snd).toList := by
  rw [handleLostRequest]
  cases later.log.lookupBySender k with
  | none => simp [posted, envelopesTo]
  | some found => simp [posted, post, envelopesTo]

theorem CatchingUp.answer (hsound : Graph.Sound m peer.graph)
    (h : CatchingUp m convID E peer s) {later : Conversation} {k : Key}
    (hlog : ∀ n ∈ peer.graph.nodes,
      (later.log.lookupBySender n.key).map Prod.snd = some n.envelope)
    (hfound : ∀ found ∈ later.log.lookupBySender k, found.2 ∈ E) :
    CatchingUp m convID E peer { s with
      requests := s.requests.erase k
      replies := s.replies ++
        envelopesTo s.conv.self (posted later (later.handleLostRequest k s.conv.self)) } := by
  rw [posted_handleLostRequest]
  have hcoming : ∀ w, peer.graph.has w = true → Coming m s w → Coming m { s with
      requests := s.requests.erase k
      replies := s.replies ++ ((later.log.lookupBySender k).map Prod.snd).toList } w := by
    rintro w hpeer (hw | ⟨e, hmem, hkey⟩ | hw)
    · by_cases hwk : w = k
      · subst hwk
        obtain ⟨n, hn, rfl⟩ := Graph.has_iff.mp hpeer
        refine Or.inr (Or.inl ⟨n.envelope, List.mem_append_right _ ?_,
          (hsound.derived n hn).keyOf⟩)
        rw [hlog n hn]
        exact List.mem_singleton_self _
      · exact Or.inl ((List.mem_erase_of_ne hwk).mpr hw)
    · exact Or.inr (Or.inl ⟨e, List.mem_append_left _ hmem, hkey⟩)
    · exact Or.inr (Or.inr hw)
  refine ⟨h.gathering, h.seated, ?_, fun w hw hpeer => hcoming w hpeer (h.asked w hw hpeer), ?_⟩
  · intro e hmem
    rcases List.mem_append.mp hmem with hmem | hmem
    · exact h.replies e hmem
    · obtain ⟨found, hf, rfl⟩ := Option.map_eq_some_iff.mp (Option.mem_toList.mp hmem)
      exact hfound found hf
  · intro ha n hn
    exact hcoming n.key (Graph.has_iff.mpr ⟨n, List.mem_of_mem_filter hn, rfl⟩) (h.leaves ha n hn)

theorem CatchingUp.ack (hsound : Graph.Sound (Membership.ofReplicas members) peer.graph)
    (h : CatchingUp (Membership.ofReplicas members) convID E peer s) :
    CatchingUp (Membership.ofReplicas members) convID E peer
      { s.after peer.self (s.conv.requestLeavesAfterRestart members peer.self
          (peer.graph.leaves.map (·.envelope.id))) with acked := true } := by
  obtain ⟨ps, heq, hdst, hleaves⟩ := requestLeavesAfterRestart_eq members peer.self
    (peer.graph.leaves.map (·.envelope.id)) s.conv
  have hposted : posted s.conv (s.conv.requestLeavesAfterRestart members peer.self
      (peer.graph.leaves.map (·.envelope.id))) = ps := by
    apply posted_of_append
    rw [heq]
  rw [after, hposted, heq]
  refine ⟨h.gathering.setOutbox _, ⟨rfl, h.seated.slot, h.seated.sound⟩, h.replies, ?_, ?_⟩
  · intro w hw hpeer
    exact (h.asked w hw hpeer).imp_left (List.mem_append_left _)
  · intro _ n hn
    have hseq := (hsound.derived n (List.mem_of_mem_filter hn)).senderSeq
    exact Or.inl (List.mem_append_right _ (mem_requestsTo hdst
      (hleaves n.envelope.id (List.mem_map_of_mem hn) _ hseq)))

theorem CatchingUp.step (hE : Traffic (Membership.ofReplicas members) convID peer.graph E)
    (hsound : Graph.Sound (Membership.ofReplicas members) peer.graph) {a : Action}
    (h : CatchingUp (Membership.ofReplicas members) convID E peer s)
    (hfull : FullLog peer a) (hok : AsksPeer (Membership.ofReplicas members) E peer s a)
    (hs : s.step members peer a = some t) :
    CatchingUp (Membership.ofReplicas members) convID E peer t := by
  cases a with
  | ack responder leaves =>
    simp only [CatchUp.step] at hs
    split at hs
    · rename_i hposted
      simp only [posted, handleRestartMessage, post, List.drop_left, List.mem_singleton,
        Packet.mk.injEq, WireFrame.restartAck.injEq] at hposted
      obtain ⟨_, _, rfl, rfl⟩ := hposted
      cases hs
      exact h.ack hsound
    · cases hs
  | answer later k =>
    simp only [CatchUp.step] at hs
    split at hs
    · cases hs
      exact h.answer hsound hfull hok
    · cases hs
  | reply io env =>
    simp only [CatchUp.step] at hs
    split at hs
    · rename_i hmem
      cases hs
      refine h.incoming hE (h.replies env hmem) io (Or.inl rfl) List.erase_subset ?_
      intro e he
      by_cases hee : e = env
      · exact Or.inr hee
      · exact Or.inl ((List.mem_erase_of_ne hee).mpr he)
    · cases hs
  | receive io origin env =>
    cases hs
    exact h.incoming hE hok.1 io hok.2 (List.Subset.refl _) fun _ => Or.inl

theorem catchingUp_start {self : ReplicaID} {log : MessageLog} {c : Conversation}
    (hnew : Conversation.new convID self members [] log = some c)
    (hreplay : ∀ n ∈ c.handleReplay.1.graph.nodes, n.envelope ∈ E) :
    CatchingUp (Membership.ofReplicas members) convID E peer (start c) := by
  have hseated := seated_new hnew
  obtain ⟨slot, _, rfl⟩ := Option.map_eq_some_iff.mp hnew
  obtain ⟨ns, heq, hsound, _⟩ := handleReplay_eq hseated.sound
  rw [heq] at hreplay
  rw [start, heq]
  have hindexed := indexed_init convID self slot members [] log
  refine ⟨⟨⟨⟨⟨hindexed.congr rfl rfl rfl, nofun, nofun, nofun⟩, nofun, nofun, nofun⟩,
    rfl, rfl, rfl, hreplay, nofun⟩, nofun⟩, ⟨rfl, hseated.slot, hsound⟩, nofun, nofun, nofun⟩

/-- When nothing is in flight, no message of the peer's graph is deferred: a first one
would wait for an earlier one, which has been asked for and is not in the graph. -/
theorem CatchingUp.not_deferred (hE : Traffic m convID peer.graph E)
    (hsound : Graph.Sound m peer.graph) (h : CatchingUp m convID E peer s)
    (hheld : ∀ w, Coming m s w → Held s.conv w)
    {n : Node} (hn : n ∈ peer.graph.nodes) : s.conv.deferred.lookup n.key = none := by
  have hprefix : ∀ pre post, peer.graph.nodes = pre ++ post →
      ∀ n ∈ pre, s.conv.deferred.lookup n.key = none := by
    intro pre
    induction pre using List.reverseRecOn with
    | nil => exact fun _ _ _ hn => absurd hn List.not_mem_nil
    | append_singleton pre x ih =>
      intro post hsplit n hn
      have hsplit' : peer.graph.nodes = pre ++ x :: post := by
        rw [hsplit, List.append_assoc, List.singleton_append]
      have hpre := ih (x :: post) hsplit'
      rcases List.mem_append.mp hn with hn | hn
      · exact hpre n hn
      · rw [List.mem_singleton.mp hn]
        by_contra hne
        obtain ⟨pe, hpe⟩ := Option.ne_none_iff_exists'.mp hne
        have hx : x ∈ peer.graph.nodes := by simp [hsplit']
        have hg := h.gathering
        have hkeyed := hg.keyed x.key pe hpe
        rw [hg.membership] at hkeyed
        have hsame := hE.unambiguous x hx pe.env (hg.pending x.key pe hpe) hkeyed
        obtain ⟨w, hw⟩ := List.exists_mem_of_ne_nil _ (hg.waiting x.key pe hpe).1
        have habsent := (hg.absent x.key pe hpe w hw).resolve_right List.not_mem_nil
        have hparent : w ∈ x.parents := by
          rw [← (hsound.derived x hx).derivedParents, ← hsame]
          exact hg.mem_derivedParents hE.wellFormed hpe hw
        obtain ⟨y, hy, rfl⟩ := Graph.has_iff.mp (hsound.parentsFirst pre x post hsplit' w hparent)
        have hpeer : peer.graph.has y.key = true := hsound.closed hx hparent
        rcases hheld y.key (h.asked y.key (hg.mem_outstanding hpe hw) hpeer) with
          hin | ⟨pe', hpe'⟩
        · rw [habsent] at hin
          cases hin
        · rw [hpre y hy] at hpe'
          cases hpe'
  exact hprefix peer.graph.nodes [] (List.append_nil _).symm n hn

/-- A message that is no leaf is a parent of a later one, and a message enters the graph
only after its parents. -/
theorem CatchingUp.has_all (hE : Traffic m convID peer.graph E)
    (hsound : Graph.Sound m peer.graph) (h : CatchingUp m convID E peer s)
    (hleaves : ∀ n ∈ peer.graph.leaves, s.conv.graph.has n.key = true)
    {n : Node} (hn : n ∈ peer.graph.nodes) : s.conv.graph.has n.key = true := by
  have hconv := h.seated.sound
  rw [h.gathering.membership] at hconv
  have hsuffix : ∀ post pre, peer.graph.nodes = pre ++ post →
      ∀ n ∈ post, s.conv.graph.has n.key = true := by
    intro post
    induction post with
    | nil => exact fun _ _ _ hn => absurd hn List.not_mem_nil
    | cons x post ih =>
      intro pre hsplit
      have hpost := ih (pre ++ [x]) (by simp [hsplit])
      refine List.forall_mem_cons.mpr ⟨?_, hpost⟩
      have hx : x ∈ peer.graph.nodes := by simp [hsplit]
      by_cases hleaf : x ∈ peer.graph.leaves
      · exact hleaves x hleaf
      · obtain ⟨child, hchild, hparent⟩ := Graph.exists_child hx hleaf
        have hlater := hsound.child_after hsplit hchild hparent
        obtain ⟨y, hy, hkey⟩ := Graph.has_iff.mp (hpost child hlater)
        have henv : y.envelope = child.envelope :=
          hE.unambiguous child hchild _ (h.gathering.nodes y hy)
            (hkey ▸ (hconv.derived y hy).keyOf)
        rw [← (hconv.derived y hy).eq (hsound.derived child hchild) henv] at hparent
        exact hconv.closed hy hparent
  exact hsuffix peer.graph.nodes [] rfl n hn

/-- When the acknowledgement has been processed and nothing is in flight any more, the
restarted replica has every message that the peer had when it acknowledged. -/
theorem restart_catches_up {self : ReplicaID} {log : MessageLog} {c : Conversation}
    (hnew : Conversation.new convID self members [] log = some c)
    (hpeer : Seated (Membership.ofReplicas members).allReplicas peer)
    (hE : Traffic (Membership.ofReplicas members) convID peer.graph E)
    (hreplay : ∀ n ∈ c.handleReplay.1.graph.nodes, n.envelope ∈ E)
    (hr : Reach (step members peer)
      (fun s a => FullLog peer a ∧ AsksPeer (Membership.ofReplicas members) E peer s a) (start c) s)
    (hack : s.acked = true) (hrequests : s.requests = []) (hreplies : s.replies = []) :
    ∀ n ∈ peer.graph.nodes, n ∈ s.conv.graph.nodes := by
  have hsound : Graph.Sound (Membership.ofReplicas members) peer.graph :=
    hpeer.sound.congr hpeer.members_eq.symm
  have h : CatchingUp (Membership.ofReplicas members) convID E peer s :=
    hr.invariant (catchingUp_start hnew hreplay) fun s a t h hok hs =>
      h.step hE hsound hok.1 hok.2 hs
  have hheld : ∀ w, Coming (Membership.ofReplicas members) s w → Held s.conv w := by
    rintro w (hw | ⟨e, he, _⟩ | hw)
    · rw [hrequests] at hw
      cases hw
    · rw [hreplies] at he
      cases he
    · exact hw
  have hleaves : ∀ n ∈ peer.graph.leaves, s.conv.graph.has n.key = true := by
    intro n hn
    rcases hheld n.key (h.leaves hack n hn) with hg | ⟨pe, hpe⟩
    · exact hg
    · rw [h.not_deferred hE hsound hheld (List.mem_of_mem_filter hn)] at hpe
      cases hpe
  intro n hn
  obtain ⟨x, hx, hkey⟩ := Graph.has_iff.mp (h.has_all hE hsound hleaves hn)
  have hconv := h.seated.sound
  rw [h.gathering.membership] at hconv
  have henv : x.envelope = n.envelope :=
    hE.unambiguous n hn _ (h.gathering.nodes x hx) (hkey ▸ (hconv.derived x hx).keyOf)
  rwa [← (hconv.derived x hx).eq (hsound.derived n hn) henv]

/-- What the log of `[1]` holds after a process over `log` has sent one message. -/
def sendOver (log : MessageLog) (payload : List UInt8) : MessageLog :=
  ((init [9] [1] 0 [[1], [2], [3]] [] log).handleSend .standard payload).log

/-- The second of three members has answered two messages of the third. -/
def answered : Conversation :=
  ((init [9] [2] 1 [[1], [2], [3]] [] .empty).receiveAll
    (arrivalsOf [message [1] [1, 0, 0], message [3] [1, 0, 1], message [3] [1, 0, 2]])).handleSend
      .standard []

def answeredTraffic : Finset Envelope :=
  [message [1] [1, 0, 0], message [3] [1, 0, 1], message [3] [1, 0, 2], message [2] [1, 1, 2],
    message [3] [1, 0, 3]].toFinset

/-- The leaf arrives and is deferred, a further message of the third member joins it, and
the peer is asked for what they lack until the first message of the third arrives. -/
def pursuit : List Action :=
  [.ack [2] [(message [2] [1, 1, 2]).id], .answer answered ⟨[2], 1⟩,
    .reply .standard (message [2] [1, 1, 2]), .receive .standard [3] (message [3] [1, 0, 3]),
    .answer answered ⟨[3], 2⟩, .reply .standard (message [3] [1, 0, 2]),
    .answer answered ⟨[3], 1⟩, .reply .standard (message [3] [1, 0, 1])]

theorem seated_answered :
    Seated (Membership.ofReplicas [[1], [2], [3]]).allReplicas answered := by
  have hnew : Conversation.new [9] [2] [[1], [2], [3]] [] .empty =
      some (init [9] [2] 1 [[1], [2], [3]] [] .empty) := rfl
  have hreceived := (delivering_new hnew).receiveAll
    (arrivalsOf [message [1] [1, 0, 0], message [3] [1, 0, 1], message [3] [1, 0, 2]])
  have hsent := hreceived.toSeated.served_request (.send .standard [])
  exact ⟨by decide +kernel, by decide +kernel, (hreceived.toSeated.serve hsent).sound⟩

theorem traffic_answered :
    Traffic (Membership.ofReplicas [[1], [2], [3]]) [9] answered.graph answeredTraffic := by
  refine ⟨?_, by decide +kernel, by decide +kernel⟩
  intro e he
  simp only [answeredTraffic, List.mem_toFinset, List.mem_cons, List.not_mem_nil, or_false] at he
  rcases he with rfl | rfl | rfl | rfl | rfl
  · exact wellFormed_message 0 rfl (by decide) (by decide) (by decide)
  · exact wellFormed_message 2 rfl (by decide) (by decide) (by decide)
  · exact wellFormed_message 2 rfl (by decide) (by decide) (by decide)
  · exact wellFormed_message 1 rfl (by decide) (by decide) (by decide)
  · exact wellFormed_message 2 rfl (by decide) (by decide) (by decide)

theorem restart_catches_up_pursuit :
    answered.graph.nodes.length = 4 ∧ ∃ c s,
      Conversation.new [9] [1] [[1], [2], [3]] [] (sendOver .empty []) = some c ∧
      Reach (step [[1], [2], [3]] answered) (fun s a => FullLog answered a ∧
        AsksPeer (Membership.ofReplicas [[1], [2], [3]]) answeredTraffic answered s a)
        (start c) s ∧ s.acked = true ∧ s.requests = [] ∧ s.replies = [] ∧
      ∀ n ∈ answered.graph.nodes, n ∈ s.conv.graph.nodes := by
  have hnew : Conversation.new [9] [1] [[1], [2], [3]] [] (sendOver .empty []) =
      some (init [9] [1] 0 [[1], [2], [3]] [] (sendOver .empty [])) := rfl
  have hrun : (execute (step [[1], [2], [3]] answered) (fun s a => FullLog answered a ∧
      AsksPeer (Membership.ofReplicas [[1], [2], [3]]) answeredTraffic answered s a)
      (start (init [9] [1] 0 [[1], [2], [3]] [] (sendOver .empty []))) pursuit).map
      (fun s => decide (s.acked = true ∧ s.requests = [] ∧ s.replies = [])) = some true := by
    decide +kernel
  obtain ⟨s, -, hr, hs⟩ := reach_of_execute hrun
  obtain ⟨hack, hrequests, hreplies⟩ := of_decide_eq_true hs
  refine ⟨by decide +kernel, _, s, hnew, hr, hack, hrequests, hreplies, ?_⟩
  exact restart_catches_up hnew seated_answered traffic_answered (by decide +kernel) hr hack
    hrequests hreplies

/-- The second member has sent two messages. -/
def outspoken : Conversation :=
  ((init [9] [2] 1 [[1], [2], [3]] [] .empty).handleSend .standard []).handleSend .standard []

/-- The third member has answered the first of them and has trimmed its log. -/
def trimmed : Conversation :=
  (((init [9] [3] 2 [[1], [2], [3]] [] .empty).receiveAll
    (arrivalsOf [message [2] [0, 1, 0]])).handleSend .standard []).truncateLog 2

/-- The answer arrives first, so the message that it answers is asked of the third member. -/
def misdirected : List Action :=
  [.receive .standard [3] (message [3] [0, 1, 1]), .ack [2] [(message [2] [0, 2, 0]).id],
    .answer outspoken ⟨[2], 2⟩, .reply .standard (message [2] [0, 2, 0])]

/-- The second member has answered the message that the second process of `[1]` sends under
the number of the first process's message. -/
def deceived : Conversation :=
  ((init [9] [2] 1 [[1], [2], [3]] [] .empty).receiveAll
    (arrivalsOf [message [1] [1, 0, 0]])).handleSend .standard []

def renumbered : List Action :=
  [.ack [2] [(message [2] [1, 1, 0]).id], .answer deceived ⟨[2], 1⟩,
    .reply .standard (message [2] [1, 1, 0])]

/-- The peer is not asked for a message that was asked of a member with a trimmed log, and
then both of the peer's messages stay out. A message that bears the number of an earlier
one in the replica's own log stays out as well. -/
theorem restart_leaves_gap :
    (trimmed.graph.nodes.map Node.envelope =
        [message [2] [0, 1, 0], message [3] [0, 1, 1]] ∧
      posted trimmed (trimmed.handleLostRequest ⟨[2], 1⟩ [1]) = [] ∧
      ∃ s, Reach (step [[1], [2], [3]] outspoken) (fun _ a => FullLog outspoken a)
          (start (init [9] [1] 0 [[1], [2], [3]] [] .empty)) s ∧
        s.acked = true ∧ s.requests = [] ∧ s.replies = [] ∧ outspoken.graph.nodes.length = 2 ∧
        ∀ n ∈ outspoken.graph.nodes, n ∉ s.conv.graph.nodes) ∧
      ∃ s, Reach (step [[1], [2], [3]] deceived) (fun _ a => FullLog deceived a)
          (start (init [9] [1] 0 [[1], [2], [3]] [] (sendOver (sendOver .empty [7]) []))) s ∧
        s.acked = true ∧ s.requests = [] ∧ s.replies = [] ∧
        ∃ n ∈ deceived.graph.nodes, n ∉ s.conv.graph.nodes := by
  refine ⟨⟨by decide +kernel, by decide +kernel, ?_⟩, ?_⟩
  · have hrun : (execute (step [[1], [2], [3]] outspoken) (fun _ a => FullLog outspoken a)
        (start (init [9] [1] 0 [[1], [2], [3]] [] .empty)) misdirected).map (fun s =>
        decide (s.acked = true ∧ s.requests = [] ∧ s.replies = [] ∧
          outspoken.graph.nodes.length = 2 ∧
          ∀ n ∈ outspoken.graph.nodes, n ∉ s.conv.graph.nodes)) = some true := by
      decide +kernel
    obtain ⟨s, -, hr, hs⟩ := reach_of_execute hrun
    exact ⟨s, hr, of_decide_eq_true hs⟩
  · have hrun : (execute (step [[1], [2], [3]] deceived) (fun _ a => FullLog deceived a)
        (start (init [9] [1] 0 [[1], [2], [3]] [] (sendOver (sendOver .empty [7]) [])))
        renumbered).map (fun s => decide (s.acked = true ∧ s.requests = [] ∧ s.replies = [] ∧
          ∃ n ∈ deceived.graph.nodes, n ∉ s.conv.graph.nodes)) = some true := by
      decide +kernel
    obtain ⟨s, -, hr, hs⟩ := reach_of_execute hrun
    exact ⟨s, hr, of_decide_eq_true hs⟩

end CatchUp
end Comlink
