import Comlink.ConversationSteps

/-!
# A conversation since its construction

A conversation over a fixed member list that has not replayed its log keeps graph,
delivery channel and log in step: the channel has received the envelopes of the
nodes in insertion order, and the log holds those of them whose append succeeded.
-/
namespace Comlink

def Node.frame (n : Node) : LogFrame := ⟨n.envelope, n.senderSeq⟩

theorem WireFrame.envelope_or (frame : WireFrame) :
    (∃ env, frame = .envelope env) ∨ ∀ env, frame ≠ .envelope env := by
  cases frame with
  | envelope env => exact Or.inl ⟨env, rfl⟩
  | _ => exact Or.inr (by simp)

namespace Conversation
open VectorClock

variable {io : HandlerChoices} {E : Envelope → Prop} {c c' d : Conversation}
variable {members : List ReplicaID}

/-- The part of the state that also a replayed conversation keeps in order. -/
structure Seated (members : List ReplicaID) (c : Conversation) : Prop where
  members_eq : c.membership.allReplicas = members
  slot : c.membership.slotOf c.self = some c.selfSlot
  sound : c.graph.Sound c.membership

structure Live (members : List ReplicaID) (c : Conversation) : Prop
    extends Seated members c where
  delivered : c.delivered = c.graph.nodes.map Node.envelope
  logged : c.log.frames.Sublist (c.graph.nodes.map Node.frame)

/-- Histories only grow, and the identity of the conversation never changes. -/
structure Extends (c c' : Conversation) : Prop where
  self : c'.self = c.self
  selfSlot : c'.selfSlot = c.selfSlot
  members : c'.membership.allReplicas = c.membership.allReplicas
  active : ∀ s ∈ c'.membership.slots, s.frozen = false → s ∈ c.membership.slots
  nodes : c.graph.nodes <+: c'.graph.nodes
  delivered : c.delivered <+: c'.delivered
  frames : c.log.frames <+: c'.log.frames
  issued : c.issued <+: c'.issued

theorem Extends.refl (c : Conversation) : Extends c c :=
  ⟨rfl, rfl, rfl, fun _ h _ => h, List.prefix_rfl, List.prefix_rfl, List.prefix_rfl,
    List.prefix_rfl⟩

theorem Extends.trans (h : Extends c c') (h' : Extends c' d) : Extends c d :=
  ⟨h'.self.trans h.self, h'.selfSlot.trans h.selfSlot, h'.members.trans h.members,
    fun s hs hf => h.active s (h'.active s hs hf) hf, h.nodes.trans h'.nodes,
    h.delivered.trans h'.delivered, h.frames.trans h'.frames, h.issued.trans h'.issued⟩

theorem seated_init {convID : ConversationID} {self : ReplicaID} {slot : ℕ}
    {mask : List ReplicaID} {log : MessageLog}
    (hs : (Membership.ofReplicas members).slotOf self = some slot) :
    Seated members (init convID self slot members mask log) :=
  ⟨Membership.allReplicas_ofReplicas members, hs, Graph.sound_empty _⟩

theorem live_init {convID : ConversationID} {self : ReplicaID} {slot : ℕ}
    {mask : List ReplicaID} (hs : (Membership.ofReplicas members).slotOf self = some slot) :
    Live members (init convID self slot members mask .empty) :=
  ⟨seated_init hs, rfl, List.Sublist.refl _⟩

theorem Live.nodup_nodeFrames (h : Live members c) : (c.graph.nodes.map Node.frame).Nodup := by
  apply List.Nodup.of_map LogFrame.key
  rw [List.map_map]
  exact h.sound.keys

theorem Live.nodup_frameKeys (h : Live members c) : (c.log.frames.map LogFrame.key).Nodup := by
  have hkeys := h.sound.keys
  refine List.Nodup.sublist (h.logged.map LogFrame.key) ?_
  rw [List.map_map]
  exact hkeys

/-- The log up to the frame of a node holds frames of the nodes up to it. -/
theorem Live.frame_before (h : Live members c) {pre post : List Node} {n : Node} {i : ℕ}
    (hg : c.graph.nodes = pre ++ n :: post) (hi : c.log.frames[i]? = some n.frame)
    {f : LogFrame} (hf : f ∈ c.log.frames.take (i + 1)) :
    f = n.frame ∨ f ∈ pre.map Node.frame := by
  rw [List.take_add_one, hi, Option.toList_some] at hf
  rcases List.mem_append.mp hf with hf | hf
  · refine Or.inr ?_
    have hframes : c.log.frames =
        c.log.frames.take i ++ n.frame :: c.log.frames.drop (i + 1) := by
      obtain ⟨hlt, he⟩ := List.getElem?_eq_some_iff.mp hi
      rw [← he, List.getElem_cons_drop, List.take_append_drop]
    have hnodes : c.graph.nodes.map Node.frame =
        pre.map Node.frame ++ n.frame :: post.map Node.frame := by rw [hg]; simp
    exact (ListScans.sublist_before h.logged h.nodup_nodeFrames hframes hnodes).subset hf
  · exact Or.inl (List.mem_singleton.mp hf)

section Moves

theorem Live.bookkeeping (h : Live members c) (hb : Bookkeeping E c c') : Live members c' := by
  rw [hb.frame]
  exact ⟨⟨h.members_eq, h.slot, h.sound⟩, h.delivered, h.logged⟩

theorem Bookkeeping.extends (hb : Bookkeeping E c c') : Extends c c' := by
  rw [hb.frame]
  exact ⟨rfl, rfl, rfl, fun _ h _ => h, List.prefix_rfl, List.prefix_rfl, List.prefix_rfl,
    List.prefix_rfl⟩

theorem frames_accept (io : HandlerChoices) (c : Conversation) {env : Envelope} {k : Key}
    (hs : env.id.sender = some k.sender) (g : Graph) :
    (c.accept io env k g).log.frames =
      c.log.frames ++ if io.appendOk k then [⟨env, k.seq⟩] else [] := by
  by_cases ho : io.appendOk k = true
  · simp [accept, ho, MessageLog.append, hs]
  · simp [accept, ho]

theorem Live.accept (h : Live members c) {env : Envelope} {k : Key} {g : Graph} {n : Node}
    (hs : c.screen env = some k) (hi : c.graph.insert c.membership env = .ok (g, n)) :
    Live members (c.accept io env k g) := by
  have hk := screen_key hs hi
  have hsender := (screen_eq_some hs).1
  obtain ⟨rfl, rfl, _, _, _⟩ := Graph.insert_ok hi
  refine ⟨⟨h.members_eq, h.slot, h.sound.insert hi⟩, ?_, ?_⟩
  · simp [Conversation.accept, h.delivered]
  · rw [frames_accept io c hsender]
    have hf : (⟨n.envelope, k.seq⟩ : LogFrame) = n.frame := by rw [← hk]; rfl
    rw [hf]
    simp only [Conversation.accept, List.map_append, List.map_singleton]
    refine h.logged.append ?_
    split
    · exact List.Sublist.refl _
    · exact List.nil_sublist _

theorem extends_accept {env : Envelope} {k : Key} {g : Graph} {n : Node}
    (hs : c.screen env = some k) (hi : c.graph.insert c.membership env = .ok (g, n)) :
    Extends c (c.accept io env k g) := by
  have hsender := (screen_eq_some hs).1
  obtain ⟨rfl, rfl, _, _, _⟩ := Graph.insert_ok hi
  refine ⟨rfl, rfl, rfl, fun _ h _ => h, List.prefix_append _ _, List.prefix_append _ _, ?_,
    List.prefix_rfl⟩
  rw [frames_accept io c hsender]
  exact List.prefix_append _ _

theorem Live.move (h : Live members c) (hm : Move io E c c') : Live members c' := by
  cases hm with
  | bookkeeping hb => exact h.bookkeeping hb
  | accept he hs hi => exact h.accept hs hi

theorem Move.extends (hm : Move io E c c') : Extends c c' := by
  cases hm with
  | bookkeeping hb => exact hb.extends
  | accept he hs hi => exact extends_accept hs hi

theorem Live.moves (h : Live members c) (hm : Moves io E c c') : Live members c' := by
  induction hm with
  | refl => exact h
  | tail _ hm ih => exact ih.move hm

theorem Moves.extends (hm : Moves io E c c') : Extends c c' := by
  induction hm with
  | refl => exact Extends.refl c
  | tail _ hm ih => exact ih.trans hm.extends

/-- The part of the state that a received envelope leaves alone. -/
structure Untouched (c c' : Conversation) : Prop where
  convID : c'.convID = c.convID
  membership : c'.membership = c.membership
  mask : c'.mask = c.mask
  issued : c'.issued = c.issued

theorem Moves.untouched (hm : Moves io E c c') : Untouched c c' := by
  induction hm with
  | refl => exact ⟨rfl, rfl, rfl, rfl⟩
  | tail _ hm ih =>
    cases hm with
    | bookkeeping hb =>
      rw [hb.frame]
      exact ⟨ih.convID, ih.membership, ih.mask, ih.issued⟩
    | accept he hs hi => exact ⟨ih.convID, ih.membership, ih.mask, ih.issued⟩

/-- The moves of a received envelope neither issue one nor change the member list. -/
theorem Moves.kept (hm : Moves io E c c') :
    c'.issued = c.issued ∧ c'.membership = c.membership :=
  ⟨hm.untouched.issued, hm.untouched.membership⟩

theorem Moves.issued (hm : Moves io E c c') : c'.issued = c.issued := hm.kept.1

/-- A node that appears during the moves carries an admitted envelope. -/
theorem Moves.mem_nodes (hm : Moves io E c c') {n : Node} (hn : n ∈ c'.graph.nodes) :
    n ∈ c.graph.nodes ∨ E n.envelope := by
  induction hm with
  | refl => exact Or.inl hn
  | tail _ hm ih =>
    cases hm with
    | bookkeeping hb =>
      rw [hb.frame] at hn
      exact ih hn
    | accept he hs hi =>
      obtain ⟨rfl, rfl, _, _, _⟩ := Graph.insert_ok hi
      rcases List.mem_append.mp hn with hn | hn
      · exact ih hn
      · rw [List.mem_singleton.mp hn]
        exact Or.inr he

/-- Receiving never forwards an envelope. -/
theorem Moves.mem_outbox (hm : Moves io E c c') {p : Packet} {e : Envelope}
    (hp : p ∈ c'.outbox) (he : p.frame = .envelope e) : p ∈ c.outbox := by
  induction hm with
  | refl => exact hp
  | tail _ hm ih =>
    cases hm with
    | bookkeeping hb =>
      obtain ⟨ps, hps, hq⟩ := hb.outbox
      rw [hps] at hp
      rcases List.mem_append.mp hp with hp | hp
      · exact ih hp
      · obtain ⟨k, hk⟩ := hq p hp
        rw [hk] at he
        cases he
    | accept he hs hi => exact ih hp

end Moves

section Send

theorem nextEnvelope_eq_some {payload : List UInt8} {env : Envelope}
    (h : c.nextEnvelope payload = some env) :
    env.id.conversationId = some c.convID ∧ env.id.sender = some c.self ∧
      (c.graph.currentView c.membership).increment c.selfSlot = some env.id.vectorClock := by
  obtain ⟨vec, hv, rfl⟩ := Option.map_eq_some_iff.mp h
  exact ⟨rfl, rfl, hv⟩

/-- `handleSend` either does nothing, because the append failed, or issues exactly the
next envelope: the insertion after a successful append never fails. -/
theorem Seated.handleSend_cases (h : Seated members c) (io : HandlerChoices)
    (payload : List UInt8) : c.handleSend io payload = c ∨
      ∃ env n log, c.nextEnvelope payload = some env ∧
        c.graph.insert c.membership env = .ok (⟨c.graph.nodes ++ [n]⟩, n) ∧
        n.envelope = env ∧ n.senderSlot = c.selfSlot ∧
        log.frames = c.log.frames ++ [n.frame] ∧
        c.handleSend io payload = broadcastEnvelope
          { c with
            log := log
            graph := ⟨c.graph.nodes ++ [n]⟩
            delivered := c.delivered ++ [env]
            issued := c.issued ++ [env] } env := by
  unfold handleSend
  cases henv : c.nextEnvelope payload with
  | none => exact Or.inl rfl
  | some env =>
    dsimp only
    by_cases hok : io.appendOk ⟨c.self, env.id.vectorClock.atSlot c.selfSlot⟩ = true
    · rw [if_pos hok]
      obtain ⟨_, hsender, hvec⟩ := nextEnvelope_eq_some henv
      obtain ⟨g, n, hi⟩ := h.sound.insert_incremented h.slot hvec hsender rfl
      obtain ⟨rfl, hne, hd, _, _⟩ := Graph.insert_ok hi
      subst hne
      have hslot : n.senderSlot = c.selfSlot := by
        have hs : n.envelope.sender = c.self := by simp [Envelope.sender, hsender]
        have := hd.slot
        rw [hs, h.slot] at this
        exact (Option.some.inj this).symm
      cases hlog : c.log.append n.envelope (n.envelope.id.vectorClock.atSlot c.selfSlot) with
      | none => exact Or.inl rfl
      | some log =>
        refine Or.inr ⟨n.envelope, n, log, rfl, hi, rfl, hslot, ?_, ?_⟩
        · rw [(MessageLog.frames_append hlog).1, ← hslot, hd.seq]
          rfl
        · rw [hi]
    · rw [if_neg hok]
      exact Or.inl rfl

end Send

section Quiet

/-- Nothing but the mask, the frozen flags, the readable range of the log and the
network changes, and only logged envelopes are sent. -/
structure Quiet (c c' : Conversation) : Prop where
  self : c'.self = c.self
  selfSlot : c'.selfSlot = c.selfSlot
  members : c'.membership.allReplicas = c.membership.allReplicas
  active : ∀ s ∈ c'.membership.slots, s.frozen = false → s ∈ c.membership.slots
  graph : c'.graph = c.graph
  deferred : c'.deferred = c.deferred
  delivered : c'.delivered = c.delivered
  frames : c'.log.frames = c.log.frames
  issued : c'.issued = c.issued
  outbox : ∀ p ∈ c'.outbox, ∀ e, p.frame = .envelope e →
    p ∈ c.outbox ∨ ∃ f ∈ c.log.frames, f.envelope = e

theorem Quiet.refl (c : Conversation) : Quiet c c :=
  ⟨rfl, rfl, rfl, fun _ h _ => h, rfl, rfl, rfl, rfl, rfl, fun _ h _ _ => Or.inl h⟩

theorem quiet_post (c : Conversation) (dst : ReplicaID) {frame : WireFrame}
    (hf : ∀ e, frame = .envelope e → ∃ f ∈ c.log.frames, f.envelope = e) :
    Quiet c (c.post dst frame) := by
  refine ⟨rfl, rfl, rfl, fun _ h _ => h, rfl, rfl, rfl, rfl, rfl, ?_⟩
  intro p hp e he
  rcases List.mem_append.mp hp with hp | hp
  · exact Or.inl hp
  · rw [List.mem_singleton.mp hp] at he
    exact Or.inr (hf e he)

theorem Quiet.trans (h : Quiet c c') (h' : Quiet c' d) : Quiet c d := by
  refine ⟨h'.self.trans h.self, h'.selfSlot.trans h.selfSlot, h'.members.trans h.members,
    fun s hs hf => h.active s (h'.active s hs hf) hf, h'.graph.trans h.graph,
    h'.deferred.trans h.deferred, h'.delivered.trans h.delivered, h'.frames.trans h.frames,
    h'.issued.trans h.issued, ?_⟩
  intro p hp e he
  rcases h'.outbox p hp e he with hp | hf
  · exact h.outbox p hp e he
  · rw [h.frames] at hf
    exact Or.inr hf

theorem quiet_handleLostRequest (c : Conversation) (missing : Key) (origin : ReplicaID) :
    Quiet c (c.handleLostRequest missing origin) := by
  unfold handleLostRequest
  split
  · exact Quiet.refl c
  · rename_i off env hl
    obtain ⟨f, hf, he, _, _⟩ := MessageLog.mem_of_lookupBySender hl
    refine quiet_post c origin ?_
    intro e heq
    cases heq
    exact ⟨f, List.mem_of_getElem? hf, he⟩

theorem quiet_handleRestartMessage (c : Conversation) (restarter : Option ReplicaID) :
    Quiet c (c.handleRestartMessage restarter) := by
  cases restarter with
  | none => exact Quiet.refl c
  | some r => exact quiet_post c r (by simp)

/-- Of the frames that arrive only envelopes change more than the outbox. -/
theorem quiet_incoming {frame : WireFrame} (hframe : ∀ env, frame ≠ .envelope env)
    (c : Conversation) (io : HandlerChoices) (origin : ReplicaID) :
    Quiet c (c.handleIncoming io origin frame) := by
  cases frame with
  | envelope env => exact absurd rfl (hframe env)
  | lostMessageRequest missing => exact quiet_handleLostRequest c missing origin
  | restartMessage restarter => exact quiet_handleRestartMessage c restarter
  | restartAck responder leaves => exact Quiet.refl c

theorem quiet_foldl_requests (missing : Key) (peers : List ReplicaID) (c : Conversation) :
    Quiet c (peers.foldl (fun c peer => c.sendLostMessageRequest missing peer) c) := by
  induction peers generalizing c with
  | nil => exact Quiet.refl c
  | cons peer peers ih => exact (quiet_post c peer (by simp)).trans (ih _)

theorem quiet_handleRequestMissing (c : Conversation) (missing : Key) :
    Quiet c (c.handleRequestMissing missing) := by
  unfold handleRequestMissing
  split
  · exact quiet_foldl_requests missing _ c
  · exact quiet_post c _ (by simp)

theorem quiet_freezeMember (c : Conversation) (r : ReplicaID) :
    Quiet c ((c.freezeMember r).getD c) := by
  unfold freezeMember
  cases hm : c.membership.freeze r with
  | none => exact Quiet.refl c
  | some m =>
    exact ⟨rfl, rfl, Membership.allReplicas_freeze hm,
      fun s hs hf => Membership.freeze_frozen_mono hm hs hf, rfl, rfl, rfl, rfl, rfl,
      fun _ h _ _ => Or.inl h⟩

theorem quiet_truncateLog (c : Conversation) (b : ℕ) : Quiet c (c.truncateLog b) :=
  ⟨rfl, rfl, rfl, fun _ h _ => h, rfl, rfl, rfl, by simp [truncateLog], rfl,
    fun _ h _ _ => Or.inl h⟩

theorem Seated.replayEntry_eq (h : Seated members c) {f : LogFrame}
    (hf : f ∈ c.graph.nodes.map Node.frame) (envs : List Envelope) :
    replayEntry (c, envs) f = (c, envs) := by
  obtain ⟨n, hn, rfl⟩ := List.mem_map.mp hf
  have hd := h.sound.derived n hn
  have hs := hd.sender
  have hseq := hd.senderSeq
  have hhas : c.graph.has ⟨n.envelope.sender, n.senderSeq⟩ = true :=
    Graph.has_iff.mpr ⟨n, hn, rfl⟩
  simp only [replayEntry, Node.frame, hs, hseq, hhas, if_true]

/-- Replaying a log whose frames the graph all knows changes nothing. -/
theorem Seated.handleReplay_known (h : Seated members c)
    (hl : c.log.frames ⊆ c.graph.nodes.map Node.frame) : c.handleReplay = (c, []) := by
  have hall : ∀ fs : List LogFrame, (∀ f ∈ fs, f ∈ c.log.frames) →
      fs.foldl replayEntry (c, []) = (c, []) := by
    intro fs hfs
    induction fs with
    | nil => rfl
    | cons f fs ih =>
      rw [List.foldl_cons, h.replayEntry_eq (hl (hfs f (List.mem_cons_self ..)))]
      exact ih (fun g hg => hfs g (List.mem_cons_of_mem _ hg))
  exact hall _ (fun f hf => List.mem_of_mem_drop hf)

theorem Live.handleReplay_eq (h : Live members c) : c.handleReplay = (c, []) :=
  h.toSeated.handleReplay_known h.logged.subset

end Quiet

section Effects

/-- Requests under which the member list stays as it was configured. -/
def Request.isStatic : Request → Bool
  | .addMember _ => false
  | _ => true

/-- Everything that a request can do to a conversation with a fixed member list. -/
inductive Effect (c : Conversation) : Request → Conversation → Prop
  | quiet {req : Request} {c' : Conversation} (h : Quiet c c') : Effect c req c'
  | issue {io : HandlerChoices} {payload : List UInt8} {n : Node} {log : MessageLog}
      (henv : c.nextEnvelope payload = some n.envelope)
      (hi : c.graph.insert c.membership n.envelope = .ok (⟨c.graph.nodes ++ [n]⟩, n))
      (hslot : n.senderSlot = c.selfSlot) (hlog : log.frames = c.log.frames ++ [n.frame]) :
      Effect c (.send io payload) (broadcastEnvelope
        { c with
          log := log
          graph := ⟨c.graph.nodes ++ [n]⟩
          delivered := c.delivered ++ [n.envelope]
          issued := c.issued ++ [n.envelope] } n.envelope)
  | receive {io : HandlerChoices} {origin : ReplicaID} {env : Envelope} {c' : Conversation}
      (h : ∀ E : Envelope → Prop, DeferredIn E c → E env → Moves io E c c') :
      Effect c (.incoming io origin (.envelope env)) c'

theorem Seated.effect (h : Seated members c) (req : Request) (hs : req.isStatic = true)
    (hr : req ≠ .replayLog) : Effect c req (c.handle req) := by
  cases req with
  | send io payload =>
    rcases h.handleSend_cases io payload with he | ⟨env, n, log, henv, hi, rfl, hn, hlog, he⟩
    · rw [handle, he]
      exact .quiet (Quiet.refl c)
    · rw [handle, he]
      exact .issue henv hi hn hlog
  | incoming io origin frame =>
    rcases frame.envelope_or with ⟨env, rfl⟩ | hframe
    · exact .receive fun E hd he => moves_handleEnvelope _ c env origin hd he
    · exact .quiet (quiet_incoming hframe c io origin)
  | maskout r =>
    exact .quiet ⟨rfl, rfl, rfl, fun _ h _ => h, rfl, rfl, rfl, rfl, rfl, fun _ h _ _ => Or.inl h⟩
  | maskin r =>
    exact .quiet ⟨rfl, rfl, rfl, fun _ h _ => h, rfl, rfl, rfl, rfl, rfl, fun _ h _ _ => Or.inl h⟩
  | replayLog => exact absurd rfl hr
  | freezeMember r => exact .quiet (quiet_freezeMember c r)
  | addMember r => cases hs
  | requestMissing missing => exact .quiet (quiet_handleRequestMissing c missing)
  | truncateLog b => exact .quiet (quiet_truncateLog c b)

theorem Live.effect (h : Live members c) (req : Request) (hs : req.isStatic = true) :
    Effect c req (c.handle req) := by
  by_cases hr : req = .replayLog
  · subst hr
    have he : c.replayLog = c := by simp [replayLog, h.handleReplay_eq]
    rw [handle, he]
    exact .quiet (Quiet.refl c)
  · exact h.toSeated.effect req hs hr

theorem Seated.quiet (h : Seated members c) (hq : Quiet c c') : Seated members c' := by
  refine ⟨hq.members.trans h.members_eq, ?_, ?_⟩
  · rw [Membership.slotOf, hq.members, hq.self, hq.selfSlot]
    exact h.slot
  · rw [hq.graph]
    exact h.sound.congr hq.members

theorem Live.quiet (h : Live members c) (hq : Quiet c c') : Live members c' := by
  refine ⟨h.toSeated.quiet hq, ?_, ?_⟩
  · rw [hq.delivered, hq.graph]
    exact h.delivered
  · rw [hq.frames, hq.graph]
    exact h.logged

theorem Quiet.extends (hq : Quiet c c') : Extends c c' :=
  ⟨hq.self, hq.selfSlot, hq.members, hq.active, hq.graph ▸ List.prefix_rfl,
    hq.delivered ▸ List.prefix_rfl, hq.frames ▸ List.prefix_rfl, hq.issued ▸ List.prefix_rfl⟩

theorem Live.handle (h : Live members c) {req : Request} (hs : req.isStatic = true) :
    Live members (c.handle req) := by
  generalize hc : c.handle req = c'
  have he : Effect c req c' := hc ▸ h.effect req hs
  cases he with
  | quiet hq => exact h.quiet hq
  | issue henv hi hn hlog =>
    refine ⟨⟨h.members_eq, h.slot, h.sound.insert hi⟩, ?_, ?_⟩
    · simp [broadcastEnvelope, h.delivered]
    · simp only [broadcastEnvelope, hlog, List.map_append, List.map_singleton]
      exact h.logged.append (List.Sublist.refl _)
  | receive hm => exact h.moves (hm (fun _ => True) (fun _ _ _ => trivial) trivial)

theorem Effect.extends {req : Request} (he : Effect c req c') : Extends c c' := by
  cases he with
  | quiet hq => exact hq.extends
  | issue henv hi hn hlog =>
    refine ⟨rfl, rfl, rfl, fun _ h _ => h, List.prefix_append _ _, List.prefix_append _ _, ?_,
      List.prefix_append _ _⟩
    simp only [broadcastEnvelope, hlog]
    exact List.prefix_append _ _
  | receive hm => exact (hm (fun _ => True) (fun _ _ _ => trivial) trivial).extends

/-- Requests that leave every slot as it is. -/
def Request.isFixed : Request → Bool
  | .addMember _ | .freezeMember _ => false
  | _ => true

theorem Request.isStatic_of_isFixed {req : Request} (h : req.isFixed = true) :
    req.isStatic = true := by
  cases req <;> first | rfl | cases h

/-- Only a send issues an envelope, and it carries the payload of the send. -/
theorem Live.issued_handle (h : Live members c) {req : Request} (hs : req.isStatic = true) :
    (c.handle req).issued = c.issued ∨ ∃ io payload env, req = .send io payload ∧
      env.payload = payload ∧ (c.handle req).issued = c.issued ++ [env] := by
  have heff := h.effect req hs
  generalize c.handle req = c' at heff ⊢
  cases heff with
  | quiet hq => exact Or.inl hq.issued
  | issue henv hi hslot hlog =>
    obtain ⟨vec, _, hvec⟩ := Option.map_eq_some_iff.mp henv
    exact Or.inr ⟨_, _, _, rfl, by rw [← hvec], rfl⟩
  | receive hm => exact Or.inl (hm (fun _ => True) (fun _ _ _ => trivial) trivial).issued

theorem firstOffset_append_getD (log : MessageLog) (env : Envelope) (seq : ℕ) :
    ((log.append env seq).getD log).firstOffset = log.firstOffset := by
  cases hlog : log.append env seq with
  | none => rfl
  | some log' => exact (MessageLog.frames_append hlog).2

theorem Moves.firstOffset (hm : Moves io E c c') : c'.log.firstOffset = c.log.firstOffset := by
  induction hm with
  | refl => rfl
  | tail _ hm ih =>
    cases hm with
    | bookkeeping hb => rw [hb.frame]; exact ih
    | accept he hs hi =>
      rw [← ih]
      unfold Conversation.accept
      dsimp only
      split
      · exact firstOffset_append_getD _ _ _
      · rfl

theorem foldl_requests_eq (missing : Key) (peers : List ReplicaID) (c : Conversation) :
    peers.foldl (fun c peer => c.sendLostMessageRequest missing peer) c =
      { c with outbox :=
        (peers.foldl (fun c peer => c.sendLostMessageRequest missing peer) c).outbox } := by
  induction peers generalizing c with
  | nil => rfl
  | cons peer peers ih =>
    rw [List.foldl_cons, ih]
    rfl

section Replies

/-- Replies and requests to other replicas change the outbox only. -/
theorem handleLostRequest_eq (c : Conversation) (missing : Key) (origin : ReplicaID) :
    c.handleLostRequest missing origin =
      { c with outbox := (c.handleLostRequest missing origin).outbox } := by
  unfold handleLostRequest
  split <;> rfl

theorem handleRestartMessage_eq (c : Conversation) (restarter : Option ReplicaID) :
    c.handleRestartMessage restarter =
      { c with outbox := (c.handleRestartMessage restarter).outbox } := by
  cases restarter <;> rfl

theorem handleIncoming_eq {frame : WireFrame} (hframe : ∀ env, frame ≠ .envelope env)
    (c : Conversation) (io : HandlerChoices) (origin : ReplicaID) :
    c.handleIncoming io origin frame =
      { c with outbox := (c.handleIncoming io origin frame).outbox } := by
  cases frame with
  | envelope env => exact absurd rfl (hframe env)
  | lostMessageRequest missing => exact handleLostRequest_eq c missing origin
  | restartMessage restarter => exact handleRestartMessage_eq c restarter
  | restartAck responder leaves => rfl

/-- A send touches the histories and the graph. -/
theorem handleSend_eq (c : Conversation) (io : HandlerChoices) (payload : List UInt8) :
    c.handleSend io payload =
      { c with
        log := (c.handleSend io payload).log
        graph := (c.handleSend io payload).graph
        delivered := (c.handleSend io payload).delivered
        outbox := (c.handleSend io payload).outbox
        issued := (c.handleSend io payload).issued } := by
  unfold handleSend
  split
  · rfl
  · dsimp only
    split
    · split
      · rfl
      · split <;> rfl
    · rfl

theorem handleRequestMissing_eq (c : Conversation) (missing : Key) :
    c.handleRequestMissing missing =
      { c with outbox := (c.handleRequestMissing missing).outbox } := by
  unfold handleRequestMissing
  split
  · exact foldl_requests_eq ..
  · rfl

end Replies

/-- A send leaves the log as it is or appends to it. -/
theorem log_handleSend (c : Conversation) (io : HandlerChoices) (payload : List UInt8) :
    (c.handleSend io payload).log = c.log ∨
      ∃ env seq, c.log.append env seq = some (c.handleSend io payload).log := by
  unfold handleSend
  split
  · exact Or.inl rfl
  · dsimp only
    split
    · split
      · exact Or.inl rfl
      · rename_i hlog
        refine Or.inr ⟨_, _, hlog.trans ?_⟩
        split <;> rfl
    · exact Or.inl rfl

theorem firstOffset_handleSend (c : Conversation) (io : HandlerChoices) (payload : List UInt8) :
    (c.handleSend io payload).log.firstOffset = c.log.firstOffset := by
  rcases log_handleSend c io payload with hlog | ⟨env, seq, hlog⟩
  · rw [hlog]
  · exact (MessageLog.frames_append hlog).2

/-- Nothing but a truncation trims the log. -/
theorem firstOffset_handle (c : Conversation) {req : Request}
    (ht : ∀ b, req ≠ .truncateLog b) (hr : req ≠ .replayLog) :
    (c.handle req).log.firstOffset = c.log.firstOffset := by
  cases req with
  | send io payload => exact firstOffset_handleSend c io payload
  | incoming io origin frame =>
    rcases frame.envelope_or with ⟨env, rfl⟩ | hframe
    · exact (moves_handleEnvelope (E := fun _ => True) _ c env origin (fun _ _ _ => trivial)
        trivial).firstOffset
    · rw [Conversation.handle, handleIncoming_eq hframe]
  | maskout r => rfl
  | maskin r => rfl
  | replayLog => exact absurd rfl hr
  | freezeMember r =>
    simp only [Conversation.handle, freezeMember]
    cases c.membership.freeze r <;> rfl
  | addMember r =>
    simp only [Conversation.handle, addMember]
    cases c.membership.add r <;> rfl
  | requestMissing missing => rw [Conversation.handle, handleRequestMissing_eq]
  | truncateLog b => exact absurd rfl (ht b)

theorem Live.firstOffset_handle (h : Live members c) {req : Request}
    (ht : ∀ b, req ≠ .truncateLog b) :
    (c.handle req).log.firstOffset = c.log.firstOffset := by
  by_cases hr : req = .replayLog
  · subst hr
    simp [Conversation.handle, replayLog, h.handleReplay_eq]
  · exact Conversation.firstOffset_handle c ht hr

theorem replayEntry_cases (c : Conversation) (envs : List Envelope) (f : LogFrame) :
    replayEntry (c, envs) f = (c, envs) ∨
      ∃ n, c.graph.insert c.membership f.envelope = .ok (⟨c.graph.nodes ++ [n]⟩, n) ∧
        n.envelope = f.envelope ∧
        replayEntry (c, envs) f =
          ({ c with graph := ⟨c.graph.nodes ++ [n]⟩ }, envs ++ [f.envelope]) := by
  unfold replayEntry
  dsimp only
  split
  · exact Or.inl rfl
  · split
    · exact Or.inl rfl
    · split
      · exact Or.inl rfl
      · split
        · exact Or.inl rfl
        · rename_i g n hi
          obtain ⟨rfl, hne, _, _, _⟩ := Graph.insert_ok hi
          exact Or.inr ⟨n, hi, hne, rfl⟩

theorem foldl_replayEntry_frame (fs : List LogFrame) (st : Conversation × List Envelope) :
    (fs.foldl replayEntry st).1 = { st.1 with graph := (fs.foldl replayEntry st).1.graph } := by
  induction fs generalizing st with
  | nil => rfl
  | cons f fs ih =>
    rw [List.foldl_cons, ih]
    rcases replayEntry_cases st.1 st.2 f with he | ⟨n, _, _, he⟩
    · rw [he]
    · rw [he]

theorem membership_handle {req : Request} (hf : req.isFixed = true) :
    (c.handle req).membership = c.membership := by
  cases req with
  | send io payload => rw [Conversation.handle, handleSend_eq]
  | incoming io origin frame =>
    rcases frame.envelope_or with ⟨env, rfl⟩ | hframe
    · exact (moves_handleEnvelope (E := fun _ => True) _ c env origin (fun _ _ _ => trivial)
        trivial).kept.2
    · rw [Conversation.handle, handleIncoming_eq hframe]
  | maskout r => rfl
  | maskin r => rfl
  | replayLog => rw [Conversation.handle, replayLog, handleReplay, foldl_replayEntry_frame]
  | freezeMember r => cases hf
  | addMember r => cases hf
  | requestMissing missing => rw [Conversation.handle, handleRequestMissing_eq]
  | truncateLog b => rfl

end Effects

end Conversation
end Comlink
