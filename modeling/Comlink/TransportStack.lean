import Comlink.Multiplexing
import Comlink.ReplicaGroup

/-!
# Conversations over the real transport

The way of a frame from one conversation to another: `psync` marshals it and sends it in a
goroutine of its own, the view of the conversation wraps it, the transport carries it, the
pump of the receiving multiplex hands it to a view, `pumpInput` casts it into the mailbox of
the server goroutine, and the server unmarshals it. Several conversations share the
endpoints.

What the source takes from libraries is left open. The encodings are parameters with their
round trips, the transport may lose, delay, repeat and reorder what it was given, and of the
mailbox it is only assumed that the server handles what was cast into it, one message at a
time.

Each conversation behaves as if it had the abstract network of `ReplicaGroup` to itself.
-/
namespace Comlink
open GuardedRuns

/-! ### What a handler posts -/

namespace Conversation

/-- The handler has only added packets of its own replica to the outbox. -/
structure Posts (c c' : Conversation) : Prop where
  self : c'.self = c.self
  outbox : ∃ new, c'.outbox = c.outbox ++ new ∧ ∀ pkt ∈ new, pkt.src = c.self

variable {c c' d : Conversation}

theorem Posts.of_eq (hself : c'.self = c.self) (h : c'.outbox = c.outbox) : Posts c c' :=
  ⟨hself, [], by simp [h], by simp⟩

theorem Posts.refl (c : Conversation) : Posts c c := .of_eq rfl rfl

theorem Posts.trans (h : Posts c c') (h' : Posts c' d) : Posts c d := by
  obtain ⟨new, hout, hsrc⟩ := h.outbox
  obtain ⟨new', hout', hsrc'⟩ := h'.outbox
  refine ⟨h'.self.trans h.self, new ++ new', by rw [hout', hout, List.append_assoc], ?_⟩
  intro pkt hpkt
  rcases List.mem_append.mp hpkt with hold | hnew
  · exact hsrc pkt hold
  · rw [hsrc' pkt hnew, h.self]

/-- The handler first changes other parts of the state. -/
theorem Posts.after (h : Posts c' d) (hself : c'.self = c.self)
    (hout : c'.outbox = c.outbox) : Posts c d :=
  (Posts.of_eq hself hout).trans h

theorem posts_post (c : Conversation) (dst : ReplicaID) (frame : WireFrame) :
    Posts c (c.post dst frame) :=
  ⟨rfl, [⟨c.self, dst, frame⟩], rfl, by simp⟩

theorem Posts.foldl {α : Type} {f : Conversation → α → Conversation}
    (hf : ∀ c a, Posts c (f c a)) (xs : List α) (c : Conversation) : Posts c (xs.foldl f c) := by
  induction xs generalizing c with
  | nil => exact .refl c
  | cons x xs ih => exact (hf c x).trans (ih (f c x))

theorem posts_handleSend (c : Conversation) (io : HandlerChoices) (payload : List UInt8) :
    Posts c (c.handleSend io payload) := by
  unfold handleSend
  split
  · exact .refl c
  · dsimp only
    split
    · split
      · exact .refl c
      · split
        · exact .of_eq rfl rfl
        · refine ⟨rfl, _, rfl, ?_⟩
          intro pkt hpkt
          obtain ⟨dst, -, rfl⟩ := List.mem_map.mp hpkt
          rfl
    · exact .refl c

theorem posts_awaitParent (envKey : Key) (origin : ReplicaID) (c : Conversation) (parent : Key) :
    Posts c (awaitParent envKey origin c parent) := by
  unfold awaitParent
  dsimp only
  split
  · exact .of_eq rfl rfl
  · exact (posts_post _ _ _).after rfl rfl

theorem posts_deferEnvelope (c : Conversation) (env : Envelope) (missing : List Key)
    (origin : ReplicaID) : Posts c (c.deferEnvelope env missing origin) := by
  unfold deferEnvelope
  split
  · exact .refl c
  · dsimp only
    split
    · exact .refl c
    · exact (Posts.foldl (posts_awaitParent _ origin) missing c).trans (.of_eq rfl rfl)

theorem posts_releaseDependent {handle : Conversation → Envelope → ReplicaID → Conversation}
    (hhandle : ∀ c env origin, Posts c (handle c env origin)) (parent : Key) (c : Conversation)
    (k : Key) : Posts c (releaseDependent handle parent c k) := by
  unfold releaseDependent
  split
  · exact .refl c
  · dsimp only
    split
    · exact (hhandle _ _ _).after rfl rfl
    · exact .of_eq rfl rfl

theorem posts_processNewlyAvailable (io : HandlerChoices)
    {handle : Conversation → Envelope → ReplicaID → Conversation}
    (hhandle : ∀ c env origin, Posts c (handle c env origin)) (c : Conversation)
    (parent : Key) : Posts c (processNewlyAvailable io handle c parent) := by
  unfold processNewlyAvailable
  dsimp only
  split
  · exact .of_eq rfl rfl
  · exact (Posts.foldl (posts_releaseDependent hhandle parent) _ _).after rfl rfl

theorem posts_handleEnvelope (io : HandlerChoices) (fuel : ℕ) (c : Conversation)
    (env : Envelope) (origin : ReplicaID) : Posts c (handleEnvelope io fuel c env origin) := by
  induction fuel generalizing c env origin with
  | zero => exact .refl c
  | succ fuel ih =>
    unfold handleEnvelope
    split
    · exact .refl c
    · split
      · exact posts_deferEnvelope c env _ origin
      · exact .refl c
      · exact (posts_processNewlyAvailable io ih _ _).after rfl rfl

theorem posts_handleReplay (c : Conversation) : Posts c c.handleReplay.1 := by
  have hfold (frames : List LogFrame) (st : Conversation × List Envelope) :
      Posts st.1 (frames.foldl replayEntry st).1 := by
    induction frames generalizing st with
    | nil => exact .refl st.1
    | cons f frames ih =>
      have hentry : Posts st.1 (replayEntry st f).1 := by
        unfold replayEntry
        dsimp only
        split
        · exact .refl st.1
        · split
          · exact .refl st.1
          · split
            · exact .refl st.1
            · split
              · exact .refl st.1
              · exact .of_eq rfl rfl
      exact hentry.trans (ih _)
  exact hfold c.log.entries (c, [])

theorem posts_handleIncoming (c : Conversation) (io : HandlerChoices) (origin : ReplicaID)
    (frame : WireFrame) : Posts c (c.handleIncoming io origin frame) := by
  cases frame with
  | envelope env => exact posts_handleEnvelope io _ c env origin
  | lostMessageRequest missing =>
    simp only [handleIncoming, handleLostRequest]
    split
    · exact .refl c
    · exact posts_post c _ _
  | restartMessage restarter =>
    simp only [handleIncoming, handleRestartMessage]
    split
    · exact .refl c
    · exact posts_post c _ _
  | restartAck => exact .refl c

theorem posts_handle (c : Conversation) (req : Request) : Posts c (c.handle req) := by
  cases req with
  | send io payload => exact posts_handleSend c io payload
  | incoming io origin frame => exact posts_handleIncoming c io origin frame
  | maskout r => exact .of_eq rfl rfl
  | maskin r => exact .of_eq rfl rfl
  | replayLog => exact (posts_handleReplay c).trans (.of_eq rfl rfl)
  | freezeMember r =>
    simp only [handle, freezeMember]
    cases c.membership.freeze r <;> exact .of_eq rfl rfl
  | addMember r =>
    simp only [handle, addMember]
    cases c.membership.add r <;> exact .of_eq rfl rfl
  | requestMissing missing =>
    simp only [handle, handleRequestMissing]
    split
    · exact Posts.foldl (fun c peer => posts_post c peer _) _ c
    · exact posts_post c _ _
  | truncateLog belowOffset => exact .of_eq rfl rfl

end Conversation

/-! ### The wire -/

inductive WireError where
  | malformed
  | emptyPsyncMessage
  deriving DecidableEq, Repr

/-- The encoding of a `PsyncMessage`, whose body may be unset. -/
structure PsyncCodec where
  marshal : Option WireFrame → List UInt8
  unmarshal : List UInt8 → Option (Option WireFrame)
  unmarshal_marshal : ∀ body, unmarshal (marshal body) = some body

namespace PsyncCodec

/-- `MarshalEnvelope`, `MarshalLostMessageRequest`, `MarshalRestartMessage` and
`MarshalRestartAck`. -/
def marshalWire (P : PsyncCodec) (frame : WireFrame) : List UInt8 := P.marshal (some frame)

def unmarshalWire (P : PsyncCodec) (data : List UInt8) : Except WireError WireFrame :=
  match P.unmarshal data with
  | none => .error .malformed
  | some none => .error .emptyPsyncMessage
  | some (some frame) => .ok frame

@[simp] theorem unmarshalWire_marshalWire (P : PsyncCodec) (frame : WireFrame) :
    P.unmarshalWire (P.marshalWire frame) = .ok frame := by
  simp [unmarshalWire, marshalWire, P.unmarshal_marshal]

end PsyncCodec

namespace UnaryBytes

def putID (id : MessageID) : List UInt8 :=
  putOption id.conversationId ++ (putOption id.sender ++
    (putNat id.vectorClock.length ++ id.vectorClock.flatMap putNat))

def getID (bs : List UInt8) : Option (MessageID × List UInt8) :=
  (getOption bs).bind fun conv => (getOption conv.2).bind fun sender =>
    (getNat sender.2).bind fun n => (getNats n.1 n.2).map fun clock =>
      (⟨conv.1, sender.1, clock.1⟩, clock.2)

def getIDs : ℕ → List UInt8 → Option (List MessageID)
  | 0, _ => some []
  | n + 1, bs => (getID bs).bind fun r => (getIDs n r.2).map fun ids => r.1 :: ids

@[simp] theorem getID_putID (id : MessageID) (rest : List UInt8) :
    getID (putID id ++ rest) = some (id, rest) := by
  simp [getID, putID]

@[simp] theorem getIDs_flatMap (ids : List MessageID) :
    getIDs ids.length (ids.flatMap putID) = some ids := by
  induction ids with
  | nil => rfl
  | cons id ids ih => simp [getIDs, ih]

end UnaryBytes

section Unary
open UnaryBytes

/-- A small codec: the number of the body, then its content. -/
def PsyncCodec.unary : PsyncCodec where
  marshal
    | none => []
    | some (.envelope env) => 1 :: (putID env.id ++ env.payload)
    | some (.lostMessageRequest missing) => 2 :: (putNat missing.seq ++ missing.sender)
    | some (.restartMessage restarter) => 3 :: putOption restarter
    | some (.restartAck responder leaves) =>
      4 :: (putOption (some responder) ++ (putNat leaves.length ++ leaves.flatMap putID))
  unmarshal
    | [] => some none
    | 1 :: bs => (getID bs).map fun r => some (.envelope ⟨r.1, r.2⟩)
    | 2 :: bs => (getNat bs).map fun r => some (.lostMessageRequest ⟨r.2, r.1⟩)
    | 3 :: bs => (getOption bs).map fun r => some (.restartMessage r.1)
    | 4 :: bs => (getOption bs).bind fun r => (getNat r.2).bind fun n =>
      (getIDs n.1 n.2).map fun leaves => some (.restartAck (r.1.getD []) leaves)
    | _ => none
  unmarshal_marshal body := by
    cases body with
    | none => rfl
    | some frame =>
      cases frame with
      | restartMessage restarter =>
        have hread := getOption_putOption restarter []
        rw [List.append_nil] at hread
        simp [hread]
      | _ => simp

end Unary

structure StackCodec where
  frames : MultiplexCodec
  messages : PsyncCodec

def StackCodec.unary : StackCodec := ⟨.unary, .unary⟩

/-! ### The stack -/

/-- A payload that was handed to the transport. -/
structure Datagram where
  src : ReplicaID
  dst : ReplicaID
  payload : List UInt8
  deriving DecidableEq, Repr

structure Stack where
  nets : ConversationID → Network
  /-- The sends that goroutines of `psync` still have to make. -/
  outgoing : List (ConversationID × Packet)
  /-- The history of what the transport was given. -/
  sent : List Datagram
  muxes : ReplicaID → Multiplex
  /-- The history of what was cast to the server of a conversation. -/
  mailboxes : ReplicaID → ConversationID → List Inbound

inductive StackAction where
  | call (r : ReplicaID) (convID : ConversationID) (request : Conversation.Request)
  | transmit (i : ℕ) (accepted : Bool)
  | mux (r : ReplicaID) (action : MuxAction)
  | pumpInput (r : ReplicaID) (view : ℕ)
  | handleCast (r : ReplicaID) (convID : ConversationID) (inbound : Inbound)
    (io : HandlerChoices)

/-- Frames reach a conversation through its mailbox only. -/
def Conversation.Request.isLocal : Conversation.Request → Bool
  | .incoming _ _ _ => false
  | _ => true

/-- The messages of a multiplex that reach its pump, and those that readers take. -/
def MuxAction.isInternal : MuxAction → Bool
  | .read _ | .receive _ => false
  | _ => true

namespace Stack

def group (members : ConversationID → List ReplicaID) (convID : ConversationID) : Group :=
  ⟨convID, members convID⟩

def start (members : ConversationID → List ReplicaID) (bufSize : ℕ) : Stack where
  nets convID := (group members convID).start
  outgoing := []
  sent := []
  muxes _ := .new bufSize
  mailboxes _ _ := []

/-- The server of a conversation handles a request and starts the sends that it asks for. -/
def handle (s : Stack) (r : ReplicaID) (convID : ConversationID)
    (request : Conversation.Request) : Stack :=
  let c := s.nets convID r
  let c' := c.handle request
  { s with
    nets := Function.update s.nets convID (Function.update (s.nets convID) r c')
    outgoing := s.outgoing ++ (c'.outbox.drop c.outbox.length).map (convID, ·) }

/-- What `Send` of a view hands to the transport. -/
def datagram (C : StackCodec) (convID : ConversationID) (pkt : Packet) : Datagram :=
  ⟨pkt.src, pkt.dst, Multiplex.wrap C.frames convID (C.messages.marshalWire pkt.frame)⟩

/-- A send is made, or fails without a trace. -/
def transmit (C : StackCodec) (s : Stack) (i : ℕ) (accepted : Bool) (convID : ConversationID)
    (pkt : Packet) : Stack :=
  { s with
    outgoing := s.outgoing.eraseIdx i
    sent := if accepted then s.sent ++ [datagram C convID pkt] else s.sent }

def setMux (s : Stack) (r : ReplicaID) (m : Multiplex) : Stack :=
  { s with muxes := Function.update s.muxes r m }

def setMailbox (s : Stack) (r : ReplicaID) (convID : ConversationID) (box : List Inbound) :
    Stack :=
  { s with
    mailboxes :=
      Function.update s.mailboxes r (Function.update (s.mailboxes r) convID box) }

/-- `pumpInput` casts the next message of a view into the mailbox of its conversation. -/
def pumpInput (s : Stack) (r : ReplicaID) (view : ℕ) : Option Stack :=
  (s.muxes r).made[view]?.bind fun v => v.recv.take.map fun p =>
    let m := { s.muxes r with made := (s.muxes r).made.set view { v with recv := p.2 } }
    (s.setMux r m).setMailbox r v.convID (s.mailboxes r v.convID ++ [p.1])

/-- The server handles a message that was cast to it, if it can be decoded. -/
def handleCast (C : StackCodec) (s : Stack) (r : ReplicaID) (convID : ConversationID)
    (inbound : Inbound) (io : HandlerChoices) : Stack :=
  match C.messages.unmarshalWire inbound.payload with
  | .error _ => s
  | .ok frame => s.handle r convID (.incoming io inbound.origin frame)

def step (C : StackCodec) (members : ConversationID → List ReplicaID) (s : Stack) :
    StackAction → Option Stack
  | .call r convID request =>
    if r ∈ members convID ∧ request.isLocal = true then some (s.handle r convID request)
    else none
  | .transmit i accepted => s.outgoing[i]?.map fun p => s.transmit C i accepted p.1 p.2
  | .mux r (.read inbound) =>
    if ⟨inbound.origin, r, inbound.payload⟩ ∈ s.sent then
      ((s.muxes r).step C.frames.unmarshal (.read inbound)).map (s.setMux r)
    else none
  | .mux r action =>
    if action.isInternal = true then
      ((s.muxes r).step C.frames.unmarshal action).map (s.setMux r)
    else none
  | .pumpInput r view => s.pumpInput r view
  | .handleCast r convID inbound io =>
    if r ∈ members convID ∧ inbound ∈ s.mailboxes r convID then
      some (s.handleCast C r convID inbound io)
    else none

variable {C : StackCodec} {members : ConversationID → List ReplicaID} {s t : Stack}
  {r : ReplicaID} {convID : ConversationID}

/-! ### What is on its way -/

/-- The frame was once posted by a member of the conversation to the given replica. -/
structure Posted (members : ConversationID → List ReplicaID)
    (nets : ConversationID → Network) (convID : ConversationID) (src dst : ReplicaID)
    (frame : WireFrame) : Prop where
  member : src ∈ members convID
  outbox : ⟨src, dst, frame⟩ ∈ (nets convID src).outbox

structure Sound (C : StackCodec) (members : ConversationID → List ReplicaID) (s : Stack) :
    Prop where
  self : ∀ convID p, (s.nets convID p).self = p
  outgoing : ∀ p ∈ s.outgoing, Posted members s.nets p.1 p.2.src p.2.dst p.2.frame
  sent : ∀ d ∈ s.sent, ∃ convID frame,
    d.payload = Multiplex.wrap C.frames convID (C.messages.marshalWire frame) ∧
      Posted members s.nets convID d.src d.dst frame
  routed : ∀ p, (s.muxes p).Routed C.frames.unmarshal
  read : ∀ p, ∀ inbound ∈ (s.muxes p).read, ⟨inbound.origin, p, inbound.payload⟩ ∈ s.sent
  mailboxes : ∀ p convID, ∀ inbound ∈ s.mailboxes p convID, ∃ frame,
    inbound.payload = C.messages.marshalWire frame ∧
      Posted members s.nets convID inbound.origin p frame

theorem sound_start (C : StackCodec) (members : ConversationID → List ReplicaID) (bufSize : ℕ) :
    Sound C members (start members bufSize) where
  self _ _ := rfl
  outgoing _ h := by cases h
  sent _ h := by cases h
  routed _ := Multiplex.routed_new _ bufSize
  read _ _ h := by cases h
  mailboxes _ _ _ h := by cases h

/-- Only the outboxes of the conversations count for what is on its way. -/
theorem Posted.mono {nets nets' : ConversationID → Network} {src dst : ReplicaID}
    {frame : WireFrame} (h : Posted members nets convID src dst frame)
    (hout : ∀ c p, ∀ pkt ∈ (nets c p).outbox, pkt ∈ (nets' c p).outbox) :
    Posted members nets' convID src dst frame :=
  ⟨h.member, hout convID src _ h.outbox⟩

theorem mem_handle_outbox (s : Stack) (r : ReplicaID) (convID : ConversationID)
    (request : Conversation.Request) (c : ConversationID) (p : ReplicaID) {pkt : Packet}
    (h : pkt ∈ (s.nets c p).outbox) : pkt ∈ ((s.handle r convID request).nets c p).outbox := by
  obtain ⟨new, hout, -⟩ := (Conversation.posts_handle (s.nets convID r) request).outbox
  by_cases hc : c = convID
  · subst hc
    by_cases hp : p = r
    · subst hp
      simp [handle, hout, h]
    · simpa [handle, hp] using h
  · simpa [handle, hc] using h

theorem Sound.handle (h : Sound C members s) (hr : r ∈ members convID)
    (request : Conversation.Request) : Sound C members (s.handle r convID request) := by
  have hmono := mem_handle_outbox s r convID request
  obtain ⟨hself, new, hout, hsrc⟩ := Conversation.posts_handle (s.nets convID r) request
  refine ⟨?_, ?_, ?_, h.routed, h.read, ?_⟩
  · intro c p
    by_cases hc : c = convID
    · subst hc
      by_cases hp : p = r
      · subst hp
        simpa [Stack.handle] using hself.trans (h.self c p)
      · simpa [Stack.handle, hp] using h.self c p
    · simpa [Stack.handle, hc] using h.self c p
  · intro p hp
    rcases List.mem_append.mp hp with hold | hnew
    · exact (h.outgoing p hold).mono fun c q _ => hmono c q
    · rw [hout, List.drop_left] at hnew
      obtain ⟨pkt, hpkt, rfl⟩ := List.mem_map.mp hnew
      have hself : pkt.src = r := (hsrc pkt hpkt).trans (h.self convID r)
      subst hself
      refine ⟨hr, ?_⟩
      simp [Stack.handle, hout, hpkt]
  · intro d hd
    obtain ⟨c, frame, hpay, hposted⟩ := h.sent d hd
    exact ⟨c, frame, hpay, hposted.mono fun c q _ => hmono c q⟩
  · intro p c inbound hin
    obtain ⟨frame, hpay, hposted⟩ := h.mailboxes p c inbound hin
    exact ⟨frame, hpay, hposted.mono fun c q _ => hmono c q⟩

theorem Sound.transmit (h : Sound C members s) {i : ℕ} {accepted : Bool} {pkt : Packet}
    (hi : s.outgoing[i]? = some (convID, pkt)) :
    Sound C members (s.transmit C i accepted convID pkt) := by
  have hposted := h.outgoing _ (List.mem_of_getElem? hi)
  have hsub : ∀ d ∈ s.sent, d ∈ (s.transmit C i accepted convID pkt).sent := by
    intro d hd
    cases accepted <;> simp [Stack.transmit, hd]
  refine ⟨h.self, ?_, ?_, h.routed, ?_, h.mailboxes⟩
  · intro p hp
    exact h.outgoing p ((List.eraseIdx_sublist s.outgoing i).subset hp)
  · intro d hd
    cases accepted with
    | false => exact h.sent d hd
    | true =>
      rcases List.mem_append.mp hd with hold | hnew
      · exact h.sent d hold
      · obtain rfl := List.mem_singleton.mp hnew
        exact ⟨convID, pkt.frame, rfl, hposted⟩
  · intro p inbound hin
    exact hsub _ (h.read p inbound hin)

theorem read_of_step {decode : FrameDecoder} {m m' : Multiplex} {a : MuxAction}
    (hs : Multiplex.Stepped decode m a m') :
    m'.read = m.read ∨ ∃ inbound, a = .read inbound ∧ m'.read = m.read ++ [inbound] := by
  cases hs with
  | @read inbound => exact .inr ⟨inbound, rfl, rfl⟩
  | _ => exact .inl rfl

theorem Sound.setMux (h : Sound C members s) {m : Multiplex} (hm : m.Routed C.frames.unmarshal)
    (hread : ∀ inbound ∈ m.read, ⟨inbound.origin, r, inbound.payload⟩ ∈ s.sent) :
    Sound C members (s.setMux r m) := by
  refine ⟨h.self, h.outgoing, h.sent, ?_, ?_, h.mailboxes⟩
  · intro p
    by_cases hp : p = r
    · subst hp
      simpa [Stack.setMux] using hm
    · simpa [Stack.setMux, hp] using h.routed p
  · intro p
    by_cases hp : p = r
    · subst hp
      simpa [Stack.setMux] using hread
    · simpa [Stack.setMux, hp] using h.read p

theorem Sound.mux (h : Sound C members s) {a : MuxAction} {m : Multiplex}
    (hstep : (s.muxes r).step C.frames.unmarshal a = some m)
    (hread : ∀ inbound, a = .read inbound →
      ⟨inbound.origin, r, inbound.payload⟩ ∈ s.sent) : Sound C members (s.setMux r m) := by
  have hs := Multiplex.stepped_of_step hstep
  apply h.setMux ((h.routed r).step hs)
  intro inbound hin
  rcases read_of_step hs with heq | ⟨new, rfl, heq⟩
  · exact h.read r inbound (heq ▸ hin)
  · rw [heq] at hin
    rcases List.mem_append.mp hin with hold | hnew
    · exact h.read r inbound hold
    · obtain rfl := List.mem_singleton.mp hnew
      exact hread _ rfl

theorem Sound.setMailbox (h : Sound C members s) {box : List Inbound}
    (hbox : ∀ inbound ∈ box, ∃ frame, inbound.payload = C.messages.marshalWire frame ∧
      Posted members s.nets convID inbound.origin r frame) :
    Sound C members (s.setMailbox r convID box) := by
  refine ⟨h.self, h.outgoing, h.sent, h.routed, h.read, ?_⟩
  intro p c
  by_cases hp : p = r
  · subst hp
    by_cases hc : c = convID
    · subst hc
      simpa [Stack.setMailbox] using hbox
    · simpa [Stack.setMailbox, hc] using h.mailboxes p c
  · simpa [Stack.setMailbox, hp] using h.mailboxes p c

/-- What a view was handed is a frame that was posted in its own conversation. -/
theorem Sound.accepted (h : Sound C members s) {view : ℕ} {v : View} {inbound : Inbound}
    (hv : (s.muxes r).made[view]? = some v) (hin : inbound ∈ v.recv.accepted) :
    ∃ frame, inbound.payload = C.messages.marshalWire frame ∧
      Posted members s.nets v.convID inbound.origin r frame := by
  have hsub := (List.sublist_append_left _ _).trans ((h.routed r).accepted hv)
  obtain ⟨raw, hraw, hunwrap⟩ := List.mem_filterMap.mp (hsub.subset hin)
  have hsent := h.read r raw (List.mem_of_mem_drop hraw)
  obtain ⟨c, frame, hpay, hposted⟩ := h.sent _ hsent
  have hdecode : C.frames.unmarshal raw.payload =
      some ⟨c, C.messages.marshalWire frame⟩ := by
    rw [show raw.payload = _ from hpay]
    exact C.frames.unmarshal_marshal _
  rw [Multiplex.unwrap_of_unmarshal hdecode] at hunwrap
  split at hunwrap
  · rename_i hconv
    obtain rfl := Option.some.inj hunwrap
    dsimp only at hconv
    subst hconv
    exact ⟨frame, rfl, hposted⟩
  · cases hunwrap

theorem Sound.pumpInput (h : Sound C members s) {view : ℕ}
    (hstep : s.pumpInput r view = some t) : Sound C members t := by
  obtain ⟨v, hv, htake⟩ := Option.bind_eq_some_iff.mp hstep
  obtain ⟨⟨inbound, recv⟩, hrecv, rfl⟩ := Option.map_eq_some_iff.mp htake
  have hs : Multiplex.Stepped C.frames.unmarshal (s.muxes r) (.receive view)
      { s.muxes r with made := (s.muxes r).made.set view { v with recv := recv } } :=
    .receive hv hrecv
  apply (h.setMux ((h.routed r).step hs) (h.read r)).setMailbox
  intro inb hin
  rcases List.mem_append.mp hin with hold | hnew
  · exact h.mailboxes r v.convID inb hold
  · obtain rfl := List.mem_singleton.mp hnew
    exact h.accepted hv (Chan.mem_accepted_of_take hrecv)

/-! ### The refinement -/

/-- One step of the stack, as each of the conversations sees it. -/
def Simulates (members : ConversationID → List ReplicaID) (a : StackAction) (s t : Stack) :
    Prop :=
  ∀ c, t.nets c = s.nets c ∨ ∃ p request,
    (group members c).netStep (s.nets c) ⟨p, request⟩ = some (t.nets c) ∧
      (request.isLocal = true → a = .call p c request)

theorem simulates_of_nets_eq {a : StackAction} (h : t.nets = s.nets) : Simulates members a s t :=
  fun c => .inl (congrFun h c)

theorem simulates_handle {a : StackAction} {s' : Stack} {request : Conversation.Request}
    (hnets : s'.nets = s.nets) (hr : r ∈ members convID)
    (hdel : (group members convID).Deliverable (s.nets convID) r request)
    (ha : request.isLocal = true → a = .call r convID request) :
    Simulates members a s (s'.handle r convID request) := by
  intro c
  by_cases hc : c = convID
  · subst hc
    refine .inr ⟨r, request, ?_, ha⟩
    have hguard : r ∈ (group members c).members ∧
        (group members c).Deliverable (s.nets c) r request := ⟨hr, hdel⟩
    simp [Group.netStep, hguard, handle, hnets]
  · left
    simp [handle, hc, hnets]

theorem deliverable_of_isLocal {G : Group} {net : Network} {request : Conversation.Request}
    (h : request.isLocal = true) : G.Deliverable net r request := by
  cases request with
  | incoming io origin frame => cases h
  | _ => trivial

theorem Sound.handleCast (h : Sound C members s) (hr : r ∈ members convID) {inbound : Inbound}
    (hin : inbound ∈ s.mailboxes r convID) (io : HandlerChoices) (a : StackAction) :
    Sound C members (s.handleCast C r convID inbound io) ∧
      Simulates members a s (s.handleCast C r convID inbound io) := by
  obtain ⟨frame, hpay, hposted⟩ := h.mailboxes r convID inbound hin
  rw [Stack.handleCast, hpay, PsyncCodec.unmarshalWire_marshalWire]
  refine ⟨h.handle hr _, simulates_handle rfl hr ?_ ?_⟩
  · exact ⟨hposted.member, hposted.outbox⟩
  · intro hlocal
    cases hlocal

theorem Sound.step (h : Sound C members s) {a : StackAction}
    (hstep : step C members s a = some t) : Sound C members t ∧ Simulates members a s t := by
  unfold Stack.step at hstep
  split at hstep
  · rename_i r convID request
    split at hstep
    · rename_i hg
      obtain rfl := Option.some.inj hstep
      exact ⟨h.handle hg.1 request,
        simulates_handle rfl hg.1 (deliverable_of_isLocal hg.2) fun _ => rfl⟩
    · cases hstep
  · rename_i i accepted
    obtain ⟨⟨convID, pkt⟩, hi, rfl⟩ := Option.map_eq_some_iff.mp hstep
    exact ⟨h.transmit hi, simulates_of_nets_eq rfl⟩
  · split at hstep
    · rename_i hsent
      obtain ⟨m, hm, rfl⟩ := Option.map_eq_some_iff.mp hstep
      refine ⟨h.mux hm ?_, simulates_of_nets_eq rfl⟩
      rintro inbound ⟨⟩
      exact hsent
    · cases hstep
  · rename_i r action _
    split at hstep
    · rename_i hint
      obtain ⟨m, hm, rfl⟩ := Option.map_eq_some_iff.mp hstep
      refine ⟨h.mux hm ?_, simulates_of_nets_eq rfl⟩
      rintro inbound rfl
      cases hint
    · cases hstep
  · refine ⟨h.pumpInput hstep, simulates_of_nets_eq ?_⟩
    obtain ⟨v, -, htake⟩ := Option.bind_eq_some_iff.mp hstep
    obtain ⟨p, -, rfl⟩ := Option.map_eq_some_iff.mp htake
    rfl
  · split at hstep
    · rename_i hg
      obtain rfl := Option.some.inj hstep
      exact h.handleCast hg.1 hg.2 _ _
    · cases hstep

/-- The calls of the applications satisfy `Q`. -/
def Calls (Q : Conversation.Request → Prop) (_ : Stack) (a : StackAction) : Prop :=
  ∀ r convID request, a = .call r convID request → Q request

/-- Every conversation of a stack takes the steps of a group of its own over the abstract
network, whatever the other conversations and the transport do. -/
theorem conversations_have_their_own_network {Q : Conversation.Request → Prop}
    (hQ : ∀ io origin frame, Q (.incoming io origin frame)) {bufSize : ℕ}
    (hr : Reach (step C members) (Calls Q) (start members bufSize) s) (convID : ConversationID) :
    Reach (group members convID).netStep (fun _ a => Q a.request)
      (group members convID).start (s.nets convID) := by
  have hboth : Sound C members s ∧ Reach (group members convID).netStep (fun _ a => Q a.request)
      (group members convID).start (s.nets convID) := by
    apply hr.invariant (P := fun s => Sound C members s ∧
      Reach (group members convID).netStep (fun _ a => Q a.request)
        (group members convID).start (s.nets convID)) ⟨sound_start C members bufSize, .refl⟩
    intro s a t hs ha hstep
    obtain ⟨hsound, hsim⟩ := hs.1.step hstep
    refine ⟨hsound, ?_⟩
    rcases hsim convID with heq | ⟨p, request, hnet, hcall⟩
    · rw [heq]
      exact hs.2
    · refine hs.2.tail ⟨⟨p, request⟩, ?_, hnet⟩
      cases request with
      | incoming io origin frame => exact hQ io origin frame
      | _ => exact ha _ _ _ (hcall rfl)
  exact hboth.2

/-- What `[10]` sends first in a conversation. -/
def firstMessage (convID : ConversationID) (payload : List UInt8) : List UInt8 :=
  PsyncCodec.unary.marshalWire (.envelope ⟨⟨some convID, some [10], [1, 0]⟩, payload⟩)

/-- A message of each of two conversations; they arrive in the other order. -/
def twoConversations : List StackAction :=
  [.mux [20] (.forConversation [1]), .mux [20] (.forConversation [2]),
    .call [10] [1] (.send .standard [5]), .call [10] [2] (.send .standard [6]),
    .transmit 1 true, .transmit 0 true,
    .mux [20] (.read ⟨[10], Multiplex.wrap .unary [2] (firstMessage [2] [6])⟩), .mux [20] .send,
    .mux [20] (.read ⟨[10], Multiplex.wrap .unary [1] (firstMessage [1] [5])⟩), .mux [20] .send,
    .pumpInput [20] 0, .pumpInput [20] 1,
    .handleCast [20] [1] ⟨[10], firstMessage [1] [5]⟩ .standard,
    .handleCast [20] [2] ⟨[10], firstMessage [2] [6]⟩ .standard]

theorem conversations_have_their_own_network_two : ∃ s,
    Reach (step .unary fun _ => [[10], [20]]) (Calls fun req => req.isStatic = true)
      (start (fun _ => [[10], [20]]) 0) s ∧
    (s.nets [1] [20]).delivered.map Envelope.payload = [[5]] ∧
    (s.nets [2] [20]).delivered.map Envelope.payload = [[6]] ∧
    Reach (group (fun _ => [[10], [20]]) [1]).netStep (fun _ a => a.request.isStatic = true)
      (group (fun _ => [[10], [20]]) [1]).start (s.nets [1]) := by
  have hrun : (execute (step .unary fun _ => [[10], [20]]) (fun _ _ => True)
      (start (fun _ => [[10], [20]]) 0) twoConversations).map (fun s =>
        decide ((s.nets [1] [20]).delivered.map Envelope.payload = [[5]] ∧
          (s.nets [2] [20]).delivered.map Envelope.payload = [[6]])) = some true := by
    decide +kernel
  obtain ⟨s, he, -, hdel⟩ := reach_of_execute hrun
  obtain ⟨hone, htwo⟩ := of_decide_eq_true hdel
  have hr : Reach (step .unary fun _ => [[10], [20]]) (Calls fun req => req.isStatic = true)
      (start (fun _ => [[10], [20]]) 0) s := by
    refine (execute_reach_of_forall (P := fun a : StackAction => ∀ r convID request,
      a = .call r convID request → request.isStatic = true) twoConversations he ?_).mono
        fun _ _ ha => ha.2
    intro a ha r convID request hcall
    subst hcall
    simp [twoConversations] at ha
    rcases ha with ⟨-, -, rfl⟩ | ⟨-, -, rfl⟩ <;> rfl
  exact ⟨s, hr, hone, htwo, conversations_have_their_own_network (fun _ _ _ => rfl) hr [1]⟩

end Stack
end Comlink
