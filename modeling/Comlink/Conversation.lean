import Comlink.ContextGraph
import Comlink.MessageLog
import Mathlib.Data.List.AList

/-!
# One replica's conversation

The handlers of `psync/conversation.go` and `psync/restart.go` as functions on the
state that the conversation's server goroutine owns. The delivery channel and the
network are kept as the histories of what was pushed on the one and handed to the
other: their readers keep positions of their own, so a handler that the source
blocks on a full channel is one atomic step here. `issued` is the history of the
envelopes that `handleSend` has made.

The recursion between `handleEnvelope` and `processNewlyAvailable` is by fuel. Each
nested call has taken one envelope off the deferred map and only a successful
insertion calls again, so the number of deferred envelopes bounds its depth.
-/
namespace Comlink

inductive WireFrame where
  | envelope (env : Envelope)
  | lostMessageRequest (missing : Key)
  | restartMessage (restarter : Option ReplicaID)
  | restartAck (responder : ReplicaID) (leaves : List MessageID)
  deriving DecidableEq, Repr

structure Packet where
  src : ReplicaID
  dst : ReplicaID
  frame : WireFrame
  deriving DecidableEq, Repr

structure PendingEnvelope where
  env : Envelope
  origin : ReplicaID
  waiting : List Key
  deriving DecidableEq, Repr

structure Conversation where
  convID : ConversationID
  self : ReplicaID
  selfSlot : ℕ
  membership : Membership
  mask : List ReplicaID
  log : MessageLog
  graph : Graph
  deferred : AList (fun _ : Key => PendingEnvelope)
  deferredByNeed : AList (fun _ : Key => List Key)
  outstanding : List Key
  delivered : List Envelope
  outbox : List Packet
  issued : List Envelope

/-- What a handler leaves to its environment: which log appends succeed, and in
which order a Go map yields the dependents of a parent. -/
structure HandlerChoices where
  appendOk : Key → Bool
  order : Key → List Key → List Key
  order_perm : ∀ parent keys, (order parent keys).Perm keys

def HandlerChoices.standard : HandlerChoices :=
  ⟨fun _ => true, fun _ keys => keys, fun _ keys => List.Perm.refl keys⟩

namespace Conversation

/-- The state that `Init` gives the server goroutine. -/
def init (convID : ConversationID) (self : ReplicaID) (selfSlot : ℕ)
    (members mask : List ReplicaID) (log : MessageLog) : Conversation where
  convID := convID
  self := self
  selfSlot := selfSlot
  membership := Membership.ofReplicas members
  mask := mask
  log := log
  graph := Graph.empty
  deferred := ∅
  deferredByNeed := ∅
  outstanding := []
  delivered := []
  outbox := []
  issued := []

/-- `New` over an existing log and a loaded mask; `none` when `self` is no member. -/
def new (convID : ConversationID) (self : ReplicaID) (members mask : List ReplicaID)
    (log : MessageLog) : Option Conversation :=
  ((Membership.ofReplicas members).slotOf self).map (init convID self · members mask log)

def post (c : Conversation) (dst : ReplicaID) (frame : WireFrame) : Conversation :=
  { c with outbox := c.outbox ++ [⟨c.self, dst, frame⟩] }

/-- `broadcastEnvelope`: one packet for every active peer. -/
def broadcastEnvelope (c : Conversation) (env : Envelope) : Conversation :=
  { c with outbox := c.outbox ++
      (c.membership.replicas.filter (· ≠ c.self)).map (⟨c.self, ·, .envelope env⟩) }

/-- The envelope that the next `handleSend` stamps. -/
def nextEnvelope (c : Conversation) (payload : List UInt8) : Option Envelope :=
  ((c.graph.currentView c.membership).increment c.selfSlot).map fun vec =>
    ⟨⟨some c.convID, some c.self, vec⟩, payload⟩

/-- `handleSend`; a failed append changes nothing, a failed insertion only the log. -/
def handleSend (c : Conversation) (io : HandlerChoices) (payload : List UInt8) : Conversation :=
  match c.nextEnvelope payload with
  | none => c
  | some env =>
    let seq := env.id.vectorClock.atSlot c.selfSlot
    if io.appendOk ⟨c.self, seq⟩ then
      match c.log.append env seq with
      | none => c
      | some log =>
        match c.graph.insert c.membership env with
        | .error _ => { c with log := log }
        | .ok (g, _) =>
          broadcastEnvelope
            { c with
              log := log
              graph := g
              delivered := c.delivered ++ [env]
              issued := c.issued ++ [env] } env
    else c

def sendLostMessageRequest (c : Conversation) (missing : Key) (askPeer : ReplicaID) :
    Conversation := c.post askPeer (.lostMessageRequest missing)

/-- One missing parent of a newly deferred envelope. -/
def awaitParent (envKey : Key) (origin : ReplicaID) (c : Conversation) (parent : Key) :
    Conversation :=
  let dependents := ((c.deferredByNeed.lookup parent).getD []).insert envKey
  let c' := { c with deferredByNeed := c.deferredByNeed.insert parent dependents }
  if parent ∈ c'.outstanding then c'
  else sendLostMessageRequest { c' with outstanding := parent :: c'.outstanding } parent origin

def deferEnvelope (c : Conversation) (env : Envelope) (missing : List Key)
    (origin : ReplicaID) : Conversation :=
  match c.membership.senderSeq env.id with
  | none => c
  | some seq =>
    let envKey : Key := ⟨env.sender, seq⟩
    if (c.deferred.lookup envKey).isSome then c
    else
      let c' := missing.foldl (awaitParent envKey origin) c
      { c' with deferred := c'.deferred.insert envKey ⟨env, origin, missing.dedup⟩ }

/-- One dependent of a parent that has become available. -/
def releaseDependent (handle : Conversation → Envelope → ReplicaID → Conversation)
    (parent : Key) (c : Conversation) (k : Key) : Conversation :=
  match c.deferred.lookup k with
  | none => c
  | some pe =>
    let waiting := pe.waiting.erase parent
    if waiting = [] then handle { c with deferred := c.deferred.erase k } pe.env pe.origin
    else { c with deferred := c.deferred.insert k { pe with waiting := waiting } }

def processNewlyAvailable (io : HandlerChoices)
    (handle : Conversation → Envelope → ReplicaID → Conversation) (c : Conversation)
    (parent : Key) : Conversation :=
  let c := { c with outstanding := c.outstanding.erase parent }
  match c.deferredByNeed.lookup parent with
  | none => c
  | some dependents =>
    (io.order parent dependents).foldl (releaseDependent handle parent)
      { c with deferredByNeed := c.deferredByNeed.erase parent }

/-- The tests that `handleEnvelope` makes before it tries to insert. -/
def screen (c : Conversation) (env : Envelope) : Option Key :=
  if env.id.conversationId ≠ some c.convID then none
  else match env.id.sender with
    | none => none
    | some sender =>
      if c.membership.slotOf sender = none ∨ sender ∈ c.mask then none
      else match c.membership.senderSeq env.id with
        | none => none
        | some seq => if c.graph.has ⟨sender, seq⟩ then none else some ⟨sender, seq⟩

/-- An envelope that `Insert` has accepted enters the log and the delivery channel;
a failed append is logged and otherwise ignored. -/
def accept (io : HandlerChoices) (c : Conversation) (env : Envelope) (k : Key) (g : Graph) :
    Conversation :=
  { c with
    graph := g
    log := if io.appendOk k then (c.log.append env k.seq).getD c.log else c.log
    delivered := c.delivered ++ [env] }

def handleEnvelope (io : HandlerChoices) :
    ℕ → Conversation → Envelope → ReplicaID → Conversation
  | 0, c, _, _ => c
  | fuel + 1, c, env, origin =>
    match c.screen env with
    | none => c
    | some k =>
      match c.graph.insert c.membership env with
      | .error (.missingParents missing) => c.deferEnvelope env missing origin
      | .error _ => c
      | .ok (g, _) =>
        processNewlyAvailable io (handleEnvelope io fuel) (c.accept io env k g) k

def handleLostRequest (c : Conversation) (missing : Key) (origin : ReplicaID) : Conversation :=
  match c.log.lookupBySender missing with
  | none => c
  | some (_, env) => c.post origin (.envelope env)

def handleRestartMessage (c : Conversation) (restarter : Option ReplicaID) : Conversation :=
  match restarter with
  | none => c
  | some r => c.post r (.restartAck c.self (c.graph.leaves.map (·.envelope.id)))

/-- `handleIncoming`; an acknowledgement of a restart only wakes the restarting caller. -/
def handleIncoming (c : Conversation) (io : HandlerChoices) (origin : ReplicaID) :
    WireFrame → Conversation
  | .envelope env => handleEnvelope io (c.deferred.entries.length + 1) c env origin
  | .lostMessageRequest missing => c.handleLostRequest missing origin
  | .restartMessage restarter => c.handleRestartMessage restarter
  | .restartAck _ _ => c

/-- `handleRequestMissing`: ask the originator, or everybody about an own message. -/
def handleRequestMissing (c : Conversation) (missing : Key) : Conversation :=
  if missing.sender = c.self then
    (c.membership.replicas.filter (· ≠ c.self)).foldl
      (fun c peer => c.sendLostMessageRequest missing peer) c
  else c.sendLostMessageRequest missing missing.sender

/-- One log entry of `handleReplay`, with the envelopes collected so far. -/
def replayEntry (st : Conversation × List Envelope) (f : LogFrame) :
    Conversation × List Envelope :=
  let c := st.1
  match f.envelope.id.sender with
  | none => st
  | some sender =>
    match c.membership.senderSeq f.envelope.id with
    | none => st
    | some seq =>
      if c.graph.has ⟨sender, seq⟩ then st
      else match c.graph.insert c.membership f.envelope with
        | .error _ => st
        | .ok (g, _) => ({ c with graph := g }, st.2 ++ [f.envelope])

/-- `handleReplay`: rebuild the graph from the readable log, returning the envelopes
to deliver again. -/
def handleReplay (c : Conversation) : Conversation × List Envelope :=
  c.log.entries.foldl replayEntry (c, [])

def maskout (c : Conversation) (r : ReplicaID) : Conversation :=
  { c with mask := c.mask.insert r }

def maskin (c : Conversation) (r : ReplicaID) : Conversation :=
  { c with mask := c.mask.filter (· ≠ r) }

def freezeMember (c : Conversation) (r : ReplicaID) : Option Conversation :=
  (c.membership.freeze r).map fun m => { c with membership := m }

def addMember (c : Conversation) (r : ReplicaID) : Option Conversation :=
  (c.membership.add r).map fun m => { c with membership := m }

def truncateLog (c : Conversation) (belowOffset : ℕ) : Conversation :=
  { c with log := c.log.truncate belowOffset }

/-- `ReplayLog`: what the replay returns is pushed on the delivery channel again. -/
def replayLog (c : Conversation) : Conversation :=
  { c.handleReplay.1 with delivered := c.delivered ++ c.handleReplay.2 }

/-- The requests that change a conversation: those of its server goroutine, and the
truncation of the log that it shares with its substrate. -/
inductive Request where
  | send (io : HandlerChoices) (payload : List UInt8)
  | incoming (io : HandlerChoices) (origin : ReplicaID) (frame : WireFrame)
  | maskout (r : ReplicaID)
  | maskin (r : ReplicaID)
  | replayLog
  | freezeMember (r : ReplicaID)
  | addMember (r : ReplicaID)
  | requestMissing (missing : Key)
  | truncateLog (belowOffset : ℕ)

/-- `HandleCall` and `HandleCast`; a request that fails leaves the state as it was. -/
def handle (c : Conversation) : Request → Conversation
  | .send io payload => c.handleSend io payload
  | .incoming io origin frame => c.handleIncoming io origin frame
  | .maskout r => c.maskout r
  | .maskin r => c.maskin r
  | .replayLog => c.replayLog
  | .freezeMember r => (c.freezeMember r).getD c
  | .addMember r => (c.addMember r).getD c
  | .requestMissing missing => c.handleRequestMissing missing
  | .truncateLog belowOffset => c.truncateLog belowOffset

end Conversation
end Comlink
