import Comlink.LogReplay

/-!
# The steps of the server goroutine

Besides the requests of a conversation there is the replay that `Restart` asks for.
Every step is one of five kinds, which is all that the invariants over whole runs
have to consider: it changes neither graph nor deferral, a member joins, the replica
sends, the log is replayed, or an envelope is received.
-/
namespace Comlink.Conversation

variable {c c' : Conversation}

/-- A completed step of the server goroutine: one of the requests, or the replay that
`Restart` asks for, which pushes nothing on the delivery channel. -/
inductive ServerStep where
  | request (req : Request)
  | restart

def serve (c : Conversation) : ServerStep → Option Conversation
  | .request req => some (c.handle req)
  | .restart => some c.handleReplay.1

/-- Three tables hold the deferral. -/
def SameTables (c c' : Conversation) : Prop :=
  c'.deferred = c.deferred ∧ c'.deferredByNeed = c.deferredByNeed ∧ c'.outstanding = c.outstanding

theorem sameTables_handleSend (c : Conversation) (io : HandlerChoices) (payload : List UInt8) :
    SameTables c (c.handleSend io payload) := by
  rw [handleSend_eq]
  exact ⟨rfl, rfl, rfl⟩

/-- Only a received envelope touches the tables. -/
theorem sameTables_handle (c : Conversation) (req : Request)
    (hreq : ∀ io origin env, req ≠ .incoming io origin (.envelope env)) :
    SameTables c (c.handle req) := by
  cases req with
  | send io payload => exact sameTables_handleSend c io payload
  | incoming io origin frame =>
    have hframe : ∀ env, frame ≠ .envelope env := by
      rintro env rfl
      exact hreq io origin env rfl
    rw [handle, handleIncoming_eq hframe]
    exact ⟨rfl, rfl, rfl⟩
  | replayLog =>
    rw [handle, replayLog, handleReplay, foldl_replayEntry_frame]
    exact ⟨rfl, rfl, rfl⟩
  | freezeMember r =>
    rw [handle, freezeMember]
    cases c.membership.freeze r <;> exact ⟨rfl, rfl, rfl⟩
  | addMember r =>
    rw [handle, addMember]
    cases c.membership.add r <;> exact ⟨rfl, rfl, rfl⟩
  | requestMissing missing =>
    rw [handle, handleRequestMissing_eq]
    exact ⟨rfl, rfl, rfl⟩
  | maskout r => exact ⟨rfl, rfl, rfl⟩
  | maskin r => exact ⟨rfl, rfl, rfl⟩
  | truncateLog b => exact ⟨rfl, rfl, rfl⟩

/-- What a step can do to a conversation whose graph is sound. -/
inductive Served (c : Conversation) : ServerStep → Conversation → Prop
  | quiet {a : ServerStep} {c' : Conversation} (hq : Quiet c c') (ht : SameTables c c') :
      Served c a c'
  | joined {r : ReplicaID} {m : Membership} (hm : c.membership.add r = some m) :
      Served c (.request (.addMember r)) { c with membership := m }
  | issued {io : HandlerChoices} {payload : List UInt8} {n : Node} {log : MessageLog}
      (henv : c.nextEnvelope payload = some n.envelope)
      (hi : c.graph.insert c.membership n.envelope = .ok (⟨c.graph.nodes ++ [n]⟩, n))
      (hslot : n.senderSlot = c.selfSlot) : Served c (.request (.send io payload))
        (broadcastEnvelope
          { c with
            log := log
            graph := ⟨c.graph.nodes ++ [n]⟩
            delivered := c.delivered ++ [n.envelope]
            issued := c.issued ++ [n.envelope] } n.envelope)
  | replayed {a : ServerStep} {ns : List Node} {delivered : List Envelope}
      (ha : a = .restart ∨ a = .request .replayLog)
      (hs : Graph.Sound c.membership ⟨c.graph.nodes ++ ns⟩)
      (hlog : ∀ n ∈ ns, ∃ f ∈ c.log.entries, f.envelope = n.envelope) :
      Served c a { c with graph := ⟨c.graph.nodes ++ ns⟩, delivered := delivered }
  | received (io : HandlerChoices) (origin : ReplicaID) (env : Envelope) :
      Served c (.request (.incoming io origin (.envelope env)))
        (c.handleIncoming io origin (.envelope env))

theorem Seated.served_request (h : Seated c.membership.allReplicas c) (req : Request) :
    Served c (.request req) (c.handle req) := by
  have htables := sameTables_handle c req
  cases req with
  | replayLog =>
    obtain ⟨ns, he, hs, hlog⟩ := replayLog_eq h.sound
    rw [handle, he]
    exact .replayed (Or.inr rfl) hs hlog
  | addMember r =>
    rw [handle, addMember]
    cases hm : c.membership.add r with
    | none => exact .quiet (Quiet.refl c) ⟨rfl, rfl, rfl⟩
    | some m => exact .joined hm
  | send io payload =>
    have heff := h.effect (.send io payload) rfl (by simp)
    generalize hc : c.handle (.send io payload) = c' at heff htables ⊢
    cases heff with
    | quiet hq => exact .quiet hq (htables (by simp))
    | issue henv hi hslot hlog => exact .issued henv hi hslot
  | incoming io origin frame =>
    rcases frame.envelope_or with ⟨env, rfl⟩ | hframe
    · exact .received io origin env
    · exact .quiet (quiet_incoming hframe c io origin) (htables (by simp [hframe]))
  | maskout r =>
    exact .quiet ⟨rfl, rfl, rfl, fun _ h _ => h, rfl, rfl, rfl, rfl, rfl,
      fun _ h _ _ => Or.inl h⟩ (htables (by simp))
  | maskin r =>
    exact .quiet ⟨rfl, rfl, rfl, fun _ h _ => h, rfl, rfl, rfl, rfl, rfl,
      fun _ h _ _ => Or.inl h⟩ (htables (by simp))
  | freezeMember r => exact .quiet (quiet_freezeMember c r) (htables (by simp))
  | requestMissing missing =>
    exact .quiet (quiet_handleRequestMissing c missing) (htables (by simp))
  | truncateLog b => exact .quiet (quiet_truncateLog c b) (htables (by simp))

theorem Seated.served (h : Seated c.membership.allReplicas c) {a : ServerStep}
    (hs : c.serve a = some c') : Served c a c' := by
  cases a with
  | request req =>
    cases hs
    exact h.served_request req
  | restart =>
    cases hs
    obtain ⟨ns, he, hsound, hlog⟩ := handleReplay_eq h.sound
    rw [he]
    exact .replayed (Or.inl rfl) hsound hlog

theorem Seated.move {io : HandlerChoices} {E : Envelope → Prop}
    (h : Seated c.membership.allReplicas c) (hm : Move io E c c') :
    Seated c'.membership.allReplicas c' := by
  cases hm with
  | bookkeeping hb =>
    rw [hb.frame]
    exact ⟨rfl, h.slot, h.sound⟩
  | accept he hs hi => exact ⟨rfl, h.slot, h.sound.insert hi⟩

theorem Seated.moves {io : HandlerChoices} {E : Envelope → Prop}
    (h : Seated c.membership.allReplicas c) (hm : Moves io E c c') :
    Seated c'.membership.allReplicas c' := by
  induction hm with
  | refl => exact h
  | tail _ hm ih => exact ih.move hm

theorem Seated.received {members : List ReplicaID} {io : HandlerChoices} {E : Envelope → Prop}
    (h : Seated members c) (hm : Moves io E c c') : Seated members c' := by
  have hmembers := (Moves.extends hm).members
  rw [h.members_eq] at hmembers
  have hs := Seated.moves (h.members_eq ▸ h) hm
  exact ⟨hmembers, hs.slot, hs.sound⟩

theorem moves_incoming (c : Conversation) (io : HandlerChoices) (origin : ReplicaID)
    (env : Envelope) :
    Moves io (fun _ => True) c (c.handleIncoming io origin (.envelope env)) :=
  moves_handleEnvelope _ c env origin (fun _ _ _ => trivial) trivial

theorem Seated.serve (h : Seated c.membership.allReplicas c) {a : ServerStep}
    (hs : Served c a c') : Seated c'.membership.allReplicas c' := by
  cases hs with
  | quiet hq ht => exact ⟨rfl, (h.quiet hq).slot, (h.quiet hq).sound⟩
  | joined hm => exact ⟨rfl, Membership.slotOf_add hm h.slot, h.sound.add hm⟩
  | issued henv hi hslot => exact ⟨rfl, h.slot, h.sound.insert hi⟩
  | replayed ha hs hlog => exact ⟨rfl, h.slot, hs⟩
  | received io origin env => exact h.moves (moves_incoming c io origin env)

theorem seated_new {convID : ConversationID} {self : ReplicaID} {members mask : List ReplicaID}
    {log : MessageLog} (h : new convID self members mask log = some c) :
    Seated c.membership.allReplicas c := by
  obtain ⟨slot, hs, rfl⟩ := Option.map_eq_some_iff.mp h
  exact ⟨rfl, hs, Graph.sound_empty _⟩

/-- A message without payload, for traces in the conversation `[9]`. -/
def message (sender : ReplicaID) (clock : VectorClock) : Envelope :=
  ⟨⟨some [9], some sender, clock⟩, []⟩

end Comlink.Conversation
