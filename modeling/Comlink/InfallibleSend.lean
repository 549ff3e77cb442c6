import Comlink.CausalDelivery

/-!
# A send fails only with its log append

`handleSend` appends the new envelope to the log before it inserts it into the graph, so
that a failed insertion would leave an orphan in the log and its sequence number unused.
Whatever clocks have come in, however the membership has grown and whatever was replayed,
the graph holds the parents of all its messages, which makes the view of the next message
exact: once the append has succeeded the insertion does too.
-/
namespace Comlink.Conversation
open GuardedRuns

variable {c : Conversation}

inductive SendError where
  | append
  | insert (err : InsertError)
  deriving DecidableEq, Repr

/-- What `handleSend` returns; `none` is the panic of `Increment`. -/
def sendResult (c : Conversation) (io : HandlerChoices) (payload : List UInt8) :
    Option (Except SendError MessageID) :=
  (c.nextEnvelope payload).map fun env =>
    let seq := env.id.vectorClock.atSlot c.selfSlot
    if io.appendOk ⟨c.self, seq⟩ then
      match c.log.append env seq with
      | none => .error .append
      | some _ =>
        match c.graph.insert c.membership env with
        | .error err => .error (.insert err)
        | .ok _ => .ok env.id
    else .error .append

/-- The parents that the clocks name are there, no sender's numbers have a gap, and the
view of the next message counts what every slot's replica has sent. -/
structure Gapless (c : Conversation) : Prop where
  closed : ∀ n ∈ c.graph.nodes, ∀ k ∈ Graph.derivedParents c.membership n.envelope,
    c.graph.has k = true
  numbers : ∀ r q, c.graph.has ⟨r, q⟩ = true ↔ 1 ≤ q ∧ q ≤ c.graph.latestSeq r
  viewLength : (c.graph.currentView c.membership).length = c.membership.len
  viewEntry : ∀ r i, c.membership.slotOf r = some i →
    (c.graph.currentView c.membership).atSlot i = c.graph.latestSeq r

/-- One new message with the replica's next number is logged, stored and delivered. -/
structure Sends (c : Conversation) (payload : List UInt8) (n : Node) (c' : Conversation) :
    Prop where
  sender : n.envelope.sender = c.self
  seq : n.senderSeq = c.graph.latestSeq c.self + 1
  payload_eq : n.envelope.payload = payload
  graph : c'.graph.nodes = c.graph.nodes ++ [n]
  log : c'.log.frames = c.log.frames ++ [n.frame]
  delivered : c'.delivered = c.delivered ++ [n.envelope]

theorem has_iff_le_latestSeq {m : Membership} {g : Graph} (h : g.Sound m) (r : ReplicaID) (q : ℕ) :
    g.has ⟨r, q⟩ = true ↔ 1 ≤ q ∧ q ≤ g.latestSeq r := by
  constructor
  · intro hhas
    obtain ⟨n, hn, hk⟩ := Graph.has_iff.mp hhas
    have hs : n.envelope.sender = r := congrArg Key.sender hk
    have hq : n.senderSeq = q := congrArg Key.seq hk
    have hpos := (h.derived n hn).seq_pos
    have hle := Graph.le_latestSeq hn
    rw [hs] at hle
    exact ⟨by omega, by omega⟩
  · rintro ⟨hpos, hle⟩
    obtain ⟨l, hl⟩ := Graph.exists_latestNode (g := g) (r := r) (by omega)
    obtain ⟨hmem, rfl, hseq⟩ := Graph.latestNode_eq_some hl
    obtain ⟨a, ha, hs, rfl⟩ := h.contiguous hmem hpos (hle.trans_eq hseq.symm)
    exact Graph.has_iff.mpr ⟨a, ha, Key.ext hs rfl⟩

theorem Seated.gapless {members : List ReplicaID} (h : Seated members c) : Gapless c where
  closed n hn k hk := by
    rw [(h.sound.derived n hn).derivedParents] at hk
    exact h.sound.closed hn hk
  numbers := has_iff_le_latestSeq h.sound
  viewLength := h.sound.length_currentView
  viewEntry _ _ hr := h.sound.currentView_eq_latestSeq hr

/-- The next envelope exists and has the next number. -/
theorem Seated.exists_nextEnvelope {members : List ReplicaID} (h : Seated members c)
    (payload : List UInt8) : ∃ env, c.nextEnvelope payload = some env ∧
      env.id.sender = some c.self ∧ env.payload = payload ∧
      (c.graph.currentView c.membership).increment c.selfSlot = some env.id.vectorClock ∧
      env.id.vectorClock.atSlot c.selfSlot = c.graph.latestSeq c.self + 1 := by
  have hlt : c.selfSlot < (c.graph.currentView c.membership).length := by
    rw [h.sound.length_currentView]
    exact (List.getElem?_eq_some_iff.mp (Membership.slotOf_getElem? h.slot)).1
  obtain ⟨vec, hvec⟩ : ∃ vec,
      (c.graph.currentView c.membership).increment c.selfSlot = some vec :=
    ⟨_, if_pos hlt⟩
  refine ⟨⟨⟨some c.convID, some c.self, vec⟩, payload⟩, by rw [nextEnvelope, hvec]; rfl, rfl, rfl,
    hvec, ?_⟩
  rw [(VectorClock.increment_eq_some hvec).2.2.1, h.sound.currentView_eq_latestSeq h.slot]

/-- The graph accepts it, as the next message of the replica. -/
theorem Seated.insert_next {members : List ReplicaID} (h : Seated members c) {env : Envelope}
    (hsender : env.id.sender = some c.self)
    (hvec : (c.graph.currentView c.membership).increment c.selfSlot = some env.id.vectorClock)
    (hseq : env.id.vectorClock.atSlot c.selfSlot = c.graph.latestSeq c.self + 1) :
    ∃ n, n.envelope = env ∧ c.graph.insert c.membership env = .ok (⟨c.graph.nodes ++ [n]⟩, n) ∧
      n.envelope.sender = c.self ∧ n.senderSeq = c.graph.latestSeq c.self + 1 := by
  obtain ⟨g, n, hi⟩ := h.sound.insert_incremented h.slot hvec hsender rfl
  obtain ⟨rfl, rfl, hd, -, -⟩ := Graph.insert_ok hi
  have hself : n.envelope.sender = c.self := by simp [Envelope.sender, hsender]
  have hslot : n.senderSlot = c.selfSlot := by
    have hs := hd.slot
    rw [hself, h.slot] at hs
    exact (Option.some.inj hs).symm
  refine ⟨n, rfl, hi, hself, ?_⟩
  rw [← hd.seq, hslot, hseq]

theorem send_fails_only_with_append {convID : ConversationID} {self : ReplicaID}
    {members mask : List ReplicaID} {log : MessageLog} {c₀ : Conversation}
    (hnew : new convID self members mask log = some c₀)
    (hr : Reach serve (fun _ _ => True) c₀ c) :
    Gapless c ∧ ∀ (io : HandlerChoices) (payload : List UInt8),
      (io.appendOk ⟨c.self, c.graph.latestSeq c.self + 1⟩ = false ∧
          c.sendResult io payload = some (.error .append) ∧ c.handleSend io payload = c) ∨
        (io.appendOk ⟨c.self, c.graph.latestSeq c.self + 1⟩ = true ∧
          ∃ n, c.sendResult io payload = some (.ok n.envelope.id) ∧
            Sends c payload n (c.handleSend io payload)) := by
  have h : Seated c.membership.allReplicas c :=
    hr.invariant (P := fun c => Seated c.membership.allReplicas c) (seated_new hnew)
      fun _ _ _ hs _ hstep => hs.serve (hs.served hstep)
  refine ⟨h.gapless, fun io payload => ?_⟩
  obtain ⟨env, henv, hsender, hpayload, hvec, hseq⟩ := h.exists_nextEnvelope payload
  rw [sendResult, handleSend, henv, Option.map_some]
  dsimp only
  rw [hseq]
  cases hok : io.appendOk ⟨c.self, c.graph.latestSeq c.self + 1⟩ with
  | false => exact Or.inl ⟨rfl, rfl, rfl⟩
  | true =>
    refine Or.inr ⟨rfl, ?_⟩
    obtain ⟨n, rfl, hi, hself, hnumber⟩ := h.insert_next hsender hvec hseq
    cases hlog : c.log.append n.envelope (c.graph.latestSeq c.self + 1) with
    | none =>
      rw [MessageLog.append, hsender] at hlog
      cases hlog
    | some log =>
      refine ⟨n, by rw [hi]; rfl, ?_⟩
      rw [if_pos rfl, hi]
      refine ⟨hself, hnumber, hpayload, rfl, ?_, rfl⟩
      rw [Node.frame, hnumber]
      exact (MessageLog.frames_append hlog).1

/-- A message of a peer overtakes the one before it, a third member joins and is heard
with a clock of the new length, the peer with one of the old; the first member is frozen
and the log is replayed. -/
def mixedEras : List ServerStep :=
  [.request (.incoming .standard [2] (.envelope (message [2] [0, 2]))),
    .request (.incoming .standard [2] (.envelope (message [2] [0, 1]))),
    .request (.addMember [3]),
    .request (.incoming .standard [3] (.envelope (message [3] [0, 2, 1]))),
    .request (.incoming .standard [2] (.envelope (message [2] [0, 3]))),
    .request (.freezeMember [2]), .restart]

theorem send_fails_only_with_append_mixedEras : ∃ c₀ c,
    new [9] [1] [[1], [2]] [] .empty = some c₀ ∧ Reach serve (fun _ _ => True) c₀ c ∧
      c.graph.currentView c.membership = [0, 3, 1] ∧ Gapless c ∧
      ∃ n, Sends c [7] n (c.handleSend .standard [7]) := by
  have hnew : new [9] [1] [[1], [2]] [] .empty = some (init [9] [1] 0 [[1], [2]] [] .empty) := rfl
  have hrun : (execute serve (fun _ _ => True) (init [9] [1] 0 [[1], [2]] [] .empty)
      mixedEras).map (fun c => decide (c.graph.currentView c.membership = [0, 3, 1])) =
        some true := by
    decide +kernel
  obtain ⟨c, -, hr, hview⟩ := reach_of_execute hrun
  obtain ⟨hcomplete, hsend⟩ := send_fails_only_with_append hnew hr
  refine ⟨_, c, hnew, hr, of_decide_eq_true hview, hcomplete, ?_⟩
  rcases hsend .standard [7] with ⟨hok, -⟩ | ⟨-, n, -, hn⟩
  · cases hok
  · exact ⟨n, hn⟩

end Comlink.Conversation
