import Comlink.ServerSteps
import Comlink.GuardedRuns

/-!
# Delivering a replayed log

`ReplayLog` inserts the log into the graph by one request and then leaves the pushing of
the replayed envelopes to a goroutine, while the server goroutine is free again. A message
that is sent or received in between finds its parents in the graph and is pushed at once.
Causal order on the delivery channel survives as long as no such message has a parent that
still waits to be pushed. A goroutine whose context is cancelled pushes no more.
-/
namespace Comlink
open GuardedRuns

/-- A conversation, and the replayed envelopes that are not yet on its channel. -/
structure ReplayDrain where
  conv : Conversation
  undrained : List Envelope

inductive DrainAction where
  | push
  | send (io : HandlerChoices) (payload : List UInt8)
  | incoming (io : HandlerChoices) (origin : ReplicaID) (frame : WireFrame)

namespace ReplayDrain
open Conversation

variable {s t : ReplayDrain} {c c' : Conversation} {io : HandlerChoices} {E : Envelope → Prop}

/-- The moment at which the request of `ReplayLog` has returned. -/
def start (c : Conversation) : ReplayDrain := ⟨c.handleReplay.1, c.handleReplay.2⟩

def step (s : ReplayDrain) : DrainAction → Option ReplayDrain
  | .push => match s.undrained with
    | [] => none
    | env :: rest => some ⟨{ s.conv with delivered := s.conv.delivered ++ [env] }, rest⟩
  | .send io payload => some { s with conv := s.conv.handleSend io payload }
  | .incoming io origin frame => some { s with conv := s.conv.handleIncoming io origin frame }

/-- None of the envelope's parents still waits to be pushed. -/
def Clear (s : ReplayDrain) (env : Envelope) : Prop :=
  ∀ k ∈ Graph.derivedParents s.conv.membership env,
    ∀ u ∈ s.undrained, s.conv.membership.keyOf u ≠ some k

/-- What is sent, or received, or has been deferred, is clear of the replay. -/
def Unobstructed (s : ReplayDrain) : DrainAction → Prop
  | .push => True
  | .send _ payload => ∀ env, s.conv.nextEnvelope payload = some env → Clear s env
  | .incoming _ _ (.envelope env) => Clear s env ∧ DeferredIn (Clear s) s.conv
  | .incoming _ _ _ => True

instance (s : ReplayDrain) (env : Envelope) : Decidable (Clear s env) :=
  inferInstanceAs (Decidable (∀ k ∈ Graph.derivedParents s.conv.membership env,
    ∀ u ∈ s.undrained, s.conv.membership.keyOf u ≠ some k))

instance (s : ReplayDrain) (a : DrainAction) : Decidable (Unobstructed s a) :=
  match a with
  | .push => isTrue trivial
  | .send _ payload =>
    inferInstanceAs (Decidable (∀ env ∈ s.conv.nextEnvelope payload, Clear s env))
  | .incoming _ _ (.envelope env) => inferInstanceAs (Decidable (Clear s env ∧
      ∀ k pe, s.conv.deferred.lookup k = some pe → Clear s pe.env))
  | .incoming _ _ (.lostMessageRequest _) | .incoming _ _ (.restartMessage _)
  | .incoming _ _ (.restartAck _ _) => isTrue trivial

/-- Every envelope on the channel comes after its parents. -/
def CausallyOrdered (c : Conversation) : Prop :=
  ∀ pre env post, c.delivered = pre ++ env :: post →
    ∀ k ∈ Graph.derivedParents c.membership env, ∃ e ∈ pre, c.membership.keyOf e = some k

/-- The graph holds the replayed envelopes, then those that came later; all but the
undrained ones are on the channel, and the channel is in causal order. -/
structure Invariant (s : ReplayDrain) : Prop
    extends Seated s.conv.membership.allReplicas s.conv where
  nodes : ∃ done live, s.conv.graph.nodes.map Node.envelope = done ++ s.undrained ++ live ∧
    done ⊆ s.conv.delivered ∧ live ⊆ s.conv.delivered
  ordered : CausallyOrdered s.conv

theorem CausallyOrdered.push (h : CausallyOrdered c) {env : Envelope}
    (hp : ∀ k ∈ Graph.derivedParents c.membership env,
      ∃ e ∈ c.delivered, c.membership.keyOf e = some k)
    (hd : c'.delivered = c.delivered ++ [env]) (hm : c'.membership = c.membership) :
    CausallyOrdered c' := by
  rw [CausallyOrdered, hd, hm]
  exact ListScans.forall_split_concat.mpr ⟨h, hp⟩

/-- The parents of an accepted envelope are on the channel, if none of them is undrained. -/
theorem Invariant.parents_delivered (h : Invariant s) {n : Node}
    (hp : ∀ k ∈ n.parents, s.conv.graph.has k = true)
    (hd : Graph.WellDerived s.conv.membership n) (hclear : Clear s n.envelope) :
    ∀ k ∈ Graph.derivedParents s.conv.membership n.envelope,
      ∃ e ∈ s.conv.delivered, s.conv.membership.keyOf e = some k := by
  intro k hk
  have hparent := hk
  rw [hd.derivedParents] at hparent
  obtain ⟨p, hpn, rfl⟩ := Graph.has_iff.mp (hp k hparent)
  have hkey := (h.sound.derived p hpn).keyOf
  obtain ⟨done, live, hnodes, hdone, hlive⟩ := h.nodes
  have hmem : p.envelope ∈ done ++ s.undrained ++ live := hnodes ▸ List.mem_map_of_mem hpn
  rcases List.mem_append.mp hmem with hmem | hmem
  · rcases List.mem_append.mp hmem with hmem | hmem
    · exact ⟨_, hdone hmem, hkey⟩
    · exact absurd hkey (hclear _ hk _ hmem)
  · exact ⟨_, hlive hmem, hkey⟩

/-- A message that is accepted while clear of the replay is delivered in order. -/
theorem Invariant.accepted (h : Invariant s) {n : Node}
    (hi : s.conv.graph.insert s.conv.membership n.envelope = .ok (⟨s.conv.graph.nodes ++ [n]⟩, n))
    (hclear : Clear s n.envelope) (hself : c'.self = s.conv.self)
    (hslot : c'.selfSlot = s.conv.selfSlot) (hm : c'.membership = s.conv.membership)
    (hg : c'.graph = ⟨s.conv.graph.nodes ++ [n]⟩)
    (hd : c'.delivered = s.conv.delivered ++ [n.envelope]) : Invariant ⟨c', s.undrained⟩ := by
  obtain ⟨-, -, hwell, -, hp⟩ := Graph.insert_ok hi
  obtain ⟨done, live, hnodes, hdone, hlive⟩ := h.nodes
  have hgrow : s.conv.delivered ⊆ c'.delivered := hd ▸ List.subset_append_left _ _
  refine ⟨⟨rfl, ?_, ?_⟩, ⟨done, live ++ [n.envelope], ?_, List.Subset.trans hdone hgrow, ?_⟩, ?_⟩
  · rw [hm, hself, hslot]
    exact h.slot
  · rw [hm, hg]
    exact h.sound.insert hi
  · rw [hg, List.map_append, hnodes]
    simp
  · rw [hd]
    exact List.append_subset.mpr ⟨List.Subset.trans hlive (List.subset_append_left _ _),
      List.subset_append_right _ _⟩
  · exact h.ordered.push (h.parents_delivered hp hwell hclear) hd hm

theorem Invariant.send (h : Invariant s) {payload : List UInt8}
    (hok : Unobstructed s (.send io payload)) :
    Invariant { s with conv := s.conv.handleSend io payload } := by
  rcases h.toSeated.handleSend_cases io payload with he | ⟨env, n, log, henv, hi, rfl, _, _, he⟩
  · rw [he]
    exact h
  · rw [he]
    exact h.accepted hi (hok n.envelope henv) rfl rfl rfl rfl rfl

theorem Invariant.moves (h : Invariant s) (hm : Moves io (Clear s) s.conv c') :
    Invariant { s with conv := c' } := by
  induction hm with
  | refl => exact h
  | @tail d e hms hm ih =>
    cases hm with
    | bookkeeping hb =>
      rw [hb.frame]
      exact ⟨⟨rfl, ih.slot, ih.sound⟩, ih.nodes, ih.ordered⟩
    | accept he hs hi =>
      obtain ⟨rfl, rfl, -⟩ := Graph.insert_ok hi
      refine ih.accepted hi ?_ rfl rfl rfl rfl rfl
      intro k hk u hu
      rw [(Moves.kept hms).2] at hk ⊢
      exact he k hk u hu

theorem Invariant.incoming (h : Invariant s) {origin : ReplicaID} {frame : WireFrame}
    (hok : Unobstructed s (.incoming io origin frame)) :
    Invariant { s with conv := s.conv.handleIncoming io origin frame } := by
  rcases frame.envelope_or with ⟨env, rfl⟩ | hframe
  · exact h.moves (moves_handleEnvelope _ s.conv env origin hok.2 hok.1)
  · rw [handleIncoming_eq hframe]
    exact ⟨⟨rfl, h.slot, h.sound⟩, h.nodes, h.ordered⟩

/-- The next undrained envelope has its parents among those replayed before it. -/
theorem Invariant.push (h : Invariant s) {env : Envelope} {rest : List Envelope}
    (hu : s.undrained = env :: rest) :
    Invariant ⟨{ s.conv with delivered := s.conv.delivered ++ [env] }, rest⟩ := by
  obtain ⟨done, live, hnodes, hdone, hlive⟩ := h.nodes
  rw [hu] at hnodes
  have hgrow := List.subset_append_left s.conv.delivered [env]
  refine ⟨⟨rfl, h.slot, h.sound⟩, ⟨done ++ [env], live, ?_, ?_, List.Subset.trans hlive hgrow⟩, ?_⟩
  · simpa using hnodes
  · exact List.append_subset.mpr ⟨List.Subset.trans hdone hgrow, List.subset_append_right _ _⟩
  · refine h.ordered.push ?_ rfl rfl
    intro k hk
    have hsplit : s.conv.graph.nodes.map Node.envelope = done ++ env :: (rest ++ live) := by
      simpa using hnodes
    obtain ⟨ns, tail, hn, rfl, htail⟩ := List.map_eq_append_iff.mp hsplit
    obtain ⟨n, ms, rfl, rfl, -⟩ := List.map_eq_cons_iff.mp htail
    have hmem : n ∈ s.conv.graph.nodes := by simp [hn]
    rw [(h.sound.derived n hmem).derivedParents] at hk
    obtain ⟨p, hp, rfl⟩ := Graph.has_iff.mp (h.sound.parentsFirst ns n ms hn k hk)
    have hpn : p ∈ s.conv.graph.nodes := by simp [hn, hp]
    exact ⟨p.envelope, hdone (List.mem_map_of_mem hp), (h.sound.derived p hpn).keyOf⟩

theorem invariant_start {convID : ConversationID} {self : ReplicaID}
    {members mask : List ReplicaID} {log : MessageLog}
    (h : new convID self members mask log = some c) : Invariant (start c) := by
  have hseated := seated_new h
  obtain ⟨ns, hreplay, hsound, -⟩ := handleReplay_eq hseated.sound
  obtain ⟨slot, hslot, rfl⟩ := Option.map_eq_some_iff.mp h
  rw [start, hreplay]
  refine ⟨⟨rfl, hslot, hsound⟩, ⟨[], [], ?_, by simp, by simp⟩, ?_⟩
  · simp [init, Graph.empty]
  · intro pre env post he
    simp [init] at he

theorem Invariant.step {a : DrainAction} (h : Invariant s) (hok : Unobstructed s a)
    (hs : step s a = some t) : Invariant t := by
  cases a with
  | push =>
    unfold ReplayDrain.step at hs
    dsimp only at hs
    split at hs
    · cases hs
    · rename_i env rest hu
      cases hs
      exact h.push hu
  | send io payload =>
    cases hs
    exact h.send hok
  | incoming io origin frame =>
    cases hs
    exact h.incoming hok

/-- However the pushes of a replay interleave with what is sent and received, the delivery
channel is in causal order, provided that no message is sent, received or released while
one of its parents still waits to be pushed. -/
theorem replay_keeps_causal_order {convID : ConversationID} {self : ReplicaID}
    {members mask : List ReplicaID} {log : MessageLog}
    (hnew : new convID self members mask log = some c)
    (hr : Reach step Unobstructed (start c) s) : CausallyOrdered s.conv :=
  (hr.invariant (invariant_start hnew) fun _ _ _ h hok hs => h.step hok hs).ordered

/-- The log of a process that had received one message and answered it. -/
def answered : MessageLog :=
  ⟨[⟨message [2] [0, 1], 1⟩, ⟨message [1] [1, 1], 1⟩], 0, Nat.zero_le _⟩

/-- A message of a third member that depends on nothing overtakes the replay, then the
replay is pushed to its end, and the replica sends. -/
theorem replay_keeps_causal_order_answered : ∃ c s,
    new [9] [1] [[1], [2], [3]] [] answered = some c ∧ Reach step Unobstructed (start c) s ∧
    s.conv.delivered.map Envelope.sender = [[3], [2], [1], [1]] ∧ CausallyOrdered s.conv := by
  have hnew : new [9] [1] [[1], [2], [3]] [] answered =
      some (init [9] [1] 0 [[1], [2], [3]] [] answered) := rfl
  have hrun : (execute step Unobstructed (start (init [9] [1] 0 [[1], [2], [3]] [] answered))
      [.incoming .standard [3] (.envelope (message [3] [0, 0, 1])), .push, .push,
        .send .standard [7]]).map (fun s => decide
          (s.conv.delivered.map Envelope.sender = [[3], [2], [1], [1]])) = some true := by
    decide +kernel
  obtain ⟨s, -, hr, hs⟩ := reach_of_execute hrun
  exact ⟨_, s, hnew, hr, of_decide_eq_true hs, replay_keeps_causal_order hnew hr⟩

/-- A message sent right after the request of `ReplayLog` has returned is delivered before
the replayed messages, although it names them as its parents. -/
theorem send_overtakes_replay : ∃ c s, new [9] [1] [[1], [2]] [] answered = some c ∧
    Reach step (fun _ _ => True) (start c) s ∧
    s.conv.delivered.map s.conv.membership.keyOf =
      [some ⟨[1], 2⟩, some ⟨[2], 1⟩, some ⟨[1], 1⟩] ∧ ¬ CausallyOrdered s.conv := by
  have hnew : new [9] [1] [[1], [2]] [] answered =
      some (init [9] [1] 0 [[1], [2]] [] answered) := rfl
  have hrun : (execute step (fun _ _ => True) (start (init [9] [1] 0 [[1], [2]] [] answered))
      [.send .standard [7], .push, .push]).map (fun s => decide
          (s.conv.delivered.map s.conv.membership.keyOf =
            [some ⟨[1], 2⟩, some ⟨[2], 1⟩, some ⟨[1], 1⟩] ∧
          ∃ e ∈ s.conv.delivered.head?, Graph.derivedParents s.conv.membership e ≠ [])) =
      some true := by decide +kernel
  obtain ⟨s, -, hr, hs⟩ := reach_of_execute hrun
  obtain ⟨hkeys, e, he, hparents⟩ := of_decide_eq_true hs
  refine ⟨_, s, hnew, hr, hkeys, fun hordered => ?_⟩
  obtain ⟨rest, hd⟩ := List.head?_eq_some_iff.mp he
  obtain ⟨k, hk⟩ := List.exists_mem_of_ne_nil _ hparents
  obtain ⟨p, hp, -⟩ := hordered [] e rest hd k hk
  cases hp

end ReplayDrain
end Comlink
