import Comlink.ServerSteps
import Comlink.GuardedRuns

/-!
# Causal delivery at one replica

A conversation that never replays its log pushes an envelope on the delivery channel
exactly when it inserts the envelope's node, whether the envelope was sent here,
received, or released from deferral. Members may join in between: a slot that is
added later is beyond the clock of every envelope already there. Hence the channel
carries the nodes of the graph in insertion order, and inherits from the graph that
keys are distinct and parents come first.
-/
namespace Comlink.Conversation
open GuardedRuns

variable {c c' : Conversation} {E : Envelope → Prop}

/-- One request of a conversation, none of which can get stuck. -/
def step (c : Conversation) (req : Request) : Option Conversation := some (c.handle req)

structure Delivering (c : Conversation) : Prop
    extends Seated c.membership.allReplicas c where
  delivered : c.delivered = c.graph.nodes.map Node.envelope

theorem delivering_new {convID : ConversationID} {self : ReplicaID}
    {members mask : List ReplicaID} {log : MessageLog}
    (h : new convID self members mask log = some c) : Delivering c := by
  refine ⟨seated_new h, ?_⟩
  obtain ⟨slot, _, rfl⟩ := Option.map_eq_some_iff.mp h
  rfl

theorem delivered_moves {io : HandlerChoices}
    (h : c.delivered = c.graph.nodes.map Node.envelope) (hm : Moves io E c c') :
    c'.delivered = c'.graph.nodes.map Node.envelope := by
  induction hm with
  | refl => exact h
  | tail _ hm ih =>
    cases hm with
    | bookkeeping hb =>
      rw [hb.frame]
      exact ih
    | accept he hs hi =>
      obtain ⟨rfl, rfl, _, _, _⟩ := Graph.insert_ok hi
      simp [accept, ih]

theorem Delivering.handle {req : Request} (h : Delivering c) (hr : req ≠ .replayLog) :
    Delivering (c.handle req) := by
  have hs := h.toSeated.served_request req
  refine ⟨h.toSeated.serve hs, ?_⟩
  generalize c.handle req = c' at hs ⊢
  cases hs with
  | quiet hq ht =>
    rw [hq.delivered, hq.graph]
    exact h.delivered
  | joined hm => exact h.delivered
  | issued henv hi hslot => simp [broadcastEnvelope, h.delivered]
  | replayed ha hs hlog =>
    rcases ha with ha | ha
    · cases ha
    · cases ha
      exact absurd rfl hr
  | received io origin env => exact delivered_moves h.delivered (moves_incoming c io origin env)

theorem Delivering.map_keyOf (h : Delivering c) :
    c.delivered.map c.membership.keyOf = (c.graph.nodes.map Node.key).map some := by
  rw [h.delivered, List.map_map, List.map_map]
  exact List.map_congr_left fun n hn => (h.sound.derived n hn).keyOf

/-- Each key is pushed on the delivery channel at most once, and the parents that an
envelope's clock names have been pushed before it. -/
theorem delivered_once_after_parents {convID : ConversationID} {self : ReplicaID}
    {members mask : List ReplicaID} {log : MessageLog} {c₀ : Conversation}
    (hnew : new convID self members mask log = some c₀)
    (hr : Reach step (fun _ req => req ≠ .replayLog) c₀ c) :
    (∀ env ∈ c.delivered, c.membership.keyOf env ≠ none) ∧
      (c.delivered.map c.membership.keyOf).Nodup ∧
      ∀ pre env post, c.delivered = pre ++ env :: post →
        ∀ k ∈ Graph.derivedParents c.membership env, ∃ e ∈ pre, c.membership.keyOf e = some k := by
  have h : Delivering c := hr.invariant (delivering_new hnew) fun s req t hs hreq hstep => by
    cases hstep
    exact hs.handle hreq
  refine ⟨?_, ?_, ?_⟩
  · intro env henv
    rw [h.delivered] at henv
    obtain ⟨n, hn, rfl⟩ := List.mem_map.mp henv
    rw [(h.sound.derived n hn).keyOf]
    exact Option.some_ne_none _
  · rw [h.map_keyOf]
    exact h.sound.keys.map fun _ _ => Option.some.inj
  · intro pre env post he k hk
    rw [h.delivered] at he
    obtain ⟨ns, rest, hnodes, rfl, hrest⟩ := List.map_eq_append_iff.mp he
    obtain ⟨n, ms, rfl, rfl, -⟩ := List.map_eq_cons_iff.mp hrest
    have hn : n ∈ c.graph.nodes := by simp [hnodes]
    rw [(h.sound.derived n hn).derivedParents] at hk
    obtain ⟨p, hp, rfl⟩ := Graph.has_iff.mp (h.sound.parentsFirst ns n ms hnodes k hk)
    have hpn : p ∈ c.graph.nodes := by simp [hnodes, hp]
    exact ⟨p.envelope, List.mem_map_of_mem hp, (h.sound.derived p hpn).keyOf⟩

/-- Two messages of a peer arrive in the wrong order; then a third member joins. -/
def lateJoiner : List Request :=
  [.incoming .standard [2] (.envelope (message [2] [0, 2])),
    .incoming .standard [2] (.envelope (message [2] [0, 1])),
    .incoming .standard [2] (.envelope (message [2] [0, 2])), .send .standard [], .addMember [3],
    .incoming .standard [3] (.envelope (message [3] [1, 2, 1]))]

theorem delivered_once_after_parents_lateJoiner :
    ∃ c₀ c, new [9] [1] [[1], [2]] [] .empty = some c₀ ∧
      Reach step (fun _ req => req ≠ .replayLog) c₀ c ∧
      c.delivered.map c.membership.keyOf =
        [some ⟨[2], 1⟩, some ⟨[2], 2⟩, some ⟨[1], 1⟩, some ⟨[3], 1⟩] ∧
      ∀ pre env post, c.delivered = pre ++ env :: post →
        ∀ k ∈ Graph.derivedParents c.membership env,
          ∃ e ∈ pre, c.membership.keyOf e = some k := by
  have hnew : new [9] [1] [[1], [2]] [] .empty = some (init [9] [1] 0 [[1], [2]] [] .empty) := rfl
  have hrun : (execute step (fun _ _ => True) (init [9] [1] 0 [[1], [2]] [] .empty)
      lateJoiner).map (fun c => decide (c.delivered.map c.membership.keyOf =
        [some ⟨[2], 1⟩, some ⟨[2], 2⟩, some ⟨[1], 1⟩, some ⟨[3], 1⟩])) = some true := by
    decide +kernel
  obtain ⟨c, he, -, hkeys⟩ := reach_of_execute hrun
  have hr := execute_reach_of_forall (P := fun req => req ≠ .replayLog) lateJoiner he
    (by simp [lateJoiner])
  have hr' := hr.mono fun _ _ h => h.2
  exact ⟨_, c, hnew, hr', of_decide_eq_true hkeys, (delivered_once_after_parents hnew hr').2.2⟩

end Comlink.Conversation
