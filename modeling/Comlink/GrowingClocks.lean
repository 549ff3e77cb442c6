import Comlink.ServerSteps
import Comlink.GuardedRuns

/-!
# The clocks of one process grow

Whatever a process receives, replays or is told about its members, each message that it
sends is stamped with a clock that covers the clocks of all messages it sent before. The
clock is the view of the graph, incremented; the graph keeps the earlier messages, and its
view covers every clock that it holds.
-/
namespace Comlink
open VectorClock GuardedRuns

/-- The later clock has at least the entries of the earlier one, none of them smaller. -/
def VectorClock.Grows (v w : VectorClock) : Prop := v.length ≤ w.length ∧ Below v w

theorem VectorClock.Grows.refl (v : VectorClock) : Grows v v := ⟨Nat.le_refl _, Below.refl v⟩

/-- The view of a graph covers every clock in it. -/
theorem Graph.Sound.below_currentView {g : Graph} {m : Membership} (h : g.Sound m)
    (hn : m.allReplicas.Nodup) {n : Node} (hmem : n ∈ g.nodes) :
    Grows n.envelope.id.vectorClock (g.currentView m) := by
  have hlen := (h.derived n hmem).length_le
  refine ⟨by rw [h.length_currentView]; exact hlen, fun i => ?_⟩
  by_cases hi : i < m.len
  · have hget : m.allReplicas[i]? = some m.allReplicas[i] := List.getElem?_eq_getElem hi
    have hslot : m.slotOf m.allReplicas[i] = some i := ListScans.lastIdxOf_eq_of_nodup hn hget
    exact (h.entry_le_latestSeq hmem hget).trans (h.latestSeq_le_currentView hslot)
  · rw [atSlot_of_length_le (by omega)]
    exact Nat.zero_le _

namespace Conversation

variable {c c' : Conversation} {r : ReplicaID}

/-- A state that a process of replica `r` can be in. -/
def ProcessOf (r : ReplicaID) (c : Conversation) : Prop :=
  ∃ convID members mask log c₀, members.Nodup ∧ new convID r members mask log = some c₀ ∧
    Reach serve (fun _ _ => True) c₀ c

theorem processOf_foldl {convID : ConversationID} {members mask : List ReplicaID}
    {log : MessageLog} {c₀ : Conversation} (hn : members.Nodup)
    (hnew : new convID r members mask log = some c₀) (reqs : List Request) :
    ProcessOf r (reqs.foldl handle c₀) := by
  refine ⟨convID, members, mask, log, c₀, hn, hnew, ?_⟩
  induction reqs using List.reverseRecOn with
  | nil => exact .refl
  | append_singleton reqs req ih =>
    rw [List.foldl_append]
    exact ih.tail ⟨.request req, trivial, rfl⟩

structure Growing (r : ReplicaID) (c : Conversation) : Prop
    extends Seated c.membership.allReplicas c where
  nodup : c.membership.allReplicas.Nodup
  self : c.self = r
  own : ∀ e ∈ c.issued, e.sender = r ∧ ∃ n ∈ c.graph.nodes, n.envelope = e
  grows : c.issued.Pairwise fun e e' => Grows e.id.vectorClock e'.id.vectorClock

theorem growing_new {convID : ConversationID} {members mask : List ReplicaID} {log : MessageLog}
    (hn : members.Nodup) (h : new convID r members mask log = some c) : Growing r c := by
  have hseated := seated_new h
  obtain ⟨slot, -, rfl⟩ := Option.map_eq_some_iff.mp h
  refine ⟨hseated, ?_, rfl, by simp [init], List.Pairwise.nil⟩
  simpa [init] using hn

/-- The next message covers what the process has sent so far. -/
theorem Growing.grows_next (h : Growing r c) {payload : List UInt8} {env : Envelope}
    (henv : c.nextEnvelope payload = some env) {e : Envelope} (he : e ∈ c.issued) :
    Grows e.id.vectorClock env.id.vectorClock := by
  obtain ⟨-, n, hn, rfl⟩ := h.own e he
  obtain ⟨hlen, hbelow⟩ := h.sound.below_currentView h.nodup hn
  have hinc := (nextEnvelope_eq_some henv).2.2
  refine ⟨?_, hbelow.trans (below_increment hinc)⟩
  rw [(increment_eq_some hinc).2.1]
  exact hlen

theorem Growing.own_of_subset (h : Growing r c) {nodes : List Node}
    (hsub : c.graph.nodes ⊆ nodes) :
    ∀ e ∈ c.issued, e.sender = r ∧ ∃ n ∈ nodes, n.envelope = e := by
  intro e he
  obtain ⟨hs, a, ha, hae⟩ := h.own e he
  exact ⟨hs, a, hsub ha, hae⟩

theorem Growing.serve (h : Growing r c) {a : ServerStep} (hs : c.serve a = some c') :
    Growing r c' := by
  have hserved := h.toSeated.served hs
  have hseated := h.toSeated.serve hserved
  cases hserved with
  | quiet hq ht =>
    refine ⟨hseated, hq.members ▸ h.nodup, hq.self.trans h.self, ?_, ?_⟩
    · rw [hq.issued, hq.graph]
      exact h.own
    · rw [hq.issued]
      exact h.grows
  | joined hm =>
    exact ⟨hseated, Membership.nodup_allReplicas_add hm h.nodup, h.self, h.own, h.grows⟩
  | @issued io payload n log henv hi hslot =>
    have hsender : n.envelope.sender = r := by
      rw [Envelope.sender, (nextEnvelope_eq_some henv).2.1, ← h.self]
      rfl
    refine ⟨hseated, h.nodup, h.self, ?_, ?_⟩
    · intro e he
      rcases List.mem_append.mp he with he | he
      · exact h.own_of_subset (List.subset_append_left _ _) e he
      · rw [List.mem_singleton.mp he]
        exact ⟨hsender, n, List.mem_append_right _ (List.mem_singleton_self n), rfl⟩
    · refine List.pairwise_append.mpr ⟨h.grows, List.pairwise_singleton _ _, ?_⟩
      intro e he e' he'
      rw [List.mem_singleton.mp he']
      exact h.grows_next henv he
  | replayed ha hsound hlog =>
    exact ⟨hseated, h.nodup, h.self, h.own_of_subset (List.subset_append_left _ _), h.grows⟩
  | received io origin env =>
    have hm := moves_incoming c io origin env
    obtain ⟨hissued, hmem⟩ := hm.kept
    refine ⟨hseated, by rw [hmem]; exact h.nodup, hm.extends.self.trans h.self, ?_, ?_⟩
    · rw [hissued]
      exact h.own_of_subset hm.extends.nodes.subset
    · rw [hissued]
      exact h.grows

theorem ProcessOf.growing (h : ProcessOf r c) : Growing r c := by
  obtain ⟨convID, members, mask, log, c₀, hn, hnew, hr⟩ := h
  exact hr.invariant (growing_new hn hnew) fun _ _ _ hs _ hstep => hs.serve hstep

/-- Of two messages that a process has sent, one covers the other. -/
theorem ProcessOf.comparable (h : ProcessOf r c) {e e' : Envelope} (he : e ∈ c.issued)
    (he' : e' ∈ c.issued) : Grows e.id.vectorClock e'.id.vectorClock ∨
      Grows e'.id.vectorClock e.id.vectorClock := by
  by_cases hne : e = e'
  · subst hne
    exact Or.inl (Grows.refl _)
  · have hpairs : c.issued.Pairwise fun e e' => Grows e.id.vectorClock e'.id.vectorClock ∨
        Grows e'.id.vectorClock e.id.vectorClock := h.growing.grows.imp Or.inl
    have hsymm : Std.Symm fun e e' : Envelope => Grows e.id.vectorClock e'.id.vectorClock ∨
        Grows e'.id.vectorClock e.id.vectorClock := ⟨fun _ _ => Or.symm⟩
    exact hpairs.forall he he' hne

end Conversation
end Comlink
