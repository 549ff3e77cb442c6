import Comlink.ClockAncestry
import Comlink.PersistentStability

/-!
# Stability means that everybody has answered

The checker looks only at the newest clock of each slot. When all messages come from
`handleSend` and the member list is fixed, every clock has an entry for every slot and the
newest clock of a sender covers its older ones. So the checker says what the paper asks for:
every active participant other than the sender has sent a message in the node's context.
-/
namespace Comlink
open GuardedRuns VectorClock

namespace Graph

variable {m : Membership} {g : Graph} {n : Node}

/-- Every active participant other than the sender has a message that follows the node. -/
def Answered (g : Graph) (m : Membership) (n : Node) : Prop :=
  ∀ (i : ℕ) (s : Slot), m.slots[i]? = some s → s.frozen = false →
    s.replica ≠ n.envelope.sender → ∃ x ∈ g.nodes, x.envelope.sender = s.replica ∧ g.Ancestor n x

theorem acknowledgedBy_of_latest {r : ReplicaID} {l : Node} (hl : g.latestNode r = some l)
    (hlt : n.senderSlot < l.envelope.id.vectorClock.length)
    (hle : n.senderSeq ≤ l.envelope.id.vectorClock.atSlot n.senderSlot) :
    g.AcknowledgedBy n r := by
  refine ⟨l, hl, _, List.getElem?_eq_getElem hlt, ?_⟩
  rwa [← atSlot_eq_getElem hlt]

/-- A sender acknowledges its own messages. -/
theorem Sound.acknowledgedBy_sender (h : Sound m g) (hn : n ∈ g.nodes) :
    g.AcknowledgedBy n n.envelope.sender := by
  have hle := le_latestSeq hn
  have hpos := (h.derived n hn).seq_pos
  obtain ⟨l, hl⟩ := exists_latestNode (g := g) (r := n.envelope.sender) (by omega)
  obtain ⟨hmem, hsender, hseq⟩ := latestNode_eq_some hl
  have hd := h.derived l hmem
  have hslot := h.senderSlot_eq hmem hn hsender
  refine acknowledgedBy_of_latest hl (hslot ▸ hd.slot_lt) ?_
  rw [← hslot, hd.seq, hseq]
  exact hle

/-- An acknowledgement by another replica is a message that follows the node. -/
theorem Sound.exists_descendant (h : Sound m g) (hn : n ∈ g.nodes) {r : ReplicaID}
    (hr : r ≠ n.envelope.sender) (hack : g.AcknowledgedBy n r) :
    ∃ x ∈ g.nodes, x.envelope.sender = r ∧ g.Ancestor n x := by
  obtain ⟨l, hl, acked, hget, hle⟩ := hack
  obtain ⟨hmem, rfl, -⟩ := latestNode_eq_some hl
  refine ⟨l, hmem, rfl, h.ancestor_of_entry hn hmem ?_ ?_⟩
  · rintro rfl
    exact hr rfl
  · obtain ⟨hlt, rfl⟩ := List.getElem?_eq_some_iff.mp hget
    rwa [atSlot_eq_getElem hlt]

end Graph

namespace Group
open Conversation

variable {G : Group} {net net' : Network} {p : ReplicaID} {n : Node}

/-- Clocks have an entry for every configured member. -/
def FullClocks (G : Group) (net : Network) : Prop :=
  ∀ p ∈ G.members, ∀ e ∈ (net p).issued, e.id.vectorClock.length = G.members.length

theorem fullClocks_start (G : Group) : G.FullClocks G.start := by
  intro p hp e he
  cases he

theorem FullClocks.step (hf : G.FullClocks net) (h : G.Invariant net) {act : NetAction}
    (hs : act.request.isStatic = true) (hstep : G.netStep net act = some net') :
    G.FullClocks net' := by
  obtain ⟨hp, -, rfl⟩ := netStep_eq_some hstep
  obtain ⟨p, req⟩ := act
  dsimp only at hp hs ⊢
  refine forall_members_update (P := fun _ (c : Conversation) => ∀ e ∈ c.issued,
    e.id.vectorClock.length = G.members.length) ?_ hf
  have hl := h.live p hp
  have heff := hl.effect req hs
  generalize (net p).handle req = c at heff ⊢
  cases heff with
  | quiet hq =>
    rw [hq.issued]
    exact hf p hp
  | receive hm =>
    rw [(hm (fun _ => True) (fun _ _ _ => trivial) trivial).issued]
    exact hf p hp
  | issue henv hi hslot hlog =>
    intro e he
    rcases List.mem_append.mp he with he | he
    · exact hf p hp e he
    · rw [List.mem_singleton.mp he, (increment_eq_some (nextEnvelope_eq_some henv).2.2).2.1,
        hl.sound.length_currentView, Membership.len, hl.members_eq]

theorem FullClocks.length_eq (hf : G.FullClocks net) (h : G.Invariant net) (hp : p ∈ G.members)
    (hn : n ∈ (net p).graph.nodes) : n.envelope.id.vectorClock.length = G.members.length := by
  obtain ⟨hq, hissued⟩ := h.own_node hp hn rfl
  exact hf _ hq _ hissued

theorem FullClocks.senderSlot_lt (hf : G.FullClocks net) (h : G.Invariant net)
    (hp : p ∈ G.members) (hn : n ∈ (net p).graph.nodes) {x : Node}
    (hx : x ∈ (net p).graph.nodes) : n.senderSlot < x.envelope.id.vectorClock.length := by
  rw [hf.length_eq h hp hx, ← hf.length_eq h hp hn]
  exact ((h.live p hp).sound.derived n hn).slot_lt

/-- The newest message of a replica acknowledges whatever one of its messages follows. -/
theorem Invariant.acknowledgedBy_of_ancestor (h : G.Invariant net) (hb : G.OwnParentsBelow net)
    (hf : G.FullClocks net) (hp : p ∈ G.members) {x : Node} (ha : (net p).graph.Ancestor n x) :
    (net p).graph.AcknowledgedBy n x.envelope.sender := by
  obtain ⟨hn, hx⟩ := ha.mem
  have hsound := (h.live p hp).sound
  have hpos := (hsound.derived x hx).seq_pos
  have hle := Graph.le_latestSeq hx
  obtain ⟨l, hl⟩ := Graph.exists_latestNode (g := (net p).graph) (r := x.envelope.sender)
    (by omega)
  obtain ⟨hmem, hsender, hseq⟩ := Graph.latestNode_eq_some hl
  have hnx : n.senderSeq ≤ x.envelope.id.vectorClock.atSlot n.senderSlot := by
    rw [← (hsound.derived n hn).seq]
    exact hb.ancestor h hp ha n.senderSlot
  have hxl : x.envelope.id.vectorClock.atSlot n.senderSlot ≤
      l.envelope.id.vectorClock.atSlot n.senderSlot := by
    rcases h.issuedBefore_of_seq_le hp hp hx hmem hsender.symm (hle.trans_eq hseq.symm) with
      heq | hbefore
    · rw [heq]
    · exact hbefore.1 n.senderSlot
  exact Graph.acknowledgedBy_of_latest hl (hf.senderSlot_lt h hp hn hmem) (hnx.trans hxl)

/-- A message is stable exactly if every other active member has answered it, as long as each
replica is one process over the whole run: none is restarted. -/
theorem stable_iff_answered
    (hr : Reach G.netStep (fun _ act => act.request.isStatic = true) G.start net)
    (hp : p ∈ G.members) (hn : n ∈ (net p).graph.nodes) (m : Membership)
    (hm : m.allReplicas = (net p).membership.allReplicas) :
    ∃ b, (net p).graph.isStable m n = some b ∧
      (b = true ↔ (net p).graph.Answered m n) := by
  obtain ⟨h, hb, hf⟩ : G.Invariant net ∧ G.OwnParentsBelow net ∧ G.FullClocks net :=
    hr.invariant (P := fun net => G.Invariant net ∧ G.OwnParentsBelow net ∧ G.FullClocks net)
      ⟨invariant_start G, ownParentsBelow_start G, fullClocks_start G⟩
      fun _ _ _ h hs hstep =>
        ⟨h.1.step hs hstep, h.2.1.step h.1 hs hstep, h.2.2.step h.1 hs hstep⟩
  have hsound : Graph.Sound m (net p).graph := (h.live p hp).sound.congr hm
  have hindex : (net p).graph.Indexable n :=
    fun r l hl => hf.senderSlot_lt h hp hn (Graph.latestNode_eq_some hl).1
  obtain ⟨b, hstable⟩ := Option.isSome_iff_exists.mp (Graph.isStable_isSome (m := m) hindex)
  refine ⟨b, hstable, ?_⟩
  have hiff := Graph.isStable_eq_true_iff (g := (net p).graph) (m := m) (n := n)
  rw [hstable, Option.some_inj] at hiff
  rw [hiff]
  constructor
  · intro hall i s hs hactive hother
    rcases hall i s hs with rfl | hfrozen | hack
    · have hslot := Membership.slotOf_getElem? (hsound.derived n hn).slot
      rw [Membership.allReplicas, List.getElem?_map, hs] at hslot
      exact absurd (Option.some.inj hslot) hother
    · rw [hactive] at hfrozen
      cases hfrozen
    · exact hsound.exists_descendant hn hother hack
  · intro hanswered i s hs
    by_cases hactive : s.frozen = true
    · exact Or.inr (Or.inl hactive)
    by_cases hother : s.replica = n.envelope.sender
    · exact Or.inr (Or.inr (hother ▸ hsound.acknowledgedBy_sender hn))
    · obtain ⟨x, -, hsender, ha⟩ := hanswered i s hs (by simpa using hactive) hother
      exact Or.inr (Or.inr (hsender ▸ h.acknowledgedBy_of_ancestor hb hf hp ha))

theorem stable_iff_answered_question : ∃ net,
    execute (netStep ⟨[0], [[1], [2]]⟩) (fun _ act => act.request.isStatic = true)
        (start ⟨[0], [[1], [2]]⟩) answered = some net ∧
      (net [2]).graph.isStable (net [2]).membership question = some true ∧
      (net [2]).graph.Answered (net [2]).membership question ∧
      (net [2]).graph.isStable (net [2]).membership answer = some false ∧
      ¬ (net [2]).graph.Answered (net [2]).membership answer := by
  have hrun : (execute (netStep ⟨[0], [[1], [2]]⟩) (fun _ act => act.request.isStatic = true)
      (start ⟨[0], [[1], [2]]⟩) answered).map (fun net => decide
        ((net [2]).graph.nodes = [question, answer] ∧
          (net [2]).graph.isStable (net [2]).membership question = some true ∧
          (net [2]).graph.isStable (net [2]).membership answer = some false)) = some true := by
    decide +kernel
  obtain ⟨net, he, hr, hc⟩ := reach_of_execute hrun
  obtain ⟨hnodes, hquestion, hanswer⟩ := of_decide_eq_true hc
  have hstable := fun n hn => stable_iff_answered (p := [2]) (n := n) hr (by decide) hn
    (net [2]).membership rfl
  obtain ⟨b, hb, hiff⟩ := hstable question (by simp [hnodes])
  obtain ⟨b', hb', hiff'⟩ := hstable answer (by simp [hnodes])
  rw [hquestion] at hb
  rw [hanswer] at hb'
  cases hb
  cases hb'
  exact ⟨net, he, hquestion, hiff.mp rfl, hanswer, fun h => Bool.false_ne_true (hiff'.mpr h)⟩

end Group
end Comlink
