import Comlink.ReplicaGroup

/-!
# Ancestry in the context graph

The causal predecessors of a message are the ancestors of its node. Growing a graph
adds no ancestor to a node that it already holds, every replica records the same
parents for a message, and clocks and waves never decrease from a parent to its child.
-/
namespace Comlink
open VectorClock

namespace Graph
variable {m : Membership} {g g' : Graph} {a n : Node}

def Parent (g : Graph) (a n : Node) : Prop := a ∈ g.nodes ∧ n ∈ g.nodes ∧ a.key ∈ n.parents

/-- Reachable from `n` through one or more parent pointers. -/
def Ancestor (g : Graph) (a n : Node) : Prop := Relation.TransGen g.Parent a n

theorem Ancestor.mem (h : g.Ancestor a n) : a ∈ g.nodes ∧ n ∈ g.nodes := by
  induction h with
  | single h => exact ⟨h.1, h.2.1⟩
  | tail _ h ih => exact ⟨ih.1, h.2.1⟩

theorem Sound.parent_of_extends (h : Sound m g) (h' : Sound m g') (hg : g.nodes <+: g'.nodes)
    (hn : n ∈ g.nodes) (hp : g'.Parent a n) : g.Parent a n := by
  obtain ⟨ha, _, hk⟩ := hp
  obtain ⟨b, hb, hbk⟩ := has_iff.mp (h.closed hn hk)
  rw [h'.eq_of_key (hg.subset hb) ha hbk] at hb
  exact ⟨hb, hn, hk⟩

/-- A node that the graph already holds gains no ancestors. -/
theorem Sound.ancestor_of_extends (h : Sound m g) (h' : Sound m g')
    (hg : g.nodes <+: g'.nodes) (hn : n ∈ g.nodes) (ha : g'.Ancestor a n) :
    g.Ancestor a n := by
  induction ha using Relation.TransGen.head_induction_on with
  | single hp => exact .single (h.parent_of_extends h' hg hn hp)
  | head hp _ ih => exact .head (h.parent_of_extends h' hg ih.mem.1 hp) ih

end Graph

namespace Group
open Conversation

variable {G : Group} {net net' : Network} {p q : ReplicaID} {a b n : Node}

theorem Invariant.node_eq (h : G.Invariant net) (hp : p ∈ G.members) (hq : q ∈ G.members)
    (ha : a ∈ (net p).graph.nodes) (hb : b ∈ (net q).graph.nodes)
    (he : a.envelope = b.envelope) : a = b := by
  have hm : (net p).membership.allReplicas = (net q).membership.allReplicas :=
    (h.live p hp).members_eq.trans (h.live q hq).members_eq.symm
  have hda := ((h.live p hp).sound.congr hm.symm).derived a ha
  have hdb := (h.live q hq).sound.derived b hb
  exact hda.eq hdb he

/-- A member's own messages have clocks above those of their parents. -/
def OwnParentsBelow (G : Group) (net : Network) : Prop :=
  ∀ p ∈ G.members, ∀ n ∈ (net p).graph.nodes, n.envelope.sender = p → ∀ a,
    (net p).graph.Parent a n → Below a.envelope.id.vectorClock n.envelope.id.vectorClock

theorem ownParentsBelow_start (G : Group) : G.OwnParentsBelow G.start := by
  intro p hp n hn
  cases hn

theorem OwnParentsBelow.step (hb : G.OwnParentsBelow net) (h : G.Invariant net)
    {act : NetAction} (hs : act.request.isStatic = true)
    (hstep : G.netStep net act = some net') : G.OwnParentsBelow net' := by
  have h' := h.step hs hstep
  obtain ⟨hp, _, rfl⟩ := netStep_eq_some hstep
  obtain ⟨p, req⟩ := act
  dsimp only at hp hs h' ⊢
  have hl := h.live p hp
  have hl' : Live G.members ((net p).handle req) := hl.handle hs
  have heff := hl.effect req hs
  have hnew := fun n => h'.own_node (n := n) (q := p) hp
  simp only [Function.update_self] at hnew
  generalize (net p).handle req = c at hl' heff hnew ⊢
  have hext := heff.extends
  have hsound : c.graph.Sound (net p).membership := hl'.sound.congr hext.members.symm
  have hold : ∀ n ∈ (net p).graph.nodes, n.envelope.sender = p → ∀ a, c.graph.Parent a n →
      Below a.envelope.id.vectorClock n.envelope.id.vectorClock := fun n hn hns a ha =>
    hb p hp n hn hns a (hl.sound.parent_of_extends hsound hext.nodes hn ha)
  have hsame : c.issued = (net p).issued → ∀ n ∈ c.graph.nodes, n.envelope.sender = p →
      n ∈ (net p).graph.nodes := by
    intro hissued n hn hns
    have hi := (hnew n hn hns).2
    rw [hissued] at hi
    obtain ⟨_, m, hm, hme⟩ := h.own p hp _ hi
    rw [← hsound.eq_of_envelope (hext.nodes.subset hm) hn hme]
    exact hm
  refine forall_members_update (P := fun q (c : Conversation) => ∀ n ∈ c.graph.nodes,
    n.envelope.sender = q → ∀ a, c.graph.Parent a n →
      Below a.envelope.id.vectorClock n.envelope.id.vectorClock) ?_ hb
  intro n hn hns a ha
  cases heff with
  | quiet hq => exact hold n (hsame hq.issued n hn hns) hns a ha
  | @issue io payload m log henv hi hslot hlog =>
    rcases List.mem_append.mp hn with hn | hn
    · exact hold n hn hns a ha
    · have hnm := List.mem_singleton.mp hn
      subst hnm
      obtain ⟨ham, _, hk⟩ := ha
      obtain ⟨_, _, _, _, hpresent⟩ := Graph.insert_ok hi
      obtain ⟨b, hbm, hbk⟩ := Graph.has_iff.mp (hpresent _ hk)
      rw [← hsound.eq_of_key (hext.nodes.subset hbm) ham hbk]
      exact (h.below_currentView hp hbm).trans
        (below_increment (nextEnvelope_eq_some henv).2.2)
  | receive hm =>
    exact hold n (hsame (hm (fun _ => True) (fun _ _ _ => trivial) trivial).issued n hn hns) hns
      a ha

/-- At every replica, clocks grow from a parent to its child. -/
theorem OwnParentsBelow.parent (hb : G.OwnParentsBelow net) (h : G.Invariant net)
    (hp : p ∈ G.members) (ha : (net p).graph.Parent a n) :
    Below a.envelope.id.vectorClock n.envelope.id.vectorClock := by
  obtain ⟨ham, hnm, hk⟩ := ha
  obtain ⟨hq, hissued⟩ := h.own_node hp hnm rfl
  obtain ⟨_, n', hn', hne⟩ := h.own _ hq _ hissued
  have hnn : n' = n := h.node_eq hq hp hn' hnm hne
  subst hnn
  obtain ⟨a', ha', hak⟩ := Graph.has_iff.mp ((h.live _ hq).sound.closed hn' hk)
  have hae := h.envelope_eq_of_key hq hp ha' ham hak
  have haa : a' = a := h.node_eq hq hp ha' ham hae
  subst haa
  exact hb _ hq n' hn' rfl a' ⟨ha', hn', hk⟩

theorem OwnParentsBelow.ancestor (hb : G.OwnParentsBelow net) (h : G.Invariant net)
    (hp : p ∈ G.members) (ha : (net p).graph.Ancestor a n) :
    Below a.envelope.id.vectorClock n.envelope.id.vectorClock := by
  induction ha with
  | single hpar => exact hb.parent h hp hpar
  | tail _ hpar ih => exact ih.trans (hb.parent h hp hpar)

theorem OwnParentsBelow.wave_le (hb : G.OwnParentsBelow net) (h : G.Invariant net)
    (hp : p ∈ G.members) (ha : (net p).graph.Ancestor a n) : a.wave ≤ n.wave := by
  rw [h.wave_eq hp ha.mem.1, h.wave_eq hp ha.mem.2]
  exact (hb.ancestor h hp ha).waveOf_le

end Group
end Comlink
