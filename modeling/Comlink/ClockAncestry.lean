import Comlink.CausalClocks
import Mathlib.Tactic.TFAE

/-!
# Clocks tell ancestry

A message carries its vector clock and no list of predecessors. In a run whose messages
all come from `handleSend` the clocks say as much as the graph: a node is an ancestor of
another one just when the clock of the other has reached its number, and just when the
clocks are ordered by `HappensBefore`.
-/
namespace Comlink
open VectorClock GuardedRuns

namespace Graph
variable {m : Membership} {g : Graph} {a b n : Node}

theorem Sound.mem_of_parent (h : Sound m g) (hp : g.Parent a n) {pre post : List Node}
    (hg : g.nodes = pre ++ n :: post) : a ∈ pre := by
  obtain ⟨ham, _, hk⟩ := hp
  obtain ⟨x, hx, hxk⟩ := has_iff.mp (h.parentsFirst pre n post hg _ hk)
  have hxg : x ∈ g.nodes := by
    rw [hg]
    exact List.mem_append_left _ hx
  rwa [← h.eq_of_key hxg ham hxk]

/-- An ancestor was inserted earlier. -/
theorem Sound.mem_of_ancestor (h : Sound m g) (ha : g.Ancestor a n) {pre post : List Node}
    (hg : g.nodes = pre ++ n :: post) : a ∈ pre := by
  induction ha generalizing pre post with
  | single hp => exact h.mem_of_parent hp hg
  | @tail x n _ hp ih =>
    obtain ⟨u, v, hpre⟩ := List.append_of_mem (h.mem_of_parent hp hg)
    have hsplit : g.nodes = u ++ x :: (v ++ n :: post) := by rw [hg, hpre]; simp
    rw [hpre]
    exact List.mem_append_left _ (ih hsplit)

theorem Sound.not_ancestor_self (h : Sound m g) : ¬ g.Ancestor a a := by
  intro ha
  obtain ⟨pre, post, hg⟩ := List.append_of_mem ha.mem.1
  have hpre := h.mem_of_ancestor ha hg
  have hn := h.keys.of_map
  rw [hg] at hn
  exact (List.nodup_append.mp hn).2.2 a hpre a (List.mem_cons_self ..) rfl

/-- The earlier messages of a sender are ancestors of its later ones. -/
theorem Sound.ancestor_of_seq_lt (h : Sound m g) (ha : a ∈ g.nodes) (hn : n ∈ g.nodes)
    (hs : a.envelope.sender = n.envelope.sender) (hlt : a.senderSeq < n.senderSeq) :
    g.Ancestor a n := by
  obtain ⟨d, hd⟩ := Nat.exists_eq_add_of_lt hlt
  induction d generalizing n with
  | zero =>
    have hpos := (h.derived a ha).seq_pos
    have hk : a.key = ⟨n.envelope.sender, n.senderSeq - 1⟩ := Key.ext hs (by simp [Node.key, hd])
    refine .single ⟨ha, hn, ?_⟩
    rw [hk]
    exact h.own_parent hn (by omega)
  | succ d ih =>
    have hparent := h.own_parent hn (by omega)
    obtain ⟨x, hx, hxk⟩ := has_iff.mp (h.closed hn hparent)
    have hxs : x.envelope.sender = n.envelope.sender := congrArg Key.sender hxk
    have hxq : x.senderSeq = n.senderSeq - 1 := congrArg Key.seq hxk
    refine (ih hx (hs.trans hxs.symm) (by omega) (by omega)).tail ⟨hx, hn, ?_⟩
    rw [hxk]
    exact hparent

/-- The messages of one sender stand in the graph in the order of their numbers. -/
theorem Sound.fifo (h : Sound m g) :
    g.nodes.Pairwise fun a b => a.envelope.sender = b.envelope.sender →
      a.senderSeq < b.senderSeq := by
  refine ListScans.pairwise_of_split fun pre b post hg a ha hs => ?_
  have ham : a ∈ g.nodes := by simp [hg, ha]
  have hbm : b ∈ g.nodes := by simp [hg]
  by_contra hlt
  rcases Nat.lt_or_eq_of_le (Nat.le_of_not_lt hlt) with hlt | heq
  · obtain ⟨u, v, rfl⟩ := List.append_of_mem ha
    have hg' : g.nodes = u ++ a :: (v ++ b :: post) := by simp [hg]
    have hbu := h.mem_of_ancestor (h.ancestor_of_seq_lt hbm ham hs.symm hlt) hg'
    have hn := h.keys.of_map
    rw [hg', List.nodup_append] at hn
    exact hn.2.2 b hbu b (by simp) rfl
  · have hn := h.keys
    rw [hg, List.map_append, List.nodup_append] at hn
    exact hn.2.2 a.key (List.mem_map_of_mem ha) b.key (by simp) (Key.ext hs heq.symm)

/-- A clock that has reached the number of a message is that of a descendant. -/
theorem Sound.ancestor_of_entry (h : Sound m g) (ha : a ∈ g.nodes) (hb : b ∈ g.nodes)
    (hab : a ≠ b) (hle : a.senderSeq ≤ b.envelope.id.vectorClock.atSlot a.senderSlot) :
    g.Ancestor a b := by
  have hda := h.derived a ha
  have hdb := h.derived b hb
  have hslot := Membership.slotOf_getElem? hda.slot
  have hne : b.envelope.id.vectorClock.atSlot a.senderSlot ≠ 0 := by
    have hpos := hda.seq_pos
    omega
  by_cases hs : a.senderSlot = b.senderSlot
  · have hsender : a.envelope.sender = b.envelope.sender := by
      have hslot' := Membership.slotOf_getElem? hdb.slot
      rw [← hs, hslot] at hslot'
      exact Option.some.inj hslot'
    rw [hs, hdb.seq] at hle
    refine h.ancestor_of_seq_lt ha hb hsender (lt_of_le_of_ne hle ?_)
    intro hseq
    exact hab (h.eq_of_key ha hb (Key.ext hsender hseq))
  · have hparent : (⟨a.envelope.sender, b.envelope.id.vectorClock.atSlot a.senderSlot⟩ : Key) ∈
        b.parents := by
      rw [hdb.parents, mem_requiredParents]
      refine ⟨a.senderSlot, hslot, ?_⟩
      rw [requiredSeq, if_neg hs, if_neg hne]
    obtain ⟨x, hx, hxk⟩ := has_iff.mp (h.closed hb hparent)
    have hxs : x.envelope.sender = a.envelope.sender := congrArg Key.sender hxk
    have hxq : x.senderSeq = b.envelope.id.vectorClock.atSlot a.senderSlot := congrArg Key.seq hxk
    have hxb : g.Parent x b := by
      refine ⟨hx, hb, ?_⟩
      rw [hxk]
      exact hparent
    rcases Nat.lt_or_ge a.senderSeq x.senderSeq with hlt | hge
    · exact (h.ancestor_of_seq_lt ha hx hxs.symm hlt).tail hxb
    · have hax : a = x := h.eq_of_key ha hx (Key.ext hxs.symm (by simp only [Node.key]; omega))
      rw [hax]
      exact .single hxb

end Graph

namespace Group
open Conversation

variable {G : Group} {net : Network} {p : ReplicaID} {a b : Node}

theorem OwnParentsBelow.happensBefore (hb : G.OwnParentsBelow net) (h : G.Invariant net)
    (hp : p ∈ G.members) (ha : (net p).graph.Ancestor a b) :
    VectorClock.happensBefore a.envelope.id.vectorClock b.envelope.id.vectorClock = true := by
  have hsound := (h.live p hp).sound
  have hbelow := hb.ancestor h hp ha
  refine happensBefore_iff.mpr ⟨hbelow, b.senderSlot, ?_⟩
  have hdb := hsound.derived b ha.mem.2
  rw [hdb.seq]
  by_contra hge
  have hab : b ≠ a := by
    rintro rfl
    exact hsound.not_ancestor_self ha
  have hba := hsound.ancestor_of_entry ha.mem.2 ha.mem.1 hab (Nat.le_of_not_lt hge)
  exact hsound.not_ancestor_self (ha.trans hba)

theorem clocks_characterise_ancestry
    (hr : Reach G.netStep (fun _ act => act.request.isStatic = true) G.start net)
    (hp : p ∈ G.members) (ha : a ∈ (net p).graph.nodes) (hb : b ∈ (net p).graph.nodes)
    (hab : a ≠ b) : List.TFAE [(net p).graph.Ancestor a b,
      a.senderSeq ≤ b.envelope.id.vectorClock.atSlot a.senderSlot,
      VectorClock.happensBefore a.envelope.id.vectorClock b.envelope.id.vectorClock = true] := by
  have hinv : G.Invariant net ∧ G.OwnParentsBelow net :=
    hr.invariant (P := fun net => G.Invariant net ∧ G.OwnParentsBelow net)
      ⟨invariant_start G, ownParentsBelow_start G⟩
      fun _ _ _ h hs hstep => ⟨h.1.step hs hstep, h.2.step h.1 hs hstep⟩
  have hsound := (hinv.1.live p hp).sound
  tfae_have 1 → 3 := hinv.2.happensBefore hinv.1 hp
  tfae_have 3 → 2 := by
    intro hbefore
    have hle := (happensBefore_iff.mp hbefore).1 a.senderSlot
    rwa [(hsound.derived a ha).seq] at hle
  tfae_have 2 → 1 := hsound.ancestor_of_entry ha hb hab
  tfae_finish

/-- The second of two replicas answers the first. -/
def answered : List NetAction :=
  [⟨[1], .send .standard [7]⟩,
    ⟨[2], .incoming .standard [1] (.envelope ⟨⟨some [0], some [1], [1, 0]⟩, [7]⟩)⟩,
    ⟨[2], .send .standard [8]⟩]

def question : Node := ⟨⟨⟨some [0], some [1], [1, 0]⟩, [7]⟩, 1, 0, 1, []⟩

def answer : Node := ⟨⟨⟨some [0], some [2], [1, 1]⟩, [8]⟩, 1, 1, 1, [⟨[1], 1⟩]⟩

theorem clocks_characterise_ancestry_answered : ∃ net,
    execute (netStep ⟨[0], [[1], [2]]⟩) (fun _ act => act.request.isStatic = true)
        (start ⟨[0], [[1], [2]]⟩) answered = some net ∧
      (net [2]).graph.nodes = [question, answer] ∧
      List.TFAE [(net [2]).graph.Ancestor question answer,
        question.senderSeq ≤ answer.envelope.id.vectorClock.atSlot question.senderSlot,
        VectorClock.happensBefore question.envelope.id.vectorClock
          answer.envelope.id.vectorClock = true] := by
  have hrun : (execute (netStep ⟨[0], [[1], [2]]⟩) (fun _ act => act.request.isStatic = true)
      (start ⟨[0], [[1], [2]]⟩) answered).map
      (fun net => decide ((net [2]).graph.nodes = [question, answer])) = some true := by
    decide +kernel
  obtain ⟨net, he, hr, hc⟩ := reach_of_execute hrun
  have hnodes := of_decide_eq_true hc
  refine ⟨net, he, hnodes, clocks_characterise_ancestry hr (by decide) ?_ ?_ (by decide)⟩
  · simp [hnodes]
  · simp [hnodes]

end Group
end Comlink
