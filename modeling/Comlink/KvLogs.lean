import Comlink.KvOverwrites
import Comlink.KvSnapshots
import Comlink.SnapshotRestart
import Comlink.WaveStructure

/-!
# The log under a key-value store

What a store is rebuilt from is the log of its conversation, and what the substrate hands over
for an entry is the message of that entry at its own offset. While the member list is fixed and
no append fails, the log holds the graph in its order. So waves never fall along the messages of
one sender, and the entry at offset zero, which has no parents, is alone of its sender in wave
one.
-/
namespace Comlink
open GuardedRuns Conversation

variable {K : FrameCodec} {G : Group} {net : Network} {p : ReplicaID}

/-- The application messages that can be read from a log, each at its offset. -/
def MessageLog.messages (K : FrameCodec) (l : MessageLog) : List Message :=
  (l.indexed.drop l.firstOffset).filterMap fun x => appMessage K x.2 x.1.envelope

theorem of_appMessage {offset : ℕ} {env : Envelope} {m : Message}
    (h : appMessage K offset env = some m) :
    m.offset = offset ∧ m.sender = env.sender ∧ m.wave = env.wave := by
  unfold appMessage at h
  split at h
  · cases h
    exact ⟨rfl, rfl, rfl⟩
  · cases h

/-! ### What the substrate hands over -/

section Handed

variable {members : List ReplicaID} {c : Conversation} {s : Substrate} {n : Node}

/-- The key that the substrate looks up is the one under which the message was appended. -/
theorem Conversation.Live.keyOf_frame (h : Live members c) (hnodup : members.Nodup)
    (hm : s.members = members) (hn : n ∈ c.graph.nodes) :
    s.keyOf n.envelope = some n.frame.key := by
  have hd := h.sound.derived n hn
  have hslot := Membership.slotOf_getElem? hd.slot
  rw [h.members_eq, ← hm] at hslot
  obtain ⟨i, -, hi, hkey⟩ := Substrate.keyOf_eq_some hslot hd.slot_lt
  have hsame : i = n.senderSlot := by
    rw [hm] at hi hslot
    have hlt := (List.getElem?_eq_some_iff.mp hi).1
    exact (List.getElem?_inj hlt hnodup).mp (hi.trans hslot.symm)
  rw [hkey, hsame, hd.seq]
  rfl

/-- Without an initial snapshot the substrate hands over just the message of the entry. -/
theorem Conversation.Live.applied_of_frame (h : Live members c) (hnodup : members.Nodup)
    (hm : s.members = members) (hs : s.snapshotThrough = 0) {i : ℕ}
    (hf : c.log.frames[i]? = some n.frame) (hn : n ∈ c.graph.nodes)
    (hi : c.log.firstOffset ≤ i) :
    (s.handleApplied K c.log n.envelope).1.applied =
      s.applied ++ (appMessage K i n.envelope).toList := by
  rw [Substrate.applied_handleApplied hs (h.keyOf_frame hnodup hm hn), Substrate.localOffset,
    MessageLog.lookupBySender_of_nodup h.nodup_frameKeys hf hi]
  rfl

end Handed

/-! ### Logs of a running group -/

/-- The member list is fixed and no append fails. -/
def Appends (_ : Network) (a : NetAction) : Prop :=
  a.request.isStatic = true ∧ a.request.AppendsSucceed

theorem full_of_reach (hr : Reach G.netStep Appends G.start net) :
    G.Invariant net ∧ ∀ p ∈ G.members, Full (net p) := by
  refine hr.invariant (P := fun net => G.Invariant net ∧ ∀ p ∈ G.members, Full (net p))
    ⟨Group.invariant_start G, fun _ _ => rfl⟩ ?_
  intro net a net' ⟨hinv, hfull⟩ ⟨hstatic, hok⟩ hstep
  refine ⟨hinv.step hstatic hstep, ?_⟩
  obtain ⟨-, -, rfl⟩ := Group.netStep_eq_some hstep
  intro p hp
  by_cases hpa : p = a.replica
  · subst hpa
    rw [Function.update_self]
    exact (hfull _ hp).handle (hinv.live _ hp) hstatic hok
  · rw [Function.update_of_ne hpa]
    exact hfull p hp

/-- The first node of a graph has no parents, so that its wave is one. -/
theorem Graph.Sound.wave_first {m : Membership} {g : Graph} (h : g.Sound m) {n : Node}
    (hn : g.nodes[0]? = some n) : n.wave = 1 := by
  obtain ⟨rest, hrest⟩ : ∃ rest, g.nodes = [] ++ n :: rest := by
    cases hg : g.nodes with
    | nil => simp [hg] at hn
    | cons a rest =>
      rw [hg] at hn
      cases hn
      exact ⟨rest, rfl⟩
  have hmem : n ∈ g.nodes := List.mem_of_getElem? hn
  have hd := h.derived n hmem
  have hpos := hd.seq_pos.trans_le hd.senderSeq_le_wave
  refine h.wave_eq_of_opens hmem Nat.one_pos hpos fun a ha => ?_
  have hhas := h.parentsFirst [] n rest hrest a.key ha.2.2
  obtain ⟨b, hb, -⟩ := Graph.has_iff.mp hhas
  cases hb

/-- An entry of the log is a node at the same position of the graph. -/
theorem node_of_message {c : Conversation} (hf : Full c) {m : Message}
    (hm : m ∈ c.log.messages K) : ∃ n, c.graph.nodes[m.offset]? = some n ∧
      appMessage K m.offset n.envelope = some m := by
  obtain ⟨⟨f, i⟩, hx, hmsg⟩ := List.mem_filterMap.mp hm
  obtain ⟨j, hj⟩ := List.mem_iff_getElem?.mp (List.mem_of_mem_drop hx)
  rw [getElem?_indexed] at hj
  obtain ⟨f', hf', heq⟩ := Option.map_eq_some_iff.mp hj
  cases heq
  rw [hf, List.getElem?_map] at hf'
  obtain ⟨n, hn, rfl⟩ := Option.map_eq_some_iff.mp hf'
  obtain ⟨rfl, -⟩ := of_appMessage hmsg
  exact ⟨n, hn, hmsg⟩

theorem pairwise_offsets (l : MessageLog) :
    (l.messages K).Pairwise fun a b => a.offset < b.offset := by
  rw [MessageLog.messages, List.pairwise_filterMap]
  refine (l.pairwise_indexed.sublist (List.drop_sublist ..)).imp ?_
  intro x y hlt a ha b hb
  rw [(of_appMessage ha).1, (of_appMessage hb).1]
  exact hlt

/-- Of two nodes of one sender the later one has the greater number. -/
theorem Graph.Sound.seq_lt {m : Membership} {g : Graph} (h : g.Sound m) {i j : ℕ} {a b : Node}
    (ha : g.nodes[i]? = some a) (hb : g.nodes[j]? = some b) (hij : i < j)
    (hs : a.envelope.sender = b.envelope.sender) : a.senderSeq < b.senderSeq := by
  obtain ⟨hi, rfl⟩ := List.getElem?_eq_some_iff.mp ha
  obtain ⟨hj, rfl⟩ := List.getElem?_eq_some_iff.mp hb
  exact List.pairwise_iff_getElem.mp h.fifo i j hi hj hij hs

/-- Two messages of one sender in a log, with the nodes that they were logged for. -/
theorem nodes_of_messages (h : G.Invariant net) (hp : p ∈ G.members) (hf : Full (net p))
    {a b : Message} (ha : a ∈ (net p).log.messages K) (hb : b ∈ (net p).log.messages K)
    (hlt : a.offset < b.offset) (hs : a.sender = b.sender) :
    ∃ x y, (net p).graph.nodes[a.offset]? = some x ∧ y ∈ (net p).graph.nodes ∧
      x.envelope.sender = y.envelope.sender ∧ x.senderSeq < y.senderSeq ∧
      a.wave = x.wave ∧ b.wave = y.wave := by
  obtain ⟨x, hx, hxa⟩ := node_of_message hf ha
  obtain ⟨y, hy, hyb⟩ := node_of_message hf hb
  obtain ⟨-, hxs, hxw⟩ := of_appMessage hxa
  obtain ⟨-, hys, hyw⟩ := of_appMessage hyb
  have hsender : x.envelope.sender = y.envelope.sender := by rw [← hxs, ← hys, hs]
  have hym := List.mem_of_getElem? hy
  refine ⟨x, y, hx, hym, hsender, (h.live p hp).sound.seq_lt hx hy hlt hsender, ?_, ?_⟩
  · rw [hxw, h.wave_eq hp (List.mem_of_getElem? hx)]
  · rw [hyw, h.wave_eq hp hym]

/-- In a group with identifiers of the fixed length, the log of a member is one that a store
can be rebuilt from as long as the member list is fixed and no append fails. -/
theorem logged_of_reach (hlen : ∀ q ∈ G.members, q.length = Cluster.idLen)
    (hr : Reach G.netStep Appends G.start net) (hp : p ∈ G.members) :
    KvRun.Logged ((net p).log.messages K) := by
  obtain ⟨hinv, hfull⟩ := full_of_reach hr
  have hf := hfull p hp
  have hsound := (hinv.live p hp).sound
  refine ⟨pairwise_offsets _, ?_, ?_, ?_⟩
  · refine (pairwise_offsets _).imp_of_mem fun {a b} ha hb hlt hs => ?_
    obtain ⟨x, y, hx, hy, hsender, hseq, hxw, hyw⟩ := nodes_of_messages hinv hp hf ha hb hlt hs
    rw [hxw, hyw]
    exact hinv.wave_le_of_seq_le hp hp (List.mem_of_getElem? hx) hy hsender hseq.le
  · intro a ha hzero b hb hs
    rcases Nat.eq_zero_or_pos b.offset with hb0 | hpos
    · left
      obtain ⟨x, hx, hxa⟩ := node_of_message hf ha
      obtain ⟨y, hy, hyb⟩ := node_of_message hf hb
      rw [hzero] at hx hxa
      rw [hb0] at hy hyb
      obtain rfl := Option.some.inj (hx.symm.trans hy)
      exact Option.some.inj (hyb.symm.trans hxa)
    · -- the entry at offset zero is in wave one, and its sender has numbered on since
      right
      obtain ⟨x, y, hx, hy, -, hseq, hxw, hyw⟩ :=
        nodes_of_messages hinv hp hf ha hb (hzero ▸ hpos) hs.symm
      have hfirst := (hsound.derived x (List.mem_of_getElem? hx)).seq_pos
      have hle := (hsound.derived y hy).senderSeq_le_wave
      rw [hzero] at hx
      rw [hxw, hyw, hsound.wave_first hx]
      omega
  · intro m hm
    obtain ⟨x, hx, hxm⟩ := node_of_message hf hm
    rw [(of_appMessage hxm).2.1]
    exact hlen _ (hinv.own_node hp (List.mem_of_getElem? hx) rfl).1

end Comlink
