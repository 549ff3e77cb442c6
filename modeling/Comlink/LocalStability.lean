import Comlink.SemReplica
import Comlink.StabilityQueries

/-!
# Wave completion in the semantic order layer

`waveCompleteLocal` answers what `WaveComplete` does from the layer's own table of newest
clocks and from the membership that it was built with. The table follows the graph as long
as every clock that is read is complete and covers the one before it of the same sender,
which is how senders stamp them. The membership follows as long as nobody is frozen once
the layer is built; after that the layer waits for a replica that the conversation has
given up.
-/
namespace Comlink.SemOrder

variable {D : List Envelope} {o o' : SemOrder} {env : Envelope}

/-- The clock has an entry for every slot and covers the newest one of its sender. -/
def Regular (o : SemOrder) (env : Envelope) : Prop :=
  env.id.vectorClock.length = o.membership.len ∧
    ∀ v ∈ o.latestVector.lookup env.sender, env.id.vectorClock.dominatesOrEqual v = true

instance (o : SemOrder) (env : Envelope) : Decidable (o.Regular env) :=
  inferInstanceAs (Decidable (_ ∧ ∀ v ∈ _, _))

theorem latestVector_observe {k : Key} (hk : o.membership.keyOf env = some k)
    (hnew : k ∉ (o.seenInWave.lookup env.wave).getD []) (h : o.Regular env) :
    (o.observe env).latestVector = o.latestVector.insert env.sender env.id.vectorClock := by
  obtain ⟨seq, hs, rfl⟩ := Option.map_eq_some_iff.mp hk
  have hdom := h.2
  rw [observe, hs]
  dsimp only
  rw [if_neg hnew]
  cases hl : o.latestVector.lookup env.sender with
  | none => rfl
  | some v => simp [hdom v hl]

theorem latestVector_moves (h : Moves o o') : o'.latestVector = o.latestVector := by
  induction h with
  | refl => rfl
  | tail _ hm ih =>
    cases hm with
    | apply hw =>
      unfold applyEnv
      split <;> exact ih
    | sort hp => exact ih
    | advance w => exact ih

end Comlink.SemOrder

namespace Comlink.Graph

variable {g : Graph} {m : Membership} {o : SemOrder}

/-- The table of the layer holds the newest clocks of the graph, which are complete. -/
structure TrackedBy (g : Graph) (m : Membership) (o : SemOrder) : Prop where
  latest : ∀ r, o.latestVector.lookup r =
    (g.latestNode r).map fun l => l.envelope.id.vectorClock
  length : ∀ n ∈ g.nodes, n.envelope.id.vectorClock.length = m.len

theorem TrackedBy.readable (h : g.TrackedBy m o) (hs : g.Sound m) : g.Readable m := by
  intro n hn s _ _ l hl
  rw [h.length l (latestNode_eq_some hl).1]
  exact (List.getElem?_eq_some_iff.mp (Membership.slotOf_getElem? (hs.derived n hn).slot)).1

theorem Sound.acknowledgedPadded_sender (hs : g.Sound m) {n : Node} (hn : n ∈ g.nodes) :
    g.acknowledgedPadded n n.envelope.sender = true := by
  have hpos := (hs.derived n hn).seq_pos
  have hle := le_latestSeq hn
  obtain ⟨l, hl⟩ := exists_latestNode (g := g) (r := n.envelope.sender) (by omega)
  obtain ⟨hmem, hsender, hmax⟩ := hs.latestNode_eq_some_iff.mp hl
  rw [acknowledgedPadded, hl]
  dsimp only
  rw [← hs.senderSlot_eq hmem hn hsender, (hs.derived l hmem).seq]
  exact decide_eq_true (hmax n hn rfl)

/-- The layer judges a message of the graph as the checker does. -/
theorem TrackedBy.isMessageStableLocal_eq (h : g.TrackedBy o.membership o)
    (hs : g.Sound o.membership) {n : Node} (hn : n ∈ g.nodes) :
    o.isMessageStableLocal n.envelope = g.stablePadded o.membership n := by
  have hd := hs.derived n hn
  rw [SemOrder.isMessageStableLocal, hd.slot, hd.senderSeq, stablePadded]
  refine congrArg (List.all _) (funext fun p => ?_)
  rw [SemOrder.acknowledges, h.latest]
  by_cases hsender : p.1.replica = n.envelope.sender
  · rw [hsender, hs.acknowledgedPadded_sender hn]
    simp
  · rw [acknowledgedPadded]
    cases g.latestNode p.1.replica <;> simp [hsender]

/-- So does it judge a wave, if it has stored the messages of the graph. -/
theorem TrackedBy.waveComplete_eq (h : g.TrackedBy o.membership o) (hs : g.Sound o.membership)
    (hsees : SemOrder.Sees (g.nodes.map Node.envelope) o) (w : ℕ) :
    g.waveComplete o.membership w = some (o.waveCompleteLocal w) := by
  have hin : ∀ n ∈ g.messagesInWave w, n ∈ g.nodes := fun n hn => (mem_messagesInWave.mp hn).1
  rw [waveComplete, (h.readable hs).anyStable_eq hin, SemOrder.waveCompleteLocal]
  refine congrArg some (Bool.eq_iff_iff.mpr ?_)
  rw [List.any_eq_true, List.any_eq_true]
  constructor
  · rintro ⟨n, hn, hstable⟩
    have hmem := hin n hn
    refine ⟨n.envelope, (hsees.stored w _).mpr ⟨List.mem_map_of_mem hmem, ?_⟩, ?_⟩
    · rw [← (hs.derived n hmem).wave]
      exact (mem_messagesInWave.mp hn).2
    · rw [h.isMessageStableLocal_eq hs hmem]
      exact hstable
  · rintro ⟨e, he, hstable⟩
    obtain ⟨hmem, hw⟩ := (hsees.stored w e).mp he
    obtain ⟨n, hn, rfl⟩ := List.mem_map.mp hmem
    refine ⟨n, mem_messagesInWave.mpr ⟨hn, (hs.derived n hn).wave.trans hw⟩, ?_⟩
    rw [← h.isMessageStableLocal_eq hs hn]
    exact hstable

theorem TrackedBy.continuationProperty_iff (h : g.TrackedBy o.membership o)
    (hs : g.Sound o.membership) : o.continuationProperty = true ↔
      ∀ r ∈ o.membership.replicas, ∃ l, g.latestNode r = some l ∧ o.currentWave < l.wave := by
  rw [SemOrder.continuationProperty, List.all_eq_true]
  refine forall₂_congr fun r _ => ?_
  rw [h.latest]
  cases hl : g.latestNode r with
  | none => simp
  | some l =>
    have hwave : l.wave = VectorClock.waveOf l.envelope.id.vectorClock :=
      (hs.derived l (latestNode_eq_some hl).1).wave
    simp [hwave]

end Comlink.Graph

namespace Comlink.Conversation

variable {c : Conversation}

/-- A request that, with these slots, neither adds nor freezes one. -/
def keepsSlots (m : Membership) : Request → Bool
  | .freezeMember r => (m.freeze r).isNone
  | .addMember r => (m.add r).isNone
  | _ => true

theorem membership_handle_of_keepsSlots {req : Request}
    (h : keepsSlots c.membership req = true) : (c.handle req).membership = c.membership := by
  cases req with
  | freezeMember r =>
    rw [handle, freezeMember, Option.isNone_iff_eq_none.mp h]
    rfl
  | addMember r =>
    rw [handle, addMember, Option.isNone_iff_eq_none.mp h]
    rfl
  | _ => exact membership_handle rfl

/-- Also a replayed log is delivered. -/
theorem Delivering.request (h : Delivering c) (req : Request) : Delivering (c.handle req) := by
  by_cases hr : req = .replayLog
  · subst hr
    obtain ⟨ns, heq, hs, -⟩ := replayLog_eq h.sound
    rw [Conversation.handle, heq]
    exact ⟨⟨rfl, h.slot, hs⟩, by simp [h.delivered]⟩
  · exact h.handle hr

end Comlink.Conversation

namespace Comlink.SemReplica
open GuardedRuns Conversation SemOrder
open SemGroup (byPayload message)

variable {s t : SemReplica} {env : Envelope}

/-- The slots and their flags stay as they are, nothing is inserted that is not delivered,
and what the pump reads next has a regular clock. -/
def Steady (s : SemReplica) : SemReplicaAction → Prop
  | .serve (.request req) => keepsSlots s.conv.membership req = true
  | .serve .restart => False
  | .pump _ => ∀ env ∈ s.next, s.order.Regular env

instance (s : SemReplica) (a : SemReplicaAction) : Decidable (Steady s a) :=
  match a with
  | .serve (.request _) => inferInstanceAs (Decidable (_ = true))
  | .serve .restart => isFalse id
  | .pump _ => inferInstanceAs (Decidable (∀ env ∈ _, _))

structure Mirrored (s : SemReplica) : Prop extends Layered s where
  delivered : s.conv.delivered = s.conv.graph.nodes.map Node.envelope
  membership_eq : s.order.membership = s.conv.membership
  tracked : Graph.TrackedBy ⟨s.conv.graph.nodes.take s.order.received⟩ s.order.membership s.order

theorem Mirrored.serve (h : Mirrored s) {req : Request}
    (hok : keepsSlots s.conv.membership req = true) :
    Mirrored { s with conv := s.conv.handle req } := by
  have hs : s.conv.serve (.request req) = some (s.conv.handle req) := rfl
  obtain ⟨rest, hrest⟩ := (h.channel.serve h.seated hs).2.nodes
  have hlen : s.order.received ≤ s.conv.graph.nodes.length := by
    have hle := h.received_le
    rwa [h.delivered, List.length_map] at hle
  refine ⟨h.toLayered.serve hs, (Delivering.request ⟨h.seated, h.delivered⟩ req).delivered,
    h.membership_eq.trans (membership_handle_of_keepsSlots hok).symm, ?_⟩
  dsimp only
  rw [← hrest, List.take_append_of_le_length hlen]
  exact h.tracked

theorem Mirrored.pump (h : Mirrored s) {ch : SemChoices} {o : SemOrder}
    (hread : Steady s (.pump ch)) (ho : s.order.pump s.conv ch = some o) :
    Mirrored { s with order := o } := by
  obtain ⟨env, henv, hmoves⟩ := pump_moves ho
  obtain ⟨-, hm, hr⟩ := pump_kept ho
  have hn : s.next = some env := henv
  refine ⟨h.toLayered.pump ho, h.delivered, hm.trans h.membership_eq, ?_⟩
  have hnode := henv
  rw [h.delivered, List.getElem?_map, Option.map_eq_some_iff] at hnode
  obtain ⟨n, hnode, rfl⟩ := hnode
  have hmem := List.mem_of_getElem? hnode
  have htake : s.conv.graph.nodes.take o.received =
      s.conv.graph.nodes.take s.order.received ++ [n] := by
    rw [hr, List.take_add_one, hnode, Option.toList_some]
  have hsound : Graph.Sound s.order.membership
      ⟨s.conv.graph.nodes.take s.order.received ++ [n]⟩ := by
    rw [← htake, h.membership_eq]
    exact h.seated.sound.take _
  have hkey : s.order.membership.keyOf n.envelope = some n.key := by
    rw [h.membership_eq]
    exact (h.seated.sound.derived n hmem).keyOf
  have hregular := hread n.envelope hn
  have hlatest : o.latestVector =
      s.order.latestVector.insert n.envelope.sender n.envelope.id.vectorClock :=
    (latestVector_moves hmoves).trans
      (latestVector_observe hkey (h.sees.unseen (h.key_ne hn hkey) _) hregular)
  dsimp only
  rw [htake, hm]
  refine ⟨fun r => ?_, ?_⟩
  · rw [hlatest, hsound.latestNode_concat]
    by_cases hsender : r = n.envelope.sender
    · rw [if_pos hsender, hsender, AList.lookup_insert]
      rfl
    · rw [if_neg hsender, AList.lookup_insert_ne hsender]
      exact h.tracked.latest r
  · refine List.forall_mem_append.mpr ⟨h.tracked.length, ?_⟩
    rintro a ha
    rw [List.mem_singleton.mp ha]
    exact hregular.1

theorem Mirrored.step (h : Mirrored s) {a : SemReplicaAction} (hok : Steady s a)
    (hs : step s a = some t) : Mirrored t := by
  cases a with
  | serve a =>
    obtain ⟨c, hc, rfl⟩ := Option.map_eq_some_iff.mp hs
    cases a with
    | request req =>
      obtain rfl := Option.some.inj hc
      exact h.serve hok
    | restart => exact hok.elim
  | pump ch =>
    obtain ⟨o, ho, rfl⟩ := Option.map_eq_some_iff.mp hs
    exact h.pump hok ho

theorem Mirrored.noted_eq (h : Mirrored s) (hall : s.order.received = s.conv.delivered.length) :
    s.noted = s.conv.graph.nodes.map Node.envelope := by
  rw [noted, hall, List.take_length, h.delivered, h.membership_eq]
  refine List.filter_eq_self.mpr fun e he => ?_
  obtain ⟨n, hn, rfl⟩ := List.mem_map.mp he
  rw [(h.seated.sound.derived n hn).keyOf]
  rfl

/-- In a steady run, once the layer has read all deliveries, it answers for every wave what
the checker answers for the graph, and its gate asks the active replicas. -/
theorem local_wave_completion {convID : ConversationID} {self : ReplicaID}
    {members mask : List ReplicaID} {log : MessageLog} {c₀ c : Conversation}
    (hnew : Conversation.new convID self members mask log = some c₀)
    (hc : Reach Conversation.step (fun _ _ => True) c₀ c) (classifier : List UInt8 → ℤ)
    (hr : Reach step Steady (build classifier c) s)
    (hall : s.order.received = s.conv.delivered.length) :
    (∀ w, s.conv.graph.waveComplete s.conv.membership w = some (s.order.waveCompleteLocal w)) ∧
      (s.order.continuationProperty = true ↔ ∀ r ∈ s.conv.membership.replicas,
        ∃ l, s.conv.graph.latestNode r = some l ∧ s.order.currentWave < l.wave) := by
  have h : Mirrored s := by
    refine hr.invariant (P := Mirrored) ?_ fun _ _ _ hs hok hstep => hs.step hok hstep
    have hd : Delivering c := hc.invariant (P := Delivering) (delivering_new hnew)
      fun c req c' hd _ hstep => Option.some.inj hstep ▸ hd.request req
    have hchannel : Channel c := ⟨c.graph.nodes, List.Sublist.refl _, hd.delivered⟩
    refine ⟨layered_build hd.toSeated hchannel classifier, hd.delivered, rfl, ?_, ?_⟩
    · intro r
      rfl
    · exact nofun
  have htracked := h.tracked
  have hlen : s.conv.graph.nodes.length = s.order.received := by
    rw [hall, h.delivered, List.length_map]
  rw [← hlen, List.take_length] at htracked
  have hsound : s.conv.graph.Sound s.order.membership := by
    rw [h.membership_eq]
    exact h.seated.sound
  have hsees := h.sees
  rw [h.noted_eq hall] at hsees
  rw [← h.membership_eq]
  exact ⟨htracked.waveComplete_eq hsound hsees, htracked.continuationProperty_iff hsound⟩

def threeMembers : Conversation := init [0] [1] 0 [[1], [2], [3]] [] .empty

/-- `[1]` and `[2]` exchange messages, which the layer reads. -/
def exchange : List SemReplicaAction :=
  [.serve (.request (.send .standard [])), arrives (message [2] [1, 1, 0] []),
    .serve (.request (.send .standard [])), arrives (message [2] [2, 2, 0] [])] ++ reads 4

/-- The third member is frozen before the layer is built. -/
theorem local_wave_completion_frozen : ∃ s,
    Reach step Steady (build byPayload (threeMembers.handle (.freezeMember [3]))) s ∧
      s.conv.membership.replicas = [[1], [2]] ∧ s.order.received = s.conv.delivered.length ∧
      s.order.waveCompleteLocal 1 = true ∧
      (∀ w, s.conv.graph.waveComplete s.conv.membership w = some (s.order.waveCompleteLocal w)) ∧
      (s.order.continuationProperty = true ↔ ∀ r ∈ s.conv.membership.replicas,
        ∃ l, s.conv.graph.latestNode r = some l ∧ s.order.currentWave < l.wave) := by
  have hrun : (execute step Steady (build byPayload (threeMembers.handle (.freezeMember [3])))
      exchange).map (fun s => decide (s.conv.membership.replicas = [[1], [2]] ∧
        s.order.received = s.conv.delivered.length ∧ s.order.waveCompleteLocal 1 = true)) =
          some true := by decide +kernel
  obtain ⟨s, -, hs, hc⟩ := reach_of_execute hrun
  obtain ⟨hactive, hall, hwave⟩ := of_decide_eq_true hc
  have hfreeze : Reach Conversation.step (fun _ _ => True) threeMembers
      (threeMembers.handle (.freezeMember [3])) := .single ⟨.freezeMember [3], trivial, rfl⟩
  have hnew : Conversation.new [0] [1] [[1], [2], [3]] [] .empty = some threeMembers := rfl
  exact ⟨s, hs, hactive, hall, hwave, local_wave_completion hnew hfreeze byPayload hs hall⟩

/-- The third member is frozen once the layer is built: wave 1 is complete, and both active
members have gone on to wave 2, but the layer neither sees the one nor passes its gate. -/
theorem local_wave_completion_diverges : ∃ s,
    Reach step (fun _ _ => True) (build byPayload threeMembers) s ∧
      s.conv.membership.replicas = [[1], [2]] ∧ s.order.received = s.conv.delivered.length ∧
      s.conv.graph.waveComplete s.conv.membership 1 = some true ∧
      s.order.waveCompleteLocal 1 = false ∧ s.order.continuationProperty = false ∧
      ∀ r ∈ s.conv.membership.replicas,
        ∃ l, s.conv.graph.latestNode r = some l ∧ s.order.currentWave < l.wave := by
  have hrun : (execute step (fun _ _ => True) (build byPayload threeMembers)
      (.serve (.request (.freezeMember [3])) :: exchange)).map (fun s => decide
        (s.conv.membership.replicas = [[1], [2]] ∧ s.order.received = s.conv.delivered.length ∧
          s.conv.graph.waveComplete s.conv.membership 1 = some true ∧
          s.order.waveCompleteLocal 1 = false ∧ s.order.continuationProperty = false ∧
          ∀ r ∈ s.conv.membership.replicas,
            ((s.conv.graph.latestNode r).any fun l => s.order.currentWave < l.wave) = true)) =
          some true := by decide +kernel
  obtain ⟨s, -, hs, hc⟩ := reach_of_execute hrun
  obtain ⟨hactive, hall, hwave, hlocal, hgate, hnewest⟩ := of_decide_eq_true hc
  refine ⟨s, hs, hactive, hall, hwave, hlocal, hgate, fun r hr => ?_⟩
  obtain ⟨l, hl, hlt⟩ := (Option.any_eq_true _ _).mp (hnewest r hr)
  exact ⟨l, hl, of_decide_eq_true hlt⟩

end Comlink.SemReplica
