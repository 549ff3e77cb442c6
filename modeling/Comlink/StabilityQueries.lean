import Comlink.PersistentStability

/-!
# Stability queries over clocks of different lengths

A clock that was stamped before a member joined has no entry for its slot. Everywhere else
such an entry reads as zero, but the checker indexes the newest clock of a slot at the slot
of the node's sender. The first message of a member that has joined makes the queries panic
as soon as they meet a newest clock of the era before. Where every newest clock has the
entries that it is asked for, the queries agree with the padded reading.
-/
namespace Comlink
open GuardedRuns VectorClock

namespace Graph

variable {g : Graph} {m : Membership} {n : Node}

/-- The newest clock of the replica, padded with zeros, has reached the node's number. -/
def acknowledgedPadded (g : Graph) (n : Node) (r : ReplicaID) : Bool :=
  match g.latestNode r with
  | none => false
  | some latest => decide (n.senderSeq ≤ latest.envelope.id.vectorClock.atSlot n.senderSlot)

/-- Stability with missing clock entries read as zero. -/
def stablePadded (g : Graph) (m : Membership) (n : Node) : Bool :=
  m.slots.zipIdx.all fun p =>
    decide (p.2 = n.senderSlot) || p.1.frozen || g.acknowledgedPadded n p.1.replica

/-- The newest clock of every active slot has an entry for the sender of every node. -/
def Readable (g : Graph) (m : Membership) : Prop :=
  ∀ n ∈ g.nodes, ∀ s ∈ m.slots, s.frozen = false → ∀ l ∈ g.latestNode s.replica,
    n.senderSlot < l.envelope.id.vectorClock.length

theorem isStableAt_eq_padded {slots : List (Slot × ℕ)}
    (h : ∀ p ∈ slots, p.1.frozen = false → ∀ l ∈ g.latestNode p.1.replica,
      n.senderSlot < l.envelope.id.vectorClock.length) :
    g.isStableAt n slots = some (slots.all fun p =>
      decide (p.2 = n.senderSlot) || p.1.frozen || g.acknowledgedPadded n p.1.replica) := by
  induction slots with
  | nil => rfl
  | cons p rest ih =>
    obtain ⟨s, i⟩ := p
    obtain ⟨hs, hrest⟩ := List.forall_mem_cons.mp h
    rw [isStableAt, List.all_cons]
    by_cases hskip : i = n.senderSlot ∨ s.frozen = true
    · have hhead : (decide (i = n.senderSlot) || s.frozen ||
          g.acknowledgedPadded n s.replica) = true := by
        rcases hskip with rfl | hf
        · simp
        · simp [hf]
      rw [if_pos hskip, ih hrest]
      dsimp only
      rw [hhead, Bool.true_and]
    · rw [if_neg hskip]
      obtain ⟨hi, hf⟩ := not_or.mp hskip
      cases hl : g.latestNode s.replica with
      | none =>
        have hpadded : g.acknowledgedPadded n s.replica = false := by rw [acknowledgedPadded, hl]
        simp [hi, hf, hpadded]
      | some l =>
        have hlt := hs (by simpa using hf) l hl
        have hpadded : g.acknowledgedPadded n s.replica =
            decide (n.senderSeq ≤ l.envelope.id.vectorClock[n.senderSlot]) := by
          rw [acknowledgedPadded, hl, ← atSlot_eq_getElem hlt]
        dsimp only
        rw [List.getElem?_eq_getElem hlt]
        dsimp only
        by_cases hack : l.envelope.id.vectorClock[n.senderSlot] < n.senderSeq
        · simp [hi, hf, hpadded, hack]
        · simp [hi, hf, hpadded, hack, Nat.le_of_not_lt hack, ih hrest]

theorem Readable.isStable_eq (h : g.Readable m) (hn : n ∈ g.nodes) :
    g.isStable m n = some (g.stablePadded m n) := by
  refine isStableAt_eq_padded fun p hp hf => h n hn p.1 ?_ hf
  exact List.mem_of_getElem? (List.mem_zipIdx_iff_getElem?.mp hp)

theorem Readable.anyStable_eq (h : g.Readable m) {ns : List Node} (hns : ∀ n ∈ ns, n ∈ g.nodes) :
    g.anyStable m ns = some (ns.any (g.stablePadded m)) := by
  induction ns with
  | nil => rfl
  | cons n rest ih =>
    obtain ⟨hn, hrest⟩ := List.forall_mem_cons.mp hns
    rw [anyStable, h.isStable_eq hn, List.any_cons]
    cases g.stablePadded m n with
    | true => rfl
    | false => exact ih hrest

theorem Readable.collectStable_eq (h : g.Readable m) {ns : List Node}
    (hns : ∀ n ∈ ns, n ∈ g.nodes) :
    g.collectStable m ns = some (ns.filter (g.stablePadded m)) := by
  induction ns with
  | nil => rfl
  | cons n rest ih =>
    obtain ⟨hn, hrest⟩ := List.forall_mem_cons.mp hns
    rw [collectStable, h.isStable_eq hn, ih hrest]
    dsimp only [Option.map_some]
    rw [List.filter_cons]

/-- The newest message of a replica that is no member is none. -/
theorem Sound.latestNode_eq_none (h : Sound m g) {r : ReplicaID} (hr : r ∉ m.allReplicas) :
    g.latestNode r = none := by
  cases hl : g.latestNode r with
  | none => rfl
  | some l =>
    obtain ⟨hmem, rfl, -⟩ := latestNode_eq_some hl
    exact absurd (Membership.slotOf_isSome_iff.mp ⟨_, (h.derived l hmem).slot⟩) hr

end Graph

namespace GraphView
open Conversation Comlink.Graph

variable {v v' : GraphView}

/-- An insertion leaves no clock to be compared too short: neither that of the new message,
if its sender is active, nor the newest ones of the other active members. -/
def Fits (v : GraphView) : ViewAction → Prop
  | .insert env => ∀ s ∈ v.membership.slots, s.frozen = false →
      if s.replica = env.sender then
        ∀ n ∈ v.graph.nodes, n.envelope.sender ≠ env.sender →
          n.senderSlot < env.id.vectorClock.length
      else ∀ l ∈ v.graph.latestNode s.replica, ∀ i ∈ v.membership.slotOf env.sender,
        i < l.envelope.id.vectorClock.length
  | _ => True

instance (v : GraphView) (a : ViewAction) : Decidable (Fits v a) :=
  match a with
  | .insert env => inferInstanceAs (Decidable (∀ s ∈ v.membership.slots, s.frozen = false →
      if s.replica = env.sender then
        ∀ n ∈ v.graph.nodes, n.envelope.sender ≠ env.sender →
          n.senderSlot < env.id.vectorClock.length
      else ∀ l ∈ v.graph.latestNode s.replica, ∀ i ∈ v.membership.slotOf env.sender,
        i < l.envelope.id.vectorClock.length))
  | .freeze _ => isTrue trivial
  | .add _ => isTrue trivial

theorem readable_insert (hsound : v.graph.Sound v.membership) (h : v.graph.Readable v.membership)
    {env : Envelope} {g : Graph} {n : Node}
    (hi : v.graph.insert v.membership env = .ok (g, n)) (hok : Fits v (.insert env)) :
    g.Readable v.membership := by
  have hsound' := hsound.insert hi
  obtain ⟨rfl, rfl, hd, -, -⟩ := insert_ok hi
  have hnew : n ∈ v.graph.nodes ++ [n] := by simp
  intro a ha s hs hf l hl
  have hmem := (latestNode_eq_some hl).1
  have hslots := hsound'.senderSlot_eq ha hmem
  rcases latestNode_concat hsound' hl with rfl | hold
  · have hrep := (latestNode_eq_some hl).2.1
    have hentries := hok s hs hf
    rw [if_pos hrep.symm] at hentries
    by_cases hsender : a.envelope.sender = l.envelope.sender
    · rw [hslots hsender]
      exact hd.slot_lt
    · refine hentries a ((List.mem_append.mp ha).resolve_right ?_) hsender
      rintro hal
      rw [List.mem_singleton.mp hal] at hsender
      exact hsender rfl
  · rcases List.mem_append.mp ha with ha | ha
    · exact h a ha s hs hf l hold
    · rw [List.mem_singleton.mp ha] at hslots ⊢
      have hrep := (latestNode_eq_some hold).2.1
      have hentries := hok s hs hf
      by_cases hsender : s.replica = n.envelope.sender
      · rw [hslots (hsender.symm.trans hrep.symm)]
        exact (hsound'.derived l hmem).slot_lt
      · rw [if_neg hsender] at hentries
        exact hentries l hold n.senderSlot hd.slot

theorem readable_step (h : v.graph.Sound v.membership ∧ v.graph.Readable v.membership)
    {a : ViewAction} (hok : Fits v a) (hs : step v a = some v') :
    v'.graph.Sound v'.membership ∧ v'.graph.Readable v'.membership := by
  obtain ⟨hsound, hread⟩ := h
  cases a with
  | insert env =>
    unfold step at hs
    dsimp only at hs
    split at hs
    · cases hs
    · rename_i g n hi
      cases hs
      exact ⟨hsound.insert hi, readable_insert hsound hread hi hok⟩
  | freeze r =>
    obtain ⟨m, hm, rfl⟩ := Option.map_eq_some_iff.mp hs
    refine ⟨hsound.congr (Membership.allReplicas_freeze hm), ?_⟩
    exact fun n hn s hs hf => hread n hn s (Membership.freeze_frozen_mono hm hs hf) hf
  | add r =>
    obtain ⟨m, hm, rfl⟩ := Option.map_eq_some_iff.mp hs
    refine ⟨hsound.add hm, ?_⟩
    intro n hn s hs hf l hl
    rw [(Membership.add_eq_some hm).2] at hs
    rcases List.mem_append.mp hs with hs | hs
    · exact hread n hn s hs hf l hl
    · rw [List.mem_singleton.mp hs,
        hsound.latestNode_eq_none (Membership.not_mem_of_add hm)] at hl
      cases hl

theorem stability_queries_padded {members : List ReplicaID}
    (hr : Reach step Fits ⟨.empty, .ofReplicas members⟩ v) :
    (∀ n ∈ v.graph.nodes,
        v.graph.isStable v.membership n = some (v.graph.stablePadded v.membership n)) ∧
      v.graph.stableNodes v.membership = some ((v.graph.waves.flatMap v.graph.messagesInWave).filter
        (v.graph.stablePadded v.membership)) ∧
      ∀ w, v.graph.waveComplete v.membership w =
        some ((v.graph.messagesInWave w).any (v.graph.stablePadded v.membership)) := by
  have hread : v.graph.Readable v.membership := by
    refine (hr.invariant (P := fun v : GraphView =>
      v.graph.Sound v.membership ∧ v.graph.Readable v.membership) ⟨sound_empty _, ?_⟩
      fun _ _ _ h hok hs => readable_step h hok hs).2
    exact fun n hn => absurd hn List.not_mem_nil
  refine ⟨fun n hn => hread.isStable_eq hn, hread.collectStable_eq ?_, fun w =>
    hread.anyStable_eq fun n hn => (mem_messagesInWave.mp hn).1⟩
  intro n hn
  obtain ⟨w, -, hw⟩ := List.mem_flatMap.mp hn
  exact (mem_messagesInWave.mp hw).1

/-- The old member answers the message of the new one before the queries are asked. -/
theorem stability_queries_padded_joined : ∃ v n,
    Reach step Fits ⟨.empty, .ofReplicas [[1]]⟩ v ∧ v.membership.len = 2 ∧ n ∈ v.graph.nodes ∧
      n.envelope = message [1] [1] ∧ v.graph.isStable v.membership n = some true ∧
      v.graph.stablePadded v.membership n = true := by
  have hrun : (execute step Fits ⟨.empty, .ofReplicas [[1]]⟩ [.insert (message [1] [1]), .add [2],
      .insert (message [1] [2, 0]), .insert (message [2] [2, 1])]).map (fun v => decide
        (v.membership.len = 2 ∧ ∃ n ∈ v.graph.nodes, n.envelope = message [1] [1] ∧
          v.graph.isStable v.membership n = some true)) = some true := by
    decide +kernel
  obtain ⟨v, -, hr, hc⟩ := reach_of_execute hrun
  obtain ⟨hlen, n, hn, henv, hstable⟩ := of_decide_eq_true hc
  have hpadded := (stability_queries_padded hr).1 n hn
  rw [hstable] at hpadded
  exact ⟨v, n, hr, hlen, hn, henv, hstable, (Option.some.inj hpadded).symm⟩

/-- The message of a member that has joined is asked for in a clock of the era before. -/
theorem stability_queries_panic : ∃ v n,
    Reach step (fun _ _ => True) ⟨.empty, .ofReplicas [[1], [2]]⟩ v ∧ n ∈ v.graph.nodes ∧
      n.envelope = message [3] [1, 0, 1] ∧ v.graph.isStable v.membership n = none ∧
      v.graph.stableNodes v.membership = none ∧ v.graph.waveComplete v.membership 1 = none := by
  have hrun : (execute step (fun _ _ => True) ⟨.empty, .ofReplicas [[1], [2]]⟩
      [.insert (message [1] [1, 0]), .add [3], .insert (message [3] [1, 0, 1])]).map
        (fun v => decide ((∃ n ∈ v.graph.nodes, n.envelope = message [3] [1, 0, 1] ∧
            v.graph.isStable v.membership n = none) ∧
          v.graph.stableNodes v.membership = none ∧
          v.graph.waveComplete v.membership 1 = none)) = some true := by
    decide +kernel
  obtain ⟨v, -, hr, hc⟩ := reach_of_execute hrun
  obtain ⟨⟨n, hn, henv, hstable⟩, hnodes, hwave⟩ := of_decide_eq_true hc
  exact ⟨v, n, hr, hn, henv, hstable, hnodes, hwave⟩

end GraphView
end Comlink
