import Comlink.GrowingClocks
import Comlink.Stability

/-!
# Stability over time

Messages that are inserted later, and slots that are frozen, only help a node to become
stable, as long as the newest clock of a sender covers its older ones; a frozen slot is no
longer asked. One process stamps its messages so. A replica that has been restarted and sends
before it has replayed its log does not: its clock has forgotten what it had acknowledged. A
member that joins has sent nothing yet, so that its slot turns every stable node unstable
again. A wave is judged by the nodes in it one after the other; where the newest clock of some
slot has no entry for the sender of one of them, the judgement panics.
-/
namespace Comlink
open GuardedRuns VectorClock

namespace Graph

variable {g g' : Graph} {m m' : Membership} {n : Node}

/-- The newest message of the replica acknowledges the node. -/
def AcknowledgedBy (g : Graph) (n : Node) (r : ReplicaID) : Prop :=
  ∃ l, g.latestNode r = some l ∧
    ∃ acked, l.envelope.id.vectorClock[n.senderSlot]? = some acked ∧ n.senderSeq ≤ acked

theorem isStableAt_eq_true_iff (slots : List (Slot × ℕ)) :
    g.isStableAt n slots = some true ↔
      ∀ p ∈ slots, p.2 = n.senderSlot ∨ p.1.frozen = true ∨ g.AcknowledgedBy n p.1.replica := by
  induction slots with
  | nil => simp [isStableAt]
  | cons p rest ih =>
    obtain ⟨s, i⟩ := p
    rw [List.forall_mem_cons, isStableAt]
    by_cases hskip : i = n.senderSlot ∨ s.frozen = true
    · rw [if_pos hskip, ih]
      exact ⟨fun h => ⟨hskip.imp_right Or.inl, h⟩, fun h => h.2⟩
    · rw [if_neg hskip]
      obtain ⟨hi, hf⟩ := not_or.mp hskip
      have hhead : (i = n.senderSlot ∨ s.frozen = true ∨ g.AcknowledgedBy n s.replica) ↔
          g.AcknowledgedBy n s.replica := by simp [hi, hf]
      rw [hhead, AcknowledgedBy]
      cases hl : g.latestNode s.replica with
      | none => simp
      | some l =>
        dsimp only
        cases ha : l.envelope.id.vectorClock[n.senderSlot]? with
        | none => simp [ha]
        | some acked =>
          by_cases hlt : acked < n.senderSeq
          · simp [hlt, ha, Nat.not_le.mpr hlt]
          · simp [hlt, ha, ih, Nat.le_of_not_lt hlt]

theorem isStable_eq_true_iff : g.isStable m n = some true ↔
    ∀ (i : ℕ) (s : Slot), m.slots[i]? = some s →
      i = n.senderSlot ∨ s.frozen = true ∨ g.AcknowledgedBy n s.replica := by
  rw [isStable, isStableAt_eq_true_iff]
  simp only [Prod.forall, List.mem_zipIdx_iff_getElem?]
  exact forall_comm

/-- Every newest clock has an entry for the node's sender. -/
def Indexable (g : Graph) (n : Node) : Prop :=
  ∀ r l, g.latestNode r = some l → n.senderSlot < l.envelope.id.vectorClock.length

theorem isStable_isSome (h : g.Indexable n) : (g.isStable m n).isSome = true := by
  rw [isStable]
  induction m.slots.zipIdx with
  | nil => rfl
  | cons p rest ih =>
    obtain ⟨s, i⟩ := p
    rw [isStableAt]
    split
    · exact ih
    · split
      · rfl
      · rename_i l hl
        rw [List.getElem?_eq_getElem (h s.replica l hl)]
        dsimp only
        split
        · rfl
        · exact ih

/-- A wave without a node that panics is complete as soon as one of its nodes is stable. -/
theorem waveComplete_eq_true_iff {w : ℕ} (h : ∀ n ∈ g.nodes, g.Indexable n) :
    g.waveComplete m w = some true ↔ ∃ n ∈ g.messagesInWave w, g.isStable m n = some true := by
  have hsome : ∀ n ∈ g.messagesInWave w, (g.isStable m n).isSome = true :=
    fun n hn => isStable_isSome (h n (mem_messagesInWave.mp hn).1)
  rw [waveComplete]
  generalize g.messagesInWave w = ns at hsome ⊢
  induction ns with
  | nil => simp [anyStable]
  | cons n rest ih =>
    obtain ⟨hn, hrest⟩ := List.forall_mem_cons.mp hsome
    obtain ⟨b, hb⟩ := Option.isSome_iff_exists.mp hn
    rw [anyStable, hb]
    cases b with
    | false => simp [ih hrest, hb]
    | true => simp [hb]

/-- The newer of two messages of one sender has the larger clock. -/
def Clocked (g : Graph) : Prop :=
  ∀ a ∈ g.nodes, ∀ b ∈ g.nodes, a.envelope.sender = b.envelope.sender →
    a.senderSeq ≤ b.senderSeq → Below a.envelope.id.vectorClock b.envelope.id.vectorClock

/-- A replica that has sent something has a newest message also in a larger graph. -/
theorem exists_newer_latestNode (hsub : g.nodes ⊆ g'.nodes) {r : ReplicaID} {l : Node}
    (hl : g.latestNode r = some l) :
    ∃ l', g'.latestNode r = some l' ∧ l.senderSeq ≤ l'.senderSeq := by
  obtain ⟨hmem, rfl, hseq⟩ := latestNode_eq_some hl
  have hle := le_latestSeq (hsub hmem)
  have hpos : g.latestSeq l.envelope.sender ≠ 0 := by
    intro hz
    simp [latestNode, hz] at hl
  obtain ⟨l', hl'⟩ := exists_latestNode (g := g') (r := l.envelope.sender) (by omega)
  exact ⟨l', hl', by rw [(latestNode_eq_some hl').2.2]; exact hle⟩

theorem AcknowledgedBy.mono {r : ReplicaID} (h : g.AcknowledgedBy n r)
    (hsub : g.nodes ⊆ g'.nodes) (hc : g'.Clocked) (hn : g'.Indexable n) :
    g'.AcknowledgedBy n r := by
  obtain ⟨l, hl, acked, ha, hle⟩ := h
  obtain ⟨l', hl', hseq⟩ := exists_newer_latestNode hsub hl
  obtain ⟨hmem, hs, -⟩ := latestNode_eq_some hl
  obtain ⟨hmem', hs', -⟩ := latestNode_eq_some hl'
  obtain ⟨hlt, hget⟩ := List.getElem?_eq_some_iff.mp ha
  have hlt' := hn r l' hl'
  have hentry := hc l (hsub hmem) l' hmem' (hs.trans hs'.symm) hseq n.senderSlot
  rw [atSlot_eq_getElem hlt, atSlot_eq_getElem hlt', hget] at hentry
  exact ⟨l', hl', _, List.getElem?_eq_getElem hlt', hle.trans hentry⟩

/-- A stable node stays stable while the graph grows and slots are frozen. -/
theorem isStable_mono (h : g.isStable m n = some true) (hsub : g.nodes ⊆ g'.nodes)
    (hc : g'.Clocked) (hn : g'.Indexable n)
    (hm : ∀ (i : ℕ) (s : Slot), m'.slots[i]? = some s → s.frozen = false →
      m.slots[i]? = some s) : g'.isStable m' n = some true := by
  rw [isStable_eq_true_iff] at h ⊢
  intro i s hs
  by_cases hf : s.frozen = true
  · exact Or.inr (Or.inl hf)
  · rcases h i s (hm i s hs (by simpa using hf)) with hi | hfrozen | hack
    · exact Or.inl hi
    · exact Or.inr (Or.inl hfrozen)
    · exact Or.inr (Or.inr (hack.mono hsub hc hn))

end Graph

/-- A replica's graph with its membership. -/
structure GraphView where
  graph : Graph
  membership : Membership

inductive ViewAction where
  | insert (env : Envelope)
  | freeze (r : ReplicaID)
  | add (r : ReplicaID)

namespace GraphView
open Conversation

variable {v v' : GraphView} {world : ReplicaID → Conversation}

/-- The calls of `Insert`, `Freeze` and `Add` that succeed. -/
def step (v : GraphView) : ViewAction → Option GraphView
  | .insert env => match v.graph.insert v.membership env with
    | .error _ => none
    | .ok (g, _) => some { v with graph := g }
  | .freeze r => (v.membership.freeze r).map fun m => { v with membership := m }
  | .add r => (v.membership.add r).map fun m => { v with membership := m }

instance decidableBelow (v w : VectorClock) : Decidable (Below v w) :=
  decidable_of_iff (∀ i < v.length, v.atSlot i ≤ w.atSlot i) ⟨fun h i => by
    by_cases hi : i < v.length
    · exact h i hi
    · rw [atSlot_of_length_le (Nat.le_of_not_lt hi)]
      exact Nat.zero_le _, fun h i _ => h i⟩

/-- A member joins only while no node is stable. An envelope is inserted only if its clock
has an entry for every sender in the graph and covers the newest clock of its own sender, and
if all newest clocks have an entry for its sender. -/
def KeepsStability (v : GraphView) : ViewAction → Prop
  | .insert env => (∀ n ∈ v.graph.nodes, n.senderSlot < env.id.vectorClock.length) ∧
      (∀ r ∈ v.membership.allReplicas, ∀ l ∈ v.graph.latestNode r,
        ∀ i ∈ v.membership.slotOf env.sender, i < l.envelope.id.vectorClock.length) ∧
      ∀ l ∈ v.graph.latestNode env.sender, Below l.envelope.id.vectorClock env.id.vectorClock
  | .freeze _ => True
  | .add _ => ∀ n ∈ v.graph.nodes, v.graph.isStable v.membership n ≠ some true

instance (v : GraphView) (a : ViewAction) : Decidable (KeepsStability v a) :=
  match a with
  | .insert env => inferInstanceAs (Decidable ((∀ n ∈ v.graph.nodes,
      n.senderSlot < env.id.vectorClock.length) ∧ (∀ r ∈ v.membership.allReplicas,
        ∀ l ∈ v.graph.latestNode r, ∀ i ∈ v.membership.slotOf env.sender,
          i < l.envelope.id.vectorClock.length) ∧ ∀ l ∈ v.graph.latestNode env.sender,
            Below l.envelope.id.vectorClock env.id.vectorClock))
  | .freeze _ => isTrue trivial
  | .add _ => inferInstanceAs (Decidable (∀ n ∈ v.graph.nodes,
      v.graph.isStable v.membership n ≠ some true))

/-! ### What an insertion adds -/

/-- The newest message of a replica after an insertion is the new one or the old one. -/
theorem latestNode_concat {g : Graph} {m : Membership} {n : Node}
    (hs : Graph.Sound m ⟨g.nodes ++ [n]⟩) {r : ReplicaID} {l : Node}
    (hl : Graph.latestNode ⟨g.nodes ++ [n]⟩ r = some l) : l = n ∨ g.latestNode r = some l := by
  rw [hs.latestNode_concat] at hl
  split at hl
  · exact Or.inl (Option.some.inj hl).symm
  · exact Or.inr hl

/-- A node that is new has the largest number of its sender. -/
theorem seq_le_new {g : Graph} {m : Membership} {a n : Node}
    (hs : Graph.Sound m ⟨g.nodes ++ [n]⟩) (ha : a ∈ g.nodes)
    (hsender : a.envelope.sender = n.envelope.sender) : a.senderSeq ≤ n.senderSeq := by
  have hl : Graph.latestNode ⟨g.nodes ++ [n]⟩ n.envelope.sender = some n := by
    rw [hs.latestNode_concat, if_pos rfl]
  exact (hs.latestNode_eq_some_iff.mp hl).2.2 a (List.mem_append_left _ ha) hsender

theorem clocked_concat {g : Graph} {m : Membership} {n : Node} (h : g.Clocked)
    (hs : Graph.Sound m ⟨g.nodes ++ [n]⟩)
    (hnew : ∀ l ∈ g.latestNode n.envelope.sender,
      Below l.envelope.id.vectorClock n.envelope.id.vectorClock) :
    Graph.Clocked ⟨g.nodes ++ [n]⟩ := by
  have hold : ∀ a ∈ g.nodes, a.envelope.sender = n.envelope.sender →
      Below a.envelope.id.vectorClock n.envelope.id.vectorClock := by
    intro a ha hsender
    have hpos := (hs.derived a (List.mem_append_left _ ha)).seq_pos
    have hle := Graph.le_latestSeq ha
    obtain ⟨l, hl⟩ := Graph.exists_latestNode (g := g) (r := a.envelope.sender) (by omega)
    obtain ⟨hmem, hls, hlq⟩ := Graph.latestNode_eq_some hl
    exact (h a ha l hmem hls.symm (hlq ▸ hle)).trans (hnew l (hsender ▸ hl))
  intro a ha b hb hsender hle
  rcases List.mem_append.mp ha with ha | ha
  · rcases List.mem_append.mp hb with hb | hb
    · exact h a ha b hb hsender hle
    · rw [List.mem_singleton.mp hb] at hsender ⊢
      exact hold a ha hsender
  · obtain rfl := List.mem_singleton.mp ha
    rcases List.mem_append.mp hb with hb | hb
    · -- no node of the sender had this number before
      have hge := seq_le_new hs hb hsender.symm
      have hkey : a.key = b.key := Key.ext hsender (Nat.le_antisymm hle hge)
      rw [hs.eq_of_key (List.mem_append_right _ (List.mem_singleton_self a))
        (List.mem_append_left _ hb) hkey]
      exact Below.refl _
    · rw [List.mem_singleton.mp hb]
      exact Below.refl _

structure Invariant (v : GraphView) : Prop where
  sound : v.graph.Sound v.membership
  indexable : ∀ n ∈ v.graph.nodes, v.graph.Indexable n
  clocked : v.graph.Clocked

theorem invariant_empty (m : Membership) : Invariant ⟨.empty, m⟩ :=
  ⟨Graph.sound_empty m, by simp [Graph.empty], by simp [Graph.Clocked, Graph.empty]⟩

theorem Invariant.insert (h : Invariant v) {env : Envelope} {g : Graph} {n : Node}
    (hi : v.graph.insert v.membership env = .ok (g, n)) (hok : KeepsStability v (.insert env)) :
    Invariant { v with graph := g } := by
  have hsound := h.sound.insert hi
  obtain ⟨rfl, rfl, hd, -, -⟩ := Graph.insert_ok hi
  obtain ⟨hentries, hnewest, hcovers⟩ := hok
  refine ⟨hsound, ?_, clocked_concat h.clocked hsound hcovers⟩
  intro a ha r l hl
  rcases latestNode_concat hsound hl with rfl | hold
  · rcases List.mem_append.mp ha with ha | ha
    · exact hentries a ha
    · rw [List.mem_singleton.mp ha]
      exact hd.slot_lt
  · rcases List.mem_append.mp ha with ha | ha
    · exact h.indexable a ha r l hold
    · rw [List.mem_singleton.mp ha]
      obtain ⟨hmem, hs, -⟩ := Graph.latestNode_eq_some hold
      have hr : r ∈ v.membership.allReplicas :=
        Membership.slotOf_isSome_iff.mp ⟨_, hs ▸ (h.sound.derived l hmem).slot⟩
      exact hnewest r hr l hold n.senderSlot hd.slot

/-- The calls that succeed. -/
inductive Stepped (v : GraphView) : ViewAction → GraphView → Prop
  | insert {env : Envelope} {g : Graph} {n : Node}
      (hi : v.graph.insert v.membership env = .ok (g, n)) :
      Stepped v (.insert env) { v with graph := g }
  | freeze {r : ReplicaID} {m : Membership} (hm : v.membership.freeze r = some m) :
      Stepped v (.freeze r) { v with membership := m }
  | add {r : ReplicaID} {m : Membership} (hm : v.membership.add r = some m) :
      Stepped v (.add r) { v with membership := m }

theorem stepped_of_step {a : ViewAction} (hs : step v a = some v') : Stepped v a v' := by
  cases a with
  | insert env =>
    unfold step at hs
    dsimp only at hs
    split at hs
    · cases hs
    · rename_i g n hi
      cases hs
      exact .insert hi
  | freeze r =>
    obtain ⟨m, hm, rfl⟩ := Option.map_eq_some_iff.mp hs
    exact .freeze hm
  | add r =>
    obtain ⟨m, hm, rfl⟩ := Option.map_eq_some_iff.mp hs
    exact .add hm

theorem Invariant.step (h : Invariant v) {a : ViewAction} (hok : KeepsStability v a)
    (hs : Stepped v a v') : Invariant v' := by
  cases hs with
  | insert hi => exact h.insert hi hok
  | freeze hm => exact ⟨h.sound.congr (Membership.allReplicas_freeze hm), h.indexable, h.clocked⟩
  | add hm => exact ⟨h.sound.add hm, h.indexable, h.clocked⟩

/-! ### Once stable, always stable -/

/-- What was stable before is stable afterwards. -/
def StillStable (v v' : GraphView) : Prop :=
  v.graph.nodes ⊆ v'.graph.nodes ∧ ∀ n ∈ v.graph.nodes,
    v.graph.isStable v.membership n = some true → v'.graph.isStable v'.membership n = some true

theorem StillStable.refl (v : GraphView) : StillStable v v :=
  ⟨List.Subset.refl _, fun _ _ h => h⟩

theorem StillStable.trans {v'' : GraphView} (h : StillStable v v') (h' : StillStable v' v'') :
    StillStable v v'' :=
  ⟨List.Subset.trans h.1 h'.1, fun n hn hs => h'.2 n (h.1 hn) (h.2 n hn hs)⟩

theorem Invariant.stillStable (h : Invariant v) {a : ViewAction} (hok : KeepsStability v a)
    (hs : Stepped v a v') : StillStable v v' := by
  have h' := h.step hok hs
  cases hs with
  | @insert env g n hi =>
    obtain ⟨rfl, -⟩ := Graph.insert_ok hi
    have hsub := List.subset_append_left v.graph.nodes [n]
    exact ⟨hsub, fun a ha hstable => Graph.isStable_mono hstable hsub h'.clocked
      (h'.indexable a (hsub ha)) fun _ _ hs _ => hs⟩
  | freeze hm =>
    have hsub := List.Subset.refl v.graph.nodes
    exact ⟨hsub, fun a ha hstable => Graph.isStable_mono hstable hsub h'.clocked
      (h'.indexable a ha) fun _ _ hs hf => Membership.freeze_active hm hs hf⟩
  | add hm => exact ⟨List.Subset.refl _, fun a ha hstable => absurd hstable (hok a ha)⟩

/-- Once a node is stable it is stable for ever, and once a wave is complete it is complete
for ever, whoever made the envelopes, as long as no member joins while a node is stable, every
envelope covers the newest clock of its sender, and every clock that is compared has the
entries that it is asked for. -/
theorem stable_forever {members : List ReplicaID}
    (hv : Reach step KeepsStability ⟨.empty, .ofReplicas members⟩ v)
    (hr : Reach step KeepsStability v v') :
    (∀ n ∈ v.graph.nodes, v.graph.isStable v.membership n = some true →
        v'.graph.isStable v'.membership n = some true) ∧
      ∀ w, v.graph.waveComplete v.membership w = some true →
        v'.graph.waveComplete v'.membership w = some true := by
  have hstep : ∀ u a u', Invariant u → KeepsStability u a → step u a = some u' → Invariant u' :=
    fun _ _ _ h hok hs => h.step hok (stepped_of_step hs)
  have hinv : Invariant v := hv.invariant (invariant_empty _) hstep
  have hrun := hr.invariant (P := fun u => Invariant u ∧ StillStable v u)
    ⟨hinv, StillStable.refl v⟩ fun u a u' h hok hs =>
      ⟨hstep u a u' h.1 hok hs, h.2.trans (h.1.stillStable hok (stepped_of_step hs))⟩
  obtain ⟨hinv', hsub, hstable⟩ := hrun
  refine ⟨hstable, fun w hcomplete => ?_⟩
  rw [Graph.waveComplete_eq_true_iff hinv.indexable] at hcomplete
  rw [Graph.waveComplete_eq_true_iff hinv'.indexable]
  obtain ⟨n, hn, hs⟩ := hcomplete
  obtain ⟨hmem, hwave⟩ := Graph.mem_messagesInWave.mp hn
  exact ⟨n, Graph.mem_messagesInWave.mpr ⟨hsub hmem, hwave⟩, hstable n hmem hs⟩

/-- The first message has been answered; then the answer is answered and the second
replica frozen. -/
theorem stable_forever_dialogue : ∃ v v' n,
    Reach step KeepsStability ⟨.empty, .ofReplicas [[1], [2]]⟩ v ∧
    Reach step KeepsStability v v' ∧ n ∈ v.graph.nodes ∧
    v.graph.isStable v.membership n = some true ∧ v'.graph.nodes.length = 3 ∧
    v'.graph.isStable v'.membership n = some true ∧
    v'.graph.waveComplete v'.membership 1 = some true := by
  have hrun : (execute step KeepsStability ⟨.empty, .ofReplicas [[1], [2]]⟩
      [.insert (message [1] [1, 0]), .insert (message [2] [1, 1])]).map (fun v => decide
        ((∃ n ∈ v.graph.nodes, v.graph.isStable v.membership n = some true) ∧
          v.graph.waveComplete v.membership 1 = some true ∧
          (execute step KeepsStability v [.insert (message [1] [2, 1]), .freeze [2]]).map
            (fun v' => decide (v'.graph.nodes.length = 3)) = some true)) = some true := by
    decide +kernel
  obtain ⟨v, -, hr, hv⟩ := reach_of_execute hrun
  obtain ⟨⟨n, hn, hstable⟩, hcomplete, hrun'⟩ := of_decide_eq_true hv
  obtain ⟨v', -, hr', hlen⟩ := reach_of_execute hrun'
  obtain ⟨hnodes, hwaves⟩ := stable_forever hr hr'
  exact ⟨v, v', n, hr, hr', hn, hstable, of_decide_eq_true hlen, hnodes n hn hstable,
    hwaves 1 hcomplete⟩

/-- The first replica has acknowledged the third message of the second one. Restarted, and
before it has replayed its log, it sends twice: its first message has a number that it has used
before, and the second one takes the acknowledgement back. -/
example : (execute step (fun _ _ => True) ⟨.empty, .ofReplicas [[1], [2]]⟩
    [.insert (message [2] [0, 1]), .insert (message [2] [0, 2]), .insert (message [2] [0, 3]),
      .insert (message [1] [1, 3])]).map (fun v => decide
      (message [1] [2, 0] ∈ ([Request.send .standard [], .send .standard []].foldl handle
          (init [9] [1] 0 [[1], [2]] [] .empty)).issued ∧
        v.graph.waveComplete v.membership 1 = some true ∧
        (step v (.insert (message [1] [2, 0]))).map (fun v' =>
          v'.graph.waveComplete v'.membership 1) = some (some false))) = some true := by
  decide +kernel

/-! ### Graphs of running processes -/

/-- Only what `handleSend` has produced at some replica is inserted. -/
def Sent (world : ReplicaID → Conversation) (_ : GraphView) : ViewAction → Prop
  | .insert env => ∃ r, env ∈ (world r).issued
  | _ => True

structure FromWorld (world : ReplicaID → Conversation) (v : GraphView) : Prop where
  sound : v.graph.Sound v.membership
  issued : ∀ n ∈ v.graph.nodes, n.envelope ∈ (world n.envelope.sender).issued

theorem FromWorld.step (h : FromWorld world v) (hw : ∀ r, ProcessOf r (world r))
    {a : ViewAction} (hsent : Sent world v a) (hs : Stepped v a v') : FromWorld world v' := by
  cases hs with
  | insert hi =>
    have hsound := h.sound.insert hi
    obtain ⟨rfl, rfl, -⟩ := Graph.insert_ok hi
    refine ⟨hsound, List.forall_mem_append.mpr ⟨h.issued, ?_⟩⟩
    intro n hn
    rw [List.mem_singleton.mp hn]
    obtain ⟨r, hr⟩ := hsent
    rw [((hw r).growing.own _ hr).1]
    exact hr
  | freeze hm => exact ⟨h.sound.congr (Membership.allReplicas_freeze hm), h.issued⟩
  | add hm => exact ⟨h.sound.add hm, h.issued⟩

/-- As long as each replica is one process over the whole run, an envelope that is inserted
covers the newest clock of its sender. -/
theorem below_of_sent (hw : ∀ r, ProcessOf r (world r)) {members : List ReplicaID}
    (hv : Reach GraphView.step (Sent world) ⟨.empty, .ofReplicas members⟩ v) {env : Envelope}
    (hsent : Sent world v (.insert env)) (hs : step v (.insert env) = some v') :
    ∀ l ∈ v.graph.latestNode env.sender,
      Below l.envelope.id.vectorClock env.id.vectorClock := by
  have hfrom : FromWorld world v := hv.invariant
    ⟨Graph.sound_empty _, by simp [Graph.empty]⟩
    fun _ _ _ h hsent hs => h.step hw hsent (stepped_of_step hs)
  have hstepped := stepped_of_step hs
  have hafter := hfrom.step hw hsent hstepped
  intro l hl
  obtain ⟨hmem, hls, -⟩ := Graph.latestNode_eq_some hl
  cases hstepped with
  | @insert _ g n hi =>
    obtain ⟨rfl, rfl, hd, -, -⟩ := Graph.insert_ok hi
    have hnew := List.mem_append_right v.graph.nodes (List.mem_singleton_self n)
    have hissued := hafter.issued n hnew
    have hold := hfrom.issued l hmem
    rw [hls] at hold
    rcases (hw n.envelope.sender).comparable hold hissued with hgrow | hgrow
    · exact hgrow.2
    · -- the new message would have a number that its sender has already passed
      have hle := seq_le_new hafter.sound hmem hls
      have hslot := hafter.sound.senderSlot_eq (List.mem_append_left _ hmem) hnew hls
      have hseq := hgrow.2 n.senderSlot
      rw [hd.seq, ← hslot, (hfrom.sound.derived l hmem).seq] at hseq
      have hkey : l.key = n.key := Key.ext hls (Nat.le_antisymm hle hseq)
      rw [hafter.sound.eq_of_key (List.mem_append_left _ hmem) hnew hkey]
      exact Below.refl _

/-- Two replicas, of which the second answers the first; the others send nothing. -/
def dialogue (r : ReplicaID) : Conversation :=
  if r = [1] then
    [Request.send .standard [], .incoming .standard [2] (.envelope (message [2] [1, 1])),
      .send .standard []].foldl handle (init [9] [1] 0 [[1], [2]] [] .empty)
  else if r = [2] then
    [Request.incoming .standard [1] (.envelope (message [1] [1, 0])),
      .send .standard []].foldl handle (init [9] [2] 1 [[1], [2]] [] .empty)
  else init [9] r 0 [r] [] .empty

theorem processOf_dialogue (r : ReplicaID) : ProcessOf r (dialogue r) := by
  unfold dialogue
  split_ifs with h1 h2
  · have hnew : new [9] [1] [[1], [2]] [] .empty =
        some (init [9] [1] 0 [[1], [2]] [] .empty) := rfl
    subst h1
    exact processOf_foldl (by decide) hnew _
  · have hnew : new [9] [2] [[1], [2]] [] .empty =
        some (init [9] [2] 1 [[1], [2]] [] .empty) := rfl
    subst h2
    exact processOf_foldl (by decide) hnew _
  · have hslot : (Membership.ofReplicas [r]).slotOf r = some 0 := by
      simp [Membership.slotOf, ListScans.lastIdxOf]
    have hnew : new [9] r [r] [] .empty = some (init [9] r 0 [r] [] .empty) := by
      rw [new, hslot]
      rfl
    exact processOf_foldl (List.nodup_singleton r) hnew []

/-- A member joins after the first message has been answered: the message is no longer
stable, and its wave no longer complete. -/
theorem join_destabilises : ∃ v v' n, (∀ r, ProcessOf r (dialogue r)) ∧
    Reach step (Sent dialogue) ⟨.empty, .ofReplicas [[1], [2]]⟩ v ∧
    Reach step (Sent dialogue) v v' ∧ n ∈ v.graph.nodes ∧
    v.graph.isStable v.membership n = some true ∧
    v'.graph.isStable v'.membership n = some false ∧
    v.graph.waveComplete v.membership 1 = some true ∧
    v'.graph.waveComplete v'.membership 1 = some false := by
  have hrun : (execute step (fun _ _ => True) ⟨.empty, .ofReplicas [[1], [2]]⟩
      [.insert (message [1] [1, 0]), .insert (message [2] [1, 1])]).map (fun v => decide
        (v.graph.waveComplete v.membership 1 = some true ∧
          (step v (.add [3])).map (fun v' => decide
            ((∃ n ∈ v.graph.nodes, v.graph.isStable v.membership n = some true ∧
              v'.graph.isStable v'.membership n = some false) ∧
            v'.graph.waveComplete v'.membership 1 = some false)) = some true)) = some true := by
    decide +kernel
  obtain ⟨v, he, -, hv⟩ := reach_of_execute hrun
  obtain ⟨hcomplete, hadd⟩ := of_decide_eq_true hv
  obtain ⟨v', hv', hjoin⟩ := Option.map_eq_some_iff.mp hadd
  obtain ⟨⟨n, hn, hstable, hunstable⟩, hincomplete⟩ := of_decide_eq_true hjoin
  have hr := (execute_reach_of_forall (P := fun a => ∀ v, Sent dialogue v a) _ he (by
    simp only [List.forall_mem_cons]
    exact ⟨fun _ => ⟨[1], by decide +kernel⟩, fun _ => ⟨[2], by decide +kernel⟩, by simp⟩)).mono
    fun v _ h => h.2 v
  exact ⟨v, v', n, processOf_dialogue, hr, .single ⟨.add [3], trivial, hv'⟩, hn, hstable,
    hunstable, hcomplete, hincomplete⟩

end GraphView
end Comlink
