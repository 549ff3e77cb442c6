import Comlink.ClockAncestry
import Comlink.SemOrderCausality
import Comlink.StrictOperations

/-!
# Causal order in a group with the semantic order layer

The conversation of every member delivers messages after their parents, and the layer over
it emits them after their parents as long as the strict operations that it reads are in
order. Otherwise the sort by sender may put a message before the one that it answers.
-/
namespace Comlink.SemGroup
open GuardedRuns Conversation SemOrder

variable {G : Group} {classifier : List UInt8 → ℤ} {s t : SemGroup} {p : ReplicaID}

/-- The member list stays as it was configured; slots may be frozen. -/
def Static (_ : SemGroup) : SemAction → Prop
  | .net a => a.request.isStatic = true
  | .pump _ _ => True

/-- What the pump reads next is in order. -/
def ReadInOrder (s : SemGroup) : SemAction → Prop
  | .net _ => True
  | .pump p _ => ∀ env ∈ (s.net p).delivered[(s.order p).received]?, (s.order p).InOrder env

instance (s : SemGroup) (a : SemAction) : Decidable (Static s a) :=
  match a with
  | .net a => inferInstanceAs (Decidable (a.request.isStatic = true))
  | .pump _ _ => isTrue trivial

instance (s : SemGroup) (a : SemAction) : Decidable (ReadInOrder s a) :=
  match a with
  | .net _ => isTrue trivial
  | .pump _ _ => inferInstanceAs (Decidable (∀ env ∈ _, _))

/-- The layer of one replica over its conversation. -/
structure CausalLayer (members : List ReplicaID) (c : Conversation) (o : SemOrder) : Prop where
  membership_eq : o.membership = Membership.ofReplicas members
  received_le : o.received ≤ c.delivered.length
  causal : Causal (c.delivered.take o.received) o

structure CausalInvariant (G : Group) (s : SemGroup) : Prop where
  group : G.Invariant s.net
  below : G.OwnParentsBelow s.net
  layer : ∀ p ∈ G.members, CausalLayer G.members (s.net p) (s.order p)

theorem causalInvariant_initial (G : Group) (classifier : List UInt8 → ℤ) :
    CausalInvariant G (initial G classifier) :=
  ⟨Group.invariant_start G, Group.ownParentsBelow_start G,
    fun _ _ => ⟨rfl, Nat.zero_le _, causal_new _ _⟩⟩

theorem CausalLayer.grow {members : List ReplicaID} {c c' : Conversation} {o : SemOrder}
    (h : CausalLayer members c o) (he : c.delivered <+: c'.delivered) :
    CausalLayer members c' o := by
  obtain ⟨rest, hrest⟩ := he
  refine ⟨h.membership_eq, h.received_le.trans ?_, ?_⟩
  · simp [← hrest]
  · rw [← hrest, List.take_append_of_le_length h.received_le]
    exact h.causal

/-- The graph of a member, seen with the slots of its layer. -/
theorem CausalInvariant.sound (h : CausalInvariant G s) (hp : p ∈ G.members) :
    (s.net p).graph.Sound (s.order p).membership := by
  refine (h.group.live p hp).sound.congr ?_
  rw [(h.layer p hp).membership_eq, (h.group.live p hp).members_eq,
    Membership.allReplicas_ofReplicas]

/-- A delivery comes after its parents, which its clock covers. -/
theorem CausalInvariant.follows (h : CausalInvariant G s) (hp : p ∈ G.members) {i : ℕ}
    {n : Node} (hn : (s.net p).graph.nodes[i]? = some n) :
    Follows (s.order p).membership ((s.net p).delivered.take i) n.envelope := by
  have hsound := h.sound hp
  have hmem := List.mem_of_getElem? hn
  have hd := hsound.derived n hmem
  obtain ⟨hlt, hget⟩ := List.getElem?_eq_some_iff.mp hn
  have hsplit : (s.net p).graph.nodes =
      (s.net p).graph.nodes.take i ++ n :: (s.net p).graph.nodes.drop (i + 1) := by
    rw [← hget, List.getElem_cons_drop, List.take_append_drop]
  refine ⟨⟨_, hd.slot, hd.slot_lt⟩, hd.length_le, fun k hk => ?_⟩
  rw [hd.derivedParents] at hk
  obtain ⟨a, ha, rfl⟩ := Graph.has_iff.mp (hsound.parentsFirst _ n _ hsplit k hk)
  have ham := List.mem_of_mem_take ha
  refine ⟨a.envelope, ?_, (hsound.derived a ham).keyOf,
    h.below.happensBefore h.group hp (.single ⟨ham, hmem, hk⟩)⟩
  rw [(h.group.live p hp).delivered, ← List.map_take]
  exact List.mem_map_of_mem ha

theorem CausalInvariant.pump (h : CausalInvariant G s) (hp : p ∈ G.members) {ch : SemChoices}
    {o : SemOrder} (hin : ReadInOrder s (.pump p ch))
    (ho : (s.order p).pump (s.net p) ch = some o) : CausalLayer G.members (s.net p) o := by
  have hl := h.layer p hp
  obtain ⟨-, hm, hr⟩ := pump_kept ho
  obtain ⟨env, henv, -⟩ := pump_moves ho
  have hlen := (List.getElem?_eq_some_iff.mp henv).1
  refine ⟨hm.trans hl.membership_eq, by omega, ?_⟩
  rw [hr, List.take_add_one, henv, Option.toList_some]
  have hnode := henv
  rw [(h.group.live p hp).delivered, List.getElem?_map, Option.map_eq_some_iff] at hnode
  obtain ⟨n, hn, rfl⟩ := hnode
  have hsound := h.sound hp
  have hkey := (hsound.derived n (List.mem_of_getElem? hn)).keyOf
  refine hl.causal.pump ho henv hkey ?_ (h.follows hp hn) (hin _ henv)
  intro e he
  rw [(h.group.live p hp).delivered, ← List.map_take] at he
  obtain ⟨a, ha, rfl⟩ := List.mem_map.mp he
  rw [(hsound.derived a (List.mem_of_mem_take ha)).keyOf]
  exact fun hk => (h.group.next_delivery hp hn ha).1 (Option.some.inj hk)

theorem CausalInvariant.step (h : CausalInvariant G s) {a : SemAction} (hs : Static s a)
    (hin : ReadInOrder s a) (hstep : step G s a = some t) : CausalInvariant G t := by
  cases a with
  | net a =>
    obtain ⟨net, hnet, rfl⟩ := step_net hstep
    have hlater := h.group.later_step hs hnet
    exact ⟨h.group.step hs hnet, h.below.step h.group hs hnet,
      fun p hp => (h.layer p hp).grow (hlater p hp).delivered⟩
  | pump p ch =>
    obtain ⟨hp, o, ho, rfl⟩ := step_pump hstep
    exact ⟨h.group, h.below, Group.forall_members_update
      (P := fun q o => CausalLayer G.members (s.net q) o) (h.pump hp hin ho) h.layer⟩

/-- In every run whose layers read strict operations in order, a replica emits a message
only after all its immediate causal predecessors. Each replica is one process over the whole
run: none is restarted. -/
theorem emitted_after_predecessors
    (hs : Reach (step G) (fun s a => Static s a ∧ ReadInOrder s a) (initial G classifier) s)
    (hp : p ∈ G.members) : ∀ pre e post, (s.order p).emitted = pre ++ e :: post →
      Preceded (s.order p).membership pre e := by
  have h : CausalInvariant G s := hs.invariant (causalInvariant_initial G classifier)
    fun s a t h hok hstep => h.step hok.1 hok.2 hstep
  exact (h.layer p hp).causal.respected

/-- A strict operation, one that answers it, and operations that commute. -/
theorem emitted_after_predecessors_exchange : ∃ s,
    execute (step twoReplicas) (fun s a => Static s a ∧ ReadInOrder s a)
        (initial twoReplicas byPayload) strictExchange = some s ∧
      (s.order [1]).emitted = [message [1] [1, 0] [7], message [2] [1, 1] [8],
        message [2] [1, 2] []] ∧
      ∀ pre e post, (s.order [1]).emitted = pre ++ e :: post →
        Preceded (s.order [1]).membership pre e := by
  have hrun : (execute (step twoReplicas) (fun s a => Static s a ∧ ReadInOrder s a)
      (initial twoReplicas byPayload) strictExchange).map (fun s => decide
        ((s.order [1]).emitted = [message [1] [1, 0] [7], message [2] [1, 1] [8],
          message [2] [1, 2] []])) = some true := by decide +kernel
  obtain ⟨s, he, hs, hc⟩ := reach_of_execute hrun
  exact ⟨s, he, of_decide_eq_true hc, emitted_after_predecessors hs (by decide)⟩

/-- The member with the larger name has the first slot. -/
def reversedNames : Group := ⟨[0], [[2], [1]]⟩

/-- A strict operation and the strict answer to it share wave 1; both replicas go on to
wave 2. -/
def answeredInWave : List SemAction :=
  [send [2] [7], receive [1] (message [2] [1, 0] [7]), send [1] [8],
    receive [2] (message [1] [1, 1] [8]), send [2] [], receive [1] (message [2] [2, 1] []),
    send [1] []] ++ read [1] 4

/-- The sort by sender emits the answer before the operation that it answers. -/
theorem strict_answer_emitted_first : ∃ s,
    Reach (step reversedNames) Static (initial reversedNames byPayload) s ∧
      (s.order [1]).emitted.head? = some (message [1] [1, 1] [8]) ∧
      ¬ ∀ pre e post, (s.order [1]).emitted = pre ++ e :: post →
        Preceded (s.order [1]).membership pre e := by
  have hrun : (execute (step reversedNames) Static (initial reversedNames byPayload)
      answeredInWave).map (fun s => decide
        ((s.order [1]).emitted.head? = some (message [1] [1, 1] [8]) ∧
          ⟨[2], 1⟩ ∈ Graph.derivedParents (s.order [1]).membership
            (message [1] [1, 1] [8]))) = some true := by decide +kernel
  obtain ⟨s, -, hs, hc⟩ := reach_of_execute hrun
  obtain ⟨hhead, hparent⟩ := of_decide_eq_true hc
  refine ⟨s, hs, hhead, fun h => ?_⟩
  obtain ⟨rest, hemitted⟩ := List.head?_eq_some_iff.mp hhead
  obtain ⟨f, hf, -⟩ := h [] _ rest hemitted _ hparent
  cases hf

end Comlink.SemGroup
