import Comlink.BlockSequences
import Comlink.ReplicaGroup
import Comlink.SemOrderRounds

/-!
# Strict operations in a group

Every member runs a conversation and the semantic order layer over it, all with one
classifier. In a run that delivers strict operations timely, any two replicas emit them
in the same order, and none leaves one behind. Without this they may differ: a round
jumps over the waves in which no strict operation has arrived so far, although only the
wave that it leaves has been checked for late ones.
-/
namespace Comlink
open GuardedRuns BlockSequences

structure SemGroup where
  net : Network
  order : ReplicaID → SemOrder

inductive SemAction where
  | net (a : NetAction)
  | pump (p : ReplicaID) (ch : SemChoices)

namespace SemGroup
open Conversation SemOrder

variable {G : Group} {classifier : List UInt8 → ℤ} {s t : SemGroup} {p q : ReplicaID}

def initial (G : Group) (classifier : List UInt8 → ℤ) : SemGroup :=
  ⟨G.start, fun p => SemOrder.new classifier (G.start p).membership⟩

def step (G : Group) (s : SemGroup) : SemAction → Option SemGroup
  | .net a => (G.netStep s.net a).map fun net => { s with net := net }
  | .pump p ch =>
    if p ∈ G.members then
      ((s.order p).pump (s.net p) ch).map fun o => { s with order := Function.update s.order p o }
    else none

/-- The member list stays as it was configured and no slot is frozen. -/
def Fixed (_ : SemGroup) : SemAction → Prop
  | .net a => a.request.isFixed = true
  | .pump _ _ => True

/-- What the pump reads next reaches its layer in time. -/
def DeliveredTimely (s : SemGroup) : SemAction → Prop
  | .net _ => True
  | .pump p _ => ∀ env ∈ (s.net p).delivered[(s.order p).received]?, (s.order p).Timely env

instance (s : SemGroup) (a : SemAction) : Decidable (Fixed s a) :=
  match a with
  | .net a => inferInstanceAs (Decidable (a.request.isFixed = true))
  | .pump _ _ => isTrue trivial

instance (s : SemGroup) (a : SemAction) : Decidable (DeliveredTimely s a) :=
  match a with
  | .net _ => isTrue trivial
  | .pump _ _ => inferInstanceAs (Decidable (∀ env ∈ _, _))

/-- The messages that the layer of a replica has read. -/
def observed (s : SemGroup) (p : ReplicaID) : List Envelope :=
  (s.net p).delivered.take (s.order p).received

section Scripts

def twoReplicas : Group := ⟨[0], [[1], [2]]⟩

/-- Operations without a payload commute, all others are strict. -/
def byPayload (payload : List UInt8) : ℤ := if payload = [] then 1 else 2

def message (p : ReplicaID) (clock : VectorClock) (payload : List UInt8) : Envelope :=
  ⟨⟨some [0], some p, clock⟩, payload⟩

def send (p : ReplicaID) (payload : List UInt8) : SemAction := .net ⟨p, .send .standard payload⟩

/-- The sender's own broadcast of `m` arrives at `p`. -/
def receive (p : ReplicaID) (m : Envelope) : SemAction :=
  .net ⟨p, .incoming .standard m.sender (.envelope m)⟩

/-- The layer of `p` reads the next `n` deliveries. -/
def read (p : ReplicaID) (n : ℕ) : List SemAction := List.replicate n (.pump p .standard)

end Scripts

theorem step_net {a : NetAction} (h : step G s (.net a) = some t) :
    ∃ net, G.netStep s.net a = some net ∧ t = ⟨net, s.order⟩ := by
  obtain ⟨net, hnet, rfl⟩ := Option.map_eq_some_iff.mp h
  exact ⟨net, hnet, rfl⟩

theorem step_pump {ch : SemChoices} (h : step G s (.pump p ch) = some t) :
    p ∈ G.members ∧ ∃ o, (s.order p).pump (s.net p) ch = some o ∧
      t = ⟨s.net, Function.update s.order p o⟩ := by
  rw [step] at h
  split at h
  · rename_i hp
    obtain ⟨o, ho, rfl⟩ := Option.map_eq_some_iff.mp h
    exact ⟨hp, o, ho, rfl⟩
  · cases h

/-- The layer of one replica over its conversation. -/
structure Layered (members : List ReplicaID) (classifier : List UInt8 → ℤ) (c : Conversation)
    (o : SemOrder) : Prop where
  classifier_eq : o.classifier = classifier
  membership_eq : o.membership = Membership.ofReplicas members
  received_le : o.received ≤ c.delivered.length
  ordered : Ordered (c.delivered.take o.received) o

structure Invariant (G : Group) (classifier : List UInt8 → ℤ) (s : SemGroup) : Prop where
  group : G.Invariant s.net
  layered : ∀ p ∈ G.members, Layered G.members classifier (s.net p) (s.order p)

theorem invariant_initial (G : Group) (classifier : List UInt8 → ℤ) :
    Invariant G classifier (initial G classifier) :=
  ⟨Group.invariant_start G, fun _ _ => ⟨rfl, rfl, Nat.zero_le _, ordered_new _ _⟩⟩

theorem Layered.grow {members : List ReplicaID} {c c' : Conversation} {o : SemOrder}
    (h : Layered members classifier c o) (he : c.delivered <+: c'.delivered) :
    Layered members classifier c' o := by
  obtain ⟨rest, hrest⟩ := he
  refine ⟨h.classifier_eq, h.membership_eq, h.received_le.trans ?_, ?_⟩
  · simp [← hrest]
  · rw [← hrest, List.take_append_of_le_length h.received_le]
    exact h.ordered

/-- What a replica has read comes from the first nodes of its graph. -/
theorem Invariant.observed_eq (h : Invariant G classifier s) (hp : p ∈ G.members) :
    s.observed p =
      ((s.net p).graph.nodes.take (s.order p).received).map Node.envelope := by
  rw [observed, (h.group.live p hp).delivered, List.map_take]

theorem Invariant.keyOf_node (h : Invariant G classifier s) (hp : p ∈ G.members)
    (hq : q ∈ G.members) {n : Node} (hn : n ∈ (s.net q).graph.nodes) :
    (s.order p).membership.keyOf n.envelope = some n.key := by
  have hm : (s.order p).membership.allReplicas = (s.net q).membership.allReplicas := by
    rw [(h.layered p hp).membership_eq, (h.group.live q hq).members_eq,
      Membership.allReplicas_ofReplicas]
  exact (((h.group.live q hq).sound.congr hm).derived n hn).keyOf

theorem Invariant.pump (h : Invariant G classifier s) (hp : p ∈ G.members) {ch : SemChoices}
    {o : SemOrder} (ht : DeliveredTimely s (.pump p ch))
    (ho : (s.order p).pump (s.net p) ch = some o) :
    Layered G.members classifier (s.net p) o := by
  have hl := h.layered p hp
  obtain ⟨hc, hm, hr⟩ := pump_kept ho
  obtain ⟨env, henv, _⟩ := pump_moves ho
  have hlen := (List.getElem?_eq_some_iff.mp henv).1
  refine ⟨hc.trans hl.classifier_eq, hm.trans hl.membership_eq, by omega, ?_⟩
  rw [hr, List.take_add_one, henv, Option.toList_some]
  have hnode := henv
  rw [(h.group.live p hp).delivered, List.getElem?_map, Option.map_eq_some_iff] at hnode
  obtain ⟨n, hn, rfl⟩ := hnode
  have hnm := List.mem_of_getElem? hn
  have hread : ∀ e ∈ (s.net p).delivered.take (s.order p).received,
      ∃ a ∈ (s.net p).graph.nodes.take (s.order p).received, a.envelope = e := by
    intro e he
    rw [(h.group.live p hp).delivered, ← List.map_take] at he
    exact List.mem_map.mp he
  refine hl.ordered.pump ho henv (h.keyOf_node hp hp hnm) ?_ ?_ ?_ (ht _ henv)
  · intro e he
    obtain ⟨a, ha, rfl⟩ := hread e he
    rw [h.keyOf_node hp hp (List.mem_of_mem_take ha)]
    exact fun hk => (h.group.next_delivery hp hn ha).1 (Option.some.inj hk)
  · rw [hl.membership_eq, Membership.replicas_ofReplicas]
    exact (h.group.own_node hp hnm rfl).1
  · intro e he hs
    obtain ⟨a, ha, rfl⟩ := hread e he
    rw [← h.group.wave_eq hp (List.mem_of_mem_take ha), ← h.group.wave_eq hp hnm]
    exact (h.group.next_delivery hp hn ha).2 hs

theorem Invariant.step (h : Invariant G classifier s) {a : SemAction} (hf : Fixed s a)
    (ht : DeliveredTimely s a) (hstep : step G s a = some t) : Invariant G classifier t := by
  cases a with
  | net a =>
    obtain ⟨net, hnet, rfl⟩ := step_net hstep
    have hs := Request.isStatic_of_isFixed hf
    have hlater := h.group.later_step hs hnet
    exact ⟨h.group.step hs hnet, fun p hp => (h.layered p hp).grow (hlater p hp).delivered⟩
  | pump p ch =>
    obtain ⟨hp, o, ho, rfl⟩ := step_pump hstep
    exact ⟨h.group, Group.forall_members_update
      (P := fun q o => Layered G.members classifier (s.net q) o) (h.pump hp ht ho) h.layered⟩

theorem Invariant.mem_strictEmitted (h : Invariant G classifier s) (hp : p ∈ G.members)
    {e : Envelope} : e ∈ (s.order p).strictEmitted ↔
      e ∈ (s.order p).emitted ∧ classifier e.payload ≠ 1 := by
  simp [strictEmitted, isClass1, (h.layered p hp).classifier_eq]

theorem Invariant.isClass1_eq_false (h : Invariant G classifier s) (hp : p ∈ G.members)
    {e : Envelope} : (s.order p).isClass1 e = false ↔ classifier e.payload ≠ 1 := by
  simp [isClass1, (h.layered p hp).classifier_eq]

theorem Invariant.node_of_emitted (h : Invariant G classifier s) (hp : p ∈ G.members)
    {e : Envelope} (he : e ∈ (s.order p).emitted) :
    ∃ n ∈ (s.net p).graph.nodes.take (s.order p).received, n.envelope = e := by
  have hD := (h.layered p hp).ordered.emitted e he
  rw [← observed, h.observed_eq hp] at hD
  exact List.mem_map.mp hD

/-- A replica has emitted whatever another emits before one of its own strict operations. -/
theorem Invariant.emitted_of_precedes (h : Invariant G classifier s) (hp : p ∈ G.members)
    (hq : q ∈ G.members) {a b : Envelope} (ha : a ∈ (s.order p).strictEmitted)
    (hb : b ∈ (s.order q).strictEmitted) (hba : Precedes b a) :
    b ∈ (s.order p).strictEmitted := by
  obtain ⟨ha, hac⟩ := (h.mem_strictEmitted hp).mp ha
  obtain ⟨hb, hbc⟩ := (h.mem_strictEmitted hq).mp hb
  have hord := (h.layered p hp).ordered
  have hle : b.wave ≤ a.wave := by
    rcases hba with hlt | ⟨heq, _⟩ <;> omega
  obtain ⟨n, hn, rfl⟩ := h.node_of_emitted hq hb
  have hnm := List.mem_of_mem_take hn
  have hsender : n.envelope.sender ∈ (s.order p).membership.replicas := by
    rw [(h.layered p hp).membership_eq, Membership.replicas_ofReplicas]
    exact (h.group.own_node hq hnm rfl).1
  obtain ⟨x, hx, hxs, hxw⟩ := hord.gated a ha ((h.isClass1_eq_false hp).mpr hac) _ hsender
  rw [← observed, h.observed_eq hp] at hx
  obtain ⟨y, hy, rfl⟩ := List.mem_map.mp hx
  have hseq : n.senderSeq ≤ y.senderSeq := by
    by_contra hgt
    have hw := h.group.wave_le_of_seq_le hp hq (List.mem_of_mem_take hy) hnm hxs (by omega)
    rw [h.group.wave_eq hp (List.mem_of_mem_take hy), h.group.wave_eq hq hnm] at hw
    omega
  have hread := h.group.mem_take_of_seq_le hp hq hnm hy hxs.symm hseq
  rw [← h.observed_eq hp, observed] at hread
  refine (h.mem_strictEmitted hp).mpr ⟨?_, hbc⟩
  exact hord.complete a ha ((h.isClass1_eq_false hp).mpr hac) _ hread
    ((h.isClass1_eq_false hp).mpr hbc) hle

theorem Invariant.eq_of_seq_le (h : Invariant G classifier s) (hp : p ∈ G.members)
    (hq : q ∈ G.members) {m n : Node} (hm : m ∈ (s.net p).graph.nodes)
    (hn : n ∈ (s.net q).graph.nodes.take (s.order q).received)
    (hle : m.senderSeq ≤ n.senderSeq) (hmc : classifier m.envelope.payload ≠ 1)
    (hnc : classifier n.envelope.payload ≠ 1) (hw : m.envelope.wave = n.envelope.wave)
    (hs : m.envelope.sender = n.envelope.sender) : m.envelope = n.envelope := by
  have hread := h.group.mem_take_of_seq_le hq hp hm hn hs hle
  have hown := List.mem_map_of_mem (f := Node.envelope) hn
  rw [← h.observed_eq hq] at hread hown
  exact (h.layered q hq).ordered.single _ hread _ hown ((h.isClass1_eq_false hq).mpr hmc)
    ((h.isClass1_eq_false hq).mpr hnc) hw hs

/-- No two strict operations that anyone has emitted share a sender and a wave. -/
theorem Invariant.eq_of_sender (h : Invariant G classifier s) (hp : p ∈ G.members)
    (hq : q ∈ G.members) {a b : Envelope} (ha : a ∈ (s.order p).strictEmitted)
    (hb : b ∈ (s.order q).strictEmitted) (hw : a.wave = b.wave) (hs : a.sender = b.sender) :
    a = b := by
  obtain ⟨ha, hac⟩ := (h.mem_strictEmitted hp).mp ha
  obtain ⟨hb, hbc⟩ := (h.mem_strictEmitted hq).mp hb
  obtain ⟨m, hm, rfl⟩ := h.node_of_emitted hp ha
  obtain ⟨n, hn, rfl⟩ := h.node_of_emitted hq hb
  rcases Nat.le_total m.senderSeq n.senderSeq with hle | hle
  · exact h.eq_of_seq_le hp hq (List.mem_of_mem_take hm) hn hle hac hbc hw hs
  · exact (h.eq_of_seq_le hq hp (List.mem_of_mem_take hn) hm hle hbc hac hw.symm hs.symm).symm

theorem Invariant.prefixComparable (h : Invariant G classifier s) (hp : p ∈ G.members)
    (hq : q ∈ G.members) :
    PrefixComparable (s.order p).strictEmitted (s.order q).strictEmitted := by
  refine prefixComparable_of_sorted (R := Precedes) (fun _ _ hab => hab.asymm)
    (h.layered p hp).ordered.sorted (h.layered q hq).ordered.sorted ?_
    (fun a ha b hb => h.emitted_of_precedes hp hq ha hb)
    (fun b hb a ha => h.emitted_of_precedes hq hp hb ha)
  intro a ha b hb
  rcases Nat.lt_trichotomy a.wave b.wave with hlt | hw | hgt
  · exact Or.inr (Or.inl (Or.inl hlt))
  · by_cases hab : bySender a b
    · exact Or.inr (Or.inl (Or.inr ⟨hw, hab⟩))
    · by_cases hba : bySender b a
      · exact Or.inr (Or.inr (Or.inr ⟨hw.symm, hba⟩))
      · exact Or.inl (h.eq_of_sender hp hq ha hb hw (List.le_antisymm hba hab))
  · exact Or.inr (Or.inr (Or.inl hgt))

/-- In every run that delivers strict operations timely, any two replicas emit them in one
order, and what a replica has read of them in a wave that it has passed is emitted. -/
theorem strict_operations_agree (hs : Reach (step G) (fun s a => Fixed s a ∧ DeliveredTimely s a)
      (initial G classifier) s) (hp : p ∈ G.members) (hq : q ∈ G.members) :
    PrefixComparable (s.order p).strictEmitted (s.order q).strictEmitted ∧
      ∀ e ∈ s.observed p, classifier e.payload ≠ 1 → e.wave < (s.order p).currentWave →
        e ∈ (s.order p).emitted := by
  have h : Invariant G classifier s := hs.invariant (invariant_initial G classifier)
    fun s a t h hok hstep => h.step hok.1 hok.2 hstep
  refine ⟨h.prefixComparable hp hq, ?_⟩
  intro e he hc hw
  exact (h.layered p hp).ordered.passed e he ((h.isClass1_eq_false hp).mpr hc) hw

/-- Two strict operations in wave 1 and one in wave 2, at which both layers arrive. -/
def strictExchange : List SemAction :=
  [send [1] [7], receive [2] (message [1] [1, 0] [7]), send [2] [8], send [2] [],
    receive [1] (message [2] [1, 1] [8]), receive [1] (message [2] [1, 2] []), send [1] [9],
    receive [2] (message [1] [2, 2] [9])] ++ read [1] 4 ++ read [2] 4

theorem strict_operations_agree_exchange : ∃ s,
    execute (step twoReplicas) (fun s a => Fixed s a ∧ DeliveredTimely s a)
        (initial twoReplicas byPayload) strictExchange = some s ∧
      (s.order [1]).strictEmitted = [message [1] [1, 0] [7], message [2] [1, 1] [8]] ∧
      (s.order [1]).currentWave = 2 ∧
      PrefixComparable (s.order [1]).strictEmitted (s.order [2]).strictEmitted ∧
      ∀ e ∈ s.observed [1], byPayload e.payload ≠ 1 → e.wave < (s.order [1]).currentWave →
        e ∈ (s.order [1]).emitted := by
  have hrun : (execute (step twoReplicas) (fun s a => Fixed s a ∧ DeliveredTimely s a)
      (initial twoReplicas byPayload) strictExchange).map (fun s => decide
        ((s.order [1]).strictEmitted = [message [1] [1, 0] [7], message [2] [1, 1] [8]] ∧
          (s.order [1]).currentWave = 2)) = some true := by decide +kernel
  obtain ⟨s, he, hs, hc⟩ := reach_of_execute hrun
  obtain ⟨hout, hwave⟩ := of_decide_eq_true hc
  exact ⟨s, he, hout, hwave, strict_operations_agree hs (by decide) (by decide)⟩

/-- The first replica goes ahead to wave 3, while the second sends in wave 2 an operation
that commutes and then one that is strict. -/
def strictAfterJump : List SemAction :=
  [send [1] [], send [1] [], send [1] [7], receive [2] (message [1] [1, 0] []),
    receive [2] (message [1] [2, 0] []), send [2] [], receive [1] (message [2] [2, 1] [])] ++
  read [1] 4 ++
  [send [2] [8], receive [1] (message [2] [2, 2] [8]), receive [2] (message [1] [3, 0] [7]),
    send [2] [], send [2] [], receive [1] (message [2] [3, 3] []),
    receive [1] (message [2] [3, 4] []), send [1] []] ++
  read [1] 4 ++ read [2] 7

/-- Having heard of the first operation in wave 2 the first replica jumps to wave 3, so that
it passes over the second and emits its own strict operation alone. -/
theorem strict_operation_left_behind : ∃ s,
    Reach (step twoReplicas) Fixed (initial twoReplicas byPayload) s ∧
      ¬ PrefixComparable (s.order [1]).strictEmitted (s.order [2]).strictEmitted ∧
      ∃ e ∈ s.observed [1], byPayload e.payload ≠ 1 ∧ e.wave < (s.order [1]).currentWave ∧
        e ∉ (s.order [1]).emitted := by
  have hrun : (execute (step twoReplicas) Fixed (initial twoReplicas byPayload)
      strictAfterJump).map (fun s => decide
        (¬ PrefixComparable (s.order [1]).strictEmitted (s.order [2]).strictEmitted ∧
          ∃ e ∈ s.observed [1], byPayload e.payload ≠ 1 ∧ e.wave < (s.order [1]).currentWave ∧
            e ∉ (s.order [1]).emitted)) = some true := by decide +kernel
  obtain ⟨s, _, hs, hc⟩ := reach_of_execute hrun
  exact ⟨s, hs, of_decide_eq_true hc⟩

end SemGroup
end Comlink
