import Comlink.TotalOrder

/-!
# A group of replicas under the total order layer

Every member runs a conversation and a total order pump over it, and the steps of all
of them interleave freely. The member list is fixed; `Static` runs may freeze slots,
`Fixed` runs leave every slot as it is.
-/
namespace Comlink
open GuardedRuns

structure TotalGroup where
  net : Network
  total : ReplicaID → Total

inductive TotalAction where
  | net (a : NetAction)
  | pump (p : ReplicaID) (a : PumpAction)

namespace TotalGroup
open Conversation

variable {G : Group} {s t : TotalGroup} {p q : ReplicaID}

def initial (G : Group) : TotalGroup := ⟨G.start, fun _ => Total.new⟩

def step (G : Group) (s : TotalGroup) : TotalAction → Option TotalGroup
  | .net a => (G.netStep s.net a).map fun net => { s with net := net }
  | .pump p a =>
    if p ∈ G.members then
      ((s.total p).pump (s.net p) a).map fun t => { s with total := Function.update s.total p t }
    else none

/-- The member list stays as it was configured. -/
def Static (_ : TotalGroup) : TotalAction → Prop
  | .net a => a.request.isStatic = true
  | .pump _ _ => True

/-- The member list stays as it was configured and no slot is frozen. -/
def Fixed (_ : TotalGroup) : TotalAction → Prop
  | .net a => a.request.isFixed = true
  | .pump _ _ => True

instance (s : TotalGroup) (a : TotalAction) : Decidable (Static s a) :=
  match a with
  | .net a => inferInstanceAs (Decidable (a.request.isStatic = true))
  | .pump _ _ => isTrue trivial

instance (s : TotalGroup) (a : TotalAction) : Decidable (Fixed s a) :=
  match a with
  | .net a => inferInstanceAs (Decidable (a.request.isFixed = true))
  | .pump _ _ => isTrue trivial

/-- The wave that a replica's pump drains next, as its conversation now holds it. -/
def bucket (s : TotalGroup) (p : ReplicaID) : List Node :=
  (s.net p).graph.messagesInWave (s.total p).nextWave

section Scripts

/-- The message with an empty payload that `p` stamps with `clock`. -/
def message (p : ReplicaID) (clock : VectorClock) : Envelope := ⟨⟨some [0], some p, clock⟩, []⟩

def send (p : ReplicaID) : TotalAction := .net ⟨p, .send .standard []⟩

/-- The sender's own broadcast of `m` arrives at `p`. -/
def receive (p : ReplicaID) (m : Envelope) : TotalAction :=
  .net ⟨p, .incoming .standard m.sender (.envelope m)⟩

/-- The pump reads one delivery and asks whether the next wave can be drained. -/
def observe (p : ReplicaID) : List TotalAction :=
  [.pump p .recv, .pump p .waveComplete, .pump p .membership]

/-- The pump fetches a wave, emits its messages and advances. -/
def drain (p : ReplicaID) (sorted : List Envelope) : List TotalAction :=
  .pump p (.messagesInWave sorted) :: List.replicate (sorted.length + 1) (.pump p .emit)

end Scripts

theorem static_of_fixed {a : TotalAction} (h : Fixed s a) : Static s a := by
  cases a with
  | net a => exact Request.isStatic_of_isFixed h
  | pump p a => trivial

theorem step_net {a : NetAction} (h : step G s (.net a) = some t) :
    ∃ net, G.netStep s.net a = some net ∧ t = ⟨net, s.total⟩ := by
  obtain ⟨net, hnet, rfl⟩ := Option.map_eq_some_iff.mp h
  exact ⟨net, hnet, rfl⟩

theorem step_pump {a : PumpAction} (h : step G s (.pump p a) = some t) :
    p ∈ G.members ∧ ∃ t', (s.total p).pump (s.net p) a = some t' ∧
      t = ⟨s.net, Function.update s.total p t'⟩ := by
  rw [step] at h
  split at h
  · rename_i hp
    obtain ⟨t', ht', rfl⟩ := Option.map_eq_some_iff.mp h
    exact ⟨hp, t', ht', rfl⟩
  · cases h

structure Invariant (G : Group) (s : TotalGroup) : Prop where
  group : G.Invariant s.net
  total : ∀ p ∈ G.members, Total.Invariant (s.net p) (s.total p)

theorem invariant_initial (G : Group) : Invariant G (initial G) :=
  ⟨Group.invariant_start G, fun _ _ => Total.invariant_new _⟩

/-- Nothing arrives late: a message of a wave that its sender has left was here before. -/
theorem no_late_arrival {net net' : Network} (hi : G.Invariant net) (h : G.Invariant net')
    (hlater : G.Later net net') (hp : p ∈ G.members) {n x : Node}
    (hn : n ∈ (net' p).graph.nodes) (hx : x ∈ (net p).graph.nodes)
    (hs : x.envelope.sender = n.envelope.sender) (hw : n.wave < x.wave) :
    ∃ a ∈ (net p).graph.nodes, a.envelope = n.envelope ∧ a.wave = n.wave := by
  obtain ⟨hq, hissued⟩ := h.own_node hp hn rfl
  rw [h.wave_eq hp hn] at hw
  obtain ⟨a, ha, hae⟩ := hi.present_of_wave_lt h hlater hp hq hx hs hissued hw
  refine ⟨a, ha, hae, ?_⟩
  rw [hi.wave_eq hp ha, h.wave_eq hp hn, hae]

theorem Invariant.step (h : Invariant G s) {a : TotalAction} (hs : Static s a)
    (hstep : step G s a = some t) : Invariant G t ∧ G.Later s.net t.net := by
  cases a with
  | net a =>
    obtain ⟨net, hnet, rfl⟩ := step_net hstep
    have hinv := h.group.step hs hnet
    have hlater := h.group.later_step hs hnet
    refine ⟨⟨hinv, ?_⟩, hlater⟩
    intro p hp
    exact (h.total p hp).grow (hlater p hp) fun n hn x hx hxs hw =>
      no_late_arrival h.group hinv hlater hp hn hx hxs hw
  | pump p a =>
    obtain ⟨hp, t', ht', rfl⟩ := step_pump hstep
    refine ⟨⟨h.group, ?_⟩, Group.Later.refl G _⟩
    intro q hq
    by_cases hqp : q = p
    · subst hqp
      simp only [Function.update_self]
      exact (h.total q hq).pump (h.group.live q hq) ht'
    · simp only [Function.update_of_ne hqp]
      exact h.total q hq

/-- What holds in every state of a static run, and between any two of them. -/
theorem Invariant.reach (h : Invariant G s) (hr : Reach (TotalGroup.step G) Static s t) :
    Invariant G t ∧ G.Later s.net t.net := by
  refine hr.relation (R := fun s t => Invariant G s → Invariant G t ∧ G.Later s.net t.net)
    ?_ ?_ ?_ h
  · exact fun s h => ⟨h, Group.Later.refl G _⟩
  · intro a b c hab hbc ha
    obtain ⟨hb, hl⟩ := hab ha
    obtain ⟨hc, hl'⟩ := hbc hb
    exact ⟨hc, hl.trans hl'⟩
  · exact fun s a t hs hstep hi => hi.step hs hstep

/-- No slot is frozen in the view of any member. -/
def Unfrozen (G : Group) (s : TotalGroup) : Prop :=
  ∀ p ∈ G.members, (s.net p).membership = Membership.ofReplicas G.members

theorem unfrozen_initial (G : Group) : Unfrozen G (initial G) := fun _ _ => rfl

theorem Unfrozen.active (h : Unfrozen G s) (hp : p ∈ G.members) (hq : q ∈ G.members) :
    (s.net p).Active q := by
  refine ⟨⟨q, false⟩, ?_, rfl, rfl⟩
  rw [h p hp]
  exact List.mem_map_of_mem hq

theorem Unfrozen.step (hu : Unfrozen G s) {a : TotalAction}
    (hs : Fixed s a) (hstep : TotalGroup.step G s a = some t) : Unfrozen G t := by
  cases a with
  | net a =>
    obtain ⟨net, hnet, rfl⟩ := step_net hstep
    obtain ⟨hp, _, rfl⟩ := Group.netStep_eq_some hnet
    refine Group.forall_members_update
      (P := fun _ (c : Conversation) => c.membership = Membership.ofReplicas G.members) ?_ hu
    exact (Conversation.membership_handle hs).trans (hu _ hp)
  | pump p a =>
    obtain ⟨_, _, _, rfl⟩ := step_pump hstep
    exact hu

/-- The invariants of runs in which no slot is ever frozen. -/
theorem reach_fixed (hr : Reach (step G) Fixed (initial G) t) :
    Reach (step G) Static (initial G) t ∧ Invariant G t ∧ Unfrozen G t :=
  hr.strengthen (P := fun s => Invariant G s ∧ Unfrozen G s)
    ⟨invariant_initial G, unfrozen_initial G⟩
    (fun _ _ _ h hs hstep =>
      ⟨(h.1.step (static_of_fixed hs) hstep).1, h.2.step hs hstep⟩)
    (fun _ _ _ hs => static_of_fixed hs)

end TotalGroup
end Comlink
