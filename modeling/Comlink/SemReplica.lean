import Comlink.CausalDelivery
import Comlink.SemOrderRounds
import Comlink.StrictOperations

/-!
# The semantic order layer over one conversation

A conversation and the layer that reads its delivery channel. The layer may be built over
a conversation that has been running for a while, and it keeps the membership of that
moment, whatever happens to the membership of the conversation. So it has a key for an
envelope only if its sender was a member then, and passes over all others.
-/
namespace Comlink

structure SemReplica where
  conv : Conversation
  order : SemOrder

inductive SemReplicaAction where
  | serve (a : Conversation.ServerStep)
  | pump (ch : SemChoices)

namespace Membership

/-- Every slot of `m` is the same in `m'`. -/
def Within (m m' : Membership) : Prop := ∀ r i, m.slotOf r = some i → m'.slotOf r = some i

theorem Within.keyOf {m m' : Membership} (h : m.Within m') {env : Envelope} {k : Key}
    (hk : m.keyOf env = some k) : m'.keyOf env = some k := by
  obtain ⟨slot, hslot, hlt, heq⟩ := keyOf_eq_some_iff.mp hk
  exact keyOf_eq_some_iff.mpr ⟨slot, h _ _ hslot, hlt, heq⟩

theorem Within.of_allReplicas_eq {m m' : Membership} (h : m'.allReplicas = m.allReplicas) :
    m.Within m' := by
  intro r i hr
  rw [slotOf, h]
  exact hr

end Membership

namespace Conversation

variable {c c' : Conversation} {a : ServerStep}

/-- The delivery channel carries nodes of the graph, in the order of their insertion; a
replay that `Restart` asks for inserts nodes that never come through it. -/
def Channel (c : Conversation) : Prop :=
  ∃ ns : List Node, ns.Sublist c.graph.nodes ∧ c.delivered = ns.map Node.envelope

theorem Channel.append (h : Channel c) {ns : List Node}
    (hg : c'.graph.nodes = c.graph.nodes ++ ns)
    (hd : c'.delivered = c.delivered ++ ns.map Node.envelope) : Channel c' := by
  obtain ⟨ms, hms, heq⟩ := h
  refine ⟨ms ++ ns, ?_, ?_⟩
  · rw [hg]
    exact hms.append (List.Sublist.refl ns)
  · rw [hd, heq, List.map_append]

theorem Channel.moves {io : HandlerChoices} {E : Envelope → Prop} (h : Channel c)
    (hm : Moves io E c c') : Channel c' := by
  induction hm with
  | refl => exact h
  | tail _ hm ih =>
    cases hm with
    | bookkeeping hb =>
      rw [hb.frame]
      exact ih
    | accept he hs hi =>
      obtain ⟨rfl, rfl, _, _, _⟩ := Graph.insert_ok hi
      exact ih.append rfl rfl

/-- Graph, channel and slots after a step of the server. -/
structure Advances (c c' : Conversation) : Prop where
  nodes : c.graph.nodes <+: c'.graph.nodes
  delivered : c.delivered <+: c'.delivered
  within : c.membership.Within c'.membership

theorem Channel.serve (h : Channel c) (hseat : Seated c.membership.allReplicas c)
    (hs : c.serve a = some c') : Channel c' ∧ Advances c c' := by
  have hserved := hseat.served hs
  cases hserved with
  | quiet hq ht =>
    refine ⟨?_, by rw [hq.graph], by rw [hq.delivered], .of_allReplicas_eq hq.members⟩
    rw [Channel, hq.graph, hq.delivered]
    exact h
  | joined hm =>
    exact ⟨h, List.prefix_rfl, List.prefix_rfl, fun _ _ hr => Membership.slotOf_add hm hr⟩
  | issued henv hi hslot =>
    exact ⟨h.append rfl rfl, List.prefix_append _ _, List.prefix_append _ _,
      .of_allReplicas_eq rfl⟩
  | replayed ha hsound hlog =>
    rcases ha with rfl | rfl
    · obtain ⟨ns, heq, -, -⟩ := handleReplay_eq hseat.sound
      rw [Conversation.serve, heq] at hs
      rw [← Option.some.inj hs]
      obtain ⟨ms, hms, hd⟩ := h
      exact ⟨⟨ms, hms.trans (List.sublist_append_left _ _), hd⟩, List.prefix_append _ _,
        List.prefix_rfl, .of_allReplicas_eq rfl⟩
    · obtain ⟨ns, heq, -, -⟩ := replayLog_eq hseat.sound
      rw [Conversation.serve, handle, heq] at hs
      rw [← Option.some.inj hs]
      exact ⟨h.append rfl rfl, List.prefix_append _ _, List.prefix_append _ _,
        .of_allReplicas_eq rfl⟩
  | received io origin env =>
    have hm := moves_incoming c io origin env
    have hext := Moves.extends hm
    exact ⟨h.moves hm, hext.nodes, hext.delivered, .of_allReplicas_eq hext.members⟩

/-- No key comes through the channel twice. -/
theorem Channel.nodup_keyOf (h : Channel c) (hs : c.graph.Sound c.membership) :
    (c.delivered.map c.membership.keyOf).Nodup := by
  obtain ⟨ns, hsub, hd⟩ := h
  have hkeys : c.delivered.map c.membership.keyOf = (ns.map Node.key).map some := by
    rw [hd, List.map_map, List.map_map]
    exact List.map_congr_left fun n hn => (hs.derived n (hsub.subset hn)).keyOf
  rw [hkeys]
  exact (hs.keys.sublist (hsub.map Node.key)).map fun _ _ => Option.some.inj

theorem channel_of_reach {convID : ConversationID} {self : ReplicaID}
    {members mask : List ReplicaID} {log : MessageLog} {c₀ : Conversation}
    (hnew : new convID self members mask log = some c₀)
    (hr : GuardedRuns.Reach Conversation.serve (fun _ _ => True) c₀ c) :
    Seated c.membership.allReplicas c ∧ Channel c := by
  refine hr.invariant (P := fun c => Seated c.membership.allReplicas c ∧ Channel c) ?_ ?_
  · refine ⟨seated_new hnew, [], List.nil_sublist _, ?_⟩
    obtain ⟨slot, _, rfl⟩ := Option.map_eq_some_iff.mp hnew
    rfl
  · rintro c a c' ⟨hseat, hc⟩ - hs
    exact ⟨hseat.serve (hseat.served hs), (hc.serve hseat hs).1⟩

end Conversation

namespace SemReplica
open Conversation SemOrder

variable {s t : SemReplica} {env : Envelope}

def step (s : SemReplica) : SemReplicaAction → Option SemReplica
  | .serve a => (s.conv.serve a).map fun c => { s with conv := c }
  | .pump ch => (s.order.pump s.conv ch).map fun o => { s with order := o }

/-- `NewSemOrder` over a running conversation. -/
def build (classifier : List UInt8 → ℤ) (c : Conversation) : SemReplica :=
  ⟨c, .new classifier c.membership⟩

/-- What the pump reads next. -/
def next (s : SemReplica) : Option Envelope := s.conv.delivered[s.order.received]?

/-- What the pump has read and has a key for. -/
def noted (s : SemReplica) : List Envelope :=
  (s.conv.delivered.take s.order.received).filter fun e => (s.order.membership.keyOf e).isSome

structure Layered (s : SemReplica) : Prop where
  seated : Seated s.conv.membership.allReplicas s.conv
  channel : Channel s.conv
  within : s.order.membership.Within s.conv.membership
  received_le : s.order.received ≤ s.conv.delivered.length
  sees : Sees s.noted s.order

theorem layered_build {c : Conversation} (hseat : Seated c.membership.allReplicas c)
    (hc : Channel c) (classifier : List UInt8 → ℤ) : Layered (build classifier c) :=
  ⟨hseat, hc, fun _ _ h => h, Nat.zero_le _, sees_new classifier c.membership⟩

theorem Layered.noted_serve (h : Layered s) {a : ServerStep} {c : Conversation}
    (hs : s.conv.serve a = some c) : noted { s with conv := c } = s.noted := by
  obtain ⟨rest, hrest⟩ := (h.channel.serve h.seated hs).2.delivered
  rw [noted, ← hrest, List.take_append_of_le_length h.received_le]
  rfl

theorem Layered.serve (h : Layered s) {a : ServerStep} {c : Conversation}
    (hs : s.conv.serve a = some c) : Layered { s with conv := c } := by
  obtain ⟨hchannel, hadv⟩ := h.channel.serve h.seated hs
  refine ⟨h.seated.serve (h.seated.served hs), hchannel,
    fun r i hr => hadv.within r i (h.within r i hr),
    h.received_le.trans hadv.delivered.length_le, ?_⟩
  rw [h.noted_serve hs]
  exact h.sees

/-- The key of what is read next is new to the layer. -/
theorem Layered.key_ne (h : Layered s) (hn : s.next = some env) {k : Key}
    (hk : s.order.membership.keyOf env = some k) :
    ∀ e ∈ s.noted, s.order.membership.keyOf e ≠ some k := by
  intro e he hek
  have hnodup := h.channel.nodup_keyOf h.seated.sound
  obtain ⟨i, hi, hget⟩ := List.mem_take_iff_getElem.mp (List.mem_filter.mp he).1
  have hlt := (List.getElem?_eq_some_iff.mp hn).1
  refine List.nodup_iff_getElem?_ne_getElem?.mp hnodup i s.order.received (by omega)
    (by simpa using hlt) ?_
  have hfirst : s.conv.delivered[i]? = some e := List.getElem?_eq_some_iff.mpr ⟨by omega, hget⟩
  have hsecond : s.conv.delivered[s.order.received]? = some env := hn
  rw [List.getElem?_map, List.getElem?_map, hfirst, hsecond, Option.map_some, Option.map_some,
    h.within.keyOf hek, h.within.keyOf hk]

/-- The tables after `observe` hold what has been read, and the next envelope. -/
theorem Layered.observed (h : Layered s) (hn : s.next = some env) :
    Sees (s.noted ++ [env].filter fun e => (s.order.membership.keyOf e).isSome)
      (s.order.observe env) := by
  cases hk : s.order.membership.keyOf env with
  | none =>
    have hseq : s.order.membership.senderSeq env.id = none := Option.map_eq_none_iff.mp hk
    rw [observe, hseq]
    simpa [hk] using h.sees
  | some k => simpa [hk] using h.sees.observe hk (h.key_ne hn hk)

theorem noted_pump {ch : SemChoices} {o : SemOrder} (hn : s.next = some env)
    (ho : s.order.pump s.conv ch = some o) : noted { s with order := o } =
      s.noted ++ [env].filter fun e => (s.order.membership.keyOf e).isSome := by
  obtain ⟨-, hm, hr⟩ := pump_kept ho
  have henv : s.conv.delivered[s.order.received]? = some env := hn
  rw [noted, noted, hm, hr, List.take_add_one, henv, Option.toList_some, List.filter_append]

theorem Layered.pump (h : Layered s) {ch : SemChoices} {o : SemOrder}
    (ho : s.order.pump s.conv ch = some o) : Layered { s with order := o } := by
  obtain ⟨env, henv, hmoves⟩ := pump_moves ho
  obtain ⟨-, hm, hr⟩ := pump_kept ho
  have hn : s.next = some env := henv
  refine ⟨h.seated, h.channel, ?_, ?_, ?_⟩
  · rw [hm]
    exact h.within
  · have hlt := (List.getElem?_eq_some_iff.mp henv).1
    dsimp only
    omega
  · rw [noted_pump hn ho]
    exact ((h.observed hn).received _).moves hmoves

theorem Layered.step (h : Layered s) {a : SemReplicaAction} (hs : step s a = some t) :
    Layered t := by
  cases a with
  | serve a =>
    obtain ⟨c, hc, rfl⟩ := Option.map_eq_some_iff.mp hs
    exact h.serve hc
  | pump ch =>
    obtain ⟨o, ho, rfl⟩ := Option.map_eq_some_iff.mp hs
    exact h.pump ho

section Scripts

/-- The broadcast of `m` arrives from its sender. -/
def arrives (m : Envelope) : SemReplicaAction :=
  .serve (.request (.incoming .standard m.sender (.envelope m)))

def reads (n : ℕ) : List SemReplicaAction := List.replicate n (.pump .standard)

end Scripts

end SemReplica
end Comlink
