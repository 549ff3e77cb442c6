import Comlink.CausalBroadcast
import Comlink.ClockAncestry

/-!
# A conversation is a causal broadcast

The membership manager is modelled over an abstract causal broadcast, in which a message
depends on everything that its sender had handled before. Here a group of conversations over
the unreliable network is shown to be one: its runs are runs of the abstract system, with
the delivery channel of every member as the history of what it has handled.

Clocks and parents appear in the argument only. A member's own message carries a clock that
covers all it has stored, and a replica that stores a message stores everything that the
clock covers.
-/
namespace Comlink
open CausalBroadcast GuardedRuns VectorClock

namespace Group
open Conversation

variable {G : Group} {net net' : Network} {p q : ReplicaID}

/-- The clocks of a replica's own messages cover what stands before them in its graph. -/
def Covering (p : ReplicaID) (c : Conversation) : Prop :=
  c.graph.nodes.Pairwise fun a n => n.envelope.sender = p →
    a.senderSeq ≤ n.envelope.id.vectorClock.atSlot a.senderSlot

def OwnCovers (G : Group) (net : Network) : Prop := ∀ p ∈ G.members, Covering p (net p)

theorem ownCovers_start (G : Group) : G.OwnCovers G.start := by
  intro p hp
  exact List.Pairwise.nil

theorem OwnCovers.step (hc : G.OwnCovers net) (h : G.Invariant net) {act : NetAction}
    (hs : act.request.isStatic = true) (hstep : G.netStep net act = some net') :
    G.OwnCovers net' := by
  have h' := h.step hs hstep
  obtain ⟨hp, _, rfl⟩ := netStep_eq_some hstep
  obtain ⟨p, req⟩ := act
  dsimp only at hp hs h' ⊢
  have hl := h.live p hp
  have hl' : Live G.members ((net p).handle req) := hl.handle hs
  have heff := hl.effect req hs
  have hnew := fun n => h'.own_node (n := n) (q := p) hp
  simp only [Function.update_self] at hnew
  generalize (net p).handle req = c at hl' heff hnew ⊢
  have hext := heff.extends
  have hsound : c.graph.Sound (net p).membership := hl'.sound.congr hext.members.symm
  -- without a send, the nodes that a request adds are those of others
  have hsame : c.issued = (net p).issued → Covering p c := by
    intro hissued
    obtain ⟨new, hnodes⟩ := hext.nodes
    have hforeign : ∀ n ∈ new, n.envelope.sender ≠ p := by
      intro n hn hns
      have hmem : n ∈ c.graph.nodes := hnodes ▸ List.mem_append_right _ hn
      have hi := (hnew n hmem hns).2
      rw [hissued] at hi
      obtain ⟨_, m, hm, hme⟩ := h.own p hp _ hi
      obtain rfl := hsound.eq_of_envelope (hext.nodes.subset hm) hmem hme
      have hnodup := hsound.keys.of_map
      rw [← hnodes] at hnodup
      exact (List.nodup_append.mp hnodup).2.2 m hm m hn rfl
    rw [Covering, ← hnodes]
    refine List.pairwise_append.mpr ⟨hc p hp, ?_, ?_⟩
    · exact List.pairwise_of_forall_mem_list fun a _ n hn hns => absurd hns (hforeign n hn)
    · exact fun a _ n hn hns => absurd hns (hforeign n hn)
  refine forall_members_update (P := Covering) ?_ hc
  cases heff with
  | quiet hq => exact hsame hq.issued
  | @issue io payload m log henv hi hslot hlog =>
    refine List.pairwise_append.mpr ⟨hc p hp, List.pairwise_singleton _ _, ?_⟩
    intro a ha n hn _
    obtain rfl := List.mem_singleton.mp hn
    have hbelow := (h.below_currentView hp ha).trans
      (below_increment (nextEnvelope_eq_some henv).2.2)
    rw [← (hl.sound.derived a ha).seq]
    exact hbelow a.senderSlot
  | receive hm => exact hsame (hm (fun _ => True) (fun _ _ _ => trivial) trivial).issued

/-- What stands before a message in its sender's graph stands before it in every graph. -/
theorem OwnCovers.before (hc : G.OwnCovers net) (h : G.Invariant net) (hp : p ∈ G.members)
    (hq : q ∈ G.members) {n d : Node} {pre post pre' post' : List Node}
    (hown : (net q).graph.nodes = pre ++ n :: post) (hsender : n.envelope.sender = q)
    (hd : d ∈ pre) (hhere : (net p).graph.nodes = pre' ++ n :: post') : d ∈ pre' := by
  have hdq : d ∈ (net q).graph.nodes := by simp [hown, hd]
  have hnp : n ∈ (net p).graph.nodes := by simp [hhere]
  have hle : d.senderSeq ≤ n.envelope.id.vectorClock.atSlot d.senderSlot := by
    have hpair := hc q hq
    rw [Covering, hown] at hpair
    exact (List.pairwise_append.mp hpair).2.2 d hd n List.mem_cons_self hsender
  have hsq := (h.live q hq).sound
  have hsp := (h.live p hp).sound
  have hpos := (hsq.derived d hdq).seq_pos
  have hslot : (net p).membership.allReplicas[d.senderSlot]? = some d.envelope.sender := by
    rw [(h.live p hp).members_eq, ← (h.live q hq).members_eq]
    exact Membership.slotOf_getElem? (hsq.derived d hdq).slot
  obtain ⟨b, hb, hbk⟩ := Graph.has_iff.mp (hsp.entry_present hnp hslot (by omega))
  have hbs : b.envelope.sender = d.envelope.sender := congrArg Key.sender hbk
  have hbq : b.senderSeq = n.envelope.id.vectorClock.atSlot d.senderSlot :=
    congrArg Key.seq hbk
  obtain ⟨a, ha, has, haq⟩ := hsp.contiguous hb hpos (by omega)
  have hae := h.envelope_eq_of_key hp hq ha hdq (Key.ext (has.trans hbs) haq)
  obtain rfl := h.node_eq hp hq ha hdq hae
  apply hsp.mem_of_ancestor (hsp.ancestor_of_entry ha hnp _ hle) hhere
  rintro rfl
  have hnodup := hsq.keys.of_map
  rw [hown] at hnodup
  exact (List.nodup_append.mp hnodup).2.2 a hd a List.mem_cons_self rfl

/-- Causal delivery: whatever the sender of a message had delivered before it is delivered
before it everywhere. -/
theorem OwnCovers.delivered (hc : G.OwnCovers net) (h : G.Invariant net) (hp : p ∈ G.members)
    (hq : q ∈ G.members) {e d : Envelope} {pre post pre' post' : List Envelope}
    (hown : (net q).delivered = pre ++ e :: post) (hsender : e.sender = q) (hd : d ∈ pre)
    (hhere : (net p).delivered = pre' ++ e :: post') : d ∈ pre' := by
  rw [(h.live q hq).delivered] at hown
  rw [(h.live p hp).delivered] at hhere
  obtain ⟨ns, rest, hnodes, rfl, hrest⟩ := List.map_eq_append_iff.mp hown
  obtain ⟨n, ms, rfl, rfl, rfl⟩ := List.map_eq_cons_iff.mp hrest
  obtain ⟨ns', rest', hnodes', rfl, hrest'⟩ := List.map_eq_append_iff.mp hhere
  obtain ⟨n', ms', rfl, hn, rfl⟩ := List.map_eq_cons_iff.mp hrest'
  obtain rfl := h.node_eq hp hq (by simp [hnodes']) (by simp [hnodes]) hn
  obtain ⟨x, hx, rfl⟩ := List.mem_map.mp hd
  exact List.mem_map_of_mem (hc.before h hp hq hnodes hsender hx hnodes')

/-! ### The refinement -/

inductive CastAction where
  | send (p : ReplicaID) (e : Envelope)
  | handle (p : ReplicaID) (i : ℕ)

/-- The steps of the abstract broadcast. -/
def castStep (c : Cast ReplicaID Envelope) : CastAction → Option (Cast ReplicaID Envelope)
  | .send p e => some (c.send p e)
  | .handle p i => (c.handle p i).map Prod.snd

/-- What a process has handled. -/
def handledBodies (c : Cast ReplicaID Envelope) (p : ReplicaID) : List (Option Envelope) :=
  (c.handled p).map fun i => c.sent[i]?.map CastMessage.body

/-- The broadcast stands for the network when the members have handled the given logs. -/
structure Represents (G : Group) (net : Network) (log : ReplicaID → List Envelope)
    (c : Cast ReplicaID Envelope) : Prop where
  handled : ∀ p ∈ G.members, handledBodies c p = (log p).map some
  sent : ∀ m ∈ c.sent, m.sender ∈ G.members ∧ m.body.sender = m.sender ∧
    ∃ pre post, (net m.sender).delivered = pre ++ m.body :: post ∧
      ∀ j ∈ m.deps, ∃ x, c.sent[j]? = some x ∧ x.body ∈ pre
  distinct : (c.sent.map CastMessage.body).Nodup
  issued : ∀ p ∈ G.members, ∀ e ∈ (net p).issued, ∃ m ∈ c.sent, m.body = e

variable {log : ReplicaID → List Envelope} {c : Cast ReplicaID Envelope}

theorem represents_start (G : Group) : Represents G G.start (fun _ => []) .empty where
  handled _ _ := rfl
  sent _ h := by cases h
  distinct := List.nodup_nil
  issued _ _ _ h := by cases h

theorem Represents.body_inj (h : Represents G net log c) {i j : ℕ}
    {x y : CastMessage ReplicaID Envelope} (hi : c.sent[i]? = some x) (hj : c.sent[j]? = some y)
    (hb : x.body = y.body) : i = j := by
  have hlt : i < (c.sent.map CastMessage.body).length := by
    simpa using (List.getElem?_eq_some_iff.mp hi).1
  exact (List.getElem?_inj hlt h.distinct).mp (by simp [hi, hj, hb])

/-- A message is among those that a member has handled exactly when its body is in the log. -/
theorem Represents.mem_handled (h : Represents G net log c) (hp : p ∈ G.members) {i : ℕ}
    {m : CastMessage ReplicaID Envelope} (hi : c.sent[i]? = some m) :
    i ∈ c.handled p ↔ m.body ∈ log p := by
  have hlog := h.handled p hp
  constructor
  · intro hmem
    have : some m.body ∈ handledBodies c p :=
      List.mem_map.mpr ⟨i, hmem, by simp [hi]⟩
    rw [hlog] at this
    simpa using this
  · intro hmem
    have : some m.body ∈ handledBodies c p := by
      rw [hlog]
      exact List.mem_map_of_mem hmem
    obtain ⟨j, hj, hbody⟩ := List.mem_map.mp this
    obtain ⟨x, hx, hxb⟩ := Option.map_eq_some_iff.mp hbody
    rwa [h.body_inj hi hx hxb.symm]

theorem Represents.lt_of_handled (h : Represents G net log c) (hp : p ∈ G.members) {i : ℕ}
    (hi : i ∈ c.handled p) : i < c.sent.length := by
  have hmem : c.sent[i]?.map CastMessage.body ∈ handledBodies c p := List.mem_map_of_mem hi
  rw [h.handled p hp] at hmem
  obtain ⟨e, -, he⟩ := List.mem_map.mp hmem
  obtain ⟨m, hm, -⟩ := Option.map_eq_some_iff.mp he.symm
  exact (List.getElem?_eq_some_iff.mp hm).1

/-- The network moves on without a send: only its histories grow. -/
theorem Represents.advance (h : Represents G net log c)
    (hdel : ∀ q ∈ G.members, (net q).delivered <+: (net' q).delivered)
    (hissued : ∀ q ∈ G.members, (net' q).issued = (net q).issued) :
    Represents G net' log c where
  handled := h.handled
  sent m hm := by
    obtain ⟨hmember, hsender, pre, post, hsplit, hdeps⟩ := h.sent m hm
    obtain ⟨more, hmore⟩ := hdel m.sender hmember
    refine ⟨hmember, hsender, pre, post ++ more, ?_, hdeps⟩
    rw [← hmore, hsplit]
    simp
  distinct := h.distinct
  issued q hq e he := h.issued q hq e (hissued q hq ▸ he)

theorem nodup_delivered (hinv : G.Invariant net) (hp : p ∈ G.members) :
    (net p).delivered.Nodup := by
  rw [(hinv.live p hp).delivered]
  exact (hinv.live p hp).sound.nodup_envelopes

theorem issued_of_delivered (hinv : G.Invariant net) (hp : p ∈ G.members) {e : Envelope}
    (he : e ∈ (net p).delivered) : e.sender ∈ G.members ∧ e ∈ (net e.sender).issued := by
  rw [(hinv.live p hp).delivered] at he
  obtain ⟨n, hn, rfl⟩ := List.mem_map.mp he
  exact hinv.own_node hp hn rfl

theorem Represents.noteHandled (h : Represents G net log c) {i : ℕ}
    {m : CastMessage ReplicaID Envelope} (hm : c.sent[i]? = some m) :
    Represents G net (Function.update log p (log p ++ [m.body]))
      { c with handled := Function.update c.handled p (c.handled p ++ [i]) } where
  handled q hq := by
    by_cases hqp : q = p
    · subst hqp
      have hlog := h.handled q hq
      simp only [handledBodies] at hlog ⊢
      simp [hlog, hm]
    · simpa [handledBodies, hqp] using h.handled q hq
  sent := h.sent
  distinct := h.distinct
  issued := h.issued

/-- A member handles the next message of its delivery channel. -/
theorem Represents.handle (h : Represents G net log c) (hinv : G.Invariant net)
    (hc : G.OwnCovers net) (hp : p ∈ G.members) {e : Envelope} {rest : List Envelope}
    (hnext : (net p).delivered = log p ++ e :: rest) :
    ∃ i c', castStep c (.handle p i) = some c' ∧
      Represents G net (Function.update log p (log p ++ [e])) c' := by
  obtain ⟨hq, hissued⟩ := issued_of_delivered (e := e) hinv hp (by simp [hnext])
  obtain ⟨m, hm, rfl⟩ := h.issued _ hq e hissued
  obtain ⟨i, hi⟩ := List.mem_iff_getElem?.mp hm
  obtain ⟨-, hsender, pre, post, hown, hdeps⟩ := h.sent m hm
  rw [← hsender] at hown
  have hfresh : i ∉ c.handled p := by
    rw [h.mem_handled hp hi]
    intro hmem
    have hnodup := nodup_delivered hinv hp
    rw [hnext] at hnodup
    exact (List.nodup_append.mp hnodup).2.2 _ hmem _ List.mem_cons_self rfl
  have hready : ∀ j ∈ m.deps, j ∈ c.handled p := by
    intro j hj
    obtain ⟨x, hx, hpre⟩ := hdeps j hj
    rw [h.mem_handled hp hx]
    exact hc.delivered hinv hp hq hown rfl hpre hnext
  refine ⟨i, _, ?_, h.noteHandled hi⟩
  rw [castStep, Cast.handle_of_mem hi hfresh hready]
  rfl

/-- A member handles all that was pushed on its delivery channel. -/
theorem Represents.handleAll (h : Represents G net log c) (hinv : G.Invariant net)
    (hc : G.OwnCovers net) (hp : p ∈ G.members) {new : List Envelope}
    (hnew : (net p).delivered = log p ++ new) :
    ∃ c', Reach castStep (fun _ _ => True) c c' ∧
      Represents G net (Function.update log p (log p ++ new)) c' := by
  induction new generalizing log c with
  | nil => exact ⟨c, .refl, by simpa using h⟩
  | cons e new ih =>
    obtain ⟨i, c₁, hstep, h₁⟩ := h.handle hinv hc hp hnew
    obtain ⟨c', hreach, h'⟩ := ih h₁ (by simp [hnew])
    refine ⟨c', .head ⟨_, trivial, hstep⟩ hreach, ?_⟩
    simpa using h'

/-- A member issues a message, which depends on all that it has delivered. -/
theorem Represents.send (h : Represents G net log c)
    (hlog : ∀ q ∈ G.members, log q = (net q).delivered) (hinv' : G.Invariant net')
    (hp : p ∈ G.members) {e : Envelope} (hsender : e.sender = p)
    (hother : ∀ q, q ≠ p → net' q = net q)
    (hdel : (net' p).delivered = (net p).delivered ++ [e])
    (hissued : (net' p).issued = (net p).issued ++ [e]) :
    Represents G net' log (c.send p e) := by
  have hgrow : ∀ q, (net q).delivered <+: (net' q).delivered := by
    intro q
    by_cases hq : q = p
    · subst hq
      exact ⟨[e], hdel.symm⟩
    · rw [hother q hq]
  have hmine {m : CastMessage ReplicaID Envelope} (hm : m ∈ c.sent) (hs : m.sender = p) :
      m.body ∈ (net p).delivered := by
    obtain ⟨-, -, pre, post, hsplit, -⟩ := h.sent m hm
    rw [hs] at hsplit
    simp [hsplit]
  refine ⟨?_, ?_, ?_, ?_⟩
  · intro q hq
    rw [← h.handled q hq]
    apply List.map_congr_left
    intro i hi
    rw [Cast.getElem?_send (h.lt_of_handled hq hi)]
  · intro m hm
    rcases List.mem_append.mp hm with hold | hnew
    · obtain ⟨hmember, hbody, pre, post, hsplit, hdeps⟩ := h.sent m hold
      obtain ⟨more, hmore⟩ := hgrow m.sender
      refine ⟨hmember, hbody, pre, post ++ more, by rw [← hmore, hsplit]; simp, ?_⟩
      intro j hj
      obtain ⟨x, hx, hpre⟩ := hdeps j hj
      exact ⟨x, (Cast.getElem?_send (List.getElem?_eq_some_iff.mp hx).1).trans hx, hpre⟩
    · obtain rfl := List.mem_singleton.mp hnew
      refine ⟨hp, hsender, (net p).delivered, [], hdel, ?_⟩
      intro j hj
      have hlt : j < c.sent.length := List.mem_range.mp (List.mem_of_mem_filter hj)
      obtain ⟨x, hx⟩ : ∃ x, c.sent[j]? = some x := ⟨c.sent[j], List.getElem?_eq_getElem hlt⟩
      refine ⟨x, (Cast.getElem?_send hlt).trans hx, ?_⟩
      rcases (Cast.mem_known hlt).mp hj with hhandled | hown
      · rw [← hlog p hp]
        exact (h.mem_handled hp hx).mp hhandled
      · rw [hx] at hown
        exact hmine (List.mem_of_getElem? hx) (Option.some.inj hown)
  · have hfresh : e ∉ c.sent.map CastMessage.body := by
      intro hmem
      obtain ⟨m, hm, rfl⟩ := List.mem_map.mp hmem
      have hbody := (h.sent m hm).2.1
      have hnodup := nodup_delivered hinv' hp
      rw [hdel] at hnodup
      exact (List.nodup_append.mp hnodup).2.2 _ (hmine hm (hbody.symm.trans hsender)) _
        (List.mem_singleton.mpr rfl) rfl
    simp only [Cast.send, List.map_append, List.map_cons, List.map_nil]
    rw [← List.concat_eq_append]
    exact h.distinct.concat hfresh
  · intro q hq x hx
    have hold {y : Envelope} (hy : y ∈ (net q).issued) :
        ∃ m ∈ (c.send p e).sent, m.body = y := by
      obtain ⟨m, hm, hbody⟩ := h.issued q hq y hy
      exact ⟨m, List.mem_append_left _ hm, hbody⟩
    by_cases hqp : q = p
    · subst hqp
      rw [hissued] at hx
      rcases List.mem_append.mp hx with hmem | hmem
      · exact hold hmem
      · obtain rfl := List.mem_singleton.mp hmem
        exact ⟨_, List.mem_append_right _ (List.mem_singleton.mpr rfl), rfl⟩
    · rw [hother q hqp] at hx
      exact hold hx

/-- The state of the network, seen as the state of a broadcast. -/
structure Broadcasts (G : Group) (net : Network) : Prop where
  invariant : G.Invariant net
  covers : G.OwnCovers net
  run : ∃ c, Reach castStep (fun _ _ => True) .empty c ∧
    Represents G net (fun p => (net p).delivered) c

theorem broadcasts_start (G : Group) : G.Broadcasts G.start where
  invariant := invariant_start G
  covers := ownCovers_start G
  run := ⟨.empty, .refl, represents_start G⟩

theorem update_delivered {x : Conversation} :
    (fun q => (Function.update net p x q).delivered) =
      Function.update (fun q => (net q).delivered) p x.delivered := by
  funext q
  by_cases hq : q = p
  · subst hq
    simp
  · simp [hq]

theorem Broadcasts.step (h : G.Broadcasts net) {act : NetAction}
    (hs : act.request.isStatic = true) (hstep : G.netStep net act = some net') :
    G.Broadcasts net' := by
  have hinv' := h.invariant.step hs hstep
  have hcovers' := h.covers.step h.invariant hs hstep
  refine ⟨hinv', hcovers', ?_⟩
  obtain ⟨c, hreach, hrep⟩ := h.run
  obtain ⟨hp, -, rfl⟩ := netStep_eq_some hstep
  obtain ⟨p, req⟩ := act
  dsimp only at hp hs hinv' hcovers' ⊢
  have heff := (h.invariant.live p hp).effect req hs
  have hself := h.invariant.self p hp
  generalize (net p).handle req = x at heff hinv' hcovers' ⊢
  have hext := heff.extends
  obtain ⟨new, hnew⟩ := hext.delivered
  have hsame : x.issued = (net p).issued → ∃ c', Reach castStep (fun _ _ => True) .empty c' ∧
      Represents G (Function.update net p x)
        (fun q => (Function.update net p x q).delivered) c' := by
    intro hissued
    have hadv : Represents G (Function.update net p x) (fun q => (net q).delivered) c := by
      apply hrep.advance
      · intro q _
        by_cases hq : q = p
        · subst hq
          simpa using hext.delivered
        · simp [hq]
      · intro q _
        by_cases hq : q = p
        · subst hq
          simpa using hissued
        · simp [hq]
    obtain ⟨c', hmore, hrep'⟩ := hadv.handleAll hinv' hcovers' hp
      (show _ = _ ++ new by simpa using hnew.symm)
    rw [hnew] at hrep'
    exact ⟨c', hreach.trans hmore, update_delivered ▸ hrep'⟩
  cases heff with
  | quiet hq => exact hsame hq.issued
  | @issue io payload n log henv hi hslot hlog =>
    have hsender : n.envelope.sender = p := by
      rw [Envelope.sender, (nextEnvelope_eq_some henv).2.1, hself]
      rfl
    have hsent := hrep.send (fun _ _ => rfl) hinv' hp hsender
      (fun q hq => by simp [hq]) (by simp [broadcastEnvelope]) (by simp [broadcastEnvelope])
    obtain ⟨i, c', hhandle, hrep'⟩ := hsent.handle hinv' hcovers' hp
      (show _ = _ ++ n.envelope :: [] by simp [broadcastEnvelope])
    refine ⟨c', hreach.tail ⟨.send p n.envelope, trivial, rfl⟩ |>.tail
      ⟨.handle p i, trivial, hhandle⟩, ?_⟩
    rw [update_delivered]
    exact hrep'
  | receive hm => exact hsame (hm (fun _ => True) (fun _ _ _ => trivial) trivial).issued

/-- Every run of a group with a fixed member list is a run of the abstract broadcast, in
which the members handle just what they deliver. -/
theorem conversation_is_causal_broadcast
    (hr : Reach G.netStep (fun _ act => act.request.isStatic = true) G.start net) :
    ∃ c, Reach castStep (fun _ _ => True) .empty c ∧
      (∀ p ∈ G.members, handledBodies c p = (net p).delivered.map some) ∧
      (∀ m ∈ c.sent, m.sender ∈ G.members ∧ m.body ∈ (net m.sender).issued) ∧
      ∀ p ∈ G.members, ∀ e ∈ (net p).issued, ∃ m ∈ c.sent, m.body = e := by
  have h : G.Broadcasts net := by
    apply hr.invariant (broadcasts_start G)
    intro s a t hs ha hstep
    exact hs.step ha hstep
  obtain ⟨c, hreach, hrep⟩ := h.run
  refine ⟨c, hreach, hrep.handled, ?_, hrep.issued⟩
  intro m hm
  obtain ⟨hmember, hbody, pre, post, hsplit, -⟩ := hrep.sent m hm
  have hissued := (issued_of_delivered (e := m.body) h.invariant hmember (by simp [hsplit])).2
  rw [hbody] at hissued
  exact ⟨hmember, hissued⟩

/-- The third member gets an answer before the question. -/
def answerFirst : List NetAction :=
  let question : Envelope := ⟨⟨some [0], some [1], [1, 0, 0]⟩, [5]⟩
  let answer : Envelope := ⟨⟨some [0], some [2], [1, 1, 0]⟩, [6]⟩
  [⟨[1], .send .standard [5]⟩, ⟨[2], .incoming .standard [1] (.envelope question)⟩,
    ⟨[2], .send .standard [6]⟩, ⟨[3], .incoming .standard [2] (.envelope answer)⟩,
    ⟨[3], .incoming .standard [1] (.envelope question)⟩]

theorem conversation_is_causal_broadcast_answerFirst : ∃ net c,
    Reach (netStep ⟨[0], [[1], [2], [3]]⟩) (fun _ act => act.request.isStatic = true)
      (start ⟨[0], [[1], [2], [3]]⟩) net ∧
    (net [3]).delivered.map Envelope.payload = [[5], [6]] ∧
    Reach castStep (fun _ _ => True) .empty c ∧
    handledBodies c [3] = (net [3]).delivered.map some := by
  have hrun : (execute (netStep ⟨[0], [[1], [2], [3]]⟩)
      (fun _ act => act.request.isStatic = true) (start ⟨[0], [[1], [2], [3]]⟩)
      answerFirst).map (fun net =>
        decide ((net [3]).delivered.map Envelope.payload = [[5], [6]])) = some true := by
    decide +kernel
  obtain ⟨net, -, hr, hdel⟩ := reach_of_execute hrun
  obtain ⟨c, hreach, hhandled, -⟩ := conversation_is_causal_broadcast hr
  exact ⟨net, c, hr, of_decide_eq_true hdel, hreach, hhandled [3] (by simp)⟩

end Group
end Comlink
