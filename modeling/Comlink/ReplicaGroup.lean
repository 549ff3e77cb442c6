import Comlink.ConversationLive
import Comlink.GuardedRuns
import Mathlib.Logic.Function.Basic

/-!
# A group of replicas over an unreliable network

Every member of a fixed list runs one conversation. A packet that was once handed to
the network may arrive at its destination at any later time, any number of times or
never. No replica restarts, so that each keeps the histories of its construction.

The invariant says that no envelope is ever made up: whatever a replica stores,
defers or transmits was issued by the member it names as its sender, and the
envelopes of one member carry growing clocks.
-/
namespace Comlink
open VectorClock

structure Group where
  convID : ConversationID
  members : List ReplicaID

abbrev Network := ReplicaID → Conversation

structure NetAction where
  replica : ReplicaID
  request : Conversation.Request

namespace Group
open Conversation

variable {G : Group} {net net' : Network} {p q : ReplicaID}

def slot (G : Group) (p : ReplicaID) : Option ℕ := (Membership.ofReplicas G.members).slotOf p

/-- The conversation that `New` gives a member over an empty log and mask. -/
def start (G : Group) (p : ReplicaID) : Conversation :=
  Conversation.init G.convID p ((G.slot p).getD 0) G.members [] .empty

/-- A frame arrives only if its origin once sent it to the replica. -/
def Deliverable (G : Group) (net : Network) (p : ReplicaID) : Request → Prop
  | .incoming _ origin frame => origin ∈ G.members ∧ ⟨origin, p, frame⟩ ∈ (net origin).outbox
  | _ => True

instance (G : Group) (net : Network) (p : ReplicaID) (req : Request) :
    Decidable (G.Deliverable net p req) :=
  match req with
  | .incoming _ _ _ => inferInstanceAs (Decidable (_ ∧ _))
  | .send _ _ | .maskout _ | .maskin _ | .replayLog | .freezeMember _ | .addMember _
  | .requestMissing _ | .truncateLog _ => isTrue trivial

def netStep (G : Group) (net : Network) (a : NetAction) : Option Network :=
  if a.replica ∈ G.members ∧ G.Deliverable net a.replica a.request then
    some (Function.update net a.replica ((net a.replica).handle a.request))
  else none

theorem netStep_eq_some {a : NetAction} (h : G.netStep net a = some net') :
    a.replica ∈ G.members ∧ G.Deliverable net a.replica a.request ∧
      net' = Function.update net a.replica ((net a.replica).handle a.request) := by
  unfold netStep at h
  split at h
  · rename_i hg
    exact ⟨hg.1, hg.2, (Option.some.inj h).symm⟩
  · cases h

/-- Some member has issued the envelope under its own name. -/
def Issued (G : Group) (net : Network) (e : Envelope) : Prop :=
  ∃ q ∈ G.members, e.id.sender = some q ∧ e ∈ (net q).issued

/-- The envelope is stored, deferred or was sent at a replica. -/
def Held (c : Conversation) (e : Envelope) : Prop :=
  (∃ n ∈ c.graph.nodes, n.envelope = e) ∨ (∃ k pe, c.deferred.lookup k = some pe ∧ pe.env = e) ∨
    ∃ pkt ∈ c.outbox, pkt.frame = .envelope e

/-- A member issues a later envelope with a larger clock and sequence number. -/
def IssuedBefore (slot : ℕ) (a b : Envelope) : Prop :=
  Below a.id.vectorClock b.id.vectorClock ∧
    a.id.vectorClock.atSlot slot < b.id.vectorClock.atSlot slot

structure Invariant (G : Group) (net : Network) : Prop where
  live : ∀ p ∈ G.members, Live G.members (net p)
  self : ∀ p ∈ G.members, (net p).self = p
  held : ∀ p ∈ G.members, ∀ e, Held (net p) e → G.Issued net e
  own : ∀ p ∈ G.members, ∀ e ∈ (net p).issued, e.id.sender = some p ∧
    ∃ n ∈ (net p).graph.nodes, n.envelope = e
  ordered : ∀ p ∈ G.members, (net p).issued.Pairwise (IssuedBefore (net p).selfSlot)

theorem slot_start (hp : p ∈ G.members) :
    (Membership.ofReplicas G.members).slotOf p = some ((G.slot p).getD 0) := by
  have hex : ∃ i, G.slot p = some i := by
    apply Membership.slotOf_isSome_iff.mpr
    simpa using hp
  obtain ⟨i, hi⟩ := hex
  rw [hi]
  exact hi

theorem new_eq_start (hp : p ∈ G.members) :
    Conversation.new G.convID p G.members [] .empty = some (G.start p) := by
  rw [Conversation.new, slot_start hp]
  rfl

theorem invariant_start (G : Group) : G.Invariant G.start := by
  refine ⟨fun p hp => live_init (slot_start hp), fun _ _ => rfl, ?_, ?_, ?_⟩
  · rintro p hp e (⟨n, hn, _⟩ | ⟨k, pe, hl, _⟩ | ⟨pkt, hpkt, _⟩)
    · cases hn
    · cases hl
    · cases hpkt
  · intro p hp e he
    cases he
  · intro p hp
    exact List.Pairwise.nil

theorem Issued.update {e : Envelope} {c : Conversation} (h : G.Issued net e)
    (hc : ∀ e ∈ (net p).issued, e ∈ c.issued) : G.Issued (Function.update net p c) e := by
  obtain ⟨q, hq, hs, he⟩ := h
  refine ⟨q, hq, hs, ?_⟩
  by_cases hqp : q = p
  · subst hqp
    simpa using hc e he
  · simpa [hqp] using he

theorem forall_members_update {α : Type} {P : ReplicaID → α → Prop} {f : ReplicaID → α} {x : α}
    (hx : P p x) (h : ∀ q ∈ G.members, P q (f q)) :
    ∀ q ∈ G.members, P q (Function.update f p x q) :=
  GuardedRuns.forall_mem_update h fun _ => hx

/-- The invariant survives a change of one replica that keeps its own part. -/
theorem Invariant.update (h : G.Invariant net) (hp : p ∈ G.members) {c : Conversation}
    (hl : Live G.members c) (he : Extends (net p) c)
    (hheld : ∀ e, Held c e → Held (net p) e ∨ G.Issued net e ∨ e ∈ c.issued)
    (hown : ∀ e ∈ c.issued, e.id.sender = some p ∧ ∃ n ∈ c.graph.nodes, n.envelope = e)
    (hord : c.issued.Pairwise (IssuedBefore c.selfSlot)) :
    G.Invariant (Function.update net p c) := by
  have hissued : ∀ e, G.Issued net e → G.Issued (Function.update net p c) e :=
    fun e hi => hi.update (fun a ha => he.issued.subset ha)
  have hheld' : ∀ e, Held c e → G.Issued (Function.update net p c) e := by
    intro e hh
    rcases hheld e hh with hh | hh | hh
    · exact hissued e (h.held p hp e hh)
    · exact hissued e hh
    · exact ⟨p, hp, (hown e hh).1, by rwa [Function.update_self]⟩
  refine ⟨?_, ?_, ?_, ?_, ?_⟩
  · exact forall_members_update (P := fun _ (c : Conversation) => Live G.members c) hl h.live
  · exact forall_members_update (P := fun q (c : Conversation) => c.self = q)
      (he.self.trans (h.self p hp)) h.self
  · exact forall_members_update
      (P := fun _ c' => ∀ e, Held c' e → G.Issued (Function.update net p c) e) hheld'
      (fun q hq e hh => hissued e (h.held q hq e hh))
  · exact forall_members_update (P := fun q (c : Conversation) => ∀ e ∈ c.issued,
      e.id.sender = some q ∧ ∃ n ∈ c.graph.nodes, n.envelope = e) hown h.own
  · exact forall_members_update
      (P := fun _ (c : Conversation) => c.issued.Pairwise (IssuedBefore c.selfSlot)) hord h.ordered

theorem held_of_frame (h : G.Invariant net) (hp : p ∈ G.members) {f : LogFrame}
    (hf : f ∈ (net p).log.frames) : Held (net p) f.envelope := by
  obtain ⟨n, hn, rfl⟩ := List.mem_map.mp ((h.live p hp).logged.subset hf)
  exact Or.inl ⟨n, hn, rfl⟩

theorem held_of_quiet (h : G.Invariant net) (hp : p ∈ G.members) {c : Conversation}
    (hq : Quiet (net p) c) {e : Envelope} (hh : Held c e) : Held (net p) e := by
  rcases hh with hn | hd | ⟨pkt, hpkt, hf⟩
  · rw [hq.graph] at hn
    exact Or.inl hn
  · rw [hq.deferred] at hd
    exact Or.inr (Or.inl hd)
  · rcases hq.outbox pkt hpkt e hf with hold | ⟨f, hfm, rfl⟩
    · exact Or.inr (Or.inr ⟨pkt, hold, hf⟩)
    · exact held_of_frame h hp hfm

theorem held_of_moves {io : HandlerChoices} {c : Conversation} {env : Envelope}
    (hm : ∀ E : Envelope → Prop, DeferredIn E (net p) → E env → Moves io E (net p) c)
    {e : Envelope} (hh : Held c e) : Held (net p) e ∨ e = env := by
  have hmoves := hm (fun e => Held (net p) e ∨ e = env)
    (fun k pe hl => Or.inl (Or.inr (Or.inl ⟨k, pe, hl, rfl⟩))) (Or.inr rfl)
  rcases hh with ⟨n, hn, rfl⟩ | ⟨k, pe, hl, rfl⟩ | ⟨pkt, hpkt, hf⟩
  · rcases hmoves.mem_nodes hn with hold | hnew
    · exact Or.inl (Or.inl ⟨n, hold, rfl⟩)
    · exact hnew
  · exact hmoves.deferredIn (fun k pe hl => Or.inl (Or.inr (Or.inl ⟨k, pe, hl, rfl⟩))) k pe hl
  · exact Or.inl (Or.inr (Or.inr ⟨pkt, hmoves.mem_outbox hpkt hf, hf⟩))

theorem held_of_issue {c : Conversation} {n : Node} {log : MessageLog} {delivered : List Envelope}
    {issued : List Envelope} {e : Envelope}
    (hh : Held (broadcastEnvelope { c with
      log := log
      graph := ⟨c.graph.nodes ++ [n]⟩
      delivered := delivered
      issued := issued } n.envelope) e) : Held c e ∨ e = n.envelope := by
  rcases hh with ⟨m, hm, rfl⟩ | hd | ⟨pkt, hpkt, hf⟩
  · rcases List.mem_append.mp hm with hm | hm
    · exact Or.inl (Or.inl ⟨m, hm, rfl⟩)
    · exact Or.inr (congrArg Node.envelope (List.mem_singleton.mp hm))
  · exact Or.inl (Or.inr (Or.inl hd))
  · rcases List.mem_append.mp hpkt with hpkt | hpkt
    · exact Or.inl (Or.inr (Or.inr ⟨pkt, hpkt, hf⟩))
    · obtain ⟨r, _, rfl⟩ := List.mem_map.mp hpkt
      cases hf
      exact Or.inr rfl

/-- A replica's own nodes are envelopes that it has issued. -/
theorem Invariant.own_node (h : G.Invariant net) (hp : p ∈ G.members) {n : Node}
    (hn : n ∈ (net p).graph.nodes) (hs : n.envelope.sender = q) :
    q ∈ G.members ∧ n.envelope ∈ (net q).issued := by
  obtain ⟨r, hr, hsender, he⟩ := h.held p hp _ (Or.inl ⟨n, hn, rfl⟩)
  have hrq : r = q := by simpa [Envelope.sender, hsender] using hs
  subst hrq
  exact ⟨hr, he⟩

theorem Invariant.slotOf_eq (h : G.Invariant net) (hp : p ∈ G.members) (hq : q ∈ G.members) :
    (net p).membership.slotOf q = some (net q).selfSlot := by
  have hs := (h.live q hq).slot
  rw [h.self q hq] at hs
  rw [← hs, Membership.slotOf, Membership.slotOf, (h.live p hp).members_eq,
    (h.live q hq).members_eq]

theorem Invariant.senderSeq_eq (h : G.Invariant net) (hp : p ∈ G.members)
    (hq : q ∈ G.members) {n : Node} (hn : n ∈ (net p).graph.nodes)
    (hs : n.envelope.sender = q) :
    n.envelope.id.vectorClock.atSlot (net q).selfSlot = n.senderSeq := by
  have hd := (h.live p hp).sound.derived n hn
  have hslot := hd.slot
  rw [hs, h.slotOf_eq hp hq] at hslot
  rw [Option.some.inj hslot]
  exact hd.seq

theorem Invariant.issued_trichotomy (h : G.Invariant net) (hq : q ∈ G.members)
    {a b : Envelope} (ha : a ∈ (net q).issued) (hb : b ∈ (net q).issued) :
    a = b ∨ IssuedBefore (net q).selfSlot a b ∨ IssuedBefore (net q).selfSlot b a := by
  let R (a b : Envelope) : Prop :=
    a = b ∨ IssuedBefore (net q).selfSlot a b ∨ IssuedBefore (net q).selfSlot b a
  have hsymm : Std.Symm R := ⟨fun a b hab => by
    rcases hab with rfl | hab | hba
    · exact Or.inl rfl
    · exact Or.inr (Or.inr hab)
    · exact Or.inr (Or.inl hba)⟩
  have hall : (net q).issued.Pairwise R :=
    (h.ordered q hq).imp (fun hab => Or.inr (Or.inl hab))
  have hrefl : ∀ a ∈ (net q).issued, R a a := fun a _ => Or.inl rfl
  exact hall.forall_of_forall hrefl ha hb

section Order
variable {a b n : Node}

/-- Two nodes of one sender are ordered as their sequence numbers are. -/
theorem Invariant.issuedBefore_of_seq_le (h : G.Invariant net) (hp : p ∈ G.members)
    (hq : q ∈ G.members) (ha : a ∈ (net p).graph.nodes) (hb : b ∈ (net q).graph.nodes)
    (hs : a.envelope.sender = b.envelope.sender) (hle : a.senderSeq ≤ b.senderSeq) :
    a.envelope = b.envelope ∨
      IssuedBefore (net b.envelope.sender).selfSlot a.envelope b.envelope := by
  obtain ⟨hr, hai⟩ := h.own_node hp ha hs
  obtain ⟨_, hbi⟩ := h.own_node hq hb rfl
  have hsa := h.senderSeq_eq hp hr ha hs
  have hsb := h.senderSeq_eq hq hr hb rfl
  rcases h.issued_trichotomy hr hai hbi with heq | hab | hba
  · exact Or.inl heq
  · exact Or.inr hab
  · have := hba.2
    omega

/-- Everything that a replica stores is below the view of its next message. -/
theorem Invariant.below_currentView (h : G.Invariant net) (hp : p ∈ G.members)
    (hn : n ∈ (net p).graph.nodes) : Below n.envelope.id.vectorClock
      ((net p).graph.currentView (net p).membership) := by
  have hpos := ((h.live p hp).sound.derived n hn).seq_pos
  have hle := Graph.le_latestSeq hn
  obtain ⟨m, hm⟩ := Graph.exists_latestNode (g := (net p).graph) (r := n.envelope.sender)
    (by omega)
  obtain ⟨hmn, hms, hmq⟩ := Graph.latestNode_eq_some hm
  have hmember : n.envelope.sender ∈ (net p).membership.allReplicas := by
    rw [(h.live p hp).members_eq]
    exact (h.own_node hp hn rfl).1
  have hview := Graph.latestNode_below_currentView hmember hm
  rcases h.issuedBefore_of_seq_le hp hp hn hmn hms.symm (by omega) with heq | hb
  · rw [heq]
    exact hview
  · exact hb.1.trans hview

/-- What a member sends next is above everything it has issued. -/
theorem Invariant.issuedBefore_next (h : G.Invariant net) (hp : p ∈ G.members)
    {payload : List UInt8} {env : Envelope} (henv : (net p).nextEnvelope payload = some env)
    {a : Envelope} (ha : a ∈ (net p).issued) : IssuedBefore (net p).selfSlot a env := by
  obtain ⟨_, _, hinc⟩ := nextEnvelope_eq_some henv
  obtain ⟨_, _, hself, _⟩ := increment_eq_some hinc
  obtain ⟨_, n, hn, rfl⟩ := h.own p hp a ha
  have hview := h.below_currentView hp hn
  refine ⟨hview.trans (below_increment hinc), ?_⟩
  have := hview (net p).selfSlot
  omega

end Order

theorem Invariant.step (h : G.Invariant net) {a : NetAction} (hs : a.request.isStatic = true)
    (hstep : G.netStep net a = some net') : G.Invariant net' := by
  obtain ⟨hp, hdel, rfl⟩ := netStep_eq_some hstep
  obtain ⟨p, req⟩ := a
  dsimp only at hp hdel hs ⊢
  have hl := h.live p hp
  have hlive := hl.handle hs
  have heff := hl.effect req hs
  generalize (net p).handle req = c at hlive heff ⊢
  have hext := heff.extends
  have hmono : ∀ e ∈ (net p).issued, e.id.sender = some p ∧ ∃ n ∈ c.graph.nodes,
      n.envelope = e := by
    intro e he
    obtain ⟨hsender, n, hn, hne⟩ := h.own p hp e he
    exact ⟨hsender, n, hext.nodes.subset hn, hne⟩
  cases heff with
  | quiet hq =>
    refine h.update hp hlive hext (fun e hh => Or.inl (held_of_quiet h hp hq hh)) ?_ ?_
    · rw [hq.issued]
      exact hmono
    · rw [hq.issued, hq.selfSlot]
      exact h.ordered p hp
  | @issue io payload n log henv hi hn hlog =>
    have hsender := (nextEnvelope_eq_some henv).2.1
    rw [h.self p hp] at hsender
    refine h.update hp hlive hext ?_ ?_ ?_
    · intro e hh
      rcases held_of_issue hh with hh | rfl
      · exact Or.inl hh
      · exact Or.inr (Or.inr (List.mem_append_right _ (List.mem_singleton.mpr rfl)))
    · intro e he
      rcases List.mem_append.mp he with he | he
      · exact hmono e he
      · rw [List.mem_singleton.mp he]
        exact ⟨hsender, n, List.mem_append_right _ (List.mem_singleton.mpr rfl), rfl⟩
    · refine List.pairwise_append.mpr ⟨h.ordered p hp, List.pairwise_singleton _ _, ?_⟩
      intro a ha b hb
      rw [List.mem_singleton.mp hb]
      exact h.issuedBefore_next hp henv ha
  | @receive io origin env _ hm =>
    obtain ⟨ho, hpkt⟩ := hdel
    have henv : G.Issued net env := h.held origin ho env (Or.inr (Or.inr ⟨_, hpkt, rfl⟩))
    have hsame := (hm (fun _ => True) (fun _ _ _ => trivial) trivial).issued
    refine h.update hp hlive hext ?_ ?_ ?_
    · intro e hh
      rcases held_of_moves hm hh with hh | rfl
      · exact Or.inl hh
      · exact Or.inr (Or.inl henv)
    · rw [hsame]
      exact hmono
    · rw [hsame, hext.selfSlot]
      exact h.ordered p hp

/-- Between two moments of a run every member's histories have only grown. -/
def Later (G : Group) (net net' : Network) : Prop := ∀ p ∈ G.members, Extends (net p) (net' p)

theorem Later.refl (G : Group) (net : Network) : G.Later net net := fun _ _ => Extends.refl _

theorem Later.trans {net'' : Network} (h : G.Later net net') (h' : G.Later net' net'') :
    G.Later net net'' := fun p hp => (h p hp).trans (h' p hp)

theorem Invariant.later_step (h : G.Invariant net) {a : NetAction}
    (hs : a.request.isStatic = true) (hstep : G.netStep net a = some net') :
    G.Later net net' := by
  obtain ⟨hp, _, rfl⟩ := netStep_eq_some hstep
  intro q hq
  by_cases hqp : q = a.replica
  · subst hqp
    rw [Function.update_self]
    exact ((h.live _ hp).effect a.request hs).extends
  · rw [Function.update_of_ne hqp]
    exact Extends.refl _

section Nodes
variable {a b n : Node}

theorem Invariant.envelope_eq_of_key (h : G.Invariant net) (hp : p ∈ G.members)
    (hq : q ∈ G.members) (ha : a ∈ (net p).graph.nodes) (hb : b ∈ (net q).graph.nodes)
    (hk : a.key = b.key) : a.envelope = b.envelope := by
  have hs : a.envelope.sender = b.envelope.sender := congrArg Key.sender hk
  have hseq : a.senderSeq = b.senderSeq := congrArg Key.seq hk
  have hr := (h.own_node hq hb rfl).1
  have hsa := h.senderSeq_eq hp hr ha hs
  have hsb := h.senderSeq_eq hq hr hb rfl
  rcases h.issuedBefore_of_seq_le hp hq ha hb hs hseq.le with heq | hab
  · exact heq
  · have := hab.2
    omega

theorem Invariant.wave_eq (h : G.Invariant net) (hp : p ∈ G.members)
    (hn : n ∈ (net p).graph.nodes) : n.wave = n.envelope.wave :=
  ((h.live p hp).sound.derived n hn).wave

/-- Waves never decrease along the sequence numbers of one sender. -/
theorem Invariant.wave_le_of_seq_le (h : G.Invariant net) (hp : p ∈ G.members)
    (hq : q ∈ G.members) (ha : a ∈ (net p).graph.nodes) (hb : b ∈ (net q).graph.nodes)
    (hs : a.envelope.sender = b.envelope.sender) (hle : a.senderSeq ≤ b.senderSeq) :
    a.wave ≤ b.wave := by
  rw [h.wave_eq hp ha, h.wave_eq hq hb]
  rcases h.issuedBefore_of_seq_le hp hq ha hb hs hle with heq | hab
  · rw [heq]
  · exact hab.1.waveOf_le

/-- Before a message of some member a replica has received all that this member issued up
to it. -/
theorem Invariant.mem_take_of_seq_le (h : G.Invariant net) (hp : p ∈ G.members)
    (hq : q ∈ G.members) {i : ℕ} (ha : a ∈ (net q).graph.nodes)
    (hb : b ∈ (net p).graph.nodes.take i) (hs : a.envelope.sender = b.envelope.sender)
    (hle : a.senderSeq ≤ b.senderSeq) :
    a.envelope ∈ ((net p).graph.nodes.take i).map Node.envelope := by
  have hpos := ((h.live q hq).sound.derived a ha).seq_pos
  obtain ⟨x, hx, hxs, hxq⟩ := ((h.live p hp).sound.take i).contiguous hb hpos hle
  have hkey : x.key = a.key := Key.ext (hxs.trans hs.symm) hxq
  rw [← h.envelope_eq_of_key hp hq (List.mem_of_mem_take hx) ha hkey]
  exact List.mem_map_of_mem hx

/-- What a replica delivers next has a key of its own, and stands in no earlier wave than
what it delivered before from the same sender. -/
theorem Invariant.next_delivery (h : G.Invariant net) (hp : p ∈ G.members) {i : ℕ}
    (hn : (net p).graph.nodes[i]? = some n) (ha : a ∈ (net p).graph.nodes.take i) :
    a.key ≠ n.key ∧ (a.envelope.sender = n.envelope.sender → a.wave ≤ n.wave) := by
  have hsound := (h.live p hp).sound
  have hnm := List.mem_of_getElem? hn
  have hnew : ∀ b ∈ (net p).graph.nodes.take i, b.key ≠ n.key := by
    have hkeys := (hsound.take (i + 1)).keys
    rw [List.take_add_one, hn, Option.toList_some, List.map_append, List.nodup_append] at hkeys
    intro b hb
    exact hkeys.2.2 _ (List.mem_map_of_mem hb) _ (List.mem_singleton.mpr rfl)
  refine ⟨hnew a ha, fun hs => ?_⟩
  have ham := List.mem_of_mem_take ha
  rcases Nat.le_total a.senderSeq n.senderSeq with hle | hle
  · exact h.wave_le_of_seq_le hp hp ham hnm hs hle
  · obtain ⟨b, hb, hbe⟩ := List.mem_map.mp (h.mem_take_of_seq_le hp hp hnm ha hs.symm hle)
    rw [hsound.eq_of_envelope (List.mem_of_mem_take hb) hnm hbe] at hb
    exact absurd rfl (hnew n hb)

/-- A replica that has a message of `q` in a later wave has, and had before, every
message that `q` ever issues in an earlier one. -/
theorem Invariant.present_of_wave_lt (hi : G.Invariant net) (h : G.Invariant net')
    (hlater : G.Later net net') (hp : p ∈ G.members) (hq : q ∈ G.members)
    (hn : n ∈ (net p).graph.nodes) (hs : n.envelope.sender = q) {e : Envelope}
    (he : e ∈ (net' q).issued) (hw : e.wave < n.wave) :
    ∃ a ∈ (net p).graph.nodes, a.envelope = e := by
  obtain ⟨hsender, b, hb, rfl⟩ := h.own q hq e he
  have hbs : b.envelope.sender = q := by simp [Envelope.sender, hsender]
  have hn' : n ∈ (net' p).graph.nodes := (hlater p hp).nodes.subset hn
  have hlt : b.senderSeq < n.senderSeq := by
    by_contra hge
    have hle := h.wave_le_of_seq_le hp hq hn' hb (hs.trans hbs.symm) (by omega)
    rw [h.wave_eq hq hb] at hle
    omega
  have hpos := ((h.live q hq).sound.derived b hb).seq_pos
  obtain ⟨a, ha, has, haq⟩ := (hi.live p hp).sound.contiguous hn hpos hlt.le
  have hkey : a.key = b.key := Key.ext (has.trans (hs.trans hbs.symm)) haq
  exact ⟨a, ha, h.envelope_eq_of_key hp hq ((hlater p hp).nodes.subset ha) hb hkey⟩

end Nodes

end Group
end Comlink
