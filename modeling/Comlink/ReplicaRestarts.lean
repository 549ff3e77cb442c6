import Comlink.LogReplay
import Comlink.ReplicaGroup

/-!
# One replica over its restarts

A restart keeps the log and the mask and loses everything else. The new process starts
with an empty graph; the replay of its log is one more request, which may come before or
after any other. The next sequence number is computed from the graph, so that a message
sent before the graph knows the replica's own logged messages reuses one of theirs.
-/
namespace Comlink
open GuardedRuns

/-- The running process, and what its predecessors have handed to the network. -/
structure ReplicaLife where
  conv : Conversation
  sent : List Packet

inductive LifeAction where
  | request (req : Conversation.Request)
  | restart

namespace ReplicaLife
open Conversation

variable {G : Group} {s t : ReplicaLife} {p : ReplicaID} {members : List ReplicaID}
variable {io : HandlerChoices} {E : Envelope → Prop} {c c' : Conversation}

def start (G : Group) (p : ReplicaID) : ReplicaLife := ⟨G.start p, []⟩

def step (G : Group) (s : ReplicaLife) : LifeAction → Option ReplicaLife
  | .request req => some { s with conv := s.conv.handle req }
  | .restart =>
    (Conversation.new G.convID s.conv.self G.members s.conv.mask s.conv.log).map fun c =>
      ⟨c, s.sent ++ s.conv.outbox⟩

/-- Everything that the identity has handed to the network, over all its processes. -/
def allSent (s : ReplicaLife) : List Packet := s.sent ++ s.conv.outbox

/-- The envelope was appended to the log or handed to the network. -/
def Released (s : ReplicaLife) (e : Envelope) : Prop :=
  (∃ f ∈ s.conv.log.frames, f.envelope = e) ∨ ∃ pkt ∈ s.allSent, pkt.frame = .envelope e

/-- No two different envelopes with one sender and sequence number were released. -/
def NoReuse (G : Group) (s : ReplicaLife) : Prop :=
  ∀ e e', s.Released e → s.Released e' → e.sender = e'.sender →
    (Membership.ofReplicas G.members).senderSeq e.id =
      (Membership.ofReplicas G.members).senderSeq e'.id → e = e'

/-- A logged envelope of the number of `e` is known to the graph or is `e` itself. -/
def Compatible (c : Conversation) (e : Envelope) : Prop :=
  ∀ f ∈ c.log.frames, f.envelope.sender = e.sender →
    c.membership.senderSeq e.id = some f.senderSeq → c.graph.has f.key = true ∨ f.envelope = e

/-- A message is sent only while the graph knows every own message in the log, and an
envelope arrives only with the content that the log has under its number. -/
def NumbersKnown (s : ReplicaLife) : LifeAction → Prop
  | .request (.send _ _) => ∀ f ∈ s.conv.log.frames, f.envelope.sender = s.conv.self →
      s.conv.graph.has f.key = true
  | .request (.incoming _ _ (.envelope env)) => Compatible s.conv env
  | _ => True

def Static (_ : ReplicaLife) : LifeAction → Prop
  | .request req => req.isStatic = true
  | .restart => True

instance (c : Conversation) (e : Envelope) : Decidable (Compatible c e) :=
  inferInstanceAs (Decidable (∀ f ∈ c.log.frames, f.envelope.sender = e.sender →
    c.membership.senderSeq e.id = some f.senderSeq → c.graph.has f.key = true ∨ f.envelope = e))

instance (s : ReplicaLife) (a : LifeAction) : Decidable (NumbersKnown s a) :=
  match a with
  | .request (.send _ _) => inferInstanceAs (Decidable (∀ f ∈ s.conv.log.frames,
      f.envelope.sender = s.conv.self → s.conv.graph.has f.key = true))
  | .request (.incoming _ _ (.envelope env)) => inferInstanceAs (Decidable (Compatible s.conv env))
  | .request (.incoming _ _ (.lostMessageRequest _)) | .request (.incoming _ _ (.restartMessage _))
  | .request (.incoming _ _ (.restartAck _ _)) | .request (.maskout _) | .request (.maskin _)
  | .request .replayLog | .request (.freezeMember _) | .request (.addMember _)
  | .request (.requestMissing _) | .request (.truncateLog _) | .restart => isTrue trivial

instance (s : ReplicaLife) (a : LifeAction) : Decidable (Static s a) :=
  match a with
  | .request req => inferInstanceAs (Decidable (req.isStatic = true))
  | .restart => isTrue trivial

/-- Frames carry their number, and equal numbers belong to equal envelopes. -/
structure Numbered (members : List ReplicaID) (c : Conversation) : Prop
    extends Seated members c where
  keyed : ∀ f ∈ c.log.frames, c.membership.senderSeq f.envelope.id = some f.senderSeq
  unique : ∀ f ∈ c.log.frames, ∀ f' ∈ c.log.frames, f.key = f'.key → f.envelope = f'.envelope

structure Invariant (G : Group) (s : ReplicaLife) : Prop where
  self : s.conv.self ∈ G.members
  numbered : Numbered G.members s.conv
  deferred : DeferredIn (Compatible s.conv) s.conv
  sent : ∀ pkt ∈ s.allSent, ∀ e, pkt.frame = .envelope e → ∃ f ∈ s.conv.log.frames, f.envelope = e

theorem senderSeq_congr {m m' : Membership} (h : m.allReplicas = m'.allReplicas)
    (id : MessageID) : m.senderSeq id = m'.senderSeq id := by
  simp only [Membership.senderSeq, Membership.slotOf, h]

theorem Compatible.congr {e : Envelope} (h : Compatible c e)
    (hm : c'.membership.allReplicas = c.membership.allReplicas)
    (hg : ∀ k, c.graph.has k = true → c'.graph.has k = true)
    (hf : ∀ f ∈ c'.log.frames, f ∈ c.log.frames ∨ c'.graph.has f.key = true) :
    Compatible c' e := by
  intro f hfm hs hq
  rcases hf f hfm with hold | hnew
  · rw [senderSeq_congr hm] at hq
    rcases h f hold hs hq with hk | he
    · exact Or.inl (hg _ hk)
    · exact Or.inr he
  · exact Or.inl hnew

/-- Appending a frame whose number the log has only with the same content. -/
theorem unique_append {fs : List LogFrame} {f₀ : LogFrame}
    (h : ∀ f ∈ fs, ∀ f' ∈ fs, f.key = f'.key → f.envelope = f'.envelope)
    (h₀ : ∀ f ∈ fs, f.key = f₀.key → f.envelope = f₀.envelope) :
    ∀ f ∈ fs ++ [f₀], ∀ f' ∈ fs ++ [f₀], f.key = f'.key → f.envelope = f'.envelope := by
  intro f hf f' hf' hk
  rcases List.mem_append.mp hf with hf | hf <;> rcases List.mem_append.mp hf' with hf' | hf'
  · exact h f hf f' hf' hk
  · rw [List.mem_singleton.mp hf'] at hk ⊢
    exact h₀ f hf hk
  · rw [List.mem_singleton.mp hf] at hk ⊢
    exact (h₀ f' hf' hk.symm).symm
  · rw [List.mem_singleton.mp hf, List.mem_singleton.mp hf']

section Moves

/-- One accepted envelope, with a frame of its own in the log or none. -/
theorem Numbered.grow (h : Numbered members c) {n : Node}
    (hi : c.graph.insert c.membership n.envelope = .ok (⟨c.graph.nodes ++ [n]⟩, n))
    (hself : c'.self = c.self) (hslot : c'.selfSlot = c.selfSlot)
    (hm : c'.membership = c.membership) (hg : c'.graph = ⟨c.graph.nodes ++ [n]⟩)
    (hf : c'.log.frames = c.log.frames ∨ c'.log.frames = c.log.frames ++ [n.frame])
    (hsame : ∀ f ∈ c.log.frames, f.key = n.key → f.envelope = n.envelope) :
    Numbered members c' ∧ ∀ e, Compatible c e → Compatible c' e := by
  have hd := (Graph.insert_ok hi).2.2.1
  have hhas : c'.graph.has n.key = true := by
    rw [hg]
    exact Graph.has_iff.mpr ⟨n, List.mem_append_right _ (List.mem_singleton.mpr rfl), rfl⟩
  have hsplit : ∀ f ∈ c'.log.frames, f ∈ c.log.frames ∨ f = n.frame := by
    intro f hfm
    rcases hf with hf | hf <;> rw [hf] at hfm
    · exact Or.inl hfm
    · exact (List.mem_append.mp hfm).imp_right List.mem_singleton.mp
  refine ⟨⟨⟨?_, ?_, ?_⟩, ?_, ?_⟩, ?_⟩
  · rw [hm]
    exact h.members_eq
  · rw [hm, hself, hslot]
    exact h.slot
  · rw [hm, hg]
    exact h.sound.insert hi
  · intro f hfm
    rw [hm]
    rcases hsplit f hfm with hold | rfl
    · exact h.keyed f hold
    · exact hd.senderSeq
  · rcases hf with hf | hf <;> rw [hf]
    · exact h.unique
    · exact unique_append h.unique hsame
  · intro e he
    refine he.congr (by rw [hm]) (fun k hk => by rw [hg]; exact Graph.has_append _ hk) ?_
    intro f hfm
    rcases hsplit f hfm with hold | rfl
    · exact Or.inl hold
    · exact Or.inr hhas

theorem Numbered.accept (h : Numbered members c) {env : Envelope} {k : Key} {g : Graph}
    {n : Node} (hcomp : Compatible c env) (hs : c.screen env = some k)
    (hi : c.graph.insert c.membership env = .ok (g, n)) :
    Numbered members (c.accept io env k g) ∧
      ∀ e, Compatible c e → Compatible (c.accept io env k g) e := by
  have hkey := screen_key hs hi
  obtain ⟨hsender, hseq, hnew⟩ := screen_eq_some hs
  obtain ⟨rfl, rfl, _, _, _⟩ := Graph.insert_ok hi
  refine h.grow hi rfl rfl rfl rfl ?_ ?_
  · have hframe : (⟨n.envelope, k.seq⟩ : LogFrame) = n.frame := by
      rw [← hkey]
      rfl
    rw [frames_accept io c hsender, hframe]
    split
    · exact Or.inr rfl
    · exact Or.inl (List.append_nil _)
  · intro f hf hfk
    rw [hkey] at hfk
    have hq : f.senderSeq = k.seq := congrArg Key.seq hfk
    have hfs : f.envelope.sender = n.envelope.sender := by
      rw [← hkey] at hfk
      exact congrArg Key.sender hfk
    rcases hcomp f hf hfs (by rw [hq]; exact hseq) with hk | he
    · rw [hfk, hnew] at hk
      cases hk
    · exact he

theorem Numbered.move (h : Numbered members c) (hE : ∀ e, E e → Compatible c e)
    (hm : Move io E c c') :
    Numbered members c' ∧ ∀ e, Compatible c e → Compatible c' e := by
  cases hm with
  | bookkeeping hb =>
    rw [hb.frame]
    exact ⟨⟨⟨h.members_eq, h.slot, h.sound⟩, h.keyed, h.unique⟩, fun e he => he⟩
  | accept he hs hi => exact h.accept (hE _ he) hs hi

theorem Numbered.moves (h : Numbered members c) (hE : ∀ e, E e → Compatible c e)
    (hm : Moves io E c c') :
    Numbered members c' ∧ ∀ e, Compatible c e → Compatible c' e := by
  induction hm with
  | refl => exact ⟨h, fun _ he => he⟩
  | tail _ hm ih =>
    obtain ⟨hn, hcomp⟩ := ih
    obtain ⟨hn', hcomp'⟩ := hn.move (fun e he => hcomp e (hE e he)) hm
    exact ⟨hn', fun e he => hcomp' e (hcomp e he)⟩

end Moves

section Requests

theorem Numbered.quiet (h : Numbered members c) (hq : Quiet c c') :
    Numbered members c' ∧ ∀ e, Compatible c e → Compatible c' e := by
  refine ⟨⟨h.toSeated.quiet hq, ?_, ?_⟩, ?_⟩
  · rw [hq.frames]
    intro f hf
    rw [senderSeq_congr hq.members]
    exact h.keyed f hf
  · rw [hq.frames]
    exact h.unique
  · intro e he
    refine he.congr hq.members (fun k hk => by rw [hq.graph]; exact hk) ?_
    rw [hq.frames]
    exact fun f hf => Or.inl hf

/-- A message stamped by a graph that knows all own numbers has a new one. -/
theorem Numbered.issue (h : Numbered members c) {payload : List UInt8} {n : Node}
    {log : MessageLog} (henv : c.nextEnvelope payload = some n.envelope)
    (hi : c.graph.insert c.membership n.envelope = .ok (⟨c.graph.nodes ++ [n]⟩, n))
    (hlog : log.frames = c.log.frames ++ [n.frame])
    (hown : ∀ f ∈ c.log.frames, f.envelope.sender = c.self → c.graph.has f.key = true)
    (hc : c' = { c with
      log := log
      graph := ⟨c.graph.nodes ++ [n]⟩
      delivered := c.delivered ++ [n.envelope]
      issued := c.issued ++ [n.envelope]
      outbox := c'.outbox }) :
    Numbered members c' ∧ ∀ e, Compatible c e → Compatible c' e := by
  have hsender : n.envelope.sender = c.self := by
    simp [Envelope.sender, (nextEnvelope_eq_some henv).2.1]
  have hnone := Graph.lookup_eq_none_iff.mp (Graph.insert_ok hi).2.2.2.1
  rw [hc]
  refine h.grow hi rfl rfl rfl rfl (Or.inr hlog) ?_
  intro f hf hk
  have hs : f.envelope.sender = c.self := (congrArg Key.sender hk).trans hsender
  obtain ⟨a, ha, hak⟩ := Graph.has_iff.mp (hown f hf hs)
  exact absurd (hak.trans hk) (hnone a ha)

theorem Numbered.replayLog (h : Numbered members c) :
    Numbered members c.replayLog ∧ ∀ e, Compatible c e → Compatible c.replayLog e := by
  obtain ⟨ns, heq, hsound, _⟩ := replayLog_eq h.sound
  rw [heq]
  refine ⟨⟨⟨h.members_eq, h.slot, hsound⟩, h.keyed, h.unique⟩, ?_⟩
  intro e he
  exact he.congr rfl (fun k hk => Graph.has_append _ hk) (fun f hf => Or.inl hf)

end Requests

theorem invariant_start (hp : p ∈ G.members) : Invariant G (start G p) := by
  refine ⟨hp, ⟨seated_init (Group.slot_start hp), nofun, nofun⟩, ?_, nofun⟩
  intro k pe hl
  cases hl

/-- The invariant carries over when the deferred envelopes stay compatible and nothing
unlogged is sent. -/
theorem Invariant.request (h : Invariant G s) (hself : c'.self = s.conv.self)
    (hn : Numbered G.members c' ∧ ∀ e, Compatible s.conv e → Compatible c' e)
    (hd : DeferredIn (Compatible s.conv) c') (hf : s.conv.log.frames <+: c'.log.frames)
    (hsent : ∀ pkt ∈ c'.outbox, ∀ e, pkt.frame = .envelope e →
      pkt ∈ s.conv.outbox ∨ ∃ f ∈ c'.log.frames, f.envelope = e) :
    Invariant G { s with conv := c' } := by
  refine ⟨by rw [hself]; exact h.self, hn.1, fun k pe hl => hn.2 _ (hd k pe hl), ?_⟩
  have hold : ∀ pkt ∈ s.allSent, ∀ e, pkt.frame = .envelope e →
      ∃ f ∈ c'.log.frames, f.envelope = e := by
    intro pkt hpkt e he
    obtain ⟨f, hfm, hfe⟩ := h.sent pkt hpkt e he
    exact ⟨f, hf.subset hfm, hfe⟩
  intro pkt hpkt e he
  rcases List.mem_append.mp hpkt with hpkt | hpkt
  · exact hold pkt (List.mem_append_left _ hpkt) e he
  · rcases hsent pkt hpkt e he with hpkt | hlog
    · exact hold pkt (List.mem_append_right _ hpkt) e he
    · exact hlog

theorem Invariant.handle (h : Invariant G s) {req : Request} (hs : req.isStatic = true)
    (hk : NumbersKnown s (.request req)) : Invariant G { s with conv := s.conv.handle req } := by
  have hn := h.numbered
  by_cases hr : req = .replayLog
  · subst hr
    obtain ⟨ns, heq, _, _⟩ := replayLog_eq hn.sound
    have hkeep := hn.replayLog
    rw [Conversation.handle, heq] at *
    exact h.request rfl hkeep h.deferred List.prefix_rfl (fun _ hp _ _ => Or.inl hp)
  · have heff := hn.toSeated.effect req hs hr
    generalize s.conv.handle req = c' at heff ⊢
    have hext := heff.extends
    cases heff with
    | quiet hq =>
      refine h.request hq.self (hn.quiet hq) ?_ hext.frames ?_
      · intro k pe hl
        rw [hq.deferred] at hl
        exact h.deferred k pe hl
      · intro pkt hpkt e he
        rw [hq.frames]
        exact hq.outbox pkt hpkt e he
    | @issue io payload n log henv hi hslot hlog =>
      refine h.request rfl (hn.issue henv hi hlog hk rfl) h.deferred hext.frames ?_
      intro pkt hpkt e he
      rcases List.mem_append.mp hpkt with hpkt | hpkt
      · exact Or.inl hpkt
      · obtain ⟨r, _, rfl⟩ := List.mem_map.mp hpkt
        cases he
        refine Or.inr ⟨n.frame, ?_, rfl⟩
        simp [broadcastEnvelope, hlog]
    | @receive io origin env _ hm =>
      have hmoves := hm (Compatible s.conv) h.deferred hk
      refine h.request hext.self (hn.moves (fun _ he => he) hmoves)
        (hmoves.deferredIn h.deferred) hext.frames ?_
      intro pkt hpkt e he
      exact Or.inl (hmoves.mem_outbox hpkt he)

theorem Invariant.restart (h : Invariant G s) (hstep : step G s .restart = some t) :
    Invariant G t := by
  obtain ⟨c, hnew, rfl⟩ := Option.map_eq_some_iff.mp hstep
  obtain ⟨slot, hslot, rfl⟩ := Option.map_eq_some_iff.mp hnew
  have hm : (Membership.ofReplicas G.members).allReplicas = s.conv.membership.allReplicas := by
    rw [Membership.allReplicas_ofReplicas, h.numbered.members_eq]
  refine ⟨h.self, ⟨seated_init hslot, ?_, h.numbered.unique⟩, ?_, ?_⟩
  · intro f hf
    exact (senderSeq_congr hm _).trans (h.numbered.keyed f hf)
  · intro k pe hl
    cases hl
  · intro pkt hpkt
    refine h.sent pkt ?_
    simpa [allSent, Conversation.init] using hpkt

theorem Invariant.step (h : Invariant G s) {a : LifeAction} (hs : Static s a)
    (hk : NumbersKnown s a) (hstep : ReplicaLife.step G s a = some t) : Invariant G t := by
  cases a with
  | request req =>
    cases hstep
    exact h.handle hs hk
  | restart => exact h.restart hstep

theorem Invariant.noReuse (h : Invariant G s) : NoReuse G s := by
  have hlogged : ∀ e, s.Released e → ∃ f ∈ s.conv.log.frames, f.envelope = e := by
    rintro e (hf | ⟨pkt, hpkt, hf⟩)
    · exact hf
    · exact h.sent pkt hpkt e hf
  have hm : (Membership.ofReplicas G.members).allReplicas = s.conv.membership.allReplicas := by
    rw [Membership.allReplicas_ofReplicas, h.numbered.members_eq]
  intro e e' he he' hsender hseq
  obtain ⟨f, hf, rfl⟩ := hlogged e he
  obtain ⟨f', hf', rfl⟩ := hlogged e' he'
  rw [senderSeq_congr hm, senderSeq_congr hm, h.numbered.keyed f hf,
    h.numbered.keyed f' hf'] at hseq
  exact h.numbered.unique f hf f' hf' (Key.ext hsender (Option.some.inj hseq))

/-- Over any number of restarts no sequence number is released twice, as long as every
send finds the own numbers in the graph and every arrival agrees with the log. -/
theorem noReuse_of_numbersKnown (hp : p ∈ G.members)
    (hs : Reach (step G) (fun s a => Static s a ∧ NumbersKnown s a) (start G p) s) :
    NoReuse G s := by
  have h : Invariant G s := hs.invariant (invariant_start hp)
    (fun _ _ _ h ha hstep => h.step ha.1 ha.2 hstep)
  exact h.noReuse

def soloGroup : Group := ⟨[0], [[1], [2]]⟩

theorem noReuse_of_numbersKnown_replayed : ∃ s,
    execute (step soloGroup) (fun s a => Static s a ∧ NumbersKnown s a) (start soloGroup [1])
        [.request (.send .standard [7]), .restart, .request .replayLog,
          .request (.send .standard [8])] = some s ∧
      s.conv.log.frames.map LogFrame.key = [⟨[1], 1⟩, ⟨[1], 2⟩] ∧ NoReuse soloGroup s := by
  have hrun : (execute (step soloGroup) (fun s a => Static s a ∧ NumbersKnown s a)
      (start soloGroup [1]) [.request (.send .standard [7]), .restart, .request .replayLog,
        .request (.send .standard [8])]).map (fun s => decide
      (s.conv.log.frames.map LogFrame.key = [⟨[1], 1⟩, ⟨[1], 2⟩])) = some true := by decide +kernel
  obtain ⟨s, he, hs, hc⟩ := reach_of_execute hrun
  exact ⟨s, he, of_decide_eq_true hc, noReuse_of_numbersKnown (by decide) hs⟩

/-- A message sent before the replay of the log has run takes a number that is in it. -/
theorem send_before_replay_reuses : ∃ s,
    Reach (step soloGroup) Static (start soloGroup [1]) s ∧ ¬ NoReuse soloGroup s := by
  have hrun : (execute (step soloGroup) Static (start soloGroup [1])
      [.request (.send .standard [7]), .restart, .request (.send .standard [8])]).map
      (fun s => decide (s.conv.log.frames = [⟨⟨⟨some [0], some [1], [1, 0]⟩, [7]⟩, 1⟩,
        ⟨⟨⟨some [0], some [1], [1, 0]⟩, [8]⟩, 1⟩])) = some true := by decide +kernel
  obtain ⟨s, _, hs, hc⟩ := reach_of_execute hrun
  have hframes := of_decide_eq_true hc
  refine ⟨s, hs, fun hno => ?_⟩
  have hsame := hno ⟨⟨some [0], some [1], [1, 0]⟩, [7]⟩ ⟨⟨some [0], some [1], [1, 0]⟩, [8]⟩
    (Or.inl ⟨_, by rw [hframes]; exact List.mem_cons_self .., rfl⟩)
    (Or.inl ⟨_, by rw [hframes]; exact List.mem_cons_of_mem _ (List.mem_singleton.mpr rfl), rfl⟩)
    rfl rfl
  exact absurd hsame (by decide)

end ReplicaLife
end Comlink
