import Comlink.DeferralIndex
import Comlink.GuardedRuns

/-!
# Requests for lost messages over a network that loses frames

A replica asks for a missing parent when it defers an envelope, and remembers in
`outstanding` that it has asked. Nothing but the arrival of the parent clears that
memory, and an envelope that is deferred already is not looked at again. A request
that the network drops is therefore never repeated: as long as an envelope waits on
a key, the key counts as requested.
-/
namespace Comlink
open GuardedRuns

namespace Conversation

variable {c : Conversation} {env : Envelope} {k w : Key}

/-- A parent that the clock of a deferred envelope names is not in the graph. -/
def MissingParent (c : Conversation) (w : Key) : Prop :=
  ∃ k pe, c.deferred.lookup k = some pe ∧ w ∈ Graph.derivedParents c.membership pe.env ∧
    c.graph.has w = false

/-- `Insert` would accept the envelope but for the missing parent `w`. -/
def Lacks (c : Conversation) (env : Envelope) (w : Key) : Prop :=
  ∃ k missing, c.screen env = some k ∧
    c.graph.insert c.membership env = .error (.missingParents missing) ∧ w ∈ missing

/-- The packets that a step has handed to the network. -/
def posted (c c' : Conversation) : List Packet := c'.outbox.drop c.outbox.length

theorem posted_of_append {c' : Conversation} {ps : List Packet}
    (h : c'.outbox = c.outbox ++ ps) : posted c c' = ps := by
  rw [posted, h, List.drop_left]

/-- Entering an envelope asks for those missing parents that nobody has asked for. -/
theorem requests_foldl_awaitParent (e : Key) (origin : ReplicaID) (missing : List Key)
    (c : Conversation) : ∃ ps, (missing.foldl (awaitParent e origin) c).outbox = c.outbox ++ ps ∧
      (∀ p ∈ ps, p.dst = origin) ∧
      ∀ w, (∃ p ∈ ps, p.frame = .lostMessageRequest w) ↔ w ∈ missing ∧ w ∉ c.outstanding := by
  induction missing generalizing c with
  | nil => exact ⟨[], by simp, by simp, by simp⟩
  | cons q qs ih =>
    obtain ⟨ps, hps, hdst, hiff⟩ := ih (awaitParent e origin c q)
    rw [awaitParent_eq] at hps hiff
    refine ⟨(if q ∈ c.outstanding then [] else [⟨c.self, origin, .lostMessageRequest q⟩]) ++ ps,
      ?_, ?_, ?_⟩
    · rw [List.foldl_cons, awaitParent_eq, hps, List.append_assoc]
    · intro p hp
      rcases List.mem_append.mp hp with hp | hp
      · split at hp
        · cases hp
        · rw [List.mem_singleton.mp hp]
      · exact hdst p hp
    · intro w
      simp only [List.mem_append, or_and_right, exists_or, hiff, List.mem_insert_iff,
        List.mem_cons]
      by_cases hq : q ∈ c.outstanding
      · by_cases hwq : w = q <;> simp [hq, hwq]
      · by_cases hwq : w = q
        · simp [hq, hwq]
        · simp [hq, hwq, Ne.symm hwq]

/-- The request is sent again only for a key that does not count as requested, and only
by an envelope that is not deferred yet. -/
theorem requests_incoming (hl : Lacks c env w) (hk : c.membership.keyOf env = some k)
    (io : HandlerChoices) (origin : ReplicaID) :
    (∃ p ∈ posted c (c.handleIncoming io origin (.envelope env)),
        p.frame = .lostMessageRequest w) ↔
      w ∉ c.outstanding ∧ c.deferred.lookup k = none := by
  obtain ⟨k', missing, hs, hi, hw⟩ := hl
  have hstep : c.handleIncoming io origin (.envelope env) = c.deferEnvelope env missing origin := by
    simp only [handleIncoming, handleEnvelope, hs, hi]
  rw [hstep]
  rcases deferEnvelope_cases c env missing origin hk with ⟨pe, hpe, he⟩ | ⟨hnone, he⟩
  · have hposted : posted c (c.deferEnvelope env missing origin) = [] := by simp [he, posted]
    simp [hposted, hpe]
  · obtain ⟨ps, hps, _, hiff⟩ := requests_foldl_awaitParent k origin missing c
    have hposted : posted c (c.deferEnvelope env missing origin) = ps := by
      apply posted_of_append
      rw [he]
      exact hps
    rw [hposted, hiff]
    simp [hw, hnone]

end Conversation

/-- A replica and the frames that are on their way to or from it. -/
structure LossyLink where
  conv : Conversation
  inFlight : List Packet

namespace LossyLink
open Conversation

/-- The replica takes a step of its own, a frame that is in flight arrives or is lost,
or some peer sends a frame, possibly not for the first time. -/
inductive Action where
  | serve (a : ServerStep)
  | arrive (io : HandlerChoices) (p : Packet)
  | drop (p : Packet)
  | inject (p : Packet)

def afterStep (l : LossyLink) (inFlight : List Packet) (c : Conversation) : LossyLink :=
  ⟨c, inFlight ++ posted l.conv c⟩

def step (l : LossyLink) : Action → Option LossyLink
  | .serve a => match a with
    | .request (.incoming _ _ _) => none
    | a => (l.conv.serve a).map (l.afterStep l.inFlight)
  | .arrive io p =>
    if p ∈ l.inFlight ∧ p.dst = l.conv.self then
      some (l.afterStep (l.inFlight.erase p) (l.conv.handle (.incoming io p.src p.frame)))
    else none
  | .drop p => if p ∈ l.inFlight then some { l with inFlight := l.inFlight.erase p } else none
  | .inject p => some { l with inFlight := p :: l.inFlight }

/-- A request of this replica for `w`, or an answer to it. -/
def RecoveryInFlight (l : LossyLink) (w : Key) : Prop :=
  ∃ p ∈ l.inFlight, p.src = l.conv.self ∧ p.frame = .lostMessageRequest w ∨
    ∃ env, p.frame = .envelope env ∧ l.conv.membership.keyOf env = some w

theorem indexed_step {l l' : LossyLink} {a : Action} (h : Indexed l.conv [])
    (hs : l.step a = some l') : Indexed l'.conv [] := by
  cases a with
  | serve a =>
    simp only [step] at hs
    split at hs
    · cases hs
    · obtain ⟨c, hc, rfl⟩ := Option.map_eq_some_iff.mp hs
      exact h.serve hc
  | arrive io p =>
    simp only [step] at hs
    split at hs
    · cases hs
      exact Conversation.Indexed.handle h (.incoming io p.src p.frame)
    · cases hs
  | drop p =>
    simp only [step] at hs
    split at hs
    · cases hs
      exact h
    · cases hs
  | inject p =>
    cases hs
    exact h

theorem indexed_reach {convID : ConversationID} {self : ReplicaID}
    {members mask : List ReplicaID} {log : MessageLog} {c₀ : Conversation} {l : LossyLink}
    (hnew : new convID self members mask log = some c₀)
    (hr : Reach step (fun _ _ => True) ⟨c₀, []⟩ l) : Indexed l.conv [] := by
  refine hr.invariant ?_ fun s a t hs _ hstep => indexed_step hs hstep
  obtain ⟨slot, _, rfl⟩ := Option.map_eq_some_iff.mp hnew
  exact indexed_init ..

/-- A request for a missing parent is sent again exactly when the key does not count as
requested and the envelope that lacks it is a new one; a key that a deferred envelope
waits on always counts as requested. -/
theorem request_repeated_iff {convID : ConversationID} {self : ReplicaID}
    {members mask : List ReplicaID} {log : MessageLog} {c₀ : Conversation} {l : LossyLink}
    (hnew : new convID self members mask log = some c₀)
    (hr : Reach step (fun _ _ => True) ⟨c₀, []⟩ l) {w : Key} {env : Envelope} {k : Key}
    (hl : l.conv.Lacks env w) (hk : l.conv.membership.keyOf env = some k)
    (io : HandlerChoices) (origin : ReplicaID) :
    ((∃ p ∈ posted l.conv (l.conv.handleIncoming io origin (.envelope env)),
        p.frame = .lostMessageRequest w) ↔
      w ∉ l.conv.outstanding ∧ l.conv.deferred.lookup k = none) ∧
    ((∃ d pe, l.conv.deferred.lookup d = some pe ∧ w ∈ pe.waiting) →
      w ∈ l.conv.outstanding) := by
  refine ⟨requests_incoming hl hk io origin, ?_⟩
  rintro ⟨d, pe, hd, hw⟩
  exact (indexed_reach hnew hr).mem_outstanding hd hw

/-- A message of a later era is deferred; the member that it presupposes then joins. -/
def laterEra : List Action :=
  let p : Packet := ⟨[2], [1], .envelope (message [2] [0, 2, 1])⟩
  [.inject p, .arrive .standard p, .drop ⟨[1], [2], .lostMessageRequest ⟨[2], 1⟩⟩,
    .serve (.request (.addMember [3]))]

theorem request_repeated_iff_laterEra :
    ∃ c₀ l, new [9] [1] [[1], [2]] [] .empty = some c₀ ∧
      Reach step (fun _ _ => True) ⟨c₀, []⟩ l ∧ l.conv.MissingParent ⟨[3], 1⟩ ∧
      ¬ l.RecoveryInFlight ⟨[3], 1⟩ ∧ l.conv.Lacks (message [2] [0, 1, 1]) ⟨[3], 1⟩ ∧
      ∃ p ∈ posted l.conv (l.conv.handleIncoming .standard [2]
        (.envelope (message [2] [0, 1, 1]))), p.frame = .lostMessageRequest ⟨[3], 1⟩ := by
  have hnew : new [9] [1] [[1], [2]] [] .empty = some (init [9] [1] 0 [[1], [2]] [] .empty) := rfl
  have hrun : (execute step (fun _ _ => True) ⟨init [9] [1] 0 [[1], [2]] [] .empty, []⟩
      laterEra).map (fun l => decide (l.inFlight = [] ∧
        l.conv.deferred.lookup ⟨[2], 2⟩ =
          some ⟨message [2] [0, 2, 1], [2], [⟨[2], 1⟩]⟩ ∧
        (⟨[3], 1⟩ : Key) ∈ Graph.derivedParents l.conv.membership (message [2] [0, 2, 1]) ∧
        l.conv.graph.has ⟨[3], 1⟩ = false ∧
        l.conv.screen (message [2] [0, 1, 1]) = some ⟨[2], 1⟩ ∧
        l.conv.graph.insert l.conv.membership (message [2] [0, 1, 1]) =
          .error (.missingParents [⟨[3], 1⟩]) ∧
        l.conv.membership.keyOf (message [2] [0, 1, 1]) = some ⟨[2], 1⟩ ∧
        (⟨[3], 1⟩ : Key) ∉ l.conv.outstanding ∧
        l.conv.deferred.lookup ⟨[2], 1⟩ = none)) = some true := by
    decide +kernel
  obtain ⟨l, -, hr, hl⟩ := reach_of_execute hrun
  obtain ⟨hf, hd, hp, hg, hs, hi, hk, ho, hnone⟩ := of_decide_eq_true hl
  have hlacks : l.conv.Lacks (message [2] [0, 1, 1]) ⟨[3], 1⟩ :=
    ⟨_, _, hs, hi, List.mem_singleton_self _⟩
  refine ⟨_, l, hnew, hr, ⟨_, _, hd, hp, hg⟩, ?_, hlacks, ?_⟩
  · simp [RecoveryInFlight, hf]
  · exact (request_repeated_iff hnew hr hlacks hk _ _).1.mpr ⟨ho, hnone⟩

/-- A message overtakes its predecessor, and the request for the predecessor is lost. -/
def lostRequest : List Action :=
  let p : Packet := ⟨[2], [1], .envelope (message [2] [0, 2, 0])⟩
  [.inject p, .arrive .standard p, .drop ⟨[1], [2], .lostMessageRequest ⟨[2], 1⟩⟩]

/-- Neither a retransmission nor another message that lacks the same parent asks again. -/
theorem lost_request_never_repeated :
    ∃ l, Reach step (fun _ _ => True)
        ⟨init [9] [1] 0 [[1], [2], [3]] [] .empty, []⟩ l ∧
      l.conv.MissingParent ⟨[2], 1⟩ ∧ ¬ l.RecoveryInFlight ⟨[2], 1⟩ ∧
      ∀ env ∈ [message [2] [0, 2, 0], message [3] [0, 1, 1]], l.conv.Lacks env ⟨[2], 1⟩ ∧
        posted l.conv (l.conv.handleIncoming .standard [3] (.envelope env)) = [] := by
  have hrun : (execute step (fun _ _ => True) ⟨init [9] [1] 0 [[1], [2], [3]] [] .empty, []⟩
      lostRequest).map (fun l => decide (l.inFlight = [] ∧
        l.conv.deferred.lookup ⟨[2], 2⟩ =
          some ⟨message [2] [0, 2, 0], [2], [⟨[2], 1⟩]⟩ ∧
        (⟨[2], 1⟩ : Key) ∈ Graph.derivedParents l.conv.membership (message [2] [0, 2, 0]) ∧
        l.conv.graph.has ⟨[2], 1⟩ = false ∧
        ∀ e ∈ [(message [2] [0, 2, 0], (⟨[2], 2⟩ : Key)), (message [3] [0, 1, 1], ⟨[3], 1⟩)],
          l.conv.screen e.1 = some e.2 ∧
          l.conv.graph.insert l.conv.membership e.1 = .error (.missingParents [⟨[2], 1⟩]) ∧
          posted l.conv (l.conv.handleIncoming .standard [3] (.envelope e.1)) = [])) =
      some true := by
    decide +kernel
  obtain ⟨l, -, hr, hl⟩ := reach_of_execute hrun
  obtain ⟨hf, hd, hp, hg, henv⟩ := of_decide_eq_true hl
  refine ⟨l, hr, ⟨_, _, hd, hp, hg⟩, ?_, ?_⟩
  · simp [RecoveryInFlight, hf]
  · simp only [List.forall_mem_cons, List.not_mem_nil, false_implies, implies_true,
      and_true] at henv ⊢
    obtain ⟨⟨hs₁, hi₁, hp₁⟩, hs₂, hi₂, hp₂⟩ := henv
    exact ⟨⟨⟨_, _, hs₁, hi₁, List.mem_singleton_self _⟩, hp₁⟩,
      ⟨_, _, hs₂, hi₂, List.mem_singleton_self _⟩, hp₂⟩

end LossyLink
end Comlink
