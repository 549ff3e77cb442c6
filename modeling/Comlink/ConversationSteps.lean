import Comlink.AssociationLists
import Comlink.Conversation
import Comlink.ContextGraphSoundness
import Mathlib.Logic.Relation

/-!
# What a handler can do

Every run of `handleEnvelope` is a sequence of two kinds of small moves: it accepts
an envelope into graph, log and delivery channel together, or it only rearranges the
deferral bookkeeping and asks for lost messages. Invariants are proved for the moves
and hold for the recursive handler by induction over its moves.
-/
namespace Comlink.Conversation
open Relation AssociationLists

variable {io : HandlerChoices} {E : Envelope → Prop} {c c' : Conversation}

/-- Every deferred envelope satisfies `E`. -/
def DeferredIn (E : Envelope → Prop) (c : Conversation) : Prop :=
  ∀ k pe, c.deferred.lookup k = some pe → E pe.env

/-- Only the deferral maps change, and nothing but lost-message requests is sent. -/
structure Bookkeeping (E : Envelope → Prop) (c c' : Conversation) : Prop where
  frame : c' = { c with
    deferred := c'.deferred
    deferredByNeed := c'.deferredByNeed
    outstanding := c'.outstanding
    outbox := c'.outbox }
  deferred : DeferredIn E c → DeferredIn E c'
  outbox : ∃ ps, c'.outbox = c.outbox ++ ps ∧
    ∀ p ∈ ps, ∃ k, p.frame = .lostMessageRequest k

theorem Bookkeeping.refl (E : Envelope → Prop) (c : Conversation) : Bookkeeping E c c :=
  ⟨rfl, id, [], by simp, by simp⟩

theorem Bookkeeping.trans {d : Conversation} (h : Bookkeeping E c c')
    (h' : Bookkeeping E c' d) : Bookkeeping E c d := by
  obtain ⟨ps, hps, hp⟩ := h.outbox
  obtain ⟨qs, hqs, hq⟩ := h'.outbox
  refine ⟨?_, h'.deferred ∘ h.deferred, ps ++ qs, by rw [hqs, hps, List.append_assoc], ?_⟩
  · rw [h'.frame, h.frame]
  · intro p hm
    rcases List.mem_append.mp hm with hm | hm
    · exact hp p hm
    · exact hq p hm

inductive Move (io : HandlerChoices) (E : Envelope → Prop) : Conversation → Conversation → Prop
  | bookkeeping {c c' : Conversation} (h : Bookkeeping E c c') : Move io E c c'
  | accept {c : Conversation} {env : Envelope} {k : Key} {g : Graph} {n : Node} (he : E env)
      (hs : c.screen env = some k) (hi : c.graph.insert c.membership env = .ok (g, n)) :
      Move io E c (c.accept io env k g)

abbrev Moves (io : HandlerChoices) (E : Envelope → Prop) := ReflTransGen (Move io E)

theorem Move.deferredIn (h : Move io E c c') (hd : DeferredIn E c) : DeferredIn E c' := by
  cases h with
  | bookkeeping h => exact h.deferred hd
  | accept he hs hi => exact hd

theorem Moves.deferredIn (h : Moves io E c c') (hd : DeferredIn E c) : DeferredIn E c' := by
  induction h with
  | refl => exact hd
  | tail _ hm ih => exact hm.deferredIn ih

theorem bookkeeping_awaitParent (envKey : Key) (origin : ReplicaID) (c : Conversation)
    (parent : Key) : Bookkeeping E c (awaitParent envKey origin c parent) := by
  unfold awaitParent
  dsimp only
  split
  · exact ⟨rfl, id, [], by simp, by simp⟩
  · refine ⟨rfl, id, [⟨c.self, origin, .lostMessageRequest parent⟩], rfl, ?_⟩
    intro p hp
    rw [List.mem_singleton.mp hp]
    exact ⟨parent, rfl⟩

theorem bookkeeping_foldl_awaitParent (envKey : Key) (origin : ReplicaID) (missing : List Key)
    (c : Conversation) : Bookkeeping E c (missing.foldl (awaitParent envKey origin) c) := by
  induction missing generalizing c with
  | nil => exact Bookkeeping.refl E c
  | cons m ms ih => exact (bookkeeping_awaitParent envKey origin c m).trans (ih _)

theorem graph_foldl_awaitParent (envKey : Key) (origin : ReplicaID) (missing : List Key)
    (c : Conversation) : (missing.foldl (awaitParent envKey origin) c).graph = c.graph := by
  rw [(bookkeeping_foldl_awaitParent (E := fun _ => True) envKey origin missing c).frame]

theorem membership_foldl_awaitParent (envKey : Key) (origin : ReplicaID) (missing : List Key)
    (c : Conversation) :
    (missing.foldl (awaitParent envKey origin) c).membership = c.membership := by
  rw [(bookkeeping_foldl_awaitParent (E := fun _ => True) envKey origin missing c).frame]

theorem deferredIn_insert {k : Key} {pe : PendingEnvelope} (h : DeferredIn E c)
    (he : E pe.env) : DeferredIn E { c with deferred := c.deferred.insert k pe } := by
  intro k' pe' hl
  rcases lookup_insert_cases hl with ⟨rfl, rfl⟩ | ⟨_, hl⟩
  · exact he
  · exact h k' pe' hl

theorem deferredIn_erase {k : Key} (h : DeferredIn E c) :
    DeferredIn E { c with deferred := c.deferred.erase k } := by
  intro k' pe' hl
  exact h k' pe' (lookup_erase_cases hl).2

theorem bookkeeping_deferEnvelope {env : Envelope} (he : E env) (missing : List Key)
    (origin : ReplicaID) (c : Conversation) :
    Bookkeeping E c (c.deferEnvelope env missing origin) := by
  unfold deferEnvelope
  split
  · exact Bookkeeping.refl E c
  · rename_i seq _
    dsimp only
    split
    · exact Bookkeeping.refl E c
    · refine (bookkeeping_foldl_awaitParent ⟨env.sender, seq⟩ origin missing c).trans ?_
      exact ⟨rfl, fun h => deferredIn_insert h he, [], by simp, by simp⟩

section Release
variable {handle : Conversation → Envelope → ReplicaID → Conversation}

theorem moves_releaseDependent
    (hh : ∀ c env origin, DeferredIn E c → E env → Moves io E c (handle c env origin))
    (parent : Key) (c : Conversation) (hd : DeferredIn E c) (k : Key) :
    Moves io E c (releaseDependent handle parent c k) := by
  unfold releaseDependent
  split
  · exact .refl
  · rename_i pe hpe
    dsimp only
    split
    · have hstep : Bookkeeping E c { c with deferred := c.deferred.erase k } :=
        ⟨rfl, deferredIn_erase, [], by simp, by simp⟩
      exact (ReflTransGen.single (.bookkeeping hstep)).trans
        (hh _ _ _ (deferredIn_erase hd) (hd k pe hpe))
    · exact .single (.bookkeeping ⟨rfl, fun h => deferredIn_insert h (hd k pe hpe), [],
        by simp, by simp⟩)

theorem moves_foldl_releaseDependent
    (hh : ∀ c env origin, DeferredIn E c → E env → Moves io E c (handle c env origin))
    (parent : Key) (keys : List Key) (c : Conversation) (hd : DeferredIn E c) :
    Moves io E c (keys.foldl (releaseDependent handle parent) c) := by
  induction keys generalizing c with
  | nil => exact .refl
  | cons k ks ih =>
    have hm := moves_releaseDependent hh parent c hd k
    exact hm.trans (ih _ (hm.deferredIn hd))

theorem moves_processNewlyAvailable
    (hh : ∀ c env origin, DeferredIn E c → E env → Moves io E c (handle c env origin))
    (c : Conversation) (hd : DeferredIn E c) (parent : Key) :
    Moves io E c (processNewlyAvailable io handle c parent) := by
  unfold processNewlyAvailable
  dsimp only
  split
  · exact .single (.bookkeeping ⟨rfl, id, [], by simp, by simp⟩)
  · exact (ReflTransGen.single (.bookkeeping ⟨rfl, id, [], by simp, by simp⟩)).trans
      (moves_foldl_releaseDependent hh parent _ _ hd)

end Release

/-- The recursive handler is a sequence of moves over its argument and the envelopes
that were deferred before. -/
theorem moves_handleEnvelope (fuel : ℕ) (c : Conversation) (env : Envelope)
    (origin : ReplicaID) (hd : DeferredIn E c) (he : E env) :
    Moves io E c (handleEnvelope io fuel c env origin) := by
  induction fuel generalizing c env origin with
  | zero => exact .refl
  | succ fuel ih =>
    rw [handleEnvelope]
    split
    · exact .refl
    · rename_i k hk
      split
      · exact .single (.bookkeeping (bookkeeping_deferEnvelope he _ origin c))
      · exact .refl
      · rename_i g n hi
        have hm : Move io E c (c.accept io env k g) := .accept he hk hi
        exact (ReflTransGen.single hm).trans
          (moves_processNewlyAvailable ih _ (hm.deferredIn hd) k)

theorem screen_eq_some {env : Envelope} {k : Key} (h : c.screen env = some k) :
    env.id.sender = some k.sender ∧ c.membership.senderSeq env.id = some k.seq ∧
      c.graph.has k = false := by
  unfold screen at h
  split_ifs at h
  split at h
  · cases h
  · rename_i sender hs
    split_ifs at h
    split at h
    · cases h
    · rename_i seq hq
      split_ifs at h with hh
      cases h
      exact ⟨hs, hq, by simpa using hh⟩

theorem keyOf_of_screen {env : Envelope} {k : Key} (hs : c.screen env = some k) :
    c.membership.keyOf env = some k := by
  obtain ⟨hsender, hseq, _⟩ := screen_eq_some hs
  rw [Membership.keyOf, hseq, Option.map_some, Envelope.sender, hsender]
  rfl

/-- The key under which `handleEnvelope` logs an envelope is that of its node. -/
theorem screen_key {env : Envelope} {k : Key} {g : Graph} {n : Node}
    (h : c.screen env = some k) (hi : c.graph.insert c.membership env = .ok (g, n)) :
    n.key = k := by
  obtain ⟨hs, hq, _⟩ := screen_eq_some h
  obtain ⟨_, rfl, hd, _, _⟩ := Graph.insert_ok hi
  have hsender : n.envelope.sender = k.sender := by simp [Envelope.sender, hs]
  have hslot := hd.slot
  rw [Membership.senderSeq, hs, Option.getD_some, ← hsender, hslot] at hq
  simp only [if_pos hd.slot_lt, Option.some.injEq] at hq
  exact Key.ext hsender (hd.seq.symm.trans hq)

end Comlink.Conversation
