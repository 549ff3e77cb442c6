import Comlink.ArrivalOrder
import Comlink.MetadataRegistry
import Comlink.SemReplica

/-!
# Convergence of the metadata registries

The system conversation delivers in some causal order, and different replicas may deliver
messages that are concurrent in different orders. A registry applies what it gets as it
comes, so that of two concurrent operations on one name each replica keeps the one that it
has got last. Registries that have applied the same operations agree in general if and only
if concurrent operations on one name do the same to it.
-/
namespace Comlink
open GuardedRuns LastWriter Relation

namespace Conversation

variable {m : Membership} {convID : ConversationID} {U : Finset Envelope} {g : Graph}
variable {c : Conversation} {members : List ReplicaID} {L ops : List Envelope}

/-- A finite set of messages as replicas send them: each names its parents, which belong to
the set, and none is among its own ancestors. -/
structure History (m : Membership) (convID : ConversationID) (U : Finset Envelope) : Prop
    extends ClosedFamily m convID U where
  acyclic : ∀ e, ¬ TransGen (ParentIn m U) e e

/-- `x` happens before `y`. -/
abbrev Precedes (m : Membership) (U : Finset Envelope) : Envelope → Envelope → Prop :=
  TransGen (ParentIn m U)

def Concurrent (m : Membership) (U : Finset Envelope) (x y : Envelope) : Prop :=
  x ≠ y ∧ ¬ Precedes m U x y ∧ ¬ Precedes m U y x

theorem History.isStrictOrder (h : History m convID U) :
    IsStrictOrder Envelope (Precedes m U) where
  irrefl := h.acyclic
  trans _ _ _ := TransGen.trans

/-- What an instance gets from its conversation, in this order: deliveries of a run over the
history. The conversation may have fewer slots than the last one to join knows, and a full
channel loses messages. -/
def Applied (convID : ConversationID) (members : List ReplicaID) (U : Finset Envelope)
    (ops : List Envelope) : Prop :=
  ∃ self configured mask log c₀ c, Conversation.new convID self configured mask log = some c₀ ∧
    Reach serve (fun _ _ => True) c₀ c ∧ c.membership.Grown (Membership.ofReplicas members) ∧
    (∀ n ∈ c.graph.nodes, n.envelope ∈ U) ∧ ops.Sublist c.delivered

section Respecting

/-- The parents of a node stand before it. -/
theorem mem_of_parentIn (hU : ClosedFamily m convID U) (hs : g.Sound m)
    (hin : ∀ n ∈ g.nodes, n.envelope ∈ U) {pre post : List Node} {n : Node} {e : Envelope}
    (hg : g.nodes = pre ++ n :: post) (he : ParentIn m U e n.envelope) :
    e ∈ pre.map Node.envelope := by
  obtain ⟨heU, -, w, hw, hkey⟩ := he
  have hn : n ∈ g.nodes := by simp [hg]
  rw [(hs.derived n hn).derivedParents] at hw
  obtain ⟨p, hp, rfl⟩ := Graph.has_iff.mp (hs.parentsFirst pre n post hg w hw)
  have hpg : p ∈ g.nodes := by
    rw [hg]
    exact List.mem_append_left _ hp
  have hsame := hU.distinct p.envelope (hin p hpg) e heU
    ((hs.derived p hpg).keyOf.trans hkey.symm)
  exact List.mem_map.mpr ⟨p, hp, hsame⟩

theorem mem_of_precedes (hU : ClosedFamily m convID U) (hs : g.Sound m)
    (hin : ∀ n ∈ g.nodes, n.envelope ∈ U) {pre post : List Node} {n : Node} {e : Envelope}
    (hg : g.nodes = pre ++ n :: post) (he : Precedes m U e n.envelope) :
    e ∈ pre.map Node.envelope := by
  generalize hx : n.envelope = x at he
  induction he generalizing pre n post with
  | single hp =>
    subst hx
    exact mem_of_parentIn hU hs hin hg hp
  | tail _ hp ih =>
    subst hx
    obtain ⟨p, hpre, hpe⟩ := List.mem_map.mp (mem_of_parentIn hU hs hin hg hp)
    obtain ⟨u, v, rfl⟩ := List.append_of_mem hpre
    have hsplit : g.nodes = u ++ p :: (v ++ n :: post) := by simp [hg]
    rw [List.map_append]
    exact List.mem_append_left _ (ih hsplit hpe)

theorem respects_nodes (hU : ClosedFamily m convID U) (hs : g.Sound m)
    (hin : ∀ n ∈ g.nodes, n.envelope ∈ U) :
    Respects (Precedes m U) (g.nodes.map Node.envelope) := by
  have hn := hs.nodup_envelopes
  suffices h : ∀ pre post, g.nodes = pre ++ post →
      Respects (Precedes m U) (post.map Node.envelope) from h [] g.nodes rfl
  intro pre post hg
  induction post generalizing pre with
  | nil => exact List.Pairwise.nil
  | cons n post ih =>
    refine List.pairwise_cons.mpr ⟨fun e he hbefore => ?_, ih (pre ++ [n]) (by simp [hg])⟩
    have hpre := mem_of_precedes hU hs hin hg hbefore
    rw [hg, List.map_append, List.nodup_append] at hn
    exact hn.2.2 e hpre e (List.mem_cons_of_mem _ he) rfl

/-- Whatever the run, an instance gets its messages in causal order. -/
theorem Applied.respects (hU : History (Membership.ofReplicas members) convID U)
    (h : Applied convID members U ops) :
    Respects (Precedes (Membership.ofReplicas members) U) ops ∧ ∀ e ∈ ops, e ∈ U := by
  obtain ⟨self, configured, mask, log, c₀, c, hnew, hr, hg, hin, hsub⟩ := h
  obtain ⟨hseat, ns, hns, hdelivered⟩ := channel_of_reach hnew hr
  have hnodes : ops.Sublist (c.graph.nodes.map Node.envelope) := by
    rw [hdelivered] at hsub
    exact hsub.trans (hns.map Node.envelope)
  have hrespects := respects_nodes hU.toClosedFamily (hseat.sound.grown hg) hin
  refine ⟨hrespects.sublist hnodes, fun e he => ?_⟩
  obtain ⟨n, hn, rfl⟩ := List.mem_map.mp (hnodes.subset he)
  exact hin n hn

end Respecting

section Realising

theorem reach_receiveAll (c : Conversation) (arrivals : List Arrival) :
    Reach serve (fun _ _ => True) c (c.receiveAll arrivals) := by
  induction arrivals generalizing c with
  | nil => exact .refl
  | cons a as ih =>
    have hstep : Step serve (fun _ _ => True) c
        (c.handleIncoming a.io a.origin (.envelope a.env)) :=
      ⟨.request (.incoming a.io a.origin (.envelope a.env)), trivial, rfl⟩
    exact (ReflTransGen.single hstep).trans (ih _)

theorem allReplicas_receiveAll (c : Conversation) (arrivals : List Arrival) :
    (c.receiveAll arrivals).membership.allReplicas = c.membership.allReplicas := by
  induction arrivals generalizing c with
  | nil => rfl
  | cons a as ih =>
    exact (ih _).trans (Moves.extends (moves_incoming c a.io a.origin a.env)).members

theorem covers_arrivalsOf (L : List Envelope) : Covers L.toFinset (arrivalsOf L) := by
  simp [Covers, arrivalsOf, Function.comp_def]

/-- A part of a history that is closed under what happens before is one. -/
theorem History.part (hU : History m convID U) (hL : Enumerates (Precedes m U) U L) :
    History m convID L.toFinset := by
  have hsub : ∀ e ∈ L.toFinset, e ∈ U := fun e he => hL.subset e (List.mem_toFinset.mp he)
  refine ⟨⟨fun e he => hU.wellFormed e (hsub e he), ?_, ?_⟩, fun e he => ?_⟩
  · exact fun e he e' he' => hU.distinct e (hsub e he) e' (hsub e' he')
  · intro e he w hw
    obtain ⟨p, hp, hkey⟩ := hU.closed e (hsub e he) w hw
    refine ⟨p, List.mem_toFinset.mpr ?_, hkey⟩
    exact hL.closed e (List.mem_toFinset.mp he) p hp
      (TransGen.single ⟨hp, hsub e he, w, hw, hkey⟩)
  · refine hU.acyclic e (TransGen.mono (fun x y hxy => ?_) _ _ he)
    exact ⟨hsub x hxy.1, hsub y hxy.2.1, hxy.2.2⟩

/-- Messages that arrive in causal order are delivered as they arrive. -/
theorem delivered_receiveAll {self : ReplicaID} {c₀ : Conversation}
    (hnew : Conversation.new convID self members [] .empty = some c₀)
    (hm : c₀.membership = m) (hU : History m convID U)
    (hL : Enumerates (Precedes m U) U L) : (c₀.receiveAll (arrivalsOf L)).delivered = L := by
  have hirrefl : Std.Irrefl (Precedes m U) := ⟨hU.acyclic⟩
  induction L using List.reverseRecOn with
  | nil =>
    obtain ⟨slot, _, rfl⟩ := Option.map_eq_some_iff.mp hnew
    rfl
  | append_singleton L e ih =>
    have hbefore := ih hL.left
    have hpart := hU.part hL
    rw [← hm] at hpart
    have hcomplete := complete_receiveAll hnew hpart.toClosedFamily hpart.acyclic
      (covers_arrivalsOf (L ++ [e]))
    have hlast : c₀.receiveAll (arrivalsOf (L ++ [e])) =
        (c₀.receiveAll (arrivalsOf L)).handleIncoming .standard [1] (.envelope e) := by
      simp [receiveAll, arrivalsOf]
    have hgrows := (Moves.extends (moves_incoming (c₀.receiveAll (arrivalsOf L)) .standard [1]
      e)).delivered
    rw [← hlast, hbefore] at hgrows
    obtain ⟨rest, hrest⟩ := hgrows
    have hperm := List.perm_of_nodup_nodup_toFinset_eq hcomplete.delivered_nodup hL.nodup
      hcomplete.delivered
    rw [← hrest, List.perm_append_left_iff, List.perm_singleton] at hperm
    rw [← hrest, hperm]

/-- Every causal order of a part of the history is one in which some instance may get it. -/
theorem applied_of_enumerates (hU : History (Membership.ofReplicas members) convID U)
    (hL : Enumerates (Precedes (Membership.ofReplicas members) U) U L) {self : ReplicaID}
    (hself : self ∈ members) : Applied convID members U L := by
  obtain ⟨slot, hslot⟩ : ∃ slot, (Membership.ofReplicas members).slotOf self = some slot := by
    rw [Membership.slotOf_isSome_iff, Membership.allReplicas_ofReplicas]
    exact hself
  have hnew : Conversation.new convID self members [] .empty =
      some (init convID self slot members [] .empty) := by rw [Conversation.new, hslot]; rfl
  have hdelivered := delivered_receiveAll hnew rfl hU hL
  have hpart := hU.part hL
  have hcomplete := complete_receiveAll hnew hpart.toClosedFamily hpart.acyclic
    (covers_arrivalsOf L)
  refine ⟨self, members, [], .empty, _, _, hnew, reach_receiveAll _ (arrivalsOf L), ?_, ?_, ?_⟩
  · exact .of_eq (allReplicas_receiveAll (init convID self slot members [] .empty) _).symm
  · intro n hn
    exact hL.subset _ (List.mem_toFinset.mp ((hcomplete.nodes n).mp hn).1)
  · rw [hdelivered]

end Realising

end Conversation

namespace MetadataRegistry
open Conversation

variable {K : FrameCodec} {J : RegistryCodec} {convID : ConversationID}
variable {members : List ReplicaID} {U : Finset Envelope} {xs ys : List Envelope}

/-- Concurrent operations on one name do the same to it. -/
def Settling (K : FrameCodec) (J : RegistryCodec) (members : List ReplicaID)
    (U : Finset Envelope) : Prop :=
  ∀ x ∈ U, ∀ y ∈ U, Concurrent (Membership.ofReplicas members) U x y →
    ∀ name v w, effectOf K J x = some (name, v) → effectOf K J y = some (name, w) → v = w

theorem get_run_eq (hU : History (Membership.ofReplicas members) convID U)
    (hs : Settling K J members U) (hxs : Applied convID members U xs)
    (hys : Applied convID members U ys)
    (hops : ∀ env, effectOf K J env ≠ none → (env ∈ xs ↔ env ∈ ys)) :
    (run K J xs).get = (run K J ys).get := by
  obtain ⟨hrespects, hin⟩ := hxs.respects hU
  rw [get_run, get_run]
  refine foldl_write_eq hrespects (hys.respects hU).1 ?_ ?_
  · intro env k v he
    exact hops env (by simp [he])
  · intro x hx y hy k v w hv hw
    by_cases hxy : Precedes (Membership.ofReplicas members) U x y
    · exact Or.inl hxy
    · by_cases hyx : Precedes (Membership.ofReplicas members) U y x
      · exact Or.inr (Or.inl hyx)
      · refine Or.inr (Or.inr ?_)
        by_cases hne : x = y
        · subst hne
          rw [hv] at hw
          cases hw
          rfl
        · exact hs x (hin x hx) y (hin y hy) ⟨hne, hxy, hyx⟩ k v w hv hw

/-- Two concurrent operations may come last in either order. -/
theorem exists_applied_swap (hU : History (Membership.ofReplicas members) convID U)
    {x y : Envelope} (hx : x ∈ U) (hy : y ∈ U)
    (hxy : Concurrent (Membership.ofReplicas members) U x y) :
    ∃ past, Applied convID members U (past ++ [x, y]) ∧
      Applied convID members U (past ++ [y, x]) := by
  have horder := hU.isStrictOrder
  obtain ⟨past, hfirst, hsecond⟩ := exists_swap hx hy hxy.1 hxy.2.1 hxy.2.2
  obtain ⟨slot, -, hslot, -⟩ := (hU.wellFormed x hx).clock
  have hself : x.sender ∈ members := by
    have hmem := Membership.slotOf_isSome_iff.mp ⟨slot, hslot⟩
    rwa [Membership.allReplicas_ofReplicas] at hmem
  exact ⟨past, applied_of_enumerates hU hfirst hself, applied_of_enumerates hU hsecond hself⟩

/-- Registries that have applied the same operations, each in some order in which the system
conversation may deliver them, always hold the same entries if and only if concurrent
operations on one name do the same to it. -/
theorem registries_agree_iff (K : FrameCodec) (J : RegistryCodec) {convID : ConversationID}
    {members : List ReplicaID} {U : Finset Envelope}
    (hU : History (Membership.ofReplicas members) convID U) :
    (∀ xs ys, Applied convID members U xs → Applied convID members U ys →
      (∀ env, effectOf K J env ≠ none → (env ∈ xs ↔ env ∈ ys)) →
      ∀ name, (run K J xs).get name = (run K J ys).get name) ↔ Settling K J members U := by
  constructor
  · intro hagree x hx y hy hxy name v w hv hw
    obtain ⟨past, hfirst, hsecond⟩ := exists_applied_swap hU hx hy hxy
    have heq := hagree _ _ hsecond hfirst (by simp [or_comm]) name
    rw [get_run, get_run, List.append_cons past y [x], List.append_cons past x [y],
      foldl_write_of_last hv (by simp), foldl_write_of_last hw (by simp)] at heq
    exact heq
  · intro hs xs ys hxs hys hops name
    exact congrFun (get_run_eq hU hs hxs hys hops) name

/-- Operations are named by their place in a table. -/
def tableCodec (table : List RegistryOp) : RegistryCodec where
  marshal op := [UInt8.ofNat (table.idxOf op)]
  unmarshal
    | [b] => table[b.toNat]?
    | _ => none

def ordersFor (conv : ConversationID) : ConvInfo := ⟨"orders", conv, [[1], [2]], 7, []⟩

def twoOffers : RegistryCodec :=
  tableCodec [⟨.register, ordersFor [1], ""⟩, ⟨.register, ordersFor [2], ""⟩]

/-- The envelope of a message that was submitted with `SubmitMetadata`. -/
def submitted (r : ReplicaID) (clock : VectorClock) (payload : List UInt8) : Envelope :=
  ⟨⟨some [9], some r, clock⟩, FrameCodec.tagged.marshal (.app payload)⟩

/-- `[2]` knows the offer of `[1]` when it makes its own. -/
def replacement : Finset Envelope :=
  [submitted [1] [1, 0] [0], submitted [2] [1, 1] [1]].toFinset

theorem history_replacement : History (Membership.ofReplicas [[1], [2]]) [9] replacement := by
  refine ⟨⟨?_, by decide +kernel, by decide +kernel⟩,
    acyclic_of_lt (·.id.vectorClock.sum) (by decide +kernel)⟩
  intro e he
  simp only [replacement, List.mem_toFinset, List.mem_cons, List.not_mem_nil, or_false] at he
  rcases he with rfl | rfl
  · exact ⟨rfl, 0, rfl, rfl, by decide, by decide, by decide⟩
  · exact ⟨rfl, 1, rfl, rfl, by decide, by decide, by decide⟩

theorem registries_agree_iff_replacement :
    History (Membership.ofReplicas [[1], [2]]) [9] replacement ∧
      ∀ xs ys, Applied [9] [[1], [2]] replacement xs → Applied [9] [[1], [2]] replacement ys →
        (∀ env, effectOf .tagged twoOffers env ≠ none → (env ∈ xs ↔ env ∈ ys)) →
        ∀ name, (run .tagged twoOffers xs).get name = (run .tagged twoOffers ys).get name := by
  refine ⟨history_replacement,
    (registries_agree_iff .tagged twoOffers history_replacement).mpr ?_⟩
  rintro x hx y hy ⟨hne, hxy, hyx⟩
  have hordered : ∀ x ∈ replacement, ∀ y ∈ replacement, x = y ∨
      (∃ w ∈ Graph.derivedParents (Membership.ofReplicas [[1], [2]]) y,
        (Membership.ofReplicas [[1], [2]]).keyOf x = some w) ∨
      ∃ w ∈ Graph.derivedParents (Membership.ofReplicas [[1], [2]]) x,
        (Membership.ofReplicas [[1], [2]]).keyOf y = some w := by decide +kernel
  rcases hordered x hx y hy with heq | hp | hp
  · exact absurd heq hne
  · exact absurd (TransGen.single ⟨hx, hy, hp⟩) hxy
  · exact absurd (TransGen.single ⟨hy, hx, hp⟩) hyx

/-- `[1]` and `[2]` register the same name without knowing of each other. Each gets its own
operation first and the other one afterwards, and the two entries differ for ever. -/
theorem registries_part_on_concurrent_offers : ∃ p₁ p₂ c₁ c₂,
    register twoOffers true 7 (ordersFor [1]) = .ok p₁ ∧
    register twoOffers true 7 (ordersFor [2]) = .ok p₂ ∧
    Reach serve (fun _ _ => True) (init [9] [1] 0 [[1], [2]] [] .empty) c₁ ∧
    Reach serve (fun _ _ => True) (init [9] [2] 1 [[1], [2]] [] .empty) c₂ ∧
    c₁.delivered = [submitted [1] [1, 0] p₁, submitted [2] [0, 1] p₂] ∧
    c₂.delivered = [submitted [2] [0, 1] p₂, submitted [1] [1, 0] p₁] ∧
    (run .tagged twoOffers c₁.delivered).get "orders" = some (ordersFor [2]) ∧
    (run .tagged twoOffers c₂.delivered).get "orders" = some (ordersFor [1]) ∧
    ¬ ∀ name, (run .tagged twoOffers c₁.delivered).get name =
      (run .tagged twoOffers c₂.delivered).get name := by
  have hfirst : (execute serve (fun _ _ => True) (init [9] [1] 0 [[1], [2]] [] .empty)
      [.request (.send .standard (FrameCodec.tagged.marshal (.app [0]))),
        .request (.incoming .standard [2] (.envelope (submitted [2] [0, 1] [1])))]).map (fun c =>
      decide (c.delivered = [submitted [1] [1, 0] [0], submitted [2] [0, 1] [1]])) =
        some true := by decide +kernel
  have hsecond : (execute serve (fun _ _ => True) (init [9] [2] 1 [[1], [2]] [] .empty)
      [.request (.send .standard (FrameCodec.tagged.marshal (.app [1]))),
        .request (.incoming .standard [1] (.envelope (submitted [1] [1, 0] [0])))]).map (fun c =>
      decide (c.delivered = [submitted [2] [0, 1] [1], submitted [1] [1, 0] [0]])) =
        some true := by decide +kernel
  obtain ⟨c₁, -, hr₁, hc₁⟩ := reach_of_execute hfirst
  obtain ⟨c₂, -, hr₂, hc₂⟩ := reach_of_execute hsecond
  have hd₁ := of_decide_eq_true hc₁
  have hd₂ := of_decide_eq_true hc₂
  have hg₁ : (run .tagged twoOffers c₁.delivered).get "orders" = some (ordersFor [2]) := by
    rw [hd₁]
    decide +kernel
  have hg₂ : (run .tagged twoOffers c₂.delivered).get "orders" = some (ordersFor [1]) := by
    rw [hd₂]
    decide +kernel
  refine ⟨[0], [1], c₁, c₂, by rfl, by rfl, hr₁, hr₂, hd₁, hd₂, hg₁, hg₂, fun hsame => ?_⟩
  rw [hsame "orders", hg₂] at hg₁
  exact absurd hg₁ (by decide)

end MetadataRegistry
end Comlink
