import Comlink.CausalDelivery
import Comlink.StuckDeferral
import Mathlib.Data.Finset.Dedup
import Mathlib.Order.WellFounded
import Mathlib.Data.Fintype.EquivFin

/-!
# Independence of the order of arrival

A family of envelopes that is closed under the parents its clocks name, and in which
no envelope is its own ancestor, is inserted completely once every member of it has
arrived, in whatever order and however often. An envelope that has arrived is in the
graph or deferred; a deferred one waits on a parent that is not in the graph, so on
one that is deferred as well, and descending along such parents would never end.
-/
namespace Comlink.Conversation
open AssociationLists GuardedRuns Relation

variable {io : HandlerChoices} {c c' : Conversation} {env : Envelope} {origin : ReplicaID}
variable {todo new : Todo} {k p w : Key} {m : Membership} {convID : ConversationID}
variable {E : Finset Envelope}

/-- An envelope of the conversation whose clock fits the member list. -/
structure WellFormed (m : Membership) (convID : ConversationID) (env : Envelope) : Prop where
  conversation : env.id.conversationId = some convID
  clock : ∃ slot, env.id.sender = some env.sender ∧ m.slotOf env.sender = some slot ∧
    slot < env.id.vectorClock.length ∧ env.id.vectorClock.length ≤ m.len ∧
    env.id.vectorClock.atSlot slot ≠ 0

structure ClosedFamily (m : Membership) (convID : ConversationID) (E : Finset Envelope) :
    Prop where
  wellFormed : ∀ e ∈ E, WellFormed m convID e
  distinct : ∀ e ∈ E, ∀ e' ∈ E, m.keyOf e = m.keyOf e' → e = e'
  closed : ∀ e ∈ E, ∀ w ∈ Graph.derivedParents m e, ∃ p ∈ E, m.keyOf p = some w

/-- `p` is a parent of `e` inside the family. -/
def ParentIn (m : Membership) (E : Finset Envelope) (p e : Envelope) : Prop :=
  p ∈ E ∧ e ∈ E ∧ ∃ w ∈ Graph.derivedParents m e, m.keyOf p = some w

/-- One incoming envelope frame. -/
structure Arrival where
  io : HandlerChoices
  origin : ReplicaID
  env : Envelope

def receiveAll (c : Conversation) (arrivals : List Arrival) : Conversation :=
  arrivals.foldl (fun c a => c.handleIncoming a.io a.origin (.envelope a.env)) c

/-- Only envelopes of the family arrive, and each of them at least once. -/
def Covers (E : Finset Envelope) (arrivals : List Arrival) : Prop :=
  (arrivals.map Arrival.env).toFinset = E

instance (E : Finset Envelope) (arrivals : List Arrival) : Decidable (Covers E arrivals) :=
  inferInstanceAs (Decidable (_ = _))

theorem Covers.mem_iff {arrivals : List Arrival} (h : Covers E arrivals) :
    env ∈ E ↔ ∃ a ∈ arrivals, a.env = env := by
  rw [← h, List.mem_toFinset, List.mem_map]

section OneEnvelope

theorem WellFormed.keyOf (h : WellFormed m convID env) : ∃ k, m.keyOf env = some k := by
  obtain ⟨slot, _, hslot, hlt, _, _⟩ := h.clock
  refine ⟨⟨env.sender, env.id.vectorClock.atSlot slot⟩, ?_⟩
  rw [Membership.keyOf, Membership.senderSeq,
    show m.slotOf (env.id.sender.getD []) = some slot from hslot]
  simp [hlt]

/-- A well-formed envelope is turned away only if it is in the graph already. -/
theorem WellFormed.has_of_screen (h : WellFormed c.membership c.convID env) (hmask : c.mask = [])
    (hk : c.membership.keyOf env = some k) (hs : c.screen env = none) : c.graph.has k = true := by
  obtain ⟨slot, hsender, hslot, _, _, _⟩ := h.clock
  obtain ⟨seq, hseq, rfl⟩ := Option.map_eq_some_iff.mp hk
  simp only [screen, h.conversation, hsender, hslot, hmask, hseq] at hs
  by_contra hno
  simp [hno] at hs

theorem WellFormed.insert_cases (h : WellFormed c.membership c.convID env)
    (hs : c.screen env = some k) :
    (∃ r, c.graph.insert c.membership env = .ok r) ∨
      ∃ missing, c.graph.insert c.membership env = .error (.missingParents missing) := by
  obtain ⟨slot, hsender, hslot, hlt, hlen, hpos⟩ := h.clock
  obtain ⟨hks, hseq, hnot⟩ := screen_eq_some hs
  have hnew : c.graph.lookup ⟨env.sender, env.id.vectorClock.atSlot slot⟩ = none := by
    have hkey := keyOf_of_screen hs
    rw [Membership.keyOf, Membership.senderSeq,
      show c.membership.slotOf (env.id.sender.getD []) = some slot from hslot] at hkey
    simp only [hlt, if_true, Option.map_some, Option.some.injEq] at hkey
    rw [hkey]
    simpa [Graph.has] using hnot
  simp only [Graph.insert, hsender, hslot, if_neg (Nat.not_le.mpr hlt), if_neg hpos, hnew,
    if_neg (Nat.not_lt.mpr hlen)]
  split
  · exact Or.inl ⟨_, rfl⟩
  · exact Or.inr ⟨_, rfl⟩

/-- The message with this key has arrived and was not dropped. -/
def Held (c : Conversation) (k : Key) : Prop :=
  c.graph.has k = true ∨ ∃ pe, c.deferred.lookup k = some pe

theorem Handled.held (hh : Handled io c env origin c' new) (hw : Held c w) : Held c' w := by
  cases hh.outcome with
  | unchanged => exact hw
  | entered hk hl hi =>
    rename_i k missing
    have hgraph := graph_foldl_awaitParent k origin missing c
    refine hw.imp (fun hg => ?_) (fun ⟨pe, hpe⟩ => ⟨pe, ?_⟩)
    · exact (congrArg (Graph.has · w) hgraph).trans hg
    · have hne : w ≠ k := by
        rintro rfl
        rw [hl] at hpe
        cases hpe
      exact (AList.lookup_insert_ne hne).trans hpe
  | accepted hs hi => exact hw.imp_left fun hg => (has_insert hi w).mpr (Or.inr hg)

/-- Once a well-formed envelope has been handled, it is in the graph or deferred. -/
theorem Handled.held_self (hh : Handled io c env origin c' new)
    (hf : WellFormed c.membership c.convID env) (hmask : c.mask = [])
    (hk : c.membership.keyOf env = some k) : Held c' k := by
  cases hh with
  | screened hs => exact Or.inl (hf.has_of_screen hmask hk hs)
  | refused hs hi hne =>
    rcases hf.insert_cases hs with ⟨r, hr⟩ | ⟨missing, hr⟩
    · rw [hi] at hr
      cases hr
    · rw [hi] at hr
      cases hr
      exact absurd rfl (hne missing)
  | deferred hs hi =>
    rename_i k' missing
    rcases deferEnvelope_cases c env missing origin hk with ⟨pe, hpe, he⟩ | ⟨_, he⟩
    · rw [he]
      exact Or.inr ⟨pe, hpe⟩
    · rw [he]
      exact Or.inr ⟨_, AList.lookup_insert _⟩
  | accepted hs hi =>
    refine Or.inl ((has_insert hi k).mpr (Or.inl ?_))
    rw [screen_key hs hi]
    exact Option.some.inj (hk.symm.trans (keyOf_of_screen hs))

end OneEnvelope

section Collecting

/-- Everything that the conversation holds belongs to the family. -/
structure Collecting (m : Membership) (convID : ConversationID) (E : Finset Envelope)
    (c : Conversation) (todo : Todo) : Prop extends Cascade (fun _ => True) c todo where
  membership : c.membership = m
  conversation : c.convID = convID
  mask : c.mask = []
  nodes : ∀ n ∈ c.graph.nodes, n.envelope ∈ E
  pending : DeferredIn (· ∈ E) c

theorem WellFormed.not_laterEra (h : WellFormed m convID env) (hm : c.membership = m) :
    ¬ c.LaterEra env := by
  obtain ⟨_, _, _, _, hlen, _⟩ := h.clock
  rw [LaterEra, hm]
  exact Nat.not_lt.mpr hlen

theorem kept_deferEnvelope (c : Conversation) (env : Envelope) (missing : List Key)
    (origin : ReplicaID) : (c.deferEnvelope env missing origin).membership = c.membership ∧
      (c.deferEnvelope env missing origin).convID = c.convID ∧
      (c.deferEnvelope env missing origin).mask = c.mask ∧
      (c.deferEnvelope env missing origin).graph = c.graph := by
  have hb : Bookkeeping (fun _ => True) c (c.deferEnvelope env missing origin) :=
    bookkeeping_deferEnvelope trivial missing origin c
  rw [hb.frame]
  exact ⟨rfl, rfl, rfl, rfl⟩

theorem Handled.kept (hh : Handled io c env origin c' new) :
    c'.membership = c.membership ∧ c'.convID = c.convID ∧ c'.mask = c.mask ∧
      ∀ n ∈ c'.graph.nodes, n ∈ c.graph.nodes ∨ n.envelope = env := by
  cases hh with
  | screened hs => exact ⟨rfl, rfl, rfl, fun _ => Or.inl⟩
  | refused hs hi hne => exact ⟨rfl, rfl, rfl, fun _ => Or.inl⟩
  | deferred hs hi =>
    obtain ⟨hm, hc, hk, hg⟩ := kept_deferEnvelope c env _ origin
    exact ⟨hm, hc, hk, fun n hn => Or.inl (hg ▸ hn)⟩
  | accepted hs hi =>
    obtain ⟨rfl, rfl, _, _, _⟩ := Graph.insert_ok hi
    refine ⟨rfl, rfl, rfl, fun n hn => ?_⟩
    rcases List.mem_append.mp hn with hn | hn
    · exact Or.inl hn
    · rw [List.mem_singleton.mp hn]
      exact Or.inr rfl

theorem Collecting.handled (hE : ∀ e ∈ E, WellFormed m convID e)
    (h : Collecting m convID E c todo) (he : env ∈ E) (hh : Handled io c env origin c' new) :
    Collecting m convID E c' (new ++ todo) := by
  have hcascade := h.toCascade.handled hh (fun _ _ => trivial)
    ((hE env he).not_laterEra h.membership)
  obtain ⟨hm, hc, hk, hnodes⟩ := hh.kept
  refine ⟨hcascade, hm.trans h.membership, hc.trans h.conversation, hk.trans h.mask, ?_, ?_⟩
  · intro n hn
    rcases hnodes n hn with hold | hnew
    · exact h.nodes n hold
    · rwa [hnew]
  · cases hh with
    | screened hs => exact h.pending
    | refused hs hi hne => exact h.pending
    | deferred hs hi => exact (bookkeeping_deferEnvelope he _ origin c).deferred h.pending
    | accepted hs hi => exact h.pending

theorem Collecting.leave {pe : PendingEnvelope} (h : Collecting m convID E c ((p, k) :: todo))
    (hl : c.deferred.lookup k = some pe) (hw : pe.waiting.erase p = []) :
    Collecting m convID E { c with deferred := c.deferred.erase k } todo :=
  ⟨⟨h.toTracked.leave hl hw, fun _ _ _ => trivial, fun _ _ _ => trivial,
      fun d pe hd => h.early d pe (lookup_erase_cases hd).2⟩,
    h.membership, h.conversation, h.mask, h.nodes, deferredIn_erase h.pending⟩

theorem Collecting.turn {s t : Conversation × Todo} (hE : ∀ e ∈ E, WellFormed m convID e)
    (h : Collecting m convID E s.1 s.2) (ht : Turn io s t) :
    Collecting m convID E t.1 t.2 ∧ ∀ w, Held s.1 w → Held t.1 w := by
  have hcascade := h.toCascade.turn ht
  cases ht with
  | skip hl => exact absurd hl h.lookup_ne_none
  | wait hl hw =>
    rename_i c p k todo pe
    refine ⟨⟨hcascade, h.membership, h.conversation, h.mask, h.nodes,
      deferredIn_insert h.pending (h.pending k pe hl)⟩, fun w hheld => ?_⟩
    refine hheld.imp_right fun ⟨pe', hpe'⟩ => ?_
    by_cases hwk : w = k
    · subst hwk
      exact ⟨_, AList.lookup_insert _⟩
    · exact ⟨pe', (AList.lookup_insert_ne hwk).trans hpe'⟩
  | retry hl hw hh =>
    rename_i c c' p k todo new pe
    have he : pe.env ∈ E := h.pending k pe hl
    have hform : WellFormed c.membership c.convID pe.env := by
      rw [h.membership, h.conversation]
      exact hE pe.env he
    refine ⟨(h.leave hl hw).handled hE he hh, fun w hheld => ?_⟩
    by_cases hwk : w = k
    · subst hwk
      exact hh.held_self hform h.mask (h.keyed w pe hl)
    · refine hh.held (hheld.imp_right fun ⟨pe', hpe'⟩ => ⟨pe', ?_⟩)
      exact (AList.lookup_erase_ne hwk).trans hpe'

theorem Collecting.turns {s t : Conversation × Todo} (hE : ∀ e ∈ E, WellFormed m convID e)
    (h : Collecting m convID E s.1 s.2) (ht : Turns io s t) :
    Collecting m convID E t.1 t.2 ∧ ∀ w, Held s.1 w → Held t.1 w := by
  induction ht with
  | refl => exact ⟨h, fun _ hw => hw⟩
  | tail _ ht ih =>
    obtain ⟨hcollect, hheld⟩ := ih.1.turn hE ht
    exact ⟨hcollect, fun w hw => hheld w (ih.2 w hw)⟩

/-- An arriving member of the family is held from then on, and so is what was before. -/
theorem Collecting.incoming (hE : ∀ e ∈ E, WellFormed m convID e)
    (h : Collecting m convID E c []) (he : env ∈ E) (io : HandlerChoices) (origin : ReplicaID) :
    Collecting m convID E (c.handleIncoming io origin (.envelope env)) [] ∧
      ∀ w, Held c w ∨ m.keyOf env = some w →
        Held (c.handleIncoming io origin (.envelope env)) w := by
  obtain ⟨c₁, new, hh, hturns⟩ := turns_incoming c io origin env
  have h₁ := h.handled hE he hh
  rw [List.append_nil] at h₁
  obtain ⟨hcollect, hheld⟩ := Collecting.turns (s := (c₁, new)) hE h₁ hturns
  refine ⟨hcollect, fun w hw => hheld w ?_⟩
  rcases hw with hw | hw
  · exact hh.held hw
  · have hform : WellFormed c.membership c.convID env := by
      rw [h.membership, h.conversation]
      exact hE env he
    exact hh.held_self hform h.mask (by rw [h.membership, hw])

theorem Collecting.receiveAll (hE : ∀ e ∈ E, WellFormed m convID e)
    (h : Collecting m convID E c []) (arrivals : List Arrival) (hin : ∀ a ∈ arrivals, a.env ∈ E) :
    Collecting m convID E (c.receiveAll arrivals) [] ∧
      ∀ w, (Held c w ∨ ∃ a ∈ arrivals, m.keyOf a.env = some w) →
        Held (c.receiveAll arrivals) w := by
  induction arrivals generalizing c with
  | nil => exact ⟨h, fun w hw => hw.resolve_right nofun⟩
  | cons a as ih =>
    obtain ⟨ha, has⟩ := List.forall_mem_cons.mp hin
    obtain ⟨hcollect, hheld⟩ := h.incoming hE ha a.io a.origin
    obtain ⟨hrest, hall⟩ := ih hcollect has
    refine ⟨hrest, fun w hw => hall w ?_⟩
    rcases hw with hw | ⟨b, hb, hkey⟩
    · exact Or.inl (hheld w (Or.inl hw))
    · rcases List.mem_cons.mp hb with rfl | hb
      · exact Or.inl (hheld w (Or.inr hkey))
      · exact Or.inr ⟨b, hb, hkey⟩

theorem Delivering.receiveAll (h : Delivering c) (arrivals : List Arrival) :
    Delivering (c.receiveAll arrivals) := by
  induction arrivals generalizing c with
  | nil => exact h
  | cons a as ih =>
    have hstep : Delivering (c.handle (.incoming a.io a.origin (.envelope a.env))) :=
      h.handle nofun
    exact ih hstep

end Collecting

section Complete

/-- The conversation has taken in the family and nothing is left over. -/
structure Complete (m : Membership) (E : Finset Envelope) (c : Conversation) : Prop where
  nodes : ∀ n, n ∈ c.graph.nodes ↔ n.envelope ∈ E ∧ Graph.WellDerived m n
  delivered_nodup : c.delivered.Nodup
  delivered : c.delivered.toFinset = E
  deferred : c.deferred = ∅
  deferredByNeed : c.deferredByNeed = ∅
  outstanding : c.outstanding = []

/-- A rank that grows from parents to children leaves no room for cycles. -/
theorem acyclic_of_lt (rank : Envelope → ℕ) (h : ∀ p ∈ E, ∀ e ∈ E,
    (∃ w ∈ Graph.derivedParents m e, m.keyOf p = some w) → rank p < rank e) (e : Envelope) :
    ¬ TransGen (ParentIn m E) e e := by
  have hrank : ∀ p e, TransGen (ParentIn m E) p e → rank p < rank e := by
    intro p e hpe
    induction hpe with
    | single hp => exact h _ hp.1 _ hp.2.1 hp.2.2
    | tail _ hp ih => exact ih.trans (h _ hp.1 _ hp.2.1 hp.2.2)
  exact fun he => Nat.lt_irrefl _ (hrank e e he)

/-- In a finite family without cycles every nonempty part has a member none of whose
parents belong to the part. -/
theorem exists_first (hacyclic : ∀ e, ¬ TransGen (ParentIn m E) e e) {D : Envelope → Prop}
    (hD : ∃ e ∈ E, D e) : ∃ e ∈ E, D e ∧ ∀ p, ParentIn m E p e → ¬ D p := by
  let r : E → E → Prop := TransGen fun a b => ParentIn m E a.1 b.1
  have hirrefl : ∀ a, ¬ r a a := fun a ha =>
    hacyclic a.1 (TransGen.lift Subtype.val (fun _ _ h => h) _ _ ha)
  have : Std.Irrefl r := ⟨hirrefl⟩
  have hwf : WellFounded r := Finite.wellFounded_of_trans_of_irrefl r
  obtain ⟨e, he, hDe⟩ := hD
  obtain ⟨⟨x, hx⟩, hDx, hmin⟩ := hwf.has_min {a : E | D a.1} ⟨⟨e, he⟩, hDe⟩
  exact ⟨x, hx, hDx, fun p hp hDp => hmin ⟨p, hp.1⟩ hDp (TransGen.single hp)⟩

/-- What a deferred envelope of the family waits for is one of its parents. -/
theorem Collecting.mem_derivedParents (hE : ∀ e ∈ E, WellFormed m convID e)
    (h : Collecting m convID E c []) {pe : PendingEnvelope}
    (hl : c.deferred.lookup k = some pe) (hw : w ∈ pe.waiting) :
    w ∈ Graph.derivedParents m pe.env := by
  have hreport := h.reportable k pe hl w hw
  rw [h.membership] at hreport
  obtain ⟨_, _, _, ⟨hera, _, _⟩ | ⟨_, hmem⟩⟩ := hreport
  · have hlater : c.LaterEra pe.env := by rwa [LaterEra, h.membership]
    exact absurd hlater ((hE pe.env (h.pending k pe hl)).not_laterEra h.membership)
  · exact hmem

theorem Collecting.nothing_deferred (hE : ClosedFamily m convID E)
    (hacyclic : ∀ e, ¬ TransGen (ParentIn m E) e e) (h : Collecting m convID E c [])
    (hall : ∀ e ∈ E, ∀ k, m.keyOf e = some k → Held c k) (k : Key) :
    c.deferred.lookup k = none := by
  by_contra hne
  obtain ⟨pe, hpe⟩ := Option.ne_none_iff_exists'.mp hne
  obtain ⟨e, he, ⟨d, pe, hd, rfl⟩, hfirst⟩ := exists_first hacyclic
    (D := fun e => ∃ d pe, c.deferred.lookup d = some pe ∧ pe.env = e)
    ⟨pe.env, h.pending k pe hpe, k, pe, hpe, rfl⟩
  obtain ⟨w, hw⟩ := List.exists_mem_of_ne_nil _ (h.waiting d pe hd).1
  have habsent := (h.absent d pe hd w hw).resolve_right List.not_mem_nil
  have hparent := h.mem_derivedParents hE.wellFormed hd hw
  obtain ⟨p, hp, hkey⟩ := hE.closed pe.env he w hparent
  rcases hall p hp w hkey with hg | ⟨pe', hpe'⟩
  · rw [habsent] at hg
    cases hg
  · have hkeyed := h.keyed w pe' hpe'
    rw [h.membership] at hkeyed
    have hsame := hE.distinct pe'.env (h.pending w pe' hpe') p hp (hkeyed.trans hkey.symm)
    exact hfirst p ⟨hp, he, w, hparent, hkey⟩ ⟨w, pe', hpe', hsame⟩

theorem Collecting.complete (hE : ClosedFamily m convID E)
    (hacyclic : ∀ e, ¬ TransGen (ParentIn m E) e e) (h : Collecting m convID E c [])
    (hd : Delivering c) (hall : ∀ e ∈ E, ∀ k, m.keyOf e = some k → Held c k) :
    Complete m E c := by
  have hnone := h.nothing_deferred hE hacyclic hall
  have hsound := hd.sound
  rw [h.membership] at hsound
  have hinserted : ∀ e ∈ E, ∃ n ∈ c.graph.nodes, n.envelope = e := by
    intro e he
    obtain ⟨k, hk⟩ := (hE.wellFormed e he).keyOf
    rcases hall e he k hk with hg | ⟨pe, hpe⟩
    · obtain ⟨n, hn, rfl⟩ := Graph.has_iff.mp hg
      exact ⟨n, hn, hE.distinct _ (h.nodes n hn) e he ((hsound.derived n hn).keyOf.trans hk.symm)⟩
    · rw [hnone k] at hpe
      cases hpe
  have hneeding : ∀ w, w ∉ c.deferredByNeed := by
    intro w hw
    obtain ⟨d, hdw⟩ := List.exists_mem_of_ne_nil _ (h.inhabited w hw)
    obtain ⟨pe, hpe, _⟩ := h.needs w d hdw
    rw [hnone d] at hpe
    cases hpe
  refine ⟨?_, ?_, ?_, eq_empty_of_lookup hnone, ?_, ?_⟩
  · intro n
    constructor
    · exact fun hn => ⟨h.nodes n hn, hsound.derived n hn⟩
    · rintro ⟨he, hderived⟩
      obtain ⟨n', hn', hne⟩ := hinserted _ he
      rwa [← (hsound.derived n' hn').eq hderived hne]
  · rw [hd.delivered]
    exact hsound.nodup_envelopes
  · ext e
    rw [List.mem_toFinset, hd.delivered, List.mem_map]
    constructor
    · rintro ⟨n, hn, rfl⟩
      exact h.nodes n hn
    · exact hinserted e
  · exact eq_empty_of_lookup fun w => AList.lookup_eq_none.mpr (hneeding w)
  · refine List.eq_nil_iff_forall_not_mem.mpr fun w hw => ?_
    exact hneeding w ((h.requested w).mp hw)

/-- Once every member of a closed family without cycles has arrived, all are taken in. -/
theorem complete_receiveAll {self : ReplicaID} {members : List ReplicaID} {log : MessageLog}
    {c₀ : Conversation} (hnew : Conversation.new convID self members [] log = some c₀)
    (hE : ClosedFamily c₀.membership convID E)
    (hacyclic : ∀ e, ¬ TransGen (ParentIn c₀.membership E) e e) {zs : List Arrival}
    (hzs : Covers E zs) : Complete c₀.membership E (c₀.receiveAll zs) := by
  have hstart : Collecting c₀.membership convID E c₀ [] := by
    have htracked := tracked_new hnew
    obtain ⟨slot, _, rfl⟩ := Option.map_eq_some_iff.mp hnew
    refine ⟨⟨htracked, nofun, nofun, nofun⟩, rfl, rfl, rfl, nofun, nofun⟩
  obtain ⟨hcollect, hheld⟩ := hstart.receiveAll hE.wellFormed zs
    fun a ha => hzs.mem_iff.mpr ⟨a, ha, rfl⟩
  refine hcollect.complete hE hacyclic ((delivering_new hnew).receiveAll zs) fun e he k hk => ?_
  obtain ⟨a, ha, rfl⟩ := hzs.mem_iff.mp he
  exact hheld k (Or.inr ⟨a, ha, hk⟩)

end Complete

/-- Whatever the order in which a closed family without cycles arrives, the graph ends up
with the same nodes, exactly the family is delivered, and nothing stays deferred. -/
theorem arrival_order_irrelevant {self : ReplicaID} {members : List ReplicaID}
    {log : MessageLog} {c₀ : Conversation}
    (hnew : Conversation.new convID self members [] log = some c₀)
    (hE : ClosedFamily c₀.membership convID E)
    (hacyclic : ∀ e, ¬ TransGen (ParentIn c₀.membership E) e e) {xs ys : List Arrival}
    (hxs : Covers E xs) (hys : Covers E ys) :
    (∀ n, n ∈ (c₀.receiveAll xs).graph.nodes ↔ n ∈ (c₀.receiveAll ys).graph.nodes) ∧
      ∀ zs ∈ [xs, ys], (c₀.receiveAll zs).delivered.Nodup ∧
        (c₀.receiveAll zs).delivered.toFinset = E ∧ (c₀.receiveAll zs).deferred = ∅ ∧
        (c₀.receiveAll zs).deferredByNeed = ∅ ∧ (c₀.receiveAll zs).outstanding = [] := by
  have hcomplete : ∀ zs, Covers E zs → Complete c₀.membership E (c₀.receiveAll zs) :=
    fun zs hzs => complete_receiveAll hnew hE hacyclic hzs
  refine ⟨fun n => ((hcomplete xs hxs).nodes n).trans ((hcomplete ys hys).nodes n).symm, ?_⟩
  intro zs hzs
  have hcovers : Covers E zs := by
    rcases List.mem_pair.mp hzs with rfl | rfl
    · exact hxs
    · exact hys
  have h := hcomplete zs hcovers
  exact ⟨h.delivered_nodup, h.delivered, h.deferred, h.deferredByNeed, h.outstanding⟩

/-- A message, an answer to it, and a second message that knows the answer. -/
def thread : Finset Envelope :=
  [message [1] [1, 0, 0], message [2] [1, 1, 0], message [1] [2, 1, 0]].toFinset

/-- The two first members know each other's first message before they send their own. -/
def cyclicPair : Finset Envelope := [message [1] [1, 1, 0], message [2] [1, 1, 0]].toFinset

def arrivalsOf (envs : List Envelope) : List Arrival := envs.map (⟨.standard, [1], ·⟩)

theorem wellFormed_message {r : ReplicaID} {clock : VectorClock} (slot : ℕ)
    (hs : m.slotOf r = some slot) (hlt : slot < clock.length) (hlen : clock.length ≤ m.len)
    (hpos : clock.atSlot slot ≠ 0) : WellFormed m [9] (message r clock) :=
  ⟨rfl, slot, rfl, hs, hlt, hlen, hpos⟩

theorem closedFamily_thread :
    ClosedFamily (Membership.ofReplicas [[1], [2], [3]]) [9] thread := by
  refine ⟨?_, by decide +kernel, by decide +kernel⟩
  intro e he
  simp only [thread, List.mem_toFinset, List.mem_cons, List.not_mem_nil, or_false] at he
  rcases he with rfl | rfl | rfl
  · exact wellFormed_message 0 rfl (by decide) (by decide) (by decide)
  · exact wellFormed_message 1 rfl (by decide) (by decide) (by decide)
  · exact wellFormed_message 0 rfl (by decide) (by decide) (by decide)

theorem arrival_order_irrelevant_thread :
    ∃ c₀, Conversation.new [9] [3] [[1], [2], [3]] [] .empty = some c₀ ∧
      ClosedFamily c₀.membership [9] thread ∧
      ∀ n, n ∈ (c₀.receiveAll (arrivalsOf [message [1] [1, 0, 0], message [2] [1, 1, 0],
          message [1] [2, 1, 0]])).graph.nodes ↔
        n ∈ (c₀.receiveAll (arrivalsOf [message [1] [2, 1, 0], message [2] [1, 1, 0],
          message [1] [2, 1, 0], message [1] [1, 0, 0]])).graph.nodes := by
  have hnew : Conversation.new [9] [3] [[1], [2], [3]] [] .empty =
      some (init [9] [3] 2 [[1], [2], [3]] [] .empty) := rfl
  refine ⟨_, hnew, closedFamily_thread, (arrival_order_irrelevant hnew closedFamily_thread
    (acyclic_of_lt (·.id.vectorClock.sum) (by decide +kernel)) ?_ ?_).1⟩
  · decide +kernel
  · decide +kernel

/-- Two messages that name each other are deferred for ever. -/
theorem cyclic_pair_stays_deferred :
    ClosedFamily (Membership.ofReplicas [[1], [2], [3]]) [9] cyclicPair ∧
      Covers cyclicPair (arrivalsOf [message [1] [1, 1, 0], message [2] [1, 1, 0]]) ∧
      let c := (init [9] [3] 2 [[1], [2], [3]] [] .empty).receiveAll
        (arrivalsOf [message [1] [1, 1, 0], message [2] [1, 1, 0]])
      c.delivered = [] ∧ c.deferred.keys = [⟨[2], 1⟩, ⟨[1], 1⟩] ∧
        c.outstanding = [⟨[1], 1⟩, ⟨[2], 1⟩] := by
  refine ⟨⟨?_, by decide +kernel, by decide +kernel⟩, by decide +kernel, by decide +kernel⟩
  intro e he
  simp only [cyclicPair, List.mem_toFinset, List.mem_cons, List.not_mem_nil, or_false] at he
  rcases he with rfl | rfl
  · exact wellFormed_message 0 rfl (by decide) (by decide) (by decide)
  · exact wellFormed_message 1 rfl (by decide) (by decide) (by decide)

end Comlink.Conversation
