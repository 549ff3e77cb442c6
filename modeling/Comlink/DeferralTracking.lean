import Comlink.DeferralIndex

/-!
# What a deferred envelope waits on

A deferred envelope is stored under its own key and waits on keys that `Insert` can
report missing for it. As long as every report names only absent parents, the keys
that an envelope waits on stay absent from the graph until they are released.
-/
namespace Comlink.Conversation
open AssociationLists

variable {io : HandlerChoices} {c c' : Conversation} {env : Envelope} {origin : ReplicaID}
variable {m m' : Membership} {todo new : Todo} {k p w : Key} {pe : PendingEnvelope}

/-- `Insert` may report `w` missing for the envelope: the sender's preceding message for a
clock that is too long, otherwise a parent that the clock names. -/
def Reportable (m : Membership) (env : Envelope) (w : Key) : Prop :=
  ∃ slot, m.slotOf env.sender = some slot ∧ slot < env.id.vectorClock.length ∧
    (m.len < env.id.vectorClock.length ∧ 1 < env.id.vectorClock.atSlot slot ∧
        w = ⟨env.sender, env.id.vectorClock.atSlot slot - 1⟩ ∨
      env.id.vectorClock.length ≤ m.len ∧ w ∈ Graph.derivedParents m env)

theorem reportable_of_missing {g : Graph} {missing : List Key}
    (hi : g.insert m env = .error (.missingParents missing)) (hw : w ∈ missing) :
    Reportable m env w := by
  obtain ⟨slot, _, hslot, hlt, ⟨hera, hseq, rfl⟩ | ⟨hlen, _, rfl⟩⟩ := Graph.insert_missing hi
  · exact ⟨slot, hslot, hlt, Or.inl ⟨hera, hseq, List.mem_singleton.mp hw⟩⟩
  · exact ⟨slot, hslot, hlt, Or.inr ⟨hlen, List.mem_of_mem_filter hw⟩⟩

theorem Reportable.insert_ne_ok {g g' : Graph} {n : Node} (h : Reportable m env w)
    (hw : g.has w = false) : g.insert m env ≠ .ok (g', n) := by
  intro hi
  obtain ⟨_, rfl, hd, _, hp⟩ := Graph.insert_ok hi
  obtain ⟨slot, _, _, ⟨hera, _, _⟩ | ⟨_, hmem⟩⟩ := h
  · exact absurd hd.length_le (Nat.not_le.mpr hera)
  · rw [hd.derivedParents] at hmem
    rw [hp w hmem] at hw
    cases hw

theorem Reportable.congr (h : Reportable m env w) (hm : m'.allReplicas = m.allReplicas) :
    Reportable m' env w := by
  simp only [Reportable, Membership.slotOf, Membership.len, Graph.derivedParents,
    Graph.requiredParents, hm] at h ⊢
  exact h

/-- When the missing slot is added, the preceding message is one of the parents. -/
theorem Reportable.add {r : ReplicaID} (h : Reportable m env w) (hm : m.add r = some m') :
    Reportable m' env w := by
  obtain ⟨slot, hslot, hlt, hcases⟩ := h
  have hslot' := Membership.slotOf_add hm hslot
  have hlen : m'.len = m.len + 1 := by
    rw [Membership.len, Membership.allReplicas_add hm, List.length_append, Membership.len]
    rfl
  refine ⟨slot, hslot', hlt, ?_⟩
  rcases hcases with ⟨hera, hseq, rfl⟩ | ⟨hle, hw⟩
  · by_cases hera' : m'.len < env.id.vectorClock.length
    · exact Or.inl ⟨hera', hseq, rfl⟩
    · refine Or.inr ⟨Nat.le_of_not_lt hera', ?_⟩
      rw [Graph.derivedParents, hslot']
      refine Graph.mem_requiredParents.mpr ⟨slot, Membership.slotOf_getElem? hslot', ?_⟩
      rw [Graph.requiredSeq, if_pos rfl, if_neg (by omega)]
  · refine Or.inr ⟨by omega, ?_⟩
    rw [Graph.derivedParents, hslot] at hw
    rw [Graph.derivedParents, hslot']
    dsimp only at hw ⊢
    rw [Graph.requiredParents_grown (Membership.grown_add hm) hlt hle]
    exact hw

theorem keyOf_add {r : ReplicaID} (hm : m.add r = some m') (h : m.keyOf env = some k) :
    m'.keyOf env = some k := by
  obtain ⟨seq, hseq, rfl⟩ := Option.map_eq_some_iff.mp h
  unfold Membership.senderSeq at hseq
  split at hseq
  · cases hseq
  · rename_i slot hslot
    have hslot' := Membership.slotOf_add hm hslot
    rw [Membership.keyOf, Membership.senderSeq, hslot']
    dsimp only
    rw [hseq, Option.map_some]

structure Tracked (c : Conversation) (todo : Todo) : Prop extends Indexed c todo where
  absent : ∀ k pe, c.deferred.lookup k = some pe →
    ∀ w ∈ pe.waiting, c.graph.has w = false ∨ (w, k) ∈ todo
  keyed : ∀ k pe, c.deferred.lookup k = some pe → c.membership.keyOf pe.env = some k
  reportable : ∀ k pe, c.deferred.lookup k = some pe →
    ∀ w ∈ pe.waiting, Reportable c.membership pe.env w

theorem tracked_new {convID : ConversationID} {self : ReplicaID} {members mask : List ReplicaID}
    {log : MessageLog} (h : Conversation.new convID self members mask log = some c) :
    Tracked c [] := by
  obtain ⟨slot, _, rfl⟩ := Option.map_eq_some_iff.mp h
  refine ⟨indexed_init .., ?_, ?_, ?_⟩ <;> simp [init]

theorem Tracked.enter {e : Key} {missing : List Key} (h : Tracked c todo)
    (hl : c.deferred.lookup e = none) (hk : c.membership.keyOf env = some e)
    (hi : c.graph.insert c.membership env = .error (.missingParents missing))
    (habsent : ∀ w ∈ missing, c.graph.has w = false) (origin : ReplicaID) :
    Tracked { missing.foldl (awaitParent e origin) c with
      deferred := c.deferred.insert e ⟨env, origin, missing.dedup⟩ } todo := by
  have hgraph := graph_foldl_awaitParent e origin missing c
  have hmem := membership_foldl_awaitParent e origin missing c
  refine ⟨h.toIndexed.enter hl (Graph.missing_ne_nil hi) env origin, ?_, ?_, ?_⟩
  · intro k pe hk' w hw
    rw [hgraph]
    rcases lookup_insert_cases hk' with ⟨rfl, rfl⟩ | ⟨_, hk'⟩
    · exact Or.inl (habsent w (List.mem_dedup.mp hw))
    · exact h.absent k pe hk' w hw
  · intro k pe hk'
    rw [hmem]
    rcases lookup_insert_cases hk' with ⟨rfl, rfl⟩ | ⟨_, hk'⟩
    · exact hk
    · exact h.keyed k pe hk'
  · intro k pe hk' w hw
    rw [hmem]
    rcases lookup_insert_cases hk' with ⟨rfl, rfl⟩ | ⟨_, hk'⟩
    · exact reportable_of_missing hi (List.mem_dedup.mp hw)
    · exact h.reportable k pe hk' w hw

theorem Tracked.available {g : Graph} {n : Node} (h : Tracked c todo)
    (hs : c.screen env = some k) (hi : c.graph.insert c.membership env = .ok (g, n)) :
    Tracked (c.available io env k g)
      ((io.order k (c.needing k)).map (fun d => (k, d)) ++ todo) := by
  have hindexed : Indexed (c.available io env k g) _ := h.toIndexed.available hs hi
  refine ⟨hindexed, ?_, h.keyed, h.reportable⟩
  intro d pe hd w hw
  by_cases hwk : w = k
  · subst hwk
    have hreg := hindexed.registered d pe hd w hw
    rw [needing_available, if_pos rfl] at hreg
    exact Or.inr (hreg.resolve_left List.not_mem_nil)
  · rcases h.absent d pe hd w hw with hg | ht
    · refine Or.inl (Bool.eq_false_iff.mpr fun hhas => ?_)
      rcases (has_insert hi w).mp hhas with rfl | hhas
      · exact hwk (screen_key hs hi)
      · rw [hg] at hhas
        cases hhas
    · exact Or.inr (List.mem_append_right _ ht)

/-- What `Insert` reports missing for the envelope really is absent. -/
def ReportsAbsent (c : Conversation) (env : Envelope) : Prop :=
  ∀ missing, c.graph.insert c.membership env = .error (.missingParents missing) →
    ∀ w ∈ missing, c.graph.has w = false

theorem reportsAbsent_of_length_le (h : env.id.vectorClock.length ≤ c.membership.len) :
    ReportsAbsent c env := by
  intro missing hi w hw
  obtain ⟨slot, _, _, _, ⟨hera, _, _⟩ | ⟨_, _, rfl⟩⟩ := Graph.insert_missing hi
  · exact absurd h (Nat.not_le.mpr hera)
  · simpa using (List.mem_filter.mp hw).2

theorem Tracked.handled (h : Tracked c todo) (hh : Handled io c env origin c' new)
    (hr : ReportsAbsent c env) : Tracked c' (new ++ todo) := by
  cases hh.outcome with
  | unchanged => exact h
  | entered hk hl hi => exact h.enter hl hk hi (hr _ hi) origin
  | accepted hs hi => exact h.available hs hi

theorem Tracked.wait (h : Tracked c ((p, k) :: todo)) (hl : c.deferred.lookup k = some pe)
    (hw : pe.waiting.erase p ≠ []) :
    Tracked { c with deferred := c.deferred.insert k { pe with waiting := pe.waiting.erase p } }
      todo := by
  refine ⟨h.toIndexed.wait hl hw, ?_, ?_, ?_⟩
  · intro d pe' hd w hwd
    have habsent : c.graph.has w = false ∨ (w, d) ∈ (p, k) :: todo ∧ (w, d) ≠ (p, k) := by
      rcases lookup_insert_cases hd with ⟨rfl, rfl⟩ | ⟨hdk, hd⟩
      · obtain ⟨hne, hwk⟩ := (h.waiting d pe hl).2.mem_erase_iff.mp hwd
        exact (h.absent d pe hl w hwk).imp_right fun ht =>
          ⟨ht, fun he => hne (Prod.mk.inj he).1⟩
      · exact (h.absent d pe' hd w hwd).imp_right fun ht =>
          ⟨ht, fun he => hdk (Prod.mk.inj he).2⟩
    exact habsent.imp_right fun ⟨ht, hne⟩ => (List.mem_cons.mp ht).resolve_left hne
  · intro d pe' hd
    rcases lookup_insert_cases hd with ⟨rfl, rfl⟩ | ⟨_, hd⟩
    · exact h.keyed d pe hl
    · exact h.keyed d pe' hd
  · intro d pe' hd w hwd
    rcases lookup_insert_cases hd with ⟨rfl, rfl⟩ | ⟨_, hd⟩
    · exact h.reportable d pe hl w (List.mem_of_mem_erase hwd)
    · exact h.reportable d pe' hd w hwd

theorem Tracked.leave (h : Tracked c ((p, k) :: todo)) (hl : c.deferred.lookup k = some pe)
    (hw : pe.waiting.erase p = []) : Tracked { c with deferred := c.deferred.erase k } todo := by
  refine ⟨h.toIndexed.leave hl hw, ?_, ?_, ?_⟩
  · intro d pe' hd w hwd
    obtain ⟨hdk, hd⟩ := lookup_erase_cases hd
    refine (h.absent d pe' hd w hwd).imp_right fun ht => ?_
    exact (List.mem_cons.mp ht).resolve_left fun he => hdk (Prod.mk.inj he).2
  · intro d pe' hd
    exact h.keyed d pe' (lookup_erase_cases hd).2
  · intro d pe' hd
    exact h.reportable d pe' (lookup_erase_cases hd).2

/-- A parent that a dependent is released for is one that it was waiting on. -/
theorem Tracked.mem_waiting (h : Tracked c ((p, k) :: todo))
    (hl : c.deferred.lookup k = some pe) : p ∈ pe.waiting := by
  obtain ⟨⟨pe', hpe', hw⟩, _⟩ := h.todo_needs p k (List.mem_cons_self ..)
  rw [hl] at hpe'
  cases hpe'
  exact hw

theorem Tracked.lookup_ne_none (h : Tracked c ((p, k) :: todo)) :
    c.deferred.lookup k ≠ none := by
  obtain ⟨⟨pe, hpe, _⟩, _⟩ := h.todo_needs p k (List.mem_cons_self ..)
  rw [hpe]
  exact Option.some_ne_none pe

/-- Between two requests it is enough that what is waited on stays absent. -/
theorem Tracked.congr (h : Tracked c []) (ht : SameTables c c')
    (hm : c'.membership.allReplicas = c.membership.allReplicas ∨
      ∃ r, c.membership.add r = some c'.membership)
    (hg : ∀ k pe, c.deferred.lookup k = some pe → ∀ w ∈ pe.waiting, c'.graph.has w = false) :
    Tracked c' [] := by
  obtain ⟨hd, hn, ho⟩ := ht
  refine ⟨h.toIndexed.congr hd hn ho, ?_, ?_, ?_⟩
  · intro k pe hk w hw
    rw [hd] at hk
    exact Or.inl (hg k pe hk w hw)
  · intro k pe hk
    rw [hd] at hk
    rcases hm with hm | ⟨r, hm⟩
    · rw [Membership.keyOf, Membership.senderSeq, Membership.slotOf, hm]
      exact h.keyed k pe hk
    · exact keyOf_add hm (h.keyed k pe hk)
  · intro k pe hk w hw
    rw [hd] at hk
    rcases hm with hm | ⟨r, hm⟩
    · exact (h.reportable k pe hk w hw).congr hm
    · exact (h.reportable k pe hk w hw).add hm

end Comlink.Conversation
