import Comlink.ReceiveTrace
import Comlink.StuckDeferral

/-!
# How often a deferred envelope is handled again

An envelope that fitted the membership when it was deferred waits on all of its absent
parents, so that it is not deferred again once it is released. An envelope of a later era
waits on the preceding message of its sender alone. If it still does not fit when it is
released, it waits on that message again, which is there and is not inserted a second time.
If it fits by then, other parents may be missing; it waits on those and may be released a
second time in the same step, but not a third time.
-/
namespace Comlink.Conversation
open AssociationLists GuardedRuns

variable {io : HandlerChoices} {c c' : Conversation} {env : Envelope} {origin : ReplicaID}
variable {todo new : Todo} {k p w d : Key} {pe : PendingEnvelope} {n : ℕ}

/-- The envelope fits the membership and waits on every parent that is absent. -/
def AwaitsAll (c : Conversation) (pe : PendingEnvelope) : Prop :=
  pe.env.id.vectorClock.length ≤ c.membership.len ∧
    ∀ w ∈ Graph.derivedParents c.membership pe.env, c.graph.has w = false → w ∈ pe.waiting

/-- How envelopes are deferred in a conversation that was opened with `n` members. -/
structure Filed (n : ℕ) (c : Conversation) (todo : Todo) : Prop extends Indexed c todo where
  len : n ≤ c.membership.len
  keyed : ∀ k pe, c.deferred.lookup k = some pe → c.membership.keyOf pe.env = some k
  shape : ∀ k pe, c.deferred.lookup k = some pe → c.AwaitsAll pe ∨
    (n < pe.env.id.vectorClock.length ∧ pe.waiting = [⟨k.sender, k.seq - 1⟩])

theorem filed_new {convID : ConversationID} {self : ReplicaID} {members mask : List ReplicaID}
    {log : MessageLog} (h : Conversation.new convID self members mask log = some c) :
    Filed members.length c [] := by
  obtain ⟨slot, _, rfl⟩ := Option.map_eq_some_iff.mp h
  refine ⟨indexed_init .., ?_, ?_, ?_⟩ <;> simp [init, Membership.len]

/-- Nodes are only added to a graph, and parents only become present. -/
theorem AwaitsAll.mono (h : c.AwaitsAll pe) (hm : c'.membership = c.membership)
    (hg : ∀ w, c.graph.has w = true → c'.graph.has w = true) : c'.AwaitsAll pe := by
  refine ⟨hm ▸ h.1, fun w hw hno => h.2 w (hm ▸ hw) (Bool.eq_false_iff.mpr fun hhas => ?_)⟩
  rw [hg w hhas] at hno
  cases hno

section Deferring

/-- What an envelope waits on when it is deferred. -/
theorem awaitsAll_or_laterEra {missing : List Key} (hk : c.membership.keyOf env = some k)
    (hi : c.graph.insert c.membership env = .error (.missingParents missing))
    (origin : ReplicaID) :
    c.AwaitsAll ⟨env, origin, missing.dedup⟩ ∨
      (c.LaterEra env ∧ missing.dedup = [⟨k.sender, k.seq - 1⟩]) := by
  obtain ⟨slot, _, hslot, hlt, ⟨hera, hseq, rfl⟩ | ⟨hlen, hne, rfl⟩⟩ := Graph.insert_missing hi
  · obtain ⟨slot', hslot', hlt', rfl⟩ := Membership.keyOf_eq_some_iff.mp hk
    cases hslot.symm.trans hslot'
    exact Or.inr ⟨hera, by simp⟩
  · refine Or.inl ⟨hlen, fun w hw hno => ?_⟩
    exact List.mem_dedup.mpr (List.mem_filter.mpr ⟨hw, by simp [hno]⟩)

theorem Filed.enter {missing : List Key} (h : Filed n c todo) (hl : c.deferred.lookup k = none)
    (hk : c.membership.keyOf env = some k)
    (hi : c.graph.insert c.membership env = .error (.missingParents missing))
    (origin : ReplicaID) :
    Filed n { missing.foldl (awaitParent k origin) c with
      deferred := c.deferred.insert k ⟨env, origin, missing.dedup⟩ } todo := by
  have hgraph := graph_foldl_awaitParent k origin missing c
  have hmem := membership_foldl_awaitParent k origin missing c
  have hall : ∀ {pe}, c.AwaitsAll pe → AwaitsAll { missing.foldl (awaitParent k origin) c with
      deferred := c.deferred.insert k ⟨env, origin, missing.dedup⟩ } pe :=
    fun hc => hc.mono hmem fun w hw => by rwa [hgraph]
  refine ⟨h.toIndexed.enter hl (Graph.missing_ne_nil hi) env origin, hmem ▸ h.len, ?_, ?_⟩
  · intro d pe hd
    rw [hmem]
    rcases lookup_insert_cases hd with ⟨rfl, rfl⟩ | ⟨_, hd⟩
    · exact hk
    · exact h.keyed d pe hd
  · intro d pe hd
    rcases lookup_insert_cases hd with ⟨rfl, rfl⟩ | ⟨_, hd⟩
    · rcases awaitsAll_or_laterEra hk hi origin with hc | ⟨hera, hone⟩
      · exact Or.inl (hall hc)
      · exact Or.inr ⟨h.len.trans_lt hera, hone⟩
    · exact (h.shape d pe hd).imp_left hall

theorem Filed.handled (h : Filed n c todo) (hh : Handled io c env origin c' new) :
    Filed n c' (new ++ todo) := by
  cases hh.outcome with
  | unchanged => exact h
  | entered hk hl hi => exact h.enter hl hk hi origin
  | accepted hs hi =>
    refine ⟨h.toIndexed.available hs hi, h.len, h.keyed, fun d pe hd => ?_⟩
    refine (h.shape d pe hd).imp_left fun hc => hc.mono rfl fun w hw => ?_
    exact (has_insert hi w).mpr (Or.inr hw)

end Deferring

section Releasing

/-- A parent for which a dependent is released is one that it waits on, and is present. -/
theorem Indexed.released (h : Indexed c ((p, k) :: todo)) (hl : c.deferred.lookup k = some pe) :
    p ∈ pe.waiting ∧ c.graph.has p = true ∧ (p, k) ∉ todo := by
  obtain ⟨⟨pe', hpe', hw⟩, _⟩ := h.todo_needs p k (List.mem_cons_self ..)
  cases hl.symm.trans hpe'
  exact ⟨hw, h.todo_present p k (List.mem_cons_self ..), (List.nodup_cons.mp h.todo_nodup).1⟩

theorem AwaitsAll.erase (h : c.AwaitsAll pe) (hp : c.graph.has p = true) :
    c.AwaitsAll { pe with waiting := pe.waiting.erase p } := by
  refine ⟨h.1, fun w hw hno => ?_⟩
  have hne : w ≠ p := by
    rintro rfl
    rw [hp] at hno
    cases hno
  exact (List.mem_erase_of_ne hne).mpr (h.2 w hw hno)

theorem Filed.wait (h : Filed n c ((p, k) :: todo)) (hl : c.deferred.lookup k = some pe)
    (hw : pe.waiting.erase p ≠ []) :
    Filed n { c with deferred := c.deferred.insert k { pe with waiting := pe.waiting.erase p } }
      todo := by
  obtain ⟨hpw, hpresent, -⟩ := h.toIndexed.released hl
  refine ⟨h.toIndexed.wait hl hw, h.len, ?_, ?_⟩
  · intro d pe' hd
    rcases lookup_insert_cases hd with ⟨rfl, rfl⟩ | ⟨_, hd⟩
    · exact h.keyed d pe hl
    · exact h.keyed d pe' hd
  · intro d pe' hd
    rcases lookup_insert_cases hd with ⟨rfl, rfl⟩ | ⟨_, hd⟩
    · rcases h.shape d pe hl with hc | ⟨_, hone⟩
      · exact Or.inl (hc.erase hpresent)
      · rw [hone, List.mem_singleton] at hpw
        rw [hone, ← hpw] at hw
        simp at hw
    · exact h.shape d pe' hd

theorem Filed.leave (h : Filed n c ((p, k) :: todo)) (hl : c.deferred.lookup k = some pe)
    (hw : pe.waiting.erase p = []) : Filed n { c with deferred := c.deferred.erase k } todo := by
  refine ⟨h.toIndexed.leave hl hw, h.len, ?_, ?_⟩
  · intro d pe' hd
    exact h.keyed d pe' (lookup_erase_cases hd).2
  · intro d pe' hd
    exact h.shape d pe' (lookup_erase_cases hd).2

theorem Filed.skip (h : Filed n c ((p, k) :: todo)) (hl : c.deferred.lookup k = none) :
    Filed n c todo := by
  obtain ⟨⟨pe, hpe, _⟩, _⟩ := h.todo_needs p k (List.mem_cons_self ..)
  cases hl.symm.trans hpe

theorem Filed.turn {s t : Conversation × Todo} (h : Filed n s.1 s.2) (ht : Turn io s t) :
    Filed n t.1 t.2 := by
  cases ht with
  | skip hl => exact h.skip hl
  | wait hl hw => exact h.wait hl hw
  | retry hl hw hh => exact (h.leave hl hw).handled hh

theorem Filed.turns {s t : Conversation × Todo} (h : Filed n s.1 s.2) (ht : Turns io s t) :
    Filed n t.1 t.2 := by
  induction ht with
  | refl => exact h
  | tail _ ht ih => exact ih.turn ht

theorem Filed.incoming (h : Filed n c []) (io : HandlerChoices) (origin : ReplicaID)
    (env : Envelope) : Filed n (c.handleIncoming io origin (.envelope env)) [] := by
  obtain ⟨c₁, new, hh, ht⟩ := turns_incoming c io origin env
  have h₁ := h.handled hh
  rw [List.append_nil] at h₁
  exact Filed.turns (s := (c₁, new)) h₁ ht

end Releasing

section Runs

theorem AwaitsAll.congr (h : c.AwaitsAll pe)
    (hm : c'.membership.allReplicas = c.membership.allReplicas) (hg : c'.graph = c.graph) :
    c'.AwaitsAll pe := by
  simp only [AwaitsAll, Membership.len, Graph.derivedParents, Graph.requiredParents,
    Membership.slotOf, hm, hg] at h ⊢
  exact h

theorem AwaitsAll.add {r : ReplicaID} {m : Membership} (h : c.AwaitsAll pe)
    (hk : c.membership.keyOf pe.env = some k) (hm : c.membership.add r = some m) :
    AwaitsAll { c with membership := m } pe := by
  obtain ⟨slot, hslot, hlt, -⟩ := Membership.keyOf_eq_some_iff.mp hk
  have hgrown := Membership.grown_add hm
  refine ⟨h.1.trans hgrown.slots.length_le, fun w hw hno => h.2 w ?_ hno⟩
  dsimp only at hw
  rw [Graph.derivedParents, Membership.slotOf_add hm hslot] at hw
  rw [Graph.derivedParents, hslot]
  dsimp only at hw ⊢
  rwa [Graph.requiredParents_grown hgrown hlt h.1] at hw

/-- Between two requests nothing but the membership and the graph may change. -/
theorem Filed.congr (h : Filed n c []) (ht : SameTables c c') (hlen : n ≤ c'.membership.len)
    (hk : ∀ k pe, c.deferred.lookup k = some pe → c'.membership.keyOf pe.env = some k)
    (hc : ∀ k pe, c.deferred.lookup k = some pe → c.AwaitsAll pe → c'.AwaitsAll pe) :
    Filed n c' [] := by
  obtain ⟨hd, hn, ho⟩ := ht
  refine ⟨h.toIndexed.congr hd hn ho, hlen, ?_, ?_⟩
  · intro k pe hl
    rw [hd] at hl
    exact hk k pe hl
  · intro k pe hl
    rw [hd] at hl
    exact (h.shape k pe hl).imp_left (hc k pe hl)

theorem Filed.serve {a : ServerStep} (h : Filed n c []) (hs : Served c a c') : Filed n c' [] := by
  cases hs with
  | quiet hq hsame =>
    refine h.congr hsame ?_ ?_ ?_
    · rw [Membership.len, hq.members, ← Membership.len]
      exact h.len
    · intro k pe hl
      rw [Membership.keyOf, Membership.senderSeq, Membership.slotOf, hq.members]
      exact h.keyed k pe hl
    · exact fun k pe _ hc => hc.congr hq.members hq.graph
  | joined hm =>
    refine h.congr ⟨rfl, rfl, rfl⟩ ?_ ?_ ?_
    · exact h.len.trans (Membership.grown_add hm).slots.length_le
    · exact fun k pe hl => keyOf_add hm (h.keyed k pe hl)
    · exact fun k pe hl hc => hc.add (h.keyed k pe hl) hm
  | issued henv hi hslot =>
    refine h.congr ⟨rfl, rfl, rfl⟩ h.len h.keyed fun k pe _ hc => hc.mono rfl fun w hw => ?_
    exact (has_insert hi w).mpr (Or.inr hw)
  | replayed ha hsound hlog =>
    refine h.congr ⟨rfl, rfl, rfl⟩ h.len h.keyed fun k pe _ hc => hc.mono rfl fun w hw => ?_
    obtain ⟨x, hx, rfl⟩ := Graph.has_iff.mp hw
    exact Graph.has_iff.mpr ⟨x, List.mem_append_left _ hx, rfl⟩
  | received io origin env => exact h.incoming io origin env

theorem filed_of_reach {convID : ConversationID} {self : ReplicaID}
    {members mask : List ReplicaID} {log : MessageLog} {c₀ : Conversation}
    (hnew : Conversation.new convID self members mask log = some c₀)
    (hr : Reach Conversation.serve (fun _ _ => True) c₀ c) : Filed members.length c [] := by
  have hinv : Seated c.membership.allReplicas c ∧ Filed members.length c [] := by
    refine hr.invariant
      (P := fun c => Seated c.membership.allReplicas c ∧ Filed members.length c [])
      ⟨seated_new hnew, filed_new hnew⟩ ?_
    rintro s a t ⟨hseat, hfiled⟩ - hstep
    have hs := hseat.served hstep
    exact ⟨hseat.serve hs, hfiled.serve hs⟩
  exact hinv.2

end Runs

section Counting

/-- The envelope is not deferred, or waits on something that is present and whose dependents
are not released any more. -/
def Settled (c : Conversation) (todo : Todo) (k : Key) : Prop :=
  ∀ pe, c.deferred.lookup k = some pe → ∃ w ∈ pe.waiting, c.graph.has w = true ∧ (w, k) ∉ todo

/-- Unless it is settled, the envelope is not deferred again in the end. -/
def Final (c : Conversation) (todo : Todo) (k : Key) : Prop :=
  c.Settled todo k ∨ ∀ pe, c.deferred.lookup k = some pe → c.AwaitsAll pe ∨ c.LaterEra pe.env

/-- How often an envelope can be handled again from here on. -/
def Quota (c : Conversation) (todo : Todo) (k : Key) : ℕ → Prop
  | 0 => c.Settled todo k
  | 1 => c.Final todo k
  | _ + 2 => True

variable {q : ℕ}

theorem settled_of_none (h : c.deferred.lookup k = none) : c.Settled todo k := by
  intro pe hl
  cases h.symm.trans hl

theorem Quota.of_eq {todo' : Todo} (hq : Quota c todo d q)
    (hs : c.Settled todo d → c'.Settled todo' d) (hf : ∀ pe, c'.deferred.lookup d = some pe →
      ∃ pe', c.deferred.lookup d = some pe' ∧ (c.AwaitsAll pe' → c'.AwaitsAll pe) ∧
        (c.LaterEra pe'.env → c'.LaterEra pe.env)) : Quota c' todo' d q := by
  match q with
  | 0 => exact hs hq
  | 1 =>
    refine hq.imp hs fun hall pe hl => ?_
    obtain ⟨pe', hl', hc, he⟩ := hf pe hl
    exact (hall pe' hl').imp hc he
  | _ + 2 => trivial

/-- A deferred envelope is not entered into the tables a second time. -/
theorem Quota.enter {missing : List Key} (hq : Quota c todo d q) (hne : d ≠ k)
    (env : Envelope) (origin : ReplicaID) :
    Quota { missing.foldl (awaitParent k origin) c with
      deferred := c.deferred.insert k ⟨env, origin, missing.dedup⟩ } todo d q := by
  have hgraph := graph_foldl_awaitParent k origin missing c
  have hmem := membership_foldl_awaitParent k origin missing c
  refine hq.of_eq (fun hset pe hl => ?_) fun pe hl => ?_
  · rw [AList.lookup_insert_ne hne] at hl
    simpa only [hgraph] using hset pe hl
  · rw [AList.lookup_insert_ne hne] at hl
    refine ⟨pe, hl, fun hc => hc.mono hmem fun w hw => by rwa [hgraph], fun hera => ?_⟩
    simpa only [LaterEra, hmem] using hera

/-- Handling an envelope keeps the quota of those that are deferred, and of all others but
itself. -/
theorem Quota.handled (hq : Quota c todo d q) (hh : Handled io c env origin c' new)
    (hd : c.membership.keyOf env = some d → ∃ pe, c.deferred.lookup d = some pe) :
    Quota c' (new ++ todo) d q := by
  cases hh.outcome with
  | unchanged => exact hq
  | entered hk hl hi =>
    refine hq.enter ?_ env origin
    rintro rfl
    obtain ⟨pe, hpe⟩ := hd hk
    cases hl.symm.trans hpe
  | accepted hs hi =>
    have habsent := (screen_eq_some hs).2.2
    refine hq.of_eq (fun hset pe hl => ?_) fun pe hl => ?_
    · obtain ⟨w, hw, hpresent, hnot⟩ := hset pe hl
      refine ⟨w, hw, (has_insert hi w).mpr (Or.inr hpresent), fun hmem => ?_⟩
      rcases List.mem_append.mp hmem with hnew | hold
      · obtain ⟨rfl, -⟩ := (mem_released io _ _ w d).mp hnew
        rw [hpresent] at habsent
        cases habsent
      · exact hnot hold
    · exact ⟨pe, hl, fun hc => hc.mono rfl fun w hw => (has_insert hi w).mpr (Or.inr hw), id⟩

theorem Settled.tail (h : c.Settled ((p, k) :: todo) d) : c.Settled todo d := by
  intro pe hl
  obtain ⟨w, hw, hpresent, hnot⟩ := h pe hl
  exact ⟨w, hw, hpresent, fun hmem => hnot (List.mem_cons_of_mem _ hmem)⟩

theorem Quota.tail (hq : Quota c ((p, k) :: todo) d q) : Quota c todo d q :=
  hq.of_eq Settled.tail fun pe hl => ⟨pe, hl, id, id⟩

theorem Quota.wait (hq : Quota c ((p, k) :: todo) d q) (h : Indexed c ((p, k) :: todo))
    (hl : c.deferred.lookup k = some pe) :
    Quota { c with deferred := c.deferred.insert k { pe with waiting := pe.waiting.erase p } }
      todo d q := by
  obtain ⟨-, hpresent, -⟩ := h.released hl
  refine hq.of_eq (fun hset pe' hd => ?_) fun pe' hd => ?_
  · rcases lookup_insert_cases hd with ⟨rfl, rfl⟩ | ⟨_, hd⟩
    · obtain ⟨w, hw, hhas, hnot⟩ := hset pe hl
      have hne : w ≠ p := by
        rintro rfl
        exact hnot (List.mem_cons_self ..)
      exact ⟨w, (List.mem_erase_of_ne hne).mpr hw, hhas,
        fun hmem => hnot (List.mem_cons_of_mem _ hmem)⟩
    · exact hset.tail pe' hd
  · rcases lookup_insert_cases hd with ⟨rfl, rfl⟩ | ⟨_, hd⟩
    · exact ⟨pe, hl, fun hc => hc.erase hpresent, id⟩
    · exact ⟨pe', hd, id, id⟩

/-- Nothing but the released parent is left to wait on. -/
theorem Indexed.waiting_eq (h : Indexed c ((p, k) :: todo)) (hl : c.deferred.lookup k = some pe)
    (hw : pe.waiting.erase p = []) : pe.waiting = [p] := by
  obtain ⟨hmem, -, -⟩ := h.released hl
  have hperm := List.perm_cons_erase hmem
  rw [hw] at hperm
  exact List.perm_singleton.mp hperm

theorem Quota.retry_of_ne (hq : Quota c ((p, k) :: todo) d q) (h : Filed n c ((p, k) :: todo))
    (hl : c.deferred.lookup k = some pe) (hdk : d ≠ k)
    (hh : Handled io { c with deferred := c.deferred.erase k } pe.env pe.origin c' new) :
    Quota c' (new ++ todo) d q := by
  have hleft : Quota { c with deferred := c.deferred.erase k } todo d q := by
    refine hq.of_eq (fun hset pe' hd => hset.tail pe' (lookup_erase_cases hd).2) fun pe' hd => ?_
    exact ⟨pe', (lookup_erase_cases hd).2, id, id⟩
  refine hleft.handled hh fun hk => ?_
  cases hk.symm.trans (h.keyed k pe hl)
  exact absurd rfl hdk

/-- A settled envelope is not handled again. -/
theorem Settled.erase_ne (hs : c.Settled ((p, k) :: todo) k) (h : Indexed c ((p, k) :: todo))
    (hl : c.deferred.lookup k = some pe) : pe.waiting.erase p ≠ [] := by
  intro hw
  obtain ⟨w, hmem, -, hnot⟩ := hs pe hl
  rw [h.waiting_eq hl hw, List.mem_singleton] at hmem
  subst hmem
  exact hnot (List.mem_cons_self ..)

/-- What an envelope that is handled again leaves behind under its key. -/
theorem retry_cases (h : Filed n c ((p, k) :: todo)) (hl : c.deferred.lookup k = some pe)
    (hh : Handled io { c with deferred := c.deferred.erase k } pe.env pe.origin c' new) :
    c'.deferred.lookup k = none ∨
      ∃ missing, c.graph.insert c.membership pe.env = .error (.missingParents missing) ∧
        c'.deferred.lookup k = some ⟨pe.env, pe.origin, missing.dedup⟩ ∧ new = [] ∧
        c'.graph = c.graph ∧ c'.membership = c.membership := by
  have hnone : (c.deferred.erase k).lookup k = none := AList.lookup_erase ..
  cases hh.outcome with
  | unchanged => exact Or.inl hnone
  | accepted hs hi => exact Or.inl hnone
  | entered hk hfree hi =>
    rename_i k' missing
    cases (h.keyed k pe hl).symm.trans hk
    refine Or.inr ⟨missing, hi, AList.lookup_insert _, rfl, ?_, ?_⟩
    · exact graph_foldl_awaitParent k pe.origin missing _
    · exact membership_foldl_awaitParent k pe.origin missing _

theorem final_retry (h : Filed n c ((p, k) :: todo)) (hl : c.deferred.lookup k = some pe)
    (hh : Handled io { c with deferred := c.deferred.erase k } pe.env pe.origin c' new) :
    c'.Final (new ++ todo) k := by
  rcases retry_cases h hl hh with hnone | ⟨missing, hi, hl', -, hgraph, hmem⟩
  · exact Or.inl (settled_of_none hnone)
  · refine Or.inr fun pe' hpe' => ?_
    cases hl'.symm.trans hpe'
    rcases awaitsAll_or_laterEra (h.keyed k pe hl) hi pe.origin with hc | ⟨hera, -⟩
    · exact Or.inl (hc.mono hmem fun w hw => by rwa [hgraph])
    · exact Or.inr (by simpa only [LaterEra, hmem] using hera)

theorem AwaitsAll.insert_ne_missing {missing : List Key} (h : c.AwaitsAll pe)
    (hw : pe.waiting = [p]) (hp : c.graph.has p = true) :
    c.graph.insert c.membership pe.env ≠ .error (.missingParents missing) := by
  intro hi
  obtain ⟨slot, _, _, _, ⟨hera, _, _⟩ | ⟨_, hne, rfl⟩⟩ := Graph.insert_missing hi
  · exact absurd h.1 (Nat.not_le.mpr hera)
  · obtain ⟨w, hmem⟩ := List.exists_mem_of_ne_nil _ hne
    obtain ⟨hparent, habsent⟩ := List.mem_filter.mp hmem
    have hno : c.graph.has w = false := by simpa using habsent
    have hwait := h.2 w hparent hno
    rw [hw, List.mem_singleton] at hwait
    subst hwait
    rw [hp] at hno
    cases hno

theorem settled_retry (h : Filed n c ((p, k) :: todo)) (hl : c.deferred.lookup k = some pe)
    (hw : pe.waiting.erase p = []) (hf : c.AwaitsAll pe ∨ c.LaterEra pe.env)
    (hh : Handled io { c with deferred := c.deferred.erase k } pe.env pe.origin c' new) :
    c'.Settled (new ++ todo) k := by
  obtain ⟨-, hpresent, hnot⟩ := h.toIndexed.released hl
  have hwaiting := h.toIndexed.waiting_eq hl hw
  rcases retry_cases h hl hh with hnone | ⟨missing, hi, hl', rfl, hgraph, -⟩
  · exact settled_of_none hnone
  · intro pe' hpe'
    cases hl'.symm.trans hpe'
    rcases hf with hc | hera
    · exact absurd hi (hc.insert_ne_missing hwaiting hpresent)
    · rcases awaitsAll_or_laterEra (h.keyed k pe hl) hi pe.origin with hc | ⟨-, hone⟩
      · exact absurd hc.1 (Nat.not_le.mpr hera)
      · rcases h.shape k pe hl with hc | ⟨-, hprev⟩
        · exact absurd hc.1 (Nat.not_le.mpr hera)
        · refine ⟨p, ?_, by rwa [hgraph], hnot⟩
          rw [hone, ← hprev, hwaiting]
          exact List.mem_singleton_self p

theorem Quota.retry_self (hq : Quota c ((p, k) :: todo) k (q + 1))
    (h : Filed n c ((p, k) :: todo)) (hl : c.deferred.lookup k = some pe)
    (hw : pe.waiting.erase p = [])
    (hh : Handled io { c with deferred := c.deferred.erase k } pe.env pe.origin c' new) :
    Quota c' (new ++ todo) k q := by
  match q with
  | 0 =>
    rcases hq with hset | hfinal
    · exact absurd hw (hset.erase_ne h.toIndexed hl)
    · exact settled_retry h hl hw (hfinal pe hl) hh
  | 1 => exact final_retry h hl hh
  | _ + 2 => trivial

/-- Along every sequence of turns an envelope is handled again within its quota. -/
theorem Traced.count_le {s t : Conversation × Todo} {ks : List Key} (h : Traced io s ks t)
    (hf : Filed n s.1 s.2) (hq : Quota s.1 s.2 k q) : ks.count k ≤ q := by
  induction h generalizing q with
  | refl s => simp
  | skip hl _ ih => exact ih (hf.skip hl) hq.tail
  | wait hl hw _ ih => exact ih (hf.wait hl hw) (hq.wait hf.toIndexed hl)
  | @retry c c' p k' todo new pe ks t hl hw hh _ ih =>
    have hf' := (hf.leave hl hw).handled hh
    by_cases hk : k = k'
    · subst hk
      rw [List.count_cons_self]
      match q with
      | 0 => exact absurd hw (Settled.erase_ne hq hf.toIndexed hl)
      | q + 1 => exact Nat.succ_le_succ (ih hf' (hq.retry_self hf hl hw hh))
    · rw [List.count_cons_of_ne (Ne.symm hk)]
      exact ih hf' (hq.retry_of_ne hf hl hk hh)

end Counting

section Keys

/-- Handling an envelope defers nothing but that envelope. -/
theorem Handled.deferred_of_lookup {pe' : PendingEnvelope} (hh : Handled io c env origin c' new)
    (hl : c'.deferred.lookup d = some pe') :
    (∃ pe, c.deferred.lookup d = some pe) ∨ c.membership.keyOf env = some d := by
  cases hh.outcome with
  | unchanged => exact Or.inl ⟨pe', hl⟩
  | accepted _ _ => exact Or.inl ⟨pe', hl⟩
  | entered hk _ _ =>
    rcases lookup_insert_cases hl with ⟨rfl, _⟩ | ⟨_, hl⟩
    · exact Or.inr hk
    · exact Or.inl ⟨pe', hl⟩

theorem Handled.deferred_eq_or_new_nil (hh : Handled io c env origin c' new) :
    c'.deferred = c.deferred ∨ new = [] := by
  cases hh with
  | accepted _ _ => exact Or.inl rfl
  | screened _ | refused _ _ _ | deferred _ _ => exact Or.inr rfl

theorem Traced.eq_nil {t : Conversation × Todo} {ks : List Key} (h : Traced io (c, []) ks t) :
    ks = [] := by
  cases h
  rfl

/-- Only envelopes that are deferred are handled again. -/
theorem Traced.deferred_of_mem {s t : Conversation × Todo} {ks : List Key}
    (h : Traced io s ks t) (hf : Filed n s.1 s.2) (hd : d ∈ ks) :
    ∃ pe, s.1.deferred.lookup d = some pe := by
  induction h with
  | refl s => cases hd
  | skip hl _ ih => exact ih (hf.skip hl) hd
  | wait hl hw _ ih =>
    obtain ⟨pe', hl'⟩ := ih (hf.wait hl hw) hd
    rcases lookup_insert_cases hl' with ⟨rfl, _⟩ | ⟨_, hl'⟩
    · exact ⟨_, hl⟩
    · exact ⟨pe', hl'⟩
  | retry hl hw hh _ ih =>
    rcases List.mem_cons.mp hd with rfl | hd
    · exact ⟨_, hl⟩
    · obtain ⟨pe', hl'⟩ := ih ((hf.leave hl hw).handled hh) hd
      rcases hh.deferred_of_lookup hl' with ⟨pe, hpe⟩ | hk
      · exact ⟨pe, (lookup_erase_cases hpe).2⟩
      · cases hk.symm.trans (hf.keyed _ _ hl)
        exact ⟨_, hl⟩

end Keys

/-- The envelope was deferred before the members that its clock counts had joined. It fits
the membership by now, and it waits on its sender's preceding message alone although another
parent is missing. -/
def Outgrown (n : ℕ) (c : Conversation) (k : Key) (pe : PendingEnvelope) : Prop :=
  n < pe.env.id.vectorClock.length ∧ pe.env.id.vectorClock.length ≤ c.membership.len ∧
    pe.waiting = [⟨k.sender, k.seq - 1⟩] ∧
    ∃ w ∈ Graph.derivedParents c.membership pe.env, c.graph.has w = false ∧ w ∉ pe.waiting

theorem Filed.awaitsAll_or_laterEra_of_not_outgrown (h : Filed n c todo)
    (hl : c.deferred.lookup k = some pe) (hno : ¬ Outgrown n c k pe) :
    c.AwaitsAll pe ∨ c.LaterEra pe.env := by
  rcases h.shape k pe hl with hc | ⟨hlong, hone⟩
  · exact Or.inl hc
  · rcases Nat.lt_or_ge c.membership.len pe.env.id.vectorClock.length with hera | hfits
    · exact Or.inr hera
    · refine Or.inl ⟨hfits, fun w hw habsent => ?_⟩
      by_contra hnot
      exact hno ⟨hlong, hfits, hone, w, hw, habsent, hnot⟩

/-- In every state that a conversation reaches the receive handler comes to an end on every
envelope, and the envelopes that it handles again were deferred at the start. Each of them
is handled again once at most, or twice if it is outgrown. -/
theorem receive_recursion_ends {convID : ConversationID} {self : ReplicaID}
    {members mask : List ReplicaID} {log : MessageLog} {c₀ : Conversation}
    (hnew : Conversation.new convID self members mask log = some c₀)
    (hr : Reach Conversation.serve (fun _ _ => True) c₀ c)
    (io : HandlerChoices) (origin : ReplicaID) (env : Envelope) :
    ∃ again : List Key,
      (∀ fuel, c.deferred.entries.length < fuel → handleNoting io fuel c env origin =
        (c.handleIncoming io origin (.envelope env), again)) ∧
      (∃ c₁ new, Handled io c env origin c₁ new ∧
        Traced io (c₁, new) again (c.handleIncoming io origin (.envelope env), [])) ∧
      (∀ k ∈ again, ∃ pe, c.deferred.lookup k = some pe) ∧
      ∀ k pe, c.deferred.lookup k = some pe → again.count k ≤ 2 ∧
        (again.count k ≤ 1 ∨ Outgrown members.length c k pe) := by
  have hfiled := filed_of_reach hnew hr
  have henough : c.deferred.entries.length < c.deferred.entries.length + 1 := Nat.lt_succ_self _
  obtain ⟨c₁, new, hh, ht⟩ := unrolls_handleNoting _ c env origin henough
  have htraced := ht []
  rw [List.append_nil, handleNoting_fst] at htraced
  have hfiled₁ := hfiled.handled hh
  rw [List.append_nil] at hfiled₁
  refine ⟨_, fun fuel hfuel => ?_, ⟨c₁, new, hh, htraced⟩, fun k hk => ?_, fun k pe hl => ?_⟩
  · rw [handleNoting_fuel io c env origin hfuel]
    exact Prod.ext (handleNoting_fst ..) rfl
  · rcases hh.deferred_eq_or_new_nil with hsame | rfl
    · rw [← hsame]
      exact htraced.deferred_of_mem hfiled₁ hk
    · rw [htraced.eq_nil] at hk
      cases hk
  · have hcount {q : ℕ} (hq : Quota c [] k q) :
        (handleNoting io (c.deferred.entries.length + 1) c env origin).2.count k ≤ q := by
      have hq₁ := hq.handled hh fun _ => ⟨pe, hl⟩
      rw [List.append_nil] at hq₁
      exact htraced.count_le hfiled₁ hq₁
    refine ⟨hcount (q := 2) trivial, ?_⟩
    by_cases hout : Outgrown members.length c k pe
    · exact Or.inr hout
    · refine Or.inl (hcount (q := 1) (Or.inr fun pe' hl' => ?_))
      cases hl.symm.trans hl'
      exact hfiled.awaitsAll_or_laterEra_of_not_outgrown hl hout

/-- A message of a later era arrives first, together with one that it follows. Both wait on
the same message when the missing member is added. -/
def fourthJoinsLate : List ServerStep :=
  [receive [3] [0, 1, 1], receive [2] [0, 2, 1, 0], .request (.addMember [4])]

theorem receive_recursion_ends_fourthJoinsLate :
    ∃ c₀ c again, Conversation.new [9] [1] [[1], [2], [3]] [] .empty = some c₀ ∧
      Reach serve (fun _ _ => True) c₀ c ∧ c.deferred.entries.length = 2 ∧
      (∀ fuel, 2 < fuel → handleNoting .standard fuel c (message [2] [0, 1, 0]) [2] =
        (c.handleIncoming .standard [2] (.envelope (message [2] [0, 1, 0])), again)) ∧
      again.count ⟨[2], 2⟩ ≤ 2 ∧ again.count ⟨[3], 1⟩ ≤ 1 := by
  have hnew : Conversation.new [9] [1] [[1], [2], [3]] [] .empty =
      some (init [9] [1] 0 [[1], [2], [3]] [] .empty) := rfl
  have hrun : (execute serve (fun _ _ => True) (init [9] [1] 0 [[1], [2], [3]] [] .empty)
      fourthJoinsLate).map (fun c => decide (c.deferred.entries.length = 2 ∧
        c.deferred.lookup ⟨[2], 2⟩ = some ⟨message [2] [0, 2, 1, 0], [2], [⟨[2], 1⟩]⟩ ∧
        c.deferred.lookup ⟨[3], 1⟩ = some ⟨message [3] [0, 1, 1], [3], [⟨[2], 1⟩]⟩)) =
      some true := by
    decide +kernel
  obtain ⟨c, -, hr, hc⟩ := reach_of_execute hrun
  obtain ⟨hlen, hera, hfits⟩ := of_decide_eq_true hc
  obtain ⟨again, hfuel, -, -, hcount⟩ :=
    receive_recursion_ends hnew hr .standard [2] (message [2] [0, 1, 0])
  rw [hlen] at hfuel
  refine ⟨_, c, again, hnew, hr, hlen, hfuel, (hcount _ _ hera).1, ?_⟩
  rcases (hcount _ _ hfits).2 with hone | hout
  · exact hone
  · exact absurd hout.1 (by decide)

/-- Released by the arriving message, the envelope is deferred on the other one, which is
released next. -/
theorem deferred_envelope_is_handled_twice :
    ∃ c₀ c, Conversation.new [9] [1] [[1], [2], [3]] [] .empty = some c₀ ∧
      Reach serve (fun _ _ => True) c₀ c ∧
      c.deferred.lookup ⟨[2], 2⟩ = some ⟨message [2] [0, 2, 1, 0], [2], [⟨[2], 1⟩]⟩ ∧
      ∀ fuel, c.deferred.entries.length < fuel →
        (handleNoting .standard fuel c (message [2] [0, 1, 0]) [2]).2 =
          [⟨[2], 2⟩, ⟨[3], 1⟩, ⟨[2], 2⟩] := by
  have hrun : (execute serve (fun _ _ => True) (init [9] [1] 0 [[1], [2], [3]] [] .empty)
      fourthJoinsLate).map (fun c => decide (
        c.deferred.lookup ⟨[2], 2⟩ = some ⟨message [2] [0, 2, 1, 0], [2], [⟨[2], 1⟩]⟩ ∧
        (handleNoting .standard (c.deferred.entries.length + 1) c (message [2] [0, 1, 0])
          [2]).2 = [⟨[2], 2⟩, ⟨[3], 1⟩, ⟨[2], 2⟩])) = some true := by
    decide +kernel
  obtain ⟨c, -, hr, hc⟩ := reach_of_execute hrun
  obtain ⟨hl, htwice⟩ := of_decide_eq_true hc
  refine ⟨_, c, rfl, hr, hl, fun fuel hfuel => ?_⟩
  rw [handleNoting_fuel _ c _ _ hfuel]
  exact htwice

end Comlink.Conversation
