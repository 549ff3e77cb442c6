import Comlink.DeferralTurns
import Comlink.ServerSteps
import Mathlib.Data.List.Dedup

/-!
# The two indexes of the deferral

`deferred` maps an envelope to the keys it waits on, `deferredByNeed` maps a key to
the envelopes that wait on it, and `outstanding` holds the keys that have been asked
for. Between two requests the first two are inverse to each other and the third is
the domain of the second. While dependents are being released, the releases still to
be done make up for the entries that have already left the second index.
-/
namespace Comlink.Conversation
open Relation AssociationLists

variable {io : HandlerChoices} {c c' : Conversation} {env : Envelope} {origin : ReplicaID}
variable {todo new : Todo} {k p : Key} {pe : PendingEnvelope}

structure Indexed (c : Conversation) (todo : Todo) : Prop where
  waiting : ∀ k pe, c.deferred.lookup k = some pe → pe.waiting ≠ [] ∧ pe.waiting.Nodup
  registered : ∀ k pe, c.deferred.lookup k = some pe →
    ∀ w ∈ pe.waiting, k ∈ c.needing w ∨ (w, k) ∈ todo
  needs : ∀ w k, k ∈ c.needing w → ∃ pe, c.deferred.lookup k = some pe ∧ w ∈ pe.waiting
  needing_nodup : ∀ w, (c.needing w).Nodup
  inhabited : ∀ w ∈ c.deferredByNeed, c.needing w ≠ []
  requested : ∀ w, w ∈ c.outstanding ↔ w ∈ c.deferredByNeed
  requested_nodup : c.outstanding.Nodup
  todo_nodup : todo.Nodup
  todo_present : ∀ w k, (w, k) ∈ todo → c.graph.has w = true
  todo_needs : ∀ w k, (w, k) ∈ todo →
    (∃ pe, c.deferred.lookup k = some pe ∧ w ∈ pe.waiting) ∧ k ∉ c.needing w

theorem indexed_init (convID : ConversationID) (self : ReplicaID) (slot : ℕ)
    (members mask : List ReplicaID) (log : MessageLog) :
    Indexed (init convID self slot members mask log) [] := by
  constructor <;> simp [init, needing]

/-- What a deferred envelope waits for has been asked for. -/
theorem Indexed.mem_outstanding (h : Indexed c []) (hl : c.deferred.lookup k = some pe)
    (hw : p ∈ pe.waiting) : p ∈ c.outstanding := by
  rw [h.requested]
  rcases h.registered k pe hl p hw with hn | hn
  · by_contra hnot
    rw [needing, AList.lookup_eq_none.mpr hnot] at hn
    cases hn
  · cases hn

/-- Between two requests only the three tables matter. -/
theorem Indexed.congr (h : Indexed c []) (hd : c'.deferred = c.deferred)
    (hn : c'.deferredByNeed = c.deferredByNeed) (ho : c'.outstanding = c.outstanding) :
    Indexed c' [] := by
  have hneeding : ∀ w, c'.needing w = c.needing w := fun w => by rw [needing, needing, hn]
  refine ⟨?_, ?_, ?_, ?_, ?_, ?_, ?_, List.nodup_nil, by simp, by simp⟩
  · rw [hd]
    exact h.waiting
  · simp only [hd, hneeding]
    exact h.registered
  · simp only [hd, hneeding]
    exact h.needs
  · simp only [hneeding]
    exact h.needing_nodup
  · simp only [hn, hneeding]
    exact h.inhabited
  · rw [hn, ho]
    exact h.requested
  · rw [ho]
    exact h.requested_nodup

section Defer

variable {e : Key} {missing : List Key}

theorem needing_awaitParent (e : Key) (origin : ReplicaID) (c : Conversation) (p w : Key) :
    (awaitParent e origin c p).needing w =
      if w = p then (c.needing w).insert e else c.needing w := by
  rw [awaitParent_eq, needing]
  dsimp only
  by_cases hw : w = p
  · subst hw
    rw [AList.lookup_insert, if_pos rfl, Option.getD_some]
  · rw [AList.lookup_insert_ne hw, if_neg hw, needing]

theorem needing_foldl_awaitParent (e : Key) (origin : ReplicaID) (missing : List Key)
    (c : Conversation) (w : Key) : (missing.foldl (awaitParent e origin) c).needing w =
      if w ∈ missing then (c.needing w).insert e else c.needing w := by
  induction missing generalizing c with
  | nil => simp
  | cons p ps ih =>
    rw [List.foldl_cons, ih, needing_awaitParent]
    by_cases hp : w = p
    · by_cases hps : p ∈ ps <;> simp [hp, hps]
    · simp [hp]

theorem mem_needing_foldl (e : Key) (origin : ReplicaID) (missing : List Key) (c : Conversation)
    (w k : Key) : k ∈ (missing.foldl (awaitParent e origin) c).needing w ↔
      w ∈ missing ∧ k = e ∨ k ∈ c.needing w := by
  rw [needing_foldl_awaitParent]
  by_cases hw : w ∈ missing <;> simp [hw]

theorem mem_deferredByNeed_foldl (e : Key) (origin : ReplicaID) (missing : List Key)
    (c : Conversation) (w : Key) :
    w ∈ (missing.foldl (awaitParent e origin) c).deferredByNeed ↔
      w ∈ missing ∨ w ∈ c.deferredByNeed := by
  induction missing generalizing c with
  | nil => simp
  | cons p ps ih =>
    rw [List.foldl_cons, ih, awaitParent_eq]
    simp only [AList.mem_insert, List.mem_cons]
    tauto

theorem mem_outstanding_foldl (e : Key) (origin : ReplicaID) (missing : List Key)
    (c : Conversation) (w : Key) :
    w ∈ (missing.foldl (awaitParent e origin) c).outstanding ↔
      w ∈ missing ∨ w ∈ c.outstanding := by
  induction missing generalizing c with
  | nil => simp
  | cons p ps ih =>
    rw [List.foldl_cons, ih, awaitParent_eq]
    simp only [List.mem_insert_iff, List.mem_cons]
    tauto

theorem nodup_outstanding_foldl (e : Key) (origin : ReplicaID) (missing : List Key)
    (c : Conversation) (h : c.outstanding.Nodup) :
    (missing.foldl (awaitParent e origin) c).outstanding.Nodup := by
  induction missing generalizing c with
  | nil => exact h
  | cons p ps ih =>
    apply ih
    rw [awaitParent_eq]
    exact h.insert

/-- Either the envelope is deferred already and nothing happens, or it is entered into
every table. -/
theorem deferEnvelope_cases (c : Conversation) (env : Envelope) (missing : List Key)
    (origin : ReplicaID) (hk : c.membership.keyOf env = some k) :
    (∃ pe, c.deferred.lookup k = some pe ∧ c.deferEnvelope env missing origin = c) ∨
      c.deferred.lookup k = none ∧ c.deferEnvelope env missing origin =
        { missing.foldl (awaitParent k origin) c with
          deferred := c.deferred.insert k ⟨env, origin, missing.dedup⟩ } := by
  obtain ⟨seq, hq, rfl⟩ := Option.map_eq_some_iff.mp hk
  rw [deferEnvelope, hq]
  cases hl : c.deferred.lookup ⟨env.sender, seq⟩ with
  | some pe => exact Or.inl ⟨pe, rfl, by simp [hl]⟩
  | none => exact Or.inr ⟨rfl, by simp [hl, deferred_foldl_awaitParent]⟩

/-- What the handling of an envelope comes to: nothing changes, the envelope is entered into
every table, or it is accepted. -/
inductive Outcome (io : HandlerChoices) (c : Conversation) (env : Envelope)
    (origin : ReplicaID) : Conversation → Todo → Prop
  | unchanged : Outcome io c env origin c []
  | entered {k : Key} {missing : List Key} (hk : c.membership.keyOf env = some k)
      (hl : c.deferred.lookup k = none)
      (hi : c.graph.insert c.membership env = .error (.missingParents missing)) :
      Outcome io c env origin { missing.foldl (awaitParent k origin) c with
        deferred := c.deferred.insert k ⟨env, origin, missing.dedup⟩ } []
  | accepted {k : Key} {g : Graph} {n : Node} (hs : c.screen env = some k)
      (hi : c.graph.insert c.membership env = .ok (g, n)) :
      Outcome io c env origin (c.available io env k g)
        ((io.order k (c.needing k)).map fun d => (k, d))

theorem Handled.outcome (hh : Handled io c env origin c' new) :
    Outcome io c env origin c' new := by
  cases hh with
  | screened _ => exact .unchanged
  | refused _ _ _ => exact .unchanged
  | accepted hs hi => exact .accepted hs hi
  | deferred hs hi =>
    rename_i k missing
    have hk := keyOf_of_screen hs
    rcases deferEnvelope_cases c env missing origin hk with ⟨_, _, he⟩ | ⟨hl, he⟩
    · rw [he]
      exact .unchanged
    · rw [he]
      exact .entered hk hl hi

theorem Indexed.enter (h : Indexed c todo) (hl : c.deferred.lookup e = none)
    (hne : missing ≠ []) (env : Envelope) (origin : ReplicaID) :
    Indexed { missing.foldl (awaitParent e origin) c with
      deferred := c.deferred.insert e ⟨env, origin, missing.dedup⟩ } todo := by
  have hgraph := graph_foldl_awaitParent e origin missing c
  have hfree : ∀ {k pe}, c.deferred.lookup k = some pe → k ≠ e := by
    rintro k pe hk rfl
    rw [hl] at hk
    cases hk
  have hmem := mem_needing_foldl e origin missing c
  refine ⟨?_, ?_, ?_, ?_, ?_, ?_, nodup_outstanding_foldl e origin missing c h.requested_nodup,
    h.todo_nodup, ?_, ?_⟩
  · intro k pe hk
    rcases lookup_insert_cases hk with ⟨rfl, rfl⟩ | ⟨_, hk⟩
    · exact ⟨by simpa [List.dedup_eq_nil] using hne, List.nodup_dedup _⟩
    · exact h.waiting k pe hk
  · intro k pe hk w hw
    rcases lookup_insert_cases hk with ⟨rfl, rfl⟩ | ⟨_, hk⟩
    · exact Or.inl ((hmem w k).mpr (Or.inl ⟨List.mem_dedup.mp hw, rfl⟩))
    · exact (h.registered k pe hk w hw).imp_left fun hn => (hmem w k).mpr (Or.inr hn)
  · intro w k hk
    rcases (hmem w k).mp hk with ⟨hw, rfl⟩ | hk
    · exact ⟨_, AList.lookup_insert _, List.mem_dedup.mpr hw⟩
    · obtain ⟨pe, hpe, hw⟩ := h.needs w k hk
      exact ⟨pe, by rw [AList.lookup_insert_ne (hfree hpe), hpe], hw⟩
  · intro w
    have hn := needing_foldl_awaitParent e origin missing c w
    rw [needing] at hn ⊢
    rw [hn]
    split
    · exact (h.needing_nodup w).insert
    · exact h.needing_nodup w
  · intro w hw hnil
    have hn : ∀ k, ¬ (w ∈ missing ∧ k = e ∨ k ∈ c.needing w) := by
      intro k hk
      have hin := (hmem w k).mpr hk
      rw [needing] at hin hnil
      rw [hnil] at hin
      cases hin
    rcases (mem_deferredByNeed_foldl e origin missing c w).mp hw with hw | hw
    · exact hn e (Or.inl ⟨hw, rfl⟩)
    · exact h.inhabited w hw (List.eq_nil_iff_forall_not_mem.mpr fun k hk => hn k (Or.inr hk))
  · intro w
    rw [mem_outstanding_foldl, mem_deferredByNeed_foldl, h.requested]
  · intro w k hk
    rw [hgraph]
    exact h.todo_present w k hk
  · intro w k hk
    obtain ⟨⟨pe, hpe, hw⟩, hn⟩ := h.todo_needs w k hk
    refine ⟨⟨pe, by rw [AList.lookup_insert_ne (hfree hpe), hpe], hw⟩, ?_⟩
    intro hin
    rcases (hmem w k).mp hin with ⟨_, rfl⟩ | hin
    · exact hfree hpe rfl
    · exact hn hin

end Defer

theorem needing_available (io : HandlerChoices) (c : Conversation) (env : Envelope) (k : Key)
    (g : Graph) (w : Key) :
    (c.available io env k g).needing w = if w = k then [] else c.needing w := by
  rw [needing, available]
  dsimp only
  by_cases hw : w = k
  · rw [hw, AList.lookup_erase, if_pos rfl, Option.getD_none]
  · rw [AList.lookup_erase_ne hw, if_neg hw, needing]

theorem has_insert {m : Membership} {g g' : Graph} {n : Node} (hi : g.insert m env = .ok (g', n))
    (w : Key) : g'.has w = true ↔ w = n.key ∨ g.has w = true := by
  obtain ⟨rfl, _, _, _, _⟩ := Graph.insert_ok hi
  simp only [Graph.has_iff, List.mem_append, List.mem_singleton]
  constructor
  · rintro ⟨a, ha | rfl, rfl⟩
    · exact Or.inr ⟨a, ha, rfl⟩
    · exact Or.inl rfl
  · rintro (rfl | ⟨a, ha, rfl⟩)
    · exact ⟨n, Or.inr rfl, rfl⟩
    · exact ⟨a, Or.inl ha, rfl⟩

/-- The releases that an accepted envelope adds to the work list. -/
theorem mem_released (io : HandlerChoices) (k : Key) (dependents : List Key) (w d : Key) :
    (w, d) ∈ (io.order k dependents).map (fun d => (k, d)) ↔ w = k ∧ d ∈ dependents := by
  simp only [List.mem_map, (io.order_perm k dependents).mem_iff, Prod.mk.injEq]
  constructor
  · rintro ⟨d, hd, rfl, rfl⟩
    exact ⟨rfl, hd⟩
  · rintro ⟨rfl, hd⟩
    exact ⟨d, hd, rfl, rfl⟩

/-- The dependents of an accepted envelope move from the index to the work list. -/
theorem Indexed.available {g : Graph} {n : Node} (h : Indexed c todo)
    (hs : c.screen env = some k) (hi : c.graph.insert c.membership env = .ok (g, n)) :
    Indexed (c.available io env k g)
      ((io.order k (c.needing k)).map (fun d => (k, d)) ++ todo) := by
  have hkey := screen_key hs hi
  have habsent : c.graph.has k = false := (screen_eq_some hs).2.2
  have hfresh : ∀ d, (k, d) ∉ todo := by
    intro d hd
    rw [h.todo_present k d hd] at habsent
    cases habsent
  have hnew := mem_released io k (c.needing k)
  refine ⟨h.waiting, ?_, ?_, ?_, ?_, ?_, h.requested_nodup.erase _, ?_, ?_, ?_⟩
  · intro d pe hd w hw
    rw [needing_available, List.mem_append, hnew]
    rcases h.registered d pe hd w hw with hn | ht
    · by_cases hwk : w = k
      · exact Or.inr (Or.inl ⟨hwk, hwk ▸ hn⟩)
      · rw [if_neg hwk]
        exact Or.inl hn
    · exact Or.inr (Or.inr ht)
  · intro w d hd
    rw [needing_available] at hd
    split at hd
    · cases hd
    · exact h.needs w d hd
  · intro w
    rw [needing_available]
    split
    · exact List.nodup_nil
    · exact h.needing_nodup w
  · intro w hw
    obtain ⟨hne, hw⟩ := AList.mem_erase.mp hw
    rw [needing_available, if_neg hne]
    exact h.inhabited w hw
  · intro w
    simp only [Conversation.available, h.requested_nodup.mem_erase_iff, h.requested,
      AList.mem_erase]
  · refine List.nodup_append.mpr ⟨?_, h.todo_nodup, ?_⟩
    · have hperm := io.order_perm k (c.needing k)
      exact (hperm.nodup_iff.mpr (h.needing_nodup k)).map fun _ _ he => (Prod.mk.inj he).2
    · rintro ⟨w, d⟩ hnew' b hb rfl
      obtain ⟨rfl, _⟩ := (hnew w d).mp hnew'
      exact hfresh d hb
  · intro w d hd
    refine (has_insert hi w).mpr ?_
    rcases List.mem_append.mp hd with hd | hd
    · exact Or.inl (((hnew w d).mp hd).1.trans hkey.symm)
    · exact Or.inr (h.todo_present w d hd)
  · intro w d hd
    rw [needing_available]
    rcases List.mem_append.mp hd with hin | hin
    · obtain ⟨rfl, hin⟩ := (hnew w d).mp hin
      rw [if_pos rfl]
      exact ⟨h.needs w d hin, List.not_mem_nil⟩
    · have hne : w ≠ k := by
        rintro rfl
        exact hfresh d hin
      rw [if_neg hne]
      exact h.todo_needs w d hin

theorem Indexed.handled (h : Indexed c todo) (hh : Handled io c env origin c' new) :
    Indexed c' (new ++ todo) := by
  cases hh.outcome with
  | unchanged => exact h
  | entered _ hl hi => exact h.enter hl (Graph.missing_ne_nil hi) env origin
  | accepted hs hi => exact h.available hs hi

/-- An envelope with one parent less to wait for, but not the last. -/
theorem Indexed.wait (h : Indexed c ((p, k) :: todo)) (hl : c.deferred.lookup k = some pe)
    (hw : pe.waiting.erase p ≠ []) :
    Indexed { c with deferred := c.deferred.insert k { pe with waiting := pe.waiting.erase p } }
      todo := by
  obtain ⟨hnot, hnodup⟩ := List.nodup_cons.mp h.todo_nodup
  have hunregistered : k ∉ c.needing p := (h.todo_needs p k (List.mem_cons_self ..)).2
  have hmem : ∀ {w}, w ∈ pe.waiting.erase p ↔ w ≠ p ∧ w ∈ pe.waiting :=
    fun {w} => (h.waiting k pe hl).2.mem_erase_iff
  have hkept : ∀ {w d pe'}, c.deferred.lookup d = some pe' → w ∈ pe'.waiting →
      (d = k → w ≠ p) → ∃ pe'', (c.deferred.insert k { pe with
        waiting := pe.waiting.erase p }).lookup d = some pe'' ∧ w ∈ pe''.waiting := by
    intro w d pe' hd hwd hne
    by_cases hdk : d = k
    · subst hdk
      rw [hl] at hd
      cases hd
      exact ⟨_, AList.lookup_insert _, hmem.mpr ⟨hne rfl, hwd⟩⟩
    · exact ⟨pe', by rw [AList.lookup_insert_ne hdk, hd], hwd⟩
  refine ⟨?_, ?_, ?_, h.needing_nodup, h.inhabited, h.requested, h.requested_nodup, hnodup,
    fun w d hd => h.todo_present w d (List.mem_cons_of_mem _ hd), ?_⟩
  · intro d pe' hd
    rcases lookup_insert_cases hd with ⟨rfl, rfl⟩ | ⟨_, hd⟩
    · exact ⟨hw, (h.waiting d pe hl).2.erase _⟩
    · exact h.waiting d pe' hd
  · intro d pe' hd w hwd
    have hreg : d ∈ c.needing w ∨ (w, d) ∈ (p, k) :: todo ∧ (w, d) ≠ (p, k) := by
      rcases lookup_insert_cases hd with ⟨rfl, rfl⟩ | ⟨hdk, hd⟩
      · obtain ⟨hne, hwk⟩ := hmem.mp hwd
        exact (h.registered d pe hl w hwk).imp_right fun ht =>
          ⟨ht, fun he => hne (Prod.mk.inj he).1⟩
      · exact (h.registered d pe' hd w hwd).imp_right fun ht =>
          ⟨ht, fun he => hdk (Prod.mk.inj he).2⟩
    exact hreg.imp_right fun ⟨ht, hne⟩ => (List.mem_cons.mp ht).resolve_left hne
  · intro w d hd
    obtain ⟨pe', hd', hwd⟩ := h.needs w d hd
    refine hkept hd' hwd ?_
    rintro rfl rfl
    exact hunregistered hd
  · intro w d hd
    obtain ⟨⟨pe', hd', hwd⟩, hn⟩ := h.todo_needs w d (List.mem_cons_of_mem _ hd)
    refine ⟨hkept hd' hwd ?_, hn⟩
    rintro rfl rfl
    exact hnot hd

/-- An envelope that has nothing left to wait for leaves the tables. -/
theorem Indexed.leave (h : Indexed c ((p, k) :: todo)) (hl : c.deferred.lookup k = some pe)
    (hw : pe.waiting.erase p = []) :
    Indexed { c with deferred := c.deferred.erase k } todo := by
  obtain ⟨hnot, hnodup⟩ := List.nodup_cons.mp h.todo_nodup
  have hunregistered : k ∉ c.needing p := (h.todo_needs p k (List.mem_cons_self ..)).2
  have honly : ∀ {w pe'}, c.deferred.lookup k = some pe' → w ∈ pe'.waiting → w = p := by
    intro w pe' hd hwk
    rw [hl] at hd
    cases hd
    by_contra hne
    have hin := (h.waiting k pe hl).2.mem_erase_iff.mpr ⟨hne, hwk⟩
    rw [hw] at hin
    cases hin
  refine ⟨?_, ?_, ?_, h.needing_nodup, h.inhabited, h.requested, h.requested_nodup, hnodup,
    fun w d hd => h.todo_present w d (List.mem_cons_of_mem _ hd), ?_⟩
  · intro d pe' hd
    exact h.waiting d pe' (lookup_erase_cases hd).2
  · intro d pe' hd w hwd
    obtain ⟨hdk, hd⟩ := lookup_erase_cases hd
    refine (h.registered d pe' hd w hwd).imp_right fun ht => ?_
    exact (List.mem_cons.mp ht).resolve_left fun he => hdk (Prod.mk.inj he).2
  · intro w d hd
    obtain ⟨pe', hd', hwd⟩ := h.needs w d hd
    have hdk : d ≠ k := by
      rintro rfl
      rw [honly hd' hwd] at hd
      exact hunregistered hd
    exact ⟨pe', by rw [AList.lookup_erase_ne hdk, hd'], hwd⟩
  · intro w d hd
    obtain ⟨⟨pe', hd', hwd⟩, hn⟩ := h.todo_needs w d (List.mem_cons_of_mem _ hd)
    have hdk : d ≠ k := by
      rintro rfl
      rw [honly hd' hwd] at hd
      exact hnot hd
    exact ⟨⟨pe', by rw [AList.lookup_erase_ne hdk, hd'], hwd⟩, hn⟩

theorem Indexed.turn {s t : Conversation × Todo} (h : Indexed s.1 s.2) (ht : Turn io s t) :
    Indexed t.1 t.2 := by
  cases ht with
  | skip hl =>
    obtain ⟨⟨pe, hpe, _⟩, _⟩ := h.todo_needs _ _ (List.mem_cons_self ..)
    rw [hl] at hpe
    cases hpe
  | wait hl hw => exact h.wait hl hw
  | retry hl hw hh => exact (h.leave hl hw).handled hh

theorem Indexed.turns {s t : Conversation × Todo} (h : Indexed s.1 s.2) (ht : Turns io s t) :
    Indexed t.1 t.2 := by
  induction ht with
  | refl => exact h
  | tail _ ht ih => exact ih.turn ht

theorem Indexed.incoming (h : Indexed c []) (io : HandlerChoices) (origin : ReplicaID)
    (env : Envelope) : Indexed (c.handleIncoming io origin (.envelope env)) [] := by
  obtain ⟨c₁, new, hh, ht⟩ := turns_incoming c io origin env
  have h₁ := h.handled hh
  rw [List.append_nil] at h₁
  exact Indexed.turns (s := (c₁, new)) h₁ ht

theorem Indexed.handle (h : Indexed c []) (req : Request) : Indexed (c.handle req) [] := by
  by_cases hreq : ∃ io origin env, req = .incoming io origin (.envelope env)
  · obtain ⟨io, origin, env, rfl⟩ := hreq
    exact h.incoming io origin env
  · obtain ⟨hd, hn, ho⟩ := sameTables_handle c req fun io origin env he =>
      hreq ⟨io, origin, env, he⟩
    exact h.congr hd hn ho

theorem Indexed.serve {a : ServerStep} (h : Indexed c []) (ha : c.serve a = some c') :
    Indexed c' [] := by
  cases a with
  | request req =>
    cases ha
    exact h.handle req
  | restart =>
    cases ha
    rw [handleReplay, foldl_replayEntry_frame]
    exact h.congr rfl rfl rfl

end Comlink.Conversation
