import Comlink.DeferralTracking
import Comlink.GuardedRuns

/-!
# Envelopes that stay deferred although they could be inserted

Only a received envelope releases what waits on it. A message that this replica sends
or reads back from its log enters the graph without a release, and for an envelope of
a later era the preceding message of its sender is reported missing even when it is
there. The conditions below rule these three situations out in the state before a
step; then no deferred envelope ever waits on something that is present, and none
would be accepted if it were tried again.
-/
namespace Comlink.Conversation
open AssociationLists GuardedRuns

variable {io : HandlerChoices} {c c' : Conversation} {env : Envelope} {origin : ReplicaID}
variable {todo new : Todo} {k p w : Key}

structure NoStuckDeferral (c : Conversation) : Prop where
  absent : ∀ k pe, c.deferred.lookup k = some pe → ∀ w ∈ pe.waiting, c.graph.has w = false
  refused : ∀ k pe, c.deferred.lookup k = some pe →
    ∀ g n, c.graph.insert c.membership pe.env ≠ .ok (g, n)

/-- The clock has slots for members that this replica has not added yet. -/
def LaterEra (c : Conversation) (env : Envelope) : Prop :=
  c.membership.len < env.id.vectorClock.length

/-- The state before a step in which everything that the step inserts is released. -/
def Timely (c : Conversation) : ServerStep → Prop
  | .request (.send _ _) => ∀ k pe, c.deferred.lookup k = some pe →
      (⟨c.self, c.graph.latestSeq c.self + 1⟩ : Key) ∉ pe.waiting
  | .request .replayLog | .restart => ∀ k pe, c.deferred.lookup k = some pe →
      ∀ w ∈ pe.waiting, ∀ f ∈ c.log.entries, c.membership.keyOf f.envelope ≠ some w
  | .request (.incoming _ _ (.envelope env)) =>
      (c.LaterEra env → ∀ k ∈ c.membership.keyOf env,
        c.graph.has ⟨k.sender, k.seq - 1⟩ = false) ∧
      ∀ k pe, c.deferred.lookup k = some pe → c.LaterEra pe.env → ∀ w ∈ pe.waiting,
        c.membership.keyOf env ≠ some w ∧ c.deferred.lookup w = none
  | _ => True

instance (c : Conversation) (env : Envelope) : Decidable (c.LaterEra env) :=
  inferInstanceAs (Decidable (_ < _))

instance (c : Conversation) (a : ServerStep) : Decidable (c.Timely a) := by
  unfold Timely
  split <;> infer_instance

theorem Tracked.noStuckDeferral (h : Tracked c []) : NoStuckDeferral c := by
  have habsent : ∀ k pe, c.deferred.lookup k = some pe →
      ∀ w ∈ pe.waiting, c.graph.has w = false := fun k pe hk w hw =>
    (h.absent k pe hk w hw).resolve_right List.not_mem_nil
  refine ⟨habsent, fun k pe hk g n => ?_⟩
  obtain ⟨w, hw⟩ := List.exists_mem_of_ne_nil _ (h.waiting k pe hk).1
  exact (h.reportable k pe hk w hw).insert_ne_ok (habsent k pe hk w hw)

section Cascade

/-- While releases go on, the keys of a set `K` enter the graph, and no deferred envelope
of a later era waits on one of them. -/
structure Cascade (K : Key → Prop) (c : Conversation) (todo : Todo) : Prop
    extends Tracked c todo where
  inside : ∀ k pe, c.deferred.lookup k = some pe → K k
  released : ∀ w k, (w, k) ∈ todo → K w
  early : ∀ k pe, c.deferred.lookup k = some pe → c.LaterEra pe.env → ∀ w ∈ pe.waiting, ¬ K w

variable {K : Key → Prop}

theorem Cascade.handled (h : Cascade K c todo) (hh : Handled io c env origin c' new)
    (hK : ∀ k, c.membership.keyOf env = some k → K k) (hera : ¬ c.LaterEra env) :
    Cascade K c' (new ++ todo) := by
  have htracked := h.toTracked.handled hh (reportsAbsent_of_length_le (Nat.le_of_not_lt hera))
  cases hh.outcome with
  | unchanged => exact h
  | entered hk hl hi =>
    refine ⟨htracked, ?_, h.released, ?_⟩
    · intro d pe hd
      rcases lookup_insert_cases hd with ⟨rfl, rfl⟩ | ⟨_, hd⟩
      · exact hK d hk
      · exact h.inside d pe hd
    · intro d pe hd hlate
      simp only [LaterEra, membership_foldl_awaitParent] at hlate
      rcases lookup_insert_cases hd with ⟨rfl, rfl⟩ | ⟨_, hd⟩
      · exact absurd hlate hera
      · exact h.early d pe hd hlate
  | accepted hs hi =>
    refine ⟨htracked, h.inside, ?_, h.early⟩
    intro w d hd
    rcases List.mem_append.mp hd with hd | hd
    · obtain ⟨_, _, he⟩ := List.mem_map.mp hd
      rw [← (Prod.mk.inj he).1]
      exact hK _ (keyOf_of_screen hs)
    · exact h.released w d hd

theorem Cascade.turn {s t : Conversation × Todo} (h : Cascade K s.1 s.2) (ht : Turn io s t) :
    Cascade K t.1 t.2 := by
  cases ht with
  | skip hl => exact absurd hl h.lookup_ne_none
  | wait hl hw =>
    refine ⟨h.toTracked.wait hl hw, ?_, fun w k hk => h.released w k (List.mem_cons_of_mem _ hk),
      ?_⟩
    · intro d pe hd
      rcases lookup_insert_cases hd with ⟨rfl, rfl⟩ | ⟨_, hd⟩
      · exact h.inside _ _ hl
      · exact h.inside d pe hd
    · intro d pe hd hlate w hwd
      rcases lookup_insert_cases hd with ⟨rfl, rfl⟩ | ⟨_, hd⟩
      · exact h.early _ _ hl hlate w (List.mem_of_mem_erase hwd)
      · exact h.early d pe hd hlate w hwd
  | retry hl hw hh =>
    rename_i c c' p k todo new pe
    have hleft : Cascade K { c with deferred := c.deferred.erase k } todo :=
      ⟨h.toTracked.leave hl hw, fun d pe hd => h.inside d pe (lookup_erase_cases hd).2,
        fun w d hd => h.released w d (List.mem_cons_of_mem _ hd),
        fun d pe hd => h.early d pe (lookup_erase_cases hd).2⟩
    refine hleft.handled hh ?_ ?_
    · intro d hd
      have hkey := h.keyed k pe hl
      rw [show c.membership.keyOf pe.env = some d from hd] at hkey
      cases hkey
      exact h.inside k pe hl
    · intro hlate
      exact h.early k pe hl hlate p (h.toTracked.mem_waiting hl)
        (h.released p k (List.mem_cons_self ..))

theorem Cascade.turns {s t : Conversation × Todo} (h : Cascade K s.1 s.2) (ht : Turns io s t) :
    Cascade K t.1 t.2 := by
  induction ht with
  | refl => exact h
  | tail _ ht ih => exact ih.turn ht

end Cascade

theorem Tracked.incoming (h : Tracked c []) (io : HandlerChoices) (origin : ReplicaID)
    (env : Envelope) (ht : c.Timely (.request (.incoming io origin (.envelope env)))) :
    Tracked (c.handleIncoming io origin (.envelope env)) [] := by
  obtain ⟨hself, hothers⟩ := ht
  obtain ⟨c₁, new, hh, hturns⟩ := turns_incoming c io origin env
  by_cases hera : c.LaterEra env
  · have hreports : ReportsAbsent c env := by
      intro missing hi w hw
      obtain ⟨slot, _, hslot, hlt, ⟨_, _, rfl⟩ | ⟨hle, _, _⟩⟩ := Graph.insert_missing hi
      · rw [List.mem_singleton.mp hw]
        refine hself hera ⟨env.sender, env.id.vectorClock.atSlot slot⟩ ?_
        rw [Membership.keyOf, Membership.senderSeq,
          show c.membership.slotOf (env.id.sender.getD []) = some slot from hslot]
        simp [hlt]
      · exact absurd hera (Nat.not_lt.mpr hle)
    have htracked := h.handled hh hreports
    rw [List.append_nil] at htracked
    have hnew : new = [] := by
      cases hh with
      | accepted hs hi =>
        obtain ⟨_, rfl, hd, _, _⟩ := Graph.insert_ok hi
        exact absurd hd.length_le (Nat.not_le.mpr hera)
      | _ => rfl
    subst hnew
    generalize hresult : c.handleIncoming io origin (.envelope env) = c₂ at hturns ⊢
    rcases hturns.cases_head with he | ⟨s, hs, _⟩
    · cases he
      exact htracked
    · cases hs
  · let K : Key → Prop := fun k => c.membership.keyOf env = some k ∨ c.deferred.lookup k ≠ none
    have hcascade : Cascade K c [] := by
      refine ⟨h, ?_, by simp, ?_⟩
      · intro k pe hk
        exact Or.inr (by simp [hk])
      · intro k pe hk hlate w hw hK
        obtain ⟨hne, hnone⟩ := hothers k pe hk hlate w hw
        exact hK.elim hne (fun hd => hd hnone)
    have h₁ := hcascade.handled hh (fun k hk => Or.inl hk) hera
    rw [List.append_nil] at h₁
    exact (Cascade.turns (s := (c₁, new)) h₁ hturns).toTracked

/-- The key of a message that is sent next. -/
theorem Seated.key_issued (h : Seated c.membership.allReplicas c) {payload : List UInt8}
    {n : Node} {g : Graph} (henv : c.nextEnvelope payload = some n.envelope)
    (hi : c.graph.insert c.membership n.envelope = .ok (g, n)) (hslot : n.senderSlot = c.selfSlot) :
    n.key = ⟨c.self, c.graph.latestSeq c.self + 1⟩ := by
  obtain ⟨_, hsender, hvec⟩ := nextEnvelope_eq_some henv
  obtain ⟨_, _, hd, _, _⟩ := Graph.insert_ok hi
  obtain ⟨_, _, hown, _⟩ := VectorClock.increment_eq_some hvec
  refine Key.ext (by simp [Node.key, Envelope.sender, hsender]) ?_
  have hseq := hd.seq
  rw [hslot, hown, h.sound.currentView_eq_latestSeq h.slot] at hseq
  exact hseq.symm

theorem Tracked.serve {a : ServerStep} (h : Tracked c [])
    (hseat : Seated c.membership.allReplicas c) (hs : Served c a c') (ht : c.Timely a) :
    Tracked c' [] := by
  have habsent := h.noStuckDeferral.absent
  cases hs with
  | quiet hq hsame =>
    refine h.congr hsame (Or.inl hq.members) ?_
    rw [hq.graph]
    exact habsent
  | joined hm => exact h.congr ⟨rfl, rfl, rfl⟩ (Or.inr ⟨_, hm⟩) habsent
  | issued henv hi hslot =>
    refine h.congr ⟨rfl, rfl, rfl⟩ (Or.inl rfl) fun k pe hk w hw => ?_
    refine Bool.eq_false_iff.mpr fun hhas => ?_
    rcases (has_insert hi w).mp hhas with rfl | hhas
    · rw [hseat.key_issued henv hi hslot] at hw
      exact ht k pe hk hw
    · rw [habsent k pe hk w hw] at hhas
      cases hhas
  | replayed ha hsound hlog =>
    have hfree : ∀ k pe, c.deferred.lookup k = some pe → ∀ w ∈ pe.waiting,
        ∀ f ∈ c.log.entries, c.membership.keyOf f.envelope ≠ some w := by
      rcases ha with rfl | rfl
      · exact ht
      · exact ht
    refine h.congr ⟨rfl, rfl, rfl⟩ (Or.inl rfl) fun k pe hk w hw => ?_
    refine Bool.eq_false_iff.mpr fun hhas => ?_
    obtain ⟨n, hn, rfl⟩ := Graph.has_iff.mp hhas
    rcases List.mem_append.mp hn with hold | hnew
    · have hpresent : c.graph.has n.key = true := Graph.has_iff.mpr ⟨n, hold, rfl⟩
      rw [habsent k pe hk _ hw] at hpresent
      cases hpresent
    · obtain ⟨f, hf, he⟩ := hlog n hnew
      refine hfree k pe hk _ hw f hf ?_
      rw [he]
      exact (hsound.derived n hn).keyOf
  | received io origin env => exact h.incoming io origin env ht

/-- In a run whose steps all find a timely state, no deferred envelope is stuck. -/
theorem noStuckDeferral_of_timely {convID : ConversationID} {self : ReplicaID}
    {members mask : List ReplicaID} {log : MessageLog} {c₀ : Conversation}
    (hnew : Conversation.new convID self members mask log = some c₀)
    (hr : Reach serve Timely c₀ c) : NoStuckDeferral c := by
  have hinv : Seated c.membership.allReplicas c ∧ Tracked c [] := by
    refine hr.invariant (P := fun c => Seated c.membership.allReplicas c ∧ Tracked c [])
      ⟨seated_new hnew, tracked_new hnew⟩ ?_
    rintro s a t ⟨hseat, htracked⟩ ht hstep
    have hs := hseat.served hstep
    exact ⟨hseat.serve hs, htracked.serve hseat hs ht⟩
  exact hinv.2.noStuckDeferral

def receive (sender : ReplicaID) (clock : VectorClock) : ServerStep :=
  .request (.incoming .standard sender (.envelope (message sender clock)))

/-- Messages in the wrong order, one of which never arrives, between other steps. -/
def overtaken : List ServerStep :=
  [receive [2] [0, 2], receive [2] [0, 4], receive [2] [0, 1], .request (.send .standard []),
    .request (.addMember [3]), .restart]

theorem noStuckDeferral_of_timely_overtaken :
    ∃ c₀ c, Conversation.new [9] [1] [[1], [2]] [] .empty = some c₀ ∧ Reach serve Timely c₀ c ∧
      c.deferred.lookup ⟨[2], 4⟩ = some ⟨message [2] [0, 4], [2], [⟨[2], 3⟩]⟩ ∧
      NoStuckDeferral c := by
  have hnew : Conversation.new [9] [1] [[1], [2]] [] .empty =
      some (init [9] [1] 0 [[1], [2]] [] .empty) := rfl
  have hrun : (execute serve Timely (init [9] [1] 0 [[1], [2]] [] .empty) overtaken).map
      (fun c => decide (c.deferred.lookup ⟨[2], 4⟩ =
        some ⟨message [2] [0, 4], [2], [⟨[2], 3⟩]⟩)) = some true := by
    decide +kernel
  obtain ⟨c, -, hr, hl⟩ := reach_of_execute hrun
  exact ⟨_, c, hnew, hr, of_decide_eq_true hl, noStuckDeferral_of_timely hnew hr⟩

/-- A deferred envelope waits on something that is present, and would be accepted. -/
def Stuck (c : Conversation) (k : Key) : Prop :=
  ∃ pe, c.deferred.lookup k = some pe ∧ (∃ w ∈ pe.waiting, c.graph.has w = true) ∧
    ∃ r, c.graph.insert c.membership pe.env = .ok r

def isStuck (c : Conversation) (k : Key) : Bool :=
  (c.deferred.lookup k).any fun pe =>
    pe.waiting.any c.graph.has && (c.graph.insert c.membership pe.env).isOk

theorem stuck_of_isStuck (h : c.isStuck k = true) : c.Stuck k := by
  rw [isStuck] at h
  cases hl : c.deferred.lookup k with
  | none =>
    rw [hl] at h
    cases h
  | some pe =>
    rw [hl, Option.any_some, Bool.and_eq_true, List.any_eq_true] at h
    cases hi : c.graph.insert c.membership pe.env with
    | error why =>
      rw [hi] at h
      cases h.2
    | ok r => exact ⟨pe, hl, h.1, r, hi⟩

/-- The sender's first message is there when its second one, of a later era, arrives. -/
def predecessorPresent : List ServerStep :=
  [receive [2] [0, 1], receive [2] [0, 2, 0], .request (.addMember [3])]

/-- An envelope names a message that this replica has not sent yet. -/
def ownMessageAwaited : List ServerStep := [receive [2] [1, 1], .request (.send .standard [])]

/-- A log that already holds the first message of the peer. -/
def oneEntry : MessageLog := ⟨[⟨message [2] [0, 1], 1⟩], 0, Nat.zero_le _⟩

theorem stuck_deferrals :
    (∃ c, Reach serve (fun _ _ => True) (init [9] [1] 0 [[1], [2]] [] .empty) c ∧
      c.Stuck ⟨[2], 2⟩) ∧
    (∃ c, Reach serve (fun _ _ => True) (init [9] [1] 0 [[1], [2]] [] .empty) c ∧
      c.Stuck ⟨[2], 1⟩) ∧
    ∃ c, Reach serve (fun _ _ => True) (init [9] [1] 0 [[1], [2]] [] oneEntry) c ∧
      c.Stuck ⟨[2], 2⟩ := by
  have hlater : (execute serve (fun _ _ => True) (init [9] [1] 0 [[1], [2]] [] .empty)
      predecessorPresent).map (isStuck · ⟨[2], 2⟩) = some true := by decide +kernel
  have hown : (execute serve (fun _ _ => True) (init [9] [1] 0 [[1], [2]] [] .empty)
      ownMessageAwaited).map (isStuck · ⟨[2], 1⟩) = some true := by decide +kernel
  have hreplay : (execute serve (fun _ _ => True) (init [9] [1] 0 [[1], [2]] [] oneEntry)
      [receive [2] [0, 2], .restart]).map (isStuck · ⟨[2], 2⟩) = some true := by decide +kernel
  obtain ⟨c₁, -, hr₁, hs₁⟩ := reach_of_execute hlater
  obtain ⟨c₂, -, hr₂, hs₂⟩ := reach_of_execute hown
  obtain ⟨c₃, -, hr₃, hs₃⟩ := reach_of_execute hreplay
  exact ⟨⟨c₁, hr₁, stuck_of_isStuck hs₁⟩, ⟨c₂, hr₂, stuck_of_isStuck hs₂⟩,
    c₃, hr₃, stuck_of_isStuck hs₃⟩

end Comlink.Conversation
