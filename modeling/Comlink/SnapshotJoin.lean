import Comlink.OrderedReplica

/-!
# A joiner that starts from a sponsor's snapshot

A substrate with an empty log is built with a snapshot whose through-offset is an offset
in the log of the sponsor. The apply pump compares it with offsets in its own log, so
that a message is applied exactly once only where the two happen to agree on what the
snapshot reflects.
-/
namespace Comlink.Replica
open Conversation GuardedRuns

variable {K : FrameCodec} {s t : Replica} {a : ReplicaAction} {members : List ReplicaID}
variable {inside : List Message}

/-- The message is one of those that the snapshot holds. -/
def Reflected (inside : List Message) (e : Envelope) : Prop := e.id ∈ inside.map Message.id

instance (inside : List Message) (e : Envelope) : Decidable (Reflected inside e) :=
  inferInstanceAs (Decidable (_ ∈ _))

/-- The next application message has an offset in the range of the snapshot, zero apart,
just when the snapshot reflects it. -/
def CoveredAsReflected (K : FrameCodec) (inside : List Message) (s : Replica) :
    ReplicaAction → Prop
  | .apply => ∀ e ∈ s.ord.emitted[s.consumed]?, K.isApp e.payload = true →
      ∀ k ∈ s.sub.keyOf e,
        (s.sub.Covered (Substrate.localOffset s.conv.log k) ↔ Reflected inside e)
  | _ => True

instance (K : FrameCodec) (inside : List Message) (s : Replica) (a : ReplicaAction) :
    Decidable (CoveredAsReflected K inside s a) :=
  match a with
  | .apply => inferInstanceAs (Decidable (∀ e ∈ s.ord.emitted[s.consumed]?,
      K.isApp e.payload = true → ∀ k ∈ s.sub.keyOf e,
        (s.sub.Covered (Substrate.localOffset s.conv.log k) ↔ Reflected inside e)))
  | .request _ | .order _ | .awaitSubmit _ | .cancelSubmit _ | .waitForCausality _
  | .cancelWait _ | .advanceSnapshotWatermark _ | .publish _ _ | .trim => isTrue trivial

/-- The application messages among those handed over that the snapshot does not hold. -/
def due (K : FrameCodec) (inside : List Message) (handed : List Envelope) : List Envelope :=
  handed.filter fun e => K.isApp e.payload && !decide (Reflected inside e)

/-- Every message handed over is in the state machine once, and a submission that has
returned is among them. -/
structure ExactlyOnce (K : FrameCodec) (inside : List Message) (s : Replica) : Prop where
  once : ∀ e ∈ s.handed, K.isApp e.payload = true → ¬ Reflected inside e →
    (s.sub.applied.map Message.id).count e.id = 1
  never : ∀ e, Reflected inside e → e.id ∉ s.sub.applied.map Message.id
  submitted : ∀ k ∈ s.sub.returned, ∃ e ∈ s.handed, K.isApp e.payload = true ∧
    s.sub.keyOf e = some k ∧ (Reflected inside e ∨ e.id ∈ s.sub.applied.map Message.id)

structure JoinInvariant (K : FrameCodec) (members : List ReplicaID) (inside : List Message)
    (s : Replica) : Prop extends Invariant members s where
  forwarding : ∃ out, s.ord = .partialOrder out
  applied : s.sub.applied.map Message.id = (due K inside s.handed).map Envelope.id
  signalled : ∀ k, k ∈ s.sub.appliedSelf ∨ k ∈ s.sub.returned →
    ∃ e ∈ s.handed, K.isApp e.payload = true ∧ s.sub.keyOf e = some k

theorem joinInvariant_start {G : Group} {p : ReplicaID} (hp : p ∈ G.members) (through : ℕ) :
    JoinInvariant K G.members inside (start G p .partialOrder through) := by
  refine ⟨invariant_start hp _ through, ⟨[], rfl⟩, rfl, ?_⟩
  rintro k (hk | hk) <;> cases hk

/-- A key that was signalled before is still that of a message handed over. -/
theorem JoinInvariant.signalled_mono (h : JoinInvariant K members inside s)
    (hm : t.sub.members = s.sub.members) (hh : s.handed <+: t.handed) {k : Key}
    (hk : k ∈ s.sub.appliedSelf ∨ k ∈ s.sub.returned) :
    ∃ e ∈ t.handed, K.isApp e.payload = true ∧ t.sub.keyOf e = some k := by
  obtain ⟨e, he, happ, hkey⟩ := h.signalled k hk
  exact ⟨e, hh.subset he, happ, (Substrate.keyOf_congr hm).trans hkey⟩

/-- A message handed over is applied unless the snapshot reflects it. -/
theorem JoinInvariant.applied_step (h : JoinInvariant K members inside s)
    (hg : CoveredAsReflected K inside s a) (he : Effect K s a t) :
    t.sub.applied.map Message.id = (due K inside t.handed).map Envelope.id := by
  cases h.progress he with
  | idle hh hr => rw [hh, hr.applied, h.applied]
  | skip ha henv hh happ hr =>
    rw [hh, hr.applied, h.applied]
    simp [due, happ]
  | @message env payload k ha henv hh happ hk hlog hsub =>
    subst ha
    have hisApp : K.isApp env.payload = true := Substrate.isApp_iff.mpr ⟨payload, happ⟩
    have hiff := hg env henv hisApp k hk
    rw [hsub, Substrate.applied_applyMessage, hh]
    by_cases hr : Reflected inside env
    · rw [if_pos (hiff.mpr hr), h.applied]
      simp [due, hr]
    · rw [if_neg (fun hc => hr (hiff.mp hc)), List.map_append, h.applied]
      simp [due, hr, hisApp]

theorem JoinInvariant.signalled_step (h : JoinInvariant K members inside s)
    (he : Effect K s a t) {k : Key} (hk : k ∈ t.sub.appliedSelf ∨ k ∈ t.sub.returned) :
    ∃ e ∈ t.handed, K.isApp e.payload = true ∧ t.sub.keyOf e = some k := by
  have hmem := he.members
  have hrecords : s.sub.SameRecords t.sub → k ∈ s.sub.appliedSelf ∨ k ∈ s.sub.returned := by
    intro hr
    rcases hk with hk | hk
    · exact Or.inl (hr.appliedSelf k hk)
    · exact (hr.returned k hk).symm
  cases h.progress he with
  | idle hh hr => exact h.signalled_mono hmem (by rw [hh]) (hrecords hr)
  | skip ha henv hh happ hr =>
    have hpre : s.handed <+: t.handed := by
      rw [hh]
      exact List.prefix_append _ _
    exact h.signalled_mono hmem hpre (hrecords hr)
  | @message env payload k' ha henv hh happ hkey hlog hsub =>
    have hpre : s.handed <+: t.handed := by
      rw [hh]
      exact List.prefix_append _ _
    obtain ⟨hself, hret⟩ := Substrate.signalled_applyMessage s.sub
      ⟨env.id, payload, env.sender, Substrate.localOffset s.conv.log k', env.wave⟩ k'
    rw [← hsub] at hself hret
    have hold : (k ∈ s.sub.appliedSelf ∨ k ∈ s.sub.returned) ∨ k = k' := by
      rcases hk with hk | hk
      · exact (hself k hk).imp_left Or.inl
      · exact (hret k hk).imp_left Or.inr
    rcases hold with hold | rfl
    · exact h.signalled_mono hmem hpre hold
    · refine ⟨env, ?_, Substrate.isApp_iff.mpr ⟨payload, happ⟩, ?_⟩
      · rw [hh]
        exact List.mem_append_right _ (List.mem_singleton.mpr rfl)
      · rw [Substrate.keyOf_congr hmem]
        exact hkey

theorem JoinInvariant.step (h : JoinInvariant K members inside s) (hs : Static s a)
    (hg : CoveredAsReflected K inside s a) (he : Effect K s a t) :
    JoinInvariant K members inside t :=
  ⟨h.toInvariant.step hs he, forwarding_step h.forwarding he, h.applied_step hg he,
    fun _ hk => h.signalled_step he hk⟩

/-- A partial order hands no message over twice. -/
theorem Invariant.nodup_handed (h : Invariant members s) (hf : ∃ out, s.ord = .partialOrder out) :
    (s.handed.map Envelope.id).Nodup := by
  obtain ⟨out, ho⟩ := hf
  have hids := h.live.sound.nodup_ids
  rw [← h.live.delivered] at hids
  refine hids.sublist (List.Sublist.map _ ?_)
  have hemit : s.ord.emitted = out := by rw [ho]; rfl
  rw [handed, hemit]
  exact (List.take_sublist _ _).trans (h.forwards out ho).sublist

theorem JoinInvariant.exactlyOnce (h : JoinInvariant K members inside s) :
    ExactlyOnce K inside s := by
  have hmem : ∀ e, e ∈ s.handed → K.isApp e.payload = true → ¬ Reflected inside e →
      e ∈ due K inside s.handed := by
    intro e he happ hr
    simp [due, he, happ, hr]
  refine ⟨?_, ?_, ?_⟩
  · intro e he happ hr
    rw [h.applied]
    apply List.count_eq_one_of_mem
    · exact (h.nodup_handed h.forwarding).sublist (List.filter_sublist.map _)
    · exact List.mem_map_of_mem (hmem e he happ hr)
  · intro e hr hin
    rw [h.applied] at hin
    obtain ⟨d, hd, hid⟩ := List.mem_map.mp hin
    have hdue := (List.mem_filter.mp hd).2
    have hnot : ¬ Reflected inside d := by
      simp only [Bool.and_eq_true, Bool.not_eq_true', decide_eq_false_iff_not] at hdue
      exact hdue.2
    rw [Reflected, hid] at hnot
    exact hnot hr
  · intro k hk
    obtain ⟨e, he, happ, hkey⟩ := h.signalled k (Or.inr hk)
    refine ⟨e, he, happ, hkey, ?_⟩
    by_cases hr : Reflected inside e
    · exact Or.inl hr
    · rw [h.applied]
      exact Or.inr (List.mem_map_of_mem (hmem e he happ hr))

/-- A joiner applies every message handed to it once, as long as the snapshot covers the
local offset of just those messages that it reflects. -/
theorem join_exactlyOnce {G : Group} {p : ReplicaID} (hp : p ∈ G.members) (sponsor : Replica)
    (hs : Reach (Replica.step K)
      (fun s a => Static s a ∧ CoveredAsReflected K sponsor.sub.applied s a)
      (start G p .partialOrder (throughOffset sponsor.sub.applied)) s) :
    ExactlyOnce K sponsor.sub.applied s := by
  have hinv : JoinInvariant K G.members sponsor.sub.applied s :=
    hs.invariant (joinInvariant_start hp _)
      (fun _ _ _ h hg hstep => h.step hg.1 hg.2 (step_effect hstep))
  exact hinv.exactlyOnce

/-- The message that `p` has applied, as `Apply` was handed it. -/
def appliedMessage (p : ReplicaID) (clock : VectorClock) (payload : List UInt8) (offset : ℕ) :
    Message := ⟨⟨some [0], some p, clock⟩, payload, p, offset, VectorClock.waveOf clock⟩

/-- The joiner receives what the sponsor has logged, in that order, and submits a message. -/
def joinInOrder : List ReplicaAction :=
  [receive (message [1] [1, 0] .heartbeat), receive (message [1] [2, 0] (.app [5])),
    send (.app [7])] ++ forward ++ forward ++ forward ++ [.awaitSubmit ⟨[2], 1⟩]

/-- The sponsor has applied one message after its heartbeat. -/
theorem join_exactlyOnce_heartbeat : ∃ sponsor s,
    execute (Replica.step .tagged) Static (start duo [1] .partialOrder 0)
      ([send .heartbeat, send (.app [5])] ++ forward ++ forward) = some sponsor ∧
    execute (Replica.step .tagged)
      (fun s a => Static s a ∧ CoveredAsReflected .tagged sponsor.sub.applied s a)
      (start duo [2] .partialOrder (throughOffset sponsor.sub.applied)) joinInOrder = some s ∧
    s.sub.returned = [⟨[2], 1⟩] ∧ ExactlyOnce .tagged sponsor.sub.applied s := by
  have hsponsor : (execute (Replica.step .tagged) Static (start duo [1] .partialOrder 0)
      ([send .heartbeat, send (.app [5])] ++ forward ++ forward)).map (fun s =>
        decide (s.sub.applied = [appliedMessage [1] [2, 0] [5] 1])) = some true := by
    decide +kernel
  have hjoin : (execute (Replica.step .tagged) (fun s a => Static s a ∧
      CoveredAsReflected .tagged [appliedMessage [1] [2, 0] [5] 1] s a)
      (start duo [2] .partialOrder (throughOffset [appliedMessage [1] [2, 0] [5] 1]))
      joinInOrder).map (fun s => decide (s.sub.returned = [⟨[2], 1⟩])) = some true := by
    decide +kernel
  obtain ⟨sponsor, hesponsor, _, hsc⟩ := reach_of_execute hsponsor
  rw [← of_decide_eq_true hsc] at hjoin
  obtain ⟨s, he, hs, hc⟩ := reach_of_execute hjoin
  exact ⟨sponsor, s, hesponsor, he, of_decide_eq_true hc, join_exactlyOnce (by decide) sponsor hs⟩

/-- The second submission of a joiner, at local offset 1, is suppressed by a snapshot that
reflects the sponsor's messages at offsets 0 and 1, and returns all the same. -/
theorem join_drops_submission : ∃ sponsor s,
    Reach (Replica.step .tagged) Static (start duo [1] .partialOrder 0) sponsor ∧
    Reach (Replica.step .tagged) Static
      (start duo [2] .partialOrder (throughOffset sponsor.sub.applied)) s ∧
    (⟨[2], 2⟩ : Key) ∈ s.sub.returned ∧ ¬ ExactlyOnce .tagged sponsor.sub.applied s := by
  have hsponsor : (execute (Replica.step .tagged) Static (start duo [1] .partialOrder 0)
      ([send (.app [5]), send (.app [6])] ++ forward ++ forward)).map (fun s =>
        decide (s.sub.applied = [appliedMessage [1] [1, 0] [5] 0,
          appliedMessage [1] [2, 0] [6] 1])) = some true := by decide +kernel
  have hjoin : (execute (Replica.step .tagged) Static (start duo [2] .partialOrder
      (throughOffset [appliedMessage [1] [1, 0] [5] 0, appliedMessage [1] [2, 0] [6] 1]))
      ([send (.app [7])] ++ forward ++ [send (.app [8])] ++ forward ++
        [.awaitSubmit ⟨[2], 2⟩])).map (fun s => decide ((⟨[2], 2⟩ : Key) ∈ s.sub.returned ∧
          message [2] [0, 2] (.app [8]) ∈ s.handed ∧
          s.sub.applied = [appliedMessage [2] [0, 1] [7] 0])) = some true := by decide +kernel
  obtain ⟨sponsor, _, hrsponsor, hsc⟩ := reach_of_execute hsponsor
  have happlied := of_decide_eq_true hsc
  rw [← happlied] at hjoin
  obtain ⟨s, _, hs, hc⟩ := reach_of_execute hjoin
  obtain ⟨hret, hhanded, happ⟩ := of_decide_eq_true hc
  refine ⟨sponsor, s, hrsponsor, hs, hret, fun hexact => ?_⟩
  have honce := hexact.once _ hhanded (by decide) (by rw [happlied]; decide)
  rw [happ] at honce
  exact absurd honce (by decide)

end Comlink.Replica
