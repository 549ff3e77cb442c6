import Comlink.LogReplay
import Comlink.OrderedReplica

/-!
# Waiting for a causality token

The token of `Submit` is the key of its message, and `WaitForCausality` returns once some
application message of that sender with at least that number was applied. This tells that
the message of the token was applied itself as long as the apply pump is handed the messages
of each sender in the order of their numbers.

A substrate over an existing log starts to serve at once: a goroutine makes the request of
`ReplayLog` at some later time and then pushes the replayed envelopes one by one, while the
server, the order layer and the apply pump go on.
-/
namespace Comlink
open GuardedRuns

/-- A replica, and the replayed envelopes that are not yet on its delivery channel. -/
structure ReplayingReplica where
  base : Replica
  undrained : List Envelope

inductive ReplayingAction where
  | replay
  | push
  | act (a : ReplicaAction)

/-- `Submit` of some member has sent the message and returned its key as the token. -/
structure Submission (K : FrameCodec) (members : List ReplicaID) (e : Envelope) (k : Key) :
    Prop where
  sent : ∃ (c : Conversation) (payload : List UInt8), c.Seated members ∧
    c.nextEnvelope (K.marshal (.app payload)) = some e
  token : (Substrate.new members e.sender 0).keyOf e = some k

theorem Submission.isApp {K : FrameCodec} {members : List ReplicaID} {e : Envelope} {k : Key}
    (h : Submission K members e k) : K.isApp e.payload = true := by
  obtain ⟨c, payload, -, henv⟩ := h.sent
  obtain ⟨vec, -, rfl⟩ := Option.map_eq_some_iff.mp henv
  exact Substrate.isApp_iff.mpr ⟨payload, K.unmarshal_marshal _⟩

/-- A sender counts its messages from one, in the slot that the substrate reads when no
member is listed twice. -/
theorem Submission.seq_pos {K : FrameCodec} {members : List ReplicaID} {e : Envelope} {k : Key}
    (h : Submission K members e k) (hn : members.Nodup) : 0 < k.seq := by
  obtain ⟨c, payload, hc, henv⟩ := h.sent
  obtain ⟨-, hsender, hvec⟩ := Conversation.nextEnvelope_eq_some henv
  obtain ⟨hlt, hlen, hown, -⟩ := VectorClock.increment_eq_some hvec
  have hself : members[c.selfSlot]? = some e.sender := by
    rw [← hc.members_eq, Envelope.sender, hsender]
    exact Membership.slotOf_getElem? hc.slot
  obtain ⟨i, -, hi, hkey⟩ := Substrate.keyOf_eq_some (s := .new members e.sender 0) hself
    (hlen.symm ▸ hlt)
  have hslot : i = c.selfSlot := by
    obtain ⟨hil, hie⟩ := List.getElem?_eq_some_iff.mp hi
    obtain ⟨hjl, hje⟩ := List.getElem?_eq_some_iff.mp hself
    exact hn.getElem_inj_iff.mp (hie.trans hje.symm)
  rw [h.token, hslot, hown] at hkey
  cases hkey
  exact Nat.succ_pos _

theorem Substrate.seen_applyMessage (s : Substrate) (msg : Message) (k : Key) (r : ReplicaID) :
    ((s.applyMessage msg k).senderSeen.lookup r).getD 0 =
      if r = k.sender then max ((s.senderSeen.lookup r).getD 0) k.seq
      else (s.senderSeen.lookup r).getD 0 := by
  rw [senderSeen_applyMessage]
  by_cases hr : r = k.sender
  · subst hr
    rw [if_pos rfl]
    split
    · rename_i hlt
      rw [AList.lookup_insert, Option.getD_some, Nat.max_eq_right hlt.le]
    · rename_i hle
      rw [Nat.max_eq_left (Nat.le_of_not_lt hle)]
  · rw [if_neg hr]
    split
    · rw [AList.lookup_insert_ne hr]
    · rfl

namespace Replica

variable {K : FrameCodec} {s t : Replica} {a : ReplicaAction} {e : Envelope}

/-- The message was passed to `Apply`, or is in the log at an offset that the initial
snapshot covers. -/
def Visible (K : FrameCodec) (s : Replica) (e : Envelope) : Prop :=
  (∃ payload offset, K.unmarshal e.payload = some (.app payload) ∧
    ⟨e.id, payload, e.sender, offset, e.wave⟩ ∈ s.sub.applied) ∨
  ∃ offset f, s.conv.log.frames[offset]? = some f ∧ f.envelope = e ∧ s.sub.Covered offset

/-- The apply pump is about to be handed an application message after all messages that
were submitted by its sender up to its number, and the log has no other message under
its number. -/
def NextInSequence (K : FrameCodec) (submitted : List Envelope) (s : Replica) : Prop :=
  ∀ env ∈ s.ord.emitted[s.consumed]?, K.isApp env.payload = true → ∀ k ∈ s.sub.keyOf env,
    (∀ e ∈ submitted, ∀ k' ∈ s.sub.keyOf e, k'.sender = k.sender → k'.seq ≤ k.seq →
      e = env ∨ e ∈ s.handed) ∧
    ∀ found ∈ s.conv.log.lookupBySender k, found.2 = env

instance (K : FrameCodec) (submitted : List Envelope) (s : Replica) :
    Decidable (NextInSequence K submitted s) :=
  inferInstanceAs (Decidable (∀ env ∈ s.ord.emitted[s.consumed]?, K.isApp env.payload = true →
    ∀ k ∈ s.sub.keyOf env,
      (∀ e ∈ submitted, ∀ k' ∈ s.sub.keyOf e, k'.sender = k.sender → k'.seq ≤ k.seq →
        e = env ∨ e ∈ s.handed) ∧
      ∀ found ∈ s.conv.log.lookupBySender k, found.2 = env))

/-- Whatever was seen of a sender, and every wait that returned, stands for messages that
were handed over, and those are visible. -/
structure Sequenced (K : FrameCodec) (submitted : List Envelope) (s : Replica) : Prop where
  consumed : s.consumed ≤ s.ord.emitted.length
  seen : ∀ e ∈ submitted, ∀ k, s.sub.keyOf e = some k → 0 < k.seq →
    k.seq ≤ (s.sub.senderSeen.lookup k.sender).getD 0 → e ∈ s.handed
  released : ∀ e ∈ submitted, ∀ k, s.sub.keyOf e = some k → 0 < k.seq →
    k ∈ s.sub.released → e ∈ s.handed
  visible : ∀ e ∈ s.handed, K.isApp e.payload = true → ∀ k, s.sub.keyOf e = some k →
    Visible K s e

theorem Visible.mono (h : Visible K s e) (hf : s.conv.log.frames <+: t.conv.log.frames)
    (happ : s.sub.applied ⊆ t.sub.applied)
    (hthrough : t.sub.snapshotThrough = s.sub.snapshotThrough) : Visible K t e := by
  rcases h with ⟨payload, offset, hp, hm⟩ | ⟨offset, f, hget, hfe, hcov⟩
  · exact Or.inl ⟨payload, offset, hp, happ hm⟩
  · refine Or.inr ⟨offset, f, ?_, hfe, ?_⟩
    · obtain ⟨hlt, rfl⟩ := List.getElem?_eq_some_iff.mp hget
      exact List.prefix_iff_getElem?.mp hf offset hlt
    · rw [Substrate.Covered, hthrough]
      exact hcov

theorem not_visible (happ : ∀ m ∈ s.sub.applied, m.id ≠ e.id)
    (hfresh : s.sub.snapshotThrough = 0) : ¬ Visible K s e := by
  rintro (⟨payload, offset, -, hm⟩ | ⟨offset, f, -, -, hne, hle⟩)
  · exact happ _ hm rfl
  · omega

theorem Effect.frames (he : Effect K s a t) : s.conv.log.frames <+: t.conv.log.frames := by
  rcases he.conv with hc | ⟨req, hc, -⟩
  · rw [hc]
  · rw [hc]
    exact Conversation.frames_handle s.conv req

/-- A step keeps everything in sequence if it hands over what it adds to the numbers seen,
releases waits by these numbers only, and makes visible what it hands over. -/
theorem Sequenced.of_step {submitted : List Envelope} (h : Sequenced K submitted s)
    (he : Effect K s a t) (hc : t.consumed ≤ t.ord.emitted.length) (hh : s.handed ⊆ t.handed)
    (happ : s.sub.applied ⊆ t.sub.applied)
    (hthrough : t.sub.snapshotThrough = s.sub.snapshotThrough)
    (hseen : ∀ e ∈ submitted, ∀ k, s.sub.keyOf e = some k →
      k.seq ≤ (t.sub.senderSeen.lookup k.sender).getD 0 →
      k.seq ≤ (s.sub.senderSeen.lookup k.sender).getD 0 ∨ e ∈ t.handed)
    (hreleased : ∀ k ∈ t.sub.released, k ∈ s.sub.released ∨
      k.seq ≤ (t.sub.senderSeen.lookup k.sender).getD 0)
    (hvisible : ∀ e ∈ t.handed, e ∈ s.handed ∨ (K.isApp e.payload = true →
      ∀ k, s.sub.keyOf e = some k → Visible K t e)) : Sequenced K submitted t := by
  have hkey : ∀ e, t.sub.keyOf e = s.sub.keyOf e := fun e => Substrate.keyOf_congr he.members
  have hseenT : ∀ e ∈ submitted, ∀ k, s.sub.keyOf e = some k → 0 < k.seq →
      k.seq ≤ (t.sub.senderSeen.lookup k.sender).getD 0 → e ∈ t.handed := by
    intro e hmem k hk hpos hle
    rcases hseen e hmem k hk hle with hle | hhanded
    · exact hh (h.seen e hmem k hk hpos hle)
    · exact hhanded
  refine ⟨hc, ?_, ?_, ?_⟩
  · intro e hmem k hk
    exact hseenT e hmem k ((hkey e).symm.trans hk)
  · intro e hmem k hk hpos hrel
    rw [hkey] at hk
    rcases hreleased k hrel with hold | hle
    · exact hh (h.released e hmem k hk hpos hold)
    · exact hseenT e hmem k hk hpos hle
  · intro e hmem hisApp k hk
    rw [hkey] at hk
    rcases hvisible e hmem with hold | hnew
    · exact (h.visible e hold hisApp k hk).mono he.frames happ hthrough
    · exact hnew hisApp k hk

/-- A step outside the apply pump. -/
theorem Sequenced.idle {submitted : List Envelope} (h : Sequenced K submitted s)
    (he : Effect K s a t) (hc : t.consumed = s.consumed)
    (hemit : s.ord.emitted <+: t.ord.emitted) (happ : t.sub.applied = s.sub.applied)
    (hthrough : t.sub.snapshotThrough = s.sub.snapshotThrough)
    (hseen : t.sub.senderSeen = s.sub.senderSeen)
    (hreleased : ∀ k ∈ t.sub.released, k ∈ s.sub.released ∨
      k.seq ≤ (s.sub.senderSeen.lookup k.sender).getD 0) : Sequenced K submitted t := by
  have hh : t.handed = s.handed := handed_of_idle h.consumed hc hemit
  refine h.of_step he ?_ (hh ▸ List.Subset.refl _) (happ ▸ List.Subset.refl _) hthrough ?_ ?_ ?_
  · rw [hc]
    exact h.consumed.trans hemit.length_le
  · exact fun e _ k _ hle => Or.inl (hseen ▸ hle)
  · rw [hseen]
    exact hreleased
  · exact fun e hmem => Or.inl (hh ▸ hmem)

/-- The apply pump hands over one message. -/
theorem Sequenced.hand {submitted : List Envelope} (h : Sequenced K submitted s)
    {env : Envelope} (he : Effect K s a t) (hc : t.consumed ≤ t.ord.emitted.length)
    (hh : t.handed = s.handed ++ [env]) (happ : s.sub.applied ⊆ t.sub.applied)
    (hthrough : t.sub.snapshotThrough = s.sub.snapshotThrough)
    (hseen : ∀ e ∈ submitted, ∀ k, s.sub.keyOf e = some k →
      k.seq ≤ (t.sub.senderSeen.lookup k.sender).getD 0 →
      k.seq ≤ (s.sub.senderSeen.lookup k.sender).getD 0 ∨ e = env ∨ e ∈ s.handed)
    (hreleased : ∀ k ∈ t.sub.released, k ∈ s.sub.released ∨
      k.seq ≤ (t.sub.senderSeen.lookup k.sender).getD 0)
    (hvisible : K.isApp env.payload = true → ∀ k, s.sub.keyOf env = some k → Visible K t env) :
    Sequenced K submitted t := by
  refine h.of_step he hc (hh ▸ List.subset_append_left _ _) happ hthrough ?_ hreleased ?_
  · intro e hmem k hk hle
    refine (hseen e hmem k hk hle).imp_right fun hnew => ?_
    rw [hh]
    rcases hnew with rfl | hold
    · exact List.mem_append_right _ (List.mem_singleton_self _)
    · exact List.mem_append_left _ hold
  · intro e hmem
    rw [hh] at hmem
    rcases List.mem_append.mp hmem with hold | hnew
    · exact Or.inl hold
    · obtain rfl := List.mem_singleton.mp hnew
      exact Or.inr hvisible

/-- A message that the pump has just handled is applied, or the snapshot has it. -/
theorem visible_message {env : Envelope} {payload : List UInt8} {k : Key}
    (happ : K.unmarshal env.payload = some (.app payload))
    (hentry : ∀ found ∈ s.conv.log.lookupBySender k, found.2 = env)
    (hlog : t.conv.log = s.conv.log)
    (hsub : t.sub = s.sub.applyMessage
      ⟨env.id, payload, env.sender, Substrate.localOffset s.conv.log k, env.wave⟩ k) :
    Visible K t env := by
  by_cases hcov : s.sub.Covered (Substrate.localOffset s.conv.log k)
  · right
    cases hfound : s.conv.log.lookupBySender k with
    | none => exact absurd (by simp [Substrate.localOffset, hfound]) hcov.1
    | some found =>
      obtain ⟨f, hf, hfe, -, -⟩ := MessageLog.mem_of_lookupBySender hfound
      have hoff : Substrate.localOffset s.conv.log k = found.1 := by
        simp [Substrate.localOffset, hfound]
      refine ⟨found.1, f, hlog ▸ hf, hfe.trans (hentry found hfound), ?_⟩
      rw [hoff] at hcov
      rw [Substrate.Covered, hsub, Substrate.snapshotThrough_applyMessage]
      exact hcov
  · left
    refine ⟨payload, Substrate.localOffset s.conv.log k, happ, ?_⟩
    rw [hsub, Substrate.applied_applyMessage, if_neg hcov]
    exact List.mem_append_right _ (List.mem_singleton_self _)

/-- A message that is handed over in sequence makes the numbers up to its own those of
messages that were handed over. -/
theorem Sequenced.message {submitted : List Envelope} (h : Sequenced K submitted s)
    {env : Envelope} {payload : List UInt8} {k : Key}
    (hok : NextInSequence K submitted s) (henv : s.ord.emitted[s.consumed]? = some env)
    (happ : K.unmarshal env.payload = some (.app payload)) (hk : s.sub.keyOf env = some k)
    (hh : t.handed = s.handed ++ [env]) (hc : t.consumed ≤ t.ord.emitted.length)
    (hlog : t.conv.log = s.conv.log)
    (hsub : t.sub = s.sub.applyMessage
      ⟨env.id, payload, env.sender, Substrate.localOffset s.conv.log k, env.wave⟩ k)
    (he : Effect K s a t) : Sequenced K submitted t := by
  obtain ⟨hearlier, hentry⟩ := hok env henv (Substrate.isApp_iff.mpr ⟨payload, happ⟩) k hk
  refine h.hand he hc hh ?_ (by simp [hsub]) ?_ ?_
    fun _ _ _ => visible_message happ hentry hlog hsub
  · rw [hsub, Substrate.applied_applyMessage]
    split
    · exact List.Subset.refl _
    · exact List.subset_append_left _ _
  · intro e hmem k' hk' hle
    rw [hsub, Substrate.seen_applyMessage] at hle
    split at hle
    · rename_i hsender
      exact (le_max_iff.mp hle).imp_right (hearlier e hmem k' hk' hsender)
    · exact Or.inl hle
  · intro k' hk'
    rw [hsub, Substrate.released_applyMessage] at hk'
    rcases List.mem_append.mp hk' with hold | hnew
    · exact Or.inl hold
    · obtain ⟨-, hw⟩ := List.mem_filter.mp hnew
      obtain ⟨hsender, hle⟩ := of_decide_eq_true hw
      rw [hsub, Substrate.seen_applyMessage, if_pos hsender]
      exact Or.inr (hle.trans (Nat.le_max_right _ _))

theorem Sequenced.step {submitted : List Envelope} (h : Sequenced K submitted s)
    (hok : a = .apply → NextInSequence K submitted s) (he : Effect K s a t) :
    Sequenced K submitted t := by
  have hwhole := he
  cases he with
  | request req =>
    exact h.idle hwhole rfl List.prefix_rfl rfl rfl rfl fun _ hk => Or.inl hk
  | order hp =>
    exact h.idle hwhole rfl (OrderLayer.emitted_pump hp) rfl rfl rfl fun _ hk => Or.inl hk
  | @apply env sub log henv heff =>
    have hlt := (List.getElem?_eq_some_iff.mp henv).1
    have hh := handed_succ henv { s.conv with log := log } sub
    have hskip : (K.isApp env.payload = true → s.sub.keyOf env = none) →
        sub.applied = s.sub.applied → sub.snapshotThrough = s.sub.snapshotThrough →
        sub.senderSeen = s.sub.senderSeen → sub.released = s.sub.released →
        Sequenced K submitted ⟨{ s.conv with log := log }, s.ord, sub, s.consumed + 1⟩ := by
      intro hnone happ hthrough hseen hreleased
      refine h.hand hwhole hlt hh (happ ▸ List.Subset.refl _) hthrough ?_ ?_ ?_
      · exact fun e _ k _ hle => Or.inl (hseen ▸ hle)
      · exact fun k hk => Or.inl (hreleased ▸ hk)
      · intro happ' k hk
        rw [hnone happ'] at hk
        cases hk
    cases heff with
    | ignored hign => exact hskip hign rfl rfl rfl rfl
    | watermark hw hlog =>
      refine hskip (fun happ => ?_) rfl rfl rfl rfl
      rw [FrameCodec.isApp, hw] at happ
      cases happ
    | message happ hk => exact h.message (hok rfl) henv happ hk hh hlt rfl rfl hwhole
  | wait hw =>
    refine h.idle hwhole rfl List.prefix_rfl ?_ ?_ ?_ hw.released <;> rw [hw.frame]
  | advance through =>
    refine h.idle hwhole rfl List.prefix_rfl ?_ ?_ ?_ ?_ <;>
      rw [Substrate.advanceSnapshotWatermark_eq]
    exact fun k hk => Or.inl hk
  | publish hm => exact h.idle hwhole rfl List.prefix_rfl rfl rfl rfl fun _ hk => Or.inl hk
  | trim => exact h.idle hwhole rfl List.prefix_rfl rfl rfl rfl fun _ hk => Or.inl hk

theorem Sequenced.conv {submitted : List Envelope} (h : Sequenced K submitted s)
    {c : Conversation} (hf : s.conv.log.frames <+: c.log.frames) :
    Sequenced K submitted { s with conv := c } :=
  ⟨h.consumed, h.seen, h.released, fun e he happ k hk =>
    (h.visible e he happ k hk).mono hf (List.Subset.refl _) rfl⟩

theorem sequenced_boot {G : Group} {p : ReplicaID} (kind : OrderingKind) (through : ℕ)
    (mask : List ReplicaID) (log : MessageLog) (submitted : List Envelope) :
    Sequenced K submitted (boot G p kind through mask log) := by
  refine ⟨Nat.zero_le _, ?_, ?_, ?_⟩
  · intro e _ k _ hpos hle
    exact absurd hle (Nat.not_le.mpr hpos)
  · intro e _ k _ _ hk
    cases hk
  · intro e he
    cases he

end Replica

namespace ReplayingReplica

variable {K : FrameCodec} {s t : ReplayingReplica} {a : ReplayingAction}

def boot (G : Group) (p : ReplicaID) (kind : OrderingKind) (through : ℕ)
    (mask : List ReplicaID) (log : MessageLog) : ReplayingReplica :=
  ⟨.boot G p kind through mask log, []⟩

def step (K : FrameCodec) (s : ReplayingReplica) : ReplayingAction → Option ReplayingReplica
  | .replay => some
      ⟨{ s.base with conv := s.base.conv.handleReplay.1 },
        s.undrained ++ s.base.conv.handleReplay.2⟩
  | .push => match s.undrained with
    | [] => none
    | env :: rest => some
        ⟨{ s.base with conv := { s.base.conv with
            delivered := s.base.conv.delivered ++ [env] } }, rest⟩
  | .act a => (s.base.step K a).map fun r => { s with base := r }

def InSequence (K : FrameCodec) (submitted : List Envelope) (s : ReplayingReplica) :
    ReplayingAction → Prop
  | .act .apply => s.base.NextInSequence K submitted
  | _ => True

instance (K : FrameCodec) (submitted : List Envelope) (s : ReplayingReplica)
    (a : ReplayingAction) : Decidable (InSequence K submitted s a) :=
  match a with
  | .act .apply => inferInstanceAs (Decidable (s.base.NextInSequence K submitted))
  | .replay | .push | .act (.request _) | .act (.order _) | .act (.awaitSubmit _)
  | .act (.cancelSubmit _) | .act (.waitForCausality _) | .act (.cancelWait _)
  | .act (.advanceSnapshotWatermark _) | .act (.publish _ _) | .act .trim => isTrue trivial

theorem sequenced_step {members : List ReplicaID} {submitted : List Envelope}
    (h : s.base.Sequenced K submitted ∧ s.base.sub.members = members)
    (hok : InSequence K submitted s a) (hs : step K s a = some t) :
    t.base.Sequenced K submitted ∧ t.base.sub.members = members := by
  cases a with
  | replay =>
    cases hs
    refine ⟨h.1.conv ?_, h.2⟩
    rw [Conversation.log_handleReplay]
  | push =>
    unfold step at hs
    dsimp only at hs
    split at hs
    · cases hs
    · cases hs
      exact ⟨h.1.conv List.prefix_rfl, h.2⟩
  | act a =>
    obtain ⟨r, hr, rfl⟩ := Option.map_eq_some_iff.mp hs
    have he := Replica.step_effect hr
    refine ⟨h.1.step ?_ he, he.members.trans h.2⟩
    rintro rfl
    exact hok

/-- Under every ordering, and with a replay at any time: when a wait for the token of a
submission has returned, its message was handed over and is visible, provided that each
time the apply pump takes an application message the messages submitted before by its
sender have been handed over and the log agrees on what the number stands for. -/
theorem causality_wait_sound {G : Group} {p : ReplicaID} {kind : OrderingKind} {through : ℕ}
    {mask : List ReplicaID} {log : MessageLog} {submitted : List Envelope}
    (hn : G.members.Nodup)
    (hr : Reach (step K) (InSequence K submitted) (boot G p kind through mask log) s)
    {e : Envelope} {k : Key} (he : e ∈ submitted) (hsub : Submission K G.members e k)
    (hk : k ∈ s.base.sub.released) : e ∈ s.base.handed ∧ s.base.Visible K e := by
  obtain ⟨h, hm⟩ := hr.invariant (P := fun s => s.base.Sequenced K submitted ∧
      s.base.sub.members = G.members)
    ⟨Replica.sequenced_boot kind through mask log submitted, rfl⟩
    fun _ _ _ h hok hs => sequenced_step h hok hs
  have hkey : s.base.sub.keyOf e = some k := (Substrate.keyOf_congr hm).trans hsub.token
  have hhanded := h.released e he k hkey (hsub.seq_pos hn) hk
  exact ⟨hhanded, h.visible e hhanded hsub.isApp k hkey⟩

section Scripts
open Replica

/-- What a member submits after some requests. -/
theorem submission_after {p : ReplicaID} (hp : p ∈ duo.members)
    (reqs : List Conversation.Request) (hreqs : ∀ req ∈ reqs, req.isStatic = true)
    (payload : List UInt8) {e : Envelope} {k : Key}
    (he : (reqs.foldl Conversation.handle (duo.start p)).nextEnvelope
      (FrameCodec.tagged.marshal (.app payload)) = some e)
    (hk : (Substrate.new duo.members e.sender 0).keyOf e = some k) :
    Submission .tagged duo.members e k := by
  have hlive : Conversation.Live duo.members (reqs.foldl Conversation.handle (duo.start p)) :=
    List.foldlRecOn reqs _ (Conversation.live_init (Group.slot_start hp))
      fun _ h req hreq => h.handle (hreqs req hreq)
  exact ⟨⟨_, payload, hlive.toSeated, he⟩, hk⟩

/-- The log of a replica that had submitted one message. -/
def submittedOnce : MessageLog := ⟨[⟨message [1] [1, 0] (.app [7]), 1⟩], 0, Nat.zero_le _⟩

theorem causality_wait_sound_replayed : ∃ s,
    Reach (step .tagged) (InSequence .tagged [message [1] [1, 0] (.app [7])])
      (boot duo [1] .partialOrder 0 [] submittedOnce) s ∧
    s.base.sub.senderSeen.lookup [1] = some 2 ∧ ⟨[1], 1⟩ ∈ s.base.sub.released ∧
    message [1] [1, 0] (.app [7]) ∈ s.base.handed ∧
    s.base.Visible .tagged (message [1] [1, 0] (.app [7])) := by
  have hrun : (execute (step .tagged) (InSequence .tagged [message [1] [1, 0] (.app [7])])
      (boot duo [1] .partialOrder 0 [] submittedOnce)
      ([.act (.waitForCausality ⟨[1], 1⟩), .replay, .push, .act (send (.app [8]))] ++
        (forward ++ forward).map .act)).map (fun s => decide
          (s.base.sub.senderSeen.lookup [1] = some 2 ∧ ⟨[1], 1⟩ ∈ s.base.sub.released)) =
      some true := by decide +kernel
  obtain ⟨s, -, hr, hs⟩ := reach_of_execute hrun
  obtain ⟨hseen, hrel⟩ := of_decide_eq_true hs
  exact ⟨s, hr, hseen, hrel, causality_wait_sound (by decide) hr (List.mem_singleton_self _)
    (submission_after (p := [1]) (by decide) [] nofun [7] rfl rfl) hrel⟩

/-- The first replica reads messages up to wave 3 and passes over wave 2, where a strict
submission of the second then arrives, followed by one in wave 3. -/
def passedOver : List ReplicaAction :=
  [send (.app []), send (.app []), send (.app [7]), receive (message [2] [2, 1] (.app []))] ++
  List.replicate 4 (.order (.semOrder .standard)) ++
  [receive (message [2] [2, 2] (.app [8])), receive (message [2] [3, 3] (.app [9])),
    receive (message [2] [3, 4] (.app [])), send (.app [])] ++
  List.replicate 4 (.order (.semOrder .standard)) ++ List.replicate 5 .apply

/-- The wait for a submission from before a restart returns when a message that was sent
while the replay was under way is applied first. Without a restart, the wait for a strict
submission returns when a later message of its sender is applied, although `SemOrder` has
passed over it. -/
theorem causality_wait_returns_early :
    (Submission .tagged duo.members (message [1] [1, 0] (.app [7])) ⟨[1], 1⟩ ∧ ∃ s,
      Reach (step .tagged) (fun _ _ => True)
        (boot duo [1] .partialOrder 0 [] submittedOnce) s ∧
      ⟨[1], 1⟩ ∈ s.base.sub.released ∧
      ¬ s.base.Visible .tagged (message [1] [1, 0] (.app [7]))) ∧
    Submission .tagged duo.members (message [2] [2, 2] (.app [8])) ⟨[2], 2⟩ ∧ ∃ s,
      Reach (step .tagged) (fun _ _ => True)
        (boot duo [1] (.semOrder fun payload => if payload.length ≤ 1 then 1 else 2) 0 []
          .empty) s ∧
      ⟨[2], 2⟩ ∈ s.base.sub.released ∧
      ¬ s.base.Visible .tagged (message [2] [2, 2] (.app [8])) := by
  have hreplay : (execute (step .tagged) (fun _ _ => True)
      (boot duo [1] .partialOrder 0 [] submittedOnce)
      ([.replay, .act (send (.app [8]))] ++ forward.map .act ++
        [.act (.waitForCausality ⟨[1], 1⟩)])).map (fun s => decide
          (⟨[1], 1⟩ ∈ s.base.sub.released ∧ s.base.sub.snapshotThrough = 0 ∧
            ∀ m ∈ s.base.sub.applied, m.id ≠ (message [1] [1, 0] (.app [7])).id)) =
      some true := by decide +kernel
  have hsem : (execute (step .tagged) (fun _ _ => True)
      (boot duo [1] (.semOrder fun payload => if payload.length ≤ 1 then 1 else 2) 0 [] .empty)
      (passedOver.map .act ++ [.act (.waitForCausality ⟨[2], 2⟩)])).map (fun s => decide
          (⟨[2], 2⟩ ∈ s.base.sub.released ∧ s.base.sub.snapshotThrough = 0 ∧
            ∀ m ∈ s.base.sub.applied, m.id ≠ (message [2] [2, 2] (.app [8])).id)) =
      some true := by decide +kernel
  obtain ⟨s, -, hs, hsc⟩ := reach_of_execute hreplay
  obtain ⟨u, -, hu, huc⟩ := reach_of_execute hsem
  obtain ⟨hsrel, hsfresh, hsapp⟩ := of_decide_eq_true hsc
  obtain ⟨hurel, hufresh, huapp⟩ := of_decide_eq_true huc
  refine ⟨⟨?_, s, hs, hsrel, not_visible hsapp hsfresh⟩, ?_, u, hu, hurel,
    not_visible huapp hufresh⟩
  · exact submission_after (p := [1]) (by decide) [] nofun [7] rfl rfl
  · refine submission_after (p := [2]) (by decide)
      [.incoming .standard [1] (.envelope (message [1] [1, 0] (.app []))),
        .incoming .standard [1] (.envelope (message [1] [2, 0] (.app []))),
        .send .standard (FrameCodec.tagged.marshal (.app []))] (by decide) [8] ?_ rfl
    decide +kernel

end Scripts

end ReplayingReplica
end Comlink
