import Comlink.OrderedReplica

/-!
# Trimming the logs of a group

Every member runs a replica with its substrate. An application advances its watermark to
an offset of its own log, the watermarks travel as messages, and a replica truncates its
log below the least of them. An offset names a message in one log only: the truncated
messages are known to have reached every member where the logs agree on what they hold
at an offset.
-/
namespace Comlink
open GuardedRuns

abbrev SubstrateGroup := ReplicaID → Replica

structure GroupAction where
  replica : ReplicaID
  action : ReplicaAction

/-- The payload is a watermark frame. -/
def FrameCodec.isWatermark (K : FrameCodec) (payload : List UInt8) : Bool :=
  match K.unmarshal payload with
  | some (.watermark _ _) => true
  | _ => false

namespace Replica
open Conversation

variable {K : FrameCodec} {s t : Replica} {a : ReplicaAction} {members : List ReplicaID}

/-- A new watermark to publish is the one that the application has advanced to. -/
theorem Effect.toPublish (h : Effect K s a t) {mark : ℕ × ℕ} (hm : mark ∈ t.sub.toPublish) :
    mark ∈ s.sub.toPublish ∨ a = .advanceSnapshotWatermark mark.2 := by
  cases h with
  | request req => exact Or.inl hm
  | order h => exact Or.inl hm
  | apply henv h =>
    refine Or.inl ?_
    cases h with
    | ignored _ => exact hm
    | watermark _ _ => exact hm
    | message _ _ => simpa using hm
  | wait h =>
    rw [h.frame] at hm
    exact Or.inl hm
  | advance through =>
    rcases s.sub.advanceSnapshotWatermark_cases through with he | ⟨applied, _, hpub⟩
    · exact Or.inl (by simpa [he] using hm)
    · dsimp only at hm
      rw [hpub] at hm
      rcases List.mem_append.mp hm with hm | hm
      · exact Or.inl hm
      · rw [List.mem_singleton.mp hm]
        exact Or.inr rfl
  | publish h => exact Or.inl (List.mem_of_mem_eraseIdx hm)
  | trim => exact Or.inl hm

/-- The tracker learns a watermark message that is handed over, or the own watermark. -/
theorem Effect.tracker (h : Effect K s a t) : t.sub.trim = s.sub.trim ∨
    (∃ env offset through, s.ord.emitted[s.consumed]? = some env ∧
      K.unmarshal env.payload = some (.watermark offset through) ∧
      t.sub.trim = (s.sub.trim.update env.sender ⟨offset, through⟩).1) ∨
    ∃ applied through, a = .advanceSnapshotWatermark through ∧
      t.sub.trim = (s.sub.trim.update s.sub.self ⟨applied, through⟩).1 := by
  cases h with
  | request req => exact Or.inl rfl
  | order h => exact Or.inl rfl
  | apply henv h =>
    cases h with
    | ignored _ => exact Or.inl rfl
    | watermark hw _ => exact Or.inr (Or.inl ⟨_, _, _, henv, hw, rfl⟩)
    | message _ _ => exact Or.inl (by simp)
  | wait h =>
    rw [h.frame]
    exact Or.inl rfl
  | advance through =>
    rcases s.sub.advanceSnapshotWatermark_cases through with he | ⟨applied, htrim, _⟩
    · exact Or.inl (congrArg Substrate.trim he)
    · exact Or.inr (Or.inr ⟨applied, through, rfl, htrim⟩)
  | publish h => exact Or.inl rfl
  | trim => exact Or.inl rfl

/-- Apart from requests, the log is truncated at the frontier that the tracker then shows,
by a step that evaluates it. -/
theorem Effect.truncated (h : Effect K s a t) (hl : Live members s.conv)
    (hreq : ∀ b, a ≠ .request (.truncateLog b)) :
    t.conv.log.firstOffset = s.conv.log.firstOffset ∨
      ∃ f, t.sub.trim.safeFrontier s.sub.members = some f ∧
        t.conv.log = s.conv.log.truncate f ∧
        (a = .trim ∨ a = .apply ∧ ∃ e ∈ s.ord.emitted[s.consumed]?,
          K.isWatermark e.payload = true) := by
  cases h with
  | request req =>
    exact Or.inl (hl.firstOffset_handle fun b hb => hreq b (congrArg ReplicaAction.request hb))
  | order h => exact Or.inl rfl
  | apply henv h =>
    cases h with
    | ignored _ => exact Or.inl rfl
    | watermark hw hlog =>
      rcases hlog with rfl | ⟨f, rfl, hf⟩
      · exact Or.inl rfl
      · refine Or.inr ⟨f, hf, rfl, Or.inr ⟨rfl, _, henv, ?_⟩⟩
        rw [FrameCodec.isWatermark, hw]
    | message _ _ => exact Or.inl rfl
  | wait h => exact Or.inl rfl
  | advance through => exact Or.inl rfl
  | publish h => exact Or.inl (hl.firstOffset_handle nofun)
  | trim =>
    rcases s.sub.maybeTrim_cases s.conv.log with he | ⟨f, hf, he⟩
    · exact Or.inl (congrArg MessageLog.firstOffset he)
    · exact Or.inr ⟨f, hf, he, Or.inl rfl⟩

/-- A new envelope of the replica is that of a send request or of a watermark that was to
be published. -/
theorem Effect.issued (h : Effect K s a t) (hl : Live members s.conv) (hs : Static s a) :
    t.conv.issued = s.conv.issued ∨ ∃ env, t.conv.issued = s.conv.issued ++ [env] ∧
      ((∃ io, a = .request (.send io env.payload)) ∨
        ∃ mark ∈ s.sub.toPublish, env.payload = K.marshal (.watermark mark.1 mark.2)) := by
  rcases h.conv with hc | ⟨req, hc, hreq⟩
  · exact Or.inl (congrArg Conversation.issued hc)
  · rw [hc]
    rcases hl.issued_handle (hreq.isStatic hs) with he | ⟨io, payload, env, rfl, hp, he⟩
    · exact Or.inl he
    · refine Or.inr ⟨env, he, ?_⟩
      cases hreq with
      | request req => exact Or.inl ⟨io, by rw [hp]⟩
      | watermark hm => exact Or.inr ⟨_, List.mem_of_getElem? hm, hp⟩

end Replica

namespace SubstrateGroup
open Conversation

variable {K : FrameCodec} {G : Group} {s t : SubstrateGroup} {p q : ReplicaID}
variable {a : GroupAction}

def convs (s : SubstrateGroup) : Network := fun q => (s q).conv

/-- Every member starts with an empty log, maybe from a snapshot of another replica. -/
def initial (G : Group) (kind : OrderingKind) (through : ReplicaID → ℕ) : SubstrateGroup :=
  fun p => Replica.start G p kind (through p)

def Deliverable (G : Group) (s : SubstrateGroup) (p : ReplicaID) : ReplicaAction → Prop
  | .request req => G.Deliverable s.convs p req
  | _ => True

instance (G : Group) (s : SubstrateGroup) (p : ReplicaID) (a : ReplicaAction) :
    Decidable (Deliverable G s p a) :=
  match a with
  | .request req => inferInstanceAs (Decidable (G.Deliverable s.convs p req))
  | .order _ | .apply | .awaitSubmit _ | .cancelSubmit _ | .waitForCausality _ | .cancelWait _
  | .advanceSnapshotWatermark _ | .publish _ _ | .trim => isTrue trivial

def step (K : FrameCodec) (G : Group) (s : SubstrateGroup) (a : GroupAction) :
    Option SubstrateGroup :=
  if a.replica ∈ G.members ∧ Deliverable G s a.replica a.action then
    ((s a.replica).step K a.action).map (Function.update s a.replica)
  else none

/-- The member list is fixed, an application sends data and the failure detector
heartbeats, and the log is truncated by the substrate only. -/
def Proper (K : FrameCodec) (_ : SubstrateGroup) (a : GroupAction) : Prop :=
  match a.action with
  | .request (.send _ payload) => K.isWatermark payload = false
  | .request (.truncateLog _) => False
  | .request req => req.isStatic = true
  | _ => True

/-- The application advances its watermark to an offset of its log up to which it has seen
every message. -/
def Promised (K : FrameCodec) (s : SubstrateGroup) (a : GroupAction) : Prop :=
  match a.action with
  | .advanceSnapshotWatermark through => through < (s a.replica).conv.log.frames.length ∧
      ∀ f ∈ (s a.replica).conv.log.frames.take (through + 1),
        K.isApp f.envelope.payload = true → f.envelope ∈ (s a.replica).handed
  | _ => True

/-- The logs of `p` and `q` hold the same message at every offset that both have. -/
def SameOffsets (s : SubstrateGroup) (p q : ReplicaID) : Prop :=
  ∀ x ∈ (s p).conv.log.frames.zip (s q).conv.log.frames, x.1.envelope = x.2.envelope

/-- A step at which the replica evaluates the trim frontier. -/
def MayTrim (K : FrameCodec) (s : SubstrateGroup) (a : GroupAction) : Prop :=
  match a.action with
  | .trim => True
  | .apply => ∃ e ∈ (s a.replica).ord.emitted[(s a.replica).consumed]?,
      K.isWatermark e.payload = true
  | _ => False

def Aligned (K : FrameCodec) (G : Group) (s : SubstrateGroup) (a : GroupAction) : Prop :=
  MayTrim K s a → ∀ q ∈ G.members, SameOffsets s a.replica q

/-- Every truncated message is in the graph of every member. -/
def TrimSafe (G : Group) (s : SubstrateGroup) : Prop :=
  ∀ p ∈ G.members, ∀ f ∈ (s p).conv.log.frames.take (s p).conv.log.firstOffset,
    ∀ q ∈ G.members, ∃ n ∈ (s q).conv.graph.nodes, n.envelope = f.envelope

/-- The last offset in the log of `q`, zero in an empty one. -/
def lastOffset (s : SubstrateGroup) (q : ReplicaID) : ℕ := (s q).conv.log.frames.length - 1

structure Invariant (K : FrameCodec) (G : Group) (s : SubstrateGroup) : Prop where
  group : G.Invariant s.convs
  replica : ∀ p ∈ G.members, Replica.Invariant G.members (s p)
  self : ∀ p ∈ G.members, (s p).sub.self = p
  unpublished : ∀ p ∈ G.members, ∀ mark ∈ (s p).sub.toPublish, mark.2 ≤ s.lastOffset p
  published : ∀ p ∈ G.members, ∀ e ∈ (s p).conv.issued, ∀ offset through,
    K.unmarshal e.payload = some (.watermark offset through) → through ≤ s.lastOffset p
  tracked : ∀ p ∈ G.members, ∀ q m, (s p).sub.trim.lookup q = some m → m.snapshot ≤ s.lastOffset q
  trimmed : TrimSafe G s

theorem invariant_initial (K : FrameCodec) (G : Group) (kind : OrderingKind)
    (through : ReplicaID → ℕ) : Invariant K G (initial G kind through) := by
  refine ⟨Group.invariant_start G, fun p hp => Replica.invariant_start hp kind (through p),
    fun _ _ => rfl, fun _ _ => nofun, fun _ _ => nofun, ?_, ?_⟩
  · intro p hp q m hm
    cases hm
  · intro p hp f hf
    cases hf

section Step

variable {ra : ReplicaAction} {r : Replica}

theorem step_eq_some (h : step K G s a = some t) : a.replica ∈ G.members ∧
    Deliverable G s a.replica a.action ∧ ∃ r, (s a.replica).step K a.action = some r ∧
      t = Function.update s a.replica r := by
  unfold step at h
  split at h
  · rename_i hg
    obtain ⟨r, hr, rfl⟩ := Option.map_eq_some_iff.mp h
    exact ⟨hg.1, hg.2, r, hr, rfl⟩
  · cases h

theorem convs_update (s : SubstrateGroup) (p : ReplicaID) (r : Replica) :
    convs (Function.update s p r) = Function.update s.convs p r.conv := by
  funext q
  by_cases hqp : q = p
  · subst hqp
    simp [convs]
  · simp [convs, hqp]

/-- A step that keeps the member list is one of the network of conversations, or none. -/
theorem group_update (h : G.Invariant s.convs) (hp : p ∈ G.members)
    (hd : Deliverable G s p ra) (hs : (s p).Static ra) (he : (s p).Effect K ra r) :
    G.Invariant (convs (Function.update s p r)) ∧
      G.Later s.convs (convs (Function.update s p r)) := by
  rw [convs_update]
  rcases he.conv with hc | ⟨req, hc, hreq⟩
  · rw [hc]
    have hsame : Function.update s.convs p (s p).conv = s.convs := Function.update_eq_self p s.convs
    rw [hsame]
    exact ⟨h, Group.Later.refl G _⟩
  · rw [hc]
    have hdel : G.Deliverable s.convs p req := by
      cases hreq with
      | request req => exact hd
      | truncateLog f => trivial
      | watermark hm => trivial
    have hnet : G.netStep s.convs ⟨p, req⟩ =
        some (Function.update s.convs p ((s.convs p).handle req)) := if_pos ⟨hp, hdel⟩
    have hstatic := hreq.isStatic hs
    exact ⟨h.step hstatic hnet, h.later_step hstatic hnet⟩

theorem lastOffset_le (hf : (s p).conv.log.frames <+: r.conv.log.frames) (q : ReplicaID) :
    s.lastOffset q ≤ lastOffset (Function.update s p r) q := by
  unfold lastOffset
  by_cases hqp : q = p
  · subst hqp
    rw [Function.update_self]
    exact Nat.sub_le_sub_right hf.length_le 1
  · rw [Function.update_of_ne hqp]

theorem lastOffset_update (hf : r.conv.log.frames = (s p).conv.log.frames) :
    lastOffset (Function.update s p r) q = s.lastOffset q := by
  unfold lastOffset
  by_cases hqp : q = p
  · subst hqp
    rw [Function.update_self, hf]
  · rw [Function.update_of_ne hqp]

theorem Proper.static (h : Proper K s a) : (s a.replica).Static a.action := by
  obtain ⟨p, ra⟩ := a
  cases ra with
  | request req => cases req <;> first | exact h | rfl
  | _ => trivial

theorem Proper.not_truncateLog (h : Proper K s a) (b : ℕ) :
    a.action ≠ .request (.truncateLog b) := by
  intro he
  rw [Proper, he] at h
  exact h

theorem Invariant.published_step (h : Invariant K G s) (ha : a.replica ∈ G.members)
    (hproper : Proper K s a) (he : (s a.replica).Effect K a.action r)
    (hf : (s a.replica).conv.log.frames <+: r.conv.log.frames) :
    ∀ q ∈ G.members, ∀ e ∈ (Function.update s a.replica r q).conv.issued, ∀ offset through,
      K.unmarshal e.payload = some (.watermark offset through) →
        through ≤ lastOffset (Function.update s a.replica r) q := by
  have hmono := lastOffset_le hf
  refine Group.forall_members_update (P := fun q (x : Replica) => ∀ e ∈ x.conv.issued,
    ∀ offset through, K.unmarshal e.payload = some (.watermark offset through) →
      through ≤ lastOffset (Function.update s a.replica r) q) ?_ ?_
  · intro e hmem offset through hw
    have hold : e ∈ (s a.replica).conv.issued →
        through ≤ lastOffset (Function.update s a.replica r) a.replica :=
      fun hin => (h.published _ ha e hin offset through hw).trans (hmono _)
    rcases he.issued (h.replica _ ha).live hproper.static with hsame | ⟨env, hnew, hcause⟩
    · exact hold (hsame ▸ hmem)
    · rw [hnew] at hmem
      rcases List.mem_append.mp hmem with hmem | hmem
      · exact hold hmem
      · rw [List.mem_singleton.mp hmem] at hw
        rcases hcause with ⟨io, hsend⟩ | ⟨mark, hmark, hpayload⟩
        · rw [Proper, hsend] at hproper
          simp [FrameCodec.isWatermark, hw] at hproper
        · rw [hpayload, K.unmarshal_marshal] at hw
          cases hw
          exact (h.unpublished _ ha mark hmark).trans (hmono _)
  · intro q hq e hmem offset through hw
    exact (h.published q hq e hmem offset through hw).trans (hmono q)

theorem Invariant.tracked_step (h : Invariant K G s) (ha : a.replica ∈ G.members)
    (hprom : Promised K s a) (he : (s a.replica).Effect K a.action r)
    (hf : (s a.replica).conv.log.frames <+: r.conv.log.frames) :
    ∀ p ∈ G.members, ∀ q m, (Function.update s a.replica r p).sub.trim.lookup q = some m →
      m.snapshot ≤ lastOffset (Function.update s a.replica r) q := by
  have hmono := lastOffset_le hf
  refine Group.forall_members_update (P := fun _ (x : Replica) => ∀ q m,
    x.sub.trim.lookup q = some m → m.snapshot ≤ lastOffset (Function.update s a.replica r) q) ?_ ?_
  · have hold : ∀ q m, (s a.replica).sub.trim.lookup q = some m →
        m.snapshot ≤ lastOffset (Function.update s a.replica r) q :=
      fun q m hm => (h.tracked _ ha q m hm).trans (hmono q)
    rcases he.tracker with hsame | ⟨env, offset, through, henv, hw, htrim⟩ |
      ⟨applied, through, hadv, htrim⟩
    · rw [hsame]
      exact hold
    · rw [htrim]
      refine Tracker.snapshot_le_update hold ?_
      obtain ⟨n, hn, rfl⟩ := (h.replica _ ha).node_of_emitted (List.mem_of_getElem? henv)
      obtain ⟨hq, hissued⟩ := h.group.own_node ha hn rfl
      exact (h.published _ hq _ hissued offset through hw).trans (hmono _)
    · rw [htrim]
      refine Tracker.snapshot_le_update hold ?_
      rw [Promised, hadv] at hprom
      rw [h.self _ ha]
      refine le_trans ?_ (hmono _)
      exact Nat.le_sub_one_of_lt hprom.1
  · exact fun p hp q m hm => (h.tracked p hp q m hm).trans (hmono q)

/-- Where the logs agree, what `p` holds below an offset of the log of `q` has reached `q`. -/
theorem Invariant.reached (h : Invariant K G s) (hq : q ∈ G.members) (hsame : SameOffsets s p q)
    {b : ℕ} (hb : b ≤ s.lastOffset q) {f : LogFrame} (hf : f ∈ (s p).conv.log.frames.take b) :
    ∃ n ∈ (s q).conv.graph.nodes, n.envelope = f.envelope := by
  obtain ⟨i, hi, hget⟩ := List.mem_take_iff_getElem.mp hf
  obtain ⟨hib, hilen⟩ := lt_min_iff.mp hi
  have hip : (s p).conv.log.frames[i]? = some f := List.getElem?_eq_some_iff.mpr ⟨hilen, hget⟩
  have hlen : i < (s q).conv.log.frames.length := by
    unfold lastOffset at hb
    omega
  obtain ⟨f', hf'⟩ : ∃ f', (s q).conv.log.frames[i]? = some f' :=
    ⟨_, List.getElem?_eq_getElem hlen⟩
  have hzip : (f, f') ∈ (s p).conv.log.frames.zip (s q).conv.log.frames :=
    List.mem_of_getElem? (List.getElem?_zip_eq_some.mpr ⟨hip, hf'⟩)
  obtain ⟨n, hn, hnf⟩ :=
    List.mem_map.mp ((h.replica q hq).live.logged.subset (List.mem_of_getElem? hf'))
  refine ⟨n, hn, ?_⟩
  rw [hsame _ hzip, ← hnf]
  rfl

theorem mem_graph_update (hn : (s p).conv.graph.nodes <+: r.conv.graph.nodes) {e : Envelope}
    (h : ∃ n ∈ (s q).conv.graph.nodes, n.envelope = e) :
    ∃ n ∈ (Function.update s p r q).conv.graph.nodes, n.envelope = e := by
  obtain ⟨n, hmem, he⟩ := h
  refine ⟨n, ?_, he⟩
  by_cases hqp : q = p
  · subst hqp
    rw [Function.update_self]
    exact hn.subset hmem
  · rwa [Function.update_of_ne hqp]

theorem Invariant.trimmed_step (h : Invariant K G s) (ha : a.replica ∈ G.members)
    (hproper : Proper K s a) (hprom : Promised K s a) (hal : Aligned K G s a)
    (he : (s a.replica).Effect K a.action r) : TrimSafe G (Function.update s a.replica r) := by
  have hinv := h.replica _ ha
  obtain ⟨_, hext⟩ := hinv.conv_step hproper.static he
  refine Group.forall_members_update (P := fun _ (x : Replica) =>
    ∀ f ∈ x.conv.log.frames.take x.conv.log.firstOffset, ∀ q ∈ G.members,
      ∃ n ∈ (Function.update s a.replica r q).conv.graph.nodes, n.envelope = f.envelope) ?_ ?_
  · intro f hf q hq
    refine mem_graph_update hext.nodes ?_
    have hold : f ∈ (s a.replica).conv.log.frames.take (s a.replica).conv.log.firstOffset →
        ∃ n ∈ (s q).conv.graph.nodes, n.envelope = f.envelope :=
      fun hf => h.trimmed _ ha f hf q hq
    rcases he.truncated hinv.live hproper.not_truncateLog with hsame | ⟨b, hb, hlog, hcause⟩
    · obtain ⟨rest, hrest⟩ := hext.frames
      rw [hsame, ← hrest,
        List.take_append_of_le_length (s a.replica).conv.log.firstOffset_le] at hf
      exact hold hf
    · rw [hlog, MessageLog.frames_truncate] at hf
      unfold MessageLog.truncate at hf
      split at hf
      · exact hold hf
      · have htrim : MayTrim K s a := by
          rcases hcause with hc | ⟨hc, hw⟩
          · rw [MayTrim, hc]
            trivial
          · rw [MayTrim, hc]
            exact hw
        rw [hinv.members] at hb
        obtain ⟨m, hm, hbm⟩ := Tracker.safeFrontier_le hb hq
        have hle : m.snapshot ≤ lastOffset (Function.update s a.replica r) q := by
          refine h.tracked_step ha hprom he hext.frames _ ha q m ?_
          rwa [Function.update_self]
        rw [lastOffset_update (by rw [hlog, MessageLog.frames_truncate])] at hle
        exact h.reached hq (hal htrim q hq) ((hbm.trans m.usableFrontier_le_snapshot).trans hle)
          (List.take_subset_take_left _ (min_le_left _ _) hf)
  · intro p hp f hf q hq
    exact mem_graph_update hext.nodes (h.trimmed p hp f hf q hq)

theorem Invariant.step (h : Invariant K G s) (hproper : Proper K s a) (hprom : Promised K s a)
    (hal : Aligned K G s a) (hstep : step K G s a = some t) : Invariant K G t := by
  obtain ⟨ha, hd, r, hr, rfl⟩ := step_eq_some hstep
  have he := Replica.step_effect hr
  have hinv := h.replica _ ha
  obtain ⟨_, hext⟩ := hinv.conv_step hproper.static he
  have hmono := lastOffset_le hext.frames
  refine ⟨(group_update h.group ha hd hproper.static he).1, ?_, ?_, ?_,
    h.published_step ha hproper he hext.frames, h.tracked_step ha hprom he hext.frames,
    h.trimmed_step ha hproper hprom hal he⟩
  · exact Group.forall_members_update (P := fun _ => Replica.Invariant G.members)
      (hinv.step hproper.static he) h.replica
  · exact Group.forall_members_update (P := fun p (x : Replica) => x.sub.self = p)
      (he.roster.2.trans (h.self _ ha)) h.self
  · refine Group.forall_members_update (P := fun p (x : Replica) => ∀ mark ∈ x.sub.toPublish,
      mark.2 ≤ lastOffset (Function.update s a.replica r) p) ?_ ?_
    · intro mark hmark
      refine le_trans ?_ (hmono _)
      rcases he.toPublish hmark with hold | hadv
      · exact h.unpublished _ ha mark hold
      · rw [Promised, hadv] at hprom
        exact Nat.le_sub_one_of_lt hprom.1
    · exact fun p hp mark hmark => (h.unpublished p hp mark hmark).trans (hmono p)

end Step

section Decide

variable (K : FrameCodec) (G : Group) (s : SubstrateGroup) (a : GroupAction)

instance : Decidable (Proper K s a) :=
  match a with
  | ⟨_, .request (.send _ payload)⟩ => inferInstanceAs (Decidable (K.isWatermark payload = false))
  | ⟨_, .request (.truncateLog _)⟩ => isFalse id
  | ⟨_, .request (.incoming _ _ _)⟩ | ⟨_, .request (.maskout _)⟩ | ⟨_, .request (.maskin _)⟩
  | ⟨_, .request .replayLog⟩ | ⟨_, .request (.freezeMember _)⟩ | ⟨_, .request (.addMember _)⟩
  | ⟨_, .request (.requestMissing _)⟩ => inferInstanceAs (Decidable (_ = true))
  | ⟨_, .order _⟩ | ⟨_, .apply⟩ | ⟨_, .awaitSubmit _⟩ | ⟨_, .cancelSubmit _⟩
  | ⟨_, .waitForCausality _⟩ | ⟨_, .cancelWait _⟩ | ⟨_, .advanceSnapshotWatermark _⟩
  | ⟨_, .publish _ _⟩ | ⟨_, .trim⟩ => isTrue trivial

instance : Decidable (Promised K s a) :=
  match a with
  | ⟨_, .advanceSnapshotWatermark _⟩ => inferInstanceAs (Decidable (_ ∧ _))
  | ⟨_, .request _⟩ | ⟨_, .order _⟩ | ⟨_, .apply⟩ | ⟨_, .awaitSubmit _⟩ | ⟨_, .cancelSubmit _⟩
  | ⟨_, .waitForCausality _⟩ | ⟨_, .cancelWait _⟩ | ⟨_, .publish _ _⟩ | ⟨_, .trim⟩ =>
    isTrue trivial

instance : Decidable (MayTrim K s a) :=
  match a with
  | ⟨p, .apply⟩ => inferInstanceAs (Decidable (∃ e ∈ (s p).ord.emitted[(s p).consumed]?,
      K.isWatermark e.payload = true))
  | ⟨_, .trim⟩ => isTrue trivial
  | ⟨_, .request _⟩ | ⟨_, .order _⟩ | ⟨_, .awaitSubmit _⟩ | ⟨_, .cancelSubmit _⟩
  | ⟨_, .waitForCausality _⟩ | ⟨_, .cancelWait _⟩ | ⟨_, .publish _ _⟩
  | ⟨_, .advanceSnapshotWatermark _⟩ => isFalse id

instance (p q : ReplicaID) : Decidable (SameOffsets s p q) :=
  inferInstanceAs (Decidable (∀ x ∈ (s p).conv.log.frames.zip (s q).conv.log.frames,
    x.1.envelope = x.2.envelope))

instance : Decidable (Aligned K G s a) := inferInstanceAs (Decidable (_ → _))

end Decide

/-- Where the logs agree at each step that evaluates a trim frontier, a message leaves a
log only when every member has it in its graph. -/
theorem trimmed_reached_everyone {kind : OrderingKind} {through : ReplicaID → ℕ}
    (hs : Reach (step K G) (fun s a => Proper K s a ∧ Promised K s a ∧ Aligned K G s a)
      (initial G kind through) s) : TrimSafe G s := by
  have hinv : Invariant K G s := hs.invariant (invariant_initial K G kind through)
    fun s a t h hg hstep => h.step hg.1 hg.2.1 hg.2.2 hstep
  exact hinv.trimmed

section Scripts
open Replica

/-- The actions of one replica. -/
def acts (p : ReplicaID) (as : List ReplicaAction) : List GroupAction := as.map fun a => ⟨p, a⟩

/-- Both replicas log the same messages and both truncate the first of them. -/
def sharedLogs : List GroupAction :=
  acts [1] ([send (.app [7]), send (.app [8])] ++ forward ++ forward ++
    [.advanceSnapshotWatermark 1, .publish .standard 0]) ++
  acts [2] ([receive (message [1] [1, 0] (.app [7])), receive (message [1] [2, 0] (.app [8])),
    receive (message [1] [3, 0] (.watermark 1 1))] ++ forward ++ forward ++ forward ++
    [.advanceSnapshotWatermark 1, .publish .standard 0, .trim]) ++
  acts [1] (receive (message [2] [3, 1] (.watermark 1 1)) :: forward ++ forward)

theorem trimmed_reached_everyone_shared : ∃ s,
    execute (step .tagged duo) (fun s a => Proper .tagged s a ∧ Promised .tagged s a ∧
        Aligned .tagged duo s a) (initial duo .partialOrder fun _ => 0) sharedLogs = some s ∧
      (s [1]).conv.log.firstOffset = 1 ∧ (s [2]).conv.log.firstOffset = 1 ∧ TrimSafe duo s := by
  have hrun : (execute (step .tagged duo) (fun s a => Proper .tagged s a ∧ Promised .tagged s a ∧
      Aligned .tagged duo s a) (initial duo .partialOrder fun _ => 0) sharedLogs).map
      (fun s => decide ((s [1]).conv.log.firstOffset = 1 ∧ (s [2]).conv.log.firstOffset = 1)) =
        some true := by
    decide +kernel
  obtain ⟨s, he, hs, hc⟩ := reach_of_execute hrun
  obtain ⟨h1, h2⟩ := of_decide_eq_true hc
  exact ⟨s, he, h1, h2, trimmed_reached_everyone hs⟩

/-- Each replica has two messages of its own in its log, and promises to need nothing up to
its offset one; the messages of the first never reach the second. -/
def ownLogs : List GroupAction :=
  acts [1] ([send (.app [7]), send (.app [8])] ++ forward ++ forward ++
    [.advanceSnapshotWatermark 1]) ++
  acts [2] ([send (.app [5]), send (.app [6])] ++ forward ++ forward ++
    [.advanceSnapshotWatermark 1, .publish .standard 0]) ++
  acts [1] ([receive (message [2] [0, 1] (.app [5])), receive (message [2] [0, 2] (.app [6])),
    receive (message [2] [0, 3] (.watermark 1 1))] ++ forward ++ forward ++ forward)

/-- A replica truncates a message that another member has neither received nor snapshotted. -/
theorem trim_loses_message : ∃ s,
    Reach (step .tagged duo) (fun s a => Proper .tagged s a ∧ Promised .tagged s a)
        (initial duo .partialOrder fun _ => 0) s ∧
      ∃ f ∈ (s [1]).conv.log.frames.take (s [1]).conv.log.firstOffset,
        (∀ n ∈ (s [2]).conv.graph.nodes, n.envelope ≠ f.envelope) ∧
        (∀ g ∈ (s [2]).conv.log.frames, g.envelope ≠ f.envelope) ∧
        f.envelope ∉ (s [2]).handed := by
  have hrun : (execute (step .tagged duo) (fun s a => Proper .tagged s a ∧ Promised .tagged s a)
      (initial duo .partialOrder fun _ => 0) ownLogs).map (fun s => decide (
        ∃ f ∈ (s [1]).conv.log.frames.take (s [1]).conv.log.firstOffset,
          (∀ n ∈ (s [2]).conv.graph.nodes, n.envelope ≠ f.envelope) ∧
          (∀ g ∈ (s [2]).conv.log.frames, g.envelope ≠ f.envelope) ∧
          f.envelope ∉ (s [2]).handed)) = some true := by
    decide +kernel
  obtain ⟨s, _, hs, hc⟩ := reach_of_execute hrun
  exact ⟨s, hs, of_decide_eq_true hc⟩

end Scripts

end SubstrateGroup
end Comlink
