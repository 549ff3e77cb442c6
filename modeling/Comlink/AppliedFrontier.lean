import Comlink.OrderedReplica

/-!
# The applied offset as a frontier

`AppliedOffset` is the largest local offset of a message that was handed to the apply
pump. It bounds a range of the log that the application has seen only when the order
layer follows the log, which the partial order does, and when the first entry of the
log, whose offset is the initial value, is no application message.
-/
namespace Comlink

/-- The frames at the offsets up to `n`. -/
def MessageLog.upTo (l : MessageLog) (n : ℕ) : List LogFrame := l.frames.take (n + 1)

namespace Conversation

variable {K : FrameCodec} {c : Conversation} {members : List ReplicaID}

/-- While the log is empty no application message is sent or arrives. -/
def QuietFirst (K : FrameCodec) (c : Conversation) : Request → Prop
  | .send _ payload => c.log.frames = [] → K.isApp payload = false
  | .incoming _ _ (.envelope env) => c.log.frames = [] → K.isApp env.payload = false
  | _ => True

instance (K : FrameCodec) (c : Conversation) (req : Request) : Decidable (QuietFirst K c req) :=
  match req with
  | .send _ _ => inferInstanceAs (Decidable (_ → _))
  | .incoming _ _ (.envelope _) => inferInstanceAs (Decidable (_ → _))
  | .incoming _ _ (.lostMessageRequest _) | .incoming _ _ (.restartMessage _)
  | .incoming _ _ (.restartAck _ _) | .maskout _ | .maskin _ | .replayLog | .freezeMember _
  | .addMember _ | .requestMissing _ | .truncateLog _ => isTrue trivial

/-- The log starts with no application message, and none is waiting to start it. -/
structure HeadQuiet (K : FrameCodec) (c : Conversation) : Prop where
  head : ∀ f ∈ c.log.frames.head?, K.isApp f.envelope.payload = false
  nodes : c.log.frames = [] → ∀ n ∈ c.graph.nodes, K.isApp n.envelope.payload = false
  deferred : c.log.frames = [] → DeferredIn (fun e => K.isApp e.payload = false) c

theorem HeadQuiet.of_frames {c' : Conversation} (h : HeadQuiet K c)
    (hf : c.log.frames <+: c'.log.frames) (hne : c.log.frames ≠ []) : HeadQuiet K c' := by
  obtain ⟨rest, hrest⟩ := hf
  have hne' : c'.log.frames ≠ [] := by
    rw [← hrest]
    exact List.append_ne_nil_of_left_ne_nil hne rest
  refine ⟨?_, fun hnil => absurd hnil hne', fun hnil => absurd hnil hne'⟩
  rw [← hrest, List.head?_append_of_ne_nil _ hne]
  exact h.head

theorem HeadQuiet.handle (h : HeadQuiet K c) (hl : Live members c) {req : Request}
    (hs : req.isStatic = true) (hq : QuietFirst K c req) : HeadQuiet K (c.handle req) := by
  have hlive := hl.handle hs
  have heff := hl.effect req hs
  by_cases hne : c.log.frames = []
  · generalize c.handle req = c' at hlive heff ⊢
    cases heff with
    | quiet hquiet =>
      refine ⟨?_, ?_, ?_⟩
      · rw [hquiet.frames]
        exact h.head
      · rw [hquiet.graph]
        exact fun _ => h.nodes hne
      · intro _ k pe hpe
        rw [hquiet.deferred] at hpe
        exact h.deferred hne k pe hpe
    | @issue io payload n log henv hi hslot hlog =>
      have hpayload : n.envelope.payload = payload := by
        obtain ⟨vec, _, hvec⟩ := Option.map_eq_some_iff.mp henv
        rw [← hvec]
      have hframes : log.frames = [n.frame] := by rw [hlog, hne, List.nil_append]
      refine ⟨?_, ?_, ?_⟩
      · intro f hf
        simp only [broadcastEnvelope, hframes, List.head?_cons, Option.mem_def,
          Option.some.injEq] at hf
        rw [← hf, Node.frame, hpayload]
        exact hq hne
      · intro hnil
        simp [broadcastEnvelope, hframes] at hnil
      · intro hnil
        simp [broadcastEnvelope, hframes] at hnil
    | receive hm =>
      have hmoves := hm _ (h.deferred hne) (hq hne)
      have hnodes : ∀ n ∈ c'.graph.nodes, K.isApp n.envelope.payload = false := by
        intro n hn
        rcases hmoves.mem_nodes hn with hold | hnew
        · exact h.nodes hne n hold
        · exact hnew
      refine ⟨?_, fun _ => hnodes, fun _ => hmoves.deferredIn (h.deferred hne)⟩
      intro f hf
      obtain ⟨n, hn, rfl⟩ := List.mem_map.mp (hlive.logged.subset (List.mem_of_head? hf))
      exact hnodes n hn
  · exact h.of_frames heff.extends.frames hne

end Conversation

namespace Replica
open Conversation GuardedRuns

variable {K : FrameCodec} {s t : Replica} {a : ReplicaAction} {members : List ReplicaID}

/-- Every application message at an offset up to `AppliedOffset` was passed to `Apply`. -/
def Frontier (K : FrameCodec) (s : Replica) : Prop :=
  ∀ f ∈ s.conv.log.upTo s.sub.appliedOffset, K.isApp f.envelope.payload = true →
    ∃ m ∈ s.sub.applied, m.id = f.envelope.id

/-- The application messages of the log up to the next message to hand over were handed
over before. -/
def NextInLogOrder (K : FrameCodec) (s : Replica) : Prop :=
  ∀ e ∈ s.ord.emitted[s.consumed]?, ∀ k ∈ s.sub.keyOf e,
    Substrate.localOffset s.conv.log k ≠ 0 →
      ∀ f ∈ s.conv.log.upTo (Substrate.localOffset s.conv.log k),
        K.isApp f.envelope.payload = true → f.envelope = e ∨ f.envelope ∈ s.handed

/-- The order layers that do not forward the delivery channel follow the log all the
same. -/
def InLogOrder (K : FrameCodec) (s : Replica) : ReplicaAction → Prop
  | .apply => match s.ord with
    | .partialOrder _ => True
    | .total _ | .semOrder _ => NextInLogOrder K s
  | _ => True

def StartsQuietly (K : FrameCodec) (s : Replica) : ReplicaAction → Prop
  | .request req => QuietFirst K s.conv req
  | _ => True

theorem localOffset_eq_some {log : MessageLog} {k : Key}
    (h : Substrate.localOffset log k ≠ 0) :
    ∃ f, log.frames[Substrate.localOffset log k]? = some f ∧ f.key = k := by
  cases hl : log.lookupBySender k with
  | none => simp [Substrate.localOffset, hl] at h
  | some found =>
    obtain ⟨off, env⟩ := found
    obtain ⟨f, hf, _, hk, _⟩ := MessageLog.mem_of_lookupBySender hl
    have hoff : Substrate.localOffset log k = off := by simp [Substrate.localOffset, hl]
    rw [hoff]
    exact ⟨f, hf, hk⟩

instance (K : FrameCodec) (s : Replica) : Decidable (Frontier K s) :=
  inferInstanceAs (Decidable (∀ f ∈ s.conv.log.upTo s.sub.appliedOffset,
    K.isApp f.envelope.payload = true → ∃ m ∈ s.sub.applied, m.id = f.envelope.id))

instance (K : FrameCodec) (s : Replica) : Decidable (NextInLogOrder K s) :=
  inferInstanceAs (Decidable (∀ e ∈ s.ord.emitted[s.consumed]?, ∀ k ∈ s.sub.keyOf e,
    Substrate.localOffset s.conv.log k ≠ 0 →
      ∀ f ∈ s.conv.log.upTo (Substrate.localOffset s.conv.log k),
        K.isApp f.envelope.payload = true → f.envelope = e ∨ f.envelope ∈ s.handed))

instance (K : FrameCodec) (s : Replica) (a : ReplicaAction) : Decidable (InLogOrder K s a) :=
  match a with
  | .apply => match h : s.ord with
    | .partialOrder _ => isTrue (by simp [InLogOrder, h])
    | .total _ | .semOrder _ => decidable_of_iff (NextInLogOrder K s) (by simp [InLogOrder, h])
  | .request _ | .order _ | .awaitSubmit _ | .cancelSubmit _ | .waitForCausality _
  | .cancelWait _ | .advanceSnapshotWatermark _ | .publish _ _ | .trim => isTrue trivial

instance (K : FrameCodec) (s : Replica) (a : ReplicaAction) : Decidable (StartsQuietly K s a) :=
  match a with
  | .request req => inferInstanceAs (Decidable (QuietFirst K s.conv req))
  | .apply | .order _ | .awaitSubmit _ | .cancelSubmit _ | .waitForCausality _
  | .cancelWait _ | .advanceSnapshotWatermark _ | .publish _ _ | .trim => isTrue trivial

/-- Under the partial order a message is handed over after everything before it in the
log: a logged message stands there in the order of its delivery. -/
theorem Invariant.nextInLogOrder (h : Invariant members s) {out : List Envelope}
    (ho : s.ord = .partialOrder out) : NextInLogOrder K s := by
  intro e he k hk hne f hf _
  have hsound := h.live.sound
  obtain ⟨pre, n, post, hg, rfl, hhanded⟩ := h.next_node ho he
  have hn : n ∈ s.conv.graph.nodes := by
    rw [hg]
    exact List.mem_append_right _ (List.mem_cons_self ..)
  obtain ⟨i, _, hi, hkey⟩ := h.keyOf_node hn
  have hk' : (⟨n.envelope.sender, n.envelope.id.vectorClock.atSlot i⟩ : Key) = k :=
    Option.some.inj (hkey.symm.trans hk)
  obtain ⟨fo, hfo, hfk⟩ := localOffset_eq_some hne
  obtain ⟨x, hx, rfl⟩ := List.mem_map.mp (h.live.logged.subset (List.mem_of_getElem? hfo))
  rw [hhanded]
  rcases hsound.eq_or_before hg hi hx (hfk.trans hk'.symm) with rfl | hpre
  · rcases h.live.frame_before hg hfo hf with rfl | hbefore
    · exact Or.inl rfl
    · obtain ⟨b, hb, rfl⟩ := List.mem_map.mp hbefore
      exact Or.inr (List.mem_map_of_mem hb)
  · obtain ⟨u, v, rfl⟩ := List.append_of_mem hpre
    have hg' : s.conv.graph.nodes = u ++ x :: (v ++ n :: post) := by rw [hg]; simp
    refine Or.inr ?_
    rcases h.live.frame_before hg' hfo hf with rfl | hbefore
    · exact List.mem_map_of_mem (List.mem_append_right _ (List.mem_cons_self ..))
    · obtain ⟨b, hb, rfl⟩ := List.mem_map.mp hbefore
      exact List.mem_map_of_mem (List.mem_append_left _ hb)

/-- What was handed over was applied, and it covers the log up to the applied offset. -/
structure FrontierInvariant (K : FrameCodec) (members : List ReplicaID) (s : Replica) : Prop
    extends Invariant members s where
  fresh : s.sub.snapshotThrough = 0
  passed : ∀ e ∈ s.handed, K.isApp e.payload = true → ∃ m ∈ s.sub.applied, m.id = e.id
  inLog : s.sub.appliedOffset ≠ 0 → s.sub.appliedOffset < s.conv.log.frames.length
  covered : s.sub.appliedOffset ≠ 0 → ∀ f ∈ s.conv.log.upTo s.sub.appliedOffset,
    K.isApp f.envelope.payload = true → f.envelope ∈ s.handed

theorem frontierInvariant_start {G : Group} {p : ReplicaID} (hp : p ∈ G.members)
    (kind : OrderingKind) : FrontierInvariant K G.members (start G p kind 0) :=
  ⟨invariant_start hp kind 0, rfl, nofun, fun h => absurd rfl h, fun h => absurd rfl h⟩

/-- A step without application data, whether it hands a message over or not. -/
theorem FrontierInvariant.of_records (h : FrontierInvariant K members s)
    (hi : Invariant members t) (hf : s.conv.log.frames <+: t.conv.log.frames)
    (hr : s.sub.SameRecords t.sub) {rest : List Envelope} (hh : t.handed = s.handed ++ rest)
    (happ : ∀ e ∈ rest, K.isApp e.payload = false) : FrontierInvariant K members t := by
  refine ⟨hi, hr.snapshotThrough.trans h.fresh, ?_, ?_, ?_⟩
  · rw [hh, hr.applied]
    intro e he hea
    rcases List.mem_append.mp he with he | he
    · exact h.passed e he hea
    · rw [happ e he] at hea
      cases hea
  · rw [hr.appliedOffset]
    exact fun hne => (h.inLog hne).trans_le hf.length_le
  · rw [hr.appliedOffset, hh]
    intro hne f hmem hfa
    refine List.mem_append_left _ (h.covered hne f ?_ hfa)
    have hlt := h.inLog hne
    obtain ⟨more, hmore⟩ := hf
    rw [MessageLog.upTo, ← hmore, List.take_append_of_le_length (by omega)] at hmem
    exact hmem

theorem FrontierInvariant.message (h : FrontierInvariant K members s) (hi : Invariant members t)
    (hnext : NextInLogOrder K s) {env : Envelope} {payload : List UInt8} {k : Key}
    (henv : s.ord.emitted[s.consumed]? = some env) (hk : s.sub.keyOf env = some k)
    (hh : t.handed = s.handed ++ [env]) (hconv : t.conv.log = s.conv.log)
    (hsub : t.sub = s.sub.applyMessage
      ⟨env.id, payload, env.sender, Substrate.localOffset s.conv.log k, env.wave⟩ k) :
    FrontierInvariant K members t := by
  have hcov : ∀ o, ¬ s.sub.Covered o := by
    intro o ho
    rw [Substrate.Covered, h.fresh] at ho
    omega
  refine ⟨hi, by rw [hsub]; simp [h.fresh], ?_, ?_, ?_⟩
  · intro e he hea
    rw [hsub, Substrate.applied_applyMessage, if_neg (hcov _)]
    rw [hh] at he
    rcases List.mem_append.mp he with he | he
    · obtain ⟨m, hm, hid⟩ := h.passed e he hea
      exact ⟨m, List.mem_append_left _ hm, hid⟩
    · rw [List.mem_singleton.mp he]
      exact ⟨_, List.mem_append_right _ (List.mem_singleton.mpr rfl), rfl⟩
  · rw [hsub, hconv, Substrate.appliedOffset_applyMessage]
    intro hne
    rcases Nat.le_total (Substrate.localOffset s.conv.log k) s.sub.appliedOffset with hle | hle
    · rw [max_eq_left hle] at hne ⊢
      exact h.inLog hne
    · rw [max_eq_right hle] at hne ⊢
      obtain ⟨f, hf, _⟩ := localOffset_eq_some hne
      exact (List.getElem?_eq_some_iff.mp hf).1
  · rw [hsub, hconv, Substrate.appliedOffset_applyMessage, hh]
    intro hne f hmem hfa
    rcases Nat.le_total (Substrate.localOffset s.conv.log k) s.sub.appliedOffset with hle | hle
    · rw [max_eq_left hle] at hne hmem
      exact List.mem_append_left _ (h.covered hne f hmem hfa)
    · rw [max_eq_right hle] at hne hmem
      rcases hnext env henv k hk hne f hmem hfa with rfl | hold
      · exact List.mem_append_right _ (List.mem_singleton.mpr rfl)
      · exact List.mem_append_left _ hold

theorem Invariant.next_of_inLogOrder (h : Invariant members s) (hg : InLogOrder K s .apply) :
    NextInLogOrder K s := by
  cases ho : s.ord with
  | partialOrder out => exact h.nextInLogOrder ho
  | total t => simpa [InLogOrder, ho] using hg
  | semOrder o => simpa [InLogOrder, ho] using hg

theorem FrontierInvariant.step (h : FrontierInvariant K members s) (hs : Static s a)
    (hg : InLogOrder K s a) (he : Effect K s a t) : FrontierInvariant K members t := by
  have hi := h.toInvariant.step hs he
  have hframes := (h.conv_step hs he).2.frames
  cases h.progress he with
  | idle hh hr =>
    have hnone : t.handed = s.handed ++ [] := by rw [hh, List.append_nil]
    exact h.of_records hi hframes hr hnone nofun
  | skip ha henv hh happ hr =>
    refine h.of_records hi hframes hr hh ?_
    intro e hmem
    rw [List.mem_singleton.mp hmem]
    exact happ
  | message ha henv hh happ hk hlog hsub =>
    subst ha
    exact h.message hi (h.next_of_inLogOrder hg) henv hk hh hlog hsub

/-- What is missing to a frontier is the first entry of the log at most. -/
theorem FrontierInvariant.frontier_iff (h : FrontierInvariant K members s) : Frontier K s ↔
    ∀ f ∈ s.conv.log.frames.head?, K.isApp f.envelope.payload = true →
      ∃ m ∈ s.sub.applied, m.id = f.envelope.id := by
  constructor
  · intro hfr f hf
    refine hfr f ?_
    cases hframes : s.conv.log.frames with
    | nil => simp [hframes] at hf
    | cons g rest =>
      rw [hframes] at hf
      cases hf
      simp [MessageLog.upTo, hframes]
  · intro hfirst f hf hfa
    by_cases hz : s.sub.appliedOffset = 0
    · refine hfirst f ?_ hfa
      rw [MessageLog.upTo, hz] at hf
      cases hframes : s.conv.log.frames with
      | nil => simp [hframes] at hf
      | cons g rest =>
        rw [hframes] at hf
        simpa [eq_comm] using hf
    · exact h.passed f.envelope (h.covered hz f hf hfa) hfa

theorem headQuiet_step (h : Invariant members s) (hq : HeadQuiet K s.conv) (hs : Static s a)
    (hg : StartsQuietly K s a) (he : Effect K s a t) : HeadQuiet K t.conv := by
  rcases he.conv with hc | ⟨req, hc, hreq⟩
  · rwa [hc]
  · rw [hc]
    refine hq.handle h.live (hreq.isStatic hs) ?_
    cases hreq with
    | request req => exact hg
    | truncateLog f => trivial
    | watermark hm =>
      intro _
      rw [FrameCodec.isApp, K.unmarshal_marshal]

/-- Built without a snapshot, on a log that starts with no application message, and with
an order layer that follows the log, a substrate reports a frontier. -/
theorem appliedOffset_isFrontier {G : Group} {p : ReplicaID} (hp : p ∈ G.members)
    (kind : OrderingKind)
    (hs : Reach (Replica.step K)
      (fun s a => Static s a ∧ StartsQuietly K s a ∧ InLogOrder K s a) (start G p kind 0) s) :
    Frontier K s := by
  have hinv : FrontierInvariant K G.members s ∧ HeadQuiet K s.conv := by
    refine hs.invariant (P := fun s => FrontierInvariant K G.members s ∧ HeadQuiet K s.conv)
      ⟨frontierInvariant_start hp kind, nofun, nofun, ?_⟩ ?_
    · intro _ k pe hpe
      cases hpe
    · rintro s a t ⟨h, hq⟩ ⟨hstatic, hquiet, hord⟩ hstep
      have he := step_effect hstep
      exact ⟨h.step hstatic hord he, headQuiet_step h.toInvariant hq hstatic hquiet he⟩
  refine hinv.1.frontier_iff.mpr fun f hf hfa => ?_
  rw [hinv.2.head f hf] at hfa
  cases hfa

/-- The total order reads one delivery and asks whether the next wave can be drained. -/
def observe : List ReplicaAction :=
  [.order (.total .recv), .order (.total .waveComplete), .order (.total .membership)]

/-- The total order fetches a wave and emits it to the apply pump. -/
def drain (sorted : List Envelope) : List ReplicaAction :=
  .order (.total (.messagesInWave sorted)) ::
    sorted.flatMap fun _ => [.order (.total .emit), .apply]

/-- A heartbeat, a message, an own message and another one are logged, and the wave of the
first two is drained. -/
def heartbeatFirst : List ReplicaAction :=
  [send .heartbeat, receive (message [2] [0, 1] (.app [7])), send (.app [8]),
    receive (message [2] [2, 2] (.app [9]))] ++ observe ++ observe ++ observe ++ observe ++
  drain [message [1] [1, 0] .heartbeat, message [2] [0, 1] (.app [7])]

theorem appliedOffset_isFrontier_total : ∃ s,
    execute (Replica.step .tagged) (fun s a => Static s a ∧ StartsQuietly .tagged s a ∧
        InLogOrder .tagged s a) (start duo [1] .total 0) heartbeatFirst = some s ∧
      s.sub.appliedOffset = 1 ∧ Frontier .tagged s := by
  have hrun : (execute (Replica.step .tagged) (fun s a => Static s a ∧
      StartsQuietly .tagged s a ∧ InLogOrder .tagged s a) (start duo [1] .total 0)
      heartbeatFirst).map (fun s => decide (s.sub.appliedOffset = 1)) = some true := by
    decide +kernel
  obtain ⟨s, he, hs, hc⟩ := reach_of_execute hrun
  exact ⟨s, he, of_decide_eq_true hc, appliedOffset_isFrontier (by decide) .total hs⟩

/-- Two own messages are logged before the other replica's message of the first wave. -/
def waveOvertakes : List ReplicaAction :=
  [send (.app [7]), send (.app [8]), receive (message [2] [0, 1] (.app [5])),
    receive (message [2] [1, 2] (.app [6]))] ++ observe ++ observe ++ observe ++ observe ++
  drain [message [1] [1, 0] (.app [7]), message [2] [0, 1] (.app [5])]

/-- The applied offset runs ahead of what was applied: at the start under any order, and
where waves or classes overtake the log. -/
theorem appliedOffset_runs_ahead :
    (∃ s, Reach (Replica.step .tagged) Static (start duo [1] .partialOrder 0) s ∧
      ¬ Frontier .tagged s) ∧
    (∃ s, Reach (Replica.step .tagged) Static (start duo [1] .total 0) s ∧
      s.sub.appliedOffset = 2 ∧ ¬ Frontier .tagged s) ∧
    ∃ s, Reach (Replica.step .tagged) Static
      (start duo [1] (.semOrder fun payload => if payload = [1, 7] then 2 else 1) 0) s ∧
      s.sub.appliedOffset = 1 ∧ ¬ Frontier .tagged s := by
  have hpartial : (execute (Replica.step .tagged) Static (start duo [1] .partialOrder 0)
      [send (.app [7])]).map (fun s => decide (¬ Frontier .tagged s)) = some true := by
    decide +kernel
  have htotal : (execute (Replica.step .tagged) Static (start duo [1] .total 0) waveOvertakes).map
      (fun s => decide (s.sub.appliedOffset = 2 ∧ ¬ Frontier .tagged s)) = some true := by
    decide +kernel
  have hsem : (execute (Replica.step .tagged) Static
      (start duo [1] (.semOrder fun payload => if payload = [1, 7] then 2 else 1) 0)
      [send (.app [7]), receive (message [2] [0, 1] (.app [5])), .order (.semOrder .standard),
        .order (.semOrder .standard), .apply]).map
      (fun s => decide (s.sub.appliedOffset = 1 ∧ ¬ Frontier .tagged s)) = some true := by
    decide +kernel
  obtain ⟨s, _, hs, hc⟩ := reach_of_execute hpartial
  obtain ⟨s', _, hs', hc'⟩ := reach_of_execute htotal
  obtain ⟨s'', _, hs'', hc''⟩ := reach_of_execute hsem
  exact ⟨⟨s, hs, of_decide_eq_true hc⟩, ⟨s', hs', of_decide_eq_true hc'⟩,
    ⟨s'', hs'', of_decide_eq_true hc''⟩⟩

end Replica
end Comlink
